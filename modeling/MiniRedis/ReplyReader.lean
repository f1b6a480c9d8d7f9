import MiniRedis.ParserRoundTrip

/-!
# Reading replies without limits

A client reads RESP by its grammar: a text up to the first CR LF, a bulk string by its
length, an array by its count. It has none of the limits of the server's parser. A frame
comes back from its encoding, whatever follows, if no text in it has a line end.
-/
namespace MiniRedis
open Numeral Wire PrefixCode ParserRoundTrip

/-! ## Texts without line ends -/

def OneLine (s : String) : Prop := ∀ c ∈ s.toList, c ≠ '\r' ∧ c ≠ '\n'

instance (s : String) : Decidable (OneLine s) :=
  List.decidableBAll (fun c => c ≠ '\r' ∧ c ≠ '\n') s.toList

namespace OneLine

theorem append {s t : String} (hs : OneLine s) (ht : OneLine t) : OneLine (s ++ t) := by
  intro c hc
  rw [String.toList_append] at hc
  exact (List.mem_append.mp hc).elim (hs c) (ht c)

/-- A byte below 128 in the encoding of a character is the whole of it. -/
theorem val_of_mem_utf8 {c : Char} {b : UInt8} (h : b ∈ String.utf8EncodeChar c)
    (hb : b.toNat < 128) : c.val.toNat = b.toNat := by
  unfold String.utf8EncodeChar at h
  dsimp only at h
  split_ifs at h
  · rw [List.mem_singleton.mp h, UInt8.toNat_ofNat']
    omega
  all_goals
    simp only [List.mem_cons, List.not_mem_nil, or_false] at h
    rcases h with rfl | h
    · rw [UInt8.toNat_ofNat'] at hb
      omega
  · rw [h, UInt8.toNat_ofNat'] at hb
    omega
  · rcases h with rfl | rfl <;> (rw [UInt8.toNat_ofNat'] at hb; omega)
  · rcases h with rfl | rfl | rfl <;> (rw [UInt8.toNat_ofNat'] at hb; omega)

theorem noCrlf {s : String} (h : OneLine s) : NoCrlf (asBytes s) := by
  refine noCrlf_of_not_mem fun hmem => ?_
  rw [← String.ofList_toList (s := s), asBytes_ofList] at hmem
  have hmem := List.mem_flatMap.mp hmem
  cases hmem with
  | intro c hc =>
      have hval : c.val.toNat = 13 := val_of_mem_utf8 hc.2 (by decide)
      exact (h c hc.1).1 (Char.ext (UInt32.toNat_inj.mp hval))

end OneLine

/-- No simple string and no error in the frame has a line end in its text. -/
def Unsplit (f : Frame) : Prop :=
  ∀ g ∈ f.subframes, ∀ s, g = .simple s ∨ g = .error s → OneLine s

namespace Unsplit

theorem simple {s : String} (h : OneLine s) : Unsplit (.simple s) := by
  intro g hg t ht
  obtain rfl := List.mem_singleton.mp hg
  cases ht with
  | inl ht => exact Frame.simple.inj ht ▸ h
  | inr ht => cases ht

theorem error {s : String} (h : OneLine s) : Unsplit (.error s) := by
  intro g hg t ht
  obtain rfl := List.mem_singleton.mp hg
  cases ht with
  | inl ht => cases ht
  | inr ht => exact Frame.error.inj ht ▸ h

/-- A frame of one part that is not a text. -/
theorem of_single {f : Frame} (hf : f.subframes = [f]) (hs : ∀ s, f ≠ .simple s ∧ f ≠ .error s) :
    Unsplit f := by
  intro g hg t ht
  obtain rfl := List.mem_singleton.mp (hf ▸ hg)
  exact (ht.elim (hs t).1 (hs t).2).elim

@[simp] theorem integer (n : Int64) : Unsplit (.integer n) :=
  of_single rfl fun _ => ⟨nofun, nofun⟩

@[simp] theorem bulk (b : Bytes) : Unsplit (.bulk b) := of_single rfl fun _ => ⟨nofun, nofun⟩

@[simp] theorem null : Unsplit .null := of_single rfl fun _ => ⟨nofun, nofun⟩

@[simp] theorem nullArray : Unsplit .nullArray := of_single rfl fun _ => ⟨nofun, nofun⟩

theorem array_iff (items : List Frame) : Unsplit (.array items) ↔ ∀ item ∈ items, Unsplit item := by
  constructor
  · intro h item hi g hg
    exact h g (List.mem_cons_of_mem _ (Frame.mem_itemSubframes.mpr ⟨item, hi, hg⟩))
  · intro h g hg s hs
    cases List.mem_cons.mp hg with
    | inl hg =>
        subst hg
        cases hs with
        | inl hs => cases hs
        | inr hs => cases hs
    | inr hg =>
        have hitem := Frame.mem_itemSubframes.mp hg
        cases hitem with
        | intro item hitem => exact h item hitem.1 g hitem.2 s hs

@[simp] theorem emptyArray : Unsplit (.array []) := (array_iff []).mpr nofun

@[simp] theorem bulks (values : List Bytes) : Unsplit (.array (values.map .bulk)) :=
  (array_iff _).mpr (List.forall_mem_map.mpr fun b _ => bulk b)

end Unsplit

/-! ## The client -/

namespace Client
open MiniRedis.Parser

def line (c : Bytes) : Except Error (Bytes × Bytes) :=
  match findCrlf c with
  | some l => .ok l
  | none => .error .incomplete

def text (mk : String → Frame) : Reader UInt8 Error Frame :=
  andThen line fun l c => match fromUtf8 l with
    | some s => .ok (mk s, c)
    | none => .error (.protocol "invalid text")

def integer : Reader UInt8 Error Frame :=
  andThen line fun l c => match readI64 l with
    | some n => .ok (.integer n, c)
    | none => .error (.protocol "invalid integer")

/-- A length, or the `-1` of a null frame. -/
def length : Reader UInt8 Error (Option ℕ) :=
  andThen line fun l c =>
    if l = [45, 49] then .ok (none, c)
    else match digitsValue l with
      | some n => .ok (some n, c)
      | none => .error (.protocol "invalid length")

def bulkBody : Option ℕ → Reader UInt8 Error Frame
  | none, c => .ok (.null, c)
  | some len, c =>
      if c.length < len + 2 then .error .incomplete else .ok (.bulk (c.take len), c.drop (len + 2))

def arrayBody (frame : Reader UInt8 Error Frame) : Option ℕ → Reader UInt8 Error Frame
  | none => fun c => .ok (.nullArray, c)
  | some count => andThen (items frame count) fun fs c => .ok (.array fs, c)

/-- A frame with fewer than the given number of arrays inside each other. -/
def frame : ℕ → Reader UInt8 Error Frame
  | 0, _ => .error .incomplete
  | levels + 1, c => do
      let (tag, c) ← readU8 c
      if tag = 43 then text .simple c
      else if tag = 45 then text .error c
      else if tag = 58 then integer c
      else if tag = 36 then andThen length bulkBody c
      else if tag = 42 then andThen length (arrayBody (frame levels)) c
      else .error (.protocol "invalid type byte")

/-- The next `n` replies in what the client has received. -/
def replies (n : ℕ) (c : Bytes) : Except Error (List Frame × Bytes) := items (frame c.length) n c

/-! ## What it reads -/

theorem reads_line {l : Bytes} (h : NoCrlf l) : Reads line (l ++ [13, 10]) l := by
  intro rest
  have hf := findCrlf_append l rest h
  rw [line, List.append_assoc, show [13, 10] ++ rest = 13 :: 10 :: rest from rfl, hf]

/-- A line and what is made of it, without a look at what follows. -/
theorem reads_line_then {A : Type} {l : Bytes} {a : A} {k : Bytes → Reader UInt8 Error A}
    (h : NoCrlf l) (hk : ∀ rest, k l rest = .ok (a, rest)) :
    Reads (andThen line k) (l ++ [13, 10]) a := by
  have hr := (reads_line h).andThen (k := k) (v := []) hk
  rwa [List.append_nil] at hr

theorem reads_text (mk : String → Frame) {s : String} (h : OneLine s) :
    Reads (text mk) (asBytes s ++ [13, 10]) (mk s) :=
  reads_line_then h.noCrlf fun rest => by simp only [fromUtf8_asBytes]

theorem reads_integer (n : Int64) : Reads integer (signed n.toInt ++ [13, 10]) (.integer n) :=
  reads_line_then (noCrlf_signed n.toInt) fun rest => by simp only [readI64_signed]

theorem reads_length (n : ℕ) : Reads length (decimal n ++ [13, 10]) (some n) := by
  refine reads_line_then (signed_natCast n ▸ noCrlf_signed n) fun rest => ?_
  have hne : decimal n ≠ [45, 49] := by
    intro h
    have hdigit := isDigit_of_mem_decimal (n := n) (b := 45) (by simp [h])
    exact absurd hdigit (by decide)
  rw [if_neg hne, digitsValue_decimal]

theorem reads_noLength : Reads length [45, 49, 13, 10] none :=
  reads_line_then (l := [45, 49]) (noCrlf_of_not_mem (by decide)) fun rest => if_pos rfl

theorem reads_bulk (b : Bytes) :
    Reads (andThen length bulkBody) (decimal b.length ++ [13, 10] ++ b ++ [13, 10]) (.bulk b) := by
  have hbody : Reads (bulkBody (some b.length)) (b ++ [13, 10]) (.bulk b) := by
    intro rest
    have hlen : ¬ (b ++ [13, 10] ++ rest).length < b.length + 2 := by
      simp only [List.length_append, List.length_cons, List.length_nil]
      omega
    have htake : (b ++ [13, 10] ++ rest).take b.length = b := by
      rw [List.append_assoc, List.take_left]
    have hdrop : (b ++ [13, 10] ++ rest).drop (b.length + 2) = rest := List.drop_left' (by simp)
    rw [bulkBody, if_neg hlen, htake, hdrop]
  rw [List.append_assoc (_ ++ _)]
  exact (reads_length b.length).andThen hbody

theorem reads_array {frame : Reader UInt8 Error Frame} {fs : List Frame}
    (h : ∀ f ∈ fs, Reads frame (wire f) f) :
    Reads (andThen length (arrayBody frame)) (decimal fs.length ++ [13, 10] ++ fs.flatMap wire)
      (.array fs) := by
  have hbody := (reads_items fs h).andThen (k := fun fs c => .ok (Frame.array fs, c))
    (reads_pure (Frame.array fs))
  rw [List.append_nil] at hbody
  exact (reads_length fs.length).andThen (k := arrayBody frame) hbody

/-- A frame is read by the reader for its type byte. -/
theorem reads_tagged {r : Reader UInt8 Error Frame} {levels : ℕ} {tag : UInt8} {w : Bytes}
    {f : Frame} (h : ∀ c, frame (levels + 1) (tag :: c) = r c) (hr : Reads r w f) :
    Reads (frame (levels + 1)) (tag :: w) f := by
  intro rest
  rw [List.cons_append, h]
  exact hr rest

theorem reads_frame {levels : ℕ} {f : Frame} (h : Unsplit f) (hd : f.nesting < levels) :
    Reads (frame levels) (wire f) f := by
  induction levels generalizing f with
  | zero => exact (Nat.not_lt_zero _ hd).elim
  | succ levels ih =>
      cases f with
      | simple s =>
          have hs := h _ (Frame.self_mem_subframes _) s (Or.inl rfl)
          exact reads_tagged (fun _ => rfl) (reads_text .simple hs)
      | error s =>
          have hs := h _ (Frame.self_mem_subframes _) s (Or.inr rfl)
          exact reads_tagged (fun _ => rfl) (reads_text .error hs)
      | integer n => exact reads_tagged (fun _ => rfl) (reads_integer n)
      | bulk b => exact reads_tagged (fun _ => rfl) (reads_bulk b)
      | null =>
          exact reads_tagged (fun _ => rfl)
            (reads_noLength.andThen (k := bulkBody) (reads_pure Frame.null))
      | nullArray =>
          exact reads_tagged (fun _ => rfl)
            (reads_noLength.andThen (k := arrayBody (frame levels)) (reads_pure Frame.nullArray))
      | array fs =>
          have hitems : ∀ f ∈ fs, Reads (frame levels) (wire f) f := fun f hf =>
            ih ((Unsplit.array_iff fs).mp h f hf)
              ((Frame.nesting_lt_of_mem hf).trans_le (Nat.le_of_lt_succ hd))
          rw [wire_array]
          exact reads_tagged (fun _ => rfl) (reads_array hitems)

/-! ## Whole buffers -/

theorem itemNesting_le {fs : List Frame} {n : ℕ} (h : ∀ f ∈ fs, f.nesting < n) :
    Frame.itemNesting fs ≤ n := by
  induction fs with
  | nil => exact Nat.zero_le n
  | cons f fs ih =>
      rw [Frame.itemNesting]
      exact Nat.max_le.mpr ⟨h f List.mem_cons_self, ih fun g hg => h g (List.mem_cons_of_mem f hg)⟩

theorem length_wire_pos (f : Frame) : 0 < (wire f).length := by
  obtain ⟨b, w, hw, -⟩ := wire_cons f
  exact hw ▸ Nat.succ_pos w.length

/-- A frame has more bytes than arrays inside each other. -/
theorem nesting_lt_length_wire {levels : ℕ} {f : Frame} (h : f.nesting ≤ levels) :
    f.nesting < (wire f).length := by
  induction levels generalizing f with
  | zero => exact h.trans_lt (length_wire_pos f)
  | succ levels ih =>
      cases f with
      | array fs =>
          have hle : Frame.itemNesting fs ≤ (fs.map fun f => (wire f).length).sum := by
            refine itemNesting_le fun f hf => ?_
            have hlt := ih (Nat.le_of_lt_succ ((Frame.nesting_lt_of_mem hf).trans_le h))
            exact hlt.trans_le (List.single_le_sum (by simp) _ (List.mem_map_of_mem hf))
          rw [length_wire_array, Frame.nesting, headerLen]
          omega
      | _ => exact length_wire_pos _

/-- A client reads back every sequence of unsplit frames, one frame for each of them. -/
theorem replies_eq {fs : List Frame} (h : ∀ f ∈ fs, Unsplit f) (rest : Bytes) :
    replies fs.length (fs.flatMap wire ++ rest) = .ok (fs, rest) := by
  refine reads_items fs (fun f hf => reads_frame (h f hf) ?_) rest
  have hle : (wire f).length ≤ (fs.flatMap wire).length := by
    rw [List.length_flatMap]
    exact List.single_le_sum (by simp) _ (List.mem_map_of_mem hf)
  have hn := nesting_lt_length_wire (le_refl f.nesting)
  rw [List.length_append]
  omega

end Client
end MiniRedis
