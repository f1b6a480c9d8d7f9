import MiniRedis.Parser
import MiniRedis.PrefixCode
import Mathlib.Algebra.Order.BigOperators.Group.List

/-!
# The parser undoes the encoder

Every reader of the parser reads the bytes that the encoder writes for its
value, whatever follows, and asks for more on every proper prefix of them. The
second half needs short lines: a long unterminated line is a protocol error.
-/
namespace MiniRedis.ParserRoundTrip
open Numeral Wire MiniRedis.Parser PrefixCode

/-- No CR LF inside the line. A lone CR or LF, also at its end, is harmless. -/
def NoCrlf (line : Bytes) : Prop := ¬ [13, 10] <:+: line

theorem NoCrlf.tail {b : UInt8} {c : Bytes} (h : NoCrlf (b :: c)) : NoCrlf c :=
  fun hc => h (hc.trans (List.suffix_cons b c).isInfix)

theorem noCrlf_of_not_mem {line : Bytes} (h : (13 : UInt8) ∉ line) : NoCrlf line :=
  fun hc => h (hc.subset (by simp))

theorem findCrlf_append (line rest : Bytes) (h : NoCrlf line) :
    findCrlf (line ++ 13 :: 10 :: rest) = some (line, rest) := by
  induction line with
  | nil => simp [findCrlf]
  | cons b c ih =>
      have hb : ¬ (b = 13 ∧ (c ++ 13 :: 10 :: rest).head? = some 10) := by
        rintro ⟨rfl, hc⟩
        cases c with
        | nil => simp at hc
        | cons d c =>
            obtain rfl : d = 10 := by simpa using hc
            exact h (List.prefix_append [13, 10] c).isInfix
      rw [List.cons_append, findCrlf, if_neg hb, ih h.tail]
      rfl

/-- A line ends at its first CR LF. -/
theorem findCrlf_split {c line rest : Bytes} (h : findCrlf c = some (line, rest)) :
    c = line ++ 13 :: 10 :: rest ∧ NoCrlf line := by
  induction c generalizing line with
  | nil => cases h
  | cons b c ih =>
      rw [findCrlf] at h
      split_ifs at h with hb
      · obtain ⟨rfl, rfl⟩ : [] = line ∧ c.tail = rest := by simpa using h
        refine ⟨?_, noCrlf_of_not_mem (List.not_mem_nil)⟩
        rw [hb.1, List.nil_append, ← List.cons_head?_tail (a := 10) (l := c) hb.2]
        rfl
      · obtain ⟨⟨l, r⟩, hl, hp⟩ := Option.map_eq_some_iff.mp h
        obtain ⟨rfl, rfl⟩ : b :: l = line ∧ r = rest := by simpa using hp
        obtain ⟨rfl, hn⟩ := ih hl
        refine ⟨rfl, ?_⟩
        rintro ⟨s, t, hst⟩
        cases s with
        | nil =>
            -- a CR LF at the start would have ended the line here
            cases l with
            | nil => simp at hst
            | cons d l =>
                have hd : 13 = b ∧ 10 = d := by simp_all
                exact hb ⟨hd.1.symm, by rw [← hd.2]; rfl⟩
        | cons d s =>
            simp only [List.cons_append, List.cons.injEq] at hst
            exact hn ⟨s, t, hst.2⟩

/-- More input does not move the first CR LF. -/
theorem findCrlf_extend {p l r : Bytes} (q : Bytes) (h : findCrlf p = some (l, r)) :
    findCrlf (p ++ q) = some (l, r ++ q) := by
  induction p generalizing l with
  | nil => cases h
  | cons b c ih =>
      simp only [findCrlf, List.cons_append] at h ⊢
      split_ifs at h with hb
      · obtain ⟨d, c, rfl⟩ : ∃ d c', c = d :: c' := by
          cases c with
          | nil => simp at hb
          | cons d c => exact ⟨d, c, rfl⟩
        simp only [Option.some.injEq, Prod.mk.injEq, List.tail_cons] at h
        obtain ⟨rfl, rfl⟩ := h
        rw [if_pos (by simpa using hb)]
        rfl
      · obtain ⟨⟨l', r'⟩, hc, hl⟩ := Option.map_eq_some_iff.mp h
        simp only [Prod.mk.injEq] at hl
        obtain ⟨rfl, rfl⟩ := hl
        have hne : ¬ (b = 13 ∧ (c ++ q).head? = some 10) := by
          cases c with
          | nil => cases hc
          | cons d c => simpa using hb
        rw [if_neg hne, ih hc]
        rfl

theorem findCrlf_cut {p q line : Bytes} (h : NoCrlf line) (hpq : p ++ q = line ++ [13, 10])
    (hq : q ≠ []) : findCrlf p = none := by
  cases hp : findCrlf p with
  | none => rfl
  | some lr =>
      have he := findCrlf_extend q hp
      rw [hpq, findCrlf_append line [] h] at he
      simp only [Option.some.injEq, Prod.mk.injEq] at he
      exact (hq (List.append_eq_nil_iff.mp he.2.symm).2).elim

theorem reads_readLine {line : Bytes} (h : NoCrlf line) :
    Reads readLine (line ++ [13, 10]) line := by
  intro rest
  have := findCrlf_append line rest h
  simp only [readLine, List.append_assoc, List.cons_append, List.nil_append, this]

theorem waits_readLine {line : Bytes} (h : NoCrlf line) (hlen : line.length < maxLineLen) :
    Waits .incomplete readLine (line ++ [13, 10]) := by
  intro p q hpq hq
  have hl := congrArg List.length hpq
  have hq' := List.length_pos_iff.mpr hq
  simp only [List.length_append, List.length_cons, List.length_nil] at hl
  simp only [readLine, findCrlf_cut h hpq hq]
  rw [if_neg (by omega)]

/-! ## Numbers in line headers -/

theorem noCrlf_signed (n : ℤ) : NoCrlf (signed n) := by
  refine noCrlf_of_not_mem fun h => ?_
  rcases mem_signed h with h | h
  · cases h
  · simp [isDigit] at h

/-- What `read_line_int` does with its line. -/
def lineInt (line c : Bytes) : Except Error (Int64 × Bytes) :=
  match readI64 line with
  | some n => .ok (n, c)
  | none => .error (.protocol "invalid integer")

theorem readLineInt_eq : readLineInt = andThen readLine lineInt := rfl

theorem reads_readLineInt (n : Int64) :
    Reads readLineInt (signed n.toInt ++ [13, 10]) n := by
  have h := (reads_readLine (noCrlf_signed n.toInt)).andThen (v := []) (b := n) (k := lineInt)
    (fun rest => by simp only [lineInt, readI64_signed, List.nil_append])
  rw [List.append_nil] at h
  exact h

theorem length_signed_le (n : Int64) : (signed n.toInt).length ≤ 20 := by
  have hr := int64_range n
  have hd : (decimal n.toInt.natAbs).length ≤ 19 :=
    (length_decimal_le_iff (by omega)).mpr (by norm_num; omega)
  unfold signed
  split_ifs
  · rw [List.length_cons]
    omega
  · omega

theorem waits_readLineInt (n : Int64) :
    Waits .incomplete readLineInt (signed n.toInt ++ [13, 10]) := by
  have hlen := length_signed_le n
  have h := (waits_readLine (noCrlf_signed n.toInt) (by unfold maxLineLen; omega)).andThen
    (reads_readLine (noCrlf_signed n.toInt)) (v := []) (k := lineInt) (waits_nil _ _)
  rw [List.append_nil] at h
  exact h

theorem toInt_ofNat {n : ℕ} (h : n ≤ 9223372036854775807) : (Int64.ofInt n).toInt = n :=
  Int64.toInt_ofInt_of_le (by omega) (by omega)

theorem reads_header {n : ℕ} (h : n ≤ 9223372036854775807) :
    Reads readLineInt (decimal n ++ [13, 10]) (Int64.ofInt n) := by
  have hr := reads_readLineInt (Int64.ofInt n)
  rwa [toInt_ofNat h, signed_natCast] at hr

theorem waits_header {n : ℕ} (h : n ≤ 9223372036854775807) :
    Waits .incomplete readLineInt (decimal n ++ [13, 10]) := by
  have hw := waits_readLineInt (Int64.ofInt n)
  rwa [toInt_ofNat h, signed_natCast] at hw

/-! ## Bulk strings -/

/-- What `parse_bulk` does after a length header that is in range. -/
def bulkBody (len : ℕ) (c : Bytes) : Except Error (Frame × Bytes) :=
  if c.length < len + 2 then .error .incomplete
  else do
    let (cr, r) ← readU8 (c.drop len)
    if cr ≠ 13 then .error (.protocol "missing CRLF after bulk")
    else
      let (lf, r) ← readU8 r
      if lf ≠ 10 then .error (.protocol "missing CRLF after bulk")
      else .ok (.bulk (c.take len), r)

theorem respBulkLen_any_iff (len : ℕ) :
    (respBulkLen len).any (· ≤ maxBufferedFrameBytes) = true ↔
      bulkLen len ≤ maxBufferedFrameBytes := by
  have h := bulkResponseFits_iff len
  unfold bulkResponseFits at h
  rw [show maxBufferedFrameBytes = maxResponseFrameBytes from rfl]
  cases hl : respBulkLen len <;> simpa [hl] using h

theorem len_le_of_bulkLen_le {len : ℕ} (h : bulkLen len ≤ maxBufferedFrameBytes) :
    len ≤ maxBulkLen ∧ len ≤ 9223372036854775807 := by
  unfold bulkLen maxBufferedFrameBytes at h
  unfold maxBulkLen maxBufferedFrameBytes
  omega

theorem parseBulk_eq {len : ℕ} {c r : Bytes} (hlen : bulkLen len ≤ maxBufferedFrameBytes)
    (h : readLineInt c = .ok (Int64.ofInt len, r)) : parseBulk c = bulkBody len r := by
  have hl := len_le_of_bulkLen_le hlen
  have hv := toInt_ofNat hl.2
  have hb := (respBulkLen_any_iff len).mpr hlen
  simp only [parseBulk, h, bind, Except.bind, hv, bulkBody]
  rw [if_neg (by omega), if_neg (by omega)]
  simp only [Int.toNat_natCast]
  rw [if_neg (by omega), if_neg (by simp [hb])]

theorem reads_bulkBody (b : Bytes) : Reads (bulkBody b.length) (b ++ [13, 10]) (.bulk b) := by
  intro rest
  simp [bulkBody, readU8, bind, Except.bind]

theorem waits_bulkBody (b : Bytes) :
    Waits .incomplete (bulkBody b.length) (b ++ [13, 10]) := by
  intro p q h hq
  have hl := congrArg List.length h
  have hq' := List.length_pos_iff.mpr hq
  simp only [List.length_append, List.length_cons, List.length_nil] at hl
  rw [bulkBody, if_pos (by omega)]

/-- The word of a bulk string after its type byte. -/
def bulkWord (b : Bytes) : Bytes := (decimal b.length ++ [13, 10]) ++ (b ++ [13, 10])

theorem reads_parseBulk {b : Bytes} (h : bulkLen b.length ≤ maxBufferedFrameBytes) :
    Reads parseBulk (bulkWord b) (.bulk b) := by
  intro rest
  rw [bulkWord, List.append_assoc, parseBulk_eq h
    (reads_header (len_le_of_bulkLen_le h).2 (b ++ [13, 10] ++ rest))]
  exact reads_bulkBody b rest

theorem waits_parseBulk {b : Bytes} (h : bulkLen b.length ≤ maxBufferedFrameBytes) :
    Waits .incomplete parseBulk (bulkWord b) := by
  have hn := (len_le_of_bulkLen_le h).2
  intro p q hpq hq
  rcases List.append_eq_append_iff.mp hpq with ⟨t, hp, ht⟩ | ⟨t, rfl, ht⟩
  · by_cases he : t = []
    · subst he
      rw [List.append_nil] at hp
      rw [parseBulk_eq h (r := []) (by simpa [hp] using reads_header hn [])]
      exact waits_bulkBody b [] q (by simpa using ht) hq
    · rw [parseBulk, waits_header hn p t hp.symm he]
      rfl
  · rw [parseBulk_eq h (reads_header hn t)]
    exact waits_bulkBody b t q ht.symm hq

/-! ## Arrays and frames -/

theorem parseItems_eq (frame : Bytes → Except Error (Frame × Bytes)) (n : ℕ) :
    parseItems frame n = items frame n := by
  induction n with
  | zero => rfl
  | succ n ih =>
      funext c
      simp only [parseItems, items, andThen, ih]

theorem parseArray_eq {frame : Bytes → Except Error (Frame × Bytes)} {n : ℕ} {c r : Bytes}
    (hn : n ≤ maxArrayLen) (h : readLineInt c = .ok (Int64.ofInt n, r)) :
    parseArray frame c = andThen (items frame n) (fun as c => .ok (.array as, c)) r := by
  have hl : n ≤ 9223372036854775807 := hn.trans (by decide)
  have hv := toInt_ofNat hl
  simp only [parseArray, h, bind, Except.bind, hv]
  rw [if_neg (by omega), if_neg (by omega)]
  simp only [Int.toNat_natCast]
  rw [if_neg (by omega)]
  simp only [andThen, parseItems_eq, bind, Except.bind]

/-- The frames the parser accepts back, with the array levels that are left. -/
def Parseable : ℕ → Frame → Prop
  | 0, _ => False
  | levels + 1, f => match f with
      | .simple s | .error s => NoCrlf (asBytes s)
      | .bulk b => bulkLen b.length ≤ maxBufferedFrameBytes
      | .array items => items.length ≤ maxArrayLen ∧ ∀ item ∈ items, Parseable levels item
      | .integer _ | .null | .nullArray => True

/-- No line of the frame reaches the limit for unterminated lines. -/
def ShortLines : ℕ → Frame → Prop
  | 0, _ => True
  | levels + 1, f => match f with
      | .simple s | .error s => (asBytes s).length < maxLineLen
      | .array items => ∀ item ∈ items, ShortLines levels item
      | .integer _ | .bulk _ | .null | .nullArray => True

theorem Reads.tagged {r : Reader UInt8 Error Frame} {levels : ℕ} {tag : UInt8} {w : Bytes}
    {f : Frame} (h : ∀ c, parseFrame (levels + 1) (tag :: c) = r c) (hr : Reads r w f) :
    Reads (parseFrame (levels + 1)) (tag :: w) f := by
  intro rest
  rw [List.cons_append, h]
  exact hr rest

theorem Waits.tagged {r : Reader UInt8 Error Frame} {levels : ℕ} {tag : UInt8} {w : Bytes}
    (h : ∀ c, parseFrame (levels + 1) (tag :: c) = r c) (hw : Waits .incomplete r w) :
    Waits .incomplete (parseFrame (levels + 1)) (tag :: w) := by
  intro p q hpq hq
  cases p with
  | nil => rfl
  | cons b p =>
      simp only [List.cons_append, List.cons.injEq] at hpq
      obtain ⟨rfl, hpq⟩ := hpq
      rw [h]
      exact hw p q hpq hq

/-- What the parser does after the type bytes of lines. -/
def lineString (mk : String → Frame) : Reader UInt8 Error Frame :=
  andThen readLine fun line c => match fromUtf8 line with
    | some s => .ok (mk s, c)
    | none => .error (.protocol "invalid utf8 in line")

theorem readLineString_bind (mk : String → Frame) (c : Bytes) :
    (readLineString c >>= fun p => .ok (mk p.1, p.2)) = lineString mk c := by
  simp only [readLineString, lineString, andThen, bind, Except.bind]
  cases readLine c with
  | error e => rfl
  | ok p =>
      simp only
      cases fromUtf8 p.1 <;> rfl

theorem reads_lineString (mk : String → Frame) (s : String) (h : NoCrlf (asBytes s)) :
    Reads (lineString mk) (asBytes s ++ [13, 10]) (mk s) := by
  have hr := (reads_readLine h).andThen (v := []) (b := mk s)
    (k := fun line c => match fromUtf8 line with
      | some s => .ok (mk s, c)
      | none => .error (.protocol "invalid utf8 in line"))
    (fun rest => by simp only [fromUtf8_asBytes, List.nil_append])
  rw [List.append_nil] at hr
  exact hr

theorem waits_lineString (mk : String → Frame) (s : String) (h : NoCrlf (asBytes s))
    (hs : (asBytes s).length < maxLineLen) :
    Waits .incomplete (lineString mk) (asBytes s ++ [13, 10]) := by
  have hw := (waits_readLine h hs).andThen (reads_readLine h) (v := [])
    (k := fun line c => match fromUtf8 line with
      | some s => .ok (mk s, c)
      | none => .error (.protocol "invalid utf8 in line")) (waits_nil _ _)
  rw [List.append_nil] at hw
  exact hw

theorem parseFrame_simple (levels : ℕ) (c : Bytes) :
    parseFrame (levels + 1) (43 :: c) = lineString .simple c := by
  rw [← readLineString_bind]
  rfl

theorem parseFrame_error (levels : ℕ) (c : Bytes) :
    parseFrame (levels + 1) (45 :: c) = lineString .error c := by
  rw [← readLineString_bind]
  rfl

theorem parseFrame_integer (levels : ℕ) (c : Bytes) :
    parseFrame (levels + 1) (58 :: c) =
      andThen readLineInt (fun n c => .ok (.integer n, c)) c := rfl

theorem parseFrame_bulk (levels : ℕ) (c : Bytes) :
    parseFrame (levels + 1) (36 :: c) = parseBulk c := rfl

theorem parseFrame_array (levels : ℕ) (c : Bytes) :
    parseFrame (levels + 1) (42 :: c) = parseArray (parseFrame levels) c := rfl

theorem wire_bulk (b : Bytes) : wire (.bulk b) = 36 :: bulkWord b := by
  simp only [wire, bulkWord, List.append_assoc]

theorem wire_array (items : List Frame) :
    wire (.array items) = 42 :: ((decimal items.length ++ [13, 10]) ++ items.flatMap wire) := by
  rw [wire, wireItems_eq_flatMap]

/-- The array body after its header, as one reader. -/
theorem reads_array {levels : ℕ} {items : List Frame} (hn : items.length ≤ maxArrayLen)
    (h : ∀ item ∈ items, Reads (parseFrame levels) (wire item) item) :
    Reads (parseArray (parseFrame levels))
      ((decimal items.length ++ [13, 10]) ++ items.flatMap wire) (.array items) := by
  intro rest
  rw [List.append_assoc, parseArray_eq hn
    (reads_header (hn.trans (by decide)) (items.flatMap wire ++ rest))]
  simp only [andThen, reads_items items h rest]
  rfl

theorem waits_array {levels : ℕ} {items : List Frame} (hn : items.length ≤ maxArrayLen)
    (h : ∀ item ∈ items, Reads (parseFrame levels) (wire item) item)
    (hw : ∀ item ∈ items, Waits .incomplete (parseFrame levels) (wire item)) :
    Waits .incomplete (parseArray (parseFrame levels))
      ((decimal items.length ++ [13, 10]) ++ items.flatMap wire) := by
  have hl : items.length ≤ 9223372036854775807 := hn.trans (by decide)
  have hi := waits_items items h hw
  intro p q hpq hq
  rcases List.append_eq_append_iff.mp hpq with ⟨t, hp, ht⟩ | ⟨t, rfl, ht⟩
  · by_cases he : t = []
    · subst he
      rw [List.append_nil] at hp
      rw [parseArray_eq hn (r := []) (by simpa [hp] using reads_header hl [])]
      simp only [andThen, hi [] q (by simpa using ht) hq]
      rfl
    · rw [parseArray, waits_header hl p t hp.symm he]
      rfl
  · rw [parseArray_eq hn (reads_header hl t)]
    simp only [andThen, hi t q ht.symm hq]
    rfl

theorem readLineInt_minusOne (rest : Bytes) :
    readLineInt (45 :: 49 :: 13 :: 10 :: rest) = .ok (-1, rest) := reads_readLineInt (-1) rest

/-- The headers of the two null frames. -/
theorem waits_minusOne {r : Reader UInt8 Error Frame}
    (h : ∀ c, readLineInt c = .error .incomplete → r c = .error .incomplete) :
    Waits .incomplete r [45, 49, 13, 10] :=
  fun p q hpq hq => h p (waits_readLineInt (-1) p q hpq hq)

theorem reads_parseFrame {levels : ℕ} {f : Frame} (h : Parseable levels f) :
    Reads (parseFrame levels) (wire f) f := by
  induction levels generalizing f with
  | zero => exact h.elim
  | succ levels ih =>
      cases f with
      | simple s => exact Reads.tagged (parseFrame_simple levels) (reads_lineString _ s h)
      | error s => exact Reads.tagged (parseFrame_error levels) (reads_lineString _ s h)
      | integer n =>
          have hr := (reads_readLineInt n).andThen (v := [])
            (k := fun n c => .ok (Frame.integer n, c)) (reads_pure (Frame.integer n))
          rw [List.append_nil] at hr
          exact Reads.tagged (parseFrame_integer levels) hr
      | bulk b =>
          rw [wire_bulk]
          exact Reads.tagged (parseFrame_bulk levels) (reads_parseBulk h)
      | null =>
          refine Reads.tagged (parseFrame_bulk levels) fun rest => ?_
          simp only [List.cons_append, List.nil_append, parseBulk, readLineInt_minusOne, bind,
            Except.bind]
          rfl
      | nullArray =>
          refine Reads.tagged (parseFrame_array levels) fun rest => ?_
          simp only [List.cons_append, List.nil_append, parseArray, readLineInt_minusOne, bind,
            Except.bind]
          rfl
      | array items =>
          rw [wire_array]
          exact Reads.tagged (parseFrame_array levels)
            (reads_array h.1 fun item hi => ih (h.2 item hi))

theorem waits_parseFrame {levels : ℕ} {f : Frame} (h : Parseable levels f)
    (hs : ShortLines levels f) : Waits .incomplete (parseFrame levels) (wire f) := by
  induction levels generalizing f with
  | zero => exact h.elim
  | succ levels ih =>
      cases f with
      | simple s => exact Waits.tagged (parseFrame_simple levels) (waits_lineString _ s h hs)
      | error s => exact Waits.tagged (parseFrame_error levels) (waits_lineString _ s h hs)
      | integer n =>
          have hw := (waits_readLineInt n).andThen (reads_readLineInt n) (v := [])
            (k := fun n c => .ok (Frame.integer n, c)) (waits_nil _ _)
          rw [List.append_nil] at hw
          exact Waits.tagged (parseFrame_integer levels) hw
      | bulk b =>
          rw [wire_bulk]
          exact Waits.tagged (parseFrame_bulk levels) (waits_parseBulk h)
      | null =>
          refine Waits.tagged (parseFrame_bulk levels) (waits_minusOne fun c hc => ?_)
          simp only [parseBulk, hc, bind, Except.bind]
      | nullArray =>
          refine Waits.tagged (parseFrame_array levels) (waits_minusOne fun c hc => ?_)
          simp only [parseArray, hc, bind, Except.bind]
      | array items =>
          rw [wire_array]
          exact Waits.tagged (parseFrame_array levels) (waits_array h.1
            (fun item hi => reads_parseFrame (h.2 item hi))
            (fun item hi => ih (h.2 item hi) (hs item hi)))

/-! ## The parser's entry point -/

theorem wire_cons (f : Frame) : ∃ b w, wire f = b :: w ∧ isRespType b = true := by
  cases f <;> exact ⟨_, _, rfl, rfl⟩

/-- On a type byte `parse` is one call of `parse_frame` at depth zero. -/
theorem parse_resp {b : UInt8} (c : Bytes) (hb : isRespType b = true) :
    parse (b :: c) = match parseFrame (maxNestingDepth + 1) (b :: c) with
      | .ok (frame, rest) =>
          let n := (b :: c).length - rest.length
          if maxBufferedFrameBytes < n then
            .error (.protocol s!"frame length {n} exceeds buffered limit {maxBufferedFrameBytes}")
          else .ok (some frame, rest)
      | .error .incomplete => .ok (none, b :: c)
      | .error e => .error e := by
  rw [parse, parseLoop]
  exact if_neg (by simp [hb])

theorem parse_wire {f : Frame} (h : Parseable (maxNestingDepth + 1) f)
    (hlen : (wire f).length ≤ maxBufferedFrameBytes) (rest : Bytes) :
    parse (wire f ++ rest) = .ok (some f, rest) := by
  obtain ⟨b, w, hw, hb⟩ := wire_cons f
  have hr := reads_parseFrame h rest
  rw [hw] at hr hlen ⊢
  rw [List.cons_append] at hr ⊢
  rw [parse_resp _ hb, hr]
  simp only [List.length_cons, List.length_append] at hlen ⊢
  rw [if_neg (by omega)]

theorem parse_cut {f : Frame} (h : Parseable (maxNestingDepth + 1) f)
    (hs : ShortLines (maxNestingDepth + 1) f) {p q : Bytes} (hpq : p ++ q = wire f)
    (hq : q ≠ []) : parse p = .ok (none, p) := by
  have hw := waits_parseFrame h hs p q hpq hq
  cases p with
  | nil => rfl
  | cons b p =>
      obtain ⟨b', w, hf, hb⟩ := wire_cons f
      rw [hf, List.cons_append, List.cons.injEq] at hpq
      obtain ⟨rfl, -⟩ := hpq
      rw [parse_resp _ hb, hw]

/-- An array of bulk strings, the shape of every request. -/
def commandFrame (args : List Bytes) : Frame := .array (args.map .bulk)

theorem length_wire_command (args : List Bytes) :
    (wire (commandFrame args)).length =
      headerLen args.length + (args.map fun a => bulkLen a.length).sum := by
  rw [commandFrame, length_wire_array, List.length_map, List.map_map]
  congr 2
  exact List.map_congr_left fun a _ => length_wire_bulk a

theorem parseable_command {args : List Bytes} (hn : args.length ≤ maxArrayLen)
    (hlen : (wire (commandFrame args)).length ≤ maxBufferedFrameBytes) :
    Parseable (maxNestingDepth + 1) (commandFrame args) := by
  refine ⟨by rwa [List.length_map], fun item hi => ?_⟩
  obtain ⟨a, ha, rfl⟩ := List.mem_map.mp hi
  have hle := List.single_le_sum (l := args.map fun a => bulkLen a.length) (by simp) _
    (List.mem_map_of_mem ha)
  rw [length_wire_command] at hlen
  change bulkLen a.length ≤ maxBufferedFrameBytes
  omega

theorem shortLines_command (args : List Bytes) :
    ShortLines (maxNestingDepth + 1) (commandFrame args) := by
  intro item hi
  obtain ⟨a, -, rfl⟩ := List.mem_map.mp hi
  trivial

theorem parse_command {args : List Bytes} (hn : args.length ≤ maxArrayLen)
    (hlen : (wire (commandFrame args)).length ≤ maxBufferedFrameBytes) (rest : Bytes) :
    parse (wire (commandFrame args) ++ rest) = .ok (some (commandFrame args), rest) :=
  parse_wire (parseable_command hn hlen) hlen rest

/-- A command with more arguments than an array may have is rejected at its header. -/
theorem parse_longCommand {args : List Bytes} (hn : maxArrayLen < args.length)
    (hmax : args.length ≤ 9223372036854775807) (rest : Bytes) :
    parse (wire (commandFrame args) ++ rest) =
      .error (.protocol s!"array length {args.length} exceeds limit {maxArrayLen}") := by
  have hv := toInt_ofNat hmax
  have hread := reads_header hmax ((args.map Frame.bulk).flatMap wire ++ rest)
  rw [commandFrame, wire_array, List.length_map, List.cons_append, List.append_assoc,
    parse_resp _ rfl, parseFrame_array]
  simp only [parseArray, hread, bind, Except.bind, hv, Int.toNat_natCast, hn, if_true]
  rw [if_neg (by omega), if_neg (by omega)]

end MiniRedis.ParserRoundTrip

/-! ## Every frame within the limits -/

namespace MiniRedis.Frame
open Wire ParserRoundTrip MiniRedis.Parser

mutual
/-- The frame and every frame in it. -/
def subframes : Frame → List Frame
  | .array items => .array items :: itemSubframes items
  | f => [f]

def itemSubframes : List Frame → List Frame
  | [] => []
  | item :: items => subframes item ++ itemSubframes items
end

mutual
/-- The largest number of arrays that an element of the frame is nested in. -/
def nesting : Frame → ℕ
  | .array items => itemNesting items
  | _ => 0

def itemNesting : List Frame → ℕ
  | [] => 0
  | item :: items => max (nesting item + 1) (itemNesting items)
end

/-- The lines and the length of an array, without what is in it. -/
def FitsHeader : Frame → Prop
  | .simple s | .error s => NoCrlf (asBytes s)
  | .array items => items.length ≤ maxArrayLen
  | _ => True

theorem mem_itemSubframes {items : List Frame} {g : Frame} :
    g ∈ itemSubframes items ↔ ∃ item ∈ items, g ∈ item.subframes := by
  induction items with
  | nil => simp [itemSubframes]
  | cons item items ih => simp [itemSubframes, ih]

theorem nesting_lt_of_mem {items : List Frame} {item : Frame} (h : item ∈ items) :
    item.nesting < itemNesting items := by
  induction items with
  | nil => cases h
  | cons a items ih =>
      rw [itemNesting]
      rcases List.mem_cons.mp h with rfl | h
      · exact Nat.lt_of_lt_of_le (Nat.lt_succ_self _) (Nat.le_max_left _ _)
      · exact Nat.lt_of_lt_of_le (ih h) (Nat.le_max_right _ _)

theorem self_mem_subframes (f : Frame) : f ∈ f.subframes := by
  cases f <;> exact List.mem_cons_self

theorem length_wire_le_of_mem {items : List Frame} {item : Frame} (h : item ∈ items) :
    (wire item).length ≤ (wire (.array items)).length := by
  have hle := List.single_le_sum (l := items.map fun i => (wire i).length) (by simp) _
    (List.mem_map_of_mem h)
  rw [length_wire_array]
  omega

theorem parseable_of_limits {levels : ℕ} {f : Frame} (h : ∀ g ∈ f.subframes, g.FitsHeader)
    (hd : f.nesting ≤ levels) (hlen : (wire f).length ≤ maxBufferedFrameBytes) :
    Parseable (levels + 1) f := by
  induction levels generalizing f with
  | zero =>
      have hf := h f f.self_mem_subframes
      cases f with
      | array items =>
          refine ⟨hf, fun item hi => ?_⟩
          have hzero : itemNesting items = 0 := Nat.le_zero.mp hd
          have hlt := nesting_lt_of_mem hi
          omega
      | bulk b => rwa [length_wire_bulk] at hlen
      | _ => exact hf
  | succ levels ih =>
      have hf := h f f.self_mem_subframes
      cases f with
      | array items =>
          refine ⟨hf, fun item hi => ih (fun g hg => ?_) ?_ ?_⟩
          · exact h g (List.mem_cons_of_mem _ (mem_itemSubframes.mpr ⟨item, hi, hg⟩))
          · exact Nat.le_of_lt_succ (Nat.lt_of_lt_of_le (nesting_lt_of_mem hi) hd)
          · exact (length_wire_le_of_mem hi).trans hlen
      | bulk b => rwa [length_wire_bulk] at hlen
      | _ => exact hf

/-- The parser undoes the encoder, whatever follows in the buffer. -/
theorem parse_encode {f : Frame} (h : ∀ g ∈ f.subframes, g.FitsHeader)
    (hd : f.nesting ≤ maxNestingDepth) {n : ℕ} (hlen : encodedLen f = some n)
    (hn : n ≤ maxBufferedFrameBytes) (rest : Bytes) :
    parse (encode f [] ++ rest) = .ok (some f, rest) := by
  have hwire := (encodedLen_eq_some.mp hlen).1
  have hle : (wire f).length ≤ maxBufferedFrameBytes := hwire.trans_le hn
  rw [encode_eq_append, List.nil_append]
  exact parse_wire (parseable_of_limits h hd hle) hle rest

theorem parse_encode_nested :
    parse (encode (.array [.simple "a\r", .array [.null, .nullArray]]) [] ++ [42, 13, 10]) =
      .ok (some (.array [.simple "a\r", .array [.null, .nullArray]]), [42, 13, 10]) := by
  refine parse_encode ?_ (by decide) rfl (by decide) _
  have hline : NoCrlf (asBytes "a\r") := by
    intro h
    have hlen := h.length_le
    have heq := h.eq_of_length (by decide)
    exact absurd heq (by decide)
  simp only [subframes, itemSubframes, List.append_nil, List.singleton_append, List.forall_mem_cons,
    FitsHeader, hline, List.length_cons, List.length_nil, true_and]
  exact ⟨(by decide : 2 ≤ maxArrayLen), (by decide : 2 ≤ maxArrayLen), fun _ h => by cases h⟩

end MiniRedis.Frame
