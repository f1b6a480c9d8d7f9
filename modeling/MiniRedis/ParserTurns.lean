import MiniRedis.ParserRoundTrip
import MiniRedis.IncrementalReader

/-!
# The parser on a growing buffer

Every reader of the parser is local, and what it rejects stays rejected, with one
exception: an unterminated line is rejected when it grows too long, but a line whose
CR LF is already there may have any length. `turn` is one turn of the loop of `parse`.
-/
namespace MiniRedis.Parser
open Numeral Wire ParserRoundTrip PrefixCode

/-! ## Lines -/

/-- The line at the start would have been rejected before its LF had arrived. -/
def LongLine (c : Bytes) : Prop :=
  ∃ line rest, findCrlf c = some (line, rest) ∧ maxLineLen ≤ line.length

theorem readLine_eq_ok {c line rest : Bytes} :
    readLine c = .ok (line, rest) ↔ findCrlf c = some (line, rest) := by
  unfold readLine
  cases findCrlf c with
  | some l => simp
  | none =>
      dsimp only
      split_ifs <;> simp

theorem readLine_rejects {c : Bytes} :
    Rejects .incomplete readLine c ↔ findCrlf c = none ∧ maxLineLen < c.length := by
  unfold Rejects readLine
  cases findCrlf c with
  | some l => simp
  | none =>
      dsimp only
      split_ifs with h
      · exact ⟨fun _ => ⟨rfl, h⟩, fun _ => ⟨_, rfl, by simp [lineTooLong]⟩⟩
      · refine ⟨fun hx => ?_, fun hx => absurd hx.2 h⟩
        obtain ⟨x, hx, hne⟩ := hx
        cases hx
        exact absurd rfl hne

theorem settles_readLine : Settles .incomplete readLine LongLine := by
  refine ⟨fun c line rest h => ?_, fun p q hp => ?_, fun c hc => ?_⟩
  · obtain ⟨rfl, hn⟩ := findCrlf_split (readLine_eq_ok.mp h)
    exact ⟨line ++ [13, 10], by simp, reads_readLine hn⟩
  · obtain ⟨hnone, hlen⟩ := readLine_rejects.mp hp
    cases hq : findCrlf (p ++ q) with
    | none =>
        refine Or.inl (readLine_rejects.mpr ⟨hq, ?_⟩)
        rw [List.length_append]
        omega
    | some l =>
        obtain ⟨line, rest⟩ := l
        refine Or.inr ⟨line, rest, hq, ?_⟩
        obtain ⟨he, hn⟩ := findCrlf_split hq
        -- a shorter line would have ended inside the bytes that were rejected
        by_contra hshort
        have hle : (line ++ [13, 10]).length ≤ p.length := by
          simp only [List.length_append, List.length_cons, List.length_nil]
          omega
        have hpre : line ++ [13, 10] <+: p :=
          List.prefix_of_prefix_length_le ⟨rest, by rw [he]; simp⟩ ⟨q, rfl⟩ hle
        obtain ⟨t, rfl⟩ := hpre
        have hfound := findCrlf_append line t hn
        rw [List.append_assoc] at hnone
        cases hnone.symm.trans hfound
  · obtain ⟨line, rest, hf, hlen⟩ := hc
    obtain ⟨rfl, hn⟩ := findCrlf_split hf
    have hnone : findCrlf (line ++ [13]) = none :=
      findCrlf_cut (q := [10]) hn (by simp) (List.cons_ne_nil _ _)
    refine ⟨line ++ [13], 10 :: rest, by simp, readLine_rejects.mpr ⟨hnone, ?_⟩⟩
    rw [List.length_append, List.length_singleton]
    omega

theorem settles_lineInt (line : Bytes) :
    Settles .incomplete (lineInt line) fun _ => False := by
  unfold lineInt
  cases readI64 line with
  | some n => exact settles_pure _ n
  | none => exact settles_fail (by simp)

theorem lateThen_false {A B E : Type} {r : Reader B E A} {late : List B → Prop} (c : List B) :
    lateThen r late (fun _ _ => False) c ↔ late c := by
  simp only [lateThen, and_false, exists_false, or_false]

theorem settles_readLineInt : Settles .incomplete readLineInt LongLine :=
  (settles_readLine.andThen settles_lineInt).congr lateThen_false

theorem settles_lineString (mk : String → Frame) :
    Settles .incomplete (lineString mk) LongLine := by
  refine (settles_readLine.andThen fun line => ?_).congr lateThen_false
  cases fromUtf8 line with
  | some s => exact settles_pure _ (mk s)
  | none => exact settles_fail (by simp)

/-! ## Frames -/

theorem bulkBody_short {len : ℕ} {c : Bytes} (h : c.length < len + 2) :
    bulkBody len c = .error .incomplete := if_pos h

theorem bulkBody_long {len : ℕ} {c r : Bytes} {cr lf : UInt8} (h : c.drop len = cr :: lf :: r) :
    bulkBody len c = if cr = 13 ∧ lf = 10 then .ok (.bulk (c.take len), r)
      else .error (.protocol "missing CRLF after bulk") := by
  have hlen := congrArg List.length h
  simp only [List.length_drop, List.length_cons] at hlen
  rw [bulkBody, if_neg (by omega), h]
  simp only [readU8, bind, Except.bind]
  by_cases hcr : cr = 13 <;> by_cases hlf : lf = 10 <;> simp [hcr, hlf]

/-- A buffer with room for the payload has the two bytes after it. -/
theorem exists_ending {len : ℕ} {c : Bytes} (h : ¬ c.length < len + 2) :
    ∃ cr lf r, c.drop len = cr :: lf :: r := by
  have hlen : 2 ≤ (c.drop len).length := by
    rw [List.length_drop]
    omega
  cases hd : c.drop len with
  | nil => simp [hd] at hlen
  | cons cr r =>
      cases r with
      | nil => simp [hd] at hlen
      | cons lf r => exact ⟨cr, lf, r, rfl⟩

theorem settles_bulkBody (len : ℕ) : Settles .incomplete (bulkBody len) fun _ => False := by
  refine settles_of_stable (fun c f rest h => ?_) fun p q hp => ?_
  · by_cases hlen : c.length < len + 2
    · cases (bulkBody_short hlen).symm.trans h
    obtain ⟨cr, lf, r, hd⟩ := exists_ending hlen
    rw [bulkBody_long hd] at h
    split_ifs at h with hcrlf
    obtain ⟨rfl, rfl⟩ := Prod.mk.inj (Except.ok.inj h)
    obtain ⟨rfl, rfl⟩ := hcrlf
    have htake : (c.take len).length = len := List.length_take_of_le (by omega)
    refine ⟨c.take len ++ [13, 10], ?_, ?_⟩
    · rw [List.append_assoc]
      exact (List.take_append_drop len c).symm.trans (congrArg _ hd)
    · have hr := reads_bulkBody (c.take len)
      rwa [htake] at hr
  · obtain ⟨x, hx, hne⟩ := hp
    by_cases hlen : p.length < len + 2
    · obtain rfl := Except.error.inj ((bulkBody_short hlen).symm.trans hx)
      exact absurd rfl hne
    obtain ⟨cr, lf, r, hd⟩ := exists_ending hlen
    rw [bulkBody_long hd] at hx
    have hd' : (p ++ q).drop len = cr :: lf :: (r ++ q) := by
      rw [List.drop_append_of_le_length (by omega), hd]
      rfl
    refine ⟨x, ?_, hne⟩
    rw [bulkBody_long hd']
    split_ifs at hx ⊢
    exact hx

/-- What `parse_bulk` does after its header. -/
def bulkAfter (len : Int64) (c : Bytes) : Except Error (Frame × Bytes) :=
  if len.toInt = -1 then .ok (.null, c)
  else if len.toInt < 0 then .error (.protocol "negative bulk len")
  else if maxBulkLen < len.toInt.toNat then
    .error (.protocol s!"bulk length {len.toInt.toNat} exceeds limit {maxBulkLen}")
  else if ¬ (respBulkLen len.toInt.toNat).any (· ≤ maxBufferedFrameBytes) then
    .error (.protocol s!"bulk frame length exceeds buffered limit {maxBufferedFrameBytes}")
  else bulkBody len.toInt.toNat c

theorem settles_bulkAfter (len : Int64) :
    Settles .incomplete (bulkAfter len) fun _ => False := by
  unfold bulkAfter
  split_ifs
  · exact settles_pure _ Frame.null
  · exact settles_fail (by simp)
  · exact settles_fail (by simp)
  · exact settles_bulkBody _
  · exact settles_fail (by simp)

theorem settles_parseBulk : Settles .incomplete parseBulk LongLine :=
  (settles_readLineInt.andThen settles_bulkAfter).congr lateThen_false

/-- What `parse_array` does after its header. -/
def arrayAfter (frame : Reader UInt8 Error Frame) (count : Int64) : Reader UInt8 Error Frame :=
  if count.toInt = -1 then fun c => .ok (.nullArray, c)
  else if count.toInt < 0 then fun _ => .error (.protocol "negative array len")
  else if maxArrayLen < count.toInt.toNat then fun _ =>
    .error (.protocol s!"array length {count.toInt.toNat} exceeds limit {maxArrayLen}")
  else andThen (items frame count.toInt.toNat) fun items c => .ok (.array items, c)

theorem parseArray_eq_andThen (frame : Reader UInt8 Error Frame) :
    parseArray frame = andThen readLineInt (arrayAfter frame) := by
  funext c
  simp only [parseArray, andThen]
  congr 1
  funext p
  rw [parseItems_eq]
  unfold arrayAfter
  split_ifs <;> rfl

/-- An element of an array passes a line that may come too late. -/
def lateArray (frame : Reader UInt8 Error Frame) (late : Bytes → Prop) (count : Int64)
    (c : Bytes) : Prop :=
  0 ≤ count.toInt ∧ count.toInt ≤ maxArrayLen ∧ lateItems frame late count.toInt.toNat c

theorem settles_arrayAfter {frame : Reader UInt8 Error Frame} {late : Bytes → Prop}
    (h : Settles .incomplete frame late) (count : Int64) :
    Settles .incomplete (arrayAfter frame count) (lateArray frame late count) := by
  have hmax : maxArrayLen = 1048576 := rfl
  unfold arrayAfter
  split_ifs with h₁ h₂ h₃
  · refine (settles_pure _ Frame.nullArray).congr fun c => iff_of_false id fun hl => ?_
    have := hl.1
    omega
  · refine (settles_fail (by simp)).congr fun c => iff_of_false id fun hl => ?_
    have := hl.1
    omega
  · refine (settles_fail (by simp)).congr fun c => iff_of_false id fun hl => ?_
    have := hl.2.1
    omega
  · refine ((h.items _).andThen fun items => settles_pure _ (Frame.array items)).congr fun c => ?_
    rw [lateThen_false, lateArray]
    exact ⟨fun hl => ⟨by omega, by omega, hl⟩, fun hl => hl.2.2⟩

/-- What `parse_frame` does after the type byte. -/
def frameAfter (levels : ℕ) (tag : UInt8) : Reader UInt8 Error Frame :=
  if tag = 43 then lineString .simple
  else if tag = 45 then lineString .error
  else if tag = 58 then andThen readLineInt fun n c => .ok (.integer n, c)
  else if tag = 36 then parseBulk
  else if tag = 42 then parseArray (parseFrame levels)
  else fun _ => .error (.protocol s!"invalid type byte: 0x{hexByte tag}")

theorem parseFrame_cons (levels : ℕ) (tag : UInt8) (c : Bytes) :
    parseFrame (levels + 1) (tag :: c) = frameAfter levels tag c := by
  simp only [parseFrame, readU8, bind, Except.bind, frameAfter]
  split_ifs with h₁ h₂
  · subst h₁
    exact parseFrame_simple levels c
  · subst h₂
    exact parseFrame_error levels c
  all_goals rfl

/-- While it reads a frame, the parser gets past a line that it would have rejected
before the LF had arrived. -/
def HasLongLine : ℕ → Bytes → Prop
  | 0, _ => False
  | _, [] => False
  | levels + 1, tag :: c =>
      isRespType tag = true ∧ (LongLine c ∨ tag = 42 ∧ ∃ count rest,
        readLineInt c = .ok (count, rest) ∧
          lateArray (parseFrame levels) (HasLongLine levels) count rest)

theorem settles_frameAfter {levels : ℕ}
    (h : Settles .incomplete (parseFrame levels) (HasLongLine levels)) (tag : UInt8) :
    Settles .incomplete (frameAfter levels tag) fun c => HasLongLine (levels + 1) (tag :: c) := by
  have hline : ∀ {r : Reader UInt8 Error Frame}, Settles .incomplete r LongLine →
      isRespType tag = true → tag ≠ 42 →
      Settles .incomplete r fun c => HasLongLine (levels + 1) (tag :: c) := fun hr htag hne =>
    hr.congr fun c => by simp only [HasLongLine, htag, hne, false_and, or_false, true_and]
  unfold frameAfter
  split_ifs with h₁ h₂ h₃ h₄ h₅
  · exact hline (settles_lineString _) (by rw [h₁]; rfl) (by rw [h₁]; decide)
  · exact hline (settles_lineString _) (by rw [h₂]; rfl) (by rw [h₂]; decide)
  · refine hline ((settles_readLineInt.andThen fun n => ?_).congr lateThen_false)
      (by rw [h₃]; rfl) (by rw [h₃]; decide)
    exact settles_pure _ (Frame.integer n)
  · exact hline settles_parseBulk (by rw [h₄]; rfl) (by rw [h₄]; decide)
  · subst h₅
    rw [parseArray_eq_andThen]
    refine (settles_readLineInt.andThen fun count => settles_arrayAfter h count).congr fun c => ?_
    have htag : isRespType 42 = true := rfl
    simp only [lateThen, HasLongLine, htag, true_and]
  · have htag : ¬ isRespType tag = true := by simp [isRespType, h₁, h₂, h₃, h₄, h₅]
    exact (settles_fail (by simp)).congr fun c => iff_of_false id fun hl => htag hl.1

theorem settles_parseFrame (levels : ℕ) :
    Settles .incomplete (parseFrame levels) (HasLongLine levels) := by
  induction levels with
  | zero => exact settles_fail (by simp)
  | succ levels ih =>
      refine settles_of_cons rfl id fun tag => ?_
      have heq : (fun c => parseFrame (levels + 1) (tag :: c)) = frameAfter levels tag :=
        funext (parseFrame_cons levels tag)
      rw [heq]
      exact settles_frameAfter ih tag

/-! ## One turn of the loop -/

theorem findLf_split {c line rest : Bytes} (h : findLf c = some (line, rest)) :
    c = line ++ 10 :: rest ∧ 10 ∉ line := by
  induction c generalizing line with
  | nil => cases h
  | cons b c ih =>
      rw [findLf] at h
      split_ifs at h with hb
      · obtain ⟨rfl, rfl⟩ := Prod.mk.inj (Option.some.inj h)
        exact ⟨by rw [hb]; rfl, List.not_mem_nil⟩
      · obtain ⟨⟨l, r⟩, hl, hp⟩ := Option.map_eq_some_iff.mp h
        obtain ⟨rfl, rfl⟩ := Prod.mk.inj hp
        obtain ⟨rfl, hn⟩ := ih hl
        refine ⟨rfl, fun hm => ?_⟩
        rcases List.mem_cons.mp hm with hm | hm
        · exact hb hm.symm
        · exact hn hm

theorem findLf_append {line : Bytes} (h : 10 ∉ line) (rest : Bytes) :
    findLf (line ++ 10 :: rest) = some (line, rest) := by
  induction line with
  | nil => rfl
  | cons b line ih =>
      have hb : b ≠ 10 := fun hb => h (hb ▸ List.mem_cons_self)
      rw [List.cons_append, findLf, if_neg hb, ih fun hm => h (List.mem_cons_of_mem b hm)]
      rfl

/-- The turn over an inline line. It fails with `none` while the line is not terminated. -/
def inlineTurn (buf : Bytes) : Except (Option Error) (Option Frame × Bytes) :=
  match findLf buf with
  | none => if maxLineLen < buf.length then .error (some lineTooLong) else .error none
  | some (line, rest) =>
      if maxLineLen < line.length then .error (some lineTooLong)
      else match inlineFrame (stripCr line) with
        | .ok frame => .ok (frame, rest)
        | .error e => .error (some e)

/-- The turn over a frame. -/
def frameTurn (buf : Bytes) : Except (Option Error) (Option Frame × Bytes) :=
  match parseFrame (maxNestingDepth + 1) buf with
  | .ok (frame, rest) =>
      let n := buf.length - rest.length
      if maxBufferedFrameBytes < n then
        .error (some (.protocol
          s!"frame length {n} exceeds buffered limit {maxBufferedFrameBytes}"))
      else .ok (some frame, rest)
  | .error .incomplete => .error none
  | .error e => .error (some e)

/-- One turn: a frame, or a blank line that yields none. -/
def turn : Reader UInt8 (Option Error) (Option Frame)
  | [] => .error none
  | b :: c => if isRespType b then frameTurn (b :: c) else inlineTurn (b :: c)

theorem parseLoop_succ (fuel : ℕ) (buf : Bytes) :
    parseLoop (fuel + 1) buf = match turn buf with
      | .ok (some frame, rest) => .ok (some frame, rest)
      | .ok (none, rest) => parseLoop fuel rest
      | .error none => .ok (none, buf)
      | .error (some e) => .error e := by
  cases buf with
  | nil => rfl
  | cons b c =>
      rw [parseLoop, turn]
      by_cases hb : isRespType b
      · rw [if_neg (not_not.mpr hb), if_pos hb, frameTurn]
        cases parseFrame (maxNestingDepth + 1) (b :: c) with
        | error e => cases e <;> rfl
        | ok p =>
            dsimp only
            split_ifs <;> rfl
      · rw [if_pos hb, if_neg hb, inlineTurn, parseInline]
        cases hl : findLf (b :: c) with
        | none =>
            dsimp only
            split_ifs <;> simp
        | some l =>
            obtain ⟨line, rest⟩ := l
            have hlen := congrArg List.length (findLf_split hl).1
            simp only [List.length_append, List.length_cons] at hlen
            dsimp only
            split_ifs
            · rfl
            · cases inlineFrame (stripCr line) with
              | error e => rfl
              | ok frame =>
                  cases frame with
                  | some frame => rfl
                  | none => exact if_neg (by rw [List.length_cons]; omega)

theorem inlineTurn_line {line : Bytes} (h : 10 ∉ line) (rest : Bytes) :
    inlineTurn (line ++ 10 :: rest) =
      if maxLineLen < line.length then .error (some lineTooLong)
      else match inlineFrame (stripCr line) with
        | .ok frame => .ok (frame, rest)
        | .error e => .error (some e) := by
  rw [inlineTurn, findLf_append h]

theorem settles_inlineTurn : Settles none inlineTurn fun _ => False := by
  refine settles_of_stable (fun c o rest h => ?_) fun p q hp => ?_
  · cases hl : findLf c with
    | none =>
        rw [inlineTurn, hl] at h
        dsimp only at h
        split_ifs at h
    | some l =>
        obtain ⟨line, rest'⟩ := l
        obtain ⟨rfl, hn⟩ := findLf_split hl
        rw [inlineTurn_line hn] at h
        split_ifs at h with hlen
        cases hf : inlineFrame (stripCr line) with
        | error e => simp [hf] at h
        | ok frame =>
            obtain ⟨rfl, rfl⟩ : frame = o ∧ rest' = rest := by simpa [hf] using h
            refine ⟨line ++ [10], by simp, fun x => ?_⟩
            rw [List.append_assoc]
            refine (inlineTurn_line hn x).trans ?_
            rw [if_neg hlen, hf]
  · obtain ⟨x, hx, hne⟩ := hp
    cases hl : findLf p with
    | some l =>
        obtain ⟨line, rest⟩ := l
        obtain ⟨rfl, hn⟩ := findLf_split hl
        rw [inlineTurn_line hn] at hx
        refine ⟨x, ?_, hne⟩
        rw [List.append_assoc]
        refine (inlineTurn_line hn (rest ++ q)).trans ?_
        split_ifs at hx ⊢
        · exact hx
        · cases hf : inlineFrame (stripCr line) with
          | error e => simpa [hf] using hx
          | ok frame => simp [hf] at hx
    | none =>
        rw [inlineTurn, hl] at hx
        dsimp only at hx
        split_ifs at hx with hlen
        · -- the line is at least as long as what has arrived of it
          refine ⟨some lineTooLong, ?_, by simp⟩
          rw [inlineTurn]
          cases hq : findLf (p ++ q) with
          | none => exact if_pos (by rw [List.length_append]; omega)
          | some l =>
              obtain ⟨line, rest⟩ := l
              obtain ⟨he, hn⟩ := findLf_split hq
              refine if_pos ?_
              by_contra hshort
              have hle : (line ++ [10]).length ≤ p.length := by
                simp only [List.length_append, List.length_singleton]
                omega
              obtain ⟨t, rfl⟩ : line ++ [10] <+: p :=
                List.prefix_of_prefix_length_le ⟨rest, by rw [he]; simp⟩ ⟨q, rfl⟩ hle
              have hfound := findLf_append hn t
              rw [List.append_assoc] at hl
              cases hl.symm.trans hfound
        · obtain rfl := Except.error.inj hx
          exact absurd rfl hne

/-- A turn over an inline request is over one line. -/
theorem inlineTurn_eq_ok {buf rest : Bytes} {frame : Option Frame}
    (h : inlineTurn buf = .ok (frame, rest)) :
    ∃ line, buf = line ++ 10 :: rest ∧ 10 ∉ line ∧ line.length ≤ maxLineLen ∧
      inlineFrame (stripCr line) = .ok frame := by
  unfold inlineTurn at h
  cases hl : findLf buf with
  | none =>
      rw [hl] at h
      dsimp only at h
      split_ifs at h
  | some p =>
      obtain ⟨line, r⟩ := p
      obtain ⟨rfl, hn⟩ := findLf_split hl
      rw [hl] at h
      dsimp only at h
      split_ifs at h with hlen
      cases hf : inlineFrame (stripCr line) with
      | error e => simp [hf] at h
      | ok o =>
          obtain ⟨rfl, rfl⟩ : o = frame ∧ r = rest := by simpa [hf] using h
          exact ⟨line, rfl, hn, not_lt.mp hlen, hf⟩

theorem frameTurn_eq_ok {c rest : Bytes} {o : Option Frame} :
    frameTurn c = .ok (o, rest) ↔ ∃ frame, o = some frame ∧
      parseFrame (maxNestingDepth + 1) c = .ok (frame, rest) ∧
      c.length - rest.length ≤ maxBufferedFrameBytes := by
  unfold frameTurn
  cases parseFrame (maxNestingDepth + 1) c with
  | error e => cases e <;> simp
  | ok p =>
      obtain ⟨frame, r⟩ := p
      dsimp only
      split_ifs with hn
      · refine iff_of_false (by simp) ?_
        rintro ⟨f, -, hf, hle⟩
        obtain ⟨rfl, rfl⟩ := Prod.mk.inj (Except.ok.inj hf)
        exact absurd hle (Nat.not_le.mpr hn)
      · constructor
        · intro h
          obtain ⟨rfl, rfl⟩ := Prod.mk.inj (Except.ok.inj h)
          exact ⟨frame, rfl, rfl, Nat.not_lt.mp hn⟩
        · rintro ⟨f, rfl, hf, -⟩
          obtain ⟨rfl, rfl⟩ := Prod.mk.inj (Except.ok.inj hf)
          rfl

theorem frameTurn_rejects {c : Bytes} :
    Rejects none frameTurn c ↔ Rejects .incomplete (parseFrame (maxNestingDepth + 1)) c ∨
      ∃ frame rest, parseFrame (maxNestingDepth + 1) c = .ok (frame, rest) ∧
        maxBufferedFrameBytes < c.length - rest.length := by
  unfold Rejects frameTurn
  cases parseFrame (maxNestingDepth + 1) c with
  | error e => cases e <;> simp
  | ok p =>
      obtain ⟨frame, r⟩ := p
      dsimp only
      split_ifs with hn <;> simp [hn]

theorem settles_frameTurn : Settles none frameTurn (HasLongLine (maxNestingDepth + 1)) := by
  have hs := settles_parseFrame (maxNestingDepth + 1)
  -- the size of a frame that was read is that of its word
  have hsize : ∀ (w x y : Bytes), (w ++ x).length - x.length = (w ++ y).length - y.length := by
    intro w x y
    simp only [List.length_append]
    omega
  refine ⟨fun c o rest h => ?_, fun p q hp => ?_, fun c hc => ?_⟩
  · obtain ⟨frame, rfl, hf, hlen⟩ := frameTurn_eq_ok.mp h
    obtain ⟨w, rfl, hw⟩ := hs.isLocal _ _ _ hf
    refine ⟨w, rfl, fun x => frameTurn_eq_ok.mpr ⟨frame, rfl, hw x, ?_⟩⟩
    rwa [hsize w x rest]
  · rcases frameTurn_rejects.mp hp with hr | ⟨frame, rest, hf, hlen⟩
    · exact (hs.firm p q hr).imp_left fun hr => frameTurn_rejects.mpr (Or.inl hr)
    · obtain ⟨w, rfl, hw⟩ := hs.isLocal _ _ _ hf
      refine Or.inl (frameTurn_rejects.mpr (Or.inr ⟨frame, rest ++ q, ?_, ?_⟩))
      · rw [List.append_assoc]
        exact hw (rest ++ q)
      · rw [List.append_assoc]
        rwa [hsize w (rest ++ q) rest]
  · obtain ⟨p, q, rfl, hr⟩ := hs.early c hc
    exact ⟨p, q, rfl, frameTurn_rejects.mpr (Or.inl hr)⟩

theorem settles_turn : Settles none turn (HasLongLine (maxNestingDepth + 1)) := by
  refine settles_of_cons rfl id fun b => ?_
  by_cases hb : isRespType b = true
  · have heq : (fun c => turn (b :: c)) = fun c => frameTurn (b :: c) := funext fun c => if_pos hb
    rw [heq]
    exact settles_frameTurn.cons rfl b
  · have heq : (fun c => turn (b :: c)) = fun c => inlineTurn (b :: c) := funext fun c => if_neg hb
    rw [heq]
    exact (settles_inlineTurn.cons rfl b).congr fun c => iff_of_false id fun hl => hb hl.1

theorem turn_shrinks {c rest : Bytes} {o : Option Frame} (h : turn c = .ok (o, rest)) :
    rest.length < c.length := by
  obtain ⟨w, rfl, hw⟩ := settles_turn.isLocal _ _ _ h
  cases w with
  | nil => cases hw []
  | cons b w =>
      rw [List.cons_append, List.length_cons, List.length_append]
      omega

/-- The loop of `parse` has enough turns. -/
theorem parseLoop_eq {fuel : ℕ} {buf : Bytes} (h : buf.length < fuel) :
    parseLoop fuel buf = parse buf := by
  induction hn : buf.length using Nat.strong_induction_on generalizing buf fuel with
  | _ n ih =>
      obtain ⟨fuel, rfl⟩ : ∃ k, fuel = k + 1 := ⟨fuel - 1, by omega⟩
      rw [parse, parseLoop_succ, parseLoop_succ]
      cases ht : turn buf with
      | error x => cases x <;> rfl
      | ok p =>
          obtain ⟨o, rest⟩ := p
          have hlt := turn_shrinks ht
          cases o with
          | some frame => rfl
          | none =>
              have h₁ : parseLoop fuel rest = parse rest :=
                ih rest.length (by omega) (by omega) rfl
              have h₂ : parseLoop buf.length rest = parse rest :=
                ih rest.length (by omega) hlt rfl
              exact h₁.trans h₂.symm

theorem parse_eq_turn (buf : Bytes) :
    parse buf = match turn buf with
      | .ok (some frame, rest) => .ok (some frame, rest)
      | .ok (none, rest) => parse rest
      | .error none => .ok (none, buf)
      | .error (some e) => .error e := by
  rw [parse, parseLoop_succ]
  cases ht : turn buf with
  | error x => cases x <;> rfl
  | ok p =>
      obtain ⟨o, rest⟩ := p
      cases o with
      | some frame => rfl
      | none => exact parseLoop_eq (turn_shrinks ht)

/-- Only blank lines between the two positions. -/
def Blanks (b c : Bytes) : Prop := ∃ n : ℕ, Yields turn b (List.replicate n none) c

theorem Blanks.refl (b : Bytes) : Blanks b b := ⟨0, .nil b⟩

theorem Blanks.parse {b c : Bytes} (h : Blanks b c) : parse b = parse c := by
  obtain ⟨n, h⟩ := h
  induction n generalizing b with
  | zero =>
      cases h
      rfl
  | succ n ih =>
      cases h with
      | cons ht h =>
          rw [parse_eq_turn b, ht]
          exact ih h

/-- What `parse` returns, and the turn that it comes from. -/
inductive Parsed (b : Bytes) : Except Error (Option Frame × Bytes) → Prop
  | frame {c rest : Bytes} {frame : Frame} :
      Blanks b c → turn c = .ok (some frame, rest) → Parsed b (.ok (some frame, rest))
  | waiting {c : Bytes} : Blanks b c → turn c = .error none → Parsed b (.ok (none, c))
  | error {c : Bytes} {e : Error} :
      Blanks b c → turn c = .error (some e) → Parsed b (.error e)

theorem parse_parsed (b : Bytes) : Parsed b (parse b) := by
  induction hn : b.length using Nat.strong_induction_on generalizing b with
  | _ n ih =>
      rw [parse_eq_turn]
      cases ht : turn b with
      | error x =>
          cases x with
          | none => exact .waiting (.refl b) ht
          | some e => exact .error (.refl b) ht
      | ok p =>
          obtain ⟨o, rest⟩ := p
          cases o with
          | some frame => exact .frame (.refl b) ht
          | none =>
              have hlt := turn_shrinks ht
              have blank : ∀ {c}, Blanks rest c → Blanks b c := fun ⟨n, h⟩ => ⟨n + 1, .cons ht h⟩
              have hrest := ih rest.length (by omega) rest rfl
              dsimp only
              cases hp : parse rest with
              | error e =>
                  rw [hp] at hrest
                  cases hrest with
                  | error hb hc => exact .error (blank hb) hc
              | ok q =>
                  rw [hp] at hrest
                  cases hrest with
                  | frame hb hc => exact .frame (blank hb) hc
                  | waiting hb hc => exact .waiting (blank hb) hc

/-! ## What `parse` takes off the buffer -/

/-- Bytes that `parse` reads as a frame, whatever follows them: a frame or an inline
request, perhaps after blank lines. -/
def Word (w : Bytes) (frame : Frame) : Prop := ∀ rest, parse (w ++ rest) = .ok (some frame, rest)

/-- Bytes that `parse` passes over: blank lines. -/
def Blank (w : Bytes) : Prop := ∀ rest, parse (w ++ rest) = parse rest

theorem blank_nil : Blank [] := fun _ => rfl

theorem Blank.word {v w : Bytes} {frame : Frame} (hv : Blank v) (hw : Word w frame) :
    Word (v ++ w) frame := fun rest => by
  rw [List.append_assoc, hv, hw]

theorem blank_of_blanks {b c : Bytes} (h : Blanks b c) : ∃ w, b = w ++ c ∧ Blank w := by
  obtain ⟨n, h⟩ := h
  obtain ⟨w, rfl, hw⟩ := h.word settles_turn.isLocal
  exact ⟨w, rfl, fun rest => Blanks.parse ⟨n, hw rest⟩⟩

theorem parse_word {b rest : Bytes} {frame : Frame} (h : parse b = .ok (some frame, rest)) :
    ∃ w, b = w ++ rest ∧ Word w frame := by
  have hp := parse_parsed b
  rw [h] at hp
  cases hp with
  | frame hb ht =>
      obtain ⟨v, rfl, hv⟩ := blank_of_blanks hb
      obtain ⟨w, rfl, hw⟩ := settles_turn.isLocal _ _ _ ht
      refine ⟨v ++ w, (List.append_assoc v w rest).symm, hv.word fun x => ?_⟩
      rw [parse_eq_turn, hw x]

theorem parse_blank {b rest : Bytes} (h : parse b = .ok (none, rest)) :
    (∃ w, b = w ++ rest ∧ Blank w) ∧ parse rest = .ok (none, rest) := by
  have hp := parse_parsed b
  rw [h] at hp
  cases hp with
  | waiting hb ht => exact ⟨blank_of_blanks hb, by rw [parse_eq_turn, ht]⟩

theorem Word.ne_nil {w : Bytes} {frame : Frame} (h : Word w frame) : w ≠ [] := by
  rintro rfl
  cases h []

end MiniRedis.Parser
