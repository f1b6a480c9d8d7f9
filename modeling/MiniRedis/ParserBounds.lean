import MiniRedis.ParserTurns

/-!
# What the parser accepts

A frame that the parser returns can be encoded again: its canonical encoding is no
longer than the bytes it was read from, and it meets the limits under which the
parser reads it back. Inline requests are bounded by the length of their line.
-/
namespace MiniRedis.ParserBounds
open Numeral Wire MiniRedis.Parser PrefixCode ParserRoundTrip

/-! ## Lines -/

theorem readLine_cost : Costs NoCrlf (fun line => line.length + 2) readLine := by
  intro c line rest h
  unfold readLine at h
  cases hf : findCrlf c with
  | some p =>
      rw [hf] at h
      obtain ⟨rfl⟩ := h
      obtain ⟨rfl, hn⟩ := findCrlf_split hf
      refine ⟨hn, ?_⟩
      simp only [List.length_append, List.length_cons]
      omega
  | none =>
      rw [hf] at h
      dsimp only at h
      split_ifs at h

theorem readLineInt_cost :
    Costs (fun _ => True) (fun n => (signed n.toInt).length + 2) readLineInt := by
  rw [readLineInt_eq]
  refine readLine_cost.andThen fun line _ c n rest h => ⟨trivial, ?_⟩
  unfold lineInt at h
  cases hr : readI64 line with
  | none => simp [hr] at h
  | some m =>
      obtain ⟨rfl, rfl⟩ : m = n ∧ c = rest := by simpa [hr] using h
      have := Numeral.length_signed_le (parseInt64_of_readI64 hr)
      omega

theorem lineString_cost {mk : String → Frame}
    (hw : ∀ s, (wire (mk s)).length = (asBytes s).length + 3) :
    Costs (fun f => ∃ s, f = mk s ∧ NoCrlf (asBytes s)) (fun f => (wire f).length - 1)
      (lineString mk) := by
  refine readLine_cost.andThen fun line hn c f rest h => ?_
  cases hu : fromUtf8 line with
  | none => simp [hu] at h
  | some s =>
      obtain ⟨rfl, rfl⟩ : mk s = f ∧ c = rest := by simpa [hu] using h
      have hb := asBytes_of_fromUtf8 hu
      refine ⟨⟨s, rfl, by rwa [hb]⟩, ?_⟩
      rw [hw, hb]
      omega

/-! ## Frames -/

/-- The parser's result at a level: parseable there, and paid for together with its type byte. -/
abbrev Fits (levels : ℕ) (r : Reader UInt8 Error Frame) : Prop :=
  Costs (Parseable (levels + 1)) (fun f => (wire f).length - 1) r

theorem length_minusOne : (signed (-1)).length = 2 := by decide

theorem parseBulk_fits (levels : ℕ) : Fits levels parseBulk := by
  intro c f rest h
  unfold parseBulk at h
  cases hl : readLineInt c with
  | error e => simp [hl, bind, Except.bind] at h
  | ok p =>
      obtain ⟨len, c'⟩ := p
      have hc : (signed len.toInt).length + 2 + c'.length ≤ c.length :=
        (readLineInt_cost c len c' hl).2
      simp only [hl, bind, Except.bind] at h
      split_ifs at h with h₁ h₂ h₃ h₄ h₅
      · obtain ⟨rfl, rfl⟩ : Frame.null = f ∧ c' = rest := by simpa using h
        rw [h₁, length_minusOne] at hc
        exact ⟨trivial, by simpa [wire] using hc⟩
      · obtain ⟨n, hn⟩ := Int.eq_ofNat_of_zero_le (not_lt.mp h₂)
        rw [hn, Int.toNat_natCast] at h h₄ h₅
        rw [hn, signed_natCast] at hc
        have hfit := (respBulkLen_any_iff n).mp (by simpa using h₄)
        cases hd : c'.drop n with
        | nil => simp [hd, readU8] at h
        | cons cr r =>
            simp only [hd, readU8] at h
            split_ifs at h with hcr
            cases r with
            | nil => simp at h
            | cons lf r =>
                simp only at h
                split_ifs at h with hlf
                obtain ⟨rfl, rfl⟩ : Frame.bulk (c'.take n) = f ∧ r = rest := by simpa using h
                have hlen := congrArg List.length hd
                simp only [List.length_drop, List.length_cons] at hlen
                have htake : (c'.take n).length = n := List.length_take_of_le (by omega)
                refine ⟨by rwa [Parseable, htake], ?_⟩
                simp only [length_wire_bulk, htake, bulkLen]
                omega

theorem parseArray_fits {levels : ℕ}
    (h : Costs (Parseable levels) (fun f => (wire f).length) (parseFrame levels)) :
    Fits levels (parseArray (parseFrame levels)) := by
  intro c f rest hf
  unfold parseArray at hf
  cases hl : readLineInt c with
  | error e => simp [hl, bind, Except.bind] at hf
  | ok p =>
      obtain ⟨count, c'⟩ := p
      have hc : (signed count.toInt).length + 2 + c'.length ≤ c.length :=
        (readLineInt_cost c count c' hl).2
      simp only [hl, bind, Except.bind] at hf
      split_ifs at hf with h₁ h₂ h₃
      · obtain ⟨rfl, rfl⟩ : Frame.nullArray = f ∧ c' = rest := by simpa using hf
        rw [h₁, length_minusOne] at hc
        exact ⟨trivial, by simpa [wire] using hc⟩
      · obtain ⟨n, hn⟩ := Int.eq_ofNat_of_zero_le (not_lt.mp h₂)
        rw [hn, Int.toNat_natCast, parseItems_eq] at hf
        rw [hn, Int.toNat_natCast] at h₃
        rw [hn, signed_natCast] at hc
        cases hi : items (parseFrame levels) n c' with
        | error e => simp [hi] at hf
        | ok q =>
            obtain ⟨as, r⟩ := q
            obtain ⟨rfl, rfl⟩ : Frame.array as = f ∧ r = rest := by simpa [hi] using hf
            obtain ⟨⟨hlen, hP⟩, hs⟩ := h.items n c' as r hi
            refine ⟨⟨by omega, hP⟩, ?_⟩
            simp only [length_wire_array, headerLen, hlen] at hs ⊢
            omega

/-- A reader of the frames with one type byte, as `parse_frame` calls it. -/
theorem Fits.tagged {levels : ℕ} {r : Reader UInt8 Error Frame} (h : Fits levels r)
    {c : Bytes} {f : Frame} {rest : Bytes} (hr : r c = .ok (f, rest)) (b : UInt8) :
    Parseable (levels + 1) f ∧ (wire f).length + rest.length ≤ (b :: c).length := by
  obtain ⟨hP, hs⟩ := h c f rest hr
  dsimp only at hs
  rw [List.length_cons]
  exact ⟨hP, by omega⟩

theorem parseFrame_cost (levels : ℕ) :
    Costs (Parseable levels) (fun f => (wire f).length) (parseFrame levels) := by
  induction levels with
  | zero =>
      intro c f rest h
      cases h
  | succ levels ih =>
      intro c f rest h
      cases c with
      | nil => cases h
      | cons b c =>
          have hsimple : Fits levels (lineString .simple) := fun c f rest h => by
            obtain ⟨⟨s, rfl, hn⟩, hs⟩ := lineString_cost (fun s => by simp [wire]) c f rest h
            exact ⟨hn, hs⟩
          have herror : Fits levels (lineString .error) := fun c f rest h => by
            obtain ⟨⟨s, rfl, hn⟩, hs⟩ := lineString_cost (fun s => by simp [wire]) c f rest h
            exact ⟨hn, hs⟩
          have hinteger : Fits levels (andThen readLineInt fun n c => .ok (.integer n, c)) :=
            readLineInt_cost.andThen fun n _ c f rest h => by
              obtain ⟨rfl, rfl⟩ : Frame.integer n = f ∧ c = rest := by simpa using h
              exact ⟨trivial, by simp [wire]⟩
          by_cases h₁ : b = 43
          · subst h₁
            exact hsimple.tagged ((parseFrame_simple levels c).symm.trans h) 43
          by_cases h₂ : b = 45
          · subst h₂
            exact herror.tagged ((parseFrame_error levels c).symm.trans h) 45
          by_cases h₃ : b = 58
          · subst h₃
            exact hinteger.tagged ((parseFrame_integer levels c).symm.trans h) 58
          by_cases h₄ : b = 36
          · subst h₄
            exact (parseBulk_fits levels).tagged ((parseFrame_bulk levels c).symm.trans h) 36
          by_cases h₅ : b = 42
          · subst h₅
            exact (parseArray_fits ih).tagged ((parseFrame_array levels c).symm.trans h) 42
          · simp [parseFrame, readU8, bind, Except.bind, h₁, h₂, h₃, h₄, h₅] at h

/-! ## Inline requests -/

/-- Quoted text costs a byte more than it yields, for the closing quote. -/
theorem readInlineQuoted_cost (quote : UInt8) (line out arg rest : Bytes) :
    readInlineQuoted quote line out = .ok (arg, rest) →
      out.length ≤ arg.length ∧ arg.length + rest.length + 1 ≤ out.length + line.length := by
  fun_induction readInlineQuoted quote line out with
  | case1 | case4 =>
      intro h
      cases h
  | case2 =>
      intro h
      obtain ⟨rfl, rfl⟩ := Prod.mk.inj (Except.ok.inj h)
      simp only [List.length_cons]
      omega
  | case3 _ _ _ _ _ ih | case5 _ _ _ _ _ _ _ _ _ _ _ _ _ ih | case6 _ _ _ _ _ _ _ _ _ _ ih
  | case7 _ _ _ _ _ _ _ _ _ ih | case8 _ _ _ _ _ _ _ ih =>
      intro h
      have hi := ih h
      simp only [List.length_append, List.length_cons, List.length_nil] at hi ⊢
      omega

theorem readInlineArg_cost (fuel : ℕ) (line arg a rest : Bytes) :
    readInlineArg fuel line arg = .ok (a, rest) →
      arg.length ≤ a.length ∧ a.length + rest.length ≤ arg.length + line.length := by
  fun_induction readInlineArg fuel line arg with
  | case1 | case2 | case3 =>
      intro h
      obtain ⟨rfl, rfl⟩ := Prod.mk.inj (Except.ok.inj h)
      exact ⟨le_rfl, le_rfl⟩
  | case4 fuel b line arg _ _ ih =>
      intro h
      obtain ⟨⟨arg', line'⟩, hq, h'⟩ := bind_eq_ok.mp h
      have hi := ih arg' line' h'
      have hc := readInlineQuoted_cost b line arg arg' line' hq
      simp only [List.length_cons]
      omega
  | case5 =>
      intro h
      cases h
  | case6 _ _ _ _ _ _ ih | case7 _ _ _ _ _ _ _ ih =>
      intro h
      have hi := ih h
      simp only [List.length_append, List.length_cons, List.length_nil] at hi ⊢
      omega

/-- An argument that starts here takes a byte of the line, even if it is empty. -/
theorem readInlineArg_progress {fuel : ℕ} {b : UInt8} {line a rest : Bytes}
    (hb : isInlineSpace b = false) (h : readInlineArg (fuel + 1) (b :: line) [] = .ok (a, rest)) :
    rest.length ≤ line.length := by
  simp only [readInlineArg, hb, Bool.false_eq_true, if_false] at h
  split_ifs at h
  · obtain ⟨⟨arg', line'⟩, hq, h'⟩ := bind_eq_ok.mp h
    have hc := readInlineQuoted_cost b line [] arg' line' hq
    have hi := readInlineArg_cost fuel line' arg' a rest h'
    omega
  · cases line with
    | nil => cases h
    | cons escaped line =>
        have hi := readInlineArg_cost fuel line [escaped] a rest h
        simp only [List.length_cons, List.length_nil] at hi ⊢
        omega
  · have hi := readInlineArg_cost fuel line [b] a rest h
    simp only [List.length_cons, List.length_nil] at hi
    omega

theorem splitInlineArgsLoop_cost (fuel : ℕ) (line : Bytes) (args : List Bytes)
    (h : splitInlineArgsLoop fuel line = .ok args) :
    args.length ≤ line.length ∧ (args.map List.length).sum ≤ line.length := by
  induction fuel generalizing line args with
  | zero =>
      obtain rfl : [] = args := by simpa [splitInlineArgsLoop] using h
      simp
  | succ fuel ih =>
      have hd : (line.dropWhile isInlineSpace).length ≤ line.length :=
        (List.dropWhile_sublist isInlineSpace).length_le
      unfold splitInlineArgsLoop at h
      cases hl : line.dropWhile isInlineSpace with
      | nil =>
          obtain rfl : [] = args := by simpa [hl] using h
          simp
      | cons b l =>
          have hb : isInlineSpace b = false := by
            have := List.head_dropWhile_not isInlineSpace (l := line) (by simp [hl])
            simpa [hl] using this
          rw [hl] at h hd
          obtain ⟨⟨arg, rest⟩, ha, h'⟩ := bind_eq_ok.mp h
          obtain ⟨args', hs, h''⟩ := bind_eq_ok.mp h'
          obtain rfl : arg :: args' = args := Except.ok.inj h''
          have hi := ih rest args' hs
          have hc := readInlineArg_cost _ _ _ _ _ ha
          have hp := readInlineArg_progress hb ha
          simp only [List.length_cons, List.map_cons, List.sum_cons, List.length_nil] at *
          omega

theorem length_stripCr (line : Bytes) : (stripCr line).length ≤ line.length := by
  unfold stripCr
  split_ifs
  · rw [List.length_dropLast]
    omega
  · exact le_rfl

/-- The overhead of a bulk string whose length has at most seven digits. -/
theorem bulkLen_le {n : ℕ} (h : n < 10 ^ 7) : bulkLen n ≤ n + 12 := by
  have := (length_decimal_le_iff (n := n) (by omega : 0 < 7)).mpr h
  unfold bulkLen
  omega

theorem sum_bulkLen_le {args : List Bytes} {m : ℕ} (hm : m < 10 ^ 7)
    (h : (args.map List.length).sum ≤ m) :
    (args.map fun a => bulkLen a.length).sum ≤
      (args.map List.length).sum + 12 * args.length := by
  induction args with
  | nil => simp
  | cons a args ih =>
      simp only [List.map_cons, List.sum_cons, List.length_cons] at h ⊢
      have ha := bulkLen_le (n := a.length) (by omega)
      have hi := ih (by omega)
      omega

/-- A frame that the parser returns can be encoded within the limits and read back. -/
abbrev Accepted (f : Frame) : Prop :=
  Parseable (maxNestingDepth + 1) f ∧ (wire f).length ≤ maxBufferedFrameBytes

theorem inlineFrame_accepted {line : Bytes} {f : Frame} (hl : line.length ≤ maxLineLen)
    (h : inlineFrame line = .ok (some f)) : Accepted f := by
  obtain ⟨args, ha, hf⟩ := bind_eq_ok.mp h
  obtain ⟨hn, hs⟩ := splitInlineArgsLoop_cost _ line args ha
  split_ifs at hf
  · cases hf
  obtain rfl : commandFrame args = f := Option.some.inj (Except.ok.inj hf)
  have hmax : maxLineLen = 1048576 := rfl
  have hsum := sum_bulkLen_le (by omega) (hs.trans hl)
  have hd := (length_decimal_le_iff (n := args.length) (by omega : 0 < 7)).mpr (by omega)
  have hlen : (wire (commandFrame args)).length ≤ maxBufferedFrameBytes := by
    have hb : maxBufferedFrameBytes = 67108864 := rfl
    rw [length_wire_command, headerLen]
    omega
  exact ⟨parseable_command (hn.trans hl) hlen, hlen⟩

theorem turn_accepted {buf rest : Bytes} {f : Frame} (h : turn buf = .ok (some f, rest)) :
    Accepted f := by
  cases buf with
  | nil => cases h
  | cons b buf =>
      rw [turn] at h
      split_ifs at h
      · obtain ⟨frame, hf, hframe, hn⟩ := frameTurn_eq_ok.mp h
        obtain rfl := Option.some.inj hf
        obtain ⟨hP, hs⟩ := parseFrame_cost _ _ _ _ hframe
        exact ⟨hP, by dsimp only at hs; omega⟩
      · obtain ⟨line, -, -, hlen, hf⟩ := inlineTurn_eq_ok h
        exact inlineFrame_accepted ((length_stripCr line).trans hlen) hf

theorem parse_accepted {buf rest : Bytes} {f : Frame} (h : parse buf = .ok (some f, rest)) :
    Accepted f := by
  have hp := parse_parsed buf
  rw [h] at hp
  cases hp with
  | frame _ hturn => exact turn_accepted hturn

end MiniRedis.ParserBounds
