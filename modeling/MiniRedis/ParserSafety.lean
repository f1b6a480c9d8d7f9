import MiniRedis.IndexedParser
import MiniRedis.ParserBounds

/-!
# The parser stays in bounds

On a buffer of a size that memory can have, the parser on positions goes as the parser on the
bytes from its position on: it returns the same frames and the same errors, at the position
where the remaining bytes begin. So none of its checks fails, and it never lacks fuel.
-/
namespace MiniRedis.IndexedParser
open Wire MiniRedis.Parser PrefixCode ParserRoundTrip ParserBounds

/-- The run from a position goes as the one on the bytes from there on. -/
def Tracks {A : Type} (buf : Bytes) (pos : ℕ) (r : Run (A × ℕ))
    (s : Except Error (A × Bytes)) : Prop :=
  match s with
  | .ok (a, rest) => ∃ pos', r = .ok (a, pos') ∧ pos ≤ pos' ∧ pos' ≤ buf.length ∧
      buf.drop pos' = rest
  | .error e => r = fail e

section Tracks
variable {A C : Type} {buf : Bytes} {pos : ℕ}

theorem Tracks.ok {a : A} {pos' : ℕ} (hle : pos ≤ pos') (hlen : pos' ≤ buf.length) :
    Tracks buf pos (.ok (a, pos')) (.ok (a, buf.drop pos')) :=
  ⟨pos', rfl, hle, hlen, rfl⟩

theorem Tracks.fail (e : Error) : Tracks (A := A) buf pos (fail e) (.error e) := rfl

theorem Tracks.mono {pos' : ℕ} {r : Run (A × ℕ)} {s : Except Error (A × Bytes)}
    (h : Tracks buf pos' r s) (hle : pos ≤ pos') : Tracks buf pos r s := by
  cases s with
  | error e => exact h
  | ok p =>
      obtain ⟨q, hr, hq, hlen, hrest⟩ := h
      exact ⟨q, hr, hle.trans hq, hlen, hrest⟩

/-- Sequencing: the second run starts where the first one stopped. -/
theorem Tracks.bind {r : Run (A × ℕ)} {s : Except Error (A × Bytes)}
    {k : A × ℕ → Run (C × ℕ)} {k' : A × Bytes → Except Error (C × Bytes)}
    (h : Tracks buf pos r s)
    (hk : ∀ a pos', pos ≤ pos' → pos' ≤ buf.length →
      Tracks buf pos' (k (a, pos')) (k' (a, buf.drop pos'))) :
    Tracks buf pos (r >>= k) (s >>= k') := by
  cases s with
  | error e =>
      cases h
      exact rfl
  | ok p =>
      obtain ⟨a, rest⟩ := p
      obtain ⟨pos', rfl, hle, hlen, rfl⟩ := h
      exact (hk a pos' hle hlen).mono hle

end Tracks

/-! ## Checked operations -/

theorem add_eq {a b : ℕ} (h : a + b < 2 ^ 64) : add a b = .ok (a + b) := if_pos h

theorem sub_eq {a b : ℕ} (h : b ≤ a) : sub a b = .ok (a - b) := if_pos h

theorem advance_eq {buf : Bytes} {n : ℕ} (h : n ≤ buf.length) : advance buf n = .ok (buf.drop n) :=
  if_pos h

theorem index_eq {buf rest : Bytes} {i : ℕ} {b : UInt8} (h : buf.drop i = b :: rest) :
    index buf i = .ok b := by
  have hi : buf[i]? = some b := by rw [← List.head?_drop, h, List.head?_cons]
  rw [index, hi]

theorem drop_succ {buf rest : Bytes} {i : ℕ} {b : UInt8} (h : buf.drop i = b :: rest) :
    buf.drop (i + 1) = rest ∧ i < buf.length := by
  constructor
  · rw [← List.drop_drop, h, List.drop_one, List.tail_cons]
  · by_contra hi
    rw [List.drop_eq_nil_of_le (not_lt.mp hi)] at h
    cases h

/-- The slice from a position up to the end of a part of what is there. -/
theorem slice_eq {buf part rest : Bytes} {pos : ℕ} (hpos : pos ≤ buf.length)
    (h : buf.drop pos = part ++ rest) :
    slice buf pos (pos + part.length) = .ok part ∧ buf.drop (pos + part.length) = rest ∧
      pos + part.length ≤ buf.length := by
  have hlen := congrArg List.length h
  rw [List.length_drop, List.length_append] at hlen
  refine ⟨?_, ?_, by omega⟩
  · rw [slice, if_pos ⟨by omega, by omega⟩, List.drop_take, Nat.add_sub_cancel_left, h,
      List.take_left]
  · rw [← List.drop_drop, h, List.drop_left]

/-! ## Lines -/

/-- A CR LF takes two bytes. -/
theorem findCrlf_short {c : Bytes} (h : c.length ≤ 1) : Parser.findCrlf c = none := by
  cases c with
  | nil => rfl
  | cons b c =>
      obtain rfl : c = [] := List.length_eq_zero_iff.mp (Nat.le_zero.mp (Nat.le_of_succ_le_succ h))
      rw [Parser.findCrlf, if_neg (fun hb => Option.some_ne_none _ hb.2.symm)]
      rfl

theorem findCrlfFrom_eq {buf : Bytes} (hbuf : buf.length < 2 ^ 63) (n : ℕ) {i : ℕ}
    (hn : n = buf.length - 1 - i) : findCrlfFrom buf n i =
      .ok ((Parser.findCrlf (buf.drop i)).map fun p => i + p.1.length) := by
  induction n generalizing i with
  | zero =>
      have hshort : (buf.drop i).length ≤ 1 := by
        rw [List.length_drop]
        omega
      rw [findCrlf_short hshort]
      rfl
  | succ n ih =>
      have hnext := ih (i := i + 1) (by omega)
      cases hi : buf.drop i with
      | nil =>
          have hlen := congrArg List.length hi
          simp only [List.length_drop, List.length_nil] at hlen
          omega
      | cons b c =>
          obtain ⟨hc, hlt⟩ := drop_succ hi
          cases c with
          | nil =>
              have hlen := congrArg List.length hi
              simp only [List.length_drop, List.length_cons, List.length_nil] at hlen
              omega
          | cons b' c =>
              have hlist : Parser.findCrlf (b :: b' :: c) = if b = 13 ∧ b' = 10 then some ([], c)
                  else (Parser.findCrlf (b' :: c)).map fun p => (b :: p.1, p.2) := by
                rw [Parser.findCrlf]
                simp only [List.head?_cons, Option.some.injEq, List.tail_cons]
              have hshift : ∀ o : Option (Bytes × Bytes), (o.map fun p => i + 1 + p.1.length) =
                  (o.map fun p => (b :: p.1, p.2)).map fun p => i + p.1.length := by
                intro o
                cases o with
                | none => rfl
                | some p => simp [Nat.add_comm, Nat.add_left_comm]
              rw [hc, hshift] at hnext
              rw [hlist]
              simp only [findCrlfFrom, index_eq hi, index_eq hc, add_eq (by omega : i + 1 < 2 ^ 64),
                hnext, bind, Except.bind]
              by_cases hb : b = 13
              · by_cases hb' : b' = 10
                · simp [hb, hb']
                · simp [hb, hb']
              · simp [hb]

theorem findCrlf_eq {buf : Bytes} (hbuf : buf.length < 2 ^ 63) {pos : ℕ} (hpos : pos ≤ buf.length) :
    findCrlf buf pos = .ok ((Parser.findCrlf (buf.drop pos)).map fun p => pos + p.1.length) := by
  rw [findCrlf, add_eq (by omega)]
  change (if buf.length < pos + 2 then _ else _) = _
  split_ifs with hshort
  · rw [findCrlf_short (by rw [List.length_drop]; omega)]
    rfl
  · exact findCrlfFrom_eq hbuf _ rfl

theorem readU8_tracks {buf : Bytes} (hbuf : buf.length < 2 ^ 63) (pos : ℕ) :
    Tracks buf pos (readU8 buf pos) (Parser.readU8 (buf.drop pos)) := by
  unfold readU8
  cases hd : buf.drop pos with
  | nil =>
      have hlen := congrArg List.length hd
      rw [List.length_drop, List.length_nil] at hlen
      rw [if_pos hlen]
      exact .fail .incomplete
  | cons b c =>
      obtain ⟨hc, hlt⟩ := drop_succ hd
      rw [if_neg (by omega), index_eq hd, add_eq (by omega)]
      exact ⟨pos + 1, rfl, Nat.le_succ pos, hlt, hc⟩

section Cursor
variable {buf : Bytes} (hbuf : buf.length < 2 ^ 63) {pos : ℕ} (hpos : pos ≤ buf.length)
include hbuf hpos

theorem readLine_tracks : Tracks buf pos (readLine buf pos) (Parser.readLine (buf.drop pos)) := by
  rw [readLine, findCrlf_eq hbuf hpos, Parser.readLine]
  cases hf : Parser.findCrlf (buf.drop pos) with
  | none =>
      rw [List.length_drop]
      change Tracks buf pos (if _ then _ else _) _
      dsimp only
      split_ifs
      · exact .fail lineTooLong
      · exact .fail .incomplete
  | some p =>
      obtain ⟨line, rest⟩ := p
      obtain ⟨hsplit, -⟩ := findCrlf_split hf
      obtain ⟨hslice, hrest, hle⟩ := slice_eq hpos hsplit
      obtain ⟨hlf, hlt⟩ := drop_succ hrest
      obtain ⟨hend, hlt'⟩ := drop_succ hlf
      change Tracks buf pos (do
        let next ← add (pos + line.length) 2
        let line ← slice buf pos (pos + line.length)
        .ok (line, next)) _
      rw [add_eq (by omega), hslice]
      exact ⟨pos + line.length + 2, rfl, by omega, hlt', hend⟩

theorem readLineInt_tracks :
    Tracks buf pos (readLineInt buf pos) (Parser.readLineInt (buf.drop pos)) := by
  refine (readLine_tracks hbuf hpos).bind fun line pos' _ hlen => ?_
  dsimp only
  cases readI64 line with
  | some n => exact .ok le_rfl hlen
  | none => exact .fail _

theorem readLineString_tracks :
    Tracks buf pos (readLineString buf pos) (Parser.readLineString (buf.drop pos)) := by
  refine (readLine_tracks hbuf hpos).bind fun line pos' _ hlen => ?_
  dsimp only
  cases fromUtf8 line with
  | some s => exact .ok le_rfl hlen
  | none => exact .fail _

end Cursor

/-! ## Frames -/

/-- The two bytes after a payload. -/
theorem bulkEnd_tracks {buf : Bytes} (hbuf : buf.length < 2 ^ 63) (pos : ℕ) (bytes : Bytes) :
    Tracks buf pos
      (do
        let (cr, pos) ← readU8 buf pos
        if cr ≠ 13 then fail (.protocol "missing CRLF after bulk")
        else
          let (lf, pos) ← readU8 buf pos
          if lf ≠ 10 then fail (.protocol "missing CRLF after bulk")
          else .ok (Frame.bulk bytes, pos))
      (do
        let (cr, c) ← Parser.readU8 (buf.drop pos)
        if cr ≠ 13 then .error (.protocol "missing CRLF after bulk")
        else
          let (lf, c) ← Parser.readU8 c
          if lf ≠ 10 then .error (.protocol "missing CRLF after bulk")
          else .ok (Frame.bulk bytes, c)) := by
  refine (readU8_tracks hbuf pos).bind fun cr p _ _ => ?_
  dsimp only
  split_ifs with hcr
  · exact .fail _
  · refine (readU8_tracks hbuf p).bind fun lf q _ hq => ?_
    dsimp only
    split_ifs with hlf
    · exact .fail _
    · exact .ok le_rfl hq

theorem parseBulk_tracks {buf : Bytes} (hbuf : buf.length < 2 ^ 63) {pos : ℕ}
    (hpos : pos ≤ buf.length) :
    Tracks buf pos (parseBulk buf pos) (Parser.parseBulk (buf.drop pos)) := by
  have hmax : maxBulkLen = 67108864 := rfl
  refine (readLineInt_tracks hbuf hpos).bind fun len p _ hp => ?_
  dsimp only
  split_ifs with hnull hneg hlong hlimit hshort
  · exact .ok le_rfl hp
  · exact .fail _
  · exact .fail _
  · rw [List.length_drop] at hshort
    rw [sub_eq hp, add_eq (by omega)]
    change Tracks buf p (if buf.length - p < len.toInt.toNat + 2 then _ else _) _
    rw [if_pos hshort]
    exact .fail .incomplete
  · rw [List.length_drop] at hshort
    have htake : ((buf.drop p).take len.toInt.toNat).length = len.toInt.toNat := by
      rw [List.length_take, List.length_drop]
      omega
    obtain ⟨hslice, hrest, hle⟩ :=
      slice_eq hp (List.take_append_drop len.toInt.toNat (buf.drop p)).symm
    rw [htake] at hslice hrest hle
    rw [sub_eq hp, add_eq (by omega)]
    change Tracks buf p (if buf.length - p < len.toInt.toNat + 2 then _ else _) _
    rw [if_neg hshort, add_eq (by omega)]
    change Tracks buf p (slice buf p (p + len.toInt.toNat) >>= _) _
    rw [hslice, ← hrest]
    exact (bulkEnd_tracks hbuf _ _).mono (Nat.le_add_right _ _)
  · exact .fail _

theorem parseItems_tracks {buf : Bytes} {frame : ℕ → Run (Frame × ℕ)}
    {frame' : Bytes → Except Error (Frame × Bytes)}
    (h : ∀ pos, pos ≤ buf.length → Tracks buf pos (frame pos) (frame' (buf.drop pos))) (count : ℕ)
    {pos : ℕ} (hpos : pos ≤ buf.length) :
    Tracks buf pos (parseItems frame count pos)
      (Parser.parseItems frame' count (buf.drop pos)) := by
  induction count generalizing pos with
  | zero => exact .ok le_rfl hpos
  | succ count ih =>
      refine (h pos hpos).bind fun item p _ hp => ?_
      exact (ih hp).bind fun items q _ hq => .ok le_rfl hq

theorem parseArray_tracks {buf : Bytes} (hbuf : buf.length < 2 ^ 63)
    {frame : ℕ → Run (Frame × ℕ)} {frame' : Bytes → Except Error (Frame × Bytes)}
    (h : ∀ pos, pos ≤ buf.length → Tracks buf pos (frame pos) (frame' (buf.drop pos)))
    {pos : ℕ} (hpos : pos ≤ buf.length) :
    Tracks buf pos (parseArray buf frame pos) (Parser.parseArray frame' (buf.drop pos)) := by
  refine (readLineInt_tracks hbuf hpos).bind fun count p _ hp => ?_
  dsimp only
  split_ifs with hnull hneg hlong
  · exact .ok le_rfl hp
  · exact .fail _
  · exact .fail _
  · exact (parseItems_tracks h _ hp).bind fun items q _ hq => .ok le_rfl hq

/-- The calls of `parse_frame` that are open at a time are as many as there are levels left,
and the one that is rejected. -/
theorem parseFrame_tracks {buf : Bytes} (hbuf : buf.length < 2 ^ 63) (levels : ℕ)
    {fuel depth pos : ℕ} (hdepth : depth + levels = maxNestingDepth + 1) (hfuel : levels < fuel)
    (hpos : pos ≤ buf.length) :
    Tracks buf pos (parseFrame buf fuel depth pos) (Parser.parseFrame levels (buf.drop pos)) := by
  have hmax : maxNestingDepth = 128 := rfl
  induction levels generalizing fuel depth pos with
  | zero =>
      cases fuel with
      | zero => cases hfuel
      | succ fuel =>
          rw [parseFrame, if_pos (by omega)]
          exact .fail _
  | succ levels ih =>
      cases fuel with
      | zero => cases hfuel
      | succ fuel =>
          rw [parseFrame, if_neg (by omega)]
          refine (readU8_tracks hbuf pos).bind fun tag p _ hp => ?_
          dsimp only
          split_ifs
          · exact (readLineString_tracks hbuf hp).bind fun s q _ hq => .ok le_rfl hq
          · exact (readLineString_tracks hbuf hp).bind fun s q _ hq => .ok le_rfl hq
          · exact (readLineInt_tracks hbuf hp).bind fun n q _ hq => .ok le_rfl hq
          · exact parseBulk_tracks hbuf hp
          · refine parseArray_tracks hbuf (fun q hq => ?_) hp
            rw [add_eq (by omega)]
            exact ih (by omega) (Nat.lt_of_succ_lt_succ hfuel) hq
          · exact .fail _

/-! ## Inline requests -/

theorem hexValue_eq (b : UInt8) : hexValue b = .ok (Parser.hexValue b) := by
  have hsub : ∀ {c : UInt8}, c ≤ b → subU8 b c = .ok (b - c) := fun h => if_pos h
  have hadd : ∀ {c d : UInt8}, c ≤ b → b ≤ d → d.toNat - c.toNat < 246 →
      addU8 (b - c) 10 = .ok (b - c + 10) := by
    intro c d hc hd hspan
    have hle := UInt8.le_iff_toNat_le.mp hd
    refine if_pos ?_
    rw [UInt8.toNat_sub_of_le _ _ hc]
    change b.toNat - c.toNat + 10 < 256
    omega
  unfold hexValue Parser.hexValue
  split_ifs with hdigit hlower hupper
  · rw [hsub hdigit.1]
    rfl
  · rw [hsub hlower.1]
    change (addU8 (b - 97) 10 >>= _) = _
    rw [hadd hlower.1 hlower.2 (by decide)]
    rfl
  · rw [hsub hupper.1]
    change (addU8 (b - 65) 10 >>= _) = _
    rw [hadd hupper.1 hupper.2 (by decide)]
    rfl
  · rfl

/-- The list parser behind a backslash, with the look-ahead of `\x` apart. -/
theorem readInlineQuoted_escape {quote : UInt8} (hq : quote ≠ 92) (escaped : UInt8)
    (rest out : Bytes) : Parser.readInlineQuoted quote (92 :: escaped :: rest) out =
      if escaped = 120 ∧ quote = 34 then
        match rest with
        | high :: low :: tail =>
            match Parser.hexValue high, Parser.hexValue low with
            | some h, some l => Parser.readInlineQuoted quote tail (out ++ [h <<< 4 ||| l])
            | _, _ => Parser.readInlineQuoted quote rest (out ++ [escaped])
        | _ => Parser.readInlineQuoted quote rest (out ++ [escaped])
      else Parser.readInlineQuoted quote rest (out ++ [unescape quote escaped]) := by
  have hunescape : escaped = 120 ∧ quote = 34 → unescape quote escaped = escaped := by
    rintro ⟨rfl, rfl⟩
    rfl
  rw [Parser.readInlineQuoted.eq_def]
  dsimp only
  rw [if_neg (Ne.symm hq), if_neg (by decide)]
  cases rest with
  | nil =>
      dsimp only
      split_ifs with hx
      · rw [hunescape hx]
      · rfl
  | cons high rest =>
      cases rest with
      | nil =>
          dsimp only
          split_ifs with hx
          · rw [hunescape hx]
          · rfl
      | cons low tail => rfl

section Line
variable {line : Bytes} (hline : line.length < 2 ^ 63)
include hline

/-- What follows `\x`: the look-ahead by two stays on the line. -/
theorem hexEscape_tracks {quote : UInt8} {cont : ℕ → Bytes → Run (Bytes × ℕ)} {idx : ℕ}
    (out : Bytes)
    (hcont : ∀ idx' out', idx ≤ idx' → idx' ≤ line.length →
      Tracks line idx' (cont idx' out') (Parser.readInlineQuoted quote (line.drop idx') out'))
    (hidx : idx ≤ line.length) :
    Tracks line idx
      (do
        let next ← add idx 1
        if next < line.length then
          let high ← index line idx
          let high ← hexValue high
          let next ← add idx 1
          let low ← index line next
          let low ← hexValue low
          match high, low with
          | some h, some l =>
              let idx ← add idx 2
              cont idx (out ++ [h <<< 4 ||| l])
          | _, _ => cont idx (out ++ [120])
        else cont idx (out ++ [120]))
      (match line.drop idx with
        | high :: low :: tail =>
            match Parser.hexValue high, Parser.hexValue low with
            | some h, some l => Parser.readInlineQuoted quote tail (out ++ [h <<< 4 ||| l])
            | _, _ => Parser.readInlineQuoted quote (line.drop idx) (out ++ [120])
        | _ => Parser.readInlineQuoted quote (line.drop idx) (out ++ [120])) := by
  have hlen := List.length_drop (i := idx) (l := line)
  have hplain := hcont idx (out ++ [120]) le_rfl hidx
  have hnext : add idx 1 = .ok (idx + 1) := add_eq (by omega)
  cases hd : line.drop idx with
  | nil =>
      rw [hd] at hplain hlen
      rw [List.length_nil] at hlen
      simp only [hnext, bind, Except.bind, if_neg (by omega : ¬ idx + 1 < line.length)]
      exact hplain
  | cons high rest =>
      rw [hd] at hplain hlen
      cases rest with
      | nil =>
          rw [List.length_singleton] at hlen
          simp only [hnext, bind, Except.bind, if_neg (by omega : ¬ idx + 1 < line.length)]
          exact hplain
      | cons low tail =>
          obtain ⟨hlow, -⟩ := drop_succ hd
          obtain ⟨htail, hlt⟩ := drop_succ hlow
          simp only [hnext, bind, Except.bind, if_pos hlt, index_eq hd, index_eq hlow, hexValue_eq]
          cases Parser.hexValue high with
          | none => exact hplain
          | some h =>
              cases Parser.hexValue low with
              | none => exact hplain
              | some l =>
                  dsimp only
                  rw [add_eq (by omega), ← htail]
                  exact (hcont _ _ (by omega) (by omega)).mono (by omega)

/-- Every turn of the loop over quoted text takes a byte. -/
theorem readInlineQuoted_tracks {quote : UInt8} (hq : quote ≠ 92) (fuel : ℕ) {idx : ℕ}
    (out : Bytes) (hfuel : line.length - idx < fuel) (hidx : idx ≤ line.length) :
    Tracks line idx (readInlineQuoted quote line fuel idx out)
      (Parser.readInlineQuoted quote (line.drop idx) out) := by
  induction fuel generalizing idx out with
  | zero => cases hfuel
  | succ fuel ih =>
      have hlen := List.length_drop (i := idx) (l := line)
      rw [readInlineQuoted]
      cases hd : line.drop idx with
      | nil =>
          rw [hd, List.length_nil] at hlen
          rw [if_pos (by omega)]
          exact .fail _
      | cons byte rest =>
          obtain ⟨hrest, hlt⟩ := drop_succ hd
          rw [if_neg (by omega), index_eq hd]
          change Tracks line idx (add idx 1 >>= _) _
          rw [add_eq (by omega)]
          change Tracks line idx (if byte = quote then _ else _) _
          by_cases hend : byte = quote
          · rw [if_pos hend, Parser.readInlineQuoted.eq_def]
            dsimp only
            rw [if_pos hend, ← hrest]
            exact .ok (Nat.le_succ idx) hlt
          rw [if_neg hend]
          by_cases hslash : byte = 92
          · rw [if_neg (not_not.mpr hslash)]
            subst hslash
            cases rest with
            | nil =>
                have hstop : idx + 1 = line.length := by
                  rw [hd] at hlen
                  simp only [List.length_cons, List.length_nil] at hlen
                  omega
                rw [if_pos hstop, Parser.readInlineQuoted.eq_def]
                dsimp only
                rw [if_neg hend, if_neg (by decide)]
                exact .fail _
            | cons escaped tail =>
                obtain ⟨htail, hlt'⟩ := drop_succ hrest
                rw [if_neg (by omega), index_eq hrest, readInlineQuoted_escape hq]
                change Tracks line idx (add (idx + 1) 1 >>= _) _
                rw [add_eq (by omega)]
                change Tracks line idx (if escaped = 120 ∧ quote = 34 then _ else _) _
                have hcont : ∀ idx' out', idx + 1 + 1 ≤ idx' → idx' ≤ line.length →
                    Tracks line idx' (readInlineQuoted quote line fuel idx' out')
                      (Parser.readInlineQuoted quote (line.drop idx') out') :=
                  fun idx' out' hle hle' => ih out' (by omega) hle'
                split_ifs with hx
                · rw [hx.1, ← htail]
                  exact (hexEscape_tracks hline out hcont hlt').mono (by omega)
                · rw [← htail]
                  exact (hcont _ _ le_rfl hlt').mono (by omega)
          · rw [if_pos hslash, Parser.readInlineQuoted.eq_def]
            dsimp only
            rw [if_neg hend, if_pos hslash, ← hrest]
            exact (ih _ (by omega) hlt).mono (Nat.le_succ idx)

/-- So does every turn of the loop over an argument. -/
theorem readInlineArg_tracks (fuel : ℕ) {turns idx : ℕ} (arg : Bytes)
    (hfuel : line.length - idx < fuel) (hturns : line.length - idx ≤ turns)
    (hidx : idx ≤ line.length) :
    Tracks line idx (readInlineArg line fuel idx arg)
      (Parser.readInlineArg turns (line.drop idx) arg) := by
  induction fuel generalizing turns idx arg with
  | zero => cases hfuel
  | succ fuel ih =>
      have hlen := List.length_drop (i := idx) (l := line)
      rw [readInlineArg]
      cases hd : line.drop idx with
      | nil =>
          rw [hd, List.length_nil] at hlen
          have hok : Tracks line idx (.ok (arg, idx)) (.ok (arg, [])) :=
            ⟨idx, rfl, le_rfl, hidx, hd⟩
          rw [if_pos (by omega)]
          cases turns <;> exact hok
      | cons b rest =>
          obtain ⟨hrest, hlt⟩ := drop_succ hd
          cases turns with
          | zero => omega
          | succ turns =>
              have hnext : add idx 1 = .ok (idx + 1) := add_eq (by omega)
              rw [if_neg (by omega), index_eq hd, Parser.readInlineArg.eq_def]
              change Tracks line idx (if isInlineSpace b = true then _ else _) _
              dsimp only
              split_ifs with hspace hquote hslash
              · rw [← hd]
                exact .ok le_rfl hidx
              · rw [hnext, ← hrest]
                have hq : b ≠ 92 := by
                  rintro rfl
                  revert hquote
                  decide
                refine Tracks.mono ?_ (Nat.le_succ idx)
                exact (readInlineQuoted_tracks hline hq _ arg (by omega) hlt).bind
                  fun arg' p hp hple => ih arg' (by omega) (by omega) hple
              · rw [hnext]
                cases rest with
                | nil =>
                    have hstop : idx + 1 = line.length := by
                      rw [hd] at hlen
                      simp only [List.length_cons, List.length_nil] at hlen
                      omega
                    change Tracks line idx (if idx + 1 = line.length then _ else _) _
                    rw [if_pos hstop]
                    exact .fail _
                | cons escaped tail =>
                    obtain ⟨htail, hlt'⟩ := drop_succ hrest
                    change Tracks line idx (if idx + 1 = line.length then _ else _) _
                    rw [if_neg (by omega), index_eq hrest]
                    change Tracks line idx (add (idx + 1) 1 >>= _) _
                    rw [add_eq (by omega)]
                    dsimp only
                    rw [← htail]
                    exact (ih _ (by omega) (by omega) hlt').mono (by omega)
              · rw [hnext, ← hrest]
                exact (ih _ (by omega) (by omega) hlt).mono (Nat.le_succ idx)

/-- The loop over separators ends where `dropWhile` does. -/
theorem skipSpaces_eq (fuel : ℕ) {idx : ℕ} (hfuel : line.length - idx < fuel)
    (hidx : idx ≤ line.length) :
    ∃ idx', skipSpaces line fuel idx = .ok idx' ∧ idx ≤ idx' ∧ idx' ≤ line.length ∧
      line.drop idx' = (line.drop idx).dropWhile isInlineSpace := by
  induction fuel generalizing idx with
  | zero => cases hfuel
  | succ fuel ih =>
      have hlen := List.length_drop (i := idx) (l := line)
      rw [skipSpaces]
      cases hd : line.drop idx with
      | nil =>
          rw [hd, List.length_nil] at hlen
          rw [if_pos (by omega)]
          exact ⟨idx, rfl, le_rfl, hidx, hd⟩
      | cons b rest =>
          obtain ⟨hrest, hlt⟩ := drop_succ hd
          rw [if_neg (by omega), index_eq hd]
          change ∃ idx', (if isInlineSpace b = true then _ else _) = _ ∧ _
          by_cases hspace : isInlineSpace b = true
          · obtain ⟨idx', hrun, hle, hle', hdrop⟩ :=
              ih (by omega : line.length - (idx + 1) < fuel) hlt
            rw [if_pos hspace, add_eq (by omega), List.dropWhile_cons_of_pos hspace, ← hrest]
            exact ⟨idx', hrun, by omega, hle', hdrop⟩
          · rw [if_neg hspace, List.dropWhile_cons_of_neg hspace]
            exact ⟨idx, rfl, le_rfl, hidx, hd⟩

/-- The splitter on positions, with the arguments so far. -/
theorem splitInlineArgs_eq (fuel : ℕ) {idx : ℕ} (args : List Bytes)
    (hfuel : line.length - idx < fuel) (hidx : idx ≤ line.length) :
    splitInlineArgs line fuel idx args =
      ((splitInlineArgsLoop fuel (line.drop idx)).map (args ++ ·)).mapError .error := by
  induction fuel generalizing idx args with
  | zero => cases hfuel
  | succ fuel ih =>
      have hdone : splitInlineArgsLoop (fuel + 1) [] = .ok [] := rfl
      rw [splitInlineArgs]
      split_ifs with hend
      · rw [List.drop_eq_nil_of_le hend, hdone]
        exact congrArg Except.ok (List.append_nil args).symm
      · obtain ⟨idx', hskip, hle, hle', hdrop⟩ :=
          skipSpaces_eq hline (line.length + 1) (by omega) hidx
        rw [hskip]
        change (if idx' = line.length then _ else _) = _
        rw [splitInlineArgsLoop, ← hdrop]
        cases hd : line.drop idx' with
        | nil =>
            have hlen := congrArg List.length hd
            rw [List.length_drop, List.length_nil] at hlen
            rw [if_pos (by omega)]
            exact congrArg Except.ok (List.append_nil args).symm
        | cons b rest =>
            obtain ⟨-, hlt⟩ := drop_succ hd
            have hlen := congrArg List.length hd
            rw [List.length_drop, List.length_cons] at hlen
            have hb : isInlineSpace b = false := by
              have hhead := List.head_dropWhile_not isInlineSpace (l := line.drop idx)
                (by rw [← hdrop, hd]; exact List.cons_ne_nil b rest)
              simpa [← hdrop, hd] using hhead
            have htracks : Tracks line idx' (readInlineArg line (line.length + 1) idx' [])
                (Parser.readInlineArg (rest.length + 1) (line.drop idx') []) :=
              readInlineArg_tracks hline (line.length + 1) [] (by omega) (by omega) hle'
            rw [hd] at htracks
            rw [if_neg (by omega)]
            dsimp only
            rw [List.length_cons]
            cases hr : Parser.readInlineArg (rest.length + 1) (b :: rest) [] with
            | error e =>
                rw [hr] at htracks
                have hrun : readInlineArg line (line.length + 1) idx' [] = fail e := htracks
                rw [hrun]
                rfl
            | ok p =>
                obtain ⟨arg, r⟩ := p
                rw [hr] at htracks
                obtain ⟨pos', hrun, -, hlen', rfl⟩ := htracks
                have hprogress := readInlineArg_progress hb hr
                rw [List.length_drop] at hprogress
                rw [hrun]
                change splitInlineArgs line fuel pos' (args ++ [arg]) = _
                rw [ih (args ++ [arg]) (by omega) hlen']
                change _ = (((splitInlineArgsLoop fuel (line.drop pos')) >>= fun more =>
                  Except.ok (arg :: more)).map (args ++ ·)).mapError Fault.error
                cases splitInlineArgsLoop fuel (line.drop pos') with
                | error e => rfl
                | ok more =>
                    have happend : args ++ [arg] ++ more = args ++ arg :: more := by
                      rw [List.append_assoc, List.singleton_append]
                    exact congrArg Except.ok happend

theorem inlineFrame_eq : inlineFrame line = (Parser.inlineFrame line).mapError .error := by
  rw [inlineFrame, splitInlineArgs_eq hline _ [] (by omega) (Nat.zero_le _), List.drop_zero]
  change _ = (((splitInlineArgsLoop (line.length + 1) line) >>= fun args =>
    if args.isEmpty then Except.ok none
    else Except.ok (some (Frame.array (args.map .bulk)))).mapError Fault.error)
  cases splitInlineArgsLoop (line.length + 1) line with
  | error e => rfl
  | ok args =>
      change (if args.isEmpty then _ else _) = Except.mapError _ (if args.isEmpty then _ else _)
      split_ifs <;> rfl

end Line

theorem stripCr_eq (line : Bytes) : stripCr line = .ok (Parser.stripCr line) := by
  unfold stripCr Parser.stripCr
  split_ifs with hcr
  · obtain ⟨init, rfl⟩ := List.getLast?_eq_some_iff.mp hcr
    rw [sub_eq (by simp), List.dropLast_concat]
    change slice _ 0 ((init ++ [13]).length - 1) = _
    have hall : (init ++ [13]).drop 0 = init ++ [13] := List.drop_zero
    obtain ⟨hslice, -⟩ := slice_eq (Nat.zero_le _) hall
    rw [Nat.zero_add] at hslice
    rw [List.length_append, List.length_singleton, Nat.add_sub_cancel]
    exact hslice
  · rfl

/-- `position` finds the end of the line that `findLf` cuts off. -/
theorem findIdx_lf (buf : Bytes) :
    buf.findIdx? (· = 10) = (Parser.findLf buf).map fun p => p.1.length := by
  induction buf with
  | nil => rfl
  | cons b buf ih =>
      rw [List.findIdx?_cons, Parser.findLf, ih]
      by_cases hb : b = 10
      · simp [hb]
      · simp [hb, Function.comp_def]

theorem findLf_eq {buf : Bytes} (hbuf : buf.length < 2 ^ 63) :
    findLf buf 0 = .ok ((Parser.findLf buf).map fun p => p.1.length) := by
  rw [findLf, if_neg (Nat.not_lt_zero _), List.drop_zero, findIdx_lf]
  cases hl : Parser.findLf buf with
  | none => rfl
  | some p =>
      have hlen := congrArg List.length (findLf_split hl).1
      rw [List.length_append, List.length_cons] at hlen
      change (add 0 p.1.length >>= _) = _
      rw [add_eq (by omega), Nat.zero_add]
      rfl

theorem parseInline_eq {buf : Bytes} (hbuf : buf.length < 2 ^ 63) :
    parseInline buf = (Parser.parseInline buf).mapError .error := by
  rw [parseInline, findLf_eq hbuf, Parser.parseInline]
  cases hl : Parser.findLf buf with
  | none =>
      change (if maxLineLen < buf.length then _ else _) = _
      dsimp only
      split_ifs <;> rfl
  | some p =>
      obtain ⟨line, rest⟩ := p
      obtain ⟨hsplit, -⟩ := findLf_split hl
      have hlen := congrArg List.length hsplit
      rw [List.length_append, List.length_cons] at hlen
      obtain ⟨hslice, hrest, -⟩ := slice_eq (Nat.zero_le _) (buf.drop_zero.trans hsplit)
      rw [Nat.zero_add] at hslice hrest
      have hadvance : advance buf (line.length + 1) = .ok rest := by
        rw [advance_eq (by omega), (drop_succ hrest).1]
      have hframe : inlineFrame (Parser.stripCr line) = _ :=
        inlineFrame_eq (lt_of_le_of_lt (length_stripCr line) (by omega))
      change (if maxLineLen < line.length then _ else _) = _
      dsimp only
      split_ifs
      · rfl
      · rw [hslice]
        change (stripCr line >>= _) = _
        rw [stripCr_eq]
        change (inlineFrame (Parser.stripCr line) >>= _) = _
        rw [hframe]
        cases Parser.inlineFrame (Parser.stripCr line) with
        | error e => rfl
        | ok frame =>
            change (add line.length 1 >>= _) = _
            rw [add_eq (by omega)]
            change (advance buf (line.length + 1) >>= _) = _
            rw [hadvance]
            rfl

/-! ## The loop -/

/-- An inline request is taken off with its LF, or left as it is. -/
theorem parseInline_rest {buf rest : Bytes} {frame : Option Frame}
    (h : Parser.parseInline buf = .ok (frame, rest)) : rest = buf ∨ rest.length < buf.length := by
  unfold Parser.parseInline at h
  cases hl : Parser.findLf buf with
  | none =>
      rw [hl] at h
      dsimp only at h
      split_ifs at h
      exact Or.inl (Prod.mk.inj (Except.ok.inj h)).2.symm
  | some p =>
      obtain ⟨line, r⟩ := p
      have hlen := congrArg List.length (findLf_split hl).1
      rw [List.length_append, List.length_cons] at hlen
      rw [hl] at h
      dsimp only at h
      split_ifs at h
      obtain ⟨f, -, h⟩ := bind_eq_ok.mp h
      obtain rfl : r = rest := (Prod.mk.inj (Except.ok.inj h)).2
      exact Or.inr (by omega)

/-- The outer call, with the ones that may be open within it. -/
theorem parseFrame_outer {buf : Bytes} (hbuf : buf.length < 2 ^ 63) :
    Tracks buf 0 (parseFrame buf (maxNestingDepth + 2) 0 0)
      (Parser.parseFrame (maxNestingDepth + 1) buf) :=
  parseFrame_tracks hbuf _ (Nat.zero_add _) (Nat.lt_succ_self _) (Nat.zero_le _)

/-- A turn of the loop goes around on fewer bytes, or it is the last one. -/
theorem parseLoop_eq (fuel : ℕ) {buf : Bytes} (hbuf : buf.length < 2 ^ 63)
    (hfuel : buf.length < fuel) :
    parseLoop fuel buf = (Parser.parseLoop fuel buf).mapError .error := by
  induction fuel generalizing buf with
  | zero => cases hfuel
  | succ fuel ih =>
      cases buf with
      | nil => rfl
      | cons b c =>
          rw [parseLoop, Parser.parseLoop, List.isEmpty_cons, if_neg Bool.false_ne_true,
            index_eq (List.drop_zero (l := b :: c))]
          change (if ¬ isRespType b = true then _ else _) = _
          by_cases hresp : isRespType b = true
          · rw [if_neg (not_not.mpr hresp), if_neg (not_not.mpr hresp)]
            have htracks := parseFrame_outer hbuf
            cases hp : Parser.parseFrame (maxNestingDepth + 1) (b :: c) with
            | error e =>
                rw [hp] at htracks
                have hrun : parseFrame (b :: c) (maxNestingDepth + 2) 0 0 = fail e := htracks
                rw [hrun]
                cases e <;> rfl
            | ok p =>
                obtain ⟨frame, rest⟩ := p
                rw [hp] at htracks
                obtain ⟨n, hrun, -, hlen, rfl⟩ := htracks
                rw [hrun]
                dsimp only
                rw [List.length_drop, Nat.sub_sub_self hlen, advance_eq hlen]
                split_ifs <;> rfl
          · rw [if_pos hresp, if_pos hresp, parseInline_eq hbuf]
            cases hp : Parser.parseInline (b :: c) with
            | error e => rfl
            | ok p =>
                obtain ⟨frame, rest⟩ := p
                cases frame with
                | some f => rfl
                | none =>
                    have hrest := parseInline_rest hp
                    change (if rest.length = (b :: c).length then _ else _) = _
                    dsimp only
                    split_ifs with hsame
                    · rfl
                    · have hless : rest.length < (b :: c).length :=
                        hrest.resolve_left fun heq => hsame (heq ▸ rfl)
                      exact ih (by omega) (by omega)

theorem parse_eq {buf : Bytes} (hbuf : buf.length < 2 ^ 63) :
    parse buf = (Parser.parse buf).mapError .error :=
  parseLoop_eq _ hbuf (Nat.lt_succ_self _)

/-- A buffer: no allocation of the source's language is larger than `isize::MAX` bytes. -/
structure Buffer where
  bytes : Bytes
  fits : bytes.length < 2 ^ 63

/-- The run returns: none of its checks fails, and it ends. -/
def Returns {A : Type} (r : Run A) : Prop := r ≠ .error .panic ∧ r ≠ .error .diverges

theorem returns_mapError {A : Type} (s : Except Error A) : Returns (s.mapError .error) := by
  cases s with
  | error e => exact ⟨by rintro ⟨⟩, by rintro ⟨⟩⟩
  | ok a => exact ⟨by rintro ⟨⟩, by rintro ⟨⟩⟩

theorem Tracks.returns {A : Type} {buf : Bytes} {pos : ℕ} {r : Run (A × ℕ)}
    {s : Except Error (A × Bytes)} (h : Tracks buf pos r s) : Returns r := by
  cases s with
  | error e =>
      obtain rfl : r = .error (.error e) := h
      exact returns_mapError (.error e)
  | ok p =>
      obtain ⟨pos', rfl, -⟩ := h
      exact returns_mapError (.ok (p.1, pos'))

/-- The parser returns on every buffer, with what the parser on bytes returns. A round over a
blank line takes bytes of the buffer, and the first call of `parse_frame` has at most 129 within
it. -/
theorem parse_in_bounds (buf : Buffer) :
    Returns (parse buf.bytes) ∧ parse buf.bytes = (Parser.parse buf.bytes).mapError .error ∧
      (∀ rest, parseInline buf.bytes = .ok (none, rest) →
        rest = buf.bytes ∨ rest.length < buf.bytes.length) ∧
      Returns (parseFrame buf.bytes (1 + 129) 0 0) := by
  refine ⟨?_, parse_eq buf.fits, fun rest hrest => ?_, (parseFrame_outer buf.fits).returns⟩
  · rw [parse_eq buf.fits]
    exact returns_mapError _
  · rw [parseInline_eq buf.fits] at hrest
    cases hp : Parser.parseInline buf.bytes with
    | error e =>
        rw [hp] at hrest
        cases hrest
    | ok p =>
        rw [hp] at hrest
        exact parseInline_rest (hp.trans (congrArg Except.ok (Except.ok.inj hrest)))

/-- A blank line in front of a bulk string without its header's end. -/
theorem parse_in_bounds_blank :
    parse [32, 10, 36, 49] = .ok (none, [36, 49]) ∧
      ([36, 49] : Bytes).length < ([32, 10, 36, 49] : Bytes).length := by
  obtain ⟨-, hparse, hround, -⟩ := parse_in_bounds ⟨[32, 10, 36, 49], by decide⟩
  refine ⟨hparse.trans rfl, (hround [36, 49] rfl).resolve_left (by decide)⟩

end MiniRedis.IndexedParser
