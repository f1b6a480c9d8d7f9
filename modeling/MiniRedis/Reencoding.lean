import MiniRedis.ParserBounds
import Mathlib.Data.List.TakeWhile

/-!
# What is accepted can be sent again

The parser takes more spellings than the encoder writes: signs and leading zeros, and the
inline requests. What it returns is a frame that the encoder writes within the limits of the
parser, and that is read back from there.
-/
namespace MiniRedis.Parser
open Wire PrefixCode ParserRoundTrip ParserBounds

/-! ## Blank lines -/

/-- A byte of a blank line. -/
def IsBlank (b : UInt8) : Prop := b = 32 ∨ b = 9 ∨ b = 13 ∨ b = 10

theorem isBlank_of_inlineSpace {b : UInt8} (h : isInlineSpace b = true) : IsBlank b := by
  rw [isInlineSpace, Bool.or_eq_true, decide_eq_true_iff, decide_eq_true_iff] at h
  rcases h with h | h
  · exact Or.inl h
  · exact Or.inr (Or.inl h)

/-- A line without arguments consists of separators. -/
theorem blank_of_splitInlineArgs {line : Bytes} (h : splitInlineArgs line = .ok []) :
    ∀ b ∈ line, isInlineSpace b = true := by
  rw [splitInlineArgs, splitInlineArgsLoop] at h
  cases hl : line.dropWhile isInlineSpace with
  | nil => exact List.dropWhile_eq_nil_iff.mp hl
  | cons b rest =>
      rw [hl] at h
      obtain ⟨p, -, h⟩ := bind_eq_ok.mp h
      obtain ⟨args, -, h⟩ := bind_eq_ok.mp h
      cases h

theorem mem_stripCr {line : Bytes} {b : UInt8} (h : b ∈ line) : b = 13 ∨ b ∈ stripCr line := by
  unfold stripCr
  split_ifs with hcr
  · obtain ⟨init, rfl⟩ := List.getLast?_eq_some_iff.mp hcr
    simpa [or_comm] using h
  · exact Or.inr h

theorem blank_of_inlineFrame {line : Bytes} (h : inlineFrame (stripCr line) = .ok none) :
    ∀ b ∈ line ++ [10], IsBlank b := by
  obtain ⟨args, ha, hf⟩ := bind_eq_ok.mp h
  split_ifs at hf with hempty
  · rw [List.isEmpty_iff.mp hempty] at ha
    have hblank := blank_of_splitInlineArgs ha
    intro b hb
    rcases List.mem_append.mp hb with hb | hb
    · rcases mem_stripCr hb with rfl | hb
      · exact Or.inr (Or.inr (Or.inl rfl))
      · exact isBlank_of_inlineSpace (hblank b hb)
    · exact Or.inr (Or.inr (Or.inr (List.mem_singleton.mp hb)))
  · cases hf

/-! ## The last turn -/

theorem parseInline_of_turn {buf rest : Bytes} {frame : Option Frame}
    (h : inlineTurn buf = .ok (frame, rest)) : parseInline buf = .ok (frame, rest) := by
  obtain ⟨line, rfl, hn, hlen, hf⟩ := inlineTurn_eq_ok h
  rw [parseInline, findLf_append hn]
  dsimp only
  rw [if_neg (not_lt.mpr hlen), hf]
  rfl

/-- A turn that yields no frame is over a blank line. -/
theorem turn_blank {buf rest : Bytes} (h : turn buf = .ok (none, rest)) :
    ∃ line, buf = line ++ rest ∧ ∀ b ∈ line, IsBlank b := by
  cases buf with
  | nil => cases h
  | cons b buf =>
      rw [turn] at h
      split_ifs at h
      · obtain ⟨frame, hf, -⟩ := frameTurn_eq_ok.mp h
        cases hf
      · obtain ⟨line, hbuf, -, -, hf⟩ := inlineTurn_eq_ok h
        exact ⟨line ++ [10], by rw [hbuf, List.append_assoc]; rfl, blank_of_inlineFrame hf⟩

theorem blanks_split {buf last : Bytes} (h : Blanks buf last) :
    ∃ blank, buf = blank ++ last ∧ ∀ b ∈ blank, IsBlank b := by
  obtain ⟨n, h⟩ := h
  induction n generalizing buf with
  | zero =>
      cases h
      exact ⟨[], rfl, List.forall_mem_nil _⟩
  | succ n ih =>
      cases h with
      | cons ht h =>
          obtain ⟨line, rfl, hline⟩ := turn_blank ht
          obtain ⟨blank, rfl, hblank⟩ := ih h
          exact ⟨line ++ blank, (List.append_assoc ..).symm,
            List.forall_mem_append.mpr ⟨hline, hblank⟩⟩

/-- The loop of `parse` skips blank lines and ends with a turn over a frame. -/
theorem parse_last_turn {buf rest : Bytes} {f : Frame} (h : parse buf = .ok (some f, rest)) :
    ∃ blank last, buf = blank ++ last ∧ (∀ b ∈ blank, IsBlank b) ∧
      turn last = .ok (some f, rest) := by
  have hp := parse_parsed buf
  rw [h] at hp
  cases hp with
  | frame hblanks hturn =>
      obtain ⟨blank, hbuf, hblank⟩ := blanks_split hblanks
      exact ⟨blank, _, hbuf, hblank, hturn⟩

/-- A frame that the parser returns has an encoding within its limits, no longer than the
bytes of a frame that it was read from, and the parser reads it back from there. -/
theorem parse_reencoded {buf rest : Bytes} {f : Frame} (h : parse buf = .ok (some f, rest)) :
    ∃ n, encodedLen f = some n ∧ n ≤ maxBufferedFrameBytes ∧
      parse (encode f []) = .ok (some f, []) ∧
      ∃ blank b last, buf = blank ++ b :: last ∧ (∀ x ∈ blank, IsBlank x) ∧
        (isRespType b = true ∧ parseFrame (maxNestingDepth + 1) (b :: last) = .ok (f, rest) ∧
            n + rest.length ≤ (b :: last).length ∨
          isRespType b = false ∧ parseInline (b :: last) = .ok (some f, rest)) := by
  have hmax : maxBufferedFrameBytes < 2 ^ 64 := by decide
  obtain ⟨hP, hlen⟩ := parse_accepted h
  have hback := parse_wire hP hlen []
  rw [List.append_nil] at hback
  refine ⟨(wire f).length, encodedLen_eq_some.mpr ⟨rfl, by omega⟩, hlen, ?_, ?_⟩
  · rw [encode_eq_append, List.nil_append]
    exact hback
  · obtain ⟨blank, last, hbuf, hblank, hturn⟩ := parse_last_turn h
    cases last with
    | nil => cases hturn
    | cons b last =>
        refine ⟨blank, b, last, hbuf, hblank, ?_⟩
        rw [turn] at hturn
        split_ifs at hturn with hb
        · obtain ⟨frame, hf, hframe, -⟩ := frameTurn_eq_ok.mp hturn
          obtain rfl := Option.some.inj hf
          exact Or.inl ⟨hb, hframe, (parseFrame_cost _ _ _ _ hframe).2⟩
        · exact Or.inr ⟨Bool.eq_false_iff.mpr hb, parseInline_of_turn hturn⟩

/-- An inline request with a word and an empty quoted argument, behind an empty line. -/
theorem parse_reencoded_inline :
    ∃ n, encodedLen (.array [.bulk [112], .bulk []]) = some n ∧ n ≤ maxBufferedFrameBytes ∧
      parse (encode (.array [.bulk [112], .bulk []]) []) =
        .ok (some (.array [.bulk [112], .bulk []]), []) := by
  have h : parse [10, 112, 32, 34, 34, 10] = .ok (some (.array [.bulk [112], .bulk []]), []) := rfl
  obtain ⟨n, hlen, hle, hback, -⟩ := parse_reencoded h
  exact ⟨n, hlen, hle, hback⟩

end MiniRedis.Parser
