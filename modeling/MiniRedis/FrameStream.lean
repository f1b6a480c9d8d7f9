import MiniRedis.ParserRoundTrip

/-!
# Streams of encoded frames

A client's requests and the log are frames whose encodings follow one another. At
each position of such a stream some frames have ended, and the parser waits for the
rest of the next one.
-/
namespace MiniRedis.ParserRoundTrip
open Wire MiniRedis.Parser PrefixCode

theorem length_encode (frame : Frame) : (encode frame []).length = (wire frame).length := by
  rw [encode_eq_append, List.nil_append]

/-- The encodings of frames, one after the other. -/
def encodeAll (frames : List Frame) : Bytes := frames.flatMap fun frame => encode frame []

theorem encodeAll_eq (frames : List Frame) : encodeAll frames = frames.flatMap wire := by
  unfold encodeAll
  congr 1
  funext frame
  rw [encode_eq_append, List.nil_append]

theorem encodeAll_append (as bs : List Frame) :
    encodeAll (as ++ bs) = encodeAll as ++ encodeAll bs := List.flatMap_append

/-- The parser reads the encoded frame back, and waits for more on every part of it. -/
structure Readable (frame : Frame) : Prop where
  parseable : Parseable (maxNestingDepth + 1) frame
  shortLines : ShortLines (maxNestingDepth + 1) frame
  length_le : (wire frame).length ≤ maxBufferedFrameBytes

theorem readable_command {args : List Bytes} (hn : args.length ≤ maxArrayLen)
    (hlen : (wire (commandFrame args)).length ≤ maxBufferedFrameBytes) :
    Readable (commandFrame args) :=
  ⟨parseable_command hn hlen, shortLines_command args, hlen⟩

theorem wire_length_pos (frame : Frame) : 0 < (wire frame).length := by
  obtain ⟨b, w, hw, -⟩ := wire_cons frame
  simp [hw]

theorem length_le_flatMap_wire (done : List Frame) : done.length ≤ (done.flatMap wire).length := by
  induction done with
  | nil => exact le_rfl
  | cons frame done ih =>
      have hpos := wire_length_pos frame
      rw [List.flatMap_cons, List.length_append, List.length_cons]
      omega

/-- Wherever a stream of readable frames is cut, the parser waits after some of them. -/
theorem cut_frames {frames : List Frame} {p q : Bytes} (h : ∀ frame ∈ frames, Readable frame)
    (hpq : p ++ q = frames.flatMap wire) :
    ∃ done rest tail, frames = done ++ rest ∧ p = done.flatMap wire ++ tail ∧
      tail ++ q = rest.flatMap wire ∧ parse tail = .ok (none, tail) ∧
      tail.length ≤ maxBufferedFrameBytes ∧
      ∀ frame rest', rest = frame :: rest' → tail.length < (wire frame).length := by
  obtain ⟨done, rest, tail, hf, hp, ht, hcut⟩ := cut_words wire hpq
  refine ⟨done, rest, tail, hf, hp, ht, ?_⟩
  cases rest with
  | nil =>
      obtain ⟨rfl, -⟩ := List.append_eq_nil_iff.mp ht
      exact ⟨rfl, Nat.zero_le _, fun _ _ h => by cases h⟩
  | cons frame rest =>
      obtain ⟨r, hr, hw⟩ := hcut frame rest rfl
      have hread := h frame (hf ▸ List.mem_append_right _ List.mem_cons_self)
      have hlen := congrArg List.length hw
      have hpos := List.length_pos_iff.mpr hr
      rw [List.length_append] at hlen
      refine ⟨parse_cut hread.parseable hread.shortLines hw hr, ?_, ?_⟩
      · exact Nat.le_trans (by omega) hread.length_le
      · intro frame' rest' heq
        obtain ⟨rfl, rfl⟩ := List.cons.inj heq
        omega

/-- The frames that end at or before a position of the stream. -/
def endingBy : ℕ → List Frame → List Frame
  | _, [] => []
  | p, frame :: frames =>
      if (encode frame []).length ≤ p then
        frame :: endingBy (p - (encode frame []).length) frames
      else []

theorem endingBy_append (done rest : List Frame) (p : ℕ) :
    endingBy ((encodeAll done).length + p) (done ++ rest) = done ++ endingBy p rest := by
  induction done with
  | nil =>
      rw [show encodeAll [] = [] from rfl, List.length_nil, Nat.zero_add]
      rfl
  | cons frame done ih =>
      have hcons : encodeAll (frame :: done) = encode frame [] ++ encodeAll done := rfl
      rw [hcons, List.length_append, Nat.add_assoc, List.cons_append, endingBy,
        if_pos (Nat.le_add_right _ _), Nat.add_sub_cancel_left, ih, List.cons_append]

theorem endingBy_short {frames : List Frame} {p : ℕ}
    (h : ∀ frame rest, frames = frame :: rest → p < (wire frame).length) :
    endingBy p frames = [] := by
  cases frames with
  | nil => rfl
  | cons frame rest =>
      have hlt := h frame rest rfl
      rw [← length_encode] at hlt
      exact if_neg (Nat.not_le.mpr hlt)

theorem endingBy_min (p : ℕ) (frames : List Frame) :
    endingBy (min p (encodeAll frames).length) frames = endingBy p frames := by
  induction frames generalizing p with
  | nil => rfl
  | cons frame frames ih =>
      have hcons : encodeAll (frame :: frames) = encode frame [] ++ encodeAll frames := rfl
      rw [hcons, List.length_append, endingBy, endingBy, ← ih (p - _)]
      have hmin : min p ((encode frame []).length + (encodeAll frames).length) -
          (encode frame []).length =
            min (p - (encode frame []).length) (encodeAll frames).length := by
        omega
      rw [hmin]
      split_ifs <;> first | rfl | omega

end MiniRedis.ParserRoundTrip
