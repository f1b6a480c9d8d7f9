import MiniRedis.ParserTurns
import Mathlib.Data.List.ReduceOption

/-!
# Bytes that arrive in chunks

Whoever reads from a file or a socket appends each chunk to the buffer and calls
`parse` until no frame is left. Where the chunks are cut does not show, unless the
stream has a long line that is only accepted when its end is already there.
-/
namespace MiniRedis.Parser
open Wire PrefixCode ParserRoundTrip

/-- How a stream ends: with bytes that wait for more, or with a protocol error. -/
inductive Outcome where
  | waiting (rest : Bytes)
  | rejected

/-- Calls of `parse` until it returns no frame. Every call before that takes a frame off. -/
def parseAll : ℕ → Bytes → List Frame × Outcome
  | 0, buf => ([], .waiting buf)
  | fuel + 1, buf =>
      match parse buf with
      | .ok (some frame, rest) =>
          let r := parseAll fuel rest
          (frame :: r.1, r.2)
      | .ok (none, rest) => ([], .waiting rest)
      | .error _ => ([], .rejected)

/-- Each chunk is appended to the buffer, until the stream is rejected. -/
def feed : List Bytes → Bytes → List Frame × Outcome
  | [], buf => ([], .waiting buf)
  | chunk :: chunks, buf =>
      match parseAll (buf.length + chunk.length + 1) (buf ++ chunk) with
      | (frames, .waiting rest) =>
          let r := feed chunks rest
          (frames ++ r.1, r.2)
      | (frames, .rejected) => (frames, .rejected)

/-- The turns over a stream up to the first one that fails. -/
inductive Stops (b : Bytes) : List Frame × Outcome → Prop
  | waiting {items : List (Option Frame)} {d : Bytes} :
      Yields turn b items d → turn d = .error none → Stops b (items.reduceOption, .waiting d)
  | rejected {items : List (Option Frame)} {d : Bytes} :
      Yields turn b items d → Rejects none turn d → Stops b (items.reduceOption, .rejected)

theorem Stops.unique {b : Bytes} {r r' : List Frame × Outcome} (h : Stops b r)
    (h' : Stops b r') : r = r' := by
  cases h with
  | waiting hy hd =>
      cases h' with
      | waiting hy' hd' =>
          obtain ⟨rfl, rfl⟩ := hy.unique hy' hd hd'
          rfl
      | rejected hy' hd' =>
          obtain ⟨x, hx, hne⟩ := hd'
          obtain ⟨rfl, rfl⟩ := hy.unique hy' hd hx
          exact absurd (Except.error.inj (hx.symm.trans hd)) hne
  | rejected hy hd =>
      obtain ⟨x, hx, hne⟩ := hd
      cases h' with
      | waiting hy' hd' =>
          obtain ⟨rfl, rfl⟩ := hy.unique hy' hx hd'
          exact absurd (Except.error.inj (hx.symm.trans hd')) hne
      | rejected hy' hd' =>
          obtain ⟨x', hx', -⟩ := hd'
          obtain ⟨rfl, rfl⟩ := hy.unique hy' hx hx'
          rfl

theorem Stops.prepend {b c : Bytes} {items : List (Option Frame)} {r : List Frame × Outcome}
    (hy : Yields turn b items c) (h : Stops c r) : Stops b (items.reduceOption ++ r.1, r.2) := by
  cases h with
  | waiting hc hd =>
      rw [← List.reduceOption_append]
      exact .waiting (hy.trans hc) hd
  | rejected hc hd =>
      rw [← List.reduceOption_append]
      exact .rejected (hy.trans hc) hd

theorem reduceOption_blanks (n : ℕ) :
    (List.replicate n (none : Option Frame)).reduceOption = [] := by
  induction n with
  | zero => rfl
  | succ n ih => exact ih

theorem Blanks.stops {b c : Bytes} {r : List Frame × Outcome} (hb : Blanks b c)
    (h : Stops c r) : Stops b r := by
  obtain ⟨n, hn⟩ := hb
  have hs := Stops.prepend hn h
  rwa [reduceOption_blanks, List.nil_append] at hs

theorem parseAll_stops {fuel : ℕ} {b : Bytes} (h : b.length < fuel) :
    Stops b (parseAll fuel b) := by
  induction fuel generalizing b with
  | zero => omega
  | succ fuel ih =>
      have hp := parse_parsed b
      rw [parseAll]
      cases hr : parse b with
      | error e =>
          rw [hr] at hp
          cases hp with
          | error hb ht => exact hb.stops (.rejected (.nil _) ⟨_, ht, by simp⟩)
      | ok q =>
          obtain ⟨o, rest⟩ := q
          rw [hr] at hp
          cases hp with
          | waiting hb ht => exact hb.stops (.waiting (.nil rest) ht)
          | @frame c _ frame hb ht =>
              obtain ⟨w, hw, -⟩ := blank_of_blanks hb
              have hlen := congrArg List.length hw
              have hlt := turn_shrinks ht
              rw [List.length_append] at hlen
              exact hb.stops (.prepend (.cons ht (.nil rest)) (ih (by omega)))

/-- Wherever the parser starts on a frame of the stream, it rejects the frame or gets
past no line that would have been rejected before its LF had arrived. -/
def LongLinesRejected (b : Bytes) : Prop :=
  Quiet none turn (HasLongLine (maxNestingDepth + 1)) b

/-- One chunk after the other, the stream stops where it stops as a whole. -/
theorem feed_stops {chunks : List Bytes} {buf : Bytes} (hbuf : turn buf = .error none)
    (h : LongLinesRejected (buf ++ chunks.flatten)) :
    Stops (buf ++ chunks.flatten) (feed chunks buf) := by
  induction chunks generalizing buf with
  | nil =>
      rw [List.flatten_nil, List.append_nil]
      exact .waiting (.nil buf) hbuf
  | cons chunk chunks ih =>
      rw [List.flatten_cons, ← List.append_assoc] at h ⊢
      have hs : Stops (buf ++ chunk) (parseAll (buf.length + chunk.length + 1) (buf ++ chunk)) :=
        parseAll_stops (by rw [List.length_append]; exact Nat.lt_succ_self _)
      rw [feed]
      cases hp : parseAll (buf.length + chunk.length + 1) (buf ++ chunk) with
      | mk frames outcome =>
          rw [hp] at hs
          cases hs with
          | waiting hy hd =>
              have hall := hy.append settles_turn.isLocal chunks.flatten
              exact .prepend hall (ih hd (h.rest hall))
          | rejected hy hd =>
              exact .rejected (hy.append settles_turn.isLocal chunks.flatten)
                (h.rejects settles_turn hy hd)

/-- A long line that is cut before its LF is rejected, although it is not as a whole. -/
theorem feed_cut {b c : Bytes} {items : List (Option Frame)} (hy : Yields turn b items c)
    (hl : HasLongLine (maxNestingDepth + 1) c) (hc : ¬ Rejects none turn c) :
    ∃ v q, v ++ q = b ∧ feed [v, q] [] ≠ feed [b] [] := by
  obtain ⟨u, p, q, rfl, rfl, hp, hrej⟩ := settles_turn.cut hy hl
  refine ⟨u ++ p, q, List.append_assoc u p q, fun heq => ?_⟩
  have hcut : feed [u ++ p, q] [] = (items.reduceOption, .rejected) := by
    have hs : Stops (u ++ p) (parseAll (0 + (u ++ p).length + 1) (u ++ p)) :=
      parseAll_stops (by omega)
    rw [feed, List.nil_append, List.length_nil, hs.unique (.rejected hp hrej)]
  have hwhole : Stops (u ++ (p ++ q)) (feed [u ++ (p ++ q)] []) := by
    have hs : Stops (u ++ (p ++ q))
        (parseAll (0 + (u ++ (p ++ q)).length + 1) (u ++ (p ++ q))) := parseAll_stops (by omega)
    rw [feed, List.nil_append, List.length_nil]
    cases hr : parseAll (0 + (u ++ (p ++ q)).length + 1) (u ++ (p ++ q)) with
    | mk frames outcome =>
        rw [hr] at hs
        cases outcome <;> simpa [feed] using hs
  rw [← heq, hcut] at hwhole
  cases ht : turn (p ++ q) with
  | error x =>
      cases x with
      | none => cases (Stops.waiting hy ht).unique hwhole
      | some e => exact hc ⟨some e, ht, by simp⟩
  | ok r =>
      -- the frame that is read here is missing from the part
      obtain ⟨o, rest⟩ := r
      have hframe : turn (p ++ q) = frameTurn (p ++ q) := by
        cases hb : p ++ q with
        | nil => rfl
        | cons b d =>
            rw [hb] at hl
            exact if_pos hl.1
      obtain ⟨frame, rfl, -⟩ := frameTurn_eq_ok.mp (hframe ▸ ht)
      have hs := Stops.prepend (hy.trans (.cons ht (.nil rest)))
        (parseAll_stops (Nat.lt_succ_self rest.length))
      have hlen := congrArg (fun r => r.1.length) (hwhole.unique hs)
      simp only [List.reduceOption_append, List.length_append] at hlen
      have hone : ([some frame] : List (Option Frame)).reduceOption.length = 1 := rfl
      omega

theorem parse_append {p rest : Bytes} {frame : Frame} (h : parse p = .ok (some frame, rest))
    (q : Bytes) : parse (p ++ q) = .ok (some frame, rest ++ q) := by
  obtain ⟨w, rfl, hw⟩ := parse_word h
  rw [List.append_assoc]
  exact hw (rest ++ q)

theorem parse_error_append {p q : Bytes} {e : Error} (h : parse p = .error e)
    (hq : LongLinesRejected (p ++ q)) : ∃ e', parse (p ++ q) = .error e' := by
  have hp := parse_parsed p
  rw [h] at hp
  cases hp with
  | error hb ht =>
      obtain ⟨n, hn⟩ := hb
      obtain ⟨x, hx, hne⟩ := hq.rejects settles_turn hn ⟨_, ht, by simp⟩
      have hall : Blanks (p ++ q) _ := ⟨n, hn.append settles_turn.isLocal q⟩
      rw [hall.parse, parse_eq_turn, hx]
      cases x with
      | none => exact absurd rfl hne
      | some e => exact ⟨e, rfl⟩

/-- How the bytes arrive does not show in what the parser makes of them, and what it
makes of a part of them is final. -/
structure ArrivalHidden (b : Bytes) : Prop where
  chunks : ∀ cs cs' : List Bytes, cs.flatten = b → cs'.flatten = b → feed cs [] = feed cs' []
  frame : ∀ p q frame rest, p ++ q = b → parse p = .ok (some frame, rest) →
    parse b = .ok (some frame, rest ++ q)
  error : ∀ p q e, p ++ q = b → parse p = .error e → ∃ e', parse b = .error e'

/-- Parsing does not depend on the arrival of the bytes if and only if no frame that
is not rejected anyway gets past a line of `maxLineLen` bytes or more. -/
theorem arrivalHidden_iff (b : Bytes) : ArrivalHidden b ↔ LongLinesRejected b := by
  constructor
  · intro h items c hy hl
    by_contra hc
    obtain ⟨v, q, hvq, hne⟩ := feed_cut hy hl hc
    exact hne (h.chunks [v, q] [b] (by simp [hvq]) (by simp))
  · intro h
    refine ⟨fun cs cs' hcs hcs' => ?_, fun p q frame rest hpq hp => ?_, fun p q e hpq hp => ?_⟩
    · have stops : ∀ ds : List Bytes, ds.flatten = b → Stops b (feed ds []) := by
        rintro ds rfl
        have hs : Stops ([] ++ ds.flatten) (feed ds []) := feed_stops rfl h
        exact hs
      exact (stops cs hcs).unique (stops cs' hcs')
    · rw [← hpq]
      exact parse_append hp q
    · subst hpq
      exact parse_error_append hp h

theorem feed_rejected {chunk : Bytes} {chunks : List Bytes} {e : Error}
    (h : parse chunk = .error e) :
    feed (chunk :: chunks) [] = ([], .rejected) := by
  simp only [feed, parseAll, List.nil_append, h]

theorem feed_frame {chunk : Bytes} {frame : Frame} (h : parse chunk = .ok (some frame, [])) :
    (feed [chunk] []).1 ≠ [] := by
  simp only [feed, parseAll, List.nil_append, h]
  cases (parseAll (List.length [] + chunk.length) []).2 <;> exact List.cons_ne_nil _ _

/-- A long status line, cut before its LF. -/
theorem not_arrivalHidden {s : String} (hn : NoCrlf (asBytes s))
    (hlen : maxLineLen ≤ (asBytes s).length)
    (hmax : (asBytes s).length + 3 ≤ maxBufferedFrameBytes) :
    ¬ ArrivalHidden (43 :: (asBytes s ++ [13, 10])) := by
  have hpart : parse (43 :: (asBytes s ++ [13])) = .error lineTooLong := by
    have hnone : findCrlf (asBytes s ++ [13]) = none :=
      findCrlf_cut (q := [10]) hn (by simp) (List.cons_ne_nil _ _)
    have hline : readLine (asBytes s ++ [13]) = .error lineTooLong := by
      have hlong : maxLineLen < (asBytes s ++ [13]).length := by
        rw [List.length_append, List.length_singleton]
        omega
      rw [readLine, hnone]
      exact if_pos hlong
    rw [parse_resp _ rfl, parseFrame_simple, lineString, andThen_of_error hline]
    rfl
  have hwhole : parse (43 :: (asBytes s ++ [13, 10])) = .ok (some (.simple s), []) := by
    have hwire : (wire (.simple s)).length ≤ maxBufferedFrameBytes := by
      simpa only [wire, List.length_cons, List.length_append, List.length_nil] using hmax
    have hp := parse_wire (f := .simple s) hn hwire []
    rwa [List.append_nil] at hp
  intro h
  have hcut := h.chunks [43 :: (asBytes s ++ [13]), [10]] [43 :: (asBytes s ++ [13, 10])]
    (by simp) (by simp)
  rw [feed_rejected hpart] at hcut
  exact feed_frame hwhole (congrArg Prod.fst hcut.symm)

theorem asBytes_letters (n : ℕ) :
    asBytes (String.ofList (List.replicate n 'a')) = List.replicate n 97 := by
  have hletter : String.utf8EncodeChar 'a' = [97] := by decide
  rw [asBytes_ofList, List.flatMap_replicate, hletter, List.flatten_replicate_singleton]

/-- A status line of the greatest length an unterminated one may have. -/
theorem longLine_arrival_shows :
    ¬ ArrivalHidden (43 :: (asBytes (String.ofList (List.replicate maxLineLen 'a')) ++
      [13, 10])) := by
  have hlen : (asBytes (String.ofList (List.replicate maxLineLen 'a'))).length = maxLineLen := by
    rw [asBytes_letters, List.length_replicate]
  refine not_arrivalHidden (noCrlf_of_not_mem fun h => ?_) hlen.ge ?_
  · rw [asBytes_letters] at h
    cases List.eq_of_mem_replicate h
  · rw [hlen, maxLineLen, maxBufferedFrameBytes]
    norm_num

end MiniRedis.Parser
