import MiniRedis.AofSnapshot
import Mathlib.Order.Bounds.Basic

/-!
# The search for a chunk length

The bisection on `usize` values, with every operation checked: it ends, no operation
leaves the type, and it ends at the longest payload that fits.
-/
namespace MiniRedis.Aof
open Wire

/-- `usize::checked_sub`. -/
def checkedSub (a b : ℕ) : Option ℕ := if b ≤ a then some (a - b) else none

/-- One turn of the loop of `max_payload_len_for_frame`. It is none where an operation would
leave the type, or where the length of a bulk string is missing. -/
def searchTurn (baseLen lo hi : ℕ) : Option (ℕ × ℕ) :=
  (checkedSub hi lo).bind fun d => (checkedAdd lo ((d + 1) / 2)).bind fun mid =>
    (respBulkLen mid).bind fun n =>
      if (checkedAdd baseLen n).any (· ≤ maxAofBufferedFrameBytes) then some (mid, hi)
      else (checkedSub mid 1).map fun hi => (lo, hi)

/-- The loop ends with a length, after turns that all succeed. -/
inductive Search (baseLen : ℕ) : ℕ → ℕ → ℕ → Prop where
  | stop {lo hi : ℕ} (h : ¬ lo < hi) : Search baseLen lo hi lo
  | turn {lo hi lo' hi' n : ℕ} (h : lo < hi) (ht : searchTurn baseLen lo hi = some (lo', hi'))
      (hs : Search baseLen lo' hi' n) : Search baseLen lo hi n

/-- What a turn keeps: the lower end fits, and what is above the upper end does not. -/
structure Bracket (baseLen top lo hi : ℕ) : Prop where
  ordered : lo ≤ hi
  within : hi ≤ top
  fits : baseLen + bulkLen lo ≤ maxAofBufferedFrameBytes
  longer : ∀ n, hi < n → n ≤ top → maxAofBufferedFrameBytes < baseLen + bulkLen n

theorem fits_any {baseLen n : ℕ} :
    (checkedAdd baseLen n).any (· ≤ maxAofBufferedFrameBytes) = true ↔
      baseLen + n ≤ maxAofBufferedFrameBytes := by
  have hmax : maxAofBufferedFrameBytes < 2 ^ 64 := by decide
  unfold checkedAdd usize?
  split_ifs with hs
  · simp
  · simp only [Option.any_none, Bool.false_eq_true, false_iff]
    omega

/-- A turn succeeds, keeps the bracket and makes it shorter. -/
theorem searchTurn_bracket {baseLen top lo hi : ℕ} (hb : Bracket baseLen top lo hi)
    (hlt : lo < hi) (htop : bulkLen top < 2 ^ 64) :
    ∃ lo' hi', searchTurn baseLen lo hi = some (lo', hi') ∧ Bracket baseLen top lo' hi' ∧
      hi' - lo' < hi - lo := by
  have hmid : lo < lo + (hi - lo + 1) / 2 ∧ lo + (hi - lo + 1) / 2 ≤ hi := by omega
  have hwithin := hb.within
  have hbulk := bulkLen_mono (hmid.2.trans hwithin)
  have hsub : checkedSub hi lo = some (hi - lo) := if_pos hb.ordered
  have hadd : checkedAdd lo ((hi - lo + 1) / 2) = some (lo + (hi - lo + 1) / 2) := by
    refine usize?_eq_some.mpr ⟨rfl, ?_⟩
    unfold bulkLen at hbulk htop
    omega
  rw [searchTurn, hsub, Option.bind_some, hadd, Option.bind_some]
  generalize lo + (hi - lo + 1) / 2 = mid at hmid hbulk
  rw [respBulkLen_of_lt (hbulk.trans_lt htop), Option.bind_some]
  by_cases hf : baseLen + bulkLen mid ≤ maxAofBufferedFrameBytes
  · rw [if_pos (fits_any.mpr hf)]
    exact ⟨mid, hi, rfl, ⟨hmid.2, hwithin, hf, hb.longer⟩, by omega⟩
  · have hpos : 1 ≤ mid := by omega
    rw [if_neg (mt fits_any.mp hf), checkedSub, if_pos hpos]
    refine ⟨lo, mid - 1, rfl, ⟨by omega, by omega, hb.fits, fun n hn htop => ?_⟩, by omega⟩
    have hmono := bulkLen_mono (by omega : mid ≤ n)
    omega

/-- So the loop ends, and where it ends nothing longer fits. -/
theorem search_ends {baseLen top lo hi : ℕ} (hb : Bracket baseLen top lo hi)
    (htop : bulkLen top < 2 ^ 64) : ∃ n, Search baseLen lo hi n ∧ Bracket baseLen top n n := by
  induction hd : hi - lo using Nat.strong_induction_on generalizing lo hi with
  | _ d ih =>
      by_cases hlt : lo < hi
      · obtain ⟨lo', hi', ht, hb', hshort⟩ := searchTurn_bracket hb hlt htop
        obtain ⟨n, hs, hn⟩ := ih (hi' - lo') (by omega) hb' rfl
        exact ⟨n, .turn hlt ht hs, hn⟩
      · have heq : lo = hi := Nat.le_antisymm hb.ordered (not_lt.mp hlt)
        subst heq
        exact ⟨lo, .stop hlt, hb⟩

/-- A turn that succeeds is the turn of `searchPayloadLen`. -/
theorem searchPayloadLen_turn {baseLen lo hi lo' hi' : ℕ} (hlt : lo < hi)
    (ht : searchTurn baseLen lo hi = some (lo', hi')) :
    hi' - lo' < hi - lo ∧ ∀ fuel, searchPayloadLen baseLen (fuel + 1) lo hi =
      searchPayloadLen baseLen fuel lo' hi' := by
  obtain ⟨d, hd, ht⟩ := Option.bind_eq_some_iff.mp ht
  obtain ⟨mid, hmid, ht⟩ := Option.bind_eq_some_iff.mp ht
  obtain ⟨n, hn, ht⟩ := Option.bind_eq_some_iff.mp ht
  rw [checkedSub, if_pos hlt.le] at hd
  obtain rfl := Option.some.inj hd
  obtain rfl := (usize?_eq_some.mp hmid).1
  have hbounds : lo < lo + (hi - lo + 1) / 2 ∧ lo + (hi - lo + 1) / 2 ≤ hi := by omega
  simp only [searchPayloadLen, if_pos hlt, hn, Option.bind_some]
  split_ifs at ht ⊢ with hf
  · obtain ⟨rfl, rfl⟩ := Prod.mk.inj (Option.some.inj ht)
    exact ⟨by omega, fun _ => rfl⟩
  · rw [checkedSub, if_pos (by omega), Option.map_some] at ht
    obtain ⟨rfl, rfl⟩ := Prod.mk.inj (Option.some.inj ht)
    exact ⟨by omega, fun _ => rfl⟩

/-- The fuel of `searchPayloadLen` is no limit of the source: any that suffices gives the
length at which the loop ends. -/
theorem Search.eq {baseLen lo hi n : ℕ} (h : Search baseLen lo hi n) {fuel : ℕ}
    (hfuel : hi - lo < fuel) : searchPayloadLen baseLen fuel lo hi = some n := by
  induction h generalizing fuel with
  | @stop lo hi hstop =>
      cases fuel with
      | zero => omega
      | succ fuel => exact if_neg hstop
  | @turn lo hi lo' hi' n hlt ht _ ih =>
      obtain ⟨hshort, hturn⟩ := searchPayloadLen_turn hlt ht
      cases fuel with
      | zero => omega
      | succ fuel => rw [hturn, ih (by omega)]

/-- The longest payload that fits beside the base, within the cap on a bulk string. -/
def LongestPayload (baseLen n : ℕ) : Prop :=
  IsGreatest {n | n ≤ maxBulkLen ∧ baseLen + bulkLen n ≤ maxAofBufferedFrameBytes} n

theorem maxPayloadLenForFrame_none {baseLen : ℕ}
    (h : maxAofBufferedFrameBytes < baseLen + bulkLen 0) :
    maxPayloadLenForFrame baseLen = none := by
  rw [maxPayloadLenForFrame, respBulkLen_of_lt (by decide), Option.bind_some]
  cases hn : checkedAdd baseLen (bulkLen 0) with
  | none => rfl
  | some n =>
      obtain rfl := (usize?_eq_some.mp hn).1
      exact if_pos h

theorem maxPayloadLenForFrame_some {baseLen : ℕ}
    (h : baseLen + bulkLen 0 ≤ maxAofBufferedFrameBytes) :
    ∃ n, maxPayloadLenForFrame baseLen = some n ∧ LongestPayload baseLen n ∧
      Search baseLen 0 (min maxBulkLen maxAofBufferedFrameBytes) n := by
  have hmax : maxAofBufferedFrameBytes < 2 ^ 64 := by decide
  have hcap : min maxBulkLen maxAofBufferedFrameBytes = maxBulkLen := by decide
  have htop : bulkLen maxBulkLen < 2 ^ 64 := by
    rw [bulkLen_eight (by decide) (by decide)]
    decide
  have hbracket : Bracket baseLen maxBulkLen 0 maxBulkLen :=
    ⟨Nat.zero_le _, le_rfl, h, fun n hn hle => absurd hle (not_le.mpr hn)⟩
  obtain ⟨n, hs, hn⟩ := search_ends hbracket htop
  rw [hcap]
  refine ⟨n, ?_, ⟨⟨hn.within, hn.fits⟩, fun m hm => ?_⟩, hs⟩
  · rw [maxPayloadLenForFrame, respBulkLen_of_lt (by decide), Option.bind_some, checkedAdd,
      usize?_eq_some.mpr ⟨rfl, by omega⟩, Option.bind_some, if_neg (not_lt.mpr h), hcap]
    exact hs.eq (by omega)
  · by_contra hlt
    exact absurd hm.2 (not_le.mpr (hn.longer m (not_le.mp hlt) hm.1))

end MiniRedis.Aof
