import MiniRedis.ResponseLimit

/-!
# Positions in a list

`LRANGE` and `LINDEX` take positions from either end. Each resolves them on its own, one
with signed sums and clamps, the other with the absolute value; both address the same
elements, for every position that an `i64` can be, and no sum leaves its type.
-/
namespace MiniRedis
open Wire ParserRoundTrip

variable {host : Host}

/-- The position counted from the front. -/
def norm (len : ℕ) (i : Int64) : ℤ := if i.toInt < 0 then len + i.toInt else i.toInt

/-- The elements between two positions, both included, in their order. -/
def selected (list : List Bytes) (start stop : Int64) : List Bytes :=
  (list.zipIdx.filter fun e => max (norm list.length start) 0 ≤ e.2 ∧
    e.2 ≤ min (norm list.length stop) (list.length - 1)).map Prod.fst

/-- Positions in an interval are those of a segment. -/
theorem filter_zipIdx {A : Type} (list : List A) (k s t : ℕ) :
    ((list.zipIdx k).filter fun e => s ≤ e.2 ∧ e.2 ≤ t).map Prod.fst =
      (list.take (t + 1 - k)).drop (s - k) := by
  induction list generalizing k with
  | nil => simp
  | cons v list ih =>
      rw [List.zipIdx_cons, List.filter_cons]
      by_cases hk : s ≤ k ∧ k ≤ t
      · have htake : t + 1 - k = (t + 1 - (k + 1)) + 1 := by omega
        have hdrop : s - k = 0 := by omega
        have hrest : s - (k + 1) = 0 := by omega
        rw [if_pos (decide_eq_true hk), List.map_cons, ih, htake, hdrop, hrest, List.take_succ_cons]
        rfl
      · rw [if_neg (by simpa using hk), ih]
        by_cases hs : k < s
        · have hdrop : s - k = (s - (k + 1)) + 1 := by omega
          by_cases ht : k ≤ t
          · have htake : t + 1 - k = (t + 1 - (k + 1)) + 1 := by omega
            rw [htake, hdrop, List.take_succ_cons, List.drop_succ_cons]
          · have htake : t + 1 - k = 0 := by omega
            have hrest : t + 1 - (k + 1) = 0 := by omega
            rw [htake, hrest]
            simp
        · have htake : t + 1 - k = 0 := by omega
          have hrest : t + 1 - (k + 1) = 0 := by omega
          rw [htake, hrest]
          simp

/-! ## Arithmetic on positions -/

section
variable {n : ℕ} (hn : n < 9223372036854775808)
include hn

theorem toInt_len : (Int64.ofNat n).toInt = n := by
  rw [← Int64.ofInt_eq_ofNat, Int64.toInt_ofInt_of_le (by omega) (by omega)]

/-- A sum with a negative position stays in the type. -/
theorem toInt_len_add {i : Int64} (hi : i.toInt < 0) :
    (Int64.ofNat n + i).toInt = n + i.toInt := by
  have hrange := Numeral.int64_range i
  rw [Int64.toInt_add, toInt_len hn]
  exact Int.bmod_eq_of_le (by omega) (by omega)

theorem toInt_len_sub_one : (Int64.ofNat n - 1).toInt = n - 1 := by
  have hone : (1 : Int64).toInt = 1 := rfl
  rw [Int64.toInt_sub, toInt_len hn, hone]
  exact Int.bmod_eq_of_le (by omega) (by omega)

theorem toInt_resolve (i : Int64) :
    (if i < 0 then Int64.ofNat n + i else i).toInt = norm n i := by
  have hneg : i < 0 ↔ i.toInt < 0 := Int64.lt_iff_toInt_lt
  unfold norm
  by_cases hi : i.toInt < 0
  · rw [if_pos (hneg.mpr hi), if_pos hi, toInt_len_add hn hi]
  · rw [if_neg fun h => hi (hneg.mp h), if_neg hi]

end

/-! ## Ranges -/

/-- An interval of positions that begins at `s` and ends at `t`. -/
theorem selected_eq {list : List Bytes} {start stop : Int64} {s t : ℕ}
    (hs : max (norm list.length start) 0 = s)
    (ht : min (norm list.length stop) (list.length - 1) = t) :
    selected list start stop = (list.take (t + 1)).drop s := by
  have h := filter_zipIdx list 0 s t
  simp only [Nat.sub_zero] at h
  rw [selected, hs, ht, ← h]
  simp only [Nat.cast_le]

/-- Nothing is selected past the end or in front of the beginning. -/
theorem selected_eq_nil {list : List Bytes} {start stop : Int64}
    (h : list.length = 0 ∨ (list.length : ℤ) ≤ norm list.length start ∨
      norm list.length stop < 0) : selected list start stop = [] := by
  rw [selected, List.map_eq_nil_iff, List.filter_eq_nil_iff]
  intro e he hsel
  have hpos := List.snd_lt_of_mem_zipIdx he
  simp only [decide_eq_true_eq, max_le_iff, le_min_iff] at hsel
  omega

namespace Cmd

theorem toInt_clamp (r : Int64) : (if r < 0 then 0 else r).toInt = max r.toInt 0 := by
  have hzero : (0 : Int64).toInt = 0 := rfl
  split_ifs with h <;> rw [Int64.lt_iff_toInt_lt, hzero] at h
  · rw [hzero, max_eq_right h.le]
  · rw [max_eq_left (not_lt.mp h)]

theorem toInt_cap (last r : Int64) :
    (if last < r then last else r).toInt = min r.toInt last.toInt := by
  split_ifs with h <;> rw [Int64.lt_iff_toInt_lt] at h
  · rw [min_eq_right h.le]
  · rw [min_eq_left (not_lt.mp h)]

/-- The range on wrapping sums is the range on positions. -/
theorem rangeOf_eq {list : List Bytes} (hlen : list.length < 9223372036854775808)
    (start stop : Int64) : rangeOf list start stop = selected list start stop := by
  have hlast := toInt_len_sub_one hlen
  have hzero : (0 : Int64).toInt = 0 := rfl
  unfold rangeOf
  extract_lets len resolve startR stopR startIdx stopIdx
  have hl : len.toInt = list.length := toInt_len hlen
  have hstart : startR.toInt = norm list.length start := toInt_resolve hlen start
  have hstop : stopR.toInt = norm list.length stop := toInt_resolve hlen stop
  have hsi : startIdx = (max (norm list.length start) 0).toNat := by
    rw [← hstart, ← toInt_clamp]
  have hti : stopIdx = (min (norm list.length stop) (list.length - 1)).toNat := by
    rw [← hstop, ← hlast, ← toInt_cap]
  have hempty : (len = 0 ∨ len ≤ startR ∨ stopR < 0) ↔ list.length = 0 ∨
      (list.length : ℤ) ≤ norm list.length start ∨ norm list.length stop < 0 := by
    rw [← Int64.toInt_inj, Int64.le_iff_toInt_le, Int64.lt_iff_toInt_lt, hl, hstart, hstop, hzero]
    omega
  simp only [hempty]
  clear_value startIdx stopIdx
  split_ifs with hout hback
  · exact (selected_eq_nil hout).symm
  · rw [selected_eq (s := startIdx) (t := stopIdx) (by omega) (by omega)]
    exact (List.drop_eq_nil_of_le ((List.length_take_le _ _).trans hback)).symm
  · rw [selected_eq (s := startIdx) (t := stopIdx) (by omega) (by omega), List.drop_take,
      show stopIdx + 1 - startIdx = stopIdx - startIdx + 1 by omega]

/-! ## Single positions -/

/-- The absolute value of a negative position counts from the end. -/
theorem resolveIndex_eq (i : Int64) (len : ℕ) :
    resolveIndex i len = if 0 ≤ norm len i ∧ norm len i < len then some (norm len i).toNat
      else none := by
  have hzero : (0 : Int64).toInt = 0 := rfl
  unfold resolveIndex norm
  simp only [Int64.le_iff_toInt_le, hzero]
  split_ifs <;> first | rfl | omega | (congr 1; omega)

end Cmd

/-- The element at a position. -/
def addressed (list : List Bytes) (i : Int64) : Option Bytes :=
  if 0 ≤ norm list.length i ∧ norm list.length i < list.length then
    list[(norm list.length i).toNat]?
  else none

/-- The range from a position to itself is the element there. -/
theorem selected_self (list : List Bytes) (i : Int64) :
    selected list i i = (addressed list i).toList := by
  unfold addressed
  split_ifs with h
  · have heq : ((norm list.length i).toNat : ℤ) = norm list.length i := Int.toNat_of_nonneg h.1
    rw [selected_eq (by rw [heq]; exact max_eq_left h.1)
      (by rw [heq]; exact min_eq_left (by omega)), List.drop_take]
    rw [Nat.add_sub_cancel_left, List.take_one, List.head?_drop]
  · exact selected_eq_nil (by omega)

namespace Cmd

theorem readLive_of_view {now : ExpireAt} {db : Db host} {key : Bytes} {entry : Entry}
    (h : db.view now key = some entry) (missing : Frame) (found : Value → Frame) :
    readLive now db key missing found = found entry.value := by
  obtain ⟨hentry, hfresh⟩ := Slot.alive_eq_some.mp h
  rw [readLive, hentry]
  exact if_neg (Bool.eq_false_iff.mp hfresh)

theorem lindex_eq {now : ExpireAt} {db : Db host} {key : Bytes} {list : List Bytes}
    {e : Option ExpireAt} (h : db.view now key = some ⟨.list list, e⟩) (i : Int64) :
    lindex now db key i = ((addressed list i).map .bulk).getD .null := by
  rw [lindex, readLive_of_view h]
  dsimp only
  rw [resolveIndex_eq, addressed]
  split_ifs
  · rw [Option.bind_some]
    cases list[(norm list.length i).toNat]? <;> rfl
  · rfl

end Cmd

namespace Command

/-- On a list of a length that a `VecDeque` can have, `LRANGE` and `LINDEX` send the elements
at the addressed positions, they agree with each other, and no sum leaves its type. -/
theorem positions_exact {now : ExpireAt} {db : Db host} {key : Bytes} {list : List Bytes}
    {e : Option ExpireAt} (hlen : list.length < 9223372036854775808)
    (h : db.view now key = some ⟨.list list, e⟩) (start stop i : Int64) :
    (¬ ExceedsLimit (.array ((selected list start stop).map .bulk)) →
      ((lrange key start stop).apply now db).1 = .array ((selected list start stop).map .bulk)) ∧
    ((lindex key i).apply now db).1 = ((addressed list i).map .bulk).getD .null ∧
    (((lindex key i).apply now db).1 ≠ .null ↔ ∃ v, selected list i i = [v]) ∧
    (∀ v, selected list i i = [v] → ((lindex key i).apply now db).1 = .bulk v) ∧
    (Int64.ofNat list.length).toInt = list.length ∧
    (Int64.ofNat list.length - 1).toInt = list.length - 1 ∧
    (∀ j : Int64, j < 0 → (Int64.ofNat list.length + j).toInt = list.length + j.toInt) ∧
    ∀ j : Int64, j.toInt.natAbs < 2 ^ 64 := by
  have hindex : ((lindex key i).apply now db).1 = ((addressed list i).map .bulk).getD .null :=
    Cmd.lindex_eq h i
  have hrange : (lrange key start stop).unlimited now db =
      some (.array ((selected list start stop).map .bulk)) := by
    rw [unlimited, Cmd.readLive_of_view h, ← Cmd.rangeOf_eq hlen]
  refine ⟨((response_limit_exact now db).1 _ _ hrange).2, hindex, ?_, fun v hv => ?_,
    toInt_len hlen, toInt_len_sub_one hlen, fun j hj => ?_, fun j => ?_⟩
  · rw [hindex, selected_self]
    cases addressed list i with
    | none =>
        refine iff_of_false (fun hn => hn rfl) ?_
        rintro ⟨v, hv⟩
        cases hv
    | some v =>
        refine iff_of_true ?_ ⟨v, rfl⟩
        intro hn
        cases hn
  · rw [selected_self] at hv
    rw [hindex]
    cases ha : addressed list i with
    | none =>
        rw [ha] at hv
        cases hv
    | some w =>
        rw [ha] at hv
        exact congrArg Frame.bulk (List.cons.inj hv).1
  · exact toInt_len_add hlen (Int64.lt_iff_toInt_lt.mp hj)
  · have hj := Numeral.int64_range j
    omega

theorem positions_exact_last :
    let db : Db ⟨fun _ => 0, 1⟩ := ((rpush [107] [[98], [97]]).apply 0 Db.new).2
    ((lindex [107] (-1)).apply 0 db).1 = ((addressed [[98], [97]] (-1)).map .bulk).getD .null ∧
    (((lindex [107] (-1)).apply 0 db).1 ≠ .null ↔ ∃ v, selected [[98], [97]] (-1) (-1) = [v]) := by
  intro db
  have hlen : ([[98], [97]] : List Bytes).length < 9223372036854775808 := by decide
  have hlist : db.view 0 [107] = some ⟨.list [[98], [97]], none⟩ := rfl
  have h := positions_exact hlen hlist 0 0 (-1)
  exact ⟨h.2.1, h.2.2.1⟩

end Command
end MiniRedis
