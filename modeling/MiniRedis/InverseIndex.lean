import Mathlib.Data.List.Basic
import Mathlib.Order.Defs.LinearOrder

/-!
# Inverse indexes

Keys carry an optional tag, and an index lists the keys of each tag. The index
is exact when a key is listed once under its own tag and nowhere else. The three
updates below are the only ones a maintained index needs: drop a key from the
list of its tag, append an untagged key to a list, and forget whole tags.
-/
namespace MiniRedis.InverseIndex

variable {K T : Type*} [DecidableEq K] [DecidableEq T]

/-- Each key occurs once in the list of its tag and in no other list. -/
def Indexes (tag : K → Option T) (index : T → List K) : Prop :=
  ∀ t k, (index t).count k = if tag k = some t then 1 else 0

variable {tag : K → Option T} {index : T → List K}

theorem Indexes.mem_iff (h : Indexes tag index) {t : T} {k : K} :
    k ∈ index t ↔ tag k = some t := by
  rw [← List.count_pos_iff, h t k]
  split_ifs with ht <;> simp [ht]

theorem Indexes.count_eq_one (h : Indexes tag index) {t : T} {k : K} (ht : tag k = some t) :
    (index t).count k = 1 := by rw [h t k, if_pos ht]

theorem Indexes.not_mem (h : Indexes tag index) {t u : T} {k : K} (ht : tag k = some t)
    (hu : u ≠ t) : k ∉ index u := by
  rw [h.mem_iff, ht]
  exact fun he => hu (Option.some.inj he).symm

theorem indexes_empty : Indexes (fun _ : K => (none : Option T)) fun _ => [] := by
  intro t k
  simp

def drop (index : T → List K) (t : T) (k : K) : T → List K :=
  Function.update index t ((index t).filter (· ≠ k))

def push (index : T → List K) (t : T) (k : K) : T → List K :=
  Function.update index t (index t ++ [k])

theorem Indexes.drop (h : Indexes tag index) {t : T} {k : K} (ht : tag k = some t) :
    Indexes (Function.update tag k none) (drop index t k) := by
  intro u l
  by_cases hl : l = k
  · subst hl
    rw [Function.update_self, if_neg (by simp), List.count_eq_zero]
    by_cases hu : u = t
    · subst hu
      simp [InverseIndex.drop]
    · rw [InverseIndex.drop, Function.update_of_ne hu]
      exact h.not_mem ht hu
  · rw [Function.update_of_ne hl, ← h u l]
    by_cases hu : u = t
    · subst hu
      rw [InverseIndex.drop, Function.update_self]
      exact List.count_filter (by simpa using hl)
    · rw [InverseIndex.drop, Function.update_of_ne hu]

theorem Indexes.push (h : Indexes tag index) {k : K} (hk : tag k = none) (t : T) :
    Indexes (Function.update tag k (some t)) (push index t k) := by
  intro u l
  have hc := h u l
  by_cases hl : l = k
  · subst hl
    rw [hk, if_neg (by simp)] at hc
    rw [Function.update_self]
    by_cases hu : u = t
    · subst hu
      rw [InverseIndex.push, Function.update_self, List.count_append, hc]
      simp
    · rw [InverseIndex.push, Function.update_of_ne hu, hc,
        if_neg fun he => hu (Option.some.inj he).symm]
  · rw [Function.update_of_ne hl, ← hc]
    by_cases hu : u = t
    · subst hu
      rw [InverseIndex.push, Function.update_self, List.count_append,
        List.count_singleton, if_neg (by simpa using Ne.symm hl), Nat.add_zero]
    · rw [InverseIndex.push, Function.update_of_ne hu]

/-- Forgetting the tags outside `p`, in the tags and in the index. -/
theorem Indexes.restrict (h : Indexes tag index) (p : T → Bool) :
    Indexes (fun k => (tag k).filter p) fun t => if p t then index t else [] := by
  intro t k
  by_cases hp : p t
  · simp only [hp, if_true, h t k, Option.filter_eq_some_iff, and_true]
  · simp only [hp, Bool.false_eq_true, if_false, List.count_nil, Option.filter_eq_some_iff,
      and_false]

end MiniRedis.InverseIndex
