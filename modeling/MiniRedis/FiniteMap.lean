import Mathlib.Data.List.AList

/-!
# Finite maps with an unspecified order of iteration

A finite map is a list of entries with distinct keys. Its order is the order in
which a loop visits the entries; nothing below says what that order is. Two
maps are compared by their lookups.
-/
namespace MiniRedis

abbrev FiniteMap (K V : Type) := AList fun _ : K => V

namespace FiniteMap
variable {K V : Type} [DecidableEq K]

theorem lookup_insert (m : FiniteMap K V) (k : K) (v : V) :
    (fun k' => (m.insert k v).lookup k') = Function.update (fun k' => m.lookup k') k (some v) := by
  funext k'
  by_cases h : k' = k
  · subst h
    simp
  · rw [AList.lookup_insert_ne h, Function.update_of_ne h]

theorem lookup_erase (m : FiniteMap K V) (k : K) :
    (fun k' => (m.erase k).lookup k') = Function.update (fun k' => m.lookup k') k none := by
  funext k'
  by_cases h : k' = k
  · subst h
    simp
  · rw [AList.lookup_erase_ne h, Function.update_of_ne h]

theorem lookup_insert_apply (m : FiniteMap K V) (k : K) (v : V) (j : K) :
    (m.insert k v).lookup j = if j = k then some v else m.lookup j :=
  (congrFun (lookup_insert m k v) j).trans (Function.update_apply ..)

theorem lookup_erase_apply (m : FiniteMap K V) (k j : K) :
    (m.erase k).lookup j = if j = k then none else m.lookup j :=
  (congrFun (lookup_erase m k) j).trans (Function.update_apply ..)

/-- The entries whose key and value satisfy a test. -/
def retain (p : K → V → Bool) (m : FiniteMap K V) : FiniteMap K V :=
  ⟨m.entries.filter fun e => p e.1 e.2, m.nodupKeys.sublist List.filter_sublist⟩

theorem lookup_eq_some {m : FiniteMap K V} {k : K} {v : V} :
    m.lookup k = some v ↔ ⟨k, v⟩ ∈ m.entries := AList.mem_lookup_iff

theorem lookup_retain (p : K → V → Bool) (m : FiniteMap K V) (k : K) :
    (m.retain p).lookup k = (m.lookup k).filter (p k) := by
  ext v
  simp only [lookup_eq_some, Option.filter_eq_some_iff, retain, List.mem_filter]

theorem lookup_mem {m : FiniteMap K V} {e : Sigma fun _ : K => V} (h : e ∈ m.entries) :
    m.lookup e.1 = some e.2 := lookup_eq_some.mpr h

theorem entries_ne_nil_iff {m : FiniteMap K V} :
    m.entries ≠ [] ↔ ∃ k, (m.lookup k).isSome = true := by
  constructor
  · intro h
    have he := List.exists_mem_of_ne_nil _ h
    cases he with
    | intro e he => exact ⟨e.1, by rw [lookup_mem he, Option.isSome_some]⟩
  · rintro ⟨k, hk⟩ hn
    have hv := Option.isSome_iff_exists.mp hk
    cases hv with
    | intro v hv =>
        have hm := lookup_eq_some.mp hv
        rw [hn] at hm
        cases hm

theorem entries_insert_ne_nil (m : FiniteMap K V) (k : K) (v : V) :
    (m.insert k v).entries ≠ [] :=
  entries_ne_nil_iff.mpr ⟨k, by rw [AList.lookup_insert, Option.isSome_some]⟩

/-! ## Sizes -/

/-- A key is taken away from as many keys as there were. -/
theorem length_erase (m : FiniteMap K V) (k : K) :
    (m.erase k).entries.length + (if (m.lookup k).isSome then 1 else 0) = m.entries.length := by
  have hlen : ∀ m : FiniteMap K V, m.keys.length = m.entries.length := fun m => List.length_map _
  rw [← hlen, ← hlen, AList.keys_erase]
  split_ifs with hk <;> rw [AList.lookup_isSome] at hk
  · have hpos := List.length_pos_of_mem hk
    rw [List.length_erase_of_mem hk]
    omega
  · rw [List.erase_of_not_mem hk, Nat.add_zero]

theorem length_insert (m : FiniteMap K V) (k : K) (v : V) :
    (m.insert k v).entries.length = m.entries.length + if (m.lookup k).isSome then 0 else 1 := by
  have herase := length_erase m k
  have hinsert : (m.insert k v).entries.length = (m.erase k).entries.length + 1 := rfl
  split_ifs at herase ⊢ <;> omega

/-- Maps with the same lookups hold the same entries, in some order. -/
theorem entries_perm {m m' : FiniteMap K V} (h : ∀ k, m.lookup k = m'.lookup k) :
    m.entries.Perm m'.entries :=
  List.lookup_ext m.nodupKeys m'.nodupKeys fun k v => by
    change v ∈ m.lookup k ↔ v ∈ m'.lookup k
    rw [h]

end FiniteMap
end MiniRedis
