import Mathlib.Data.Finset.Card

/-!
# Counted users of shared resources

A table counts the users of every resource. A user takes a resource, and with it the
duty to collect it: after the last use, whoever collects a resource and finds the count
at zero removes it from the table. Uses can end early, without being collected. A
resource in the table always has someone who still owes its collection, so none is left
behind when everyone has collected.
-/
namespace MiniRedis.ReferenceCounts

variable {U K : Type}

/-- The counts are those of the users, and somebody owes the collection of everything. -/
structure Accounted (counts : K → Option ℕ) (uses owes : U → K → Prop) : Prop where
  counted : ∀ k, ∃ users : Finset U, (∀ u, u ∈ users ↔ uses u k) ∧ users.card = (counts k).getD 0
  owed : ∀ u k, uses u k → owes u k
  collected : ∀ k, (counts k).isSome = true → ∃ u, owes u k

namespace Accounted
variable {counts : K → Option ℕ} {uses uses' owes owes' : U → K → Prop}

theorem empty : Accounted (fun _ => none) (fun (_ : U) (_ : K) => False) fun _ _ => False where
  counted _ := ⟨∅, fun u => by simp, rfl⟩
  owed _ _ h := h
  collected _ h := by cases h

/-- Nobody else uses anything, and nothing is owed less. -/
theorem keep (h : Accounted counts uses owes) (hu : ∀ u k, uses' u k ↔ uses u k)
    (ho : ∀ u k, owes u k → owes' u k) : Accounted counts uses' owes' where
  counted k := by
    have hk := h.counted k
    cases hk with
    | intro users hk => exact ⟨users, fun u => (hk.1 u).trans (hu u k).symm, hk.2⟩
  owed u k huse := ho u k (h.owed u k ((hu u k).mp huse))
  collected k hk := by
    have hu := h.collected k hk
    cases hu with
    | intro u hu => exact ⟨u, ho u k hu⟩

/-- A resource of the table whose count is not zero is used. -/
theorem exists_use (h : Accounted counts uses owes) {k : K} (hs : (counts k).isSome = true)
    (hz : counts k ≠ some 0) : ∃ u, uses u k := by
  have hc := h.counted k
  have hn := Option.isSome_iff_exists.mp hs
  cases hc with
  | intro users hc => cases hn with
    | intro n hn =>
        rw [hn, Option.getD_some] at hc
        have hne : users.Nonempty := Finset.card_pos.mp (Nat.pos_of_ne_zero fun h0 => hz (by
          rw [hn, ← hc.2, h0]))
        cases hne with
        | intro u hu => exact ⟨u, (hc.1 u).mp hu⟩

end Accounted

variable [DecidableEq K]

/-- Removes a resource that nobody uses. -/
def removeUnused (counts : K → Option ℕ) (k : K) : K → Option ℕ :=
  if counts k = some 0 then Function.update counts k none else counts

theorem removeUnused_apply (counts : K → Option ℕ) (k j : K) :
    removeUnused counts k j = if j = k ∧ counts k = some 0 then none else counts j := by
  unfold removeUnused
  by_cases hz : counts k = some 0
  · rw [if_pos hz, Function.update_apply]
    simp only [hz, and_true]
  · rw [if_neg hz, if_neg fun h => hz h.2]

/-- What is left in the table was there, and is not the resource unless it is used. -/
theorem of_removeUnused_isSome {counts : K → Option ℕ} {k j : K}
    (h : (removeUnused counts k j).isSome = true) :
    (counts j).isSome = true ∧ (j = k → counts j ≠ some 0) := by
  rw [removeUnused_apply] at h
  split_ifs at h with hz
  · cases h
  · exact ⟨h, fun hj hc => hz ⟨hj, hj ▸ hc⟩⟩

namespace Accounted
variable {counts : K → Option ℕ} {uses uses' owes owes' : U → K → Prop}

/-- Anyone may remove what is not used. -/
theorem removeUnused (h : Accounted counts uses owes) (k : K) :
    Accounted (ReferenceCounts.removeUnused counts k) uses owes where
  counted j := by
    have hj := h.counted j
    cases hj with
    | intro users hj =>
        refine ⟨users, hj.1, ?_⟩
        rw [hj.2, removeUnused_apply]
        split_ifs with hz
        · rw [hz.1, hz.2]
          rfl
        · rfl
  owed := h.owed
  collected j hj := h.collected j (of_removeUnused_isSome hj).1

/-- The collection of a resource ends the duties of `u` for it. -/
theorem collect (h : Accounted counts uses owes) {u : U} {k : K} (hn : ¬ uses u k)
    (ho : ∀ v j, ¬ (v = u ∧ j = k) → owes v j → owes' v j) :
    Accounted (ReferenceCounts.removeUnused counts k) uses owes' where
  counted := (h.removeUnused k).counted
  owed v j huse := ho v j (fun heq => hn (by rwa [heq.1, heq.2] at huse)) (h.owed v j huse)
  collected j hj := by
    have hleft := of_removeUnused_isSome hj
    by_cases hjk : j = k
    · -- its count is not zero, so somebody else uses it
      subst hjk
      have hv := h.exists_use hleft.1 (hleft.2 rfl)
      cases hv with
      | intro v hv => exact ⟨v, ho v j (fun heq => hn (heq.1 ▸ hv)) (h.owed v j hv)⟩
    · have hv := h.collected j hleft.1
      cases hv with
      | intro v hv => exact ⟨v, ho v j (fun heq => hjk heq.2) hv⟩

variable [DecidableEq U]

theorem acquire (h : Accounted counts uses owes) {u : U} {k : K} (hn : ¬ uses u k)
    (hu : ∀ v j, uses' v j ↔ uses v j ∨ v = u ∧ j = k)
    (ho : ∀ v j, owes v j ∨ v = u ∧ j = k → owes' v j) :
    Accounted (Function.update counts k (some ((counts k).getD 0 + 1))) uses' owes' where
  counted j := by
    have hj := h.counted j
    cases hj with
    | intro users hj =>
        by_cases hjk : j = k
        · subst hjk
          have hout : u ∉ users := fun hm => hn ((hj.1 u).mp hm)
          refine ⟨insert u users, fun v => ?_, ?_⟩
          · rw [Finset.mem_insert, hj.1, hu]
            tauto
          · rw [Finset.card_insert_of_notMem hout, hj.2, Function.update_self, Option.getD_some]
        · refine ⟨users, fun v => ?_, ?_⟩
          · rw [hj.1, hu]
            tauto
          · rw [hj.2, Function.update_of_ne hjk]
  owed v j huse := by
    rcases (hu v j).mp huse with huse | heq
    · exact ho v j (Or.inl (h.owed v j huse))
    · exact ho v j (Or.inr heq)
  collected j hj := by
    by_cases hjk : j = k
    · exact ⟨u, ho u j (Or.inr ⟨rfl, hjk⟩)⟩
    · rw [Function.update_of_ne hjk] at hj
      have hv := h.collected j hj
      cases hv with
      | intro v hv => exact ⟨v, ho v j (Or.inl hv)⟩

/-- A use ends, but is not collected. -/
theorem release (h : Accounted counts uses owes) {u : U} {k : K} (hn : uses u k)
    (hu : ∀ v j, uses' v j ↔ uses v j ∧ ¬ (v = u ∧ j = k)) (ho : ∀ v j, owes v j → owes' v j) :
    Accounted (Function.update counts k ((counts k).map (· - 1))) uses' owes' where
  counted j := by
    have hj := h.counted j
    cases hj with
    | intro users hj =>
        by_cases hjk : j = k
        · subst hjk
          have hin : u ∈ users := (hj.1 u).mpr hn
          refine ⟨users.erase u, fun v => ?_, ?_⟩
          · rw [Finset.mem_erase, hj.1, hu]
            tauto
          · rw [Finset.card_erase_of_mem hin, hj.2, Function.update_self]
            cases counts j <;> rfl
        · refine ⟨users, fun v => ?_, ?_⟩
          · rw [hj.1, hu]
            tauto
          · rw [hj.2, Function.update_of_ne hjk]
  owed v j huse := ho v j (h.owed v j ((hu v j).mp huse).1)
  collected j hj := by
    have hsome : (counts j).isSome = true := by
      by_cases hjk : j = k
      · subst hjk
        rwa [Function.update_self, Option.isSome_map] at hj
      · rwa [Function.update_of_ne hjk] at hj
    have hv := h.collected j hsome
    cases hv with
    | intro v hv => exact ⟨v, ho v j hv⟩

end Accounted
end MiniRedis.ReferenceCounts
