import Mathlib.Order.WellFounded
import MiniRedis.Runs

/-!
# Systems that come to rest

Turns are taken in any order, and the surroundings answer every turn in a way that nobody
controls. If a turn that is ready always makes a rank smaller, and if some turn is ready as
long as the system has not come to rest, then no order of the turns and no answers keep it
from coming to rest.
-/
namespace MiniRedis.Progress
open Runs

variable {S T A R : Type} [LT R]

/-- The step for a turn and the answer to it. -/
structure Descends (step : T → A → S → S) (Inv : S → Prop) (Ready : T → S → Prop)
    (Rest : S → Prop) (rank : S → R) : Prop where
  keeps : ∀ s t a, Inv s → Ready t s → Inv (step t a s)
  descends : ∀ s t a, Inv s → Ready t s → rank (step t a s) < rank s
  ready : ∀ s, Inv s → ¬ Rest s → ∃ t, Ready t s

namespace Descends
variable {step : T → A → S → S} {Inv : S → Prop} {Ready : T → S → Prop} {Rest : S → Prop}
  {rank : S → R} [WellFoundedLT R]

/-- Whatever the answers are, some turns lead to rest. -/
theorem comes_to_rest (h : Descends step Inv Ready Rest rank) (answer : T → S → A) {s : S}
    (hs : Inv s) : ∃ ts, (∀ x ∈ taken (fun t s => step t (answer t s) s) ts s, Ready x.2 x.1) ∧
      Rest (run (fun t s => step t (answer t s) s) ts s) := by
  induction hr : rank s using WellFoundedLT.induction generalizing s with
  | ind r ih =>
      by_cases hrest : Rest s
      · exact ⟨[], List.forall_mem_nil _, hrest⟩
      · obtain ⟨t, ht⟩ := h.ready s hs hrest
        have hlt : rank (step t (answer t s) s) < r := hr ▸ h.descends s t (answer t s) hs ht
        obtain ⟨ts, hready, hend⟩ := ih _ hlt (h.keeps s t (answer t s) hs ht) rfl
        exact ⟨t :: ts, List.forall_mem_cons.mpr ⟨ht, hready⟩, hend⟩

/-- Ready turns cannot be taken for ever. -/
theorem not_forever (h : Descends step Inv Ready Rest rank) {s : ℕ → S} (hs : Inv (s 0)) :
    ¬ ∀ n, ∃ t a, Ready t (s n) ∧ s (n + 1) = step t a (s n) := by
  intro hall
  have hinv : ∀ n, Inv (s n) := by
    intro n
    induction n with
    | zero => exact hs
    | succ n ih =>
        obtain ⟨t, a, ht, heq⟩ := hall n
        rw [heq]
        exact h.keeps _ t a ih ht
  have hlt : ∀ n, rank (s (n + 1)) < rank (s n) := fun n => by
    obtain ⟨t, a, ht, heq⟩ := hall n
    rw [heq]
    exact h.descends _ t a (hinv n) ht
  have hnone : ∀ r n, rank (s n) ≠ r := by
    intro r
    induction r using WellFoundedLT.induction with
    | ind r ih => exact fun n hn => ih _ (hn ▸ hlt n) (n + 1) rfl
  exact hnone _ 0 rfl

end Descends
end MiniRedis.Progress
