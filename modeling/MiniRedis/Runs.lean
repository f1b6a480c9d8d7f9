import Mathlib.Data.List.Basic

/-!
# Runs of a labelled system

A run takes one labelled step after the other. A property of states is kept
along a run if each step keeps it, under a condition on the step and on the
state it starts in.
-/
namespace MiniRedis.Runs

variable {S L : Type} (step : L → S → S)

def run : List L → S → S
  | [], s => s
  | l :: ls, s => run ls (step l s)

/-- The steps of a run, each with the state it starts in. -/
def taken : List L → S → List (S × L)
  | [], _ => []
  | l :: ls, s => (s, l) :: taken ls (step l s)

variable {step}

theorem label_mem {ls : List L} {s : S} {t : S × L} (h : t ∈ taken step ls s) : t.2 ∈ ls := by
  induction ls generalizing s with
  | nil => cases h
  | cons l ls ih =>
      rcases List.mem_cons.mp h with rfl | h
      · exact List.mem_cons_self
      · exact List.mem_cons_of_mem l (ih h)

/-- The run up to a step that is taken in it, and the run behind. -/
theorem split_of_mem {ls : List L} {s : S} {t : S × L} (h : t ∈ taken step ls s) :
    ∃ before after, ls = before ++ t.2 :: after ∧ t.1 = run step before s := by
  induction ls generalizing s with
  | nil => cases h
  | cons l ls ih =>
      rcases List.mem_cons.mp h with rfl | h
      · exact ⟨[], ls, rfl, rfl⟩
      · obtain ⟨before, after, hls, hs⟩ := ih h
        exact ⟨l :: before, after, congrArg (List.cons l) hls, hs⟩

theorem taken_labels (ls : List L) (s : S) : (taken step ls s).map Prod.snd = ls := by
  induction ls generalizing s with
  | nil => rfl
  | cons l ls ih => exact congrArg (List.cons l) (ih (step l s))

/-- A property that every step of the run keeps under a condition that every step meets. -/
theorem kept {Inv : S → Prop} {Ok : S × L → Prop}
    (h : ∀ s l, Inv s → Ok (s, l) → Inv (step l s)) {ls : List L} {s : S} (hs : Inv s)
    (hok : ∀ t ∈ taken step ls s, Ok t) :
    (∀ t ∈ taken step ls s, Inv t.1) ∧ Inv (run step ls s) := by
  induction ls generalizing s with
  | nil => exact ⟨by simp [taken], hs⟩
  | cons l ls ih =>
      obtain ⟨hl, hls⟩ := List.forall_mem_cons.mp hok
      obtain ⟨h₁, h₂⟩ := ih (h s l hs hl) hls
      exact ⟨List.forall_mem_cons.mpr ⟨hs, h₁⟩, h₂⟩

theorem run_append (ls ms : List L) (s : S) :
    run step (ls ++ ms) s = run step ms (run step ls s) := by
  induction ls generalizing s with
  | nil => rfl
  | cons l ls ih => exact ih (step l s)

theorem taken_append (ls ms : List L) (s : S) :
    taken step (ls ++ ms) s = taken step ls s ++ taken step ms (run step ls s) := by
  induction ls generalizing s with
  | nil => rfl
  | cons l ls ih => exact congrArg (List.cons (s, l)) (ih (step l s))

/-- The same for a property of the state and of what the steps have noted down so far. -/
theorem kept_noted {A : Type} {note : S × L → Option A} {Inv : List A → S → Prop}
    {Ok : S × L → Prop}
    (h : ∀ noted s l, Inv noted s → Ok (s, l) → Inv (noted ++ (note (s, l)).toList) (step l s))
    {ls : List L} {s : S} {noted : List A} (hs : Inv noted s)
    (hok : ∀ t ∈ taken step ls s, Ok t) :
    Inv (noted ++ (taken step ls s).filterMap note) (run step ls s) := by
  induction ls generalizing s noted with
  | nil => simpa [taken, run] using hs
  | cons l ls ih =>
      have hl := List.forall_mem_cons.mp hok
      have hstep := ih (h noted s l hs hl.1) hl.2
      rw [List.append_assoc] at hstep
      cases hn : note (s, l) with
      | none =>
          rw [hn] at hstep
          rwa [taken, List.filterMap_cons_none hn]
      | some a =>
          rw [hn] at hstep
          rwa [taken, List.filterMap_cons_some hn]

end MiniRedis.Runs
