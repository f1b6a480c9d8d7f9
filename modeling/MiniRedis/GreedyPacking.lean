import Mathlib.Data.List.Basic

/-!
# Greedy packing

A list of items is cut into runs: an item joins the current run as long as the run
still fits, and starts the next run when it does not. The packing fails if an item
does not even fit alone. Put together again, the runs are the list; none is empty,
and each one fits.
-/
namespace MiniRedis.GreedyPacking

variable {A : Type} (fits : List A → Bool)

/-- The runs of a list whose current run has been started already. -/
def packFrom : List A → List A → Option (List (List A))
  | [], current => some (if current.isEmpty then [] else [current])
  | item :: items, current =>
      if fits (current ++ [item]) then packFrom items (current ++ [item])
      else if current.isEmpty then none
      else if fits [item] then (packFrom items [item]).map (current :: ·)
      else none

def pack (items : List A) : Option (List (List A)) := packFrom fits items []

variable {fits} {items current : List A} {runs : List (List A)}

theorem packFrom_nil :
    packFrom fits [] current = some (if current.isEmpty then [] else [current]) :=
  rfl

theorem packFrom_flatten (h : packFrom fits items current = some runs) :
    runs.flatten = current ++ items := by
  induction items generalizing current runs with
  | nil =>
      have hr := Option.some.inj h
      cases current with
      | nil => rw [← hr]; rfl
      | cons c cs => rw [← hr]; simp
  | cons item items ih =>
      rw [packFrom] at h
      split_ifs at h with h₁ h₂ h₃
      · rw [ih h, List.append_assoc, List.singleton_append]
      · have hr := Option.map_eq_some_iff.mp h
        cases hr with
        | intro rest hr => rw [← hr.2, List.flatten_cons, ih hr.1, List.singleton_append]

/-- Every run satisfies what the current one does and every fitting run does. -/
theorem packFrom_forall {P : List A → Prop} (hP : ∀ run, run ≠ [] → fits run = true → P run)
    (hc : current ≠ [] → P current) (h : packFrom fits items current = some runs) :
    ∀ run ∈ runs, P run := by
  induction items generalizing current runs with
  | nil =>
      have hr := Option.some.inj h
      cases current with
      | nil =>
          rw [← hr]
          exact List.forall_mem_nil _
      | cons c cs =>
          rw [← hr]
          exact List.forall_mem_cons.mpr ⟨hc (List.cons_ne_nil c cs), List.forall_mem_nil _⟩
  | cons item items ih =>
      rw [packFrom] at h
      split_ifs at h with h₁ h₂ h₃
      · exact ih (fun hne => hP _ hne h₁) h
      · have hne : current ≠ [] := fun hn => h₂ (by rw [hn]; rfl)
        have hr := Option.map_eq_some_iff.mp h
        cases hr with
        | intro rest hr =>
            rw [← hr.2]
            exact List.forall_mem_cons.mpr ⟨hc hne, ih (fun hne => hP _ hne h₃) hr.1⟩

theorem pack_flatten (h : pack fits items = some runs) : runs.flatten = items :=
  packFrom_flatten h

theorem pack_fits (h : pack fits items = some runs) : ∀ run ∈ runs, run ≠ [] ∧ fits run = true :=
  packFrom_forall (fun _ hne hf => ⟨hne, hf⟩) (fun hne => (hne rfl).elim) h

/-- Nothing stops the packing of items that fit alone. -/
theorem packFrom_isSome (h : ∀ item ∈ items, fits [item] = true) :
    (packFrom fits items current).isSome = true := by
  induction items generalizing current with
  | nil => rfl
  | cons item items ih =>
      have hs := List.forall_mem_cons.mp h
      rw [packFrom]
      split_ifs with h₁ h₂ h₃
      · exact ih hs.2
      · rw [List.isEmpty_iff.mp h₂] at h₁
        exact (h₁ hs.1).elim
      · rw [Option.isSome_map]
        exact ih hs.2
      · exact (h₃ hs.1).elim

/-- Where a part of a fitting run fits, a list can be packed if and only if its items fit alone. -/
theorem pack_isSome_iff (hmono : ∀ run item, fits run = true → item ∈ run → fits [item] = true) :
    (pack fits items).isSome = true ↔ ∀ item ∈ items, fits [item] = true := by
  constructor
  · intro h item hitem
    have hr := Option.isSome_iff_exists.mp h
    cases hr with
    | intro runs hr =>
        rw [← pack_flatten hr, List.mem_flatten] at hitem
        cases hitem with
        | intro run hrun => exact hmono run item (pack_fits hr run hrun.1).2 hrun.2
  · exact packFrom_isSome

/-- What fits as a whole is one run, where every part in front of it fits. -/
theorem packFrom_whole (h : ∀ run, run <+: current ++ items → run ≠ [] → fits run = true)
    (hne : current ++ items ≠ []) : packFrom fits items current = some [current ++ items] := by
  induction items generalizing current with
  | nil =>
      rw [List.append_nil] at hne ⊢
      rw [packFrom, List.isEmpty_eq_false_iff.mpr hne]
      rfl
  | cons item items ih =>
      have hsplit : current ++ item :: items = current ++ [item] ++ items := by simp
      rw [hsplit] at h hne ⊢
      have hfits : fits (current ++ [item]) = true :=
        h _ (List.prefix_append _ _) (List.append_ne_nil_of_right_ne_nil _ (List.cons_ne_nil _ _))
      rw [packFrom, if_pos hfits]
      exact ih h hne

theorem pack_whole (h : ∀ run, run <+: items → run ≠ [] → fits run = true) (hne : items ≠ []) :
    pack fits items = some [items] := packFrom_whole h hne

end MiniRedis.GreedyPacking
