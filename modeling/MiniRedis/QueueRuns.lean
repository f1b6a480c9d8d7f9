import MiniRedis.Runs

/-!
# Queues along a run

Each step of a system may put an item into a queue and take one out of it. Nothing gets
lost before the queue is given up, and nothing comes out of it afterwards. What has come
out is then a prefix of what was in the queue at first and of what has come in.
-/
namespace MiniRedis.Runs

variable {S L A : Type} {step : L → S → S}

/-- The steps of a run on the queue `held`, which is given up in the states `gone`. -/
structure Queues (step : L → S → S) (held : S → List A) (input output : S × L → Option A)
    (gone : S → Prop) (t : S × L) : Prop where
  gone_stays : gone t.1 → gone (step t.2 t.1) ∧ output t = none
  moves : ¬ gone t.1 → held t.1 ++ (input t).toList = (output t).toList ++ held (step t.2 t.1) ∨
    gone (step t.2 t.1) ∧ (output t).toList <+: held t.1 ++ (input t).toList

variable {held : S → List A} {input output : S × L → Option A} {gone : S → Prop}
  {ls : List L} {s : S}

theorem filterMap_cons_toList {B : Type} (f : B → Option A) (b : B) (bs : List B) :
    (b :: bs).filterMap f = (f b).toList ++ bs.filterMap f := by
  cases h : f b with
  | none => rw [List.filterMap_cons_none h]; rfl
  | some a => rw [List.filterMap_cons_some h]; rfl

theorem outputs_gone (h : ∀ t ∈ taken step ls s, Queues step held input output gone t)
    (hs : gone s) : (taken step ls s).filterMap output = [] ∧ gone (run step ls s) := by
  induction ls generalizing s with
  | nil => exact ⟨rfl, hs⟩
  | cons l ls ih =>
      obtain ⟨hl, hls⟩ := List.forall_mem_cons.mp h
      have hgone := hl.gone_stays hs
      have hrest := ih hls hgone.1
      refine ⟨?_, hrest.2⟩
      rw [taken, filterMap_cons_toList, hgone.2, hrest.1]
      rfl

/-- While the queue is not given up, nothing gets lost. -/
theorem conserved (h : ∀ t ∈ taken step ls s, Queues step held input output gone t)
    (hend : ¬ gone (run step ls s)) :
    held s ++ (taken step ls s).filterMap input =
      (taken step ls s).filterMap output ++ held (run step ls s) := by
  induction ls generalizing s with
  | nil => simp [taken, run]
  | cons l ls ih =>
      obtain ⟨hl, hls⟩ := List.forall_mem_cons.mp h
      have hs : ¬ gone s := fun hs => hend (outputs_gone hls (hl.gone_stays hs).1).2
      rcases hl.moves hs with heq | ⟨hgone, -⟩
      · calc held s ++ (taken step (l :: ls) s).filterMap input
            = held s ++ (input (s, l)).toList ++ (taken step ls (step l s)).filterMap input := by
              rw [taken, filterMap_cons_toList, List.append_assoc]
          _ = (output (s, l)).toList ++
                (held (step l s) ++ (taken step ls (step l s)).filterMap input) := by
              rw [heq, List.append_assoc]
          _ = (output (s, l)).toList ++ ((taken step ls (step l s)).filterMap output ++
                held (run step ls (step l s))) := by rw [ih hls hend]
          _ = _ := by rw [taken, filterMap_cons_toList, List.append_assoc, run]
      · exact (hend (outputs_gone hls hgone).2).elim

theorem outputs_prefix (h : ∀ t ∈ taken step ls s, Queues step held input output gone t) :
    (taken step ls s).filterMap output <+: held s ++ (taken step ls s).filterMap input := by
  induction ls generalizing s with
  | nil => exact List.nil_prefix
  | cons l ls ih =>
      obtain ⟨hl, hls⟩ := List.forall_mem_cons.mp h
      rw [taken, filterMap_cons_toList, filterMap_cons_toList, ← List.append_assoc]
      by_cases hs : gone s
      · have hgone := hl.gone_stays hs
        rw [hgone.2, (outputs_gone hls hgone.1).1]
        exact List.nil_prefix
      · rcases hl.moves hs with heq | ⟨hgone, hpre⟩
        · rw [heq, List.append_assoc]
          exact (List.prefix_append_right_inj _).mpr (ih hls)
        · rw [(outputs_gone hls hgone).1, List.append_nil]
          exact hpre.trans (List.prefix_append _ _)

end MiniRedis.Runs
