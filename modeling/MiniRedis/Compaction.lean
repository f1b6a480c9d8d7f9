import Mathlib.Data.List.Basic

/-!
# Logs that are compacted while they grow

A log grows record by record. A compaction begins, an image of the records so far is
prepared, and at last the image takes the place of the log, with the records since the
beginning behind it. The marks of a history say in which order this happened, and what the
log contains follows from them. A compaction that is given up leaves no more than its
beginning in the history.
-/
namespace MiniRedis.Compaction

variable {R I A : Type}

inductive Mark (R I : Type) where
  | recorded (r : R)
  | began
  | switched (image : I)

def Mark.record : Mark R I → Option R
  | recorded r => some r
  | _ => none

def records (history : List (Mark R I)) : List R := history.filterMap Mark.record

@[simp] theorem records_append (h h' : List (Mark R I)) :
    records (h ++ h') = records h ++ records h' := List.filterMap_append

@[simp] theorem records_nil : records ([] : List (Mark R I)) = [] := rfl

@[simp] theorem records_recorded (r : R) (h : List (Mark R I)) :
    records (.recorded r :: h) = r :: records h := rfl

@[simp] theorem records_began (h : List (Mark R I)) : records (.began :: h) = records h := rfl

@[simp] theorem records_switched (image : I) (h : List (Mark R I)) :
    records (.switched image :: h) = records h := rfl

@[simp] theorem records_map (rs : List R) :
    records (rs.map (Mark.recorded : R → Mark R I)) = rs := by
  induction rs with
  | nil => rfl
  | cons r rs ih => rw [List.map_cons, records_recorded, ih]

/-- No image has taken the place of the log. -/
def Unswitched (history : List (Mark R I)) : Prop := ∀ image, .switched image ∉ history

theorem Unswitched.append {h h' : List (Mark R I)} (hu : Unswitched h) (hu' : Unswitched h') :
    Unswitched (h ++ h') := fun image hm => (List.mem_append.mp hm).elim (hu image) (hu' image)

theorem unswitched_recorded (r : R) : Unswitched [(.recorded r : Mark R I)] := by
  simp [Unswitched]

theorem unswitched_began : Unswitched [(.began : Mark R I)] := by
  simp [Unswitched]

/-! ## A compaction under way -/

/-- A compaction began after the records `earlier`, and the records `since` followed. -/
def Running (history : List (Mark R I)) (earlier since : List R) : Prop :=
  ∃ before, history = before ++ .began :: since.map .recorded ∧ records before = earlier

theorem running_began (history : List (Mark R I)) :
    Running (history ++ [.began]) (records history) [] := ⟨history, rfl, rfl⟩

theorem Running.record {history : List (Mark R I)} {earlier since : List R}
    (h : Running history earlier since) (r : R) :
    Running (history ++ [.recorded r]) earlier (since ++ [r]) := by
  obtain ⟨before, rfl, he⟩ := h
  exact ⟨before, by simp, he⟩

/-! ## Contents -/

section
variable (print : R → List A) (bytes : I → List A) (Shows : List R → I → Prop)

/-- The log is what it was at first, with all records behind it, or the last image, which shows
the records before its compaction began, with the later ones behind it. -/
inductive Contents (initial : List A) (history : List (Mark R I)) : List A → Prop where
  | original (h : Unswitched history) :
      Contents initial history (initial ++ (records history).flatMap print)
  | compacted {before after : List (Mark R I)} {during : List R} {image : I}
      (h : history = before ++ .began :: during.map .recorded ++ .switched image :: after)
      (hafter : Unswitched after) (hshows : Shows (records before) image) :
      Contents initial history (bytes image ++ (during ++ records after).flatMap print)

end

section
variable {print : R → List A} {bytes : I → List A} {Shows : List R → I → Prop} {initial : List A}
  {history : List (Mark R I)} {file : List A}

theorem contents_nil : Contents print bytes Shows initial [] initial := by
  have h : Contents print bytes Shows initial []
      (initial ++ (records ([] : List (Mark R I))).flatMap print) :=
    .original fun _ hm => List.not_mem_nil hm
  simpa using h

theorem Contents.append (h : Contents print bytes Shows initial history file)
    {marks : List (Mark R I)} (hu : Unswitched marks) :
    Contents print bytes Shows initial (history ++ marks)
      (file ++ (records marks).flatMap print) := by
  cases h with
  | original h =>
      have hc : Contents print bytes Shows initial (history ++ marks) _ := .original (h.append hu)
      simpa using hc
  | @compacted before after during image h hafter hshows =>
      have hlist : history ++ marks =
          before ++ .began :: during.map .recorded ++ .switched image :: (after ++ marks) := by
        rw [h, List.append_assoc, List.cons_append]
      have hc : Contents print bytes Shows initial (history ++ marks) _ :=
        .compacted hlist (hafter.append hu) hshows
      simpa using hc

theorem Contents.record (h : Contents print bytes Shows initial history file) (r : R) :
    Contents print bytes Shows initial (history ++ [.recorded r]) (file ++ print r) := by
  simpa using h.append (unswitched_recorded r)

theorem Contents.began (h : Contents print bytes Shows initial history file) :
    Contents print bytes Shows initial (history ++ [.began]) file := by
  simpa using h.append unswitched_began

/-- The compaction ends with its image in place of the log. -/
theorem Running.switch {earlier since : List R} (h : Running history earlier since) {image : I}
    (hshows : Shows earlier image) :
    Contents print bytes Shows initial (history ++ [.switched image])
      (bytes image ++ since.flatMap print) := by
  obtain ⟨before, rfl, rfl⟩ := h
  have hnone : Unswitched ([] : List (Mark R I)) := fun _ hm => List.not_mem_nil hm
  have hc : Contents print bytes Shows initial
      (before ++ .began :: since.map .recorded ++ [.switched image]) _ :=
    .compacted rfl hnone hshows
  simpa using hc

end
end MiniRedis.Compaction
