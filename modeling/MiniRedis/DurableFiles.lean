import Mathlib.Data.List.GetD
import MiniRedis.Runs

/-!
# Files that a crash can cut back

What a file contains and what a crash leaves of it are two things. Appended data reach the
disk in their order, a sync waits for them, and a rename is on the disk once the directory
is synced. A crash leaves a file between two of the contents that it has had since its last
sync, under a name that can still be that of the file before.
-/
namespace MiniRedis.DurableFiles
open Runs

variable {A : Type}

/-- A file with its contents at the last sync and those since. A sync that fails can drop
data for good, so the ones behind it promise nothing. -/
structure File (A : Type) where
  synced : List A := []
  since : List (List A) := []
  doubtful : Bool := false

namespace File

def contents (f : File A) : List (List A) := f.synced :: f.since

/-- What a reader finds. -/
def bytes (f : File A) : List A := f.since.getLastD f.synced

def put (c : List A) (f : File A) : File A := { f with since := f.since ++ [c] }

def sync (ok : Bool) (f : File A) : File A :=
  if ok then if f.doubtful then f else { synced := f.bytes }
  else { f with doubtful := true }

/-- What a crash can leave. -/
def Survives (f : File A) (image : List A) : Prop :=
  ∃ c ∈ f.contents, ∃ c' ∈ f.contents, c <+: image ∧ image <+: c'

/-- All contents since the last sync lie between two others. -/
def Between (lo hi : List A) (f : File A) : Prop := ∀ c ∈ f.contents, lo <+: c ∧ c <+: hi

@[simp] theorem bytes_put (c : List A) (f : File A) : (f.put c).bytes = c := by
  simp [bytes, put]

@[simp] theorem bytes_sync (ok : Bool) (f : File A) : (f.sync ok).bytes = f.bytes := by
  unfold sync
  split_ifs <;> rfl

theorem doubtful_sync_true (f : File A) : (f.sync true).doubtful = f.doubtful := by
  unfold sync
  rw [if_pos rfl]
  split_ifs with h
  · rfl
  · exact (Bool.not_eq_true _ ▸ h).symm

theorem bytes_mem (f : File A) : f.bytes ∈ f.contents := by
  unfold bytes contents
  cases hl : f.since.getLast? with
  | none =>
      rw [List.getLastD_eq_getLast?, hl]
      exact List.mem_cons_self
  | some c =>
      rw [List.getLastD_eq_getLast?, hl]
      exact List.mem_cons_of_mem _ (List.mem_of_getLast? hl)

variable {f : File A} {lo hi : List A}

theorem Between.survives (h : f.Between lo hi) {image : List A} (hs : f.Survives image) :
    lo <+: image ∧ image <+: hi := by
  obtain ⟨c, hc, c', hc', hlo, hhi⟩ := hs
  exact ⟨(h c hc).1.trans hlo, hhi.trans (h c' hc').2⟩

theorem Between.mono {lo' hi' : List A} (h : f.Between lo hi) (hl : lo' <+: lo)
    (hh : hi <+: hi') : f.Between lo' hi' :=
  fun c hc => ⟨hl.trans (h c hc).1, (h c hc).2.trans hh⟩

theorem Between.put (h : f.Between lo hi) {c : List A} (hl : lo <+: c) (hh : c <+: hi) :
    (f.put c).Between lo hi := by
  intro d hd
  rcases List.mem_cons.mp hd with rfl | hd
  · exact h f.synced List.mem_cons_self
  · rcases List.mem_append.mp hd with hd | hd
    · exact h d (List.mem_cons_of_mem _ hd)
    · exact List.mem_singleton.mp hd ▸ ⟨hl, hh⟩

theorem Between.sync (h : f.Between lo hi) (ok : Bool) : (f.sync ok).Between lo hi := by
  unfold File.sync
  split_ifs
  · exact h
  · intro c hc
    rw [List.mem_singleton.mp hc]
    exact h _ f.bytes_mem
  · exact h

/-- A sync that can be trusted leaves a crash nothing to cut. -/
theorem between_sync (h : f.doubtful = false) : (f.sync true).Between f.bytes f.bytes := by
  intro c hc
  unfold File.sync at hc
  rw [if_pos rfl, h, if_neg Bool.false_ne_true] at hc
  rw [List.mem_singleton.mp hc]
  exact ⟨List.prefix_rfl, List.prefix_rfl⟩

end File

/-- The file behind a path, the files that the path can still name after a crash, and one
beside it that is made to take its place. -/
structure Volume (A : Type) where
  file : File A
  former : List (File A) := []
  temp : File A := {}

inductive Call (A : Type) where
  | append (data : List A)
  | resize (len : ℕ) (fill : A)
  | sync (ok : Bool)
  /-- Nothing says how much of the file has reached the disk. -/
  | openTemp (data : List A)
  | appendTemp (data : List A)
  | syncTemp (ok : Bool)
  | rename
  | syncDir (ok : Bool)

namespace Volume

def call : Call A → Volume A → Volume A
  | .append data, v => { v with file := v.file.put (v.file.bytes ++ data) }
  | .resize len fill, v => { v with
      file := v.file.put
        (v.file.bytes.take len ++ List.replicate (len - v.file.bytes.length) fill) }
  | .sync ok, v => { v with file := v.file.sync ok }
  | .openTemp data, v => { v with temp := { since := [data] } }
  | .appendTemp data, v => { v with temp := v.temp.put (v.temp.bytes ++ data) }
  | .syncTemp ok, v => { v with temp := v.temp.sync ok }
  | .rename, v => { file := v.temp, former := v.file :: v.former }
  | .syncDir ok, v => if ok then { v with former := [] } else v

/-- What a crash can leave behind the path. -/
def Survives (v : Volume A) (image : List A) : Prop :=
  v.file.Survives image ∨ ∃ f ∈ v.former, f.Survives image

/-- What a crash can leave after any number of the calls. -/
def SurvivesDuring (calls : List (Call A)) (v : Volume A) (image : List A) : Prop :=
  ∃ n, (run call (calls.take n) v).Survives image

theorem survivesDuring_nil {v : Volume A} {image : List A} :
    SurvivesDuring [] v image ↔ v.Survives image := by
  simp [SurvivesDuring, run]

theorem survivesDuring_cons {c : Call A} {calls : List (Call A)} {v : Volume A}
    {image : List A} : SurvivesDuring (c :: calls) v image ↔
      v.Survives image ∨ SurvivesDuring calls (v.call c) image := by
  constructor
  · rintro ⟨n, h⟩
    cases n with
    | zero => exact .inl h
    | succ n => exact .inr ⟨n, h⟩
  · rintro (h | ⟨n, h⟩)
    · exact ⟨0, h⟩
    · exact ⟨n + 1, h⟩

theorem survivesDuring_append {calls calls' : List (Call A)} {v : Volume A} {image : List A}
    (h : SurvivesDuring (calls ++ calls') v image) :
    SurvivesDuring calls v image ∨ SurvivesDuring calls' (run call calls v) image := by
  induction calls generalizing v with
  | nil => exact .inr h
  | cons c calls ih =>
      rcases survivesDuring_cons.mp h with h | h
      · exact .inl (survivesDuring_cons.mpr (.inl h))
      · exact (ih h).imp_left fun h => survivesDuring_cons.mpr (.inr h)

/-- What a crash finds under the path lies between two contents. -/
structure Within (lo hi : List A) (v : Volume A) : Prop where
  file : v.file.Between lo hi
  former : v.former = []

variable {v : Volume A} {lo hi : List A}

theorem Within.survives (h : v.Within lo hi) {image : List A} (hs : v.Survives image) :
    lo <+: image ∧ image <+: hi := by
  rcases hs with hs | ⟨f, hf, hs⟩
  · exact h.file.survives hs
  · rw [h.former] at hf
    cases hf

theorem Within.mono {lo' hi' : List A} (h : v.Within lo hi) (hl : lo' <+: lo)
    (hh : hi <+: hi') : v.Within lo' hi' := ⟨h.file.mono hl hh, h.former⟩

theorem Within.append (h : v.Within lo hi) {data : List A} (hd : v.file.bytes ++ data <+: hi) :
    (v.call (.append data)).Within lo hi :=
  ⟨h.file.put ((h.file _ v.file.bytes_mem).1.trans (List.prefix_append _ _)) hd, h.former⟩

theorem Within.sync (h : v.Within lo hi) (ok : Bool) : (v.call (.sync ok)).Within lo hi :=
  ⟨h.file.sync ok, h.former⟩

/-- Data that were appended are cut off again. -/
theorem Within.resize (h : v.Within lo hi) {old data : List A} (hb : v.file.bytes = old ++ data)
    (hl : lo <+: old) (fill : A) :
    (v.call (.resize old.length fill)).Within lo hi ∧
      (v.call (.resize old.length fill)).file.bytes = old := by
  have hcut : v.file.bytes.take old.length ++
      List.replicate (old.length - v.file.bytes.length) fill = old := by
    rw [hb, List.take_left, List.length_append, Nat.sub_eq_zero_of_le (Nat.le_add_right _ _)]
    exact List.append_nil old
  have hhi : old <+: hi :=
    (hb ▸ List.prefix_append old data).trans (h.file _ v.file.bytes_mem).2
  unfold call
  dsimp only
  rw [hcut]
  exact ⟨⟨h.file.put hl hhi, h.former⟩, File.bytes_put _ _⟩

/-- A crash finds something between two contents whenever it comes. -/
def WithinDuring (lo hi : List A) (calls : List (Call A)) (v : Volume A) : Prop :=
  ∀ n, (run call (calls.take n) v).Within lo hi

theorem withinDuring_nil (h : v.Within lo hi) : WithinDuring lo hi [] v := fun n => by
  rw [List.take_nil]
  exact h

theorem withinDuring_cons {c : Call A} {calls : List (Call A)} (h : v.Within lo hi)
    (hs : WithinDuring lo hi calls (v.call c)) : WithinDuring lo hi (c :: calls) v := fun n => by
  cases n with
  | zero => exact h
  | succ n => exact hs n

theorem withinDuring_append {calls calls' : List (Call A)} (h : WithinDuring lo hi calls v)
    (hs : WithinDuring lo hi calls' (run call calls v)) :
    WithinDuring lo hi (calls ++ calls') v := by
  induction calls generalizing v with
  | nil => exact hs
  | cons c calls ih => exact withinDuring_cons (h 0) (ih (fun n => h (n + 1)) hs)

theorem WithinDuring.after {calls : List (Call A)} (h : WithinDuring lo hi calls v) :
    (run call calls v).Within lo hi := by
  have hall := h calls.length
  rwa [List.take_length] at hall

theorem WithinDuring.survives {calls : List (Call A)} (h : WithinDuring lo hi calls v)
    {image : List A} (hs : SurvivesDuring calls v image) : lo <+: image ∧ image <+: hi := by
  obtain ⟨n, hs⟩ := hs
  exact (h n).survives hs

end Volume
end MiniRedis.DurableFiles
