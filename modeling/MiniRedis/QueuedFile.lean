import Mathlib.Data.List.Basic
import Mathlib.Tactic.SplitIfs

/-!
# Files that write behind

A write to such a file returns while its last piece is still in flight. Whatever comes next
waits for that piece first. If it has failed, a write reports the error in place of writing
anything; any other call leaves the error for the next write, and with the file the error is
gone.
-/
namespace MiniRedis

/-- How a write ends: whole, or with an error after some of it. -/
abbrev WriteResult := Except (ℕ × String) Unit

/-- How `write_all` ends: with the error of a piece before the last one, or with the last one
in flight, and then how that one will end. -/
abbrev PushResult := Except (ℕ × String) WriteResult

/-- Only the pieces before the last one, which begins at `start`, can fail within `write_all`. -/
def WriteResult.push (start : ℕ) : WriteResult → PushResult
  | .ok () => .ok (.ok ())
  | .error (n, e) => if n < start then .error (n, e) else .ok (.error (n - start, e))

/-- There is something to write, and its last piece fails after `write_all` has returned. -/
def PushResult.lost {α : Type} (bytes : List α) : PushResult → Bool
  | .ok (.error _) => !bytes.isEmpty
  | _ => false

/-- Where the last piece begins. -/
def lastPiece (size len : ℕ) : ℕ := (len - 1) / size * size

structure QueuedFile (α : Type) where
  bytes : List α
  /-- The piece in flight, and how its write will end. -/
  inFlight : Option (List α × WriteResult) := none
  /-- The error of a write that nobody has been told of. -/
  error : Option String := none

namespace QueuedFile
variable {α : Type}

/-- The write in flight has ended. -/
def settle (f : QueuedFile α) : QueuedFile α :=
  match f.inFlight with
  | none => f
  | some (piece, .ok ()) => { f with bytes := f.bytes ++ piece, inFlight := none }
  | some (piece, .error (n, e)) =>
      { bytes := f.bytes ++ piece.take n, inFlight := none, error := some e }

/-- What the write in flight brings. -/
def landing (f : QueuedFile α) : List α :=
  match f.inFlight with
  | none => []
  | some (piece, .ok ()) => piece
  | some (piece, .error (n, _)) => piece.take n

/-- What the file will hold when the write in flight has ended. -/
def contents (f : QueuedFile α) : List α := f.settle.bytes

/-- `write_all`, of which the last piece begins at `start`. -/
def push (bytes : List α) (start : ℕ) (result : PushResult) (f : QueuedFile α) :
    Except String Unit × QueuedFile α :=
  if bytes.isEmpty then (.ok (), f)
  else match f.settle.error with
    | some e => (.error e, { f.settle with error := none })
    | none =>
        match result with
        | .error (n, e) => (.error e, { f.settle with bytes := f.contents ++ bytes.take n })
        | .ok late => (.ok (), { f.settle with
            bytes := f.contents ++ bytes.take start
            inFlight := some (bytes.drop start, late) })

variable {f : QueuedFile α} {bytes : List α} {start : ℕ} {result : PushResult}

theorem settle_of_none (h : f.inFlight = none) : f.settle = f := by
  simp [settle, h]

@[simp] theorem settle_inFlight (f : QueuedFile α) : f.settle.inFlight = none := by
  unfold settle
  split <;> simp_all

@[simp] theorem settle_settle (f : QueuedFile α) : f.settle.settle = f.settle :=
  settle_of_none f.settle_inFlight

@[simp] theorem settle_bytes (f : QueuedFile α) : f.settle.bytes = f.contents := rfl

@[simp] theorem settle_contents (f : QueuedFile α) : f.settle.contents = f.contents := by
  rw [contents, settle_settle, contents]

theorem contents_of_none (h : f.inFlight = none) : f.contents = f.bytes := by
  rw [contents, settle_of_none h]

theorem bytes_landing (f : QueuedFile α) : f.bytes ++ f.landing = f.contents := by
  unfold contents settle landing
  split <;> simp

@[simp] theorem contents_mk (bytes : List α) (error : Option String) :
    (⟨bytes, none, error⟩ : QueuedFile α).contents = bytes := rfl

/-- A `write_all` that fails leaves nothing in flight and no error behind. -/
theorem push_error {e : String} (h : (f.push bytes start result).1 = .error e) :
    ∃ n, (f.push bytes start result).2 = ⟨f.contents ++ bytes.take n, none, none⟩ := by
  unfold push at h ⊢
  split_ifs at h ⊢
  cases he : f.settle.error with
  | some e' => exact ⟨0, by simp⟩
  | none =>
      cases result with
      | error r => exact ⟨r.1, by simp [he]⟩
      | ok late => simp [he] at h

/-- One that does not fail had nothing to write, or has its last piece in flight. -/
theorem push_ok (h : (f.push bytes start result).1 = .ok ()) :
    (bytes = [] ∧ (f.push bytes start result).2 = f) ∨
      ∃ late, result = .ok late ∧ f.settle.error = none ∧
        (f.push bytes start result).2 =
          ⟨f.contents ++ bytes.take start, some (bytes.drop start, late), none⟩ := by
  unfold push at h ⊢
  split_ifs at h ⊢ with hb
  · exact .inl ⟨List.isEmpty_iff.mp hb, rfl⟩
  · cases he : f.settle.error with
    | some e => simp [he] at h
    | none =>
        cases result with
        | error r => simp [he] at h
        | ok late => exact .inr ⟨late, rfl, rfl, by simp [he]⟩

/-- On a file that no error waits for, only its own pieces can make it fail. -/
theorem push_ok_iff (he : f.settle.error = none) :
    (f.push bytes start result).1 = .ok () ↔ bytes = [] ∨ ∃ late, result = .ok late := by
  unfold push
  rw [he]
  cases bytes with
  | nil => simp
  | cons b bytes => cases result <;> simp

/-- Some of the bytes get there. -/
theorem push_some (f : QueuedFile α) (bytes : List α) (start : ℕ) (result : PushResult) :
    ∃ n, (f.push bytes start result).2.contents = f.contents ++ bytes.take n := by
  cases h : (f.push bytes start result).1 with
  | error e =>
      obtain ⟨n, hf⟩ := push_error h
      exact ⟨n, by rw [hf, contents_mk]⟩
  | ok =>
      rcases push_ok h with ⟨rfl, hf⟩ | ⟨late, -, -, hf⟩
      · exact ⟨0, by rw [hf, List.take_zero, List.append_nil]⟩
      · rw [hf]
        rcases late with ⟨n, e⟩ | _
        · exact ⟨start + n, by simp [contents, settle, List.take_add]⟩
        · exact ⟨bytes.length, by simp [contents, settle]⟩

/-- Without a failure of the last piece everything gets there. -/
theorem push_contents (h : (f.push bytes start result).1 = .ok ())
    (hl : result.lost bytes = false) :
    (f.push bytes start result).2.contents = f.contents ++ bytes ∧
      (f.push bytes start result).2.settle.error = f.settle.error := by
  rcases push_ok h with ⟨rfl, hf⟩ | ⟨late, rfl, he, hf⟩
  · rw [hf, List.append_nil]
    exact ⟨rfl, rfl⟩
  · cases late with
    | error e =>
        obtain rfl : bytes = [] := by simpa [PushResult.lost] using hl
        simp [push]
    | ok =>
        rw [hf, he]
        simp [contents, settle]

/-- So it does if no error is waiting afterwards. -/
theorem push_sound (h : (f.push bytes start result).1 = .ok ())
    (he : (f.push bytes start result).2.settle.error = none) :
    (f.push bytes start result).2.contents = f.contents ++ bytes ∧ f.settle.error = none := by
  rcases push_ok h with ⟨rfl, hf⟩ | ⟨late, -, hnone, hf⟩
  · rw [hf] at he ⊢
    exact ⟨(List.append_nil _).symm, he⟩
  · refine ⟨?_, hnone⟩
    rw [hf] at he ⊢
    cases late with
    | error e => simp [settle] at he
    | ok => simp [contents, settle]

theorem settle_eq (f : QueuedFile α) : f.settle = ⟨f.contents, none, f.settle.error⟩ := by
  rw [← settle_bytes, ← f.settle_inFlight]

end QueuedFile
end MiniRedis
