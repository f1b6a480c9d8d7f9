import MiniRedis.AofWriter
import MiniRedis.PrefixCode
import MiniRedis.Runs

/-!
# Rollback of a failed append

The writer cuts the file back to `current_size`, so a failed append leaves the file
as it was exactly while that number is the length of the file. Two things make the
numbers differ. A write that fails in the background, after `write_all` has returned,
is acknowledged if no sync behind it fails. And under the policy `always`, a failed
sync of a file that has just been renamed returns before the new length is stored.
-/
namespace MiniRedis.Aof
open Wire Runs PrefixCode

namespace Writer

/-- `stats.current_size` is the length of the file when the write in flight has ended. -/
def InSync (w : Writer) : Prop := w.stats.currentSize = w.file.contents.length

instance (w : Writer) : Decidable w.InSync := inferInstanceAs (Decidable (_ = _))

theorem setLen_append (file bytes : Bytes) : setLen file.length (file ++ bytes) = file := by
  unfold setLen
  rw [List.take_left, List.length_append, Nat.sub_eq_zero_of_le (Nat.le_add_right _ _)]
  simp

@[simp] theorem settle_contents (w : Writer) : w.settle.file.contents = w.file.contents :=
  w.file.settle_contents

theorem settle_inSync {w : Writer} : w.settle.InSync ↔ w.InSync := by
  rw [InSync, InSync, settle_contents]
  rfl

variable {policy : FsyncPolicy} {w : Writer}

/-- A rollback of bytes that were appended to a file of known length. -/
theorem rollback_appended (h : w.InSync) (w' : Writer) {bytes : Bytes}
    (hfile : w'.file.contents = w.file.contents ++ bytes) :
    (w'.rollbackActiveFile w.stats.currentSize (.ok ())).file.contents = w.file.contents ∧
      (w'.rollbackActiveFile w.stats.currentSize (.ok ())).InSync := by
  have hcut : (w'.rollbackActiveFile w.stats.currentSize (.ok ())).file.contents =
      setLen w.stats.currentSize w'.file.contents :=
    QueuedFile.contents_of_none w'.file.settle_inFlight
  rw [hfile, h, setLen_append, ← h] at hcut
  exact ⟨hcut, h.trans (congrArg List.length hcut.symm)⟩

end Writer

open Writer

/-- A write fails after `write_all` has returned, and no sync behind it fails. -/
def Writer.WriteCalls.failsUnnoticed (policy : FsyncPolicy) (bytes : Bytes)
    (calls : WriteCalls) : Bool :=
  (calls.writeAll.push (lastPiece maxFileBufSize bytes.length)).lost bytes &&
    (!syncs policy calls.elapsed || calls.syncData.isOk)

namespace Writer
variable {policy : FsyncPolicy} {w : Writer}

theorem writeOne_file (bytes : Bytes) (len : ℕ) (writeAll : WriteResult) (w : Writer) :
    (w.writeOne bytes len writeAll).2.file = (w.file.push bytes
      (lastPiece maxFileBufSize bytes.length)
      (writeAll.push (lastPiece maxFileBufSize bytes.length))).2 := by
  unfold writeOne
  dsimp only
  cases w.file.push bytes (lastPiece maxFileBufSize bytes.length)
    (writeAll.push (lastPiece maxFileBufSize bytes.length)) with
  | mk result file => cases result <;> rfl

theorem writeOne_spec (bytes : Bytes) (len : ℕ) (writeAll : WriteResult) (w : Writer) :
    (∃ n, (w.writeOne bytes len writeAll).2.file.contents = w.file.contents ++ bytes.take n) ∧
      ((w.writeOne bytes len writeAll).1 = .ok () →
        (w.writeOne bytes len writeAll).2.stats.currentSize = len + bytes.length ∧
          ((writeAll.push (lastPiece maxFileBufSize bytes.length)).lost bytes = false →
            (w.writeOne bytes len writeAll).2.file.contents = w.file.contents ++ bytes)) := by
  obtain ⟨n, hsome⟩ := w.file.push_some bytes (lastPiece maxFileBufSize bytes.length)
    (writeAll.push (lastPiece maxFileBufSize bytes.length))
  unfold writeOne
  dsimp only
  cases hp : w.file.push bytes (lastPiece maxFileBufSize bytes.length)
    (writeAll.push (lastPiece maxFileBufSize bytes.length)) with
  | mk result file =>
      rw [hp] at hsome
      cases result with
      | error e =>
          refine ⟨⟨n, hsome⟩, fun h => ?_⟩
          cases h
      | ok =>
          refine ⟨⟨n, hsome⟩, fun _ => ⟨rfl, fun hl => ?_⟩⟩
          have hwhole := (QueuedFile.push_contents (congrArg Prod.fst hp) hl).1
          rwa [hp] at hwhole

theorem syncAfterWrite_spec (policy : FsyncPolicy) (elapsed : Bool) (syncData : CallResult)
    (w : Writer) : (w.syncAfterWrite policy elapsed syncData).2.file.contents = w.file.contents ∧
      (w.syncAfterWrite policy elapsed syncData).2.stats = w.stats ∧
      ((w.syncAfterWrite policy elapsed syncData).1 = .ok () →
        (!syncs policy elapsed || syncData.isOk) = true) := by
  unfold syncAfterWrite
  split_ifs with hs
  · refine ⟨w.settle_contents, rfl, fun h => ?_⟩
    dsimp only at h
    rw [h, hs]
    rfl
  · refine ⟨rfl, rfl, fun _ => ?_⟩
    rw [Bool.eq_false_iff.mpr hs]
    rfl

/-- The block of `Write`: the frame is appended whole, or the file is as it was. -/
theorem writeFrame_spec (h : w.InSync) (bytes : Bytes) {calls : WriteCalls}
    (hset : calls.setLen = .ok ()) (hn : calls.failsUnnoticed policy bytes = false) :
    (w.writeFrame policy bytes calls).2.InSync ∧
      (w.writeFrame policy bytes calls).2.file.contents =
        match (w.writeFrame policy bytes calls).1 with
        | .ok () => w.file.contents ++ bytes
        | .error _ => w.file.contents := by
  obtain ⟨⟨n, hsome⟩, hok⟩ := w.writeOne_spec bytes w.stats.currentSize calls.writeAll
  unfold writeFrame
  dsimp only
  rw [hset]
  cases hw : w.writeOne bytes w.stats.currentSize calls.writeAll with
  | mk result w₁ =>
      rw [hw] at hsome hok
      cases result with
      | error e =>
          obtain ⟨hfile, hsync⟩ := rollback_appended h w₁ hsome
          exact ⟨hsync, hfile⟩
      | ok =>
          obtain ⟨hsize, hwhole⟩ := hok rfl
          obtain ⟨hcontents, hstats, hreport⟩ :=
            syncAfterWrite_spec policy calls.elapsed calls.syncData w₁
          dsimp only
          cases hs : w₁.syncAfterWrite policy calls.elapsed calls.syncData with
          | mk synced w₂ =>
              rw [hs] at hcontents hstats hreport
              cases synced with
              | error e =>
                  obtain ⟨hfile, hsync⟩ := rollback_appended h w₂ (hcontents.trans hsome)
                  exact ⟨hsync, hfile⟩
              | ok =>
                  rw [WriteCalls.failsUnnoticed, hreport rfl, Bool.and_true] at hn
                  have hfile := hcontents.trans (hwhole hn)
                  refine ⟨?_, hfile⟩
                  change w₂.stats.currentSize = w₂.file.contents.length
                  rw [hstats, hsize, hfile, List.length_append, h]

/-- The writer with another file, or another length of it. -/
def Refiled (w w' : Writer) : Prop :=
  ∃ file size, w' = { w with file := file, stats := { w.stats with currentSize := size } }

theorem Refiled.trans {w w' w'' : Writer} (h : w.Refiled w') (h' : w'.Refiled w'') :
    w.Refiled w'' := by
  obtain ⟨file, size, rfl⟩ := h
  obtain ⟨file', size', rfl⟩ := h'
  exact ⟨file', size', rfl⟩

theorem writeOne_refiled (bytes : Bytes) (len : ℕ) (writeAll : WriteResult) (w : Writer) :
    w.Refiled (w.writeOne bytes len writeAll).2 := by
  unfold writeOne
  dsimp only
  split <;> exact ⟨_, _, rfl⟩

theorem syncAfterWrite_refiled (elapsed : Bool) (syncData : CallResult) (w : Writer) :
    w.Refiled (w.syncAfterWrite policy elapsed syncData).2 := by
  unfold syncAfterWrite
  split_ifs <;> exact ⟨_, _, rfl⟩

theorem rollback_refiled (len : ℕ) (result : CallResult) (w : Writer) :
    w.Refiled (w.rollbackActiveFile len result) := by
  cases result <;> exact ⟨_, _, rfl⟩

/-- Whatever becomes of a frame, only the file and its length are touched. -/
theorem writeFrame_refiled (policy : FsyncPolicy) (bytes : Bytes) (calls : WriteCalls)
    (w : Writer) : w.Refiled (w.writeFrame policy bytes calls).2 := by
  have hone := writeOne_refiled bytes w.stats.currentSize calls.writeAll w
  unfold writeFrame
  dsimp only
  cases hw : w.writeOne bytes w.stats.currentSize calls.writeAll with
  | mk result w₁ =>
      rw [hw] at hone
      cases result with
      | error e => exact hone.trans (rollback_refiled _ _ w₁)
      | ok =>
          have hsync := @syncAfterWrite_refiled policy calls.elapsed calls.syncData w₁
          dsimp only
          cases hs : w₁.syncAfterWrite policy calls.elapsed calls.syncData with
          | mk synced w₂ =>
              rw [hs] at hsync
              cases synced with
              | error e => exact (hone.trans hsync).trans (rollback_refiled _ _ w₂)
              | ok => exact hone.trans hsync

theorem bufferFrame_file (bytes : Bytes) (w : Writer) :
    (w.bufferFrame bytes).file = w.file ∧
      (w.bufferFrame bytes).stats.currentSize = w.stats.currentSize := by
  unfold bufferFrame
  cases w.rewriteBuffer with
  | none => exact ⟨rfl, rfl⟩
  | some buffer =>
      dsimp only
      cases buffer.push bytes <;> exact ⟨rfl, rfl⟩

theorem write_spec (h : w.InSync) (bytes : Bytes) {calls : WriteCalls}
    (hset : calls.setLen = .ok ())
    (hn : w.stats.writeFailed = false → calls.failsUnnoticed policy bytes = false) :
    (w.write policy bytes calls).2.InSync ∧
      (w.write policy bytes calls).2.file.contents =
        match (w.write policy bytes calls).1 with
        | .ok () => w.file.contents ++ bytes
        | .error _ => w.file.contents := by
  unfold write
  split_ifs with hf
  · exact ⟨h, rfl⟩
  · obtain ⟨hsync, hfile⟩ : _ ∧ (w.writeFrame policy bytes calls).2.file.contents = _ :=
      writeFrame_spec h bytes hset (hn (Bool.eq_false_iff.mpr hf))
    cases hw : w.writeFrame policy bytes calls with
    | mk result w' =>
        rw [hw] at hsync hfile
        cases result with
        | ok =>
            obtain ⟨h₁, h₂⟩ := bufferFrame_file bytes w'
            refine ⟨?_, (congrArg _ h₁).trans hfile⟩
            unfold InSync at hsync ⊢
            rw [h₁, h₂, hsync]
        | error e => exact ⟨hsync, hfile⟩

/-- The calls up to the rename succeed, and the temporary file holds `temp`. -/
structure Renames (calls : FinishCalls) (buffer : RewriteBuffer) (temp : Bytes) : Prop where
  openTemp : calls.openTemp = .ok temp
  append : buffer.frames.flatten = [] ∨ ∃ late, calls.append = .ok late
  syncTemp : calls.syncTemp = .ok ()
  rename : calls.rename = .ok ()

theorem replacement_eq_ok {calls : FinishCalls} {buffer : RewriteBuffer}
    {file : QueuedFile UInt8} : replacement calls buffer = .ok file ↔
      ∃ temp, Renames calls buffer temp ∧
        (QueuedFile.push buffer.frames.flatten 0 calls.append { bytes := temp }).2.settle =
          file := by
  unfold replacement
  simp only [bind_eq_ok, Except.ok.injEq]
  constructor
  · rintro ⟨temp, ho, _, ha, _, hs, _, hr, hf⟩
    exact ⟨temp, ⟨ho, (QueuedFile.push_ok_iff rfl).mp ha, hs, hr⟩, hf⟩
  · rintro ⟨temp, ⟨ho, ha, hs, hr⟩, hf⟩
    exact ⟨temp, ho, (), (QueuedFile.push_ok_iff rfl).mpr ha, (), hs, (), hr, hf⟩

/-- The write in flight when the new file is synced fails, and nothing behind it does. -/
def FinishCalls.losesFrames (buffer : RewriteBuffer) (calls : FinishCalls) : Bool :=
  calls.openTemp.isOk && calls.append.lost buffer.frames.flatten && calls.syncTemp.isOk &&
    calls.rename.isOk

theorem Renames.not_lost {calls : FinishCalls} {buffer : RewriteBuffer} {temp : Bytes}
    (h : Renames calls buffer temp) (hl : calls.losesFrames buffer = false) :
    calls.append.lost buffer.frames.flatten = false := by
  rw [FinishCalls.losesFrames, h.openTemp, h.syncTemp, h.rename] at hl
  simpa [Except.isOk, Except.toBool] using hl

/-- The new file is whole if the write that is in flight when its sync begins does not fail. -/
theorem Renames.whole {calls : FinishCalls} {buffer : RewriteBuffer} {temp : Bytes}
    (h : Renames calls buffer temp) (hl : calls.append.lost buffer.frames.flatten = false) :
    (QueuedFile.push buffer.frames.flatten 0 calls.append { bytes := temp }).2.settle =
      ⟨temp ++ buffer.frames.flatten, none, none⟩ := by
  have hnone : ({ bytes := temp } : QueuedFile UInt8).settle.error = none := rfl
  obtain ⟨hcontents, herror⟩ :=
    QueuedFile.push_contents ((QueuedFile.push_ok_iff hnone).mpr h.append) hl
  rw [QueuedFile.settle_eq, hcontents, herror]
  rfl

end Writer

/-- The assumption on `set_len` and on `metadata`. -/
def WriterStep.LengthCallsSucceed : WriterStep → Prop
  | .write _ calls => calls.setLen = .ok ()
  | .finishRewrite calls => calls.metadata = .ok ()
  | _ => True

/-- No write fails unnoticed, and under `always` no sync fails after a rename. -/
def WriterStep.KeepsSize (policy : FsyncPolicy) : Writer × WriterStep → Prop
  | (w, .write bytes calls) =>
      w.stats.writeFailed = false → calls.failsUnnoticed policy bytes = false
  | (w, .finishRewrite calls) => ∀ buffer temp, w.rewriteBuffer = some buffer →
      Renames calls buffer temp → policy = .always → calls.syncActive = .ok ()
  | _ => True

namespace Writer
variable {policy : FsyncPolicy} {w : Writer}

theorem switchTo_file (calls : FinishCalls) (file : QueuedFile UInt8) (w : Writer) :
    (w.switchTo policy calls file).2.file = file := by
  unfold switchTo
  dsimp only
  split <;> rfl

theorem switchTo_inSync {calls : FinishCalls} (hm : calls.metadata = .ok ())
    (hs : policy = .always → calls.syncActive = .ok ()) {file : QueuedFile UInt8}
    (hfile : file.inFlight = none) : (w.switchTo policy calls file).2.InSync := by
  have hsync : (if policy = .always then calls.syncActive else .ok ()) = .ok () := by
    split_ifs with hp
    · exact hs hp
    · rfl
  unfold switchTo
  rw [hm, hsync]
  exact congrArg List.length (QueuedFile.contents_of_none hfile).symm

theorem finishRewrite_inSync (h : w.InSync) {calls : FinishCalls} (hm : calls.metadata = .ok ())
    (hk : WriterStep.KeepsSize policy (w, .finishRewrite calls)) :
    (w.finishRewrite policy calls).2.InSync := by
  unfold finishRewrite
  cases hb : w.rewriteBuffer with
  | none => exact h
  | some buffer =>
      dsimp only
      cases hr : replacement calls buffer with
      | error e => exact h
      | ok file =>
          obtain ⟨temp, hren, rfl⟩ := replacement_eq_ok.mp hr
          exact switchTo_inSync hm (hk buffer temp hb hren) (QueuedFile.settle_inFlight _)

/-- What a `Write` does to the file: it appends the frame or leaves the file as it was. -/
def WriteExact (policy : FsyncPolicy) : Writer × WriterStep → Prop
  | (w, .write bytes calls) => (w.write policy bytes calls).2.file.contents =
      match (w.write policy bytes calls).1 with
      | .ok () => w.file.contents ++ bytes
      | .error _ => w.file.contents
  | _ => True

theorem handle_inSync (h : w.InSync) {step : WriterStep} (hl : step.LengthCallsSucceed)
    (hk : WriterStep.KeepsSize policy (w, step)) :
    (w.handle policy step).2.InSync ∧ WriteExact policy (w, step) := by
  cases step with
  | write bytes calls => exact write_spec h bytes hl hk
  | startRewrite =>
      refine ⟨?_, trivial⟩
      unfold handle startRewrite
      dsimp only
      split_ifs <;> exact h
  | finishRewrite calls => exact ⟨finishRewrite_inSync h hl hk, trivial⟩
  | abortRewrite reason => exact ⟨h, trivial⟩
  | tick syncData =>
      refine ⟨?_, trivial⟩
      unfold handle tick
      dsimp only
      split_ifs
      · cases syncData <;> exact settle_inSync.mpr h
      · exact h
  | land => exact ⟨settle_inSync.mpr h, trivial⟩

/-- The writer after a run, and the steps taken in it. -/
abbrev after (policy : FsyncPolicy) : List WriterStep → Writer → Writer :=
  run fun step w => (w.handle policy step).2

abbrev stepsTaken (policy : FsyncPolicy) :
    List WriterStep → Writer → List (Writer × WriterStep) :=
  taken fun step w => (w.handle policy step).2

/-- In a run in which no write fails unnoticed and no sync fails after a rename, the stored
size is the length of the file throughout, and a failed write leaves the file as it was. -/
theorem rollback_exact (policy : FsyncPolicy) (file : Bytes) (steps : List WriterStep)
    (hl : ∀ step ∈ steps, step.LengthCallsSucceed)
    (hk : ∀ t ∈ stepsTaken policy steps (spawnWriter file), WriterStep.KeepsSize policy t) :
    (∀ t ∈ stepsTaken policy steps (spawnWriter file), t.1.InSync ∧ WriteExact policy t) ∧
      (after policy steps (spawnWriter file)).InSync := by
  have hok : ∀ t ∈ stepsTaken policy steps (spawnWriter file),
      t.2.LengthCallsSucceed ∧ WriterStep.KeepsSize policy t :=
    fun t ht => ⟨hl t.2 (label_mem ht), hk t ht⟩
  have hstep : ∀ (w : Writer) (step : WriterStep), w.InSync →
      step.LengthCallsSucceed ∧ WriterStep.KeepsSize policy (w, step) →
        (w.handle policy step).2.InSync :=
    fun w step h hs => (handle_inSync h hs.1 hs.2).1
  have hstart : (spawnWriter file).InSync := rfl
  obtain ⟨hstates, hlast⟩ := kept hstep hstart hok
  exact ⟨fun t ht => ⟨hstates t ht,
    (handle_inSync (hstates t ht) (hok t ht).1 (hok t ht).2).2⟩, hlast⟩

/-- Under `always` the write of one byte fails, and the sync behind it does not. -/
def unnoticedFailure : List WriterStep :=
  [.write [65] { writeAll := .error (0, "No space left on device") }]

/-- The write is acknowledged, the stored size is ahead of the file, and the rollback of the
next write puts a zero into the file, where the acknowledged byte should be. -/
theorem failed_write_acknowledged :
    (∀ step ∈ unnoticedFailure, step.LengthCallsSucceed) ∧
    ((spawnWriter []).write .always [65]
      { writeAll := .error (0, "No space left on device") }).1 = .ok () ∧
    (after .always unnoticedFailure (spawnWriter [])).file.bytes = [] ∧
    (after .always unnoticedFailure (spawnWriter [])).stats.currentSize = 1 ∧
    ((after .always unnoticedFailure (spawnWriter [])).write .always [67] {}).1 =
      .error "No space left on device" ∧
    ((after .always unnoticedFailure (spawnWriter [])).write .always [67] {}).2.file.bytes =
      [0] := by
  refine ⟨?_, rfl, rfl, rfl, rfl, rfl⟩
  simp [unnoticedFailure, WriterStep.LengthCallsSucceed]

/-- A rewrite in which one write is acknowledged, and whose last sync fails. -/
def unsyncedRewrite : List WriterStep :=
  [.startRewrite, .write [65] {},
    .finishRewrite { openTemp := .ok [66], syncActive := .error "Input/output error" }]

/-- Without the other condition a failed write cuts the acknowledged byte off. -/
example : (after .always unsyncedRewrite (spawnWriter [])).file.bytes = [66, 65] ∧
    (after .always unsyncedRewrite (spawnWriter [])).stats.currentSize = 1 ∧
    ((after .always unsyncedRewrite (spawnWriter [])).write .always [67]
      { syncData := .error "Input/output error" }).2.file.bytes = [66] := ⟨rfl, rfl, rfl⟩

/-- The second write of this run fails in its sync, and is undone. -/
def noticedFailure : List WriterStep :=
  [.write [65] {}, .write [66] { syncData := .error "Input/output error" }]

theorem rollback_exact_noticedFailure :
    (∀ t ∈ stepsTaken .always noticedFailure (spawnWriter []),
      t.1.InSync ∧ WriteExact .always t) ∧
      (after .always noticedFailure (spawnWriter [])).InSync := by
  refine rollback_exact .always [] noticedFailure ?_ ?_
  · simp [noticedFailure, WriterStep.LengthCallsSucceed]
  · exact List.forall_mem_cons.mpr ⟨fun _ => rfl, List.forall_mem_singleton.mpr fun _ => rfl⟩

end Writer
end MiniRedis.Aof
