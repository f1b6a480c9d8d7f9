import MiniRedis.AofSnapshot
import MiniRedis.AofWriter
import MiniRedis.Compaction
import MiniRedis.Server

/-!
# Writes and rewrites side by side

The clients' writes, the task that rewrites the append-only file and the writer task, as the
source interleaves them. A write takes the gate, runs, sends its frame and waits for the
acknowledgement; a rewrite takes the gate for the start of the buffering and for the capture
of the entries, and writes the temporary file without it. Reads and sweeps come in between at
any time. How the calls to the operating system end is part of an event, and time passes by
events of its own.
-/
namespace MiniRedis.RewriteProtocol
open Aof Wire Compaction

variable {host : Host} {Call : Type}

/-- A write that was executed, with the reading of the clock. -/
structure Write (Call : Type) where
  call : Call
  now : ExpireAt
  cmd : Command
  frame : Frame

namespace Write

/-- The encoded frame that `AofHandle::write` sends. -/
def bytes (r : Write Call) : Bytes := encode r.frame []

def apply (r : Write Call) (db : Db host) : Db host := (r.cmd.apply r.now db).2

end Write

/-- A write between its execution and its acknowledgement. -/
structure Pending (host : Host) (Call : Type) where
  write : Write Call
  reply : Frame
  rollback : List (Bytes × Option Entry)
  succeeded : reply.isError = false

/-- Where a connection task stands with a write; `result` is an error if the append failed. -/
inductive Stage (host : Host) (Call : Type) where
  /-- In `pause_writes`. -/
  | waiting (cmd : Command) (aofFrame : Option Frame)
  /-- The gate is taken. -/
  | holding (cmd : Command) (aofFrame : Option Frame)
  /-- In front of `AofHandle::write`. -/
  | applied (p : Pending host Call)
  | appending (p : Pending host Call)
  | acknowledged (p : Pending host Call) (result : CallResult)
  /-- In front of the drop of the guard. -/
  | releasing (result : Except Frame Frame)
  | answered (result : Except Frame Frame)

/-- What `aof_snapshot_entries` returned, and when. -/
structure Capture where
  instant : ExpireAt
  entries : List (Bytes × Entry)

/-- Where `rewrite_inner` stands. -/
inductive TaskStage where
  /-- There is no task. -/
  | idle
  /-- In `pause_writes`. -/
  | pausing
  /-- The gate is taken. -/
  | holding
  /-- In `start_rewrite_buffering`. -/
  | starting
  | started (result : CallResult)
  /-- In front of the drop of the guard. -/
  | captured (capture : Capture)
  /-- In `write_snapshot_entries`, in front of the opening of the temporary file. -/
  | opening (capture : Capture)
  | writing (capture : Capture) (left : List (Bytes × Entry))
  /-- In `finish_rewrite`. -/
  | finishing (capture : Capture)
  /-- In `abort_rewrite`. -/
  | aborting (reason : String)
  /-- In front of `finish_rewrite_stats`. -/
  | ending (result : CallResult)

inductive Message (Call : Type) where
  | write (c : Call) (bytes : Bytes)
  | startRewrite
  | finishRewrite
  | abortRewrite (reason : String)

inductive Party (Call : Type) where
  | client (c : Call)
  | rewrite

/-- The captured entries and what was written of them. -/
structure Image where
  capture : Capture
  bytes : Bytes

structure World (host : Host) (Call : Type) where
  clock : ExpireAt
  db : Db host
  /-- Who holds the gate. -/
  gate : Option (Party Call) := none
  clients : Call → Option (Stage host Call) := fun _ => none
  task : TaskStage := .idle
  queue : List (Message Call) := []
  writer : Writer
  /-- The temporary file, as the task sees it. -/
  temp : QueuedFile UInt8 := { bytes := [] }
  /-- What the writer has acknowledged. -/
  history : List (Mark (Write Call) Image) := []

/-- How a call of the rewrite task ends; the writes of an entry are taken together. -/
abbrev TaskResult := PushResult

inductive Event (Call : Type) where
  | pass (ms : ℕ)
  | read (cmd : Command)
  | sweep
  | request (c : Call) (cmd : Command)
  | client (c : Call)
  | schedule
  | rewrite (result : TaskResult)
  /-- The writer takes the next message. -/
  | writer (calls : Writer.WriteCalls) (finish : Writer.FinishCalls)
  /-- The timer of the writer. -/
  | tick (syncData : CallResult)
  /-- The end of the write that is in flight to the log. -/
  | land

/-- `finish_rewrite_stats`. -/
def finishRewriteStats (now : ExpireAt) (result : CallResult) (w : Writer) : Writer :=
  let err := match result with
    | .ok () => none
    | .error e => some e
  { w with stats := { w.stats with
      lastRewriteOk := err.isNone
      lastRewriteFinishedMs := now
      rewriteCount := w.stats.rewriteCount + 1
      lastError := err
      rewriteInProgress := false } }

namespace World

/-- The world with a client's task at a stage. -/
def set [DecidableEq Call] (w : World host Call) (c : Call) (stage : Stage host Call) :
    World host Call :=
  { w with clients := Function.update w.clients c (some stage) }

def send (w : World host Call) (m : Message Call) : World host Call :=
  { w with queue := w.queue ++ [m] }

/-! ## Clients -/

/-- The command of a client that holds the gate. -/
def execute [DecidableEq Call] (w : World host Call) (c : Call) (cmd : Command)
    (aofFrame : Option Frame) : World host Call :=
  let rollback := w.db.snapshotEntries cmd.mutatedKeys
  let r := cmd.apply w.clock w.db
  { w with db := r.2 }.set c <|
    if h : r.1.isError = true then .releasing (.ok r.1)
    else match aofFrame with
      | none => .releasing (.ok r.1)
      | some frame => .applied {
          write := { call := c, now := w.clock, cmd := cmd, frame := frame }
          reply := r.1
          rollback := rollback
          succeeded := Bool.not_eq_true _ ▸ h }

/-- The next step of a connection task; one that waits for another party stays. -/
def client [DecidableEq Call] (w : World host Call) (c : Call) : Stage host Call → World host Call
  | .waiting cmd aofFrame =>
      match w.gate with
      | some _ => w
      | none => { w with gate := some (.client c) }.set c (.holding cmd aofFrame)
  | .holding cmd aofFrame => w.execute c cmd aofFrame
  | .applied p =>
      if w.writer.stats.writeFailed then
        w.set c (.acknowledged p (.error "AOF writer is in failed state"))
      else (w.send (.write c p.write.bytes)).set c (.appending p)
  | .appending _ => w
  | .acknowledged p (.ok ()) => w.set c (.releasing (.ok p.reply))
  | .acknowledged p (.error e) => { w with db := w.db.restoreEntries p.rollback }.set c
      (.releasing (.error (.error s!"ERR AOF write failed: {e}")))
  | .releasing result => { w with gate := none }.set c (.answered result)
  | .answered _ => w

/-- A new write; its frame is made before the gate is taken. -/
def request [DecidableEq Call] (w : World host Call) (c : Call) (cmd : Command) :
    World host Call :=
  match w.clients c with
  | some _ => w
  | none => if cmd.isWrite then w.set c (.waiting cmd (cmd.aofFrame w.clock)) else w

/-! ## The rewrite task -/

/-- `schedule_rewrite` and `rewrite_now`. -/
def schedule (w : World host Call) : World host Call :=
  if w.writer.stats.rewriteInProgress then w
  else { w with
    writer := { w.writer with stats := { w.writer.stats with rewriteInProgress := true } }
    task := .pausing }

def abort (w : World host Call) (reason : String) : World host Call :=
  { w.send (.abortRewrite reason) with task := .aborting reason }

/-- The next step of `rewrite_inner`; each entry is written at its own time. The sync behind the
last one waits for what is in flight, whose error is lost with the handle. A temporary file that
is left over is cut when the next rewrite opens it. -/
def rewrite (w : World host Call) (result : TaskResult) : World host Call :=
  match w.task with
  | .idle | .starting | .finishing _ | .aborting _ => w
  | .pausing =>
      match w.gate with
      | some _ => w
      | none => { w with gate := some .rewrite, task := .holding }
  | .holding => { w.send .startRewrite with task := .starting }
  | .started (.error e) => { w with gate := none, task := .ending (.error e) }
  | .started (.ok ()) =>
      { w with task := .captured ⟨w.clock, w.db.aofSnapshotEntries w.clock⟩ }
  | .captured capture => { w with gate := none, task := .opening capture }
  | .opening capture =>
      match result with
      | .ok _ => { w with temp := { bytes := [] }, task := .writing capture capture.entries }
      | .error (_, e) => w.abort e
  | .writing capture ((key, entry) :: left) =>
      match writeSnapshotEntry w.clock key entry with
      | .error e => w.abort e
      | .ok bytes =>
          match w.temp.push bytes 0 result with
          | (.ok (), temp) => { w with temp := temp, task := .writing capture left }
          | (.error e, temp) => { w with temp := temp }.abort e
  | .writing capture [] =>
      let w := { w with temp := w.temp.settle }
      match result with
      | .ok _ => { w.send .finishRewrite with task := .finishing capture }
      | .error (_, e) => w.abort e
  | .ending result =>
      { w with writer := finishRewriteStats w.clock result w.writer, task := .idle }

/-! ## The writer -/

/-- The mark of a message that was acknowledged without an error. -/
def marks (result : CallResult) (mark : Mark (Write Call) Image) :
    List (Mark (Write Call) Image) :=
  match result with
  | .ok () => [mark]
  | .error _ => []

/-- The acknowledgement of a `Write`. -/
def acknowledge [DecidableEq Call] (w : World host Call) (c : Call) (result : CallResult) :
    World host Call :=
  match w.clients c with
  | some (.appending p) =>
      { w with history := w.history ++ marks result (.recorded p.write) }.set c
        (.acknowledged p result)
  | _ => w

/-- The mark of a `FinishRewrite`, if the temporary file takes the place of the log. -/
def switched (w : World host Call) (calls : Writer.FinishCalls) :
    List (Mark (Write Call) Image) :=
  match w.task, w.writer.rewriteBuffer with
  | .finishing capture, some buffer =>
      match Writer.replacement calls buffer with
      | .ok _ => [.switched ⟨capture, w.temp.bytes⟩]
      | .error _ => []
  | _, _ => []

/-- One message of `run_writer`. Opening the temporary file shows what the task has written. -/
def deliver [DecidableEq Call] (policy : FsyncPolicy) (calls : Writer.WriteCalls)
    (finish : Writer.FinishCalls) (w : World host Call) : Message Call → World host Call
  | .write c bytes =>
      let r := w.writer.write policy bytes calls
      { w with writer := r.2 }.acknowledge c r.1
  | .startRewrite =>
      let r := w.writer.startRewrite
      { w with
        writer := r.2
        task := .started r.1
        history := w.history ++ marks r.1 .began }
  | .finishRewrite =>
      let finish := { finish with openTemp := finish.openTemp.map fun _ => w.temp.bytes }
      let r := w.writer.finishRewrite policy finish
      { w with
        writer := r.2
        task := .ending r.1
        history := w.history ++ w.switched finish }
  | .abortRewrite reason =>
      { w with writer := w.writer.abortRewrite reason, task := .ending (.error reason) }

/-! ## Steps -/

def step [DecidableEq Call] (policy : FsyncPolicy) :
    Event Call → World host Call → World host Call
  | .pass ms, w => { w with clock := w.clock + ms }
  | .read cmd, w => if cmd.isWrite then w else { w with db := (cmd.apply w.clock w.db).2 }
  | .sweep, w => { w with db := w.db.sweepOnce w.clock }
  | .request c cmd, w => w.request c cmd
  | .client c, w =>
      match w.clients c with
      | some stage => w.client c stage
      | none => w
  | .schedule, w => w.schedule
  | .rewrite result, w => w.rewrite result
  | .writer calls finish, w =>
      match w.queue with
      | [] => w
      | m :: queue => { w with queue := queue }.deliver policy calls finish m
  | .tick syncData, w =>
      { w with writer := if policy = .everySec then w.writer.tick syncData else w.writer }
  | .land, w => { w with writer := w.writer.settle }

/-- The server after its start, on a file that was replayed. -/
def start (now : ExpireAt) (db : Db host) (file : Bytes) : World host Call where
  clock := now
  db := db
  writer := spawnWriter file

end World
end MiniRedis.RewriteProtocol
