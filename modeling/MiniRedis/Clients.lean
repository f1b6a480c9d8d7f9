import MiniRedis.CommandSections
import MiniRedis.Linearization

/-!
# Concurrent clients

The branches of `handle` that answer a request, as steps of connection tasks. A task locks
one shard, takes or drops the gate, or hears from the writer of the append-only file; in
between, other tasks may move. A write takes the gate alone. Everything else runs without
it.
-/
namespace MiniRedis.Clients
open AtomicPrograms Linearization

variable {host : Host}

inductive Request where
  | command (cmd : Command)
  /-- `INFO`, with what the other parts of the server tell it. -/
  | info (aof : Option AofStats) (state : Option ServerState) (section_ : Option String)
  /-- What a subscribed connection does to the pub/sub table under its lock. -/
  | pubsub (act : HashMap Bytes Sender → HashMap Bytes Sender)

namespace Request

def isWrite : Request → Bool
  | command cmd => cmd.isWrite
  | _ => false

def mutatedKeys : Request → List Bytes
  | command cmd => cmd.mutatedKeys
  | _ => []

def aofFrame (now : ExpireAt) : Request → Option Frame
  | command cmd => if cmd.isWrite then cmd.aofFrame now else none
  | _ => none

def sections : Request → Sections host
  | command cmd => cmd.sections
  | info aof state section_ => infoSections aof state section_
  | pubsub act => Cmd.once fun _ db => (.null, { db with pubsub := act db.pubsub })

/-- The request looks at the entry of the key without the gate. -/
def reads : Request → Bytes → Bool
  | command (.info section_), _ => infoIncludes section_ "memory"
  | command cmd, key => cmd.readKeys.contains key
  | info _ _ section_, _ => infoIncludes section_ "memory"
  | pubsub _, _ => false

end Request

/-- Where a connection task stands. -/
inductive Stage (host : Host) where
  /-- In `pause_writes`. -/
  | waiting
  /-- In `snapshot_entries`, in front of the lock for the first of the keys. -/
  | saving (left : List Bytes)
  | applying (rest : Sections host)
  /-- In `write`, with the reply in hand. -/
  | appending (reply : Frame)
  /-- In `restore_entries`. -/
  | restoring (error : Frame) (left : List (Bytes × Option Entry))
  /-- In front of the drop of the guard. -/
  | releasing (result : Except Frame Frame)
  /-- In `apply`, without the gate. -/
  | reading (rest : Sections host)
  /-- In front of `write_frame`. -/
  | answering (result : Except Frame Frame)
  | answered (result : Except Frame Frame)

/-- A request and how far its task has come; `readings` are those of the clock. -/
structure Task (host : Host) where
  request : Request
  aofFrame : Option Frame
  rollback : List (Bytes × Option Entry) := []
  readings : List ExpireAt := []
  stage : Stage host

namespace Task

def new (now : ExpireAt) (req : Request) : Task host where
  request := req
  aofFrame := req.aofFrame now
  stage := if req.isWrite then .waiting else .reading req.sections

/-- A task whose last critical section is over goes on. -/
def settle (aof : Bool) (t : Task host) : Task host :=
  match t.stage with
  | .applying (.done reply) => { t with
      stage := if !reply.isError && aof && t.aofFrame.isSome then .appending reply
        else .releasing (.ok reply) }
  | .reading (.done reply) => { t with stage := .answering (.ok reply) }
  | _ => t

/-- In front of the critical sections of a write. -/
def apply (aof : Bool) (t : Task host) : Task host :=
  ({ t with stage := .applying t.request.sections } : Task host).settle aof

/-- The task after a critical section. -/
def ran (now : ExpireAt) (stage : Stage host) (t : Task host) : Task host :=
  { t with readings := t.readings ++ [now], stage := stage }

/-- The answer of the writer; an error leads to the rollback. -/
def acknowledge (t : Task host) (reply : Frame) : Except String Unit → Task host
  | .ok () => { t with stage := .releasing (.ok reply) }
  | .error e => { t with
      stage := .restoring (.error s!"ERR AOF write failed: {e}") t.rollback }

end Task

structure World (host : Host) (Call : Type) where
  /-- The server has an append-only file. -/
  aof : Bool
  db : Db host
  /-- Who holds the gate. -/
  gate : Option Call := none
  tasks : Call → Option (Task host) := fun _ => none
  history : List (Mark Call Frame Frame) := []

inductive Event (Call : Type) where
  | request (c : Call) (now : ExpireAt) (request : Request)
  /-- The next step of a task; a critical section reads the clock. -/
  | step (c : Call) (now : ExpireAt)
  | acknowledge (c : Call) (result : Except String Unit)

namespace World
variable {Call : Type} [DecidableEq Call]

def set (w : World host Call) (c : Call) (t : Task host) : World host Call :=
  { w with tasks := Function.update w.tasks c (some t) }

def request (now : ExpireAt) (w : World host Call) (c : Call) (req : Request) : World host Call :=
  { w with history := w.history ++ [Mark.invoked c] }.set c ((Task.new now req).settle w.aof)

/-- The next step of task `t`, where it does not wait for the writer. -/
def advance (now : ExpireAt) (w : World host Call) (c : Call) (t : Task host) :
    World host Call :=
  match t.stage with
  | .waiting =>
      match w.gate with
      | some _ => w
      | none => { w with gate := some c }.set c
          (if w.aof then { t with stage := .saving (sortDedup t.request.mutatedKeys) }
            else t.apply w.aof)
  | .saving [] => w.set c (t.apply w.aof)
  | .saving (key :: keys) => w.set c
      { t with rollback := t.rollback ++ [(key, w.db.entry key)], stage := .saving keys }
  | .applying (.atomic act next) => { w with db := act now w.db }.set c
      ((t.ran now (.applying (next now w.db))).settle w.aof)
  | .restoring error [] => w.set c { t with stage := .releasing (.error error) }
  | .restoring error (s :: left) => { w with db := w.db.restoreEntry s.1 s.2 }.set c
      { t with stage := .restoring error left }
  | .releasing result => { w with gate := none }.set c { t with stage := .answering result }
  | .reading (.atomic act next) => { w with db := act now w.db }.set c
      ((t.ran now (.reading (next now w.db))).settle w.aof)
  | .answering result => { w with history := w.history ++ [Mark.responded c result] }.set c
      { t with stage := .answered result }
  | .applying (.done _) | .appending _ | .reading (.done _) | .answered _ => w

/-- One step; where it cannot be taken, nothing happens. -/
def step : Event Call → World host Call → World host Call
  | .request c now req, w => if (w.tasks c).isSome then w else w.request now c req
  | .step c now, w =>
      match w.tasks c with
      | some t => w.advance now c t
      | none => w
  | .acknowledge c result, w =>
      match w.tasks c with
      | some t =>
          match t.stage with
          | .appending reply => w.set c (t.acknowledge reply result)
          | _ => w
      | none => w

/-- What the request of a call answers and does when it runs alone, with the clock as the
call has read it. -/
def Alone (w : World host Call) (c : Call) (db : Db host) (reply : Frame) (db' : Db host) : Prop :=
  ∃ t, w.tasks c = some t ∧ t.request.sections.after t.readings db = some (.done reply, db')

end World
end MiniRedis.Clients
