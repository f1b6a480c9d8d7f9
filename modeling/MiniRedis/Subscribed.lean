import MiniRedis.Connection
import MiniRedis.Server

/-!
# Subscribed mode

`run_subscribed` as a system of steps. A call stands at a point of its body: in front of
an access to the pub/sub table, in an awaited write, or in `select!`. Between two steps
of one call, other calls, the forwarder tasks and `PUBLISH` may take theirs. How a read
or a write ends is part of the step. A channel is a list of messages, and only the
receivers of broadcast channels are counted.
-/
namespace MiniRedis.PubSub
open Wire

variable {host : Host}

def pubsubOutputCap : ℕ := 1024
def pubsubChanCap : ℕ := 1024

/-- A forwarder task, which drops its receiver when it ends. -/
structure Forwarder where
  /-- The messages that the receiver has not returned yet. -/
  receiver : Option (List Bytes)

/-- Where the body goes on after a write or a collection. -/
inductive Place where
  /-- In front of `subscribe_one` for the first channel of the rest of the loop. -/
  | subscribing (channels : List Bytes)
  | select
  | unsubscribing (channels : List Bytes)
  /-- The loop over `tasks` at the end. -/
  | cleaning

inductive Point where
  | running (place : Place)
  /-- The forwarder of the channel has been awaited, `pubsub_gc` is next, then the reply. -/
  | collecting (channel : Bytes) (ack : Option Frame) (next : Place)
  /-- In `write_frame`, with a `?` behind it. -/
  | writing (frame : Frame) (next : Place)
  /-- In a `write_frame` whose result is ignored, in front of `return Err`. -/
  | failing (frame : Frame)
  | returned (ok : Bool)

/-- A call of `run_subscribed`. -/
structure Subscriber where
  /-- The forwarders by channel. Once the call has returned their handles are dropped,
  and those that have not ended are detached. -/
  tasks : HashMap Bytes Forwarder := ∅
  /-- What `msg_rx` has not returned yet. -/
  out : List (Bytes × Bytes) := []
  /-- The same for `slow_rx`. -/
  slow : List Bytes := []
  point : Point

/-- How `read_frame` ends; the clock is that of `from_frame`. -/
inductive ReadResult where
  | eof
  | frame (now : ExpireAt) (frame : Frame)
  | protocol (message : String)
  /-- An idle timeout, a stream that ends in a frame, or an error of the socket. -/
  | failed

def ackSubscribe (tag : String) (channel : Bytes) (count : ℕ) : Frame :=
  .array [bulk tag, .bulk channel, .integer (Int64.ofNat count)]

namespace Subscriber

/-- `subscribe_one`: nothing happens if the channel has a forwarder, even one that has ended. -/
def subscribeOne (db : Db host) (sub : Subscriber) (channel : Bytes) : Db host × Subscriber :=
  if (sub.tasks.lookup channel).isSome then (db, sub)
  else (db.pubsubSubscribe channel,
    { sub with tasks := sub.tasks.insert channel ⟨some []⟩ })

/-- `h.abort()`, and `h.await` behind it. -/
def abort (db : Db host) (channel : Bytes) (h : Forwarder) : Db host :=
  if h.receiver.isSome then db.dropReceiver channel else db

/-- Where the first arm of `select!` goes. -/
def onRead (sub : Subscriber) : ReadResult → Point
  | .eof => .running .cleaning
  | .protocol msg => .failing (Server.protocolErrorFrame msg)
  | .failed => .returned false
  | .frame now frame =>
      match Command.fromFrame now frame with
      | .ok (.subscribe channels) => .running (.subscribing channels)
      | .ok (.unsubscribe channels) =>
          let channels := channels.getD (sub.tasks.entries.map (·.1))
          if channels.isEmpty then
            .writing (.array [bulk "unsubscribe", .null, .integer 0]) .cleaning
          else .running (.unsubscribing channels)
      | .ok (.ping msg) => .writing (.array [bulk "pong", .bulk (msg.getD [])]) .select
      | .ok _ => .writing (.error "ERR Can't execute command in subscribed context") .select
      | .error err =>
          match Server.commandParseErrorFrame err with
          | none => .running .select
          | some frame => if err.isProtocolError then .failing frame else .writing frame .select

/-- `tasks.remove`, and what is done with the handle up to `pubsub_gc`. -/
def stop (db : Db host) (sub : Subscriber) (channel : Bytes) (h : Forwarder) (ack : Option Frame)
    (next : Place) : Db host × Subscriber :=
  (abort db channel h,
    { sub with tasks := sub.tasks.erase channel, point := .collecting channel ack next })

/-- What the body does at a point where it does not wait. -/
def advance (db : Db host) (sub : Subscriber) : Option (Db host × Subscriber) :=
  match sub.point with
  | .running (.subscribing []) => some (db, { sub with point := .running .select })
  | .running (.subscribing (channel :: channels)) =>
      let r := sub.subscribeOne db channel
      some (r.1, { r.2 with
        point := .writing (ackSubscribe "subscribe" channel r.2.tasks.entries.length)
          (.subscribing channels) })
  | .running (.unsubscribing []) =>
      some (db, { sub with
        point := .running (if sub.tasks.entries.isEmpty then .cleaning else .select) })
  | .running (.unsubscribing (channel :: channels)) =>
      let count := (sub.tasks.erase channel).entries.length
      let ack := ackSubscribe "unsubscribe" channel count
      match sub.tasks.lookup channel with
      | some h => some (sub.stop db channel h (some ack) (.unsubscribing channels))
      | none => some (db, { sub with point := .writing ack (.unsubscribing channels) })
  | .running .cleaning =>
      match sub.tasks.entries with
      | [] => some (db, { sub with point := .returned true })
      | e :: _ => some (sub.stop db e.1 e.2 none .cleaning)
  | .collecting channel ack next =>
      some (db.pubsubGc channel, { sub with
        point := match ack with
          | some frame => .writing frame next
          | none => .running next })
  | .running .select | .writing .. | .failing _ | .returned _ => none

/-- The end of a write; `write_frame` refuses a frame beyond the output limit by itself. -/
def write (sub : Subscriber) (ok : Bool) : Option Subscriber :=
  match sub.point with
  | .writing frame next =>
      match Connection.writeFrame frame with
      | .ok _ => some { sub with point := if ok then .running next else .returned false }
      | .error _ => some { sub with point := .returned false }
  | .failing _ => some { sub with point := .returned false }
  | _ => none

def read (sub : Subscriber) (result : ReadResult) : Option Subscriber :=
  match sub.point with
  | .running .select => some { sub with point := sub.onRead result }
  | _ => none

/-- The second arm of `select!`. -/
def recv (sub : Subscriber) : Option Subscriber :=
  match sub.point, sub.out with
  | .running .select, (channel, message) :: out => some { sub with
      out := out
      point := .writing (.array [bulk "message", .bulk channel, .bulk message]) .select }
  | _, _ => none

/-- The third arm of `select!`, which leaves the loop. -/
def closeSlow (sub : Subscriber) : Option Subscriber :=
  match sub.point, sub.slow with
  | .running .select, _ :: slow => some { sub with
      slow := slow
      point := .writing (.error "ERR subscriber output buffer limit exceeded") .cleaning }
  | _, _ => none

def hasReturned (sub : Subscriber) : Bool :=
  match sub.point with
  | .returned _ => true
  | _ => false

/-- A forwarder ends by itself. -/
def endForwarder (db : Db host) (sub : Subscriber) (channel : Bytes) : Db host × Subscriber :=
  (db.dropReceiver channel, { sub with tasks := sub.tasks.insert channel ⟨none⟩ })

/-- A turn of the loop of a forwarder that has a message or has fallen behind. -/
def forward (db : Db host) (sub : Subscriber) (channel : Bytes) : Option (Db host × Subscriber) :=
  match (sub.tasks.lookup channel).bind Forwarder.receiver with
  | none | some [] => none
  | some (message :: rest) =>
      if pubsubChanCap < (message :: rest).length then
        some (endForwarder db { sub with slow := sub.slow ++ [channel] } channel)
      else if sub.hasReturned then some (endForwarder db sub channel)
      else if sub.out.length < pubsubOutputCap then
        some (db, { sub with
          tasks := sub.tasks.insert channel ⟨some rest⟩
          out := sub.out ++ [(channel, message)] })
      else some (endForwarder db { sub with slow := sub.slow ++ [channel] } channel)

/-- A message comes to the forwarder of its channel. -/
def deliver (channel message : Bytes) (sub : Subscriber) : Subscriber :=
  match (sub.tasks.lookup channel).bind Forwarder.receiver with
  | some queue => { sub with tasks := sub.tasks.insert channel ⟨some (queue ++ [message])⟩ }
  | none => sub

end Subscriber

/-- A step of a call or of one of its forwarders. -/
inductive Turn where
  | advance
  | write (ok : Bool)
  | read (result : ReadResult)
  | recv
  | closeSlow
  | forward (channel : Bytes)

def Subscriber.turn (db : Db host) (sub : Subscriber) : Turn → Option (Db host × Subscriber)
  | .advance => sub.advance db
  | .write ok => (sub.write ok).map (db, ·)
  | .read result => (sub.read result).map (db, ·)
  | .recv => sub.recv.map (db, ·)
  | .closeSlow => sub.closeSlow.map (db, ·)
  | .forward channel => sub.forward db channel

/-- The database and the calls of `run_subscribed` so far. -/
structure World (host : Host) (Call : Type) where
  db : Db host
  calls : Call → Option Subscriber

inductive Event (Call : Type) where
  /-- `handle` calls `run_subscribed`. -/
  | call (c : Call) (channels : List Bytes)
  | turn (c : Call) (turn : Turn)
  | publish (channel message : Bytes)

namespace World
variable {Call : Type} [DecidableEq Call]

def start : World host Call := ⟨Db.new, fun _ => none⟩

/-- One step; where it cannot be taken, nothing happens. -/
def step : Event Call → World host Call → World host Call
  | .call c channels, w =>
      if (w.calls c).isSome then w
      else { w with
        calls := Function.update w.calls c (some { point := .running (.subscribing channels) }) }
  | .turn c turn, w =>
      match (w.calls c).bind fun sub => sub.turn w.db turn with
      | some (db, sub) => ⟨db, Function.update w.calls c (some sub)⟩
      | none => w
  | .publish channel message, w =>
      ⟨(w.db.pubsubPublish channel).2,
        fun c => (w.calls c).map (Subscriber.deliver channel message)⟩

end World
end MiniRedis.PubSub
