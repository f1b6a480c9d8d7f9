import MiniRedis.CommandSections
import MiniRedis.LazyExpiry
import MiniRedis.ResponseLimit

/-!
# A server on a plain map

What the database is for: a map from keys to values with deadlines, on which one command runs
after the other and from which an entry is gone at its deadline. There are no shards and no
hash of a key, no index of deadlines and nothing that is swept. Every run of the database is a
run of this map with the same replies.
-/
namespace MiniRedis

variable {host : Host}

namespace Keyspace

/-- The entries of a keyspace, each key once, in some order. -/
structure Lists (ks : Keyspace) (l : List (Bytes × Entry)) : Prop where
  nodup : (l.map Prod.fst).Nodup
  mem : ∀ k entry, (k, entry) ∈ l ↔ ks k = some entry

theorem Lists.perm {ks : Keyspace} {l l' : List (Bytes × Entry)} (h : ks.Lists l)
    (h' : ks.Lists l') : l.Perm l' := by
  refine (List.perm_ext_iff_of_nodup h.nodup.of_map h'.nodup.of_map).mpr ?_
  rintro ⟨k, entry⟩
  rw [h.mem, h'.mem]

open Classical in
/-- The statistics of a keyspace, whatever order its entries are counted in. -/
noncomputable def stats (ks : Keyspace) : DbStats :=
  if h : ∃ l, ks.Lists l then h.choose.foldl (fun stats e => stats.count e.1 e.2) {} else {}

theorem Lists.stats_eq {ks : Keyspace} {l : List (Bytes × Entry)} (h : ks.Lists l) :
    ks.stats = l.foldl (fun stats e => stats.count e.1 e.2) {} := by
  have hex : ∃ l, ks.Lists l := ⟨l, h⟩
  rw [stats, dif_pos hex]
  exact (hex.choose_spec.perm h).foldl_eq _

def read (ks : Keyspace) (key : Bytes) (missing : Frame) (found : Value → Frame) : Frame :=
  match ks key with
  | some entry => found entry.value
  | none => missing

/-- The time until the deadline of a key, in a unit of so many milliseconds. -/
def timeLeft (now : ExpireAt) (ks : Keyspace) (key : Bytes) (unit : ℕ) : Frame :=
  match ks key with
  | none => .integer (-2)
  | some ⟨_, none⟩ => .integer (-1)
  | some ⟨_, some t⟩ => .integer (Cmd.saturatingI64 ((t - now) / unit))

end Keyspace

theorem Db.Valid.lists {db : Db host} (h : db.Valid) (now : ExpireAt) :
    (db.view now).Lists (db.liveEntries now) :=
  ⟨h.nodup_liveEntries, fun _ _ => h.mem_liveEntries⟩

theorem Db.Valid.stats_view {db : Db host} (h : db.Valid) (now : ExpireAt) :
    (db.view now).stats = db.stats now := by
  rw [(h.lists now).stats_eq, Db.stats_eq]

namespace Command
open Cmd Wire

/-- The channel on which a command publishes. -/
def channel : Command → Option Bytes
  | publish channel _ => some channel
  | _ => none

/-- What a command answers on a keyspace that neither writes nor publishes. -/
noncomputable def answer (processId : UInt32) (now : ExpireAt) (ks : Keyspace) : Command → Frame
  | ping none => .simple "PONG"
  | ping (some msg) => .bulk msg
  | echo msg => .bulk msg
  | get k => ks.read k .null fun
      | .string b => .bulk b
      | _ => wrongType
  | strlen k => ks.read k (.integer 0) fun
      | .string b => .integer (Int64.ofNat b.length)
      | _ => wrongType
  | existsKeys keys => .integer (Int64.ofNat (keys.countP fun k => (ks k).isSome))
  | mget keys => limited (.array (keys.map fun k => ks.read k .null fun
      | .string b => .bulk b
      | _ => .null))
  | ttl k => ks.timeLeft now k 1000
  | pttl k => ks.timeLeft now k 1
  | lrange k start stop => limited <| ks.read k (.array []) fun
      | .list list => .array ((rangeOf list start stop).map .bulk)
      | _ => wrongType
  | llen k => ks.read k (.integer 0) fun
      | .list list => .integer (Int64.ofNat list.length)
      | _ => wrongType
  | lindex k i => ks.read k .null fun
      | .list list =>
          match (resolveIndex i list.length).bind (list[·]?) with
          | some v => .bulk v
          | none => .null
      | _ => wrongType
  | hget k f => ks.read k .null fun
      | .hash map =>
          match map.lookup f with
          | some v => .bulk v
          | none => .null
      | _ => wrongType
  | hkeys k => limited <| ks.read k (.array []) fun
      | .hash map => .array (map.entries.map fun e => .bulk e.1)
      | _ => wrongType
  | hvals k => limited <| ks.read k (.array []) fun
      | .hash map => .array (map.entries.map fun e => .bulk e.2)
      | _ => wrongType
  | hgetall k => limited <| ks.read k (.array []) fun
      | .hash map => .array ((map.entries.flatMap fun e => [e.1, e.2]).map .bulk)
      | _ => wrongType
  | hexists k f => ks.read k (.integer 0) fun
      | .hash map => .integer (if (map.lookup f).isSome then 1 else 0)
      | _ => wrongType
  | hlen k => ks.read k (.integer 0) fun
      | .hash map => .integer (Int64.ofNat map.entries.length)
      | _ => wrongType
  | info section_ => infoReport ⟨fun _ => 0, processId⟩ now none none section_ ks.stats
  | bgRewriteAof => .error "ERR AOF is not enabled"
  | subscribe _ | unsubscribe _ =>
      .error "ERR SUBSCRIBE/UNSUBSCRIBE must be handled by connection"
  | unknown name =>
      let safe := replaceCrlf '?' name
      .error s!"ERR unknown command '{safe}'"
  | _ => .null

end Command

structure MapServer where
  keyspace : Keyspace := fun _ => none
  pubsub : HashMap Bytes Sender := ∅

namespace MapServer

/-- A channel without receivers is forgotten when somebody publishes on it. -/
def publish (m : MapServer) (channel : Bytes) : ℕ × MapServer :=
  match m.pubsub.lookup channel with
  | some ⟨0⟩ => (0, { m with pubsub := m.pubsub.erase channel })
  | some ⟨n⟩ => (n, m)
  | none => (0, m)

/-- Entries leave at their deadlines; then the command runs on what is there. -/
noncomputable def apply (processId : UInt32) (now : ExpireAt) (m : MapServer) (c : Command) :
    Frame × MapServer :=
  let m := { m with keyspace := m.keyspace.alive now }
  match c.transaction now with
  | some t => ((t.run m.keyspace).1, { m with keyspace := (t.run m.keyspace).2 })
  | none =>
      match c.channel with
      | some channel => (.integer (Int64.ofNat (m.publish channel).1), (m.publish channel).2)
      | none => (c.answer processId now m.keyspace, m)

/-- A run takes notice of the commands alone. -/
noncomputable def run (processId : UInt32) (m : MapServer) : List Event → List Frame × MapServer
  | [] => ([], m)
  | .command now c :: events =>
      let r := (m.apply processId now c).2.run processId events
      ((m.apply processId now c).1 :: r.1, r.2)
  | .sweep _ :: events => m.run processId events

end MapServer

/-- The map that a database stands for. -/
structure Db.Shows (now : ExpireAt) (db : Db host) (m : MapServer) : Prop where
  view : db.view now = m.keyspace.alive now
  pubsub : db.pubsub = m.pubsub

namespace Cmd
variable {now : ExpireAt} (db : Db host)

theorem readLive_view (key : Bytes) (missing : Frame) (found : Value → Frame) :
    readLive now db key missing found = (db.view now).read key missing found :=
  readLive_eq db key missing found

theorem ttl_view (key : Bytes) (inMs : Bool) :
    ttl now db key inMs = (db.view now).timeLeft now key (if inMs then 1 else 1000) := by
  rw [ttl_eq, Keyspace.timeLeft]
  rcases db.view now key with _ | ⟨value, _ | t⟩
  · rfl
  · rfl
  · cases inMs with
    | true => exact congrArg (fun n => Frame.integer (saturatingI64 n)) (Nat.div_one _).symm
    | false => rfl

end Cmd

namespace Command
open Cmd
variable {now : ExpireAt} {db : Db host}

theorem apply_limited {c : Command} {f : Frame} (h : some (c.apply now db).1 =
    (c.unlimited now db).map limited) (hf : c.unlimited now db = some f) :
    (c.apply now db).1 = limited f := by
  rw [hf] at h
  exact Option.some.inj h

theorem infoFrame_eq (hv : db.Valid) (section_ : Option String) :
    infoFrame now db none none section_ =
      infoReport ⟨fun _ => 0, host.processId⟩ now none none section_ (db.view now).stats := by
  rw [hv.stats_view]
  rfl

/-- The database answers as the keyspace that it shows. -/
theorem apply_answer (hv : db.Valid) {c : Command} (ht : c.transaction now = none)
    (hp : c.channel = none) :
    (c.apply now db).1 = c.answer host.processId now (db.view now) := by
  cases c with
  | ping msg => cases msg <;> rfl
  | get k | strlen k | llen k | lindex k i | hget k f | hexists k f | hlen k =>
      simp only [apply, Cmd.get, Cmd.strlen, Cmd.llen, Cmd.lindex, Cmd.hget, Cmd.hexists, Cmd.hlen,
        readLive_view]
      rfl
  | existsKeys keys => exact existsKeys_eq db keys
  | mget keys =>
      refine (mget_eq now db keys).trans ?_
      have hframe : mgetFrame now db = fun k => (db.view now).read k .null fun
          | .string b => .bulk b
          | _ => .null := funext fun k => readLive_view db k _ _
      rw [hframe]
      rfl
  | ttl k | pttl k => exact ttl_view db k _
  | lrange k start stop =>
      refine (apply_limited (c := .lrange k start stop)
        (lrange_eq now db k start stop) rfl).trans ?_
      rw [readLive_view]
      rfl
  | hkeys k =>
      refine (apply_limited (c := .hkeys k) (hkeys_eq now db k) rfl).trans ?_
      rw [readLive_view]
      rfl
  | hvals k =>
      refine (apply_limited (c := .hvals k) (hvals_eq now db k) rfl).trans ?_
      rw [readLive_view]
      rfl
  | hgetall k =>
      refine (apply_limited (c := .hgetall k) (hgetall_eq now db k) rfl).trans ?_
      rw [readLive_view]
      rfl
  | info section_ => exact infoFrame_eq hv section_
  | publish channel msg => cases hp
  | echo | subscribe | unsubscribe | bgRewriteAof | unknown => rfl
  | _ => cases ht

/-- And stays as it is. -/
theorem apply_keeps {c : Command} (ht : c.transaction now = none) (hp : c.channel = none) :
    (c.apply now db).2 = db := by
  cases c with
  | ping msg => cases msg <;> rfl
  | publish channel msg => cases hp
  | get | existsKeys | echo | strlen | mget | ttl | pttl | lrange | llen | lindex | hget | hkeys
  | hvals | hgetall | hexists | hlen | subscribe | unsubscribe | info | bgRewriteAof
  | unknown => rfl
  | _ => cases ht

theorem apply_publish {c : Command} {channel : Bytes} (hp : c.channel = some channel) :
    c.apply now db = (.integer (Int64.ofNat (db.pubsubPublish channel).1),
      (db.pubsubPublish channel).2) := by
  cases c with
  | publish channel msg =>
      obtain rfl := Option.some.inj hp
      rfl
  | _ => cases hp

end Command

namespace Db.Shows
variable {now : ExpireAt} {db : Db host} {m : MapServer}

theorem later {later : ExpireAt} (h : db.Shows now m) (hn : now ≤ later) : db.Shows later m where
  view := by
    rw [← Db.view_alive hn, h.view]
    funext k
    exact Slot.alive_alive hn (m.keyspace k)
  pubsub := h.pubsub

theorem sweep (h : db.Shows now m) (hv : db.Valid) : (db.sweepOnce now).Shows now m :=
  ⟨(Db.view_sweepOnce hv le_rfl).trans h.view, h.pubsub⟩

theorem publish (h : db.Shows now m) (channel : Bytes) :
    (db.pubsubPublish channel).1 = (m.publish channel).1 ∧
      (db.pubsubPublish channel).2.Shows now (m.publish channel).2 := by
  unfold Db.pubsubPublish MapServer.publish
  rw [h.pubsub]
  rcases m.pubsub.lookup channel with _ | ⟨_ | n⟩
  · exact ⟨rfl, h⟩
  · exact ⟨rfl, h.view, rfl⟩
  · exact ⟨rfl, h⟩

/-- Every command does to the database what it does to the map. -/
theorem apply (h : db.Shows now m) (hv : db.Valid) (c : Command) :
    (c.apply now db).1 = (m.apply host.processId now c).1 ∧
      (c.apply now db).2.Shows now (m.apply host.processId now c).2 := by
  have hr := c.apply_refines now db
  have hm : ({ m with keyspace := m.keyspace.alive now } : MapServer).keyspace = db.view now :=
    h.view.symm
  have hnow : db.Shows now { m with keyspace := m.keyspace.alive now } := by
    refine ⟨?_, h.pubsub⟩
    rw [hm, Db.view_alive_self]
  unfold MapServer.apply
  dsimp only
  cases ht : c.transaction now with
  | some t =>
      rw [ht] at hr
      dsimp only
      rw [← h.view]
      exact ⟨hr.reply, hr.view, hr.pubsub.trans h.pubsub⟩
  | none =>
      dsimp only
      cases hp : c.channel with
      | some channel =>
          obtain ⟨hcount, hshows⟩ := hnow.publish channel
          rw [Command.apply_publish hp]
          exact ⟨congrArg (fun n => Frame.integer (Int64.ofNat n)) hcount, hshows⟩
      | none =>
          rw [Command.apply_keeps ht hp, Command.apply_answer hv ht hp, ← h.view]
          exact ⟨rfl, h.view ▸ hnow⟩

end Db.Shows

namespace Db

/-- Every run of commands and sweeps is a run of the plain map, whatever the hash of the keys is
and wherever the sweeps are. -/
theorem run_shows {db : Db host} {m : MapServer} {start : ExpireAt} {events : List Event}
    (hv : db.Valid) (h : db.Shows start m) (hs : ∀ e ∈ events, start ≤ e.time)
    (ho : events.Pairwise fun a b => a.time ≤ b.time) :
    (db.run events).1 = (m.run host.processId events).1 ∧
      ∀ later, start ≤ later → (∀ e ∈ events, e.time ≤ later) →
        (db.run events).2.Shows later (m.run host.processId events).2 := by
  induction events generalizing db m start with
  | nil => exact ⟨rfl, fun later hl _ => h.later hl⟩
  | cons e events ih =>
      have hnow := h.later (hs e List.mem_cons_self)
      obtain ⟨hhead, htail⟩ := List.pairwise_cons.mp ho
      cases e with
      | command now c =>
          obtain ⟨hreply, hnext⟩ := hnow.apply hv c
          obtain ⟨hreplies, hend⟩ := ih (hv.apply now c) hnext hhead htail
          refine ⟨congrArg₂ List.cons hreply hreplies, fun later _ hl => ?_⟩
          exact hend later (hl _ List.mem_cons_self) fun e he => hl e (List.mem_cons_of_mem _ he)
      | sweep now =>
          obtain ⟨hreplies, hend⟩ := ih (hv.sweepOnce now) (hnow.sweep hv) hhead htail
          exact ⟨hreplies, fun later _ hl =>
            hend later (hl _ List.mem_cons_self) fun e he => hl e (List.mem_cons_of_mem _ he)⟩

/-- From its start on, the database is a plain map to its clients. -/
theorem refines_map {events : List Event} (ho : events.Pairwise fun a b => a.time ≤ b.time) :
    ((new : Db host).run events).1 = (({} : MapServer).run host.processId events).1 ∧
      ∀ later, (∀ e ∈ events, e.time ≤ later) → ((new : Db host).run events).2.view later =
        (({} : MapServer).run host.processId events).2.keyspace.alive later := by
  have hnew : (new : Db host).Shows 0 {} := ⟨rfl, rfl⟩
  obtain ⟨hreplies, hend⟩ := run_shows valid_new hnew (fun _ _ => Nat.zero_le _) ho
  exact ⟨hreplies, fun later hl => (hend later (Nat.zero_le _) hl).view⟩

theorem refines_map_expiry :
    ((new : Db ⟨fun _ => 3, 1⟩).run [.command 0 (.set [107] [118] (some 5)), .sweep 5,
      .command 6 (.get [107])]).1 =
    (({} : MapServer).run 1 [.command 0 (.set [107] [118] (some 5)), .sweep 5,
      .command 6 (.get [107])]).1 :=
  (@refines_map ⟨fun _ => 3, 1⟩ _ (by simp [Event.time])).1

end Db
end MiniRedis
