import MiniRedis.AtomicPrograms
import MiniRedis.Command

/-!
# The critical sections of a command

A command locks one shard at a time. Here every command is the program of its critical
sections, each of which reads the clock itself. Without other commands in between, and
with a clock that stands still, the program is the command.
-/
namespace MiniRedis
open AtomicPrograms Numeral Wire

variable {host : Host}

abbrev Sections (host : Host) := Program (Db host) ExpireAt Frame

namespace Cmd

/-- A command with one critical section. -/
def once (f : ExpireAt → Db host → Frame × Db host) : Sections host :=
  .atomic (fun now db => (f now db).2) fun now db => .done (f now db).1

/-- A command with one critical section, which only reads. -/
def look (f : ExpireAt → Db host → Frame) : Sections host :=
  .atomic (fun _ db => db) fun now db => .done (f now db)

def delSections : List Bytes → ℕ → Sections host
  | [], removed => .done (.integer (Int64.ofNat removed))
  | key :: keys, removed => .atomic (fun now db => (db.locked key (delSection now key)).2)
      fun now db => delSections keys
        (if (db.locked key (delSection now key)).1 then removed + 1 else removed)

def existsOne (now : ExpireAt) (db : Db host) (key : Bytes) : Bool :=
  ((db.entry key).map fun e => !entryExpired now e).getD false

def existsSections : List Bytes → ℕ → Sections host
  | [], count => .done (.integer (Int64.ofNat count))
  | key :: keys, count => .atomic (fun _ db => db)
      fun now db => existsSections keys (if existsOne now db key then count + 1 else count)

/-- The length of the response with one more answer of `mget`. -/
def mgetLenWith (responseLen : ℕ) (frame : Frame) : Option ℕ :=
  (mgetLen frame).bind (checkedAddResponseLen responseLen)

def mgetSections : List Bytes → ℕ → List Frame → Sections host
  | [], _, frames => .done (.array frames)
  | key :: keys, responseLen, frames => .atomic (fun _ db => db)
      fun now db =>
        (mgetLenWith responseLen (mgetFrame now db key)).elim (.done responseTooLarge)
          fun responseLen => mgetSections keys responseLen (frames ++ [mgetFrame now db key])

def msetSections : List (Bytes × Bytes) → Sections host
  | [] => .done (.simple "OK")
  | (key, value) :: pairs =>
      .atomic (fun _ db => (db.locked key fun shard => ((), msetSection key value shard)).2)
        fun _ _ => msetSections pairs

end Cmd

/-! ## INFO -/

/-- What `stats` adds up under the lock of one shard. -/
def Shard.addTo (now : ExpireAt) (stats : DbStats) (shard : Shard) : DbStats :=
  shard.entries.entries.foldl (fun stats e =>
    if entryExpired now e.2 then stats else stats.count e.1 e.2) stats

def statsSections (now : ExpireAt) (report : DbStats → Frame) :
    List (Fin shardCount) → DbStats → Sections host
  | [], stats => .done (report stats)
  | i :: shards, stats => .atomic (fun _ db => db)
      fun _ db => statsSections now report shards ((db.shards i).addTo now stats)

def infoIncludes (section_ : Option String) (name : String) : Bool :=
  (match section_ with
    | some s => s == "default" || s == "all"
    | none => true) || section_ == some name

/-- `info_frame`, with the statistics at hand. -/
def infoReport (host : Host) (now : ExpireAt) (aof : Option AofStats) (state : Option ServerState)
    (section_ : Option String) (stats : DbStats) : Frame :=
  let include_ (name text : String) := if infoIncludes section_ name then text else ""
  .bulk (asBytes (include_ "server" (infoServer host now state) ++
    include_ "clients" (infoClients state) ++ include_ "memory" (infoMemory stats) ++
    include_ "persistence" (infoPersistence aof)))

/-- The clock is read first, and the shards are locked only for the statistics. -/
def infoSections (aof : Option AofStats) (state : Option ServerState)
    (section_ : Option String) : Sections host :=
  .atomic (fun _ db => db) fun now _ =>
    statsSections now (infoReport host now aof state section_)
      (if infoIncludes section_ "memory" then List.finRange shardCount else []) {}

namespace Command
open Cmd

def sections : Command → Sections host
  | ping none => .done (.simple "PONG")
  | ping (some msg) => .done (.bulk msg)
  | echo msg => .done (.bulk msg)
  | get k => look fun now db => Cmd.get now db k
  | set key value expiresAt =>
      if bulkResponseFits value.length then once fun _ db => Cmd.setAt db key value expiresAt
      else .done responseTooLarge
  | del keys => delSections keys 0
  | existsKeys keys => existsSections keys 0
  | incr k => once fun now db => Cmd.incr now db k 1
  | decr k => once fun now db => Cmd.incr now db k (-1)
  | incrBy k n => once fun now db => Cmd.incr now db k n
  | decrBy k n =>
      match checkedNegI64 n with
      | some neg => once fun now db => Cmd.incr now db k neg
      | none => .done overflow
  | append k v => once fun now db => Cmd.append now db k v
  | strlen k => look fun now db => Cmd.strlen now db k
  | mget keys =>
      match respArrayHeaderLen keys.length with
      | some responseLen => mgetSections keys responseLen []
      | none => .done responseTooLarge
  | mset pairs =>
      if pairs.any fun p => !bulkResponseFits p.2.length then .done responseTooLarge
      else msetSections pairs
  | expire k d | pexpire k d | pexpireAt k d => once fun now db => Cmd.expireAt now db k d
  | ttl k => look fun now db => Cmd.ttl now db k false
  | pttl k => look fun now db => Cmd.ttl now db k true
  | persist k => once fun now db => Cmd.persist now db k
  | lpush k vs => once fun now db => Cmd.lpush now db k vs
  | rpush k vs => once fun now db => Cmd.rpush now db k vs
  | lpop k c => once fun now db => Cmd.lpop now db k c
  | rpop k c => once fun now db => Cmd.rpop now db k c
  | lrange k s e => look fun now db => Cmd.lrange now db k s e
  | llen k => look fun now db => Cmd.llen now db k
  | lindex k i => look fun now db => Cmd.lindex now db k i
  | hset k pairs => once fun now db => Cmd.hset now db k pairs
  | hget k f => look fun now db => Cmd.hget now db k f
  | hdel k fs => once fun now db => Cmd.hdel now db k fs
  | hkeys k => look fun now db => Cmd.hkeys now db k
  | hvals k => look fun now db => Cmd.hvals now db k
  | hgetall k => look fun now db => Cmd.hgetall now db k
  | hexists k f => look fun now db => Cmd.hexists now db k f
  | hlen k => look fun now db => Cmd.hlen now db k
  | hincrby k f n => once fun now db => Cmd.hincrby now db k f n
  | publish ch _ => once fun _ db =>
      (.integer (Int64.ofNat (db.pubsubPublish ch).1), (db.pubsubPublish ch).2)
  | info section_ => infoSections none none section_
  | bgRewriteAof => .done (.error "ERR AOF is not enabled")
  | subscribe _ | unsubscribe _ =>
      .done (.error "ERR SUBSCRIBE/UNSUBSCRIBE must be handled by connection")
  | unknown name =>
      let safe := replaceCrlf '?' name
      .done (.error s!"ERR unknown command '{safe}'")

/-- The keys that a command looks at without changing anything. -/
def readKeys : Command → List Bytes
  | get k | strlen k | ttl k | pttl k | lrange k .. | llen k | lindex k _ | hget k _ | hkeys k
  | hvals k | hgetall k | hexists k _ | hlen k => [k]
  | existsKeys keys | mget keys => keys
  | _ => []

end Command

/-! ## The program is the command -/

namespace Cmd
variable (now : ExpireAt)

theorem eval_delSections (keys : List Bytes) (removed : ℕ) (db : Db host) :
    (delSections keys removed).eval now db =
      (.integer (Int64.ofNat (delLoop now keys removed db).1),
        (delLoop now keys removed db).2) := by
  induction keys generalizing removed db with
  | nil => rfl
  | cons key keys ih => exact ih _ _

theorem eval_existsSections (keys : List Bytes) (count : ℕ) (db : Db host) :
    (existsSections keys count).eval now db =
      (.integer (Int64.ofNat (count + keys.countP (existsOne now db))), db) := by
  induction keys generalizing count with
  | nil => rfl
  | cons key keys ih =>
      refine (ih _).trans ?_
      rw [List.countP_cons]
      split_ifs
      · rw [Nat.add_assoc, Nat.add_comm 1]
      · rfl

theorem mgetLoop_cons (db : Db host) (key : Bytes) (keys : List Bytes) (responseLen : ℕ) :
    mgetLoop now db (key :: keys) responseLen =
      (mgetLenWith responseLen (mgetFrame now db key)).bind fun responseLen =>
        (mgetLoop now db keys responseLen).map (mgetFrame now db key :: ·) :=
  (Option.bind_assoc ..).symm

theorem eval_mgetSections (keys : List Bytes) (responseLen : ℕ) (frames : List Frame)
    (db : Db host) :
    (mgetSections keys responseLen frames).eval now db =
      (((mgetLoop now db keys responseLen).map fun rest => .array (frames ++ rest)).getD
        responseTooLarge, db) := by
  induction keys generalizing responseLen frames with
  | nil => simp [mgetSections, Program.eval, mgetLoop]
  | cons key keys ih =>
      rw [mgetSections, Program.eval, mgetLoop_cons]
      cases mgetLenWith responseLen (mgetFrame now db key) with
      | none => rfl
      | some n =>
          refine (ih n _).trans ?_
          rw [Option.bind_some, Option.map_map]
          simp only [List.append_assoc, List.singleton_append]
          rfl

theorem eval_msetSections (pairs : List (Bytes × Bytes)) (db : Db host) :
    (msetSections pairs).eval now db = (.simple "OK", msetLoop pairs db) := by
  induction pairs generalizing db with
  | nil => rfl
  | cons p pairs ih => exact ih _

theorem eval_statsSections (report : DbStats → Frame) (shards : List (Fin shardCount))
    (stats : DbStats) (db : Db host) :
    (statsSections now report shards stats).eval now db =
      (report ((shards.map db.shards).foldl (fun stats shard => shard.addTo now stats) stats),
        db) := by
  induction shards generalizing stats with
  | nil => rfl
  | cons i shards ih => exact ih _

theorem eval_infoSections (aof : Option AofStats) (state : Option ServerState)
    (section_ : Option String) (db : Db host) :
    (infoSections aof state section_).eval now db =
      (infoFrame now db aof state section_, db) := by
  refine (eval_statsSections now _ _ _ db).trans ?_
  have hframe : infoFrame now db aof state section_ =
      infoReport host now aof state section_ (db.stats now) := rfl
  rw [hframe]
  split_ifs with hm
  · rfl
  · -- the report leaves the statistics out
    unfold infoReport
    rw [Bool.not_eq_true] at hm
    simp only [hm, Bool.false_eq_true, if_false]

end Cmd

/-- Without other commands in between, the critical sections are the command. -/
theorem Command.eval_sections (now : ExpireAt) (c : Command) (db : Db host) :
    c.sections.eval now db = c.apply now db := by
  cases c with
  | ping msg => cases msg <;> rfl
  | set key value expiresAt =>
      unfold sections apply
      dsimp only
      split_ifs with h
      · rfl
      · rw [Cmd.setAt, if_neg h]
        rfl
  | del keys => exact Cmd.eval_delSections now keys 0 db
  | existsKeys keys =>
      refine (Cmd.eval_existsSections now keys 0 db).trans ?_
      rw [Nat.zero_add]
      rfl
  | decrBy k n =>
      unfold sections apply
      dsimp only
      cases Cmd.checkedNegI64 n <;> rfl
  | mget keys =>
      unfold sections apply Cmd.mget
      dsimp only
      cases hl : respArrayHeaderLen keys.length with
      | none => rfl
      | some n =>
          refine (Cmd.eval_mgetSections now keys n [] db).trans ?_
          rw [Option.bind_some]
          cases Cmd.mgetLoop now db keys n <;> rfl
  | mset pairs =>
      unfold sections apply Cmd.mset
      dsimp only
      split_ifs
      · rfl
      · exact Cmd.eval_msetSections now pairs db
  | info section_ => exact Cmd.eval_infoSections now none none section_ db
  | _ => rfl

/-- A command that runs alone, with one reading of the clock for all its sections. -/
theorem Command.after_sections (now : ExpireAt) (c : Command) (db : Db host) :
    ∃ n, c.sections.after (List.replicate n now) db =
      some (.done (c.apply now db).1, (c.apply now db).2) := by
  rw [← c.eval_sections now db]
  exact Program.exists_after_eval now c.sections db

end MiniRedis
