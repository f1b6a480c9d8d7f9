import MiniRedis.Wire
import MiniRedis.FiniteMap
import Mathlib.Data.List.Sort

/-!
# The sharded database

Entries, the TTL index of a shard, snapshots for the rollback of a failed append
and for the rewrite, pub/sub channels and the active expiration sweep. The hash
function of the `xxhash-rust` crate and the process id are outside the source,
so they are parameters of the database. A lock guard is a critical section: a
function from the locked shard to its new value. The clock reading of a command
is an argument, and the tables of `std::collections` are finite maps, whose
order of iteration is left open.
-/
namespace MiniRedis

/-- Milliseconds since the epoch. -/
abbrev ExpireAt := ℕ

abbrev HashMap (K V : Type) := FiniteMap K V

/-- Only `sweep` iterates one, and the order of its removals does not show. -/
abbrev BTreeMap (K V : Type) := FiniteMap K V

inductive Value where
  | string (b : Bytes)
  | list (l : List Bytes)
  | hash (m : HashMap Bytes Bytes)

structure Entry where
  value : Value
  expiresAt : Option ExpireAt

def entryExpired (now : ExpireAt) (entry : Entry) : Bool :=
  match entry.expiresAt with
  | some t => t ≤ now
  | none => false

structure Shard where
  entries : HashMap Bytes Entry := ∅
  expirations : BTreeMap ExpireAt (List Bytes) := ∅

namespace Shard

/-- Take `key` out of the expiration index at deadline `t`. -/
def unindexExpiration (shard : Shard) (t : ExpireAt) (key : Bytes) : Shard :=
  match shard.expirations.lookup t with
  | some keys =>
      let keys := keys.filter (· ≠ key)
      if keys.isEmpty then { shard with expirations := shard.expirations.erase t }
      else { shard with expirations := shard.expirations.insert t keys }
  | none => shard

/-- `expirations.entry(t).or_default().push(key)`. -/
def pushExpiration (shard : Shard) (t : ExpireAt) (key : Bytes) : Shard :=
  { shard with
    expirations := shard.expirations.insert t ((shard.expirations.lookup t).getD [] ++ [key]) }

/-- `entries.insert(key, entry)`, which leaves the expiration index alone. -/
def insertEntry (shard : Shard) (key : Bytes) (entry : Entry) : Shard :=
  { shard with entries := shard.entries.insert key entry }

def removeEntry (shard : Shard) (key : Bytes) : Option Entry × Shard :=
  match shard.entries.lookup key with
  | none => (none, shard)
  | some entry =>
      let shard := { shard with entries := shard.entries.erase key }
      match entry.expiresAt with
      | some t => (some entry, shard.unindexExpiration t key)
      | none => (some entry, shard)

/-- `entries.get(key).and_then(|entry| entry.expires_at)`. -/
def deadline (shard : Shard) (key : Bytes) : Option ExpireAt :=
  (shard.entries.lookup key).bind Entry.expiresAt

def expireIfStale (now : ExpireAt) (shard : Shard) (key : Bytes) : Bool × Shard :=
  match shard.deadline key with
  | none => (false, shard)
  | some t => if now < t then (false, shard) else (true, (shard.removeEntry key).2)

/-- Drop the index row of the deadline that the key has now, if it has one. -/
def unindexCurrent (shard : Shard) (key : Bytes) : Shard :=
  match shard.deadline key with
  | some old => shard.unindexExpiration old key
  | none => shard

/-- The removal of one due key: its entry may have been set anew since it was scheduled. -/
def removeIfDue (now : ExpireAt) (shard : Shard) (key : Bytes) : Shard :=
  if ((shard.deadline key).map fun t => decide (t ≤ now)).getD false then
    { shard with entries := shard.entries.erase key }
  else shard

/-- What `sweep_once` does under the lock of one shard. -/
def sweep (now : ExpireAt) (shard : Shard) : Shard :=
  let dueKeys := (shard.expirations.entries.filter (·.1 ≤ now)).flatMap (·.2)
  let shard := { shard with expirations := shard.expirations.retain fun t _ => now < t }
  dueKeys.foldl (removeIfDue now) shard

end Shard

/-- What the process takes from outside the source. -/
structure Host where
  /-- `xxh64` with seed zero. -/
  xxh64 : Bytes → UInt64
  processId : UInt32

def shardCount : ℕ := 16

/-- A broadcast channel, as far as `PUBLISH` sees it. -/
structure Sender where
  receiverCount : ℕ

structure Db (host : Host) where
  shards : Fin shardCount → Shard
  pubsub : HashMap Bytes Sender

variable {host : Host}

/-- The index of the shard that holds a key. -/
def shardIndex (host : Host) (key : Bytes) : Fin shardCount :=
  ⟨(host.xxh64 key).toNat % shardCount, Nat.mod_lt _ (by decide)⟩

namespace Db

def new : Db host := ⟨fun _ => {}, ∅⟩

def shardFor (db : Db host) (key : Bytes) : Shard := db.shards (shardIndex host key)

def iterShards (db : Db host) : List Shard := (List.finRange shardCount).map db.shards

/-- A critical section on the shard of `key`. -/
def locked {A : Type} (db : Db host) (key : Bytes) (section_ : Shard → A × Shard) :
    A × Db host :=
  let r := section_ (db.shardFor key)
  (r.1, { db with shards := Function.update db.shards (shardIndex host key) r.2 })

/-- The stored entry of a key, whether or not it has expired. -/
def entry (db : Db host) (key : Bytes) : Option Entry := (db.shardFor key).entries.lookup key

end Db

/-! ## Snapshots -/

/-- The order of byte strings that `sort_by` uses. -/
def bytesLe : Bytes → Bytes → Bool
  | [], _ => true
  | _ :: _, [] => false
  | a :: as, b :: bs => a < b || (a == b && bytesLe as bs)

/-- `sort_by` followed by `dedup`. -/
def sortDedup (keys : List Bytes) : List Bytes :=
  (keys.insertionSort fun a b => bytesLe a b = true).eraseReps

namespace Db

def snapshotEntries (db : Db host) (keys : List Bytes) : List (Bytes × Option Entry) :=
  (sortDedup keys).map fun key => (key, db.entry key)

/-- The critical section of `restore_entries` for one key. -/
def restoreEntry (db : Db host) (key : Bytes) (snapshot : Option Entry) : Db host :=
  (db.locked key fun shard =>
    let shard := (shard.removeEntry key).2
    match snapshot with
    | some entry =>
        let shard := match entry.expiresAt with
          | some t => shard.pushExpiration t key
          | none => shard
        ((), shard.insertEntry key entry)
    | none => ((), shard)).2

def restoreEntries (db : Db host) (snapshots : List (Bytes × Option Entry)) : Db host :=
  snapshots.foldl (fun db s => db.restoreEntry s.1 s.2) db

def aofSnapshotEntries (now : ExpireAt) (db : Db host) : List (Bytes × Entry) :=
  let entries := db.iterShards.flatMap fun shard =>
    (shard.entries.entries.filter fun e => !entryExpired now e.2).map fun e => (e.1, e.2)
  entries.insertionSort fun a b => bytesLe a.1 b.1 = true

def sweepOnce (now : ExpireAt) (db : Db host) : Db host :=
  { db with shards := fun i => (db.shards i).sweep now }

/-! ## Pub/sub -/

/-- The sender of the channel, with one more receiver; a missing channel is created. -/
def pubsubSubscribe (db : Db host) (channel : Bytes) : Db host :=
  let tx := (db.pubsub.lookup channel).getD ⟨0⟩
  { db with pubsub := db.pubsub.insert channel ⟨tx.receiverCount + 1⟩ }

def pubsubPublish (db : Db host) (channel : Bytes) : ℕ × Db host :=
  match db.pubsub.lookup channel with
  | some tx =>
      if tx.receiverCount = 0 then (0, { db with pubsub := db.pubsub.erase channel })
      else (tx.receiverCount, db)
  | none => (0, db)

def pubsubGc (db : Db host) (channel : Bytes) : Db host :=
  match db.pubsub.lookup channel with
  | some tx =>
      if tx.receiverCount = 0 then { db with pubsub := db.pubsub.erase channel } else db
  | none => db

/-- What the drop of a receiver does to the sender of its channel. -/
def dropReceiver (db : Db host) (channel : Bytes) : Db host :=
  match db.pubsub.lookup channel with
  | some tx => { db with pubsub := db.pubsub.insert channel ⟨tx.receiverCount - 1⟩ }
  | none => db

end Db

/-! ## Statistics -/

structure DbStats where
  keys : ℕ := 0
  expiringKeys : ℕ := 0
  strings : ℕ := 0
  lists : ℕ := 0
  hashes : ℕ := 0
  listItems : ℕ := 0
  hashFields : ℕ := 0
  approxBytes : ℕ := 0

/-- The statistics with one more live entry counted. -/
def DbStats.count (stats : DbStats) (key : Bytes) (entry : Entry) : DbStats :=
  let stats := { stats with
    keys := stats.keys + 1
    approxBytes := stats.approxBytes + key.length
    expiringKeys := stats.expiringKeys + if entry.expiresAt.isSome then 1 else 0 }
  match entry.value with
  | .string value => { stats with
      strings := stats.strings + 1
      approxBytes := stats.approxBytes + value.length }
  | .list values => { stats with
      lists := stats.lists + 1
      listItems := stats.listItems + values.length
      approxBytes := stats.approxBytes + (values.map List.length).sum }
  | .hash values => { stats with
      hashes := stats.hashes + 1
      hashFields := stats.hashFields + values.entries.length
      approxBytes := stats.approxBytes +
        (values.entries.map fun e => e.1.length + e.2.length).sum }

def Db.stats (now : ExpireAt) (db : Db host) : DbStats :=
  db.iterShards.foldl (fun stats shard =>
    shard.entries.entries.foldl (fun stats e =>
      if entryExpired now e.2 then stats else stats.count e.1 e.2) stats) {}

end MiniRedis
