import MiniRedis.Sections

/-!
# String and expiration commands

Every command takes the reading of the clock first. `EXISTS` is `existsKeys`.
-/
namespace MiniRedis.Cmd
open Numeral Wire

variable {host : Host}

def notInt : Frame := .error "ERR value is not an integer or out of range"

def get (now : ExpireAt) (db : Db host) (key : Bytes) : Frame :=
  readLive now db key .null fun
    | .string b => .bulk b
    | _ => wrongType

/-- The critical section of `set_at`. -/
def setSection (key value : Bytes) (expiresAt : Option ExpireAt) (shard : Shard) : Shard :=
  let shard := (shard.unindexCurrent key).insertEntry key ⟨.string value, expiresAt⟩
  match expiresAt with
  | some t => shard.pushExpiration t key
  | none => shard

def setAt (db : Db host) (key value : Bytes) (expiresAt : Option ExpireAt) : Frame × Db host :=
  if bulkResponseFits value.length then
    db.locked key fun shard => (.simple "OK", setSection key value expiresAt shard)
  else (responseTooLarge, db)

/-- The critical section of `del` for one key; true if a live entry was removed. -/
def delSection (now : ExpireAt) (key : Bytes) (shard : Shard) : Bool × Shard :=
  match shard.expireIfStale now key with
  | (true, shard) => (false, shard)
  | (false, shard) => ((shard.removeEntry key).1.isSome, (shard.removeEntry key).2)

def delLoop (now : ExpireAt) : List Bytes → ℕ → Db host → ℕ × Db host
  | [], removed, db => (removed, db)
  | key :: keys, removed, db =>
      let r := db.locked key (delSection now key)
      delLoop now keys (if r.1 then removed + 1 else removed) r.2

def del (now : ExpireAt) (db : Db host) (keys : List Bytes) : Frame × Db host :=
  let r := delLoop now keys 0 db
  (.integer (Int64.ofNat r.1), r.2)

def existsKeys (now : ExpireAt) (db : Db host) (keys : List Bytes) : Frame :=
  .integer (Int64.ofNat (keys.countP fun key =>
    ((db.entry key).map fun e => !entryExpired now e).getD false))

/-- The match of `incr` on the entry it opened. -/
def incrValue (delta : Int64) : Value → Frame × Value
  | .string b =>
      match readI64 b with
      | none => (notInt, .string b)
      | some current =>
          match checkedAddI64 current delta with
          | none => (overflow, .string b)
          | some new => (.integer new, .string (signed new.toInt))
  | value => (wrongType, value)

def incr (now : ExpireAt) (db : Db host) (key : Bytes) (delta : Int64) : Frame × Db host :=
  db.locked key fun shard =>
    update (shard.expireIfStale now key).2 key (.string zeroBytes) (incrValue delta)

/-- The match of `append` on the entry it opened. -/
def appendValue (suffix : Bytes) : Value → Frame × Value
  | .string b =>
      match checkedAdd b.length suffix.length with
      | none => (responseTooLarge, .string b)
      | some newLen =>
          if bulkResponseFits newLen then
            (.integer (Int64.ofNat (b ++ suffix).length), .string (b ++ suffix))
          else (responseTooLarge, .string b)
  | value => (wrongType, value)

def append (now : ExpireAt) (db : Db host) (key suffix : Bytes) : Frame × Db host :=
  db.locked key fun shard =>
    update (shard.expireIfStale now key).2 key (.string []) (appendValue suffix)

def strlen (now : ExpireAt) (db : Db host) (key : Bytes) : Frame :=
  readLive now db key (.integer 0) fun
    | .string b => .integer (Int64.ofNat b.length)
    | _ => wrongType

/-- What `mget` answers for one key: a value of another type counts as missing. -/
def mgetFrame (now : ExpireAt) (db : Db host) (key : Bytes) : Frame :=
  readLive now db key .null fun
    | .string b => .bulk b
    | _ => .null

/-- The encoded length that `mget` counts for one of its answers. -/
def mgetLen : Frame → Option ℕ
  | .bulk b => respBulkLen b.length
  | _ => some 5

def mgetLoop (now : ExpireAt) (db : Db host) : List Bytes → ℕ → Option (List Frame)
  | [], _ => some []
  | key :: keys, responseLen =>
      let frame := mgetFrame now db key
      (mgetLen frame).bind fun n => (checkedAddResponseLen responseLen n).bind fun responseLen =>
        (mgetLoop now db keys responseLen).map (frame :: ·)

def mget (now : ExpireAt) (db : Db host) (keys : List Bytes) : Frame :=
  match (respArrayHeaderLen keys.length).bind (mgetLoop now db keys) with
  | some frames => .array frames
  | none => responseTooLarge

/-- The critical section of `mset` for one pair. -/
def msetSection (key value : Bytes) (shard : Shard) : Shard :=
  (shard.unindexCurrent key).insertEntry key ⟨.string value, none⟩

def msetLoop : List (Bytes × Bytes) → Db host → Db host
  | [], db => db
  | (key, value) :: pairs, db =>
      msetLoop pairs (db.locked key fun shard => ((), msetSection key value shard)).2

def mset (db : Db host) (pairs : List (Bytes × Bytes)) : Frame × Db host :=
  if pairs.any fun p => !bulkResponseFits p.2.length then (responseTooLarge, db)
  else (.simple "OK", msetLoop pairs db)

/-! ## Expiration -/

/-- The critical section of `expire_at`. -/
def expireSection (now : ExpireAt) (key : Bytes) (deadline : ExpireAt) (shard : Shard) :
    Frame × Shard :=
  match shard.expireIfStale now key with
  | (true, shard) => (.integer 0, shard)
  | (false, shard) =>
      match shard.entries.lookup key with
      | none => (.integer 0, shard)
      | some entry =>
          if deadline ≤ now then (.integer 1, (shard.removeEntry key).2)
          else
            let shard := (shard.unindexCurrent key).insertEntry key
              { entry with expiresAt := some deadline }
            (.integer 1, shard.pushExpiration deadline key)

def expireAt (now : ExpireAt) (db : Db host) (key : Bytes) (deadline : ExpireAt) :
    Frame × Db host :=
  db.locked key (expireSection now key deadline)

/-- `i64::try_from(n).unwrap_or(i64::MAX)`. -/
def saturatingI64 (n : ℕ) : Int64 := (int64? n).getD Int64.maxValue

def ttl (now : ExpireAt) (db : Db host) (key : Bytes) (inMs : Bool) : Frame :=
  match db.entry key with
  | none => .integer (-2)
  | some entry =>
      match entry.expiresAt with
      | none => .integer (-1)
      | some t =>
          if t ≤ now then .integer (-2)
          else if inMs then .integer (saturatingI64 (t - now))
          else .integer (saturatingI64 ((t - now) / 1000))

/-- The critical section of `persist`. -/
def persistSection (now : ExpireAt) (key : Bytes) (shard : Shard) : Frame × Shard :=
  match shard.expireIfStale now key with
  | (true, shard) => (.integer 0, shard)
  | (false, shard) =>
      match shard.entries.lookup key with
      | some ⟨value, some old⟩ =>
          (.integer 1, (shard.insertEntry key ⟨value, none⟩).unindexExpiration old key)
      | _ => (.integer 0, shard)

def persist (now : ExpireAt) (db : Db host) (key : Bytes) : Frame × Db host :=
  db.locked key (persistSection now key)

end MiniRedis.Cmd
