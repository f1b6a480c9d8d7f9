import MiniRedis.Sections

/-!
# Hash commands
-/
namespace MiniRedis.Cmd
open Numeral Wire

variable {host : Host}

def hashNotInt : Frame := .error "ERR hash value is not an integer"

/-- One turn of the loop of `hset`: the count of new fields and the map. -/
def hsetOne (r : ℕ × HashMap Bytes Bytes) (pair : Bytes × Bytes) : ℕ × HashMap Bytes Bytes :=
  (if (r.2.lookup pair.1).isNone then r.1 + 1 else r.1, r.2.insert pair.1 pair.2)

/-- The match of `hset` on the entry it opened. -/
def hsetValue (pairs : List (Bytes × Bytes)) : Value → Frame × Value
  | .hash map =>
      let r := pairs.foldl hsetOne (0, map)
      (.integer (Int64.ofNat r.1), .hash r.2)
  | value => (wrongType, value)

def hset (now : ExpireAt) (db : Db host) (key : Bytes) (pairs : List (Bytes × Bytes)) :
    Frame × Db host :=
  db.locked key fun shard =>
    update (removeIfExpired now shard key) key (.hash ∅) (hsetValue pairs)

def hget (now : ExpireAt) (db : Db host) (key field : Bytes) : Frame :=
  readLive now db key .null fun
    | .hash map =>
        match map.lookup field with
        | some v => .bulk v
        | none => .null
    | _ => wrongType

/-- One turn of the loop of `hdel`. -/
def hdelOne (r : ℕ × HashMap Bytes Bytes) (field : Bytes) : ℕ × HashMap Bytes Bytes :=
  (if (r.2.lookup field).isSome then r.1 + 1 else r.1, r.2.erase field)

/-- The match of `hdel` on the entry it found. -/
def hdelValue (fields : List Bytes) : Value → Frame × Option Value
  | .hash map =>
      let r := fields.foldl hdelOne (0, map)
      (.integer (Int64.ofNat r.1), if r.2.entries.isEmpty then none else some (.hash r.2))
  | value => (wrongType, some value)

def hdel (now : ExpireAt) (db : Db host) (key : Bytes) (fields : List Bytes) : Frame × Db host :=
  db.locked key fun shard =>
    takeFrom (removeIfExpired now shard key) key (.integer 0) (hdelValue fields)

def hkeys (now : ExpireAt) (db : Db host) (key : Bytes) : Frame :=
  readLive now db key (.array []) fun
    | .hash map => bulkArrayFromIter map.entries.length (map.entries.map (·.1))
    | _ => wrongType

def hvals (now : ExpireAt) (db : Db host) (key : Bytes) : Frame :=
  readLive now db key (.array []) fun
    | .hash map => bulkArrayFromIter map.entries.length (map.entries.map (·.2))
    | _ => wrongType

def hgetall (now : ExpireAt) (db : Db host) (key : Bytes) : Frame :=
  readLive now db key (.array []) fun
    | .hash map =>
        match usize? (map.entries.length * 2) with
        | none => responseTooLarge
        | some itemCount =>
            bulkArrayFromIter itemCount (map.entries.flatMap fun e => [e.1, e.2])
    | _ => wrongType

def hexists (now : ExpireAt) (db : Db host) (key field : Bytes) : Frame :=
  readLive now db key (.integer 0) fun
    | .hash map => .integer (if (map.lookup field).isSome then 1 else 0)
    | _ => wrongType

def hlen (now : ExpireAt) (db : Db host) (key : Bytes) : Frame :=
  readLive now db key (.integer 0) fun
    | .hash map => .integer (Int64.ofNat map.entries.length)
    | _ => wrongType

/-- The match of `hincrby` on the entry it opened: the field is inserted before it is read. -/
def hincrbyValue (field : Bytes) (delta : Int64) : Value → Frame × Value
  | .hash map =>
      let current := (map.lookup field).getD zeroBytes
      let map := if (map.lookup field).isSome then map else map.insert field zeroBytes
      match readI64 current with
      | none => (hashNotInt, .hash map)
      | some n =>
          match checkedAddI64 n delta with
          | none => (overflow, .hash map)
          | some new => (.integer new, .hash (map.insert field (signed new.toInt)))
  | value => (wrongType, value)

def hincrby (now : ExpireAt) (db : Db host) (key field : Bytes) (delta : Int64) :
    Frame × Db host :=
  db.locked key fun shard =>
    update (removeIfExpired now shard key) key (.hash ∅) (hincrbyValue field delta)

end MiniRedis.Cmd
