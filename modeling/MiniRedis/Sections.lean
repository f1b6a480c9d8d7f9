import MiniRedis.Database

/-!
# Critical sections that commands share

The commands of one kind differ only in the value they expect and in what they
do with it. A read looks at the live entry of its key. An update opens the entry
of its key, or inserts a default, and changes the value in place. A removal
opens an entry that must be there and deletes it once its value is used up. The
response builders run through the size limit item by item.
-/
namespace MiniRedis.Cmd
open Numeral Wire

variable {host : Host}

def wrongType : Frame := .error "WRONGTYPE Operation against a key holding the wrong kind of value"
def overflow : Frame := .error "ERR increment or decrement would overflow"

/-- `Bytes::from_static(b"0")`. -/
def zeroBytes : Bytes := [48]

/-- `i64::checked_add`. -/
def checkedAddI64 (a b : Int64) : Option Int64 := int64? (a.toInt + b.toInt)

/-- `i64::checked_neg`. -/
def checkedNegI64 (a : Int64) : Option Int64 := int64? (-a.toInt)

/-- The match of a read command on its entry: an expired entry counts as missing. -/
def readLive (now : ExpireAt) (db : Db host) (key : Bytes) (missing : Frame)
    (found : Value → Frame) : Frame :=
  match db.entry key with
  | some entry => if entryExpired now entry then missing else found entry.value
  | none => missing

/-- `entries.entry(key).or_insert(..)` with an entry that has no deadline. -/
def entryOrInsert (shard : Shard) (key : Bytes) (default : Value) : Entry :=
  (shard.entries.lookup key).getD ⟨default, none⟩

/-- The stale check of the list and hash commands. -/
def removeIfExpired (now : ExpireAt) (shard : Shard) (key : Bytes) : Shard :=
  let stale := ((shard.entries.lookup key).map (entryExpired now)).getD false
  if stale then (shard.removeEntry key).2 else shard

/-- An update of the entry of `key`, which `body` changes in place. -/
def update (shard : Shard) (key : Bytes) (default : Value) (body : Value → Frame × Value) :
    Frame × Shard :=
  let entry := entryOrInsert shard key default
  let r := body entry.value
  (r.1, shard.insertEntry key { entry with value := r.2 })

/-- A removal from the entry of `key`; `body` returns no value when nothing is left of it. -/
def takeFrom (shard : Shard) (key : Bytes) (missing : Frame)
    (body : Value → Frame × Option Value) : Frame × Shard :=
  match shard.entries.lookup key with
  | none => (missing, shard)
  | some entry =>
      let r := body entry.value
      match r.2 with
      | some value => (r.1, shard.insertEntry key { entry with value := value })
      | none => (r.1, (shard.removeEntry key).2)

/-- The loop that adds the encoded length of every bulk string to a response. -/
def addBulks : List Bytes → ℕ → Option ℕ
  | [], total => some total
  | b :: bs, total =>
      (respBulkLen b.length).bind fun n => (checkedAddResponseLen total n).bind (addBulks bs)

/-- An array of bulk strings, or the error if it exceeds the limit. -/
def bulkArrayFromIter (len : ℕ) (values : List Bytes) : Frame :=
  match (respArrayHeaderLen len).bind (addBulks values) with
  | some _ => .array (values.map .bulk)
  | none => responseTooLarge

end MiniRedis.Cmd
