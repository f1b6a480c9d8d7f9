import MiniRedis.Sections

/-!
# List commands
-/
namespace MiniRedis.Cmd
open Wire

variable {host : Host}

inductive PushSide where
  | left
  | right
deriving DecidableEq

def pushOne (side : PushSide) (list : List Bytes) (v : Bytes) : List Bytes :=
  match side with
  | .left => v :: list
  | .right => list ++ [v]

/-- The match of `push` on the entry it opened. -/
def pushValue (values : List Bytes) (side : PushSide) : Value → Frame × Value
  | .list list =>
      let list := values.foldl (pushOne side) list
      (.integer (Int64.ofNat list.length), .list list)
  | value => (wrongType, value)

def push (now : ExpireAt) (db : Db host) (key : Bytes) (values : List Bytes) (side : PushSide) :
    Frame × Db host :=
  db.locked key fun shard =>
    update (removeIfExpired now shard key) key (.list []) (pushValue values side)

def lpush (now : ExpireAt) (db : Db host) (key : Bytes) (values : List Bytes) : Frame × Db host :=
  push now db key values .left

def rpush (now : ExpireAt) (db : Db host) (key : Bytes) (values : List Bytes) : Frame × Db host :=
  push now db key values .right

inductive PopSide where
  | left
  | right
deriving DecidableEq

/-- The value that the next pop takes, if there is one, with what is left. -/
def popOne (side : PopSide) (list : List Bytes) : Option Bytes × List Bytes :=
  match side with
  | .left => (list.head?, list.tail)
  | .right => (list.getLast?, list.dropLast)

def popLoop (side : PopSide) : ℕ → List Bytes → List Bytes × List Bytes
  | 0, list => ([], list)
  | n + 1, list =>
      let r := popOne side list
      let rest := popLoop side n r.2
      (r.1.toList ++ rest.1, rest.2)

def popArrayResponseTooLarge (list : List Bytes) (n : ℕ) (side : PopSide) : Bool :=
  let values := match side with
    | .left => list.take n
    | .right => list.reverse.take n
  ((respArrayHeaderLen n).bind (addBulks values)).isNone

def popReply (count : Option ℕ) (popped : List Bytes) : Frame :=
  match count, popped with
  | none, v :: _ => .bulk v
  | none, [] => .null -- not reached: at least one value is popped
  | some _, popped => .array (popped.map .bulk)

/-- The match of `pop` on the entry it found. -/
def popValue (count : Option ℕ) (side : PopSide) : Value → Frame × Option Value
  | .list list =>
      let n := min (count.getD 1) list.length
      if n = 0 then
        (match count with
          | none => .null
          | some _ => .array [], some (.list list))
      else if count.isSome && popArrayResponseTooLarge list n side then
        (responseTooLarge, some (.list list))
      else
        let r := popLoop side n list
        (popReply count r.1, if r.2.isEmpty then none else some (.list r.2))
  | value => (wrongType, some value)

def pop (now : ExpireAt) (db : Db host) (key : Bytes) (count : Option ℕ) (side : PopSide) :
    Frame × Db host :=
  let missing := match count with
    | none => .null
    | some _ => .nullArray
  db.locked key fun shard =>
    takeFrom (removeIfExpired now shard key) key missing (popValue count side)

def lpop (now : ExpireAt) (db : Db host) (key : Bytes) (count : Option ℕ) : Frame × Db host :=
  pop now db key count .left

def rpop (now : ExpireAt) (db : Db host) (key : Bytes) (count : Option ℕ) : Frame × Db host :=
  pop now db key count .right

def resolveIndex (idx : Int64) (len : ℕ) : Option ℕ :=
  if 0 ≤ idx then
    let u := idx.toInt.toNat
    if u < len then some u else none
  else
    let fromEnd := idx.toInt.natAbs
    if fromEnd = 0 ∨ len < fromEnd then none else some (len - fromEnd)

/-- The elements that `lrange` selects, on the wrapping arithmetic of `i64`. -/
def rangeOf (list : List Bytes) (start stop : Int64) : List Bytes :=
  let len := Int64.ofNat list.length
  let resolve := fun i : Int64 => if i < 0 then len + i else i
  let startR := resolve start
  let stopR := resolve stop
  if len = 0 ∨ len ≤ startR ∨ stopR < 0 then []
  else
    let startIdx := (if startR < 0 then 0 else startR).toInt.toNat
    let stopIdx := (if len - 1 < stopR then len - 1 else stopR).toInt.toNat
    if stopIdx < startIdx then []
    else (list.drop startIdx).take (stopIdx - startIdx + 1)

def lrange (now : ExpireAt) (db : Db host) (key : Bytes) (start stop : Int64) : Frame :=
  readLive now db key (.array []) fun
    | .list list =>
        let values := rangeOf list start stop
        if values.isEmpty then .array [] else bulkArrayFromIter values.length values
    | _ => wrongType

def llen (now : ExpireAt) (db : Db host) (key : Bytes) : Frame :=
  readLive now db key (.integer 0) fun
    | .list list => .integer (Int64.ofNat list.length)
    | _ => wrongType

def lindex (now : ExpireAt) (db : Db host) (key : Bytes) (idx : Int64) : Frame :=
  readLive now db key .null fun
    | .list list =>
        match (resolveIndex idx list.length).bind (list[·]?) with
        | some v => .bulk v
        | none => .null
    | _ => wrongType

end MiniRedis.Cmd
