import MiniRedis.StringCommands
import MiniRedis.ListCommands
import MiniRedis.HashCommands
import MiniRedis.Info

/-!
# Commands

A command as a frame is read into it, applied to the database, and written to
the append-only file. Reading and printing depend on the clock where a deadline
is relative, so both take its reading.
-/
namespace MiniRedis
open Numeral Wire

variable {host : Host}

inductive Command where
  | ping (msg : Option Bytes)
  | echo (msg : Bytes)
  | get (key : Bytes)
  | set (key value : Bytes) (expiresAt : Option ExpireAt)
  | del (keys : List Bytes)
  | existsKeys (keys : List Bytes)
  | incr (key : Bytes)
  | decr (key : Bytes)
  | incrBy (key : Bytes) (n : Int64)
  | decrBy (key : Bytes) (n : Int64)
  | append (key value : Bytes)
  | strlen (key : Bytes)
  | mget (keys : List Bytes)
  | mset (pairs : List (Bytes × Bytes))
  | expire (key : Bytes) (deadline : ExpireAt)
  | pexpire (key : Bytes) (deadline : ExpireAt)
  | pexpireAt (key : Bytes) (deadline : ExpireAt)
  | ttl (key : Bytes)
  | pttl (key : Bytes)
  | persist (key : Bytes)
  | lpush (key : Bytes) (values : List Bytes)
  | rpush (key : Bytes) (values : List Bytes)
  | lpop (key : Bytes) (count : Option ℕ)
  | rpop (key : Bytes) (count : Option ℕ)
  | lrange (key : Bytes) (start stop : Int64)
  | llen (key : Bytes)
  | lindex (key : Bytes) (idx : Int64)
  | hset (key : Bytes) (pairs : List (Bytes × Bytes))
  | hget (key field : Bytes)
  | hdel (key : Bytes) (fields : List Bytes)
  | hkeys (key : Bytes)
  | hvals (key : Bytes)
  | hgetall (key : Bytes)
  | hexists (key field : Bytes)
  | hlen (key : Bytes)
  | hincrby (key field : Bytes) (n : Int64)
  | subscribe (channels : List Bytes)
  | unsubscribe (channels : Option (List Bytes))
  | publish (channel msg : Bytes)
  | info (section_ : Option String)
  | bgRewriteAof
  | unknown (name : String)
deriving DecidableEq

def maxExpireAtMs : ExpireAt := 9223372036854775807
def millisPerSecond : ExpireAt := 1000

/-- The number as a `u128`, when it is one. -/
def u128? (n : ℕ) : Option ℕ :=
  if n < 340282366920938463463374607431768211456 then some n else none

/-- `n as u128`. -/
def asU128 (n : Int64) : ℕ := (n.toInt % 340282366920938463463374607431768211456).toNat

def toAsciiUppercase (s : String) : String := String.ofList (s.toList.map Char.toUpper)
def toAsciiLowercase (s : String) : String := String.ofList (s.toList.map Char.toLower)

/-! ## Logged frames -/

def bulk (name : String) : Frame := .bulk (asBytes name)

/-- `bulk_string` of an unsigned number. -/
def bulkDecimal (n : ℕ) : Frame := .bulk (decimal n)

/-- `bulk_string` of an `i64`. -/
def bulkSigned (n : Int64) : Frame := .bulk (signed n.toInt)

def commandOne (name : String) (key : Bytes) : Frame := .array [bulk name, .bulk key]

def commandWithKeys (name : String) (keys : List Bytes) : Frame :=
  .array (bulk name :: keys.map .bulk)

def commandWithValues (name : String) (key : Bytes) (values : List Bytes) : Frame :=
  .array (bulk name :: .bulk key :: values.map .bulk)

def relativeMillisForAof (now deadline : ExpireAt) : ExpireAt :=
  min (max (deadline - now) 1) maxExpireAtMs

/-- What `push_set_expiry` appends to the parts of a `SET`. -/
def setExpiryParts (now deadline : ExpireAt) : List Frame :=
  if deadline ≤ maxExpireAtMs then [bulk "PXAT", bulkDecimal deadline]
  else [bulk "PX", bulkDecimal (relativeMillisForAof now deadline)]

def pexpireatFrame (key : Bytes) (deadline : ExpireAt) : Frame :=
  .array [bulk "PEXPIREAT", .bulk key, bulkDecimal deadline]

def pairParts (pairs : List (Bytes × Bytes)) : List Frame :=
  pairs.flatMap fun p => [.bulk p.1, .bulk p.2]

namespace Command

def isWrite : Command → Bool
  | set .. | del .. | incr .. | decr .. | incrBy .. | decrBy .. | append .. | mset ..
  | expire .. | pexpire .. | pexpireAt .. | persist .. | lpush .. | rpush .. | lpop ..
  | rpop .. | hset .. | hdel .. | hincrby .. => true
  | _ => false

def aofFrame (now : ExpireAt) : Command → Option Frame
  | set key value expiresAt =>
      let parts := [bulk "SET", .bulk key, .bulk value]
      match expiresAt with
      | some deadline => some (.array (parts ++ setExpiryParts now deadline))
      | none => some (.array parts)
  | del keys => some (commandWithKeys "DEL" keys)
  | incr key => some (commandOne "INCR" key)
  | decr key => some (commandOne "DECR" key)
  | incrBy key n => some (.array [bulk "INCRBY", .bulk key, bulkSigned n])
  | decrBy key n => some (.array [bulk "DECRBY", .bulk key, bulkSigned n])
  | append key value => some (.array [bulk "APPEND", .bulk key, .bulk value])
  | mset pairs => some (.array (bulk "MSET" :: pairParts pairs))
  | expire key deadline | pexpire key deadline | pexpireAt key deadline =>
      some (pexpireatFrame key deadline)
  | persist key => some (commandOne "PERSIST" key)
  | lpush key values => some (commandWithValues "LPUSH" key values)
  | rpush key values => some (commandWithValues "RPUSH" key values)
  | lpop key none => some (commandOne "LPOP" key)
  | lpop key (some count) => some (.array [bulk "LPOP", .bulk key, bulkDecimal count])
  | rpop key none => some (commandOne "RPOP" key)
  | rpop key (some count) => some (.array [bulk "RPOP", .bulk key, bulkDecimal count])
  | hset key pairs => some (.array (bulk "HSET" :: .bulk key :: pairParts pairs))
  | hdel key fields => some (.array (bulk "HDEL" :: .bulk key :: fields.map .bulk))
  | hincrby key field n =>
      some (.array [bulk "HINCRBY", .bulk key, .bulk field, bulkSigned n])
  | _ => none

def mutatedKeys : Command → List Bytes
  | set key .. | incr key | decr key | incrBy key _ | decrBy key _ | append key _
  | expire key _ | pexpire key _ | pexpireAt key _ | persist key | lpush key _ | rpush key _
  | lpop key _ | rpop key _ | hset key _ | hdel key _ | hincrby key .. => [key]
  | del keys => keys
  | mset pairs => pairs.map (·.1)
  | _ => []

end Command

/-! ## Reading a frame -/

inductive ParseError where
  | notArray
  | empty
  | notBulk (idx : ℕ)
  | arity (name : String)
  | badName
  | notInt
  | invalidExpireTime (name : String)
  | outOfRangePositive
  | syntaxError
deriving DecidableEq, Repr

namespace ParseError

def message : ParseError → String
  | notArray => "not an array"
  | empty => "empty command"
  | notBulk idx => s!"argument {idx} must be a bulk string"
  | arity name => s!"wrong number of arguments for '{name}'"
  | badName => "invalid utf8 in command name"
  | notInt => "value is not an integer or out of range"
  | invalidExpireTime name => s!"invalid expire time in '{name}' command"
  | outOfRangePositive => "value is out of range, must be positive"
  | syntaxError => "syntax error"

def isProtocolError : ParseError → Bool
  | notArray | notBulk _ => true
  | _ => false

end ParseError

namespace Command

def parseI64 (b : Bytes) : Except ParseError Int64 :=
  match readI64 b with
  | some n => .ok n
  | none => .error .notInt

def invalidExpireTime (name : String) : ParseError := .invalidExpireTime (toAsciiLowercase name)

def durationMillis (n : Int64) (ms : Bool) (name : String) : Except ParseError ExpireAt :=
  if ms then .ok (asU128 n)
  else match u128? (asU128 n * millisPerSecond) with
    | some d => .ok d
    | none => .error (invalidExpireTime name)

def setRelativeDeadline (now : ExpireAt) (n : Int64) (ms : Bool) (name : String) :
    Except ParseError ExpireAt :=
  if n.toInt ≤ 0 then .error (invalidExpireTime name)
  else do
    let delta ← durationMillis n ms name
    if maxExpireAtMs < delta then .error (invalidExpireTime name)
    else match u128? (now + delta) with
      | some deadline => .ok deadline
      | none => .error (invalidExpireTime name)

def relativeDeadline (now : ExpireAt) (n : Int64) (ms : Bool) (name : String) :
    Except ParseError ExpireAt := do
  let delta ← durationMillis n ms name
  match (u128? (now + delta)).filter (· ≤ maxExpireAtMs) with
  | some deadline => .ok deadline
  | none => .error (invalidExpireTime name)

def expireRelativeDeadline (now : ExpireAt) (n : Int64) (ms : Bool) (name : String) :
    Except ParseError ExpireAt :=
  if n.toInt ≤ 0 then .ok 0 else relativeDeadline now n ms name

def absoluteDeadline (n : Int64) (ms : Bool) (name : String) : Except ParseError ExpireAt := do
  let deadline ← durationMillis n ms name
  if deadline ≤ maxExpireAtMs then .ok deadline else .error (invalidExpireTime name)

def setAbsoluteDeadline (n : Int64) (ms : Bool) (name : String) : Except ParseError ExpireAt :=
  if n.toInt ≤ 0 then .error (invalidExpireTime name) else absoluteDeadline n ms name

def expireAbsoluteDeadline (n : Int64) (ms : Bool) (name : String) : Except ParseError ExpireAt :=
  if n.toInt ≤ 0 then .ok 0 else absoluteDeadline n ms name

def oneArg (rest : List Bytes) (name : String) : Except ParseError Bytes :=
  match rest with
  | [arg] => .ok arg
  | _ => .error (.arity name)

/-- The deadline that an expiry option of `SET` computes from its number. -/
def setOption (now : ExpireAt) (name : String) (option : String) :
    Option (Int64 → Except ParseError ExpireAt) :=
  match option with
  | "EX" => some fun n => setRelativeDeadline now n false name
  | "PX" => some fun n => setRelativeDeadline now n true name
  | "EXAT" => some fun n => setAbsoluteDeadline n false name
  | "PXAT" => some fun n => setAbsoluteDeadline n true name
  | _ => none

/-- The loop of `parse_set` over the options; its state is `expiry_seen` and `expires_at`. -/
def parseSetOptions (now : ExpireAt) (name : String) :
    List Bytes → Bool → Option ExpireAt → Except ParseError (Option ExpireAt)
  | [], _, expiresAt => .ok expiresAt
  | opt :: rest, expirySeen, _ =>
      match (fromUtf8 opt).bind fun s => setOption now name (toAsciiUppercase s) with
      | none => .error .syntaxError
      | some deadline =>
          if expirySeen then .error .syntaxError
          else match rest with
            | [] => .error .syntaxError
            | nBytes :: rest => do
                let n ← parseI64 nBytes
                let expiresAt ← deadline n
                parseSetOptions now name rest true (some expiresAt)

def parseSet (now : ExpireAt) (rest : List Bytes) (name : String) : Except ParseError Command :=
  match rest with
  | key :: value :: options => do
      let expiresAt ← parseSetOptions now name options false none
      .ok (set key value expiresAt)
  | _ => .error (.arity name)

def parseExpire (now : ExpireAt) (rest : List Bytes) (name : String) (ms : Bool) :
    Except ParseError (Bytes × ExpireAt) :=
  match rest with
  | [key, n] => do
      let n ← parseI64 n
      let deadline ← expireRelativeDeadline now n ms name
      .ok (key, deadline)
  | _ => .error (.arity name)

def parseExpireAt (rest : List Bytes) (name : String) (ms : Bool) :
    Except ParseError (Bytes × ExpireAt) :=
  match rest with
  | [key, n] => do
      let n ← parseI64 n
      let deadline ← expireAbsoluteDeadline n ms name
      .ok (key, deadline)
  | _ => .error (.arity name)

def parsePush (rest : List Bytes) (name : String) : Except ParseError (Bytes × List Bytes) :=
  match rest with
  | key :: value :: values => .ok (key, value :: values)
  | _ => .error (.arity name)

def parsePop (rest : List Bytes) (name : String) : Except ParseError (Bytes × Option ℕ) :=
  match rest with
  | [key] => .ok (key, none)
  | [key, n] => do
      let count ← parseI64 n
      if count.toInt < 0 then .error .outOfRangePositive else .ok (key, some count.toInt.toNat)
  | _ => .error (.arity name)

/-- The `while let` loop that collects pairs. -/
def pairUp : List Bytes → List (Bytes × Bytes)
  | a :: b :: rest => (a, b) :: pairUp rest
  | _ => []

/-- The match of `from_frame` on the upper-case name. -/
def fromArgs (now : ExpireAt) (name : String) (rest : List Bytes) : Except ParseError Command :=
  let arityErr := .error (.arity name)
  match name with
  | "PING" =>
      match rest with
      | [] => .ok (ping none)
      | [msg] => .ok (ping (some msg))
      | _ => arityErr
  | "ECHO" => (oneArg rest name).map echo
  | "GET" => (oneArg rest name).map get
  | "SET" => parseSet now rest name
  | "DEL" => if rest.isEmpty then arityErr else .ok (del rest)
  | "EXISTS" => if rest.isEmpty then arityErr else .ok (existsKeys rest)
  | "INCR" => (oneArg rest name).map incr
  | "DECR" => (oneArg rest name).map decr
  | "INCRBY" =>
      match rest with
      | [key, n] => (parseI64 n).map (incrBy key)
      | _ => arityErr
  | "DECRBY" =>
      match rest with
      | [key, n] => (parseI64 n).map (decrBy key)
      | _ => arityErr
  | "APPEND" =>
      match rest with
      | [key, value] => .ok (append key value)
      | _ => arityErr
  | "STRLEN" => (oneArg rest name).map strlen
  | "MGET" => if rest.isEmpty then arityErr else .ok (mget rest)
  | "MSET" => if rest.isEmpty ∨ rest.length % 2 ≠ 0 then arityErr else .ok (mset (pairUp rest))
  | "EXPIRE" => (parseExpire now rest name false).map fun r => expire r.1 r.2
  | "PEXPIRE" => (parseExpire now rest name true).map fun r => pexpire r.1 r.2
  | "EXPIREAT" => (parseExpireAt rest name false).map fun r => pexpireAt r.1 r.2
  | "PEXPIREAT" => (parseExpireAt rest name true).map fun r => pexpireAt r.1 r.2
  | "TTL" => (oneArg rest name).map ttl
  | "PTTL" => (oneArg rest name).map pttl
  | "PERSIST" => (oneArg rest name).map persist
  | "LPUSH" => (parsePush rest name).map fun r => lpush r.1 r.2
  | "RPUSH" => (parsePush rest name).map fun r => rpush r.1 r.2
  | "LPOP" => (parsePop rest name).map fun r => lpop r.1 r.2
  | "RPOP" => (parsePop rest name).map fun r => rpop r.1 r.2
  | "LRANGE" =>
      match rest with
      | [key, start, stop] => do
          let start ← parseI64 start
          let stop ← parseI64 stop
          .ok (lrange key start stop)
      | _ => arityErr
  | "LLEN" => (oneArg rest name).map llen
  | "LINDEX" =>
      match rest with
      | [key, idx] => (parseI64 idx).map (lindex key)
      | _ => arityErr
  | "HSET" =>
      match rest with
      | key :: it =>
          if rest.length < 3 ∨ (rest.length - 1) % 2 ≠ 0 then arityErr
          else .ok (hset key (pairUp it))
      | [] => arityErr
  | "HGET" =>
      match rest with
      | [key, field] => .ok (hget key field)
      | _ => arityErr
  | "HDEL" =>
      match rest with
      | key :: field :: fields => .ok (hdel key (field :: fields))
      | _ => arityErr
  | "HKEYS" => (oneArg rest name).map hkeys
  | "HVALS" => (oneArg rest name).map hvals
  | "HGETALL" => (oneArg rest name).map hgetall
  | "HEXISTS" =>
      match rest with
      | [key, field] => .ok (hexists key field)
      | _ => arityErr
  | "HLEN" => (oneArg rest name).map hlen
  | "HINCRBY" =>
      match rest with
      | [key, field, n] => (parseI64 n).map (hincrby key field)
      | _ => arityErr
  | "SUBSCRIBE" => if rest.isEmpty then arityErr else .ok (subscribe rest)
  | "UNSUBSCRIBE" => .ok (unsubscribe (if rest.isEmpty then none else some rest))
  | "PUBLISH" =>
      match rest with
      | [channel, msg] => .ok (publish channel msg)
      | _ => arityErr
  | "INFO" =>
      match rest with
      | [] => .ok (info none)
      | [b] =>
          match fromUtf8 b with
          | some s => .ok (info (some (toAsciiLowercase s)))
          | none => .error .syntaxError
      | _ => arityErr
  | "BGREWRITEAOF" => if rest.isEmpty then .ok bgRewriteAof else arityErr
  | other => .ok (unknown other)

def expectBulk (frame : Frame) (idx : ℕ) : Except ParseError Bytes :=
  match frame with
  | .bulk b => .ok b
  | _ => .error (.notBulk idx)

/-- The arguments after the name, numbered from `idx`. -/
def expectBulks : List Frame → ℕ → Except ParseError (List Bytes)
  | [], _ => .ok []
  | item :: items, idx => do
      let b ← expectBulk item idx
      let rest ← expectBulks items (idx + 1)
      .ok (b :: rest)

def fromFrame (now : ExpireAt) : Frame → Except ParseError Command
  | .array [] => .error .empty
  | .array (nameFrame :: items) => do
      let nameBytes ← expectBulk nameFrame 0
      match fromUtf8 nameBytes with
      | none => .error .badName
      | some s =>
          let rest ← expectBulks items 1
          fromArgs now (toAsciiUppercase s) rest
  | _ => .error .notArray

/-! ## Execution -/

def apply (now : ExpireAt) (db : Db host) : Command → Frame × Db host
  | ping none => (.simple "PONG", db)
  | ping (some msg) => (.bulk msg, db)
  | echo msg => (.bulk msg, db)
  | get k => (Cmd.get now db k, db)
  | set key value expiresAt => Cmd.setAt db key value expiresAt
  | del keys => Cmd.del now db keys
  | existsKeys keys => (Cmd.existsKeys now db keys, db)
  | incr k => Cmd.incr now db k 1
  | decr k => Cmd.incr now db k (-1)
  | incrBy k n => Cmd.incr now db k n
  | decrBy k n =>
      match Cmd.checkedNegI64 n with
      | some neg => Cmd.incr now db k neg
      | none => (Cmd.overflow, db)
  | append k v => Cmd.append now db k v
  | strlen k => (Cmd.strlen now db k, db)
  | mget keys => (Cmd.mget now db keys, db)
  | mset pairs => Cmd.mset db pairs
  | expire k d | pexpire k d | pexpireAt k d => Cmd.expireAt now db k d
  | ttl k => (Cmd.ttl now db k false, db)
  | pttl k => (Cmd.ttl now db k true, db)
  | persist k => Cmd.persist now db k
  | lpush k vs => Cmd.lpush now db k vs
  | rpush k vs => Cmd.rpush now db k vs
  | lpop k c => Cmd.lpop now db k c
  | rpop k c => Cmd.rpop now db k c
  | lrange k s e => (Cmd.lrange now db k s e, db)
  | llen k => (Cmd.llen now db k, db)
  | lindex k i => (Cmd.lindex now db k i, db)
  | hset k pairs => Cmd.hset now db k pairs
  | hget k f => (Cmd.hget now db k f, db)
  | hdel k fs => Cmd.hdel now db k fs
  | hkeys k => (Cmd.hkeys now db k, db)
  | hvals k => (Cmd.hvals now db k, db)
  | hgetall k => (Cmd.hgetall now db k, db)
  | hexists k f => (Cmd.hexists now db k f, db)
  | hlen k => (Cmd.hlen now db k, db)
  | hincrby k f n => Cmd.hincrby now db k f n
  | publish ch _ =>
      let r := db.pubsubPublish ch
      (.integer (Int64.ofNat r.1), r.2)
  | info section_ => (infoFrame now db none none section_, db)
  | bgRewriteAof => (.error "ERR AOF is not enabled", db)
  | subscribe _ | unsubscribe _ =>
      (.error "ERR SUBSCRIBE/UNSUBSCRIBE must be handled by connection", db)
  | unknown name =>
      let safe := replaceCrlf '?' name
      (.error s!"ERR unknown command '{safe}'", db)

end Command
end MiniRedis
