import MiniRedis.AofReplay

/-!
# The snapshot that a rewrite writes

What `write_snapshot_entries` appends to the temporary file. Large values are split
into several frames: strings into the chunks of `APPEND`, lists and hashes into runs
of elements that fit one frame. Opening, writing and syncing the file succeed here;
the errors left are those of the encoding.
-/
namespace MiniRedis.Aof
open Wire

variable {host : Host}

abbrev Written := Except String Bytes

/-- `ok_or_else` with an error message. -/
def okOr {A : Type} (message : String) : Option A → Except String A
  | some a => .ok a
  | none => .error message

/-! ## Frames -/

def setFrame (now : ExpireAt) (key value : Bytes) (expiresAt : Option ExpireAt) : Frame :=
  let parts := [bulk "SET", .bulk key, .bulk value]
  match expiresAt with
  | some deadline => .array (parts ++ setExpiryParts now deadline)
  | none => .array parts

def pexpireFrame (key : Bytes) (ttlMs : ExpireAt) : Frame :=
  .array [bulk "PEXPIRE", .bulk key, bulkDecimal ttlMs]

def expiryFrame (now : ExpireAt) (key : Bytes) (deadline : ExpireAt) : Frame :=
  if deadline ≤ maxExpireAtMs then pexpireatFrame key deadline
  else pexpireFrame key (relativeMillisForAof now deadline)

def frameIsReplayable (frame : Frame) : Bool :=
  (encodedLen frame).any (· ≤ maxAofBufferedFrameBytes)

def writeReplayableSnapshotFrame (frame : Frame) : Written := do
  let len ← okOr "AOF rewrite frame length overflow" (encodedLen frame)
  if maxAofBufferedFrameBytes < len then
    .error s!"AOF rewrite frame length {len} exceeds replay limit {maxAofBufferedFrameBytes}"
  else .ok (encode frame [])

def writeExpirySnapshot (now : ExpireAt) (key : Bytes) (expiresAt : Option ExpireAt) : Written :=
  match expiresAt with
  | some deadline => writeReplayableSnapshotFrame (expiryFrame now key deadline)
  | none => .ok []

/-! ## Lengths -/

def commandKeyBaseLen (command : String) (key : Bytes) (totalItems : ℕ) : Option ℕ :=
  (respArrayHeaderLen totalItems).bind fun header =>
    (respBulkLen (asBytes command).length).bind fun name =>
      (checkedAdd header name).bind fun n => (respBulkLen key.length).bind (checkedAdd n)

def chunkedCommandLen (command : String) (key : Bytes) (payloadItems payloadLen : ℕ) : Option ℕ :=
  (commandKeyBaseLen command key (payloadItems + 2)).bind (checkedAdd · payloadLen)

/-- The bisection of `max_payload_len_for_frame`. Every turn shortens the interval. -/
def searchPayloadLen (baseLen : ℕ) : ℕ → ℕ → ℕ → Option ℕ
  | 0, lo, _ => some lo
  | fuel + 1, lo, hi =>
      if lo < hi then
        let mid := lo + (hi - lo + 1) / 2
        (respBulkLen mid).bind fun n =>
          let fits := (checkedAdd baseLen n).any (· ≤ maxAofBufferedFrameBytes)
          if fits then searchPayloadLen baseLen fuel mid hi
          else searchPayloadLen baseLen fuel lo (mid - 1)
      else some lo

def maxPayloadLenForFrame (baseLen : ℕ) : Option ℕ :=
  (respBulkLen 0).bind fun empty => (checkedAdd baseLen empty).bind fun n =>
    if maxAofBufferedFrameBytes < n then none
    else
      let hi := min maxBulkLen maxAofBufferedFrameBytes
      searchPayloadLen baseLen (hi + 1) 0 hi

def maxAppendChunkLen (key : Bytes) : Option ℕ :=
  (commandKeyBaseLen "APPEND" key 3).bind maxPayloadLenForFrame

/-! ## Values -/

/-- The loop over the chunks of a string. Every turn takes a byte, as the chunks are not empty. -/
def writeAppendChunks (key : Bytes) (chunkLen : ℕ) : ℕ → Bytes → Written
  | 0, _ => .ok []
  | fuel + 1, value =>
      if value.isEmpty then .ok []
      else do
        let chunk ← writeReplayableSnapshotFrame
          (.array [bulk "APPEND", .bulk key, .bulk (value.take chunkLen)])
        let rest ← writeAppendChunks key chunkLen fuel (value.drop chunkLen)
        .ok (chunk ++ rest)

def writeStringSnapshot (now : ExpireAt) (key value : Bytes) (expiresAt : Option ExpireAt) :
    Written :=
  let fullSet := setFrame now key value expiresAt
  if frameIsReplayable fullSet then writeReplayableSnapshotFrame fullSet
  else do
    let emptySet ← writeReplayableSnapshotFrame (setFrame now key [] none)
    let chunkLen ← okOr "AOF rewrite cannot encode APPEND frame within replay limit"
      (maxAppendChunkLen key)
    if chunkLen = 0 ∧ ¬ value.isEmpty then
      .error "AOF rewrite cannot encode non-empty string chunks within replay limit"
    else do
      let chunks ← writeAppendChunks key chunkLen value.length value
      let expiry ← writeExpirySnapshot now key expiresAt
      .ok (emptySet ++ chunks ++ expiry)

/-- What the loops over lists and over hashes do not have in common. -/
structure Chunking (A : Type) where
  /-- The encoded length of an item. -/
  itemLen : A → Except String ℕ
  /-- The payload length with one more item. -/
  addLen : ℕ → ℕ → Except String ℕ
  /-- The length of the frame for a number of items and a payload length. -/
  frameLen : ℕ → ℕ → Except String ℕ
  write : List A → Written
  tooLarge : String

/-- The loop over the items, with `current` and `payload_len`, and the last write after it. -/
def writeChunks {A : Type} (chunking : Chunking A) : List A → List A → ℕ → Written
  | [], current, _ => if current.isEmpty then .ok [] else chunking.write current
  | item :: items, current, payloadLen => do
      let itemLen ← chunking.itemLen item
      let nextPayloadLen ← chunking.addLen payloadLen itemLen
      let nextLen ← chunking.frameLen (current.length + 1) nextPayloadLen
      if nextLen ≤ maxAofBufferedFrameBytes then
        writeChunks chunking items (current ++ [item]) nextPayloadLen
      else if current.isEmpty then .error chunking.tooLarge
      else do
        let chunk ← chunking.write current
        let singleLen ← chunking.frameLen 1 itemLen
        if maxAofBufferedFrameBytes < singleLen then .error chunking.tooLarge
        else do
          let rest ← writeChunks chunking items [item] itemLen
          .ok (chunk ++ rest)

def writeRpushSnapshot (key : Bytes) (values : List Bytes) : Written :=
  writeReplayableSnapshotFrame (commandWithValues "RPUSH" key values)

def listChunking (key : Bytes) : Chunking Bytes where
  itemLen value := okOr "AOF rewrite list element length overflow" (respBulkLen value.length)
  addLen payloadLen valueLen := .ok (payloadLen + valueLen)
  frameLen items payloadLen := okOr "AOF rewrite RPUSH frame length overflow"
    (chunkedCommandLen "RPUSH" key items payloadLen)
  write := writeRpushSnapshot key
  tooLarge := "AOF rewrite list element exceeds replayable frame limit"

def writeListSnapshot (now : ExpireAt) (key : Bytes) (values : List Bytes)
    (expiresAt : Option ExpireAt) : Written := do
  let chunks ← writeChunks (listChunking key) values [] 0
  let expiry ← writeExpirySnapshot now key expiresAt
  .ok (chunks ++ expiry)

def writeHsetSnapshot (key : Bytes) (pairs : List (Bytes × Bytes)) : Written :=
  writeReplayableSnapshotFrame (.array (bulk "HSET" :: .bulk key :: pairParts pairs))

def hashChunking (key : Bytes) : Chunking (Bytes × Bytes) where
  itemLen pair := do
    let fieldLen ← okOr "AOF rewrite hash field length overflow" (respBulkLen pair.1.length)
    let valueLen ← okOr "AOF rewrite hash value length overflow" (respBulkLen pair.2.length)
    okOr "AOF rewrite hash pair length overflow" (checkedAdd fieldLen valueLen)
  addLen payloadLen pairLen := okOr "AOF rewrite HSET frame length overflow"
    (checkedAdd payloadLen pairLen)
  frameLen pairs payloadLen := okOr "AOF rewrite HSET frame length overflow"
    (chunkedCommandLen "HSET" key (pairs * 2) payloadLen)
  write := writeHsetSnapshot key
  tooLarge := "AOF rewrite hash pair exceeds replayable frame limit"

/-- The fields of a hash, as `sort_by` orders them. -/
def sortedFields (values : HashMap Bytes Bytes) : List (Bytes × Bytes) :=
  (values.entries.map fun e => (e.1, e.2)).insertionSort fun a b => bytesLe a.1 b.1 = true

def writeHashSnapshot (now : ExpireAt) (key : Bytes) (values : HashMap Bytes Bytes)
    (expiresAt : Option ExpireAt) : Written := do
  let chunks ← writeChunks (hashChunking key) (sortedFields values) [] 0
  let expiry ← writeExpirySnapshot now key expiresAt
  .ok (chunks ++ expiry)

def writeSnapshotEntry (now : ExpireAt) (key : Bytes) (entry : Entry) : Written :=
  if entryExpired now entry then .ok []
  else match entry.value with
    | .string value => writeStringSnapshot now key value entry.expiresAt
    | .list values =>
        if values.isEmpty then .ok [] else writeListSnapshot now key values entry.expiresAt
    | .hash values =>
        if values.entries.isEmpty then .ok []
        else writeHashSnapshot now key values entry.expiresAt

/-- The entries are written one after the other, each at its own reading of the clock. -/
def writeSnapshotEntries (clock : Bytes → ExpireAt) : List (Bytes × Entry) → Written
  | [] => .ok []
  | (key, entry) :: entries => do
      let bytes ← writeSnapshotEntry (clock key) key entry
      let rest ← writeSnapshotEntries clock entries
      .ok (bytes ++ rest)

end MiniRedis.Aof
