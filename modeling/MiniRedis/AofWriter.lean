import MiniRedis.AofReplay
import MiniRedis.QueuedFile

/-!
# The writer task of the append-only file

One message of `run_writer` is one step. How the calls to the operating system end
is an argument of the step, and so is whether a second has passed since the last
sync. The handle of the writer and the path of the log name the same file between
messages, so the state has it once; the temporary file belongs to the task that
rewrites, and the step that opens it is given its contents. `write_all` on a handle
of tokio returns while the write of its last piece is still in flight.
-/
namespace MiniRedis.Aof
open Wire

def maxRewriteBufferBytes : ℕ := 64 * 1024 * 1024

/-- What a handle takes over for one write in the background. -/
def maxFileBufSize : ℕ := 2 * 1024 * 1024

/-- How a call ends: with the error of the operating system, or not. -/
abbrev CallResult := Except String Unit

structure AofStatsInner where
  currentSize : ℕ
  rewriteInProgress : Bool := false
  rewriteCount : ℕ := 0
  lastRewriteOk : Bool := false
  lastRewriteFinishedMs : ℕ := 0
  writeFailed : Bool := false
  lastError : Option String := none

structure RewriteBuffer where
  frames : List Bytes := []
  bytes : ℕ := 0

def RewriteBuffer.push (buffer : RewriteBuffer) (bytes : Bytes) : Except String RewriteBuffer :=
  match checkedAdd buffer.bytes bytes.length with
  | none => .error "AOF rewrite buffer size overflow"
  | some newSize =>
      if maxRewriteBufferBytes < newSize then
        .error s!"AOF rewrite buffer exceeded limit of {maxRewriteBufferBytes} bytes"
      else .ok ⟨buffer.frames ++ [bytes], newSize⟩

/-- The file, and what the writer shares or keeps. -/
structure Writer where
  file : QueuedFile UInt8
  stats : AofStatsInner
  rewriteBuffer : Option RewriteBuffer := none

/-- The writer that `spawn_writer` starts on a file. -/
def spawnWriter (file : Bytes) : Writer where
  file := { bytes := file }
  stats := { currentSize := file.length }

/-- `set_len`: a longer file is cut, a shorter one filled up with zeros. -/
def setLen (len : ℕ) (file : Bytes) : Bytes :=
  file.take len ++ List.replicate (len - file.length) 0

namespace Writer

def setSize (size : ℕ) (w : Writer) : Writer :=
  { w with stats := { w.stats with currentSize := size } }

def setLastError (e : String) (w : Writer) : Writer :=
  { w with stats := { w.stats with lastError := some e } }

def markWriteFailed (e : String) (w : Writer) : Writer :=
  { w with stats := { w.stats with writeFailed := true, lastError := some e } }

/-- The write in flight has ended; its error, if there is one, waits for the next write. -/
def settle (w : Writer) : Writer := { w with file := w.file.settle }

/-- `write_all` reports the error of the write before it, or that of a piece which is not its
last one. -/
def writeOne (bytes : Bytes) (previousLen : ℕ) (writeAll : WriteResult) (w : Writer) :
    CallResult × Writer :=
  let start := lastPiece maxFileBufSize bytes.length
  match w.file.push bytes start (writeAll.push start) with
  | (.ok (), file) => (.ok (), setSize (previousLen + bytes.length) { w with file := file })
  | (.error e, file) => (.error e, { w with file := file })

/-- `set_len` waits for the write in flight. The result of the `sync_data` behind it is ignored,
and so is its own by the callers. -/
def rollbackActiveFile (previousLen : ℕ) (setLenResult : CallResult) (w : Writer) : Writer :=
  match setLenResult with
  | .ok () => setSize previousLen
      { w with file := { w.file.settle with bytes := setLen previousLen w.file.contents } }
  | .error _ => w.settle

/-- Whether `sync_after_write` calls `sync_data`. -/
def syncs (policy : FsyncPolicy) (elapsed : Bool) : Bool :=
  match policy with
  | .always => true
  | .everySec => elapsed
  | .no => false

/-- `sync_data` waits for the write in flight, but does not report its error. -/
def syncAfterWrite (policy : FsyncPolicy) (elapsed : Bool) (syncData : CallResult) (w : Writer) :
    CallResult × Writer :=
  if syncs policy elapsed then (syncData, w.settle) else (.ok (), w)

/-- The calls made for a `Write`. -/
structure WriteCalls where
  writeAll : WriteResult := .ok ()
  elapsed : Bool := false
  syncData : CallResult := .ok ()
  setLen : CallResult := .ok ()

/-- The block that computes `result`. -/
def writeFrame (policy : FsyncPolicy) (bytes : Bytes) (calls : WriteCalls) (w : Writer) :
    CallResult × Writer :=
  let previousLen := w.stats.currentSize
  match w.writeOne bytes previousLen calls.writeAll with
  | (.error e, w) => (.error e, w.rollbackActiveFile previousLen calls.setLen)
  | (.ok (), w) =>
      match w.syncAfterWrite policy calls.elapsed calls.syncData with
      | (.error e, w) => (.error e, w.rollbackActiveFile previousLen calls.setLen)
      | (.ok (), w) => (.ok (), w)

/-- A frame that the rewrite buffer cannot take ends the rewrite, not the write. -/
def bufferFrame (bytes : Bytes) (w : Writer) : Writer :=
  match w.rewriteBuffer with
  | none => w
  | some buffer =>
      match buffer.push bytes with
      | .ok buffer => { w with rewriteBuffer := some buffer }
      | .error e => setLastError e { w with rewriteBuffer := none }

def write (policy : FsyncPolicy) (bytes : Bytes) (calls : WriteCalls) (w : Writer) :
    CallResult × Writer :=
  if w.stats.writeFailed then (.error "AOF writer is in failed state", w)
  else match w.writeFrame policy bytes calls with
    | (.ok (), w) => (.ok (), w.bufferFrame bytes)
    | (.error e, w) => (.error e, w.markWriteFailed e)

def startRewrite (w : Writer) : CallResult × Writer :=
  if w.rewriteBuffer.isSome then (.error "AOF rewrite already in progress", w)
  else (.ok (), { w with rewriteBuffer := some {} })

/-- The calls made for a `FinishRewrite`; opening the temporary file shows its contents. Those
that append the buffered frames are taken together. -/
structure FinishCalls where
  openTemp : Except String Bytes
  append : PushResult := .ok (.ok ())
  syncTemp : CallResult := .ok ()
  rename : CallResult := .ok ()
  syncParent : CallResult := .ok ()
  syncActive : CallResult := .ok ()
  metadata : CallResult := .ok ()

/-- `finish_rewrite_file` up to the rename: the new file. Its sync leaves nothing in flight. -/
def replacement (calls : FinishCalls) (buffer : RewriteBuffer) :
    Except String (QueuedFile UInt8) := do
  let temp ← calls.openTemp
  let r := QueuedFile.push buffer.frames.flatten 0 calls.append { bytes := temp }
  r.1
  calls.syncTemp
  calls.rename
  .ok r.2.settle

/-- `finish_rewrite_file` after the rename. With the handle of the old file goes its error. -/
def switchTo (policy : FsyncPolicy) (calls : FinishCalls) (file : QueuedFile UInt8) (w : Writer) :
    CallResult × Writer :=
  let w := { w with file := file }
  match if policy = .always then calls.syncActive else .ok () with
  | .error e => (.error e, w)
  | .ok () =>
      let len := match calls.metadata with
        | .ok () => file.bytes.length
        | .error _ => 0
      (calls.syncParent, w.setSize len)

def finishRewrite (policy : FsyncPolicy) (calls : FinishCalls) (w : Writer) :
    CallResult × Writer :=
  match w.rewriteBuffer with
  | none => (.error "AOF rewrite is not in progress", w)
  | some buffer =>
      let w := { w with rewriteBuffer := none }
      match replacement calls buffer with
      | .error e => (.error e, w)
      | .ok file => w.switchTo policy calls file

def abortRewrite (reason : String) (w : Writer) : Writer :=
  setLastError reason { w with rewriteBuffer := none }

/-- The timer of the `everysec` policy. -/
def tick (syncData : CallResult) (w : Writer) : Writer :=
  match syncData with
  | .ok () => w.settle
  | .error e => w.settle.markWriteFailed e

end Writer

/-- A message, or the timer, with the results of the calls that are made for it; or the end of
the write in flight. -/
inductive WriterStep where
  | write (bytes : Bytes) (calls : Writer.WriteCalls)
  | startRewrite
  | finishRewrite (calls : Writer.FinishCalls)
  | abortRewrite (reason : String)
  | tick (syncData : CallResult)
  | land

/-- The acknowledgement of a message, and the writer after it. -/
def Writer.handle (policy : FsyncPolicy) (w : Writer) : WriterStep → CallResult × Writer
  | .write bytes calls => w.write policy bytes calls
  | .startRewrite => w.startRewrite
  | .finishRewrite calls => w.finishRewrite policy calls
  | .abortRewrite reason => (.ok (), w.abortRewrite reason)
  | .tick syncData => (.ok (), if policy = .everySec then w.tick syncData else w)
  | .land => (.ok (), w.settle)

end MiniRedis.Aof
