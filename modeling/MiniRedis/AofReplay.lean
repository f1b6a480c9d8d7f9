import MiniRedis.Parser
import MiniRedis.Command

/-!
# Replaying the append-only file

The loop of `replay` over a file that is read in pieces. The pieces are what
`read_buf` returns before the end of the file, so none of them is empty; opening
and reading the file is assumed to succeed.
-/
namespace MiniRedis.Aof
open MiniRedis.Parser

variable {host : Host}

def maxAofBufferedFrameBytes : ℕ := 64 * 1024 * 1024

/-- The local variables of `replay`. -/
structure ReplayState (host : Host) where
  db : Db host
  buf : Bytes := []
  applied : ℕ := 0
  totalRead : ℕ := 0
  validLen : ℕ := 0
  truncateTo : Option ℕ := none

/-- The inner loop, over the frames in the buffer. Every turn but the last takes a frame off it. -/
def drain (now : ExpireAt) : ℕ → ReplayState host → ReplayState host
  | 0, s => s
  | fuel + 1, s =>
      if s.buf.isEmpty then s
      else
        let frameStart := s.totalRead - s.buf.length
        match parse s.buf with
        | .ok (none, buf) =>
            if maxAofBufferedFrameBytes < buf.length then
              { s with buf := buf, truncateTo := some s.validLen }
            else { s with buf := buf }
        | .ok (some frame, buf) =>
            match Command.fromFrame now frame with
            | .ok cmd =>
                let r := cmd.apply now s.db
                if r.1.isError then
                  { s with buf := buf, db := r.2, truncateTo := some frameStart }
                else
                  drain now fuel { s with
                    buf := buf
                    db := r.2
                    applied := s.applied + 1
                    validLen := s.totalRead - buf.length }
            | .error _ => { s with buf := buf, truncateTo := some frameStart }
        | .error _ => { s with truncateTo := some s.validLen }

/-- The outer loop. After the last piece `read_buf` returns zero and `eof` is set. -/
def replayLoop (now : ExpireAt) : List Bytes → ReplayState host → ReplayState host
  | [], s =>
      let s := drain now (s.buf.length + 1) s
      if s.truncateTo.isSome then s
      else
        let s := drain now (s.buf.length + 1) s
        if s.truncateTo.isSome then s
        else if s.buf.isEmpty then s else { s with truncateTo := some s.validLen }
  | piece :: pieces, s =>
      let s := drain now (s.buf.length + 1) s
      if s.truncateTo.isSome then s
      else replayLoop now pieces
        { s with buf := s.buf ++ piece, totalRead := s.totalRead + piece.length }

/-- The number of commands applied, the database, and the file afterwards. -/
structure Replayed (host : Host) where
  applied : ℕ
  db : Db host
  file : Bytes

def replay (now : ExpireAt) (db : Db host) (pieces : List Bytes) : Replayed host :=
  let file := pieces.flatten
  let s := replayLoop now pieces { db := db }
  ⟨s.applied, s.db,
    match s.truncateTo with
    | some len => if len < file.length then file.take len else file
    | none => file⟩

end MiniRedis.Aof
