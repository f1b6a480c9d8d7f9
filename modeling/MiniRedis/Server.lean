import MiniRedis.Command

/-!
# Executing a command in the server

The branch of `handle` that runs a command under the write gate, with the append
to the file as an argument, and the one for a request that is no command. The replies
to `SUBSCRIBE`, `UNSUBSCRIBE`, `INFO` and `BGREWRITEAOF` are made in other branches,
none of which touches an entry.
-/
namespace MiniRedis.Server

variable {host : Host}

structure Outcome (host : Host) where
  reply : Frame
  db : Db host
  /-- The frame that was appended to the file. -/
  logged : Option Frame := none

/-- `append` is the acknowledgement of the writer, or its error. -/
def execute (now : ExpireAt) (append : Frame → Except String Unit) (db : Db host) (cmd : Command) :
    Outcome host :=
  let aofFrame := if cmd.isWrite then cmd.aofFrame now else none
  let rollback := db.snapshotEntries cmd.mutatedKeys
  let r := cmd.apply now db
  if r.1.isError then ⟨r.1, r.2, none⟩
  else match aofFrame with
    | none => ⟨r.1, r.2, none⟩
    | some frame =>
        match append frame with
        | .ok () => ⟨r.1, r.2, some frame⟩
        | .error e => ⟨.error s!"ERR AOF write failed: {e}", r.2.restoreEntries rollback, none⟩

def sanitizeErrorMessage (value : String) : String := replaceCrlf ' ' value

def protocolErrorFrame (message : String) : Frame :=
  .error s!"ERR Protocol error: {sanitizeErrorMessage message}"

/-- What `handle_command_parse_error` sends: nothing for an empty command. -/
def commandParseErrorFrame (err : ParseError) : Option Frame :=
  if err = .empty then none
  else if err.isProtocolError then some (protocolErrorFrame err.message)
  else some (.error s!"ERR {err.message}")

/-- The answer to a request outside of subscribed mode, which is read at one clock and
executed at another. -/
def reply (readAt now : ExpireAt) (db : Db host) (request : Frame) : Option Frame :=
  match Command.fromFrame readAt request with
  | .ok cmd => some (cmd.apply now db).1
  | .error err => commandParseErrorFrame err

/-- A run in which every append is acknowledged: the database and the frames in the file. -/
def serve (db : Db host) : List (ExpireAt × Command) → Db host × List Frame
  | [] => (db, [])
  | (now, cmd) :: run =>
      let o := execute now (fun _ => .ok ()) db cmd
      let r := serve o.db run
      (r.1, o.logged.toList ++ r.2)

end MiniRedis.Server
