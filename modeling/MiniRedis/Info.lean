import MiniRedis.Database

/-!
# The INFO report

The report over the database, and over the statistics of the append-only file
and of the server where the caller has them.
-/
namespace MiniRedis

inductive FsyncPolicy where
  | always
  | everySec
  | no
deriving DecidableEq, Repr

def FsyncPolicy.asStr : FsyncPolicy → String
  | .always => "always"
  | .everySec => "everysec"
  | .no => "no"

/-- What `AofHandle::stats` reports. -/
structure AofStats where
  path : String
  fsyncPolicy : FsyncPolicy
  currentSize : ℕ
  rewriteInProgress : Bool
  rewriteCount : ℕ
  lastRewriteStatus : String
  lastRewriteFinishedMs : ℕ
  writeFailed : Bool
  lastError : Option String

structure ServerState where
  connectedClients : ℕ
  totalConnections : ℕ
  startedAtMs : ℕ

/-- `value.chars().map(..)`: every CR and LF replaced. -/
def replaceCrlf (by_ : Char) (value : String) : String :=
  String.ofList (value.toList.map fun c => if c = '\r' ∨ c = '\n' then by_ else c)

def sanitizeInfoValue (value : String) : String := replaceCrlf ' ' value

/-- A `usize` counter, which has wrapped around if it was too large. -/
def asUsize (n : ℕ) : ℕ := n % 2 ^ 64

def flag (b : Bool) : String := if b then "1" else "0"

variable {host : Host}

def infoServer (host : Host) (now : ExpireAt) (state : Option ServerState) : String :=
  "# Server\r\n" ++ "redis_version:mini-redis-rs-0.1.0\r\n" ++ "redis_mode:standalone\r\n" ++
    "arch_bits:64\r\n" ++ s!"process_id:{host.processId}\r\n" ++
    (match state with
      | some state =>
          let uptimeMs := now % 2 ^ 64 - state.startedAtMs
          s!"uptime_in_seconds:{uptimeMs / 1000}\r\n"
      | none => "") ++ "\r\n"

def infoClients (state : Option ServerState) : String :=
  "# Clients\r\n" ++
    (match state with
      | some state => s!"connected_clients:{state.connectedClients}\r\n" ++
          s!"total_connections_received:{state.totalConnections}\r\n"
      | none => "connected_clients:0\r\n" ++ "total_connections_received:0\r\n") ++ "\r\n"

def infoMemory (stats : DbStats) : String :=
  "# Memory\r\n" ++ s!"used_memory:{asUsize stats.approxBytes}\r\n" ++
    s!"db_keys:{asUsize stats.keys}\r\n" ++
    s!"db_expiring_keys:{asUsize stats.expiringKeys}\r\n" ++
      s!"string_keys:{asUsize stats.strings}\r\n" ++
    s!"list_keys:{asUsize stats.lists}\r\n" ++ s!"hash_keys:{asUsize stats.hashes}\r\n" ++
    s!"list_items:{asUsize stats.listItems}\r\n" ++
      s!"hash_fields:{asUsize stats.hashFields}\r\n" ++ "\r\n"

def infoPersistence (aof : Option AofStats) : String :=
  "# Persistence\r\n" ++
    (match aof with
      | some stats =>
          "aof_enabled:1\r\n" ++ s!"aof_current_size:{stats.currentSize}\r\n" ++
          s!"aof_fsync:{stats.fsyncPolicy.asStr}\r\n" ++
          s!"aof_rewrite_in_progress:{flag stats.rewriteInProgress}\r\n" ++
          s!"aof_rewrites:{stats.rewriteCount}\r\n" ++
          s!"aof_last_rewrite_status:{stats.lastRewriteStatus}\r\n" ++
          s!"aof_last_rewrite_time_ms:{stats.lastRewriteFinishedMs}\r\n" ++
          s!"aof_write_failed:{flag stats.writeFailed}\r\n" ++
          (match stats.lastError with
            | some err => s!"aof_last_error:{sanitizeInfoValue err}\r\n"
            | none => "") ++
          s!"aof_filename:{sanitizeInfoValue stats.path}\r\n"
      | none => "aof_enabled:0\r\n" ++ "aof_rewrite_in_progress:0\r\n") ++ "\r\n"

def infoFrame (now : ExpireAt) (db : Db host) (aof : Option AofStats) (state : Option ServerState)
    (section_ : Option String) : Frame :=
  let wantsAll := match section_ with
    | some s => s == "default" || s == "all"
    | none => true
  let include_ (name text : String) := if wantsAll || section_ == some name then text else ""
  .bulk (asBytes (include_ "server" (infoServer host now state) ++
    include_ "clients" (infoClients state) ++ include_ "memory" (infoMemory (db.stats now)) ++
    include_ "persistence" (infoPersistence aof)))

end MiniRedis
