import MiniRedis.ReplaySimulation

/-!
# What a restart finds

The log of a run of client commands is replayed at a later clock. If every logged
frame can be read back and every acknowledged write is safe to rerun then, the whole
log is applied and gives the live view of the server that kept running.
-/
namespace MiniRedis.Server
open Wire MiniRedis.Parser ParserRoundTrip Aof

variable {host host' : Host} {later : ExpireAt} {run : List (ExpireAt × Command)}

/-- The file after a run from an empty database. -/
def logFile (host : Host) (run : List (ExpireAt × Command)) : Bytes :=
  (serve (Db.new : Db host) run).2.flatMap fun frame => encode frame []

theorem logFile_eq (host : Host) (run : List (ExpireAt × Command)) :
    logFile host run = (serve (Db.new : Db host) run).2.flatMap wire := by
  unfold logFile
  congr 1
  funext frame
  rw [encode_eq_append, List.nil_append]

/-- The reader takes a logged frame of a client's write, unless it is too long. -/
theorem readable_of_logged {db : Db host} {frame : Frame} (hrun : ∀ e ∈ run, Admissible later e)
    (h : frame ∈ (serve db run).2) (hlen : (wire frame).length ≤ maxBufferedFrameBytes) :
    Readable frame := by
  obtain ⟨t, ht, -, hframe⟩ := acknowledged_of_logged h
  rw [Command.aofFrame_eq] at hframe
  obtain ⟨args, hargs, rfl⟩ := Option.map_eq_some_iff.mp hframe
  exact readable_command ((hrun _ (Runs.label_mem ht)).fromClient.logged_length hargs) hlen

/-- The steps of the run that were acknowledged are safe to rerun at `later`. -/
def RerunSafe (later : ExpireAt) (db : Db host) (run : List (ExpireAt × Command)) : Prop :=
  ∀ t ∈ Runs.taken step run db, Acknowledged t → t.2.2.ReplaySafe later (t.1.view t.2.1)

theorem replay_logFile (host' : Host) {pieces : List Bytes} (hrun : ∀ e ∈ run, Admissible later e)
    (hsafe : RerunSafe later (Db.new : Db host) run)
    (hlen : ∀ frame ∈ (serve (Db.new : Db host) run).2,
      (wire frame).length ≤ maxBufferedFrameBytes)
    (hfile : pieces.flatten = logFile host run) :
    ∃ db : Db host', replay later Db.new pieces =
        ⟨(serve (Db.new : Db host) run).2.length, db, logFile host run⟩ ∧
      db.view later = (serve (Db.new : Db host) run).1.view later := by
  have hnew : (Db.new : Db host').view later = (Db.new : Db host).view later := rfl
  obtain ⟨db, ha, hv⟩ := applyFrames_serve hrun hnew hsafe
  refine ⟨db, ?_, hv⟩
  rw [← hfile]
  exact replay_spec (hfile.trans (logFile_eq host run))
    (fun frame hf => readable_of_logged hrun hf (hlen frame hf)) ha

/-- A restart gives the live view of the server that kept running. -/
theorem replay_agrees {pieces : List Bytes} (hrun : ∀ e ∈ run, Admissible later e)
    (hsafe : RerunSafe later (Db.new : Db host) run)
    (hfits : ∀ t ∈ Runs.taken step run (Db.new : Db host), Acknowledged t →
      t.2.2.ExpiryFits t.2.1)
    (hfile : pieces.flatten = logFile host run) :
    (replay later (Db.new : Db host') pieces).db.view later =
      (serve (Db.new : Db host) run).1.view later := by
  have hlen : ∀ frame ∈ (serve (Db.new : Db host) run).2,
      (wire frame).length ≤ maxBufferedFrameBytes := by
    intro frame hf
    obtain ⟨t, ht, hack, hframe⟩ := acknowledged_of_logged hf
    have hc := (hrun _ (Runs.label_mem ht)).fromClient
    obtain ⟨frame', hframe', hle, -⟩ := (hc.readsBack_iff hack.1 t.2.1).mpr (hfits t ht hack)
    obtain rfl := Option.some.inj (hframe.symm.trans hframe')
    rwa [encode_eq_append, List.nil_append] at hle
  obtain ⟨db, hr, hv⟩ := replay_logFile host' hrun hsafe hlen hfile
  rw [hr, hv]

/-- A log of acknowledged writes is applied whole, and no byte of it is cut off. -/
theorem log_not_truncated {pieces : List Bytes} (hrun : ∀ e ∈ run, Admissible later e)
    (hlen : ∀ frame ∈ (serve (Db.new : Db host) run).2,
      (encode frame []).length ≤ maxAofBufferedFrameBytes)
    (hsafe : RerunSafe later (Db.new : Db host) run)
    (hfile : pieces.flatten = logFile host run) :
    (replay later (Db.new : Db host') pieces).applied = (serve (Db.new : Db host) run).2.length ∧
      (replay later (Db.new : Db host') pieces).file = logFile host run := by
  have hlen' : ∀ frame ∈ (serve (Db.new : Db host) run).2,
      (wire frame).length ≤ maxBufferedFrameBytes := by
    intro frame hf
    have := hlen frame hf
    rwa [encode_eq_append, List.nil_append] at this
  obtain ⟨db, hr, -⟩ := replay_logFile host' hrun hsafe hlen' hfile
  rw [hr]
  exact ⟨rfl, rfl⟩

/-! ## Runs that a restart does not agree with -/

/-- A host that keeps every key in one shard. -/
abbrev oneShard : Host := ⟨fun _ => 0, 1⟩

theorem fromClient_of_args (now : ExpireAt) (args : List Bytes) {c : Command}
    (hn : args.length ≤ maxArrayLen)
    (hlen : (wire (commandFrame args)).length ≤ maxBufferedFrameBytes)
    (h : Command.fromFrame now (commandFrame args) = .ok c) : c.FromClient :=
  ⟨_, _, _, now, parse_command hn hlen [], h⟩

/-- `SET k v PX 100`, read at 1000. -/
theorem fromClient_set : (Command.set [107] [118] (some 1100)).FromClient := by
  have hn : Command.parseI64 (Numeral.decimal 100) = .ok 100 :=
    Command.parseI64_eq_ok.mpr (readI64_signed 100)
  have hpx : Command.setOption 1000 "SET" (toAsciiUppercase "PX") =
    some fun n => Command.setRelativeDeadline 1000 n true "SET" := rfl
  refine fromClient_of_args 1000 [asBytes "SET", [107], [118], asBytes "PX", Numeral.decimal 100]
    (by decide) (by decide) ?_
  rw [Command.fromFrame_command]
  change Command.parseSet 1000 [[107], [118], asBytes "PX", Numeral.decimal 100] "SET" = _
  rw [Command.parseSet, Command.parseSetOptions_one hpx hn]
  rfl

theorem inRange_set : (Command.set [107] [118] (some 1100)).DeadlineInRange :=
  (by decide : 1100 ≤ maxExpireAtMs)

def setFrame : Frame :=
  commandFrame [asBytes "SET", [107], [118], asBytes "PXAT", Numeral.decimal 1100]

def persistFrame : Frame := commandFrame [asBytes "PERSIST", [107]]

def appendFrame : Frame := commandFrame [asBytes "APPEND", [107], [121]]

def incrFrame : Frame := commandFrame [asBytes "INCR", [107]]

theorem fromFrame_setFrame (now : ExpireAt) :
    Command.fromFrame now setFrame = .ok (.set [107] [118] (some 1100)) :=
  fromClient_set.reread inRange_set (rfl : Command.aofFrame 0 _ = some setFrame) now

theorem fromFrame_persistFrame (now : ExpireAt) :
    Command.fromFrame now persistFrame = .ok (.persist [107]) :=
  (Command.fromFrame_command _ _ _).trans rfl

theorem fromFrame_appendFrame (now : ExpireAt) :
    Command.fromFrame now appendFrame = .ok (.append [107] [121]) :=
  (Command.fromFrame_command _ _ _).trans rfl

theorem fromFrame_incrFrame (now : ExpireAt) :
    Command.fromFrame now incrFrame = .ok (.incr [107]) :=
  (Command.fromFrame_command _ _ _).trans rfl

/-- A key whose deadline is removed in time. -/
def persistRun : List (ExpireAt × Command) :=
  [(1000, .set [107] [118] (some 1100)), (1050, .persist [107])]

theorem admissible_persistRun {later : ExpireAt} (h : 1050 ≤ later) :
    ∀ e ∈ persistRun, Admissible later e :=
  List.forall_mem_cons.mpr ⟨⟨fromClient_set, inRange_set, Nat.le_trans (by decide) h⟩,
    List.forall_mem_cons.mpr ⟨⟨fromClient_of_args 0 _ (by decide) (by decide)
      (fromFrame_persistFrame 0), trivial, h⟩, List.forall_mem_nil _⟩⟩

/-- It is missing after a restart past that deadline. -/
theorem persisted_key_lost :
    (∀ e ∈ persistRun, Admissible 1200 e) ∧
    (serve (Db.new : Db oneShard) persistRun).1.view 1200 [107] = some ⟨.string [118], none⟩ ∧
    (replay 1200 (Db.new : Db oneShard) [logFile oneShard persistRun]).db.view 1200 [107] =
      none := by
  refine ⟨admissible_persistRun (by decide), rfl, ?_⟩
  have hlog : (serve (Db.new : Db oneShard) persistRun).2 = [setFrame, persistFrame] := rfl
  have hread : ∀ frame ∈ [setFrame, persistFrame], Readable frame :=
    List.forall_mem_cons.mpr ⟨readable_command (by decide) (by decide),
      List.forall_mem_cons.mpr ⟨readable_command (by decide) (by decide), List.forall_mem_nil _⟩⟩
  have ha : applyFrames 1200 [setFrame, persistFrame] (Db.new : Db oneShard) = some _ :=
    Option.bind_eq_some_iff.mpr ⟨_, applyFrame_eq_some.mpr ⟨_, fromFrame_setFrame 1200, rfl, rfl⟩,
      Option.bind_eq_some_iff.mpr
        ⟨_, applyFrame_eq_some.mpr ⟨_, fromFrame_persistFrame 1200, rfl, rfl⟩, rfl⟩⟩
  have hfile : [logFile oneShard persistRun].flatten = [setFrame, persistFrame].flatMap wire := by
    rw [List.flatten_singleton, logFile_eq, hlog]
  rw [replay_spec hfile hread ha]
  rfl

theorem rerunSafe_persistRun : RerunSafe 1099 (Db.new : Db oneShard) persistRun := by
  refine List.forall_mem_cons.mpr ⟨fun _ => Or.inl rfl,
    List.forall_mem_cons.mpr ⟨fun _ => Or.inr fun k hk entry d hv hd => ?_, List.forall_mem_nil _⟩⟩
  obtain rfl := List.mem_singleton.mp hk
  obtain rfl : (⟨.string [118], some 1100⟩ : Entry) = entry := Option.some.inj hv
  obtain rfl : 1100 = d := Option.some.inj hd
  decide

/-- A restart before that deadline finds it. -/
theorem replay_agrees_persistRun :
    (replay 1099 (Db.new : Db oneShard) [logFile oneShard persistRun]).db.view 1099 =
      (serve (Db.new : Db oneShard) persistRun).1.view 1099 :=
  replay_agrees (admissible_persistRun (by decide)) rerunSafe_persistRun
    (List.forall_mem_cons.mpr ⟨fun _ => by decide,
      List.forall_mem_cons.mpr ⟨fun _ => trivial, List.forall_mem_nil _⟩⟩)
    (List.flatten_singleton ..)

/-- A key that is appended to and expires before it is counted up. -/
def overwriteRun : List (ExpireAt × Command) :=
  [(1000, .set [107] [118] (some 1100)), (1050, .append [107] [121]), (1150, .incr [107])]

theorem admissible_overwriteRun {later : ExpireAt} (h : 1150 ≤ later) :
    ∀ e ∈ overwriteRun, Admissible later e :=
  List.forall_mem_cons.mpr ⟨⟨fromClient_set, inRange_set, Nat.le_trans (by decide) h⟩,
    List.forall_mem_cons.mpr ⟨⟨fromClient_of_args 0 _ (by decide) (by decide)
      (fromFrame_appendFrame 0), trivial, Nat.le_trans (by decide) h⟩,
      List.forall_mem_cons.mpr ⟨⟨fromClient_of_args 0 _ (by decide) (by decide)
        (fromFrame_incrFrame 0), trivial, h⟩, List.forall_mem_nil _⟩⟩⟩

/-- The replayed count finds the appended value, fails, and is cut off. -/
theorem acknowledged_incr_cut :
    (∀ e ∈ overwriteRun, Admissible 1200 e) ∧
    (∀ frame ∈ (serve (Db.new : Db oneShard) overwriteRun).2,
      (encode frame []).length ≤ maxAofBufferedFrameBytes) ∧
    (serve (Db.new : Db oneShard) overwriteRun).2.length = 3 ∧
    (replay 1200 (Db.new : Db oneShard) [logFile oneShard overwriteRun]).applied = 2 ∧
    (replay 1200 (Db.new : Db oneShard) [logFile oneShard overwriteRun]).file.length <
      (logFile oneShard overwriteRun).length := by
  have hlog : (serve (Db.new : Db oneShard) overwriteRun).2 =
    [setFrame, appendFrame] ++ incrFrame :: [] := rfl
  have hread : ∀ frame ∈ [setFrame, appendFrame] ++ incrFrame :: [], Readable frame :=
    List.forall_mem_cons.mpr ⟨readable_command (by decide) (by decide),
      List.forall_mem_cons.mpr ⟨readable_command (by decide) (by decide),
        List.forall_mem_cons.mpr ⟨readable_command (by decide) (by decide), List.forall_mem_nil _⟩⟩⟩
  have hlen : ∀ frame ∈ [setFrame, appendFrame] ++ incrFrame :: [],
      (encode frame []).length ≤ maxAofBufferedFrameBytes := fun frame hf => by
    rw [encode_eq_append, List.nil_append]
    exact (hread frame hf).length_le
  have ha : applyFrames 1200 [setFrame, appendFrame] (Db.new : Db oneShard) = some _ :=
    Option.bind_eq_some_iff.mpr ⟨_, applyFrame_eq_some.mpr ⟨_, fromFrame_setFrame 1200, rfl, rfl⟩,
      Option.bind_eq_some_iff.mpr
        ⟨_, applyFrame_eq_some.mpr ⟨_, fromFrame_appendFrame 1200, rfl, rfl⟩, rfl⟩⟩
  rw [logFile_eq, hlog, replay_stops hread ha (fromFrame_incrFrame 1200) rfl]
  refine ⟨admissible_overwriteRun (by decide), hlen, rfl, rfl, ?_⟩
  decide

theorem log_not_truncated_persistRun :
    (replay 1099 (Db.new : Db oneShard) [logFile oneShard persistRun]).applied = 2 ∧
      (replay 1099 (Db.new : Db oneShard) [logFile oneShard persistRun]).file =
        logFile oneShard persistRun :=
  log_not_truncated (admissible_persistRun (by decide))
    (List.forall_mem_cons.mpr ⟨by decide,
      List.forall_mem_cons.mpr ⟨by decide, List.forall_mem_nil _⟩⟩)
    rerunSafe_persistRun (List.flatten_singleton ..)

end MiniRedis.Server
