import MiniRedis.RewriteConsistency

/-!
# Runs of writes and rewrites

In every run the file is right after every step, so a rewrite loses and duplicates no write
that was acknowledged, as long as every captured entry is written before its deadline and no
write fails without an error behind it. An entry that is written later is left out, and a write
that relies on it is lost with it.
-/
namespace MiniRedis.RewriteProtocol
open Aof Compaction Runs Wire World

variable {host : Host} {Call : Type}

/-- The commands come from clients, and the writer can take a failed frame back. -/
def Event.Admissible (policy : FsyncPolicy) : Event Call → Prop
  | .request _ cmd => cmd.FromClient
  | .writer calls finish => Recoverable policy calls finish
  | _ => True

/-- If the step writes an entry of a snapshot, that entry is still alive. -/
def inTime : World host Call × Event Call → Bool
  | (w, .rewrite _) =>
      match w.task with
      | .writing _ ((_, entry) :: _) => !entryExpired w.clock entry
      | _ => true
  | _ => true

/-- No write fails in the background without an error behind it: neither one of the writer nor
the last one of the temporary file. -/
def noticed (policy : FsyncPolicy) : World host Call × Event Call → Bool
  | (w, .rewrite result) =>
      match w.task with
      | .writing _ [] => !result.isOk || w.temp.settle.error.isNone
      | _ => true
  | (w, .writer calls finish) =>
      match w.queue with
      | m :: _ => World.noticed policy calls finish w.writer m
      | [] => true
  | _ => true

structure StepOk (policy : FsyncPolicy) (t : World host Call × Event Call) : Prop where
  admissible : t.2.Admissible policy
  inTime : inTime t = true
  noticed : noticed policy t = true

theorem nextAlive_of_inTime {w : World host Call} {result : TaskResult}
    (h : inTime (w, .rewrite result) = true) : w.NextAlive := by
  intro capture key entry left ht
  unfold inTime at h
  dsimp only at h
  rw [ht] at h
  exact Bool.not_eq_true' _ ▸ h

theorem noErrorWaits_of_noticed {policy : FsyncPolicy} {w : World host Call}
    {result : TaskResult} (h : noticed policy (w, .rewrite result) = true)
    (hr : result.isOk = true) : w.NoErrorWaits := by
  intro capture ht
  unfold noticed at h
  dsimp only at h
  rw [ht, hr] at h
  exact Option.isNone_iff_eq_none.mp h

/-- What an observer of the file, the answers and the history finds. -/
structure World.LosesNothing (db : Db host) (file : Bytes) (w : World host Call) : Prop where
  /-- The old file with every acknowledged write behind it, or a snapshot of the writes that were
  acknowledged before its rewrite began, with those since behind it; a write in flight is counted
  in. -/
  contents : Contents Write.bytes Image.bytes (Reflects db) file w.history
    w.writer.file.contents
  once : w.calls.Nodup
  answered : ∀ c reply, w.clients c = some (.answered (.ok reply)) →
    (c ∈ w.calls ↔ reply.isError = false)
  failed : ∀ c error, w.clients c = some (.answered (.error error)) → c ∉ w.calls
  /-- Without a rewrite under way, the next one can start, with an empty buffer. -/
  ready : w.task = .idle → w.schedule.task = .pausing ∧
    w.writer.startRewrite = (.ok (), { w.writer with rewriteBuffer := some {} })

/-- What every step keeps. -/
structure World.Invariant (db : Db host) (file : Bytes) (w : World host Call) : Prop where
  orderly : w.Orderly
  consistent : w.Consistent db file

theorem World.Invariant.losesNothing {db : Db host} {file : Bytes} {w : World host Call}
    (h : w.Invariant db file) : w.LosesNothing db file where
  contents := h.consistent.contents
  once := h.orderly.once
  answered c reply hc := by
    rw [h.orderly.recorded c, hc, Option.any_some]
    exact Bool.not_eq_true' _ ▸ Iff.rfl
  failed c error hc := by
    rw [h.orderly.recorded c, hc]
    exact Bool.false_ne_true
  ready ht := by
    have hflag := h.consistent.busy
    have hprogress := h.consistent.progress
    rw [ht] at hflag hprogress
    have hnone : w.writer.rewriteBuffer = none := hprogress
    constructor
    · rw [World.schedule, hflag]
      rfl
    · rw [Writer.startRewrite, hnone]
      rfl

theorem invariant_start (now : ExpireAt) {db : Db host} (h : db.Valid) (file : Bytes) :
    (start now db file : World host Call).Invariant db file where
  orderly := orderly_start now db file
  consistent := ⟨h, rfl, rfl, rfl, rfl, contents_nil⟩

/-- Every step of a party, of the clock or of the sweeper. -/
theorem step_keeps [DecidableEq Call] {policy : FsyncPolicy} {db : Db host} {file : Bytes}
    (hdb : db.Valid) {w : World host Call} (h : w.Invariant db file) {e : Event Call}
    (hok : StepOk policy (w, e)) : (step policy e w).Invariant db file := by
  obtain ⟨ho, h⟩ := h
  obtain ⟨ha, ht, hn⟩ := hok
  cases e with
  | pass ms => exact ⟨ho.congr ⟨rfl, rfl, rfl, rfl, rfl⟩, h.pass ms⟩
  | read cmd =>
      unfold step
      dsimp only
      split_ifs with hr
      · exact ⟨ho, h⟩
      · exact ⟨ho.withDb _, h.read hr⟩
  | sweep =>
      exact ⟨ho.withDb _, h.withDb (h.valid.sweepOnce w.clock) (Db.view_sweepOnce h.valid le_rfl)⟩
  | request c cmd => exact ⟨ho.request ha, h.request ho c cmd⟩
  | client c =>
      unfold step
      dsimp only
      cases hc : w.clients c with
      | none => exact ⟨ho, h⟩
      | some stage => exact ⟨ho.client hc, h.client ho hc⟩
  | schedule => exact ⟨ho.schedule h.busy, h.schedule⟩
  | rewrite result => exact ⟨ho.rewrite result, h.rewrite ho hdb (nextAlive_of_inTime ht)
      result (noErrorWaits_of_noticed hn)⟩
  | writer calls finish =>
      unfold step
      dsimp only
      cases hq : w.queue with
      | nil => exact ⟨ho, h⟩
      | cons m queue =>
          unfold noticed at hn
          dsimp only at hn
          rw [hq] at hn
          exact ⟨ho.deliver hq policy calls finish, h.deliver ho hq ha hn⟩
  | tick syncData => exact ⟨ho.congr ⟨rfl, rfl, rfl, rfl, rfl⟩, h.tick policy syncData⟩
  | land => exact ⟨ho.congr ⟨rfl, rfl, rfl, rfl, rfl⟩, h.settle⟩

/-- However the parties are interleaved and wherever a rewrite gives up, no acknowledged write is
lost or doubled, if every captured entry is written before its deadline and no write fails
without an error behind it. -/
theorem rewrites_lose_nothing [DecidableEq Call] (policy : FsyncPolicy) (now : ExpireAt)
    {db : Db host} (h : db.Reachable) (file : Bytes) (events : List (Event Call))
    (ha : ∀ e ∈ events, e.Admissible policy)
    (ht : ∀ t ∈ taken (step policy) events (start now db file), inTime t = true)
    (hn : ∀ t ∈ taken (step policy) events (start now db file), noticed policy t = true) :
    (∀ t ∈ taken (step policy) events (start now db file), t.1.LosesNothing db file) ∧
      (run (step policy) events (start now db file)).LosesNothing db file := by
  have hstep : ∀ (w : World host Call) e, w.Invariant db file → StepOk policy (w, e) →
      (step policy e w).Invariant db file :=
    fun w e hw hok => step_keeps h.valid hw hok
  have hok : ∀ t ∈ taken (step policy) events (start now db file), StepOk policy t :=
    fun t hm => ⟨ha t.2 (label_mem hm), ht t hm, hn t hm⟩
  obtain ⟨htaken, hrun⟩ := kept hstep (invariant_start now h.valid file) hok
  exact ⟨fun t hm => (htaken t hm).losesNothing, hrun.losesNothing⟩

/-! ## A key that is persisted while the snapshot is written -/

/-- A write without a failure. -/
def writeEvents (c : ℕ) (cmd : Command) : List (Event ℕ) :=
  [.request c cmd, .client c, .client c, .client c, .writer {} { openTemp := .ok [] }, .client c,
    .client c]

/-- `SET k v` with the deadline 1100, a rewrite that captures the key at 1000, `PERSIST k`, and
the writing of the key when the time has passed. -/
def persistDuringRewrite (ms : ℕ) : List (Event ℕ) :=
  writeEvents 0 (.set [107] [118] (some 1100)) ++
  [.schedule, .rewrite (.ok (.ok ())), .rewrite (.ok (.ok ())), .writer {} { openTemp := .ok [] },
    .rewrite (.ok (.ok ())), .rewrite (.ok (.ok ())), .rewrite (.ok (.ok ()))] ++
  writeEvents 1 (.persist [107]) ++
  [.pass ms, .rewrite (.ok (.ok ())), .rewrite (.ok (.ok ())), .writer {} { openTemp := .ok [] },
    .rewrite (.ok (.ok ()))]

theorem admissible_persistDuringRewrite (ms : ℕ) :
    ∀ e ∈ persistDuringRewrite ms, e.Admissible .always := by
  have hpersist : (Command.persist [107]).FromClient :=
    Server.fromClient_of_args 0 _ (by decide) (by decide) (Server.fromFrame_persistFrame 0)
  have hwriter : Recoverable .always {} { openTemp := .ok [] } := ⟨rfl, rfl, fun _ => rfl⟩
  simp [persistDuringRewrite, writeEvents, Event.Admissible, Server.fromClient_set, hpersist,
    hwriter]

/-- The world after it. -/
def afterPersist (ms : ℕ) : World Server.oneShard ℕ :=
  run (step .always) (persistDuringRewrite ms) (start 1000 Db.new [])

def capturedKey : Capture := ⟨1000, [([107], ⟨.string [118], some 1100⟩)]⟩

/-- While the key is alive, something is written for it. -/
theorem writtenAlive_capturedKey_ne_nil : ¬ WrittenAlive 1000 capturedKey.entries [] := by
  rintro ⟨clock, -, halive, hwritten⟩
  have hkey : entryExpired (clock [107]) ⟨.string [118], some 1100⟩ = false :=
    halive _ List.mem_cons_self
  have hframe : Aof.setFrame (clock [107]) [107] [118] (some 1100) = Server.setFrame := by
    unfold Aof.setFrame setExpiryParts
    dsimp only
    rw [if_pos (by decide)]
    rfl
  have hset : writeStringSnapshot (clock [107]) [107] [118] (some 1100) =
      .ok (encode Server.setFrame []) := by
    unfold writeStringSnapshot
    rw [hframe]
    rfl
  have hentry : writeSnapshotEntry (clock [107]) [107] ⟨.string [118], some 1100⟩ =
      .ok (encode Server.setFrame []) := by
    rw [writeSnapshotEntry, hkey]
    exact hset
  rw [capturedKey, writeSnapshotEntries, hentry] at hwritten
  cases hwritten

theorem history_afterPersist : (afterPersist 150).history =
    [.recorded ⟨0, 1000, .set [107] [118] (some 1100), Server.setFrame⟩, .began,
      .recorded ⟨1, 1000, .persist [107], Server.persistFrame⟩, .switched ⟨capturedKey, []⟩] := rfl

/-- The key is written too late: both writes were acknowledged and the server has the key, but
the file ends up without it. -/
theorem acknowledged_key_lost :
    (∀ e ∈ persistDuringRewrite 150, e.Admissible .always) ∧
    (afterPersist 150).calls = [0, 1] ∧
    (afterPersist 150).db.view 1150 [107] = some ⟨.string [118], none⟩ ∧
    (afterPersist 150).writer.file = { bytes := encode Server.persistFrame [] } ∧
    ¬ (afterPersist 150).LosesNothing Db.new [] := by
  refine ⟨admissible_persistDuringRewrite 150, rfl, rfl, rfl, fun h => ?_⟩
  have hswitched : Mark.switched ⟨capturedKey, []⟩ ∈ (afterPersist 150).history := by
    rw [history_afterPersist]
    simp
  have hcontents := h.contents
  generalize (afterPersist 150).writer.file.contents = file at hcontents
  cases hcontents with
  | original h => exact h _ hswitched
  | @compacted before after during image h hafter hshows =>
      have himage : Mark.switched image ∈ (afterPersist 150).history := by
        rw [h]
        simp
      rw [history_afterPersist] at himage
      obtain rfl : image = ⟨capturedKey, []⟩ := by simpa using himage
      exact writtenAlive_capturedKey_ne_nil hshows.written

/-- The write of the only captured entry fails while `sync_data` waits for it. -/
def lastWriteFails : List (Event ℕ) :=
  writeEvents 0 (.set [107] [118] (some 1100)) ++
  [.schedule, .rewrite (.ok (.ok ())), .rewrite (.ok (.ok ())), .writer {} { openTemp := .ok [] },
    .rewrite (.ok (.ok ())), .rewrite (.ok (.ok ())), .rewrite (.ok (.ok ())),
    .rewrite (.ok (.error (0, "No space left on device"))), .rewrite (.ok (.ok ())),
    .writer {} { openTemp := .ok [] }, .rewrite (.ok (.ok ()))]

/-- Without the other condition the rewrite ends well, and the acknowledged write is gone. -/
example : let w := run (step .always) lastWriteFails (start 1000 (Db.new : Db Server.oneShard) [])
    w.calls = [0] ∧ w.writer.stats.lastRewriteOk = true ∧ w.writer.file = { bytes := [] } :=
  ⟨rfl, rfl, rfl⟩

theorem rewrites_lose_nothing_persist : (afterPersist 50).LosesNothing Db.new [] :=
  (rewrites_lose_nothing .always 1000 .new [] (persistDuringRewrite 50)
    (admissible_persistDuringRewrite 50) (List.all_eq_true.mp rfl) (List.all_eq_true.mp rfl)).2

end MiniRedis.RewriteProtocol
