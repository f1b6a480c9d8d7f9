import MiniRedis.AcknowledgedWrites
import MiniRedis.WriterDisk

/-!
# What a crash leaves of the log

The clients, the rewrites and the writer as before, now with the disk below and with the
clock by which the writer decides when to sync. A crash can come between any two calls. It
leaves every write that was acknowledged if the policy is `always`; if it is `everysec`, the
writes that it takes were acknowledged within a second. Behind these there can be a part of
one write that was never acknowledged.
-/
namespace MiniRedis.RewriteProtocol
open Aof Compaction DurableFiles Runs Wire World

variable {host : Host} {Call : Type}

/-- The message that the writer takes, its timer, or the end of its write in flight. -/
def World.writerStep (w : World host Call) : Event Call → Option WriterStep
  | .writer calls finish => w.queue.head?.map fun
      | .write _ bytes => .write bytes calls
      | .startRewrite => .startRewrite
      | .finishRewrite =>
          .finishRewrite { finish with openTemp := finish.openTemp.map fun _ => w.temp.bytes }
      | .abortRewrite reason => .abortRewrite reason
  | .tick syncData => some (.tick syncData)
  | .land => some .land
  | _ => none

/-- The time from the last event to this one and the time that its calls take, in milliseconds,
and how the sync of a rollback ends. -/
structure Moment where
  wait : ℕ := 0
  busy : ℕ := 0
  synced : Bool := true

structure Machine (host : Host) (Call : Type) where
  world : World host Call
  volume : Volume UInt8
  /-- The monotonic clock of the writer. -/
  instant : ℕ := 0
  lastSync : ℕ := 0
  /-- When the acknowledged writes passed `sync_after_write`. -/
  checks : List ℕ := []

namespace Machine

/-- A second has passed since the last sync. -/
def due (m : Machine host Call) (moment : Moment) : Bool :=
  decide (m.lastSync + 1000 ≤ m.instant + moment.wait)

/-- The event with what the clock says; the timer does not fire early. -/
def event (m : Machine host Call) : Event Call × Moment → Event Call
  | (.writer calls finish, moment) => .writer { calls with elapsed := m.due moment } finish
  | (.tick syncData, moment) => if m.due moment then .tick syncData else .pass 0
  | (e, _) => e

/-- The calls that the writer makes on the disk during the event. -/
def diskCalls (policy : FsyncPolicy) (m : Machine host Call) (e : Event Call × Moment) :
    List (DurableFiles.Call UInt8) :=
  match m.world.writerStep (m.event e) with
  | some s => s.diskCalls policy e.2.synced m.world.writer
  | none => []

/-- The reading of the clock that belongs to a write, if it is acknowledged. -/
def check (policy : FsyncPolicy) (w : Writer) (now : ℕ) : WriterStep → List ℕ
  | .write bytes calls => if (w.write policy bytes calls).1.isOk then [now] else []
  | _ => []

def step [DecidableEq Call] (policy : FsyncPolicy) (e : Event Call × Moment)
    (m : Machine host Call) : Machine host Call :=
  let checked := m.instant + e.2.wait
  let now := checked + e.2.busy
  let world := World.step policy (m.event e) m.world
  match m.world.writerStep (m.event e) with
  | none => { m with world := world, instant := now }
  | some s => {
      world := world
      volume := run Volume.call (s.diskCalls policy e.2.synced m.world.writer) m.volume
      instant := now
      lastSync := s.lastSync policy m.world.writer m.lastSync now
      checks := m.checks ++ check policy m.world.writer checked s }

/-- The server after its start, on a file that is on the disk with its name. -/
def start (now : ExpireAt) (db : Db host) (file : Bytes) : Machine host Call where
  world := World.start now db file
  volume := { file := { synced := file } }

/-- A crash leaves `kept`, which is the log of the acknowledged writes up to `lost`, and behind
it a part of these and of a write in flight, whose command was asked for. -/
structure Leaves (asked : Command → Prop) (policy : FsyncPolicy) (db : Db host) (file : Bytes)
    (m : Machine host Call) (image : Bytes) (older : List (Mark (Write Call) Image))
    (lost : List (Write Call)) (kept flight : Bytes) : Prop where
  contents : Contents Write.bytes Image.bytes (Reflects db) file older kept
  acknowledged : records m.world.history = records older ++ lost
  between : kept <+: image ∧ image <+: kept ++ lost.flatMap Write.bytes ++ flight
  flight : flight = [] ∨ ∃ r : Write Call,
    r.call ∉ m.world.calls ∧ r.Worded asked ∧ flight = r.bytes
  captured : ∀ image, .switched image ∈ older → image.capture.instant ≤ m.world.clock
  always : policy = .always → lost = []
  timed : m.checks.length = (records m.world.history).length
  everySec : policy = .everySec → ∀ t ∈ m.checks.drop (records older).length,
    ∀ t' ∈ m.checks.drop (records older).length, t' < t + 1000

/-- The writes behind `n` others were acknowledged in the second since the last sync. -/
def Window (policy : FsyncPolicy) (m : Machine host Call) (n : ℕ) : Prop :=
  policy = .everySec → ∃ base, (∀ t ∈ m.checks.drop n, base ≤ t ∧ t < base + 1000) ∧
    (m.world.writer.stats.writeFailed = false → base = m.lastSync)

/-- How the disk stands between two events. -/
structure Backed (asked : Command → Prop) (policy : FsyncPolicy) (db : Db host) (file : Bytes)
    (m : Machine host Call) (older : List (Mark (Write Call) Image)) (lost : List (Write Call))
    (kept flight : Bytes) : Prop where
  contents : Contents Write.bytes Image.bytes (Reflects db) file older kept
  acknowledged : records m.world.history = records older ++ lost
  log : m.world.writer.file.contents = kept ++ lost.flatMap Write.bytes
  disk : m.world.writer.Kept kept (m.world.writer.file.contents ++ flight) m.volume
  flight : flight = [] ∨ m.world.writer.stats.writeFailed = true ∧
    ∃ r : Write Call, r.call ∉ m.world.calls ∧ r.Worded asked ∧ flight = r.bytes
  earlier : older <+: m.world.history
  always : policy = .always → lost = []
  window : m.Window policy (records older).length

structure Durable (asked : Command → Prop) (policy : FsyncPolicy) (db : Db host) (file : Bytes)
    (m : Machine host Call) : Prop where
  invariant : m.world.Invariant db file
  vouched : m.world.Vouched asked db
  timed : m.checks.length = (records m.world.history).length
  order : m.lastSync ≤ m.instant
  backed : ∃ older lost kept flight, m.Backed asked policy db file older lost kept flight

variable {asked : Command → Prop} {policy : FsyncPolicy} {db : Db host} {file : Bytes}
  {m m' : Machine host Call}
  {older : List (Mark (Write Call) Image)} {lost : List (Write Call)} {kept flight : Bytes}

/-! ## What the disk holds between two events -/

/-- A crash that leaves something between the file at the last sync and the file of now. -/
theorem Backed.leaves (h : m.Backed asked policy db file older lost kept flight)
    (hv : m.world.Vouched asked db) (ht : m.checks.length = (records m.world.history).length)
    {image flight' : Bytes}
    (hb : kept <+: image ∧ image <+: m.world.writer.file.contents ++ flight')
    (hf : flight' = [] ∨ ∃ r : Write Call,
      r.call ∉ m.world.calls ∧ r.Worded asked ∧ flight' = r.bytes) :
    m.Leaves asked policy db file image older lost kept flight' where
  contents := h.contents
  acknowledged := h.acknowledged
  between := h.log ▸ hb
  flight := hf
  captured image hi := hv.images image (h.earlier.subset hi)
  always := h.always
  timed := ht
  everySec hp t hm t' hm' := by
    obtain ⟨base, hbase, -⟩ := h.window hp
    have hlo := (hbase t hm).1
    have hhi := (hbase t' hm').2
    omega

theorem Backed.flight_calls (h : m.Backed asked policy db file older lost kept flight) :
    flight = [] ∨
      ∃ r : Write Call, r.call ∉ m.world.calls ∧ r.Worded asked ∧ flight = r.bytes :=
  h.flight.imp_right And.right

/-- Nothing is written to the log, and nothing is acknowledged. -/
theorem Backed.same (h : m.Backed asked policy db file older lost kept flight)
    (hhistory : m.world.history <+: m'.world.history)
    (hrecords : records m'.world.history = records m.world.history)
    (hfile : m'.world.writer.file.contents = m.world.writer.file.contents)
    (hdisk : m'.world.writer.Kept kept (m.world.writer.file.contents ++ flight) m'.volume)
    (hfailed : m.world.writer.stats.writeFailed = true →
      m'.world.writer.stats.writeFailed = true)
    (hchecks : m'.checks = m.checks)
    (hsync : m'.world.writer.stats.writeFailed = false → m'.lastSync = m.lastSync) :
    m'.Backed asked policy db file older lost kept flight where
  contents := h.contents
  acknowledged := hrecords.trans h.acknowledged
  log := hfile.trans h.log
  disk := hfile ▸ hdisk
  flight := by
    refine h.flight.imp_right fun ⟨hf, r, hr, hflight⟩ => ⟨hfailed hf, r, ?_, hflight⟩
    unfold World.calls
    rwa [hrecords]
  earlier := h.earlier.trans hhistory
  always := h.always
  window hp := by
    obtain ⟨base, hbase, hlast⟩ := h.window hp
    refine ⟨base, by rwa [hchecks], fun hf => ?_⟩
    have hopen : m.world.writer.stats.writeFailed = false := by
      rw [← Bool.not_eq_true]
      intro ht
      rw [hfailed ht] at hf
      cases hf
    rw [hsync hf, hlast hopen]

/-- The whole log is on the disk. -/
theorem backed_synced (hinv : m.world.Invariant db file)
    (ht : m.checks.length = (records m.world.history).length)
    (hdisk : m.world.writer.Kept m.world.writer.file.contents m.world.writer.file.contents
      m.volume) :
    m.Backed asked policy db file m.world.history [] m.world.writer.file.contents [] where
  contents := hinv.consistent.contents
  acknowledged := (List.append_nil _).symm
  log := (List.append_nil _).symm
  disk := (List.append_nil m.world.writer.file.contents).symm ▸ hdisk
  flight := .inl rfl
  earlier := List.prefix_rfl
  always _ := rfl
  window _ := by
    refine ⟨m.lastSync, fun t hm => ?_, fun _ => rfl⟩
    rw [← ht, List.drop_length] at hm
    cases hm

end Machine

/-! ## Events that do not reach the log -/

/-- The log and what was acknowledged are the same. -/
structure World.SameLog (w w' : World host Call) : Prop where
  history : w'.history = w.history
  file : w'.writer.file = w.writer.file
  writeFailed : w'.writer.stats.writeFailed = w.writer.stats.writeFailed

namespace World
variable {w : World host Call}

theorem SameLog.refl (w : World host Call) : w.SameLog w := ⟨rfl, rfl, rfl⟩

theorem sameLog_client [DecidableEq Call] (w : World host Call) (c : Call)
    (stage : Stage host Call) : w.SameLog (w.client c stage) := by
  unfold World.client
  cases stage with
  | waiting cmd aofFrame => cases w.gate <;> exact ⟨rfl, rfl, rfl⟩
  | holding cmd aofFrame => exact ⟨rfl, rfl, rfl⟩
  | applied p =>
      dsimp only
      split_ifs <;> exact ⟨rfl, rfl, rfl⟩
  | appending p => exact ⟨rfl, rfl, rfl⟩
  | acknowledged p result => cases result <;> exact ⟨rfl, rfl, rfl⟩
  | releasing result => exact ⟨rfl, rfl, rfl⟩
  | answered result => exact ⟨rfl, rfl, rfl⟩

theorem sameLog_rewrite (w : World host Call) (result : TaskResult) :
    w.SameLog (w.rewrite result) := by
  unfold World.rewrite
  cases w.task with
  | idle | starting | finishing | aborting | holding | captured | ending =>
      exact ⟨rfl, rfl, rfl⟩
  | pausing => cases w.gate <;> exact ⟨rfl, rfl, rfl⟩
  | started answer => cases answer <;> exact ⟨rfl, rfl, rfl⟩
  | opening capture => cases result <;> exact ⟨rfl, rfl, rfl⟩
  | writing capture left =>
      cases left with
      | nil => cases result <;> exact ⟨rfl, rfl, rfl⟩
      | cons e left =>
          dsimp only
          cases writeSnapshotEntry w.clock e.1 e.2 with
          | error reason => exact ⟨rfl, rfl, rfl⟩
          | ok bytes =>
              dsimp only
              rcases w.temp.push bytes 0 result with ⟨reason | _, temp⟩ <;>
                exact ⟨rfl, rfl, rfl⟩

/-- Without a step of the writer nothing is written to the log. -/
theorem sameLog_step [DecidableEq Call] (policy : FsyncPolicy) {e : Event Call}
    (h : w.writerStep e = none) : w.SameLog (World.step policy e w) := by
  unfold World.step
  cases e with
  | pass ms => exact ⟨rfl, rfl, rfl⟩
  | read cmd =>
      dsimp only
      split_ifs <;> exact ⟨rfl, rfl, rfl⟩
  | sweep => exact ⟨rfl, rfl, rfl⟩
  | request c cmd =>
      dsimp only
      unfold World.request
      split
      · exact .refl w
      · split_ifs <;> exact ⟨rfl, rfl, rfl⟩
  | client c =>
      dsimp only
      cases w.clients c with
      | none => exact .refl w
      | some stage => exact w.sameLog_client c stage
  | schedule =>
      unfold World.schedule
      dsimp only
      split_ifs <;> exact ⟨rfl, rfl, rfl⟩
  | rewrite result => exact w.sameLog_rewrite result
  | writer calls finish =>
      dsimp only
      cases hq : w.queue with
      | nil => exact .refl w
      | cons m queue =>
          rw [writerStep, hq] at h
          cases h
  | tick | land => cases h

theorem acknowledge_writer [DecidableEq Call] (w : World host Call) (c : Call)
    (result : CallResult) : (w.acknowledge c result).writer = w.writer := by
  unfold World.acknowledge
  split <;> rfl

end World

/-! ## Messages -/

namespace Machine

/-- The writer takes a step, with the clock read twice around its calls. -/
structure Takes (policy : FsyncPolicy) (moment : Moment) (s : WriterStep)
    (m m' : Machine host Call) : Prop where
  writer : m'.world.writer = (m.world.writer.handle policy s).2
  volume : m'.volume =
    run Volume.call (s.diskCalls policy moment.synced m.world.writer) m.volume
  lastSync : m'.lastSync =
    s.lastSync policy m.world.writer m.lastSync (m.instant + moment.wait + moment.busy)
  checks : m'.checks = m.checks ++ check policy m.world.writer (m.instant + moment.wait) s

/-- What a step comes to: a crash during its calls, and the state behind them. -/
structure Settles (asked : Command → Prop) (policy : FsyncPolicy) (db : Db host) (file : Bytes)
    (m : Machine host Call) (calls : List (DurableFiles.Call UInt8)) (m' : Machine host Call) :
    Prop where
  crash : ∀ image, m.volume.SurvivesDuring calls image →
    ∃ older lost kept flight, m.Leaves asked policy db file image older lost kept flight
  timed : m'.checks.length = (records m'.world.history).length
  backed : ∃ older lost kept flight, m'.Backed asked policy db file older lost kept flight

section
variable {asked : Command → Prop} {policy : FsyncPolicy} {db : Db host} {file : Bytes}
  {m m' : Machine host Call}
  {moment : Moment}

/-- Nothing is written, and nothing is acknowledged. -/
theorem Durable.quiet (h : m.Durable asked policy db file) (hvolume : m'.volume = m.volume)
    (hhistory : m.world.history <+: m'.world.history)
    (hrecords : records m'.world.history = records m.world.history)
    (hfile : m'.world.writer.file = m.world.writer.file)
    (hfailed : m'.world.writer.stats.writeFailed = m.world.writer.stats.writeFailed)
    (hchecks : m'.checks = m.checks) (hsync : m'.lastSync = m.lastSync) :
    m.Settles asked policy db file [] m' := by
  obtain ⟨older, lost, kept, flight, hb⟩ := h.backed
  refine ⟨fun image hs => ?_, ?_, older, lost, kept, flight,
    hb.same hhistory hrecords (hfile ▸ rfl) ⟨⟨?_, ?_⟩, ?_⟩ (fun hf => hfailed.trans hf) hchecks
      fun _ => hsync⟩
  · exact ⟨older, lost, kept, flight, hb.leaves h.vouched h.timed
      (hb.disk.within.survives (Volume.survivesDuring_nil.mp hs)) hb.flight_calls⟩
  · rw [hchecks, hrecords]
    exact h.timed
  · rw [hvolume]
    exact hb.disk.within
  · rw [hvolume, hfile]
    exact hb.disk.bytes
  · rw [hvolume, hfailed]
    exact hb.disk.trusted

/-- After a failed write the writer refuses all others. -/
theorem Durable.refused (h : m.Durable asked policy db file) {bytes : Bytes}
    {calls : Writer.WriteCalls} (hf : m.world.writer.stats.writeFailed = true)
    (ht : Takes policy moment (.write bytes calls) m m')
    (hhistory : m'.world.history = m.world.history) :
    m.Settles asked policy db file
      (m.world.writer.writeCalls policy bytes calls moment.synced) m' := by
  have hrefused : m.world.writer.write policy bytes calls =
      (.error "AOF writer is in failed state", m.world.writer) := by
    rw [Writer.write, if_pos hf]
  have hcalls : m.world.writer.writeCalls policy bytes calls moment.synced = [] := by
    rw [Writer.writeCalls, if_pos hf]
  have hwriter : m'.world.writer = m.world.writer := ht.writer.trans (congrArg Prod.snd hrefused)
  rw [hcalls]
  refine h.quiet ?_ (hhistory ▸ List.prefix_rfl) (hhistory ▸ rfl) (hwriter ▸ rfl)
    (hwriter ▸ rfl) ?_ ?_
  · rw [ht.volume, WriterStep.diskCalls, hcalls]
    rfl
  · rw [ht.checks, check, hrefused]
    exact List.append_nil _
  · rw [ht.lastSync, WriterStep.lastSync, hrefused]
    rfl

/-- The acknowledgement of a write that no sync followed. -/
theorem Backed.unsynced {older : List (Mark (Write Call) Image)} {lost : List (Write Call)}
    {kept : Bytes} (hb : m.Backed asked policy db file older lost kept [])
    (h : m.Durable asked policy db file) (hf : m.world.writer.stats.writeFailed = false)
    {r : Write Call} {now : ℕ}
    (hnever : policy ≠ .always) (hearly : policy = .everySec → now < m.lastSync + 1000)
    (hlate : m.instant ≤ now)
    (hhistory : m'.world.history = m.world.history ++ [.recorded r])
    (hfile : m'.world.writer.file.contents = m.world.writer.file.contents ++ r.bytes)
    (hdisk : m'.world.writer.Kept kept (m.world.writer.file.contents ++ r.bytes) m'.volume)
    (hchecks : m'.checks = m.checks ++ [now]) (hsync : m'.lastSync = m.lastSync) :
    m'.Backed asked policy db file older (lost ++ [r]) kept [] where
  contents := hb.contents
  acknowledged := by
    rw [hhistory, records_append, hb.acknowledged, List.append_assoc]
    rfl
  log := by
    rw [hfile, hb.log, List.append_assoc, List.flatMap_append]
    simp
  disk := by
    rw [hfile, List.append_nil]
    exact hdisk
  flight := .inl rfl
  earlier := hb.earlier.trans (hhistory ▸ List.prefix_append _ _)
  always hp := (hnever hp).elim
  window hp := by
    obtain ⟨base, hbase, hlast⟩ := hb.window hp
    obtain rfl := hlast hf
    refine ⟨m.lastSync, fun t ht => ?_, fun _ => hsync.symm⟩
    have hle : (records older).length ≤ m.checks.length := by
      rw [h.timed, hb.acknowledged, List.length_append]
      exact Nat.le_add_right _ _
    rw [hchecks, List.drop_append_of_le_length hle] at ht
    rcases List.mem_append.mp ht with ht | ht
    · exact hbase t ht
    · rw [List.mem_singleton.mp ht]
      exact ⟨h.order.trans hlate, hearly hp⟩

theorem Durable.written (h : m.Durable asked policy db file) {p : Pending host Call} {c : Call}
    (hc : m.world.clients c = some (.appending p)) {calls : Writer.WriteCalls}
    (hset : calls.setLen = .ok ()) (hn : calls.failsUnnoticed policy p.write.bytes = false)
    (helapsed : calls.elapsed = m.due moment) (hf : m.world.writer.stats.writeFailed = false)
    (ht : Takes policy moment (.write p.write.bytes calls) m m')
    (hhistory : m'.world.history = m.world.history ++
      marks (m.world.writer.write policy p.write.bytes calls).1 (.recorded p.write))
    (hinv : m'.world.Invariant db file) :
    m.Settles asked policy db file
      (m.world.writer.writeCalls policy p.write.bytes calls moment.synced) m' := by
  obtain ⟨older, lost, kept, flight, hb⟩ := h.backed
  obtain rfl : flight = [] := hb.flight.resolve_right fun hfail => by
    rw [hf] at hfail
    cases hfail.1
  have hcall : p.write.call ∉ m.world.calls := by
    rw [show p.write.call = c from h.invariant.orderly.sound c _ hc,
      h.invariant.orderly.recorded c, hc]
    exact Bool.false_ne_true
  have hworded : p.write.Worded asked := h.vouched.stages c _ hc
  have hdisk : m.world.writer.Kept kept m.world.writer.file.contents m.volume :=
    List.append_nil m.world.writer.file.contents ▸ hb.disk
  obtain ⟨hduring, hafter⟩ := Writer.write_kept policy hdisk hf
    h.invariant.consistent.inSync p.write.bytes hset hn moment.synced
  have hfile := (@Writer.write_spec policy m.world.writer h.invariant.consistent.inSync
    p.write.bytes calls hset fun _ => hn).2
  have hcrash : ∀ image, m.volume.SurvivesDuring
      (m.world.writer.writeCalls policy p.write.bytes calls moment.synced) image →
      ∃ older lost kept flight, m.Leaves asked policy db file image older lost kept flight :=
    fun image hs => ⟨older, lost, kept, p.write.bytes, hb.leaves h.vouched h.timed
      (hduring.survives hs) (.inr ⟨p.write, hcall, hworded, rfl⟩)⟩
  have hwriter : m'.world.writer = (m.world.writer.write policy p.write.bytes calls).2 := ht.writer
  have hvolume : m'.volume = run Volume.call
      (m.world.writer.writeCalls policy p.write.bytes calls moment.synced) m.volume := ht.volume
  have hchecks := ht.checks
  have hsync := ht.lastSync
  rw [← hvolume, ← hwriter] at hafter
  rw [← hwriter] at hfile
  unfold check at hchecks
  unfold WriterStep.lastSync at hsync
  dsimp only at hchecks hsync
  cases hr : (m.world.writer.write policy p.write.bytes calls).1 with
  | error e =>
      rw [hr] at hafter hfile hhistory hchecks hsync
      obtain ⟨hkept, hfailed⟩ := hafter
      have hsame : m'.world.history = m.world.history := hhistory.trans (List.append_nil _)
      have hchecks' : m'.checks = m.checks := hchecks.trans (List.append_nil _)
      refine ⟨hcrash, ?_, older, lost, kept, p.write.bytes, hb.contents, ?_, hfile.trans hb.log,
        ?_, .inr ⟨hfailed, p.write, ?_, hworded, rfl⟩, ?_, hb.always, fun hp => ?_⟩
      · rw [hchecks', hsame]
        exact h.timed
      · rw [hsame]
        exact hb.acknowledged
      · rw [hfile]
        exact hkept
      · unfold World.calls
        rwa [hsame]
      · rw [hsame]
        exact hb.earlier
      · obtain ⟨base, hbase, -⟩ := hb.window hp
        refine ⟨base, by rwa [hchecks'], fun hn => ?_⟩
        rw [hfailed] at hn
        cases hn
  | ok u =>
      cases u
      rw [hr] at hafter hfile hhistory hchecks hsync
      replace hchecks : m'.checks = m.checks ++ [m.instant + moment.wait] := hchecks
      replace hfile : m'.world.writer.file.contents =
        m.world.writer.file.contents ++ p.write.bytes := hfile
      replace hafter : m'.world.writer.Kept
        (if Writer.syncs policy calls.elapsed then m.world.writer.file.contents ++ p.write.bytes
          else kept)
        (m.world.writer.file.contents ++ p.write.bytes) m'.volume := hafter
      have htimed : m'.checks.length = (records m'.world.history).length := by
        rw [hchecks, hhistory]
        simp [marks, h.timed]
      cases hs : Writer.syncs policy calls.elapsed with
      | true =>
          rw [hs, if_pos rfl, ← hfile] at hafter
          exact ⟨hcrash, htimed, _, _, _, _, backed_synced hinv htimed hafter⟩
      | false =>
          rw [hs, if_neg Bool.false_ne_true] at hafter
          rw [hs] at hsync
          refine ⟨hcrash, htimed, _, _, _, _, hb.unsynced h hf (fun hp => ?_) (fun hp => ?_)
            (Nat.le_add_right _ _) hhistory hfile hafter hchecks hsync⟩
          · rw [hp] at hs
            cases hs
          · rw [hp, Writer.syncs, helapsed, due] at hs
            have hlt := of_decide_eq_false hs
            omega

/-- The end of a rewrite: until the directory is synced a crash can bring back the old file. -/
theorem Durable.finished (h : m.Durable asked policy db file) {calls : Writer.FinishCalls}
    (hparent : calls.syncParent = .ok ()) (hactive : policy = .always → calls.syncActive = .ok ())
    (ht : Takes policy moment (.finishRewrite calls) m m')
    (hhistory : m'.world.history = m.world.history ++ m.world.switched calls)
    (hclock : m'.world.clock = m.world.clock) (hinv : m'.world.Invariant db file)
    (hvouched : m'.world.Vouched asked db) :
    m.Settles asked policy db file (m.world.writer.finishCalls policy calls) m' := by
  obtain ⟨older, lost, kept, flight, hb⟩ := h.backed
  obtain ⟨hcrash, hafter⟩ := Writer.finish_kept policy hb.disk hparent hactive
  have hrecords : records m'.world.history = records m.world.history := by
    rw [hhistory, records_append, World.records_switched, List.append_nil]
  have hchecks : m'.checks = m.checks := ht.checks.trans (List.append_nil _)
  have htimed : m'.checks.length = (records m'.world.history).length := by
    rw [hchecks, hrecords]
    exact h.timed
  have hfile : m'.world.writer.file = (m.world.writer.renamed calls).getD m.world.writer.file :=
    ht.writer ▸ Writer.finishRewrite_file policy calls m.world.writer
  have hfailed : m'.world.writer.stats.writeFailed = m.world.writer.stats.writeFailed :=
    ht.writer ▸ Writer.finishRewrite_writeFailed policy calls m.world.writer
  have hvolume : m'.volume =
    run Volume.call (m.world.writer.finishCalls policy calls) m.volume := ht.volume
  have hwriter : m'.world.writer = (m.world.writer.finishRewrite policy calls).2 := ht.writer
  rw [← hvolume, ← hwriter] at hafter
  refine ⟨fun image hs => ?_, htimed, ?_⟩
  · rcases hcrash image hs with hbetween | hnew
    · exact ⟨older, lost, kept, flight, hb.leaves h.vouched h.timed hbetween hb.flight_calls⟩
    · obtain ⟨new, hnew, rfl⟩ := hnew
      have hcontents := hinv.consistent.contents
      rw [hfile, hnew, Option.getD_some, QueuedFile.contents_of_none (Writer.renamed_inFlight hnew)]
        at hcontents
      refine ⟨m'.world.history, [], new.bytes, [], hcontents, ?_, ?_, .inl rfl,
        fun image hi => hclock ▸ hvouched.images image hi, fun _ => rfl, h.timed,
        fun _ t hm => ?_⟩
      · rw [hrecords, List.append_nil]
      · simp
      · rw [hrecords, ← h.timed, List.drop_length] at hm
        cases hm
  · cases hnew : m.world.writer.renamed calls with
    | none =>
        rw [hnew] at hafter hfile
        refine ⟨older, lost, kept, flight, hb.same (hhistory ▸ List.prefix_append _ _) hrecords
          (hfile ▸ rfl) hafter (fun hf => hfailed.trans hf) hchecks fun _ => ?_⟩
        rw [ht.lastSync, WriterStep.lastSync, Writer.finishRewrite_not_renamed hnew]
        rfl
    | some new =>
        rw [hnew] at hafter hfile
        obtain rfl : m'.world.writer.file = new := hfile
        replace hafter : m'.world.writer.Kept m'.world.writer.file.bytes
          m'.world.writer.file.bytes m'.volume := hafter
        rw [← QueuedFile.contents_of_none (Writer.renamed_inFlight hnew)] at hafter
        exact ⟨_, _, _, _, backed_synced hinv htimed hafter⟩

/-- The timer fires. -/
theorem Durable.ticked (h : m.Durable asked .everySec db file) {syncData : CallResult}
    (ht : Takes .everySec moment (.tick syncData) m m')
    (hhistory : m'.world.history = m.world.history) (hinv : m'.world.Invariant db file) :
    m.Settles asked .everySec db file (m.world.writer.tickCalls syncData) m' := by
  obtain ⟨older, lost, kept, flight, hb⟩ := h.backed
  obtain ⟨hduring, hkept, hsynced⟩ :=
    Writer.tick_kept hb.disk (List.prefix_append _ _) syncData
  have hchecks : m'.checks = m.checks := ht.checks.trans (List.append_nil _)
  have hvolume : m'.volume = run Volume.call (m.world.writer.tickCalls syncData) m.volume :=
    ht.volume
  have hwriter : m'.world.writer = m.world.writer.tick syncData := ht.writer
  have hfile : m'.world.writer.file.contents = m.world.writer.file.contents := by
    rw [hwriter]
    cases syncData <;> exact m.world.writer.settle_contents
  have htimed : m'.checks.length = (records m'.world.history).length := by
    rw [hchecks, hhistory]
    exact h.timed
  rw [← hvolume, ← hwriter] at hkept hsynced
  refine ⟨fun image hs => ⟨older, lost, kept, flight, hb.leaves h.vouched h.timed
    (hduring.survives hs) hb.flight_calls⟩, htimed, ?_⟩
  cases hf : m'.world.writer.stats.writeFailed with
  | true =>
      refine ⟨older, lost, kept, flight, hb.same (hhistory ▸ List.prefix_rfl) (by rw [hhistory])
        hfile hkept (fun _ => hf) hchecks fun hn => ?_⟩
      rw [hf] at hn
      cases hn
  | false =>
      rw [hwriter] at hf
      cases syncData with
      | error e => cases hf
      | ok =>
          have hdisk := hsynced rfl hf
          rw [← hfile] at hdisk
          exact ⟨_, _, _, _, backed_synced hinv htimed hdisk⟩

/-- The write in flight ends. -/
theorem Durable.landed (h : m.Durable asked policy db file) (ht : Takes policy moment .land m m')
    (hhistory : m'.world.history = m.world.history) :
    m.Settles asked policy db file (Writer.landCalls m.world.writer.file) m' := by
  obtain ⟨older, lost, kept, flight, hb⟩ := h.backed
  obtain ⟨hduring, hkept⟩ := Writer.land_kept hb.disk (List.prefix_append _ _)
  have hchecks : m'.checks = m.checks := ht.checks.trans (List.append_nil _)
  have hvolume : m'.volume = run Volume.call (Writer.landCalls m.world.writer.file) m.volume :=
    ht.volume
  have hwriter : m'.world.writer = m.world.writer.settle := ht.writer
  rw [← hvolume, ← hwriter] at hkept
  refine ⟨fun image hs => ⟨older, lost, kept, flight, hb.leaves h.vouched h.timed
    (hduring.survives hs) hb.flight_calls⟩, ?_, older, lost, kept, flight,
    hb.same (hhistory ▸ List.prefix_rfl) (by rw [hhistory]) ?_ hkept (fun hf => ?_) hchecks
      fun _ => ht.lastSync⟩
  · rw [hchecks, hhistory]
    exact h.timed
  · rw [hwriter]
    exact m.world.writer.settle_contents
  · rw [hwriter]
    exact hf

end
end Machine

/-! ## Steps and runs -/

/-- The directory is synced behind a rename. -/
def Event.SyncsDirectory : Event Call → Prop
  | .writer _ finish => finish.syncParent = .ok ()
  | _ => True

namespace Machine

section
variable {asked : Command → Prop} {policy : FsyncPolicy} {db : Db host} {file : Bytes}
  {m : Machine host Call}

theorem inTime_event (m : Machine host Call) (e : Event Call × Moment) :
    inTime (m.world, m.event e) = inTime (m.world, e.1) := by
  obtain ⟨e, moment⟩ := e
  cases e with
  | tick syncData =>
      unfold event
      dsimp only
      split_ifs <;> rfl
  | _ => rfl

theorem admissible_event {e : Event Call × Moment} (h : e.1.Admissible policy)
    (m : Machine host Call) : (m.event e).Admissible policy := by
  obtain ⟨e, moment⟩ := e
  cases e with
  | tick syncData =>
      unfold event
      dsimp only
      split_ifs <;> trivial
  | _ => exact h

theorem asks_event {e : Event Call × Moment} (h : e.1.Asks asked) (m : Machine host Call) :
    (m.event e).Asks asked := by
  obtain ⟨e, moment⟩ := e
  cases e with
  | tick syncData =>
      unfold event
      dsimp only
      split_ifs <;> trivial
  | _ => exact h

/-- What is assumed of a step: the commands come from clients, the calls that the writer cannot
do without succeed, a captured entry is written before its deadline, and no write fails in the
background without an error behind it. -/
structure Allowed (asked : Command → Prop) (policy : FsyncPolicy)
    (t : Machine host Call × (Event Call × Moment)) : Prop where
  admissible : t.2.1.Admissible policy
  asks : t.2.1.Asks asked
  syncsDirectory : t.2.1.SyncsDirectory
  inTime : RewriteProtocol.inTime (t.1.world, t.2.1) = true
  noticed : RewriteProtocol.noticed policy (t.1.world, t.1.event t.2) = true

theorem Allowed.stepOk {e : Event Call × Moment} (h : Allowed asked policy (m, e)) :
    StepOk policy (m.world, m.event e) :=
  ⟨admissible_event h.admissible m, (inTime_event m e).trans h.inTime, h.noticed⟩

theorem durable_start (policy : FsyncPolicy) (now : ExpireAt) (hdb : db.Valid) (file : Bytes) :
    (start now db file : Machine host Call).Durable asked policy db file where
  invariant := invariant_start now hdb file
  vouched := World.vouched_start now db file
  timed := rfl
  order := le_rfl
  backed := by
    refine ⟨_, _, _, _, backed_synced (invariant_start now hdb file) rfl
      ⟨⟨⟨?_, rfl⟩, rfl⟩, fun _ => rfl⟩⟩
    intro c hc
    rw [List.mem_singleton.mp hc]
    exact ⟨List.prefix_rfl, List.prefix_rfl⟩

/-- What a crash between two events leaves. -/
theorem Durable.crash (h : m.Durable asked policy db file) {image : Bytes}
    (hs : m.volume.Survives image) :
    ∃ older lost kept flight, m.Leaves asked policy db file image older lost kept flight := by
  obtain ⟨older, lost, kept, flight, hb⟩ := h.backed
  exact ⟨older, lost, kept, flight, hb.leaves h.vouched h.timed (hb.disk.within.survives hs)
    hb.flight_calls⟩

variable [DecidableEq Call]

theorem step_world (policy : FsyncPolicy) (e : Event Call × Moment) (m : Machine host Call) :
    (m.step policy e).world = World.step policy (m.event e) m.world := by
  unfold step
  dsimp only
  split <;> rfl

theorem step_takes (policy : FsyncPolicy) {e : Event Call × Moment} {s : WriterStep}
    (hs : m.world.writerStep (m.event e) = some s)
    (hw : (World.step policy (m.event e) m.world).writer = (m.world.writer.handle policy s).2) :
    Takes policy e.2 s m (m.step policy e) := by
  unfold step
  rw [hs]
  exact ⟨hw, rfl, rfl, rfl⟩

theorem step_order (h : m.lastSync ≤ m.instant) (policy : FsyncPolicy)
    (e : Event Call × Moment) : (m.step policy e).lastSync ≤ (m.step policy e).instant := by
  have hnow : m.lastSync ≤ m.instant + e.2.wait + e.2.busy := by omega
  unfold step
  dsimp only
  split
  · exact hnow
  · dsimp only
    unfold WriterStep.lastSync
    split
    · split_ifs <;> omega
    · split_ifs <;> omega
    · split_ifs <;> omega
    all_goals exact hnow

/-- The writer takes a message. -/
theorem Durable.message (h : m.Durable asked policy db file) {msg : Message Call}
    {queue : List (Message Call)} (hq : m.world.queue = msg :: queue) {moment : Moment}
    {calls : Writer.WriteCalls} {finish : Writer.FinishCalls}
    (helapsed : calls.elapsed = m.due moment) (hcalls : Recoverable policy calls finish)
    (hn : World.noticed policy calls finish m.world.writer msg = true)
    (hparent : finish.syncParent = .ok ()) {s : WriterStep}
    (hs : m.world.writerStep (.writer calls finish) = some s) {m' : Machine host Call}
    (hworld : m'.world = World.step policy (.writer calls finish) m.world)
    (htakes : m'.world.writer = (m.world.writer.handle policy s).2 → Takes policy moment s m m')
    (hinv : m'.world.Invariant db file) (hvouched : m'.world.Vouched asked db) :
    m.Settles asked policy db file (s.diskCalls policy moment.synced m.world.writer) m' := by
  obtain ⟨hset, -, hactive⟩ := hcalls
  have ha := h.invariant.orderly.awaited msg (hq ▸ List.mem_cons_self)
  unfold World.step at hworld
  dsimp only at hworld
  rw [hq] at hworld
  rw [writerStep, hq] at hs
  obtain rfl := Option.some.inj hs
  cases msg with
  | write c bytes =>
      obtain ⟨p, hc, rfl⟩ := ha
      unfold World.deliver World.acknowledge at hworld
      dsimp only at hworld
      rw [hc] at hworld
      have ht := htakes (by rw [hworld]; rfl)
      cases hf : m.world.writer.stats.writeFailed with
      | true =>
          refine h.refused hf ht ?_
          have hrefused : (m.world.writer.write policy p.write.bytes calls).1 =
              .error "AOF writer is in failed state" := by rw [Writer.write, if_pos hf]
          rw [hworld, hrefused]
          exact List.append_nil _
      | false =>
          exact h.written hc hset (World.noticed_write hn hf) helapsed hf ht
            (by rw [hworld]; rfl) hinv
  | startRewrite =>
      have hrecords : records m'.world.history = records m.world.history := by
        rw [hworld]
        unfold World.deliver
        dsimp only
        rw [records_append, records_marks_began, List.append_nil]
      have hwriter : m'.world.writer = m.world.writer.startRewrite.2 := by rw [hworld]; rfl
      have ht := htakes hwriter
      have hsame : ∀ w : Writer, w.startRewrite.2.file = w.file ∧
          w.startRewrite.2.stats = w.stats := fun w => by
        unfold Writer.startRewrite
        split_ifs <;> exact ⟨rfl, rfl⟩
      have hhistory : m.world.history <+: m'.world.history := by
        rw [hworld]
        exact List.prefix_append _ _
      exact h.quiet ht.volume hhistory hrecords (by rw [hwriter, (hsame _).1])
        (by rw [hwriter, (hsame _).2]) (ht.checks.trans (List.append_nil _)) ht.lastSync
  | finishRewrite =>
      exact h.finished hparent hactive (htakes (by rw [hworld]; rfl)) (by rw [hworld]; rfl)
        (by rw [hworld]; rfl) hinv hvouched
  | abortRewrite reason =>
      have hwriter : m'.world.writer = m.world.writer.abortRewrite reason := by rw [hworld]; rfl
      have ht := htakes hwriter
      exact h.quiet ht.volume (by rw [hworld]; exact List.prefix_rfl) (by rw [hworld]; rfl)
        (by rw [hwriter]; rfl) (by rw [hwriter]; rfl)
        (ht.checks.trans (List.append_nil _)) ht.lastSync

theorem Durable.step_vouched (h : m.Durable asked policy db file) {e : Event Call × Moment}
    (hask : e.1.Asks asked) : (m.step policy e).world.Vouched asked db := by
  rw [step_world]
  exact h.vouched.step h.invariant.orderly h.invariant.consistent.accounts policy
    (asks_event hask m)

theorem Durable.step (h : m.Durable asked policy db file) (hdb : db.Valid)
    {e : Event Call × Moment} (hok : StepOk policy (m.world, m.event e)) (hask : e.1.Asks asked)
    (hdir : e.1.SyncsDirectory) :
    m.Settles asked policy db file (m.diskCalls policy e) (m.step policy e) := by
  have hinv : (m.step policy e).world.Invariant db file := by
    rw [step_world]
    exact step_keeps hdb h.invariant hok
  have hvouched : (m.step policy e).world.Vouched asked db := h.step_vouched hask
  have hworld := step_world policy e m
  unfold diskCalls
  cases hs : m.world.writerStep (m.event e) with
  | none =>
      obtain ⟨hhistory, hfile, hfailed⟩ := sameLog_step policy hs
      rw [← hworld] at hhistory hfile hfailed
      have hstep : m.step policy e = { m with
          world := World.step policy (m.event e) m.world
          instant := m.instant + e.2.wait + e.2.busy } := by
        unfold Machine.step
        rw [hs]
      exact h.quiet (by rw [hstep]) (hhistory ▸ List.prefix_rfl) (by rw [hhistory]) hfile hfailed
        (by rw [hstep]) (by rw [hstep])
  | some s =>
      have htakes := step_takes policy hs
      obtain ⟨e, moment⟩ := e
      cases e with
      | tick syncData =>
          unfold event at hs htakes hworld
          dsimp only at hs htakes hworld
          cases hd : m.due moment with
          | false =>
              rw [hd] at hs
              cases hs
          | true =>
              rw [hd, if_pos rfl] at hs htakes hworld
              obtain rfl := Option.some.inj hs
              replace htakes := htakes rfl
              dsimp only [WriterStep.diskCalls]
              by_cases hp : policy = .everySec
              · subst hp
                rw [if_pos rfl]
                refine h.ticked htakes ?_ hinv
                rw [hworld]
                rfl
              · rw [if_neg hp]
                have hwriter : (m.step policy (.tick syncData, moment)).world.writer =
                    m.world.writer := by
                  rw [hworld]
                  exact if_neg hp
                have hhistory : (m.step policy (.tick syncData, moment)).world.history =
                    m.world.history := by
                  rw [hworld]
                  rfl
                refine h.quiet ?_ (hhistory ▸ List.prefix_rfl) (by rw [hhistory])
                  (by rw [hwriter]) (by rw [hwriter]) (htakes.checks.trans (List.append_nil _)) ?_
                · rw [htakes.volume, WriterStep.diskCalls, if_neg hp]
                  rfl
                · rw [htakes.lastSync, WriterStep.lastSync, if_neg hp]
      | writer calls finish =>
          cases hq : m.world.queue with
          | nil =>
              rw [event, writerStep, hq] at hs
              cases hs
          | cons msg queue =>
              have hdue : ({ calls with elapsed := m.due moment } : Writer.WriteCalls).elapsed =
                  m.due moment := rfl
              have hn := hok.noticed
              unfold RewriteProtocol.noticed event at hn
              dsimp only at hn
              rw [hq] at hn
              exact h.message hq hdue hok.admissible hn hdir hs hworld
                (fun hw => htakes (hworld ▸ hw)) hinv hvouched
      | land =>
          obtain rfl := Option.some.inj hs
          exact h.landed (htakes rfl) (by rw [hworld]; rfl)
      | _ => cases hs

theorem Durable.keep (h : m.Durable asked policy db file) (hdb : db.Valid)
    {e : Event Call × Moment} (hok : Allowed asked policy (m, e)) :
    (m.step policy e).Durable asked policy db file := by
  have hs := h.step hdb hok.stepOk hok.asks hok.syncsDirectory
  refine ⟨?_, h.step_vouched hok.asks, hs.timed, step_order h.order policy e, hs.backed⟩
  rw [step_world]
  exact step_keeps hdb h.invariant hok.stepOk

theorem durable_run (asked : Command → Prop) (policy : FsyncPolicy) (now : ExpireAt)
    {db : Db host} (h : db.Valid) (file : Bytes) (events : List (Event Call × Moment))
    (ha : ∀ e ∈ events, e.1.Admissible policy ∧ e.1.Asks asked ∧ e.1.SyncsDirectory)
    (ht : ∀ t ∈ taken (step policy) events (start now db file),
      RewriteProtocol.inTime (t.1.world, t.2.1) = true)
    (hn : ∀ t ∈ taken (step policy) events (start now db file),
      RewriteProtocol.noticed policy (t.1.world, t.1.event t.2) = true) :
    (∀ t ∈ taken (step policy) events (start now db file),
      t.1.Durable asked policy db file ∧ Allowed asked policy t) ∧
    (run (step policy) events (start now db file)).Durable asked policy db file := by
  have hok : ∀ t ∈ taken (step policy) events (start now db file), Allowed asked policy t :=
    fun t hm => ⟨(ha t.2 (label_mem hm)).1, (ha t.2 (label_mem hm)).2.1,
      (ha t.2 (label_mem hm)).2.2, ht t hm, hn t hm⟩
  obtain ⟨htaken, hrun⟩ := kept (fun m e (hm : m.Durable asked policy db file) hok =>
    hm.keep h hok) (durable_start policy now h file) hok
  exact ⟨fun t hm => ⟨htaken t hm, hok t hm⟩, hrun⟩

/-- Wherever a crash comes in a run, between two events or between two calls of one event, it
leaves the log of the writes that were acknowledged in time for the last sync, and behind it a
part of the others and of a write in flight. -/
theorem crash_leaves_acknowledged (asked : Command → Prop) (policy : FsyncPolicy) (now : ExpireAt)
    {db : Db host} (h : db.Reachable) (file : Bytes) (events : List (Event Call × Moment))
    (ha : ∀ e ∈ events, e.1.Admissible policy ∧ e.1.Asks asked ∧ e.1.SyncsDirectory)
    (ht : ∀ t ∈ taken (step policy) events (start now db file),
      RewriteProtocol.inTime (t.1.world, t.2.1) = true)
    (hn : ∀ t ∈ taken (step policy) events (start now db file),
      RewriteProtocol.noticed policy (t.1.world, t.1.event t.2) = true) :
    (∀ t ∈ taken (step policy) events (start now db file), ∀ image,
      t.1.volume.SurvivesDuring (t.1.diskCalls policy t.2) image →
        ∃ older lost kept flight,
          t.1.Leaves asked policy db file image older lost kept flight) ∧
    ∀ image, (run (step policy) events (start now db file)).volume.Survives image →
      ∃ older lost kept flight,
        (run (step policy) events (start now db file)).Leaves asked policy db file image older
          lost kept flight := by
  obtain ⟨htaken, hrun⟩ := durable_run asked policy now h.valid file events ha ht hn
  refine ⟨fun t hm => ?_, fun image hs => hrun.crash hs⟩
  obtain ⟨hdurable, hok⟩ := htaken t hm
  exact (hdurable.step h.valid hok.stepOk hok.asks hok.syncsDirectory).crash

end

/-- A write under the policy `always`, and a second one that the writer has not taken yet. -/
def crashEvents : List (Event ℕ × Moment) :=
  (writeEvents 0 (.set [107] [118] (some 1100)) ++
    (writeEvents 1 (.set [107] [118] (some 1100))).take 4).map fun e => (e, {})

theorem crash_leaves_acknowledged_write :
    let m := run (step .always) crashEvents (start 1000 (Db.new : Db Server.oneShard) [])
    ∃ older lost kept flight, m.Leaves Command.FromClient .always Db.new []
      m.volume.file.bytes older lost kept flight := by
  have hwriter : Recoverable .always {} { openTemp := .ok [] } := ⟨rfl, rfl, fun _ => rfl⟩
  refine (crash_leaves_acknowledged Command.FromClient .always 1000 .new [] crashEvents
    ?_ ?_ ?_).2 _ (.inl ⟨_, DurableFiles.File.bytes_mem _, _, DurableFiles.File.bytes_mem _,
      List.prefix_rfl, List.prefix_rfl⟩)
  · simp [crashEvents, writeEvents, Event.Admissible, Event.Asks, Event.SyncsDirectory,
      Server.fromClient_set, hwriter]
  · exact List.all_eq_true.mp rfl
  · exact List.all_eq_true.mp rfl

end Machine
end MiniRedis.RewriteProtocol
