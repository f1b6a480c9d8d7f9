import MiniRedis.AcknowledgedWrites
import MiniRedis.AofStatistics

/-!
# What is visible is what was acknowledged

Whenever nobody holds the gate, the live keys are those that the acknowledged writes have left,
and no others, whatever calls to the operating system have failed. When the writer is told of an
append or a sync that has failed, the server is read-only: no write is acknowledged any more, and
the keys stay as they are until their deadlines.
-/
namespace MiniRedis.RewriteProtocol
open Aof Compaction Runs World

variable {host : Host} {Call : Type}

/-- The live view is that of the acknowledged writes, and of the one that waits for the writer. -/
structure World.Tracks (db : Db host) (w : World host Call) : Prop where
  valid : w.db.Valid
  accounts : Accounts w.clock (replayed db (records w.history)) w.db w.pending

namespace World
variable {w w' : World host Call} {db : Db host}

theorem Tracks.congr (h : w.Tracks db) (hs : SameAccounts w w') : w'.Tracks db where
  valid := by rw [hs.db]; exact h.valid
  accounts := by rw [hs.clock, hs.records, hs.db, hs.pending]; exact h.accounts

/-- A change of the database that does not show. -/
theorem Tracks.withDb (h : w.Tracks db) {db' : Db host} (hvalid : db'.Valid)
    (hview : db'.view w.clock = w.db.view w.clock) :
    ({ w with db := db' } : World host Call).Tracks db :=
  ⟨hvalid, h.accounts.congr hview⟩

theorem Tracks.read (h : w.Tracks db) {cmd : Command} (hr : ¬ cmd.isWrite = true) :
    ({ w with db := (cmd.apply w.clock w.db).2 } : World host Call).Tracks db := by
  have hrefines := cmd.apply_refines w.clock w.db
  cases ht : cmd.transaction w.clock with
  | some t =>
      rw [Command.isWrite_iff_transaction w.clock, ht] at hr
      exact (hr rfl).elim
  | none =>
      rw [ht] at hrefines
      exact h.withDb (Db.valid_of_shards hrefines h.valid) (Db.view_of_shards hrefines)

theorem tracks_start (now : ExpireAt) (h : db.Valid) (file : Bytes) :
    (start now db file : World host Call).Tracks db := ⟨h, rfl⟩

variable [DecidableEq Call]

/-- The command of the holder of the gate. -/
theorem Tracks.execute (h : w.Tracks db) {c : Call} {cmd : Command} {aofFrame : Option Frame}
    (hc : cmd.FromClient) (hframe : aofFrame.isSome = true) (hg : w.gate = some (.client c))
    (hp : w.pending = none) : (w.execute c cmd aofFrame).Tracks db := by
  have hquiet := h.accounts
  rw [hp] at hquiet
  have moved : ∀ stage : Stage host Call,
      Accounts w.clock (replayed db (records w.history)) (cmd.apply w.clock w.db).2
        stage.pending →
      ({ w with db := (cmd.apply w.clock w.db).2 }.set c stage).Tracks db := by
    intro stage haccounts
    have hpending : ({ w with db := (cmd.apply w.clock w.db).2 }.set c stage).pending =
        stage.pending := pending_set hg
    refine ⟨h.valid.apply w.clock cmd, ?_⟩
    rw [hpending]
    exact haccounts
  unfold World.execute
  dsimp only
  by_cases he : (cmd.apply w.clock w.db).1.isError = true
  · rw [dif_pos he]
    exact moved _ ((hc.view_of_error he).trans hquiet)
  · rw [dif_neg he]
    cases aofFrame with
    | none => cases hframe
    | some frame => exact moved _ ⟨Command.view_apply_congr hquiet cmd, w.db, rfl, hquiet⟩

/-- Every step of a connection task. -/
theorem Tracks.client (h : w.Tracks db) (ho : w.Orderly) {c : Call} {stage : Stage host Call}
    (hc : w.clients c = some stage) : (w.client c stage).Tracks db := by
  have haccounts := h.accounts
  have hholder : stage.holds = true → w.gate = some (.client c) := fun hs =>
    (ho.gate_client c).mpr (by rw [hc]; exact hs)
  have hpending : stage.holds = true → w.pending = stage.pending := fun hs =>
    pending_of_holder (hholder hs) hc
  cases stage with
  | waiting cmd aofFrame =>
      unfold World.client
      cases hg : w.gate with
      | some party => exact h
      | none =>
          have hnew : ({ w with gate := some (.client c) }.set c (.holding cmd aofFrame)).pending =
              none := pending_set rfl
          exact h.congr ⟨rfl, rfl, hnew.trans (pending_of_free hg).symm, rfl⟩
  | holding cmd aofFrame =>
      obtain ⟨hcmd, hframe⟩ := ho.sound c _ hc
      exact h.execute hcmd hframe (hholder rfl) (hpending rfl)
  | applied p =>
      unfold World.client
      split_ifs
      · have hnew : (w.set c (.acknowledged p (.error "AOF writer is in failed state"))).pending =
            some p := pending_set (hholder rfl)
        exact h.congr ⟨rfl, rfl, hnew.trans (hpending rfl).symm, rfl⟩
      · have hnew : ((w.send (.write c p.write.bytes)).set c (.appending p)).pending = some p :=
          pending_set (hholder rfl)
        exact h.congr ⟨rfl, rfl, hnew.trans (hpending rfl).symm, rfl⟩
  | appending p => exact h
  | acknowledged p result =>
      rw [hpending rfl] at haccounts
      cases result with
      | ok =>
          have hnew : (w.set c (.releasing (.ok p.reply))).pending = none :=
            pending_set (hholder rfl)
          exact h.congr ⟨rfl, rfl, hnew.trans (hpending rfl).symm, rfl⟩
      | error e =>
          obtain ⟨old, hroll, -⟩ := haccounts.2
          have hnew : (w.client c (.acknowledged p (.error e))).pending = none :=
            pending_set (hholder rfl)
          refine ⟨?_, ?_⟩
          · change (w.db.restoreEntries p.rollback).Valid
            rw [hroll]
            exact h.valid.restore_snapshot old _
          · rw [hnew]
            exact haccounts.restored
  | releasing result =>
      have hnew : (w.client c (.releasing result)).pending = none := pending_of_free rfl
      exact h.congr ⟨rfl, rfl, hnew.trans (hpending rfl).symm, rfl⟩
  | answered result => exact h

theorem Tracks.request (h : w.Tracks db) (ho : w.Orderly) (c : Call) (cmd : Command) :
    (w.request c cmd).Tracks db := by
  unfold World.request
  cases hc : w.clients c with
  | some stage => exact h
  | none =>
      dsimp only
      split_ifs
      · have hg : w.gate ≠ some (.client c) := by
          rw [ne_eq, ho.gate_client c, hc]
          exact Bool.false_ne_true
        exact h.congr ⟨rfl, rfl, pending_set_of_ne hg _, rfl⟩
      · exact h

/-- The writer's answer to a write settles whether the write belongs to the acknowledged ones. -/
theorem Tracks.acknowledge (h : w.Tracks db) {c : Call} {p : Pending host Call}
    (hg : w.gate = some (.client c)) (hc : w.clients c = some (.appending p))
    (result : CallResult) : (w.acknowledge c result).Tracks db := by
  have hpending : w.pending = some p := pending_of_holder hg hc
  have haccounts := h.accounts
  rw [hpending] at haccounts
  have hset : ∀ history stage, ({ w with history := history }.set c stage).pending =
      stage.pending := fun history stage => pending_set hg
  unfold World.acknowledge
  rw [hc]
  cases result with
  | error e =>
      dsimp only [marks]
      rw [List.append_nil]
      exact h.congr ⟨rfl, rfl, (hset w.history _).trans hpending.symm, rfl⟩
  | ok =>
      refine ⟨h.valid, ?_⟩
      rw [hset]
      change w.db.view w.clock =
        (replayed db (records (w.history ++ [.recorded p.write]))).view w.clock
      rw [records_append, records_recorded, records_nil, replayed_snoc]
      exact haccounts.1

theorem Tracks.deliver (h : w.Tracks db) (ho : w.Orderly) {m : Message Call}
    {queue : List (Message Call)} (hq : w.queue = m :: queue) (policy : FsyncPolicy)
    (calls : Writer.WriteCalls) (finish : Writer.FinishCalls) :
    ({ w with queue := queue }.deliver policy calls finish m).Tracks db := by
  have ha := ho.awaited m (hq ▸ List.mem_cons_self)
  cases m with
  | write c bytes =>
      obtain ⟨p, hc, -⟩ := ha
      have hholder : w.gate = some (.client c) := (ho.gate_client c).mpr (by rw [hc]; rfl)
      have hdelivered : ({ w with
          queue := queue
          writer := (w.writer.write policy bytes calls).2 } : World host Call).Tracks db :=
        h.congr ⟨rfl, rfl, rfl, rfl⟩
      exact hdelivered.acknowledge hholder hc _
  | startRewrite =>
      refine h.congr ⟨rfl, rfl, rfl, ?_⟩
      change records (w.history ++ _) = _
      rw [records_append, records_marks_began, List.append_nil]
  | finishRewrite =>
      refine h.congr ⟨rfl, rfl, rfl, ?_⟩
      change records (w.history ++ _) = _
      rw [records_append, records_switched, List.append_nil]
  | abortRewrite reason => exact h.congr ⟨rfl, rfl, rfl, rfl⟩

theorem Tracks.step (h : w.Tracks db) (ho : w.Orderly) (policy : FsyncPolicy) (e : Event Call) :
    (World.step policy e w).Tracks db := by
  unfold World.step
  cases e with
  | pass ms =>
      have hclock : w.clock ≤ w.clock + ms := Nat.le_add_right _ _
      exact ⟨h.valid, h.accounts.mono hclock⟩
  | read cmd =>
      dsimp only
      split_ifs with hr
      · exact h
      · exact h.read hr
  | sweep => exact h.withDb (h.valid.sweepOnce w.clock) (Db.view_sweepOnce h.valid le_rfl)
  | request c cmd => exact h.request ho c cmd
  | client c =>
      dsimp only
      cases hc : w.clients c with
      | none => exact h
      | some stage => exact h.client ho hc
  | schedule =>
      dsimp only
      unfold World.schedule
      split_ifs
      · exact h
      · exact h.congr ⟨rfl, rfl, rfl, rfl⟩
  | rewrite result => exact h.congr (rewrite_sameAccounts ho result)
  | writer calls finish =>
      dsimp only
      cases hq : w.queue with
      | nil => exact h
      | cons m queue => exact h.deliver ho hq policy calls finish
  | tick | land => exact h.congr ⟨rfl, rfl, rfl, rfl⟩

theorem tracks_run (policy : FsyncPolicy) {events : List (Event Call)}
    (he : ∀ e ∈ events, e.Sent) {callers : Finset Call} (hw : w.Attended callers)
    (h : w.Tracks db) :
    (run (World.step policy) events w).Tracks db := by
  induction events generalizing w callers with
  | nil => exact h
  | cons e events ih =>
      obtain ⟨hfirst, hrest⟩ := List.forall_mem_cons.mp he
      obtain ⟨callers', hw'⟩ := hw.step policy hfirst
      exact ih hrest hw' (h.step hw.orderly policy e)

/-- Whenever nobody holds the gate in a run, the live keys are exactly those that the acknowledged
writes have left, in their order: a write that was not acknowledged has left nothing behind. The
acknowledged writes are those of the clients that got a reply without an error, each once. -/
theorem visible_is_acknowledged (policy : FsyncPolicy) (now : ExpireAt) (h : db.Valid)
    (file : Bytes) (events : List (Event Call)) (he : ∀ e ∈ events, e.Sent) :
    let w := run (World.step policy) events (start now db file)
    w.gate = none → w.db.view w.clock = (replayed db (records w.history)).view w.clock ∧
      w.calls.Nodup ∧ ∀ c, c ∈ w.calls ↔
        ∃ reply : Frame, w.clients c = some (.answered (.ok reply)) ∧ reply.isError = false := by
  intro w hfree
  obtain ⟨callers, hw⟩ := attended_run policy he (attended_start now db file)
  have haccounts := (tracks_run policy he (attended_start now db file)
    (tracks_start now h file)).accounts
  change Accounts w.clock _ w.db w.pending at haccounts
  rw [pending_of_free hfree] at haccounts
  refine ⟨haccounts, hw.orderly.once, fun c => (hw.orderly.recorded c).trans ?_⟩
  have hnone := hw.orderly.gate_client c
  change w.gate = _ ↔ (w.clients c).any _ = _ at hnone
  change (w.clients c).any _ = _ ↔ _
  rw [hfree] at hnone
  cases hc : w.clients c with
  | none => simp
  | some stage =>
      rw [hc] at hnone
      cases stage with
      | answered result => cases result <;> simp [Stage.recorded]
      | waiting => simp [Stage.recorded]
      | _ => exact absurd (hnone.mpr rfl) (by simp)

/-- `SET k v` with the deadline 1100, of which three bytes are appended before the disk is full;
the sync fails as well. -/
def failedAppend : List (Event ℕ) :=
  [.request 0 (.set [107] [118] (some 1100)), .client 0, .client 0, .client 0,
    .writer { writeAll := .error (3, "disk full"), syncData := .error "disk full" }
      { openTemp := .ok [] }, .client 0, .client 0]

theorem sent_failedAppend : ∀ e ∈ failedAppend, e.Sent := by
  simp [failedAppend, Event.Sent, Server.fromClient_set]

theorem visible_is_acknowledged_append :
    let w := run (World.step .always) failedAppend (start 1000 (Db.new : Db Server.oneShard) [])
    w.gate = none ∧
      w.db.view w.clock = (replayed (Db.new : Db Server.oneShard) (records w.history)).view
        w.clock := by
  have hfree : (run (World.step .always) failedAppend
      (start 1000 (Db.new : Db Server.oneShard) [])).gate = none := rfl
  exact ⟨hfree, (visible_is_acknowledged .always 1000 Db.valid_new [] failedAppend
    sent_failedAppend hfree).1⟩

/-! ## After a failure -/

/-- A step after which the writer has failed acknowledges no write. -/
theorem records_step (policy : FsyncPolicy) (e : Event Call)
    (hf : (World.step policy e w).writer.stats.writeFailed = true) :
    records (World.step policy e w).history = records w.history := by
  unfold World.step at hf ⊢
  cases e with
  | pass | sweep | tick | land => rfl
  | read cmd =>
      dsimp only
      split_ifs <;> rfl
  | request c cmd =>
      dsimp only
      unfold World.request
      cases w.clients c with
      | some stage => rfl
      | none =>
          dsimp only
          split_ifs <;> rfl
  | client c =>
      dsimp only
      cases w.clients c with
      | none => rfl
      | some stage => exact congrArg records (client_history w c stage)
  | schedule =>
      dsimp only
      unfold World.schedule
      split_ifs <;> rfl
  | rewrite result => exact congrArg records (rewrite_history w result)
  | writer calls finish =>
      dsimp only at hf ⊢
      cases hq : w.queue with
      | nil => rfl
      | cons m queue =>
          rw [hq] at hf
          cases m with
          | write c bytes =>
              unfold World.deliver at hf ⊢
              dsimp only at hf ⊢
              rw [acknowledge_writer] at hf
              have hrefused : (!(w.writer.write policy bytes calls).1.isOk) = true :=
                (w.writer.write_writeFailed policy bytes calls).symm.trans hf
              unfold World.acknowledge
              cases hr : (w.writer.write policy bytes calls).1 with
              | ok =>
                  rw [hr] at hrefused
                  cases hrefused
              | error e =>
                  split
                  · exact congrArg records (List.append_nil _)
                  · rfl
          | startRewrite =>
              change records (w.history ++ _) = _
              rw [records_append, records_marks_began, List.append_nil]
          | finishRewrite =>
              change records (w.history ++ _) = _
              rw [records_append, records_switched, List.append_nil]
          | abortRewrite reason => rfl

theorem records_run (policy : FsyncPolicy) (events : List (Event Call))
    (hf : w.writer.stats.writeFailed = true) :
    (run (World.step policy) events w).writer.stats.writeFailed = true ∧
      records (run (World.step policy) events w).history = records w.history := by
  induction events generalizing w with
  | nil => exact ⟨hf, rfl⟩
  | cons e events ih =>
      have hstep : (World.step policy e w).writer.stats.writeFailed = true := by
        rw [step_writeFailed, hf, Bool.true_or]
      obtain ⟨hfailed, hrecords⟩ := ih hstep
      exact ⟨hfailed, hrecords.trans (records_step policy e hstep)⟩

/-- From the step on in which the writer is told that an append has failed, or a sync outside the
end of a rewrite, no write is acknowledged: every reply without an error is to a write that was
acknowledged before. Whenever nobody holds the gate, the keys are those that these writes have
left, as far as their deadlines have not passed. -/
theorem read_only_after_failure (policy : FsyncPolicy) (now : ExpireAt) (h : db.Valid)
    (file : Bytes) (events : List (Event Call)) (he : ∀ e ∈ events, e.Sent) :
    let w := run (World.step policy) events (start now db file)
    ∀ t ∈ taken (World.step policy) events (start now db file), fails policy t = true →
      w.writer.stats.writeFailed = true ∧ w.calls = t.1.calls ∧
      (w.gate = none → w.db.view w.clock = (replayed db (records t.1.history)).view w.clock) ∧
      ∀ c (reply : Frame), w.clients c = some (.answered (.ok reply)) →
        reply.isError = false → c ∈ t.1.calls := by
  intro w t ht hf
  obtain ⟨before, after, rfl, hstart⟩ := split_of_mem ht
  have hset : (World.step policy t.2 t.1).writer.stats.writeFailed = true := by
    rw [step_writeFailed, show fails policy (t.1, t.2) = true from hf, Bool.or_true]
  have hlast : w = run (World.step policy) after (World.step policy t.2 t.1) := by
    rw [hstart]
    exact run_append before (t.2 :: after) _
  obtain ⟨hfailed, hrecords⟩ := records_run policy after hset
  rw [← hlast, records_step policy t.2 hset] at hrecords
  rw [← hlast] at hfailed
  obtain ⟨callers, hw⟩ := attended_run policy he (attended_start now db file)
  have hcalls : w.calls = t.1.calls := congrArg (List.map Write.call) hrecords
  refine ⟨hfailed, hcalls, fun hfree => ?_, fun c reply hreply hgood => ?_⟩
  · rw [← hrecords]
    exact (visible_is_acknowledged policy now h file _ he hfree).1
  · rw [← hcalls]
    refine (hw.orderly.recorded c).mpr ?_
    change (w.clients c).any _ = true
    rw [hreply]
    simpa [Stage.recorded] using hgood

theorem read_only_after_failure_append :
    let w := run (World.step .always) (failedAppend ++ writeEvents 1 (.persist [107]))
      (start 1000 (Db.new : Db Server.oneShard) [])
    w.writer.stats.writeFailed = true ∧ w.calls = [] := by
  have hsent : ∀ e ∈ failedAppend ++ writeEvents 1 (.persist [107]), e.Sent := by
    have hpersist : (Command.persist [107]).FromClient :=
      Server.fromClient_of_args 0 _ (by decide) (by decide) (Server.fromFrame_persistFrame 0)
    simp [failedAppend, writeEvents, Event.Sent, Server.fromClient_set, hpersist]
  obtain ⟨hfailed, hcalls, -⟩ := read_only_after_failure .always 1000
    (Db.valid_new : (Db.new : Db Server.oneShard).Valid) [] _ hsent _
    (List.mem_of_getElem? (i := 4) rfl) rfl
  exact ⟨hfailed, hcalls⟩

end World
end MiniRedis.RewriteProtocol
