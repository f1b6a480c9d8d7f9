import MiniRedis.RewriteContents

/-!
# Every step keeps the file right

One lemma for each kind of event: what the parts of the world have to do with each other
stays true. A write that the writer acknowledges goes into the history, the file and the
buffer at once, and a rewrite that ends puts its image in place of the file.
-/
namespace MiniRedis.RewriteProtocol
open Aof Compaction Command PrefixCode

variable {host : Host} {Call : Type}

/-! ## The writer's share in the rewrite flag -/

theorem writeFrame_rewriteInProgress (policy : FsyncPolicy) (bytes : Bytes)
    (calls : Writer.WriteCalls) (w : Writer) :
    (w.writeFrame policy bytes calls).2.stats.rewriteInProgress = w.stats.rewriteInProgress := by
  obtain ⟨file, size, hw⟩ := Writer.writeFrame_refiled policy bytes calls w
  rw [hw]

theorem write_rewriteInProgress (policy : FsyncPolicy) (bytes : Bytes)
    (calls : Writer.WriteCalls) (w : Writer) :
    (w.write policy bytes calls).2.stats.rewriteInProgress = w.stats.rewriteInProgress := by
  have hbuffer : ∀ w : Writer,
      (w.bufferFrame bytes).stats.rewriteInProgress = w.stats.rewriteInProgress := by
    intro w
    unfold Writer.bufferFrame
    cases w.rewriteBuffer with
    | none => rfl
    | some buffer =>
        dsimp only
        cases buffer.push bytes <;> rfl
  have hframe := writeFrame_rewriteInProgress policy bytes calls w
  unfold Writer.write
  split_ifs
  · rfl
  · cases hw : w.writeFrame policy bytes calls with
    | mk result w' =>
        rw [hw] at hframe
        cases result with
        | ok => exact (hbuffer w').trans hframe
        | error e => exact hframe

theorem finishRewrite_rewriteInProgress (policy : FsyncPolicy) (calls : Writer.FinishCalls)
    (w : Writer) :
    (w.finishRewrite policy calls).2.stats.rewriteInProgress = w.stats.rewriteInProgress := by
  unfold Writer.finishRewrite
  cases w.rewriteBuffer with
  | none => rfl
  | some buffer =>
      dsimp only
      cases Writer.replacement calls buffer with
      | error e => rfl
      | ok file =>
          unfold Writer.switchTo
          dsimp only
          split <;> rfl

theorem finishRewrite_rewriteBuffer (policy : FsyncPolicy) (calls : Writer.FinishCalls)
    (w : Writer) : (w.finishRewrite policy calls).2.rewriteBuffer = none := by
  unfold Writer.finishRewrite
  cases hb : w.rewriteBuffer with
  | none => exact hb
  | some buffer =>
      dsimp only
      cases Writer.replacement calls buffer with
      | error e => rfl
      | ok file =>
          unfold Writer.switchTo
          dsimp only
          split <;> rfl

namespace World
variable {w w' : World host Call} {db : Db host} {file : Bytes}

/-! ## Time, reads and sweeps -/

theorem Consistent.pass (h : w.Consistent db file) (ms : ℕ) :
    ({ w with clock := w.clock + ms }).Consistent db file :=
  have hclock : w.clock ≤ w.clock + ms := Nat.le_add_right _ _
  ⟨h.valid, h.accounts.mono hclock, h.inSync,
    h.progress.congr hclock rfl (fun _ ha => ha) id fun _ _ => rfl, h.busy, h.contents⟩

/-- A change of the database that does not show. -/
theorem Consistent.withDb (h : w.Consistent db file) {db' : Db host} (hvalid : db'.Valid)
    (hview : db'.view w.clock = w.db.view w.clock) : ({ w with db := db' }).Consistent db file :=
  ⟨hvalid, h.accounts.congr hview, h.inSync,
    h.progress.congr le_rfl rfl (fun _ ha => ha) id fun _ _ => rfl, h.busy, h.contents⟩

theorem Consistent.read (h : w.Consistent db file) {cmd : Command} (hr : ¬ cmd.isWrite = true) :
    ({ w with db := (cmd.apply w.clock w.db).2 }).Consistent db file := by
  have hrefines := cmd.apply_refines w.clock w.db
  cases ht : cmd.transaction w.clock with
  | some t =>
      rw [Command.isWrite_iff_transaction w.clock, ht] at hr
      exact (hr rfl).elim
  | none =>
      rw [ht] at hrefines
      exact h.withDb (Db.valid_of_shards hrefines h.valid) (Db.view_of_shards hrefines)

/-! ## Clients -/

/-- A client's task moves; the writer and the rewrite task do not. -/
theorem Consistent.move (h : w.Consistent db file) (hclock : w'.clock = w.clock)
    (hvalid : w'.db.Valid)
    (haccounts : Accounts w.clock (replayed db (records w.history)) w'.db w'.pending)
    (htask : w'.task = w.task) (hwriter : w'.writer = w.writer) (htemp : w'.temp = w.temp)
    (hhistory : w'.history = w.history) : w'.Consistent db file where
  valid := hvalid
  accounts := by rw [hclock, hhistory]; exact haccounts
  inSync := by rw [hwriter]; exact h.inSync
  progress := by
    rw [htask]
    refine h.progress.congr hclock.ge htemp (fun earlier ha => ?_)
      (fun hn => by rw [hwriter]; exact hn) fun _ _ => by rw [hhistory]
    unfold Attempt
    rw [hhistory, hwriter]
    exact ha
  busy := by rw [hwriter, htask]; exact h.busy
  contents := by rw [hhistory, hwriter]; exact h.contents

section
variable [DecidableEq Call]

theorem pending_set {c : Call} {stage : Stage host Call}
    (hg : (w.set c stage).gate = some (.client c)) : (w.set c stage).pending = stage.pending :=
  pending_of_holder hg (set_self w c stage)

theorem pending_set_of_ne {c : Call} (hg : w.gate ≠ some (.client c)) (stage : Stage host Call) :
    (w.set c stage).pending = w.pending := by
  have hgate : (w.set c stage).gate = w.gate := rfl
  unfold pending
  rw [hgate]
  cases hw : w.gate with
  | none => rfl
  | some party =>
      cases party with
      | rewrite => rfl
      | client d =>
          have hd : d ≠ c := fun hd => hg (by rw [hw, hd])
          exact congrArg (Option.bind · Stage.pending) (set_of_ne w stage hd)

theorem Consistent.execute (h : w.Consistent db file) {c : Call} {cmd : Command}
    {aofFrame : Option Frame} (hc : cmd.FromClient) (hframe : aofFrame.isSome = true)
    (hg : w.gate = some (.client c)) (hp : w.pending = none) :
    (w.execute c cmd aofFrame).Consistent db file := by
  have hquiet := h.accounts
  rw [hp] at hquiet
  have moved : ∀ stage : Stage host Call,
      Accounts w.clock (replayed db (records w.history)) (cmd.apply w.clock w.db).2 stage.pending →
      ({ w with db := (cmd.apply w.clock w.db).2 }.set c stage).Consistent db file := by
    intro stage haccounts
    have hpending : ({ w with db := (cmd.apply w.clock w.db).2 }.set c stage).pending =
        stage.pending := pending_set hg
    refine h.move rfl (h.valid.apply w.clock cmd) ?_ rfl rfl rfl rfl
    rw [hpending]
    exact haccounts
  unfold World.execute
  dsimp only
  by_cases he : (cmd.apply w.clock w.db).1.isError = true
  · rw [dif_pos he]
    exact moved _ ((hc.view_of_error he).trans hquiet)
  · rw [dif_neg he]
    cases aofFrame with
    | none => cases hframe
    | some frame => exact moved _ ⟨Command.view_apply_congr hquiet cmd, w.db, rfl, hquiet⟩

/-- Every step of a connection task. -/
theorem Consistent.client (h : w.Consistent db file) (ho : w.Orderly) {c : Call}
    {stage : Stage host Call} (hc : w.clients c = some stage) :
    (w.client c stage).Consistent db file := by
  have haccounts := h.accounts
  have hholder : stage.holds = true → w.gate = some (.client c) := fun hs =>
    (ho.gate_client c).mpr (by rw [hc]; exact hs)
  have hpending : stage.holds = true → w.pending = stage.pending := fun hs =>
    pending_of_holder (hholder hs) hc
  cases stage with
  | waiting cmd aofFrame =>
      unfold World.client
      cases hg : w.gate with
      | some party => exact h
      | none =>
          have hnew : ({ w with gate := some (.client c) }.set c (.holding cmd aofFrame)).pending =
              none := pending_set rfl
          refine h.move rfl h.valid ?_ rfl rfl rfl rfl
          rw [hnew, ← pending_of_free hg]
          exact haccounts
  | holding cmd aofFrame =>
      obtain ⟨hcmd, hframe⟩ := ho.sound c _ hc
      exact h.execute hcmd hframe (hholder rfl) (hpending rfl)
  | applied p =>
      rw [hpending rfl] at haccounts
      unfold World.client
      split_ifs
      · have hnew : (w.set c (.acknowledged p (.error "AOF writer is in failed state"))).pending =
            some p := pending_set (hholder rfl)
        refine h.move rfl h.valid ?_ rfl rfl rfl rfl
        rw [hnew]
        exact haccounts
      · have hnew : ((w.send (.write c p.write.bytes)).set c (.appending p)).pending = some p :=
          pending_set (hholder rfl)
        refine h.move rfl h.valid ?_ rfl rfl rfl rfl
        rw [hnew]
        exact haccounts
  | appending p => exact h
  | acknowledged p result =>
      rw [hpending rfl] at haccounts
      cases result with
      | ok =>
          have hnew : (w.set c (.releasing (.ok p.reply))).pending = none :=
            pending_set (hholder rfl)
          refine h.move rfl h.valid ?_ rfl rfl rfl rfl
          rw [World.client, hnew]
          exact haccounts
      | error e =>
          obtain ⟨old, hroll, -⟩ := haccounts.2
          have hnew : (w.client c (.acknowledged p (.error e))).pending = none :=
            pending_set (hholder rfl)
          refine h.move rfl ?_ ?_ rfl rfl rfl rfl
          · change (w.db.restoreEntries p.rollback).Valid
            rw [hroll]
            exact h.valid.restore_snapshot old _
          · rw [hnew]
            exact haccounts.restored
  | releasing result =>
      rw [hpending rfl] at haccounts
      refine h.move rfl h.valid ?_ rfl rfl rfl rfl
      rw [pending_of_free rfl]
      exact haccounts
  | answered result => exact h

theorem Consistent.request (h : w.Consistent db file) (ho : w.Orderly) (c : Call)
    (cmd : Command) : (w.request c cmd).Consistent db file := by
  unfold World.request
  cases hc : w.clients c with
  | some stage => exact h
  | none =>
      dsimp only
      split_ifs
      · have hg : w.gate ≠ some (.client c) := by
          rw [ne_eq, ho.gate_client c, hc]
          exact Bool.false_ne_true
        refine h.move rfl h.valid ?_ rfl rfl rfl rfl
        rw [pending_set_of_ne hg]
        exact h.accounts
      · exact h

end

/-! ## The rewrite task -/

theorem Consistent.schedule (h : w.Consistent db file) : w.schedule.Consistent db file := by
  unfold World.schedule
  rw [h.busy]
  split_ifs with hp
  · exact h
  · have ht : w.task = .idle := TaskStage.eq_idle (Bool.not_eq_true _ ▸ hp)
    have hprogress := h.progress
    rw [ht] at hprogress
    exact ⟨h.valid, h.accounts, h.inSync, hprogress, rfl, h.contents⟩

/-- The rewrite task moves; the writer and the history do not. -/
theorem Consistent.advance (h : w.Consistent db file) (hclock : w'.clock = w.clock)
    (hdb : w'.db = w.db) (hpending : w'.pending = w.pending) (hwriter : w'.writer = w.writer)
    (hhistory : w'.history = w.history) (hbusy : w'.task.busy = w.task.busy)
    (hprogress : w'.Progress db w'.task) : w'.Consistent db file where
  valid := by rw [hdb]; exact h.valid
  accounts := by rw [hclock, hdb, hpending, hhistory]; exact h.accounts
  inSync := by rw [hwriter]; exact h.inSync
  progress := hprogress
  busy := by rw [hwriter, hbusy]; exact h.busy
  contents := by rw [hhistory, hwriter]; exact h.contents

theorem Consistent.abort (h : w.Consistent db file) (ht : w.task.busy = true) (reason : String) :
    (w.abort reason).Consistent db file :=
  h.advance rfl rfl rfl rfl rfl ht.symm trivial

/-- The next entry of a snapshot is written before its deadline. -/
def NextAlive (w : World host Call) : Prop :=
  ∀ capture key entry left, w.task = .writing capture ((key, entry) :: left) →
    entryExpired w.clock entry = false

/-- When the snapshot is synced, no write of it has failed behind the back of the task. -/
def NoErrorWaits (w : World host Call) : Prop :=
  ∀ capture, w.task = .writing capture [] → w.temp.settle.error = none

/-- The keys that were captured differ from each other. -/
theorem key_ne_of_captured {capture : Capture} {earlier : List (Write Call)} (hdb : db.Valid)
    (hof : capture.Of db earlier) {done left : List (Bytes × Entry)} {key : Bytes} {entry : Entry}
    (hsplit : capture.entries = done ++ (key, entry) :: left) : ∀ e ∈ done, e.1 ≠ key := by
  have hnodup : (((replayed db earlier).aofSnapshotEntries capture.instant).map Prod.fst).Nodup :=
    nodup_aofSnapshotEntries (valid_replayed hdb earlier)
  rw [← hof, hsplit, List.map_append, List.nodup_append] at hnodup
  intro e he
  exact hnodup.2.2 e.1 (List.mem_map_of_mem he) key (List.mem_map_of_mem List.mem_cons_self)

/-- Every step of the rewrite task. -/
theorem Consistent.rewrite (h : w.Consistent db file) (ho : w.Orderly) (hdb : db.Valid)
    (halive : w.NextAlive) (result : TaskResult)
    (hwaits : result.isOk = true → w.NoErrorWaits) :
    (w.rewrite result).Consistent db file := by
  have hprogress := h.progress
  have hholder : w.task.holds = true → w.gate = some .rewrite := ho.gate_rewrite.mpr
  have dropped : w.task.holds = true → ∀ w' : World host Call, w'.gate = none →
      w'.pending = w.pending := fun ht w' hg => by
    rw [pending_of_free hg, pending_of_rewrite (hholder ht)]
  have hbusy : ∀ t : TaskStage, w.task = t → w.task.busy = t.busy := fun t ht => ht ▸ rfl
  unfold World.rewrite
  cases ht : w.task with
  | idle | starting | finishing | aborting => exact h
  | pausing =>
      rw [ht] at hprogress
      cases hg : w.gate with
      | some party => exact h
      | none =>
          refine h.advance rfl rfl ?_ rfl rfl ?_ hprogress
          · rw [pending_of_free hg, pending_of_rewrite rfl]
          · exact (hbusy _ ht).symm
  | holding =>
      rw [ht] at hprogress
      exact h.advance rfl rfl rfl rfl rfl (hbusy _ ht).symm hprogress
  | started answer =>
      rw [ht] at hprogress dropped hholder
      obtain ⟨rfl, hattempt⟩ := hprogress
      have haccounts := h.accounts
      rw [pending_of_rewrite (hholder rfl)] at haccounts
      refine h.advance rfl rfl rfl rfl rfl (hbusy _ ht).symm ?_
      exact ⟨le_rfl, _, hattempt,
        aofSnapshotEntries_congr h.valid (valid_replayed hdb _) haccounts⟩
  | captured capture =>
      rw [ht] at hprogress dropped
      exact h.advance rfl rfl (dropped rfl _ rfl) rfl rfl (hbusy _ ht).symm hprogress
  | opening capture =>
      have haborted := h.abort (hbusy _ ht)
      rw [ht] at hprogress
      cases result with
      | error e => exact haborted e.2
      | ok =>
          obtain ⟨hinstant, earlier, hattempt, hof⟩ := hprogress
          refine h.advance rfl rfl rfl rfl rfl (hbusy _ ht).symm ?_
          exact ⟨hinstant, earlier, [], hattempt, hof, rfl, fun _ => writtenAlive_nil _⟩
  | writing capture left =>
      have haborted := h.abort (hbusy _ ht)
      rw [ht] at hprogress
      obtain ⟨hinstant, earlier, done, hattempt, hof, hsplit, hwritten⟩ := hprogress
      cases left with
      | nil =>
          cases result with
          | error e => exact h.advance rfl rfl rfl rfl rfl (hbusy _ ht).symm trivial
          | ok =>
              refine h.advance rfl rfl rfl rfl rfl (hbusy _ ht).symm ?_
              rw [List.append_nil] at hsplit
              exact ⟨earlier, hattempt, hof, hsplit ▸ hwritten (hwaits rfl capture ht)⟩
      | cons e left =>
          obtain ⟨key, entry⟩ := e
          dsimp only
          cases hw : writeSnapshotEntry w.clock key entry with
          | error reason => exact haborted reason
          | ok bytes =>
              dsimp only
              cases hp : w.temp.push bytes 0 result with
              | mk answer temp =>
                  cases answer with
                  | error reason =>
                      exact h.advance rfl rfl rfl rfl rfl (hbusy _ ht).symm trivial
                  | ok =>
                      refine h.advance rfl rfl rfl rfl rfl (hbusy _ ht).symm ?_
                      refine ⟨hinstant, earlier, done ++ [(key, entry)], hattempt, hof, ?_,
                        fun hnone => ?_⟩
                      · rw [hsplit, List.append_assoc, List.singleton_append]
                      · obtain ⟨hbytes, hnone⟩ := QueuedFile.push_sound
                          (congrArg Prod.fst hp) (hp ▸ hnone)
                        rw [hp] at hbytes
                        change WrittenAlive _ _ temp.contents
                        rw [hbytes]
                        exact (hwritten hnone).snoc hinstant (key_ne_of_captured hdb hof hsplit)
                          (halive capture key entry left ht) hw
  | ending answer =>
      rw [ht] at hprogress
      exact ⟨h.valid, h.accounts, h.inSync, hprogress, rfl, h.contents⟩

/-! ## The writer -/

/-- What the protocol leaves open about the calls of the writer: anything may fail but
`set_len`, `metadata` and the sync of a file that was renamed. -/
def Recoverable (policy : FsyncPolicy) (calls : Writer.WriteCalls) (finish : Writer.FinishCalls) :
    Prop :=
  calls.setLen = .ok () ∧ finish.metadata = .ok () ∧
    (policy = .always → finish.syncActive = .ok ())

/-- No write fails in the background without an error behind it. -/
def noticed (policy : FsyncPolicy) (calls : Writer.WriteCalls) (finish : Writer.FinishCalls)
    (w : Writer) : Message Call → Bool
  | .write _ bytes => w.stats.writeFailed || !calls.failsUnnoticed policy bytes
  | .finishRewrite => !w.rewriteBuffer.any fun buffer => finish.losesFrames buffer
  | _ => true

theorem noticed_write {policy : FsyncPolicy} {calls : Writer.WriteCalls}
    {finish : Writer.FinishCalls} {w : Writer} {c : Call} {bytes : Bytes}
    (h : noticed policy calls finish w (.write c bytes) = true)
    (hf : w.stats.writeFailed = false) : calls.failsUnnoticed policy bytes = false := by
  rw [noticed, hf, Bool.false_or] at h
  exact Bool.not_eq_true' _ ▸ h

theorem noticed_finish {policy : FsyncPolicy} {calls : Writer.WriteCalls}
    {finish : Writer.FinishCalls} {w : Writer} {buffer : RewriteBuffer}
    (h : noticed policy calls finish w (.finishRewrite : Message Call) = true)
    (hb : w.rewriteBuffer = some buffer) : finish.losesFrames buffer = false := by
  rw [noticed, hb, Option.any_some] at h
  exact Bool.not_eq_true' _ ▸ h

theorem Attempt.record {earlier : List (Write Call)} (h : w.Attempt earlier) {r : Write Call}
    (hhistory : w'.history = w.history ++ [.recorded r]) {w₁ : Writer}
    (hb : w₁.rewriteBuffer = w.writer.rewriteBuffer)
    (hwriter : w'.writer = w₁.bufferFrame r.bytes) : w'.Attempt earlier := by
  obtain ⟨since, hrunning, hbuffers⟩ := h
  refine ⟨since ++ [r], hhistory ▸ hrunning.record r, ?_⟩
  rw [hwriter, List.map_append, List.map_singleton]
  exact (hbuffers.congr hb).bufferFrame r.bytes

theorem bufferFrame_none {w : Writer} (h : w.rewriteBuffer = none) (bytes : Bytes) :
    (w.bufferFrame bytes).rewriteBuffer = none := by
  unfold Writer.bufferFrame
  rw [h]
  exact h

/-- A write that the writer acknowledges is recorded in the history, the file and the buffer; one
that fails leaves them as they were. -/
theorem Consistent.write [DecidableEq Call] (h : w.Consistent db file) (ho : w.Orderly) {c : Call}
    {p : Pending host Call} (hc : w.clients c = some (.appending p)) {policy : FsyncPolicy}
    {calls : Writer.WriteCalls} (hset : calls.setLen = .ok ())
    (hn : w.writer.stats.writeFailed = false →
      calls.failsUnnoticed policy p.write.bytes = false) {finish : Writer.FinishCalls}
    (queue : List (Message Call)) :
    ({ w with queue := queue }.deliver policy calls finish (.write c p.write.bytes)).Consistent
      db file := by
  have hholder : w.gate = some (.client c) := (ho.gate_client c).mpr (by rw [hc]; rfl)
  have haccounts := h.accounts
  rw [pending_of_holder hholder hc] at haccounts
  have hstarted : ∀ answer, w.task ≠ .started answer := by
    intro answer ht
    have hg := ho.gate_rewrite.mpr (by rw [ht]; rfl)
    rw [hholder] at hg
    cases hg
  obtain ⟨hsync, hfile⟩ :
      _ ∧ (w.writer.write policy p.write.bytes calls).2.file.contents = _ :=
    Writer.write_spec h.inSync p.write.bytes hset hn
  have hflag := write_rewriteInProgress policy p.write.bytes calls w.writer
  obtain ⟨w₁, hb, hcases⟩ := Writer.write_cases policy p.write.bytes calls w.writer
  unfold World.deliver World.acknowledge
  dsimp only
  rw [hc]
  rcases hcases with ⟨e, hw⟩ | hw
  · rw [hw] at hsync hfile hflag ⊢
    have hnew : ({ w with queue := queue, writer := w₁ }.set c
        (.acknowledged p (.error e))).pending = some p := pending_set hholder
    have h' : ({ w with queue := queue, writer := w₁ }.set c
        (.acknowledged p (.error e))).Consistent db file := by
      refine ⟨h.valid, hnew ▸ haccounts, hsync, ?_, ?_, ?_⟩
      · refine h.progress.congr le_rfl rfl (fun earlier ha => ?_) (fun hn => hb.trans hn)
          fun answer ht => absurd ht (hstarted answer)
        obtain ⟨since, hrunning, hbuffers⟩ := ha
        exact ⟨since, hrunning, hbuffers.congr hb⟩
      · exact hflag.trans h.busy
      · exact hfile ▸ h.contents
    dsimp only [marks]
    rw [List.append_nil]
    exact h'
  · rw [hw] at hsync hfile hflag ⊢
    have hnew : ({ w with
        queue := queue
        writer := w₁.bufferFrame p.write.bytes
        history := w.history ++ [Mark.recorded p.write] }.set c
        (.acknowledged p (.ok ()))).pending = none := pending_set hholder
    refine ⟨h.valid, ?_, hsync, ?_, ?_, ?_⟩
    · dsimp only [marks]
      rw [hnew]
      change w.db.view w.clock =
        (replayed db (records (w.history ++ [.recorded p.write]))).view w.clock
      rw [records_append, records_recorded, records_nil, replayed_snoc]
      exact haccounts.1
    · refine h.progress.congr le_rfl rfl (fun earlier ha => ha.record rfl hb rfl)
        (fun hn => bufferFrame_none (hb.trans hn) p.write.bytes)
        fun answer ht => absurd ht (hstarted answer)
    · exact hflag.trans h.busy
    · have hrecord := h.contents.record p.write
      have hnewFile : (w₁.bufferFrame p.write.bytes).file.contents =
          w.writer.file.contents ++ p.write.bytes := hfile
      rw [← hnewFile] at hrecord
      exact hrecord

theorem Consistent.startRewrite (h : w.Consistent db file) (ht : w.task = .starting)
    (queue : List (Message Call)) : ({ w with
      queue := queue
      writer := w.writer.startRewrite.2
      task := .started w.writer.startRewrite.1
      history := w.history ++ marks w.writer.startRewrite.1 .began }).Consistent db file := by
  have hprogress := h.progress
  have hbusy := h.busy
  rw [ht] at hprogress hbusy
  have hnone : w.writer.rewriteBuffer = none := hprogress
  have hstart : w.writer.startRewrite = (.ok (), { w.writer with rewriteBuffer := some {} }) := by
    rw [Writer.startRewrite, hnone]
    rfl
  have hrecords : records (w.history ++ [.began]) = records w.history := by
    rw [records_append, records_began, records_nil, List.append_nil]
  rw [hstart]
  dsimp only [marks]
  refine ⟨h.valid, ?_, h.inSync, ⟨rfl, ?_⟩, ?_, h.contents.began⟩
  · rw [hrecords]
    exact h.accounts
  · rw [hrecords]
    refine ⟨[], running_began w.history, fun buffer hb => ?_⟩
    rw [← Option.some.inj hb]
    rfl
  · exact hbusy

theorem Consistent.abortRewrite (h : w.Consistent db file) {reason : String}
    (ht : w.task = .aborting reason) (queue : List (Message Call)) : ({ w with
      queue := queue
      writer := w.writer.abortRewrite reason
      task := .ending (.error reason) }).Consistent db file := by
  have hbusy := h.busy
  rw [ht] at hbusy
  exact ⟨h.valid, h.accounts, h.inSync, rfl, hbusy, h.contents⟩

/-- The end of a rewrite: its image takes the place of the file, or the file stays. -/
theorem Consistent.finishRewrite (h : w.Consistent db file) {capture : Capture}
    (ht : w.task = .finishing capture) {policy : FsyncPolicy} (calls : Writer.FinishCalls)
    (hopen : ∀ temp, calls.openTemp = .ok temp → temp = w.temp.bytes)
    (hmetadata : calls.metadata = .ok ())
    (hsync : policy = .always → calls.syncActive = .ok ())
    (hl : ∀ buffer, w.writer.rewriteBuffer = some buffer → calls.losesFrames buffer = false)
    (queue : List (Message Call)) : ({ w with
      queue := queue
      writer := (w.writer.finishRewrite policy calls).2
      task := .ending (w.writer.finishRewrite policy calls).1
      history := w.history ++ w.switched calls }).Consistent db file := by
  have hprogress := h.progress
  have hbusy := h.busy
  rw [ht] at hprogress hbusy
  obtain ⟨earlier, ⟨since, hrunning, hbuffers⟩, hreflects⟩ := hprogress
  have hrecords : records (w.history ++ w.switched calls) = records w.history := by
    rw [records_append, records_switched, List.append_nil]
  refine ⟨h.valid, ?_, ?_, finishRewrite_rewriteBuffer policy calls w.writer, ?_, ?_⟩
  · change Accounts w.clock (replayed db (records (w.history ++ w.switched calls))) w.db w.pending
    rw [hrecords]
    exact h.accounts
  · exact Writer.finishRewrite_inSync h.inSync hmetadata fun _ _ _ _ hp => hsync hp
  · exact (finishRewrite_rewriteInProgress policy calls w.writer).trans hbusy
  · have hcontents := h.contents
    change Contents _ _ _ file (w.history ++ w.switched calls)
      (w.writer.finishRewrite policy calls).2.file.contents
    unfold switched Writer.finishRewrite
    rw [ht]
    cases hb : w.writer.rewriteBuffer with
    | none =>
        dsimp only
        rw [List.append_nil]
        exact hcontents
    | some buffer =>
        dsimp only
        cases hr : Writer.replacement calls buffer with
        | error e =>
            dsimp only
            rw [List.append_nil]
            exact hcontents
        | ok new =>
            obtain ⟨temp, hrenames, rfl⟩ := Writer.replacement_eq_ok.mp hr
            obtain rfl := hopen temp hrenames.openTemp
            dsimp only
            rw [Writer.switchTo_file, hrenames.whole (hrenames.not_lost (hl buffer hb)),
              hbuffers buffer hb, ← List.flatMap_def]
            exact hrunning.switch hreflects

/-- Every message of the writer. -/
theorem Consistent.deliver [DecidableEq Call] (h : w.Consistent db file) (ho : w.Orderly)
    {m : Message Call} {queue : List (Message Call)} (hq : w.queue = m :: queue)
    {policy : FsyncPolicy} {calls : Writer.WriteCalls} {finish : Writer.FinishCalls}
    (hcalls : Recoverable policy calls finish)
    (hn : noticed policy calls finish w.writer m = true) :
    ({ w with queue := queue }.deliver policy calls finish m).Consistent db file := by
  obtain ⟨hset, hmetadata, hsync⟩ := hcalls
  have ha := ho.awaited m (hq ▸ List.mem_cons_self)
  cases m with
  | write c bytes =>
      obtain ⟨p, hc, rfl⟩ := ha
      exact h.write ho hc hset (noticed_write hn) queue
  | startRewrite => exact h.startRewrite ha queue
  | finishRewrite =>
      obtain ⟨capture, ht⟩ := ha
      have hopen : ∀ temp,
          finish.openTemp.map (fun _ => w.temp.bytes) = .ok temp → temp = w.temp.bytes := by
        intro temp htemp
        cases hf : finish.openTemp with
        | error e =>
            rw [hf] at htemp
            cases htemp
        | ok bytes =>
            rw [hf] at htemp
            exact (Except.ok.inj htemp).symm
      refine h.finishRewrite ht
        { finish with openTemp := finish.openTemp.map fun _ => w.temp.bytes } hopen hmetadata hsync
        (fun buffer hb => ?_) queue
      rw [← noticed_finish hn hb, Writer.FinishCalls.losesFrames, Writer.FinishCalls.losesFrames]
      cases finish.openTemp <;> rfl
  | abortRewrite reason => exact h.abortRewrite ha queue

theorem Consistent.settle (h : w.Consistent db file) :
    ({ w with writer := w.writer.settle }).Consistent db file where
  valid := h.valid
  accounts := h.accounts
  inSync := Writer.settle_inSync.mpr h.inSync
  progress := h.progress.congr le_rfl rfl (fun _ ha => ha) id fun _ _ => rfl
  busy := h.busy
  contents := by
    change Contents _ _ _ _ _ w.writer.settle.file.contents
    rw [Writer.settle_contents]
    exact h.contents

theorem Consistent.tick (h : w.Consistent db file) (policy : FsyncPolicy)
    (syncData : CallResult) :
    ({ w with writer := if policy = FsyncPolicy.everySec then w.writer.tick syncData
        else w.writer }).Consistent db file := by
  split_ifs
  · have hs := h.settle
    cases syncData with
    | ok => exact hs
    | error e =>
        exact ⟨hs.valid, hs.accounts, hs.inSync,
          hs.progress.congr le_rfl rfl (fun _ ha => ha) id fun _ _ => rfl, hs.busy, hs.contents⟩
  · exact h

end World
end MiniRedis.RewriteProtocol
