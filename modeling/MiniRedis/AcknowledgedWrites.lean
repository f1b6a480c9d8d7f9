import MiniRedis.RewriteProgress

/-!
# What the acknowledged writes are

Every write that waits, runs or was acknowledged is one that was asked for, and its frame is
the logged form of its command. On the database of the acknowledged writes before it, its
command answers without an error. Nothing is captured in the future.
-/
namespace MiniRedis.RewriteProtocol
open Aof Compaction

variable {host : Host} {Call : Type}

/-- The frame is that of a command that was asked for. -/
def Write.Worded (asked : Command → Prop) (r : Write Call) : Prop :=
  asked r.cmd ∧ ∃ readAt, r.cmd.aofFrame readAt = some r.frame

/-- On this database the write is answered without an error. -/
structure Write.Genuine (asked : Command → Prop) (clock : ExpireAt) (db : Db host)
    (r : Write Call) : Prop where
  worded : r.Worded asked
  succeeded : (r.cmd.apply r.now db).1.isError = false
  before : r.now ≤ clock

/-- Each of the writes, on the database of those before it. -/
def AllGenuine (asked : Command → Prop) (clock : ExpireAt) : Db host → List (Write Call) → Prop
  | _, [] => True
  | db, r :: writes => r.Genuine asked clock db ∧ AllGenuine asked clock (r.apply db) writes

section
variable {asked : Command → Prop} {clock later : ExpireAt} {db : Db host} {r : Write Call}

theorem Write.Genuine.mono (h : r.Genuine asked clock db) (hl : clock ≤ later) :
    r.Genuine asked later db := ⟨h.worded, h.succeeded, h.before.trans hl⟩

theorem AllGenuine.mono {writes : List (Write Call)} (h : AllGenuine asked clock db writes)
    (hl : clock ≤ later) : AllGenuine asked later db writes := by
  induction writes generalizing db with
  | nil => trivial
  | cons r writes ih => exact ⟨h.1.mono hl, ih h.2⟩

theorem allGenuine_append {as bs : List (Write Call)} :
    AllGenuine asked clock db (as ++ bs) ↔
      AllGenuine asked clock db as ∧ AllGenuine asked clock (replayed db as) bs := by
  induction as generalizing db with
  | nil => exact ⟨fun h => ⟨trivial, h⟩, And.right⟩
  | cons r as ih =>
      change _ ∧ AllGenuine asked clock (r.apply db) (as ++ bs) ↔ _
      rw [ih]
      exact and_assoc.symm

theorem AllGenuine.snoc {writes : List (Write Call)} (h : AllGenuine asked clock db writes)
    (hr : r.Genuine asked clock (replayed db writes)) :
    AllGenuine asked clock db (writes ++ [r]) := allGenuine_append.mpr ⟨h, hr, trivial⟩

end

/-! ## Stages -/

/-- The frame is made of the command, and the command was asked for. -/
def Stage.Worded (asked : Command → Prop) : Stage host Call → Prop
  | waiting cmd aofFrame | holding cmd aofFrame =>
      asked cmd ∧ ∃ readAt, aofFrame = cmd.aofFrame readAt
  | applied p | appending p | acknowledged p _ => p.write.Worded asked
  | _ => True

/-- What the rewrite task has captured. -/
def TaskStage.capture? : TaskStage → Option Capture
  | captured capture | opening capture | writing capture _ | finishing capture => some capture
  | _ => none

def Event.Asks (asked : Command → Prop) : Event Call → Prop
  | .request _ cmd => asked cmd
  | _ => True

structure World.Vouched (asked : Command → Prop) (db : Db host) (w : World host Call) : Prop where
  stages : ∀ c stage, w.clients c = some stage → stage.Worded asked
  acknowledged : AllGenuine asked w.clock db (records w.history)
  pending : ∀ p, w.pending = some p →
    p.write.Genuine asked w.clock (replayed db (records w.history))
  capture : ∀ capture, w.task.capture? = some capture → capture.instant ≤ w.clock
  images : ∀ image, .switched image ∈ w.history → image.capture.instant ≤ w.clock

namespace World
variable {asked : Command → Prop} {w w' : World host Call} {db : Db host}

theorem vouched_start (now : ExpireAt) (db : Db host) (file : Bytes) :
    (start now db file : World host Call).Vouched asked db where
  stages c stage h := by cases h
  acknowledged := trivial
  pending p h := by cases h
  capture capture h := by cases h
  images image h := by cases h

/-- The same database and acknowledged writes, with the same write pending. -/
structure SameAccounts (w w' : World host Call) : Prop where
  clock : w'.clock = w.clock
  db : w'.db = w.db
  pending : w'.pending = w.pending
  records : records w'.history = records w.history

/-- The acknowledged writes stay, and so does the pending one, or it is given up. -/
theorem Vouched.keep (h : w.Vouched asked db) (hclock : w.clock ≤ w'.clock)
    (hrecords : records w'.history = records w.history)
    (hpending : w'.pending = w.pending ∨ w'.pending = none)
    (hstages : ∀ c stage, w'.clients c = some stage → stage.Worded asked)
    (hcapture : ∀ capture, w'.task.capture? = some capture → capture.instant ≤ w'.clock)
    (himages : ∀ image, .switched image ∈ w'.history → image.capture.instant ≤ w'.clock) :
    w'.Vouched asked db where
  stages := hstages
  acknowledged := hrecords ▸ h.acknowledged.mono hclock
  pending p hp := by
    rw [hrecords]
    rcases hpending with hsame | hnone
    · exact (h.pending p (hsame ▸ hp)).mono hclock
    · rw [hnone] at hp
      cases hp
  capture := hcapture
  images := himages

/-- A task of no client moves. -/
theorem Vouched.advance (h : w.Vouched asked db) (hs : SameAccounts w w')
    (hclients : w'.clients = w.clients)
    (hcapture : ∀ capture, w'.task.capture? = some capture → capture.instant ≤ w.clock)
    (himages : ∀ image, .switched image ∈ w'.history → image.capture.instant ≤ w.clock) :
    w'.Vouched asked db :=
  h.keep hs.clock.ge hs.records (.inl hs.pending) (hclients ▸ h.stages) (hs.clock.symm ▸ hcapture)
    (hs.clock.symm ▸ himages)

/-! ## The rewrite task -/

/-- The rewrite task takes and drops the gate when no write is pending. -/
theorem rewrite_sameAccounts (ho : w.Orderly) (result : TaskResult) :
    SameAccounts w (w.rewrite result) := by
  have hholder : w.task.holds = true → w.gate = some .rewrite := ho.gate_rewrite.mpr
  have dropped : w.task.holds = true → ∀ w' : World host Call, w'.gate = none →
      w'.pending = w.pending := fun ht w' hg => by
    rw [pending_of_free hg, pending_of_rewrite (hholder ht)]
  unfold World.rewrite
  cases ht : w.task with
  | idle | starting | finishing | aborting | holding | ending => exact ⟨rfl, rfl, rfl, rfl⟩
  | pausing =>
      cases hg : w.gate with
      | some party => exact ⟨rfl, rfl, rfl, rfl⟩
      | none => exact ⟨rfl, rfl, by rw [pending_of_free hg, pending_of_rewrite rfl], rfl⟩
  | started answer =>
      rw [ht] at dropped
      cases answer with
      | error e => exact ⟨rfl, rfl, dropped rfl _ rfl, rfl⟩
      | ok => exact ⟨rfl, rfl, rfl, rfl⟩
  | captured capture =>
      rw [ht] at dropped
      exact ⟨rfl, rfl, dropped rfl _ rfl, rfl⟩
  | opening capture => cases result <;> exact ⟨rfl, rfl, rfl, rfl⟩
  | writing capture left =>
      cases left with
      | nil => cases result <;> exact ⟨rfl, rfl, rfl, rfl⟩
      | cons e left =>
          dsimp only
          cases writeSnapshotEntry w.clock e.1 e.2 with
          | error reason => exact ⟨rfl, rfl, rfl, rfl⟩
          | ok bytes =>
              dsimp only
              rcases w.temp.push bytes 0 result with ⟨reason | _, temp⟩ <;>
                exact ⟨rfl, rfl, rfl, rfl⟩

/-- It goes on with its capture, or captures the database of now. -/
theorem rewrite_capture (h : w.Vouched asked db) (result : TaskResult) (capture : Capture)
    (hc : (w.rewrite result).task.capture? = some capture) : capture.instant ≤ w.clock := by
  have hold := h.capture capture
  unfold World.rewrite at hc
  cases ht : w.task with
  | idle | starting | finishing | aborting =>
      rw [ht] at hc hold
      dsimp only at hc
      rw [ht] at hc
      exact hold hc
  | pausing =>
      rw [ht] at hc
      cases hg : w.gate with
      | some party =>
          rw [hg] at hc
          dsimp only at hc
          rw [ht] at hc
          cases hc
      | none =>
          rw [hg] at hc
          cases hc
  | holding | ending =>
      rw [ht] at hc
      cases hc
  | started answer =>
      rw [ht] at hc
      cases answer with
      | error e => cases hc
      | ok =>
          obtain rfl := Option.some.inj hc
          exact le_rfl
  | captured capture' =>
      rw [ht] at hc hold
      exact hold hc
  | opening capture' =>
      rw [ht] at hc hold
      cases result with
      | error e => cases hc
      | ok => exact hold hc
  | writing capture' left =>
      rw [ht] at hc hold
      cases left with
      | nil =>
          cases result with
          | error e => cases hc
          | ok => exact hold hc
      | cons e left =>
          dsimp only at hc
          cases hw : writeSnapshotEntry w.clock e.1 e.2 with
          | error reason =>
              rw [hw] at hc
              cases hc
          | ok bytes =>
              rw [hw] at hc
              dsimp only at hc
              cases hp : w.temp.push bytes 0 result with
              | mk answer temp =>
                  rw [hp] at hc
                  cases answer with
                  | error reason => cases hc
                  | ok => exact hold hc

theorem rewrite_history (w : World host Call) (result : TaskResult) :
    (w.rewrite result).history = w.history := by
  unfold World.rewrite
  cases w.task with
  | idle | starting | finishing | aborting | holding | captured | ending => rfl
  | pausing => cases w.gate <;> rfl
  | started answer => cases answer <;> rfl
  | opening capture => cases result <;> rfl
  | writing capture left =>
      cases left with
      | nil => cases result <;> rfl
      | cons e left =>
          dsimp only
          cases writeSnapshotEntry w.clock e.1 e.2 with
          | error reason => rfl
          | ok bytes =>
              dsimp only
              rcases w.temp.push bytes 0 result with ⟨reason | _, temp⟩ <;> rfl

theorem Vouched.rewrite (h : w.Vouched asked db) (ho : w.Orderly) (result : TaskResult) :
    (w.rewrite result).Vouched asked db :=
  h.advance (rewrite_sameAccounts ho result) (rewrite_clients w result) (rewrite_capture h result)
    ((rewrite_history w result).symm ▸ h.images)

/-! ## Clients -/

variable [DecidableEq Call]

theorem Vouched.stages_set (h : w.Vouched asked db) {c : Call} {stage : Stage host Call}
    (hstage : stage.Worded asked) (d : Call) (s : Stage host Call)
    (hd : (w.set c stage).clients d = some s) : s.Worded asked := by
  by_cases hdc : d = c
  · subst hdc
    rw [set_self] at hd
    exact Option.some.inj hd ▸ hstage
  · rw [set_of_ne w stage hdc] at hd
    exact h.stages d s hd

/-- A client goes to a stage in which its write is the same or none. -/
theorem Vouched.move (h : w.Vouched asked db) {c : Call} (stage : Stage host Call)
    (hstage : stage.Worded asked) (hclock : w'.clock = w.clock)
    (hclients : w'.clients = (w.set c stage).clients) (hhistory : w'.history = w.history)
    (htask : w'.task = w.task) (hpending : w'.pending = w.pending ∨ w'.pending = none) :
    w'.Vouched asked db :=
  h.keep hclock.ge (congrArg records hhistory) hpending
    (fun d s hd => h.stages_set hstage d s (hclients ▸ hd))
    (fun capture hc => (h.capture capture (htask ▸ hc)).trans hclock.ge)
    (fun image hi => (h.images image (hhistory ▸ hi)).trans hclock.ge)

/-- The command runs: on the database of the acknowledged writes it answers the same. -/
theorem Vouched.execute (h : w.Vouched asked db) {c : Call} {cmd : Command}
    {aofFrame : Option Frame}
    (hstage : (Stage.holding cmd aofFrame : Stage host Call).Worded asked)
    (hwrite : cmd.isWrite = true) (hg : w.gate = some (.client c))
    (hquiet : w.db.view w.clock = (replayed db (records w.history)).view w.clock) :
    (w.execute c cmd aofFrame).Vouched asked db := by
  obtain ⟨hasked, readAt, rfl⟩ := hstage
  obtain ⟨t, ht⟩ := Option.isSome_iff_exists.mp
    ((Command.isWrite_iff_transaction w.clock cmd).symm.trans hwrite)
  have hreply : (cmd.apply w.clock w.db).1 =
      (cmd.apply w.clock (replayed db (records w.history))).1 := by
    have hr := cmd.apply_refines w.clock w.db
    have hr' := cmd.apply_refines w.clock (replayed db (records w.history))
    rw [ht] at hr hr'
    rw [hr.reply, hr'.reply, hquiet]
  have moved : ∀ stage : Stage host Call, stage.Worded asked →
      (∀ p, stage.pending = some p →
        p.write.Genuine asked w.clock (replayed db (records w.history))) →
      ({ w with db := (cmd.apply w.clock w.db).2 }.set c stage).Vouched asked db := by
    intro stage hworded hgenuine
    have hpending : ({ w with db := (cmd.apply w.clock w.db).2 }.set c stage).pending =
        stage.pending := pending_set hg
    exact ⟨fun d s hd => h.stages_set hworded d s hd, h.acknowledged,
      fun p hp => hgenuine p (hpending ▸ hp), h.capture, h.images⟩
  unfold World.execute
  dsimp only
  by_cases he : (cmd.apply w.clock w.db).1.isError = true
  · rw [dif_pos he]
    exact moved _ trivial fun p hp => by cases hp
  · rw [dif_neg he]
    cases hframe : cmd.aofFrame readAt with
    | none => exact moved _ trivial fun p hp => by cases hp
    | some frame =>
        have hworded : (⟨c, w.clock, cmd, frame⟩ : Write Call).Worded asked :=
          ⟨hasked, readAt, hframe⟩
        refine moved _ hworded fun p hp => ?_
        obtain rfl := Option.some.inj hp
        refine ⟨hworded, ?_, le_rfl⟩
        change (cmd.apply w.clock (replayed db (records w.history))).1.isError = false
        rw [← hreply]
        exact Bool.not_eq_true _ ▸ he

/-- Every step of a connection task. -/
theorem Vouched.client (h : w.Vouched asked db) (ho : w.Orderly)
    (haccounts : Accounts w.clock (replayed db (records w.history)) w.db w.pending) {c : Call}
    {stage : Stage host Call} (hc : w.clients c = some stage) :
    (w.client c stage).Vouched asked db := by
  have hstage := h.stages c stage hc
  have hholder : stage.holds = true → w.gate = some (.client c) := fun hs =>
    (ho.gate_client c).mpr (by rw [hc]; exact hs)
  have hpending : stage.holds = true → w.pending = stage.pending := fun hs =>
    pending_of_holder (hholder hs) hc
  cases stage with
  | waiting cmd aofFrame =>
      unfold World.client
      cases hg : w.gate with
      | some party => exact h
      | none =>
          have hnew : ({ w with gate := some (.client c) }.set c (.holding cmd aofFrame)).pending =
              none := pending_set rfl
          exact h.move (.holding cmd aofFrame) hstage rfl rfl rfl rfl (.inr hnew)
  | holding cmd aofFrame =>
      obtain ⟨-, hframe⟩ := ho.sound c _ hc
      have hwrite : cmd.isWrite = true := by
        obtain ⟨-, readAt, rfl⟩ := hstage
        rwa [Command.aofFrame_eq, Option.isSome_map, Command.logged_isSome] at hframe
      rw [hpending rfl] at haccounts
      exact h.execute hstage hwrite (hholder rfl) haccounts
  | applied p =>
      unfold World.client
      split_ifs
      · have hnew : (w.set c (.acknowledged p (.error "AOF writer is in failed state"))).pending =
            some p := pending_set (hholder rfl)
        exact h.move (.acknowledged p (.error "AOF writer is in failed state")) hstage rfl
          rfl rfl rfl (.inl (hnew.trans (hpending rfl).symm))
      · have hnew : ((w.send (.write c p.write.bytes)).set c (.appending p)).pending = some p :=
          pending_set (hholder rfl)
        exact h.move (.appending p) hstage rfl rfl rfl rfl
          (.inl (hnew.trans (hpending rfl).symm))
  | appending p => exact h
  | acknowledged p result =>
      cases result with
      | ok =>
          have hnew : (w.set c (.releasing (.ok p.reply))).pending = none :=
            pending_set (hholder rfl)
          exact h.move (.releasing _) trivial rfl rfl rfl rfl (.inr hnew)
      | error e =>
          have hnew : (w.client c (.acknowledged p (.error e))).pending = none :=
            pending_set (hholder rfl)
          exact h.move (.releasing _) trivial rfl rfl rfl rfl (.inr hnew)
  | releasing result =>
      have hnew : (w.client c (.releasing result)).pending = none := pending_of_free rfl
      exact h.move (.answered result) trivial rfl rfl rfl rfl (.inr hnew)
  | answered result => exact h

theorem Vouched.request (h : w.Vouched asked db) (ho : w.Orderly) (c : Call) {cmd : Command}
    (ha : asked cmd) : (w.request c cmd).Vouched asked db := by
  unfold World.request
  cases hc : w.clients c with
  | some stage => exact h
  | none =>
      dsimp only
      split_ifs
      · have hg : w.gate ≠ some (.client c) := by
          rw [ne_eq, ho.gate_client c, hc]
          exact Bool.false_ne_true
        exact h.move (.waiting cmd (cmd.aofFrame w.clock)) ⟨ha, w.clock, rfl⟩ rfl rfl rfl
          rfl (.inl (pending_set_of_ne hg _))
      · exact h

/-! ## The writer -/

/-- The acknowledgement puts the pending write behind the others. -/
theorem Vouched.acknowledge (h : w.Vouched asked db) {c : Call} {p : Pending host Call}
    (hg : w.gate = some (.client c)) (hc : w.clients c = some (.appending p))
    (result : CallResult) : (w.acknowledge c result).Vouched asked db := by
  have hstage : (Stage.appending p : Stage host Call).Worded asked := h.stages c _ hc
  replace hstage : (Stage.acknowledged p result : Stage host Call).Worded asked := hstage
  have hpending : w.pending = some p := pending_of_holder hg hc
  have hset : ∀ history stage, ({ w with history := history }.set c stage).pending =
      stage.pending := fun history stage => pending_set hg
  unfold World.acknowledge
  rw [hc]
  cases result with
  | error e =>
      dsimp only [marks]
      rw [List.append_nil]
      exact h.move _ hstage rfl rfl rfl rfl (.inl ((hset w.history _).trans hpending.symm))
  | ok =>
      refine ⟨fun d s hd => h.stages_set hstage d s hd, ?_, fun p' hp => ?_, h.capture, ?_⟩
      · change AllGenuine asked w.clock db (records (w.history ++ [.recorded p.write]))
        rw [records_append]
        exact h.acknowledged.snoc (h.pending p hpending)
      · rw [hset] at hp
        cases hp
      · intro image hm
        rcases List.mem_append.mp hm with hm | hm
        · exact h.images image hm
        · cases List.mem_singleton.mp hm

omit [DecidableEq Call] in
theorem not_switched_mem_began {result : CallResult} {image : Image} :
    .switched image ∉ (marks result .began : List (Mark (Write Call) Image)) := by
  cases result with
  | ok => exact fun hm => by cases List.mem_singleton.mp hm
  | error e => exact List.not_mem_nil

omit [DecidableEq Call] in
/-- What takes the place of the log was captured by the task. -/
theorem capture_of_switched {calls : Writer.FinishCalls} {image : Image}
    (h : .switched image ∈ w.switched calls) : w.task.capture? = some image.capture := by
  unfold World.switched at h
  cases ht : w.task with
  | finishing capture =>
      rw [ht] at h
      cases hb : w.writer.rewriteBuffer with
      | none =>
          rw [hb] at h
          cases h
      | some buffer =>
          rw [hb] at h
          dsimp only at h
          cases hr : Writer.replacement calls buffer with
          | error e =>
              rw [hr] at h
              cases h
          | ok file =>
              rw [hr] at h
              obtain rfl := Mark.switched.inj (List.mem_singleton.mp h)
              rfl
  | _ =>
      rw [ht] at h
      cases h

theorem Vouched.deliver (h : w.Vouched asked db) (ho : w.Orderly) {m : Message Call}
    {queue : List (Message Call)} (hq : w.queue = m :: queue) (policy : FsyncPolicy)
    (calls : Writer.WriteCalls) (finish : Writer.FinishCalls) :
    ({ w with queue := queue }.deliver policy calls finish m).Vouched asked db := by
  have ha := ho.awaited m (hq ▸ List.mem_cons_self)
  cases m with
  | write c bytes =>
      obtain ⟨p, hc, -⟩ := ha
      have hholder : w.gate = some (.client c) := (ho.gate_client c).mpr (by rw [hc]; rfl)
      have hdelivered : ({ w with
          queue := queue
          writer := (w.writer.write policy bytes calls).2 } : World host Call).Vouched asked db :=
        h.advance ⟨rfl, rfl, rfl, rfl⟩ rfl h.capture h.images
      exact hdelivered.acknowledge hholder hc _
  | startRewrite =>
      refine h.advance ⟨rfl, rfl, rfl, ?_⟩ rfl (fun capture hc => by cases hc) fun image hm => ?_
      · change records (w.history ++ _) = _
        rw [records_append, records_marks_began, List.append_nil]
      · exact h.images image ((List.mem_append.mp hm).resolve_right not_switched_mem_began)
  | finishRewrite =>
      refine h.advance ⟨rfl, rfl, rfl, ?_⟩ rfl (fun capture hc => by cases hc) fun image hm => ?_
      · change records (w.history ++ _) = _
        rw [records_append, records_switched, List.append_nil]
      · rcases List.mem_append.mp hm with hm | hm
        · exact h.images image hm
        · exact h.capture _ (capture_of_switched hm)
  | abortRewrite reason =>
      exact h.advance ⟨rfl, rfl, rfl, rfl⟩ rfl (fun capture hc => by cases hc) h.images

theorem Vouched.step (h : w.Vouched asked db) (ho : w.Orderly)
    (haccounts : Accounts w.clock (replayed db (records w.history)) w.db w.pending)
    (policy : FsyncPolicy) {e : Event Call} (he : e.Asks asked) :
    (World.step policy e w).Vouched asked db := by
  unfold World.step
  cases e with
  | pass ms =>
      have hclock : w.clock ≤ w.clock + ms := Nat.le_add_right _ _
      exact h.keep hclock rfl (.inl rfl) h.stages
        (fun capture hc => (h.capture capture hc).trans hclock)
        (fun image hi => (h.images image hi).trans hclock)
  | read cmd =>
      dsimp only
      split_ifs
      · exact h
      · exact ⟨h.stages, h.acknowledged, h.pending, h.capture, h.images⟩
  | sweep => exact ⟨h.stages, h.acknowledged, h.pending, h.capture, h.images⟩
  | request c cmd => exact h.request ho c he
  | client c =>
      dsimp only
      cases hc : w.clients c with
      | none => exact h
      | some stage => exact h.client ho haccounts hc
  | schedule =>
      dsimp only
      unfold World.schedule
      split_ifs
      · exact h
      · exact h.advance ⟨rfl, rfl, rfl, rfl⟩ rfl (fun capture hc => by cases hc) h.images
  | rewrite result => exact h.rewrite ho result
  | writer calls finish =>
      dsimp only
      cases hq : w.queue with
      | nil => exact h
      | cons m queue => exact h.deliver ho hq policy calls finish
  | tick | land => exact h.advance ⟨rfl, rfl, rfl, rfl⟩ rfl h.capture h.images

end World
end MiniRedis.RewriteProtocol
