import MiniRedis.ShardSnapshot

/-!
# The sweeper is invisible

A run in which the sweeper takes its steps anywhere between the critical sections of the
connection tasks, and the same run without the sweeper. The two servers store different
entries, and the snapshots for a rollback differ in the same way: only in what has expired.
No task sees the difference, so both runs have the same history.
-/
namespace MiniRedis

variable {host : Host} {Call : Type}

namespace Clients
open AtomicPrograms Db

/-- The request counts the live keys. -/
def Request.reports : Request → Bool
  | command cmd => cmd.reports
  | info _ _ section_ => infoIncludes section_ "memory"
  | pubsub _ => false

theorem Request.respects_sections {r : Request} (h : r.reports = false) :
    (r.sections : Sections host).Respects Alike := by
  cases r with
  | command cmd => exact Command.respects_sections h
  | info aof state section_ => exact Cmd.respects_infoSections aof state h
  | pubsub act => exact Cmd.respects_pubsub (fun _ => rfl) fun db db' hp => ⟨congrArg act hp, rfl⟩

/-! ## Tasks -/

/-- Snapshots for a rollback that put the same live entries back. -/
def SameRollback (now : ExpireAt) :
    List (Bytes × Option Entry) → List (Bytes × Option Entry) → Prop :=
  List.Forall₂ fun s s' => s.1 = s'.1 ∧ Slot.alive now s.2 = Slot.alive now s'.2

theorem SameRollback.later {now later : ExpireAt} {l l' : List (Bytes × Option Entry)}
    (h : SameRollback now l l') (hn : now ≤ later) : SameRollback later l l' :=
  List.Forall₂.imp (fun s s' hs => ⟨hs.1, by
    rw [← Slot.alive_alive hn s.2, hs.2, Slot.alive_alive hn s'.2]⟩) h

/-- The critical sections that are left see live entries only, and no rollback is under way. -/
def Stage.Respects : Stage host → Prop
  | .applying rest | .reading rest => rest.Respects Alike
  | .restoring .. => False
  | _ => True

/-- The stages of a task in the two runs. -/
inductive Stage.Alike (now : ExpireAt) : Stage host → Stage host → Prop where
  | same {stage : Stage host} (h : stage.Respects) : Alike now stage stage
  | restoring (error : Frame) {left left' : List (Bytes × Option Entry)}
      (h : SameRollback now left left') : Alike now (.restoring error left) (.restoring error left')

theorem Stage.Alike.later {now later : ExpireAt} {stage stage' : Stage host}
    (h : stage.Alike now stage') (hn : now ≤ later) : stage.Alike later stage' := by
  cases h with
  | same hs => exact .same hs
  | restoring error hs => exact .restoring error (hs.later hn)

/-- A task in the two runs. -/
structure Task.Alike (now : ExpireAt) (t t' : Task host) : Prop where
  reports : t.request.reports = false
  request : t'.request = t.request
  aofFrame : t'.aofFrame = t.aofFrame
  readings : t'.readings = t.readings
  rollback : SameRollback now t.rollback t'.rollback
  stage : t.stage.Alike now t'.stage

namespace Task.Alike
variable {now : ExpireAt} {t t' : Task host}

theorem later {later : ExpireAt} (h : Alike now t t') (hn : now ≤ later) : Alike later t t' where
  reports := h.reports
  request := h.request
  aofFrame := h.aofFrame
  readings := h.readings
  rollback := h.rollback.later hn
  stage := h.stage.later hn

theorem at_alike (h : Alike now t t') {stage stage' : Stage host} (hs : stage.Alike now stage') :
    Alike now { t with stage := stage } { t' with stage := stage' } :=
  ⟨h.reports, h.request, h.aofFrame, h.readings, h.rollback, hs⟩

theorem at_stage (h : Alike now t t') (stage : Stage host) (hs : stage.Respects) :
    Alike now { t with stage := stage } { t' with stage := stage } := h.at_alike (.same hs)

theorem ran (h : Alike now t t') (stage : Stage host) (hs : stage.Respects) :
    Alike now (t.ran now stage) (t'.ran now stage) :=
  ⟨h.reports, h.request, h.aofFrame, congrArg (· ++ [now]) h.readings, h.rollback, .same hs⟩

theorem settle (h : Alike now t t') (aof : Bool) :
    Alike now (t.settle aof) (t'.settle aof) := by
  have hstage := h.stage
  unfold Task.settle
  generalize hs : t.stage = stage at hstage
  generalize hs' : t'.stage = stage' at hstage
  cases hstage with
  | restoring error hr => exact h
  | same hr =>
      cases stage with
      | applying rest =>
          cases rest with
          | atomic act next => exact h
          | done reply =>
              dsimp only
              rw [congrArg Option.isSome h.aofFrame]
              split_ifs
              · exact h.at_stage (.appending reply) trivial
              · exact h.at_stage (.releasing (.ok reply)) trivial
      | reading rest =>
          cases rest with
          | atomic act next => exact h
          | done reply => exact h.at_stage (.answering (.ok reply)) trivial
      | waiting | saving left | appending reply | restoring error left | releasing result
      | answering result | answered result => exact h

theorem apply (h : Alike now t t') (aof : Bool) : Alike now (t.apply aof) (t'.apply aof) := by
  have hsections := (h.at_stage (.applying t.request.sections)
    (Request.respects_sections h.reports)).settle aof
  unfold Task.apply
  rw [h.request]
  rw [h.request] at hsections
  exact hsections

theorem new {r : Request} (h : r.reports = false) (now : ExpireAt) :
    Alike now (Task.new now r : Task host) (Task.new now r) := by
  refine ⟨h, rfl, rfl, rfl, List.Forall₂.nil, .same ?_⟩
  cases hw : r.isWrite with
  | true =>
      rw [Task.new, hw]
      trivial
  | false =>
      rw [Task.new, hw]
      exact Request.respects_sections h

end Task.Alike

/-! ## The connection tasks together -/

theorem rel_imp {A : Type} {r r' : A → A → Prop} (h : ∀ a b, r a b → r' a b) {o o' : Option A}
    (ho : Option.Rel r o o') : Option.Rel r' o o' := by
  cases ho with
  | none => exact .none
  | some hab => exact .some (h _ _ hab)

theorem rel_isSome {A : Type} {r : A → A → Prop} {o o' : Option A} (ho : Option.Rel r o o') :
    o'.isSome = o.isSome := by
  cases ho with
  | none => rfl
  | some hab => rfl

/-- The connection tasks, the gate and the history in the two runs. -/
structure World.Alike (now : ExpireAt) (w w' : World host Call) : Prop where
  aof : w'.aof = w.aof
  db : Db.Alike now w.db w'.db
  gate : w'.gate = w.gate
  tasks : ∀ c, Option.Rel (Task.Alike now) (w.tasks c) (w'.tasks c)
  history : w'.history = w.history

namespace World.Alike
variable {now : ExpireAt} {w w' : World host Call}

theorem later {later : ExpireAt} (h : Alike now w w') (hn : now ≤ later) : Alike later w w' where
  aof := h.aof
  db := h.db.later hn
  gate := h.gate
  tasks c := rel_imp (fun _ _ ht => ht.later hn) (h.tasks c)
  history := h.history

/-- One more saved entry: in one of the runs it may be there although it has expired. -/
theorem save (h : Alike now w w') {t t' : Task host} (ht : t.Alike now t') (key : Bytes)
    (keys : List Bytes) : @Task.Alike host now
      { t with rollback := t.rollback ++ [(key, w.db.entry key)], stage := .saving keys }
      { t' with rollback := t'.rollback ++ [(key, w'.db.entry key)], stage := .saving keys } :=
  ⟨ht.reports, ht.request, ht.aofFrame, ht.readings,
    List.rel_append ht.rollback (.cons ⟨rfl, congrFun h.db.same.view key⟩ .nil), .same trivial⟩

variable [DecidableEq Call]

theorem tasks_set (h : Alike now w w') (c : Call) {t t' : Task host} (ht : t.Alike now t')
    (d : Call) :
    Option.Rel (Task.Alike now) (Function.update w.tasks c (some t) d)
      (Function.update w'.tasks c (some t') d) := by
  by_cases hd : d = c
  · subst hd
    rw [Function.update_self, Function.update_self]
    exact .some ht
  · rw [Function.update_of_ne hd, Function.update_of_ne hd]
    exact h.tasks d

theorem set (h : Alike now w w') (c : Call) {t t' : Task host} (ht : t.Alike now t') :
    Alike now (w.set c t) (w'.set c t') :=
  ⟨h.aof, h.db, h.gate, h.tasks_set c ht, h.history⟩

theorem advance (h : Alike now w w') (c : Call) {t t' : Task host} (ht : t.Alike now t') :
    Alike now (w.advance now c t) (w'.advance now c t') := by
  have hstage := ht.stage
  unfold World.advance
  generalize hs : t.stage = stage at hstage
  generalize hs' : t'.stage = stage' at hstage
  cases hstage with
  | restoring error hr =>
      cases hr with
      | nil => exact h.set c (ht.at_stage (.releasing (.error error)) trivial)
      | @cons s s' left left' hhead htail =>
          have hdb : Db.Alike now (w.db.restoreEntry s.1 s.2) (w'.db.restoreEntry s'.1 s'.2) := by
            rw [← hhead.1]
            exact h.db.changes (Db.changes_restoreEntry w.db s.1 s.2)
              (Db.changes_restoreEntry w'.db s.1 s'.2) hhead.2
          have htask := ht.at_alike (.restoring error htail)
          exact ⟨h.aof, hdb, h.gate, h.tasks_set c htask, h.history⟩
  | same hr =>
      cases stage with
      | waiting =>
          dsimp only
          rw [h.gate]
          cases w.gate with
          | some d => exact h
          | none =>
              have hkeys : t'.request.mutatedKeys = t.request.mutatedKeys := by rw [ht.request]
              dsimp only
              rw [h.aof, hkeys]
              refine ⟨rfl, h.db, rfl, h.tasks_set c ?_, h.history⟩
              split_ifs
              · exact ht.at_stage (.saving (sortDedup t.request.mutatedKeys)) trivial
              · exact ht.apply w.aof
      | saving left =>
          cases left with
          | nil => exact h.aof ▸ h.set c (ht.apply w'.aof)
          | cons key keys => exact h.set c (h.save ht key keys)
      | applying rest =>
          cases rest with
          | done reply => exact h
          | atomic act next =>
              have hact := hr now w.db
              have hnext := hact.1 w'.db h.db
              dsimp only
              rw [← hnext.2, h.aof]
              have htask := (ht.ran (.applying (next now w.db)) hact.2).settle w.aof
              exact ⟨rfl, hnext.1, h.gate, h.tasks_set c htask, h.history⟩
      | reading rest =>
          cases rest with
          | done reply => exact h
          | atomic act next =>
              have hact := hr now w.db
              have hnext := hact.1 w'.db h.db
              dsimp only
              rw [← hnext.2, h.aof]
              have htask := (ht.ran (.reading (next now w.db)) hact.2).settle w.aof
              exact ⟨rfl, hnext.1, h.gate, h.tasks_set c htask, h.history⟩
      | appending reply => exact h
      | restoring error left => exact hr.elim
      | releasing result =>
          have htask := ht.at_stage (.answering result) trivial
          exact ⟨h.aof, h.db, rfl, h.tasks_set c htask, h.history⟩
      | answering result =>
          exact ⟨h.aof, h.db, h.gate, h.tasks_set c (ht.at_stage (.answered result) trivial),
            congrArg (· ++ [_]) h.history⟩
      | answered result => exact h

theorem request (h : Alike now w w') (c : Call) {r : Request} (hr : r.reports = false) :
    Alike now (step (.request c now r) w) (step (.request c now r) w') := by
  have hnew : Task.Alike now ((Task.new now r : Task host).settle w.aof)
      ((Task.new now r).settle w.aof) := (Task.Alike.new hr now).settle w.aof
  unfold World.step
  dsimp only
  rw [rel_isSome (h.tasks c)]
  split_ifs
  · exact h
  · unfold World.request
    rw [h.aof]
    exact ⟨rfl, h.db, h.gate, h.tasks_set c hnew, congrArg (· ++ [_]) h.history⟩

theorem task_step (h : Alike now w w') (c : Call) :
    Alike now (step (.step c now) w) (step (.step c now) w') := by
  have ht := h.tasks c
  unfold World.step
  dsimp only
  generalize w.tasks c = o at ht
  generalize w'.tasks c = o' at ht
  cases ht with
  | none => exact h
  | some ht => exact h.advance c ht

theorem acknowledge (h : Alike now w w') (c : Call) (result : Except String Unit) :
    Alike now (step (.acknowledge c result) w) (step (.acknowledge c result) w') := by
  have htask := h.tasks c
  unfold World.step
  dsimp only
  generalize w.tasks c = o at htask
  generalize w'.tasks c = o' at htask
  cases htask with
  | none => exact h
  | @some t t' ht =>
      have hstage := ht.stage
      dsimp only
      generalize hs : t.stage = stage at hstage
      generalize hs' : t'.stage = stage' at hstage
      cases hstage with
      | restoring error hr => exact h
      | same hr =>
          cases stage with
          | appending reply =>
              cases result with
              | ok u => exact h.set c (ht.at_stage (.releasing (.ok reply)) trivial)
              | error e => exact h.set c (ht.at_alike (.restoring _ ht.rollback))
          | waiting | saving left | applying rest | restoring error left | releasing result
          | reading rest | answering result | answered result => exact h

end World.Alike

end Clients

namespace Background
open AtomicPrograms Clients Aof

/-! ## The server with the sweeper and without it -/

/-- How far the snapshot is, without the entries. -/
def Snapshot.bare : Snapshot → Snapshot
  | .collecting now left _ => .collecting now left []
  | .taken _ => .taken []
  | s => s

/-- The server with the sweeper, and the one without it. -/
structure Hides (w w' : World host Call) : Prop where
  clock : w'.clock = w.clock
  clients : w.clients.Alike w.clock w'.clients
  pass : ∀ p, w.pass = some p → p.now ≤ w.clock
  snapshot : w'.snapshot.bare = w.snapshot.bare

def Event.isSweeper : Event Call → Bool
  | .sweeper => true
  | _ => false

/-- A request that counts the live keys. -/
def Event.reports : Event Call → Bool
  | .request _ req => req.reports
  | _ => false

namespace Hides
variable {w w' : World host Call}

theorem start {db : Db host} (h : db.Valid) (now : ExpireAt) (aof : Bool) :
    Hides (World.start now aof db : World host Call) (World.start now aof db) where
  clock := rfl
  clients := ⟨rfl, Db.Alike.refl h now, rfl, fun _ => .none, rfl⟩
  pass p hp := by cases hp
  snapshot := rfl

theorem sweeper (h : Hides w w') : Hides w.sweeper w' := by
  unfold World.sweeper
  split
  case h_1 hp => exact ⟨h.clock, h.clients, fun p hq => by cases hq; exact le_rfl, h.snapshot⟩
  case h_2 hp => exact ⟨h.clock, h.clients, fun p hq => (nomatch hq), h.snapshot⟩
  case h_3 now i left hp =>
    have hnow : now ≤ w.clock := h.pass _ hp
    have hdb := h.clients.db
    have hswept := Db.alike_sweepShard hdb.left hnow i
    have hview := hswept.same.view.trans hdb.same.view
    refine ⟨h.clock, ⟨h.clients.aof, ⟨⟨hview, hdb.same.pubsub⟩, hswept.left, hdb.right⟩,
      h.clients.gate, h.clients.tasks, h.clients.history⟩, fun p hq => ?_, h.snapshot⟩
    cases hq
    exact hnow

theorem rewrite (h : Hides w w') : Hides w.rewrite w'.rewrite := by
  have hc := h.clients
  have hbare := h.snapshot
  unfold World.rewrite
  generalize w.snapshot = s at hbare
  generalize w'.snapshot = s' at hbare
  cases s with
  | idle =>
      cases s' with
      | idle =>
          dsimp only
          rw [hc.gate]
          cases w.clients.gate with
          | some holder => exact h
          | none => exact ⟨h.clock, ⟨hc.aof, hc.db, rfl, hc.tasks, hc.history⟩, h.pass, rfl⟩
      | paused | collecting now left entries | taken entries => cases hbare
  | paused =>
      cases s' with
      | paused =>
          dsimp only
          rw [h.clock]
          exact ⟨rfl, hc, h.pass, rfl⟩
      | idle | collecting now left entries | taken entries => cases hbare
  | collecting now left entries =>
      cases s' with
      | collecting now' left' entries' =>
          cases hbare
          cases left with
          | nil => exact ⟨h.clock, hc, h.pass, rfl⟩
          | cons i left => exact ⟨h.clock, hc, h.pass, rfl⟩
      | idle | paused | taken entries' => cases hbare
  | taken entries =>
      cases s' with
      | taken entries' =>
          exact ⟨h.clock, ⟨hc.aof, hc.db, rfl, hc.tasks, hc.history⟩, h.pass, rfl⟩
      | idle | paused | collecting now left entries' => cases hbare

variable [DecidableEq Call]

theorem step (h : Hides w w') {e : Event Call} (hs : e.isSweeper = false)
    (hr : e.reports = false) : Hides (w.step e) (w'.step e) := by
  cases e with
  | wait ms =>
      have hn := Nat.le_add_right w.clock ms
      exact ⟨congrArg (· + ms) h.clock, h.clients.later hn, fun p hp => (h.pass p hp).trans hn,
        h.snapshot⟩
  | request c req =>
      refine ⟨h.clock, ?_, h.pass, h.snapshot⟩
      change Clients.World.Alike w.clock _
        (Clients.World.step (.request (.call c) w'.clock req) w'.clients)
      rw [h.clock]
      exact h.clients.request (.call c) hr
  | step c =>
      refine ⟨h.clock, ?_, h.pass, h.snapshot⟩
      change Clients.World.Alike w.clock _
        (Clients.World.step (.step (.call c) w'.clock) w'.clients)
      rw [h.clock]
      exact h.clients.task_step (.call c)
  | acknowledge c result =>
      exact ⟨h.clock, h.clients.acknowledge (.call c) result, h.pass, h.snapshot⟩
  | sweeper => cases hs
  | rewrite => exact h.rewrite

theorem run (h : Hides w w') {events : List (Event Call)} (hr : ∀ e ∈ events, e.reports = false) :
    Hides (Runs.run World.step events w)
      (Runs.run World.step (events.filter fun e => !e.isSweeper) w') := by
  induction events generalizing w w' with
  | nil => exact h
  | cons e events ih =>
      obtain ⟨he, hes⟩ := List.forall_mem_cons.mp hr
      cases hs : e.isSweeper with
      | true =>
          rw [List.filter_cons_of_neg (by simp [hs])]
          cases e with
          | sweeper => exact ih h.sweeper hes
          | wait ms | request c req | step c | acknowledge c result | rewrite => cases hs
      | false =>
          rw [List.filter_cons_of_pos (by simp [hs])]
          exact ih (h.step hs he) hes

end Hides

/-- Nothing that a client or a reader of the written file can see is different. -/
structure Indistinct (w w' : World host Call) : Prop where
  history : w.clients.history = w'.clients.history
  gate : w.clients.gate = w'.clients.gate
  view : ∀ t, w.clock ≤ t → w.clients.db.view t = w'.clients.db.view t
  pubsub : w.clients.db.pubsub = w'.clients.db.pubsub
  snapshot : ∀ entries, w.snapshot = .taken entries → ∃ entries', w'.snapshot = .taken entries' ∧
    ∀ clock : Bytes → ExpireAt, (∀ k, w.clock ≤ clock k) →
      writeSnapshotEntries clock entries = writeSnapshotEntries clock entries'

theorem Hides.indistinct {w w' : World host Call} (h : Hides w w') (hw : Kept w) (hw' : Kept w') :
    Indistinct w w' where
  history := h.clients.history.symm
  gate := h.clients.gate.symm
  view t ht := Db.view_congr ht h.clients.db.same.view
  pubsub := h.clients.db.same.pubsub
  snapshot entries hs := by
    have hbare := h.snapshot
    have hsound := hw.snapshot
    have hsound' := hw'.snapshot
    rw [hs] at hbare hsound
    cases hs' : w'.snapshot with
    | taken entries' =>
        refine ⟨entries', rfl, fun clock hclock => ?_⟩
        rw [hs', h.clock] at hsound'
        have hsame : written (fun _ => w.clock) entries = written (fun _ => w.clock) entries' := by
          rw [hsound _ le_rfl, hsound' _ le_rfl]
          exact aofSnapshotEntries_congr hw.valid hw'.valid h.clients.db.same.view
        rw [← writeSnapshotEntries_written, ← written_written hclock, hsame,
          written_written hclock, writeSnapshotEntries_written]
    | idle | paused | collecting now left entries' =>
        rw [hs'] at hbare
        cases hbare

variable [DecidableEq Call]

/-- Wherever the sweeper takes its steps, the run without it has the same history. Requests
that count the live keys are left out. -/
theorem sweeper_invisible {db : Db host} (hdb : db.Reachable) (now : ExpireAt) (aof : Bool)
    {events : List (Event Call)} (hr : ∀ e ∈ events, e.reports = false) :
    Indistinct (Runs.run World.step events (World.start now aof db))
      (Runs.run World.step (events.filter fun e => !e.isSweeper) (World.start now aof db)) :=
  ((Hides.start hdb.valid now aof).run hr).indistinct ((Kept.start hdb.valid now aof).run events)
    ((Kept.start hdb.valid now aof).run _)

/-- Two reads of a key, with its deadline and a pass of the sweeper in between. -/
def expiringReads : List (Event Bool) :=
  [.request true (.command (.get [107])), .step true, .step true, .wait 9, .sweeper,
    .request false (.command (.get [107])), .sweeper, .sweeper, .sweeper, .sweeper,
    .step false, .step false]

theorem sweeper_invisible_reads :
    Indistinct (Runs.run World.step expiringReads (World.start 0 true Db.oneKey))
      (Runs.run World.step (expiringReads.filter fun e => !e.isSweeper)
        (World.start 0 true Db.oneKey)) :=
  sweeper_invisible Db.reachable_oneKey 0 true (by decide)

end Background
end MiniRedis
