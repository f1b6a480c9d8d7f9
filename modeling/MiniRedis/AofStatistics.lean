import MiniRedis.CrashDurability
import MiniRedis.RewriteProgress

/-!
# What the statistics of the append-only file say

`AofHandle::stats` reads counters that the writer and the rewrite task set at different times.
In every run they say what has happened: whether a rewrite is under way, how many have ended,
how and when the last one did, and whether the writer was told that an append or a sync has
failed.
-/
namespace MiniRedis.Aof

/-- `AofHandle::stats`. -/
def stats (path : String) (policy : FsyncPolicy) (inner : AofStatsInner) : AofStats where
  path := path
  fsyncPolicy := policy
  currentSize := inner.currentSize
  rewriteInProgress := inner.rewriteInProgress
  rewriteCount := inner.rewriteCount
  lastRewriteStatus :=
    if inner.rewriteCount = 0 then "none" else if inner.lastRewriteOk then "ok" else "err"
  lastRewriteFinishedMs := inner.lastRewriteFinishedMs
  writeFailed := inner.writeFailed
  lastError := inner.lastError

/-- What only the rewrite task sets. -/
def AofStatsInner.rewrites (inner : AofStatsInner) : ℕ × Bool × ℕ :=
  (inner.rewriteCount, inner.lastRewriteOk, inner.lastRewriteFinishedMs)

namespace Writer
variable (policy : FsyncPolicy) (w : Writer)

theorem bufferFrame_rewrites (bytes : Bytes) :
    (w.bufferFrame bytes).stats.rewrites = w.stats.rewrites := by
  unfold bufferFrame
  cases w.rewriteBuffer with
  | none => rfl
  | some buffer =>
      dsimp only
      cases buffer.push bytes <;> rfl

theorem writeFrame_rewrites (bytes : Bytes) (calls : WriteCalls) :
    (w.writeFrame policy bytes calls).2.stats.rewrites = w.stats.rewrites ∧
      (w.writeFrame policy bytes calls).2.stats.writeFailed = w.stats.writeFailed := by
  obtain ⟨file, size, hw⟩ := writeFrame_refiled policy bytes calls w
  rw [hw]
  exact ⟨rfl, rfl⟩

/-- What the calls for a frame report. -/
theorem writeFrame_isOk (bytes : Bytes) (calls : WriteCalls) :
    (w.writeFrame policy bytes calls).1.isOk =
      ((w.writeOne bytes w.stats.currentSize calls.writeAll).1.isOk &&
        (!syncs policy calls.elapsed || calls.syncData.isOk)) := by
  unfold writeFrame
  dsimp only
  cases w.writeOne bytes w.stats.currentSize calls.writeAll with
  | mk result w₁ =>
      cases result with
      | error e => rfl
      | ok =>
          unfold syncAfterWrite
          dsimp only
          cases syncs policy calls.elapsed with
          | false => rfl
          | true => cases calls.syncData <;> rfl

theorem finishRewrite_rewrites (calls : FinishCalls) :
    (w.finishRewrite policy calls).2.stats.rewrites = w.stats.rewrites := by
  unfold finishRewrite
  cases w.rewriteBuffer with
  | none => rfl
  | some buffer =>
      dsimp only
      cases replacement calls buffer with
      | error e => rfl
      | ok file =>
          unfold switchTo
          dsimp only
          split <;> rfl

/-- The writer counts no rewrites. -/
theorem handle_rewrites (s : WriterStep) :
    (w.handle policy s).2.stats.rewrites = w.stats.rewrites := by
  cases s with
  | write bytes calls =>
      have hframe := (w.writeFrame_rewrites policy bytes calls).1
      unfold handle write
      dsimp only
      split_ifs
      · rfl
      · cases hw : w.writeFrame policy bytes calls with
        | mk result w' =>
            rw [hw] at hframe
            cases result with
            | ok => exact (w'.bufferFrame_rewrites bytes).trans hframe
            | error e => exact hframe
  | startRewrite =>
      unfold handle startRewrite
      dsimp only
      split_ifs <;> rfl
  | finishRewrite calls => exact w.finishRewrite_rewrites policy calls
  | abortRewrite reason => rfl
  | tick syncData =>
      unfold handle
      dsimp only
      split_ifs
      · cases syncData <;> rfl
      · rfl
  | land => rfl

end Writer

/-- The step is told of a failure: by `write_all`, with the error of its own write or of the one
before it, by the sync behind it, or by that of the timer. A `FinishRewrite` does not count. -/
def WriterStep.fails (policy : FsyncPolicy) (w : Writer) : WriterStep → Bool
  | .write bytes calls => !w.stats.writeFailed &&
      (!(w.writeOne bytes w.stats.currentSize calls.writeAll).1.isOk ||
        Writer.syncs policy calls.elapsed && !calls.syncData.isOk)
  | .tick syncData => decide (policy = .everySec) && !syncData.isOk
  | _ => false

/-- The writer has failed behind a write just if the write is not acknowledged. -/
theorem Writer.write_writeFailed (policy : FsyncPolicy) (w : Writer) (bytes : Bytes)
    (calls : WriteCalls) :
    (w.write policy bytes calls).2.stats.writeFailed = !(w.write policy bytes calls).1.isOk := by
  have hframe := (w.writeFrame_rewrites policy bytes calls).2
  unfold write
  cases hf : w.stats.writeFailed with
  | true => exact hf
  | false =>
      rw [hf] at hframe
      rw [if_neg Bool.false_ne_true]
      cases hw : w.writeFrame policy bytes calls with
      | mk result w' =>
          rw [hw] at hframe
          cases result with
          | ok => exact (bufferFrame_writeFailed bytes w').trans hframe
          | error e => rfl

theorem Writer.write_isOk (policy : FsyncPolicy) (w : Writer) (bytes : Bytes)
    (calls : WriteCalls) : (w.write policy bytes calls).1.isOk =
      (!w.stats.writeFailed && (w.writeFrame policy bytes calls).1.isOk) := by
  unfold write
  cases w.stats.writeFailed with
  | true => rfl
  | false =>
      rw [if_neg Bool.false_ne_true]
      cases w.writeFrame policy bytes calls with
      | mk result w' => cases result <;> rfl

/-- The writer has failed since the first step that fails. -/
theorem Writer.handle_writeFailed (policy : FsyncPolicy) (w : Writer) (s : WriterStep) :
    (w.handle policy s).2.stats.writeFailed = (w.stats.writeFailed || s.fails policy w) := by
  cases s with
  | write bytes calls =>
      unfold handle WriterStep.fails
      dsimp only
      rw [write_writeFailed, write_isOk, writeFrame_isOk]
      cases w.stats.writeFailed <;> simp
  | startRewrite =>
      unfold handle startRewrite WriterStep.fails
      dsimp only
      rw [Bool.or_false]
      split_ifs <;> rfl
  | finishRewrite calls =>
      exact (finishRewrite_writeFailed policy calls w).trans (Bool.or_false _).symm
  | abortRewrite reason => exact (Bool.or_false _).symm
  | tick syncData =>
      unfold handle WriterStep.fails
      dsimp only
      split_ifs with hp
      · cases syncData with
        | ok => rw [decide_eq_true hp]; exact (Bool.or_false _).symm
        | error e => rw [decide_eq_true hp]; exact (Bool.or_true _).symm
      · rw [decide_eq_false hp]
        exact (Bool.or_false _).symm
  | land => exact (Bool.or_false _).symm

end MiniRedis.Aof

namespace MiniRedis.RewriteProtocol
open Aof Compaction Runs World

variable {host : Host} {Call : Type}

/-- A rewrite that ends in the step: when, and how. -/
def ended (t : World host Call × Event Call) : Option (ExpireAt × CallResult) :=
  match t.2, t.1.task with
  | .rewrite _, .ending result => some (t.1.clock, result)
  | _, _ => none

/-- The writer is told of a failure in the step. -/
def fails (policy : FsyncPolicy) (t : World host Call × Event Call) : Bool :=
  (t.1.writerStep t.2).any fun s => s.fails policy t.1.writer

def isSwitch : Mark (Write Call) Image → Bool
  | .switched _ => true
  | _ => false

/-- How often a new file has taken the place of the log. -/
def switches (history : List (Mark (Write Call) Image)) : ℕ := history.countP isSwitch

/-- The rewrite has succeeded and is about to be counted. -/
def TaskStage.endsWell : TaskStage → Bool
  | ending result => result.isOk
  | _ => false

/-- The counters that only the rewrite task sets, after these rewrites have ended. -/
structure Counted (ends : List (ExpireAt × CallResult)) (w : World host Call) : Prop where
  count : w.writer.stats.rewriteCount = ends.length
  last : ∀ e, ends.getLast? = some e →
    w.writer.stats.lastRewriteOk = e.2.isOk ∧ w.writer.stats.lastRewriteFinishedMs = e.1
  /-- A rewrite that ends well has replaced the file. -/
  switched : (ends.countP fun e => e.2.isOk) + w.task.endsWell.toNat ≤ switches w.history

variable {w w' : World host Call} {ends : List (ExpireAt × CallResult)}

theorem Counted.keep (h : Counted ends w)
    (hr : w'.writer.stats.rewrites = w.writer.stats.rewrites)
    (hs : w'.task.endsWell.toNat + switches w.history ≤
      w.task.endsWell.toNat + switches w'.history) : Counted ends w' := by
  have hcount := congrArg (·.1) hr
  have hok := congrArg (·.2.1) hr
  have hms := congrArg (·.2.2) hr
  refine ⟨Eq.trans hcount h.count, fun e he => ?_, ?_⟩
  · exact ⟨Eq.trans hok (h.last e he).1, Eq.trans hms (h.last e he).2⟩
  · have hswitched := h.switched
    omega

theorem switches_append (history marks : List (Mark (Write Call) Image)) :
    switches (history ++ marks) = switches history + switches marks := List.countP_append

theorem switches_marks {result : CallResult} {mark : Mark (Write Call) Image}
    (h : isSwitch mark = false) : switches (marks result mark) = 0 := by
  cases result with
  | error e => rfl
  | ok u => exact List.countP_cons_of_neg (by rw [h]; exact Bool.false_ne_true)

/-- The rewrite task leaves the counters alone until it ends. -/
theorem rewrite_quiet (result : TaskResult) (ht : ∀ answer, w.task ≠ .ending answer) :
    (w.rewrite result).writer = w.writer ∧ (w.rewrite result).task.endsWell = false := by
  unfold World.rewrite
  cases hw : w.task with
  | idle | starting | finishing | aborting => exact ⟨rfl, by rw [hw]; rfl⟩
  | ending answer => exact (ht answer hw).elim
  | pausing =>
      cases w.gate with
      | some party => exact ⟨rfl, by rw [hw]; rfl⟩
      | none => exact ⟨rfl, rfl⟩
  | holding | captured => exact ⟨rfl, rfl⟩
  | started answer => cases answer <;> exact ⟨rfl, rfl⟩
  | opening capture => cases result <;> exact ⟨rfl, rfl⟩
  | writing capture left =>
      cases left with
      | nil => cases result <;> exact ⟨rfl, rfl⟩
      | cons e left =>
          dsimp only
          cases writeSnapshotEntry w.clock e.1 e.2 with
          | error reason => exact ⟨rfl, rfl⟩
          | ok bytes =>
              dsimp only
              rcases w.temp.push bytes 0 result with ⟨reason | _, temp⟩ <;> exact ⟨rfl, rfl⟩

theorem Counted.rewrite (h : Counted ends w) (result : TaskResult) :
    Counted (ends ++ (ended (w, .rewrite result)).toList) (w.rewrite result) := by
  cases hw : w.task with
  | ending answer =>
      have hended : ended (w, .rewrite result) = some (w.clock, answer) := by
        unfold ended
        rw [hw]
      have hstep : w.rewrite result = { w with
          writer := finishRewriteStats w.clock answer w.writer
          task := .idle } := by
        unfold World.rewrite
        rw [hw]
      rw [hended, hstep]
      refine ⟨?_, fun e he => ?_, ?_⟩
      · change w.writer.stats.rewriteCount + 1 = _
        rw [h.count, Option.toList_some, List.length_append]
        rfl
      · rw [Option.toList_some, List.getLast?_concat] at he
        obtain rfl := Option.some.inj he
        cases answer <;> exact ⟨rfl, rfl⟩
      · have hswitched := h.switched
        rw [hw] at hswitched
        rw [Option.toList_some, List.countP_append]
        cases answer with
        | ok u => exact hswitched
        | error e => exact hswitched
  | _ =>
      have hended : ended (w, .rewrite result) = none := by
        unfold ended
        rw [hw]
      have hquiet : ∀ answer, w.task ≠ .ending answer := fun answer he => by
        rw [hw] at he
        cases he
      obtain ⟨hwriter, htask⟩ := rewrite_quiet result hquiet
      rw [hended, Option.toList_none, List.append_nil]
      refine h.keep (by rw [hwriter]) ?_
      rw [htask, rewrite_history]
      exact Nat.add_le_add_right (Nat.zero_le _) _

variable [DecidableEq Call]

theorem client_history (w : World host Call) (c : Call) (stage : Stage host Call) :
    (w.client c stage).history = w.history := by
  unfold World.client
  cases stage with
  | waiting cmd aofFrame => cases w.gate <;> rfl
  | applied p =>
      dsimp only
      split_ifs <;> rfl
  | acknowledged p result => cases result <;> rfl
  | _ => rfl

theorem acknowledge_quiet (w : World host Call) (c : Call) (result : CallResult) :
    (w.acknowledge c result).writer = w.writer ∧ (w.acknowledge c result).task = w.task ∧
      switches (w.acknowledge c result).history = switches w.history := by
  unfold World.acknowledge
  split
  · refine ⟨rfl, rfl, ?_⟩
    exact (switches_append ..).trans (by rw [switches_marks rfl, Nat.add_zero])
  · exact ⟨rfl, rfl, rfl⟩

theorem Counted.deliver (h : Counted ends w) {m : Message Call} (ha : w.Awaited m)
    (queue : List (Message Call)) (policy : FsyncPolicy) (calls : Writer.WriteCalls)
    (finish : Writer.FinishCalls) :
    Counted ends ({ w with queue := queue }.deliver policy calls finish m) := by
  cases m with
  | write c bytes =>
      obtain ⟨hwriter, htask, hhistory⟩ := acknowledge_quiet
        { w with queue := queue, writer := (w.writer.write policy bytes calls).2 } c
        (w.writer.write policy bytes calls).1
      refine h.keep ?_ (by rw [World.deliver, htask, hhistory])
      rw [World.deliver, hwriter]
      exact w.writer.handle_rewrites policy (.write bytes calls)
  | startRewrite =>
      refine h.keep (w.writer.handle_rewrites policy .startRewrite) ?_
      change 0 + switches w.history ≤ _ + switches (w.history ++ marks _ .began)
      rw [switches_append, switches_marks rfl]
      omega
  | finishRewrite =>
      obtain ⟨capture, ht⟩ := ha
      refine h.keep (w.writer.handle_rewrites policy (.finishRewrite _)) ?_
      unfold World.deliver
      dsimp only
      have hends : w.task.endsWell = false := by rw [ht]; rfl
      rw [switches_append, hends]
      -- a result without an error comes from behind the rename
      have hswitch : ∀ finish : Writer.FinishCalls,
          (w.writer.finishRewrite policy finish).1.isOk.toNat ≤
            switches (({ w with queue := queue } : World host Call).switched finish) := by
        intro finish
        unfold World.switched Writer.finishRewrite
        dsimp only
        rw [ht]
        cases w.writer.rewriteBuffer with
        | none => exact Nat.zero_le _
        | some buffer =>
            dsimp only
            cases Writer.replacement finish buffer with
            | error e => exact Nat.zero_le _
            | ok file => exact Bool.toNat_le _
      have hle := hswitch { finish with openTemp := finish.openTemp.map fun _ => w.temp.bytes }
      change (Except.isOk _).toNat + _ ≤ 0 + _
      omega
  | abortRewrite reason =>
      exact h.keep (w.writer.handle_rewrites policy (.abortRewrite reason)) (Nat.add_le_add_right
        (Nat.zero_le _) _)

theorem Counted.step (h : Counted ends w) (ha : ∀ m ∈ w.queue, w.Awaited m)
    (policy : FsyncPolicy) (e : Event Call) :
    Counted (ends ++ (ended (w, e)).toList) (World.step policy e w) := by
  have hkeep : ∀ {w' : World host Call}, Counted ends w' → ended (w, e) = none →
      Counted (ends ++ (ended (w, e)).toList) w' := fun h' hn => by
    rw [hn, Option.toList_none, List.append_nil]
    exact h'
  cases e with
  | pass ms => exact hkeep (h.keep rfl le_rfl) rfl
  | read cmd =>
      refine hkeep ?_ rfl
      unfold World.step
      dsimp only
      split_ifs
      · exact h
      · exact h.keep rfl le_rfl
  | sweep => exact hkeep (h.keep rfl le_rfl) rfl
  | request c cmd =>
      refine hkeep ?_ rfl
      unfold World.step World.request
      dsimp only
      cases w.clients c with
      | some stage => exact h
      | none =>
          dsimp only
          split_ifs
          · exact h.keep rfl le_rfl
          · exact h
  | client c =>
      refine hkeep ?_ rfl
      unfold World.step
      dsimp only
      cases w.clients c with
      | none => exact h
      | some stage =>
          obtain ⟨hwriter, htask⟩ := client_writer w c stage
          exact h.keep (by rw [hwriter]) (by rw [htask, client_history])
  | schedule =>
      refine hkeep ?_ rfl
      unfold World.step World.schedule
      dsimp only
      split_ifs
      · exact h
      · exact h.keep rfl (Nat.add_le_add_right (Nat.zero_le _) _)
  | rewrite result => exact h.rewrite result
  | writer calls finish =>
      refine hkeep ?_ rfl
      unfold World.step
      dsimp only
      cases hq : w.queue with
      | nil => exact h
      | cons m queue => exact h.deliver (ha m (hq ▸ List.mem_cons_self)) queue policy calls finish
  | tick syncData =>
      exact hkeep (h.keep (w.writer.handle_rewrites policy (.tick syncData)) le_rfl) rfl
  | land => exact hkeep (h.keep rfl le_rfl) rfl

/-- The writer's own steps, and nothing else, find failures. -/
theorem step_writeFailed (policy : FsyncPolicy) (w : World host Call) (e : Event Call) :
    (World.step policy e w).writer.stats.writeFailed =
      (w.writer.stats.writeFailed || fails policy (w, e)) := by
  have hsame : ∀ {w' : World host Call},
      w'.writer.stats.writeFailed = w.writer.stats.writeFailed →
      fails policy (w, e) = false → w'.writer.stats.writeFailed =
        (w.writer.stats.writeFailed || fails policy (w, e)) := fun hw hf => by
    rw [hw, hf, Bool.or_false]
  cases e with
  | pass | sweep => exact hsame rfl rfl
  | read cmd =>
      refine hsame ?_ rfl
      unfold World.step
      dsimp only
      split_ifs <;> rfl
  | request c cmd =>
      refine hsame ?_ rfl
      unfold World.step World.request
      dsimp only
      cases w.clients c with
      | some stage => rfl
      | none =>
          dsimp only
          split_ifs <;> rfl
  | client c =>
      refine hsame ?_ rfl
      unfold World.step
      dsimp only
      cases w.clients c with
      | none => rfl
      | some stage => exact congrArg (·.stats.writeFailed) (client_writer w c stage).1
  | schedule =>
      refine hsame ?_ rfl
      unfold World.step World.schedule
      dsimp only
      split_ifs <;> rfl
  | rewrite result =>
      refine hsame ?_ rfl
      unfold World.step
      dsimp only
      cases hw : w.task with
      | ending answer =>
          unfold World.rewrite
          rw [hw]
          rfl
      | _ =>
          have hquiet : ∀ answer, w.task ≠ .ending answer := fun answer he => by
            rw [hw] at he
            cases he
          exact congrArg (·.stats.writeFailed) (rewrite_quiet result hquiet).1
  | writer calls finish =>
      unfold World.step fails World.writerStep
      dsimp only
      cases w.queue with
      | nil => exact (Bool.or_false _).symm
      | cons m queue =>
          cases m with
          | write c bytes =>
              refine Eq.trans ?_ (w.writer.handle_writeFailed policy (.write bytes calls))
              exact congrArg (·.stats.writeFailed) (acknowledge_writer _ c _)
          | startRewrite => exact w.writer.handle_writeFailed policy .startRewrite
          | finishRewrite => exact w.writer.handle_writeFailed policy (.finishRewrite _)
          | abortRewrite reason => exact w.writer.handle_writeFailed policy (.abortRewrite reason)
  | tick syncData => exact w.writer.handle_writeFailed policy (.tick syncData)
  | land => exact w.writer.handle_writeFailed policy .land

theorem run_writeFailed (policy : FsyncPolicy) (events : List (Event Call)) (w : World host Call) :
    (run (World.step policy) events w).writer.stats.writeFailed =
      (w.writer.stats.writeFailed || (taken (World.step policy) events w).any (fails policy)) := by
  induction events generalizing w with
  | nil => exact (Bool.or_false _).symm
  | cons e events ih =>
      rw [run, ih, step_writeFailed, Bool.or_assoc]
      rfl

theorem counted_run (policy : FsyncPolicy) {events : List (Event Call)}
    (he : ∀ e ∈ events, e.Sent) {callers : Finset Call} (hw : w.Attended callers)
    (h : Counted ends w) :
    Counted (ends ++ (taken (World.step policy) events w).filterMap ended)
      (run (World.step policy) events w) := by
  let Inv := fun (noted : List (ExpireAt × CallResult)) (w : World host Call) =>
    (∃ callers, w.Attended callers) ∧ Counted noted w
  have hstep : ∀ noted (w : World host Call) e, Inv noted w → e.Sent →
      Inv (noted ++ (ended (w, e)).toList) (World.step policy e w) := by
    rintro noted w e ⟨⟨callers, hw⟩, h⟩ he
    exact ⟨hw.step policy he, h.step hw.orderly.awaited policy e⟩
  have hrun := @kept_noted _ _ (World.step policy) _ ended Inv (fun t => t.2.Sent) hstep events w
    ends ⟨⟨callers, hw⟩, h⟩ fun t ht => he t.2 (label_mem ht)
  exact hrun.2

/-- How the last of these rewrites has ended. -/
def status (ends : List (ExpireAt × CallResult)) : String :=
  match ends.getLast? with
  | none => "none"
  | some e => if e.2.isOk then "ok" else "err"

/-- In every run the statistics are those of what has happened: there is a rewrite under way
just if its task is there, each rewrite that has ended is counted once, the status and the time
are those of the last one, no more rewrites have ended well than files have taken the place of
the log, and the flag is set just if the writer has been told of a failure of an append or of a
sync outside the end of a rewrite. -/
theorem stats_truthful (path : String) (policy : FsyncPolicy) (now : ExpireAt) (db : Db host)
    (file : Bytes) (events : List (Event Call)) (he : ∀ e ∈ events, e.Sent) :
    let w := run (World.step policy) events (start now db file)
    let steps := taken (World.step policy) events (start now db file)
    let ends := steps.filterMap ended
    let s := Aof.stats path policy w.writer.stats
    s.rewriteInProgress = w.task.busy ∧ s.rewriteCount = ends.length ∧
      s.lastRewriteStatus = status ends ∧
      (∀ e, ends.getLast? = some e → s.lastRewriteFinishedMs = e.1) ∧
      (ends.countP fun e => e.2.isOk) ≤ switches w.history ∧
      s.writeFailed = steps.any (fails policy) := by
  intro w steps ends s
  have hstart : Counted [] (start now db file : World host Call) :=
    ⟨rfl, fun e he => (by cases he), le_rfl⟩
  have hcounted : Counted ends w := counted_run policy he (attended_start now db file) hstart
  obtain ⟨callers, hw⟩ := attended_run policy he (attended_start now db file)
  refine ⟨hw.busy, hcounted.count, ?_, fun e he => (hcounted.last e he).2, ?_,
    run_writeFailed policy events _⟩
  · change (if w.writer.stats.rewriteCount = 0 then "none" else
      if w.writer.stats.lastRewriteOk then "ok" else "err") = status ends
    unfold status
    rw [hcounted.count]
    cases hends : ends.getLast? with
    | none => rw [List.getLast?_eq_none_iff.mp hends]; rfl
    | some e =>
        have hne : ends.length ≠ 0 := fun h0 => by
          rw [List.length_eq_zero_iff.mp h0] at hends
          cases hends
        rw [if_neg hne, (hcounted.last e hends).1]
  · exact (Nat.le_add_right _ _).trans hcounted.switched

theorem stats_truthful_busy :
    (Aof.stats "appendonly.aof" .always (run (World.step .always) busyEvents
      (start 1000 (Db.new : Db Server.oneShard) [])).writer.stats).rewriteInProgress =
    (run (World.step .always) busyEvents (start 1000 (Db.new : Db Server.oneShard) [])).task.busy :=
  (stats_truthful "appendonly.aof" .always 1000 Db.new [] busyEvents sent_busyEvents).1

end MiniRedis.RewriteProtocol
