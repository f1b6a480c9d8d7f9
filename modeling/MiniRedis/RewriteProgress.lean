import Mathlib.Data.Prod.Lex
import Mathlib.Algebra.Order.BigOperators.Group.Finset
import MiniRedis.Progress
import MiniRedis.RewriteRuns

/-!
# Every write is answered, and every rewrite ends

A client waits for the gate or for the writer, the rewrite task likewise, and the writer waits
for messages. Whoever waits for the writer has a message in its queue, and whoever holds the
gate can go on or waits for the writer, so there is no deadlock. Each turn brings its party
closer to the end, however the calls to the operating system end.
-/
namespace MiniRedis.RewriteProtocol
open Aof Compaction Progress Runs World

variable {host : Host} {Call : Type}

/-! ## Turns -/

inductive Turn (Call : Type) where
  | client (c : Call)
  | rewrite
  | writer

/-- How the calls that a turn makes end. -/
structure Answers where
  result : TaskResult
  calls : Writer.WriteCalls
  finish : Writer.FinishCalls

def Turn.event (a : Answers) : Turn Call → Event Call
  | client c => .client c
  | rewrite => .rewrite a.result
  | writer => .writer a.calls a.finish

namespace Stage

/-- The task does not wait; `free` says whether the gate is. -/
def ready (free : Bool) : Stage host Call → Bool
  | waiting .. => free
  | appending _ | answered _ => false
  | _ => true

def rank : Stage host Call → ℕ
  | waiting .. => 6
  | holding .. => 5
  | applied _ => 4
  | appending _ => 3
  | acknowledged .. => 2
  | releasing _ => 1
  | answered _ => 0

theorem not_holds {stage : Stage host Call} {free : Bool} (hr : stage.ready free = false)
    (hs : stage.sent = false) : stage.holds = false := by
  cases stage with
  | waiting | answered => rfl
  | appending p => cases hs
  | _ => cases hr

theorem eq_answered {stage : Stage host Call} (hr : stage.ready true = false)
    (hs : stage.sent = false) : ∃ result, stage = answered result := by
  cases stage with
  | answered result => exact ⟨result, rfl⟩
  | appending p => cases hs
  | _ => cases hr

end Stage

namespace TaskStage

/-- The task does not wait; `free` says whether the gate is. -/
def ready (free : Bool) : TaskStage → Bool
  | idle | starting | finishing _ | aborting _ => false
  | pausing => free
  | _ => true

def rank : TaskStage → ℕ
  | pausing => 9
  | holding => 8
  | starting => 7
  | started _ => 6
  | captured _ => 5
  | opening _ => 4
  | writing .. => 3
  | finishing _ | aborting _ => 2
  | ending _ => 1
  | idle => 0

/-- The entries of the snapshot that are left to write. -/
def left : TaskStage → ℕ
  | writing _ entries => entries.length
  | _ => 0

theorem not_holds {stage : TaskStage} {free : Bool} (hr : stage.ready free = false)
    (hs : stage.sent = false) : stage.holds = false := by
  cases stage with
  | starting => cases hs
  | holding | started | captured => cases hr
  | _ => rfl

theorem eq_idle_of_blocked {stage : TaskStage} (hr : stage.ready true = false)
    (hs : stage.sent = false) : stage = idle := by
  cases stage with
  | idle => rfl
  | starting | finishing | aborting => cases hs
  | _ => cases hr

end TaskStage

namespace World
variable {w w' : World host Call}

/-- The party can take a step of its own. -/
def ready (w : World host Call) : Turn Call → Bool
  | .client c => (w.clients c).any (Stage.ready w.gate.isNone)
  | .rewrite => w.task.ready w.gate.isNone
  | .writer => !w.queue.isEmpty

/-- Nothing is under way. -/
structure AtRest (w : World host Call) : Prop where
  gate : w.gate = none
  queue : w.queue = []
  task : w.task = .idle
  answered : ∀ c stage, w.clients c = some stage → ∃ result, stage = .answered result

/-- Whoever waits for an acknowledgement has a message in the queue. -/
structure Expected (w : World host Call) : Prop where
  client : ∀ c, (w.clients c).any Stage.sent = true → ∃ m ∈ w.queue, m.sender = .client c
  task : w.task.sent = true → ∃ m ∈ w.queue, m.sender = .rewrite

/-- What no step breaks, whatever fails in it. -/
structure Attended (callers : Finset Call) (w : World host Call) : Prop where
  orderly : w.Orderly
  busy : w.writer.stats.rewriteInProgress = w.task.busy
  expected : w.Expected
  callers : ∀ c, (w.clients c).isSome = true ↔ c ∈ callers

/-- Clients first, then the task; with nothing else changed, the entries that are left. -/
def rank (callers : Finset Call) (w : World host Call) : ℕ ×ₗ ℕ :=
  toLex (∑ c ∈ callers, ((w.clients c).map Stage.rank).getD 0 + w.task.rank, w.task.left)

/-- There is no deadlock. -/
theorem Attended.exists_ready {callers : Finset Call} (h : w.Attended callers)
    (hrest : ¬ w.AtRest) : ∃ t, w.ready t = true := by
  by_contra hnone
  have hblocked : ∀ t, w.ready t = false := fun t => Bool.not_eq_true _ ▸ fun ht => hnone ⟨t, ht⟩
  have hqueue : w.queue = [] := by
    have hq := hblocked .writer
    unfold ready at hq
    simpa using hq
  have hclients : ∀ c stage, w.clients c = some stage → stage.sent = false := by
    intro c stage hc
    rw [← Bool.not_eq_true]
    intro hs
    obtain ⟨m, hm, -⟩ := h.expected.client c (by rw [hc]; exact hs)
    rw [hqueue] at hm
    cases hm
  have htask : w.task.sent = false := by
    rw [← Bool.not_eq_true]
    intro hs
    obtain ⟨m, hm, -⟩ := h.expected.task hs
    rw [hqueue] at hm
    cases hm
  have hclient : ∀ c stage, w.clients c = some stage → stage.ready w.gate.isNone = false := by
    intro c stage hc
    have hb := hblocked (.client c)
    unfold ready at hb
    dsimp only at hb
    rwa [hc] at hb
  have hrewrite : w.task.ready w.gate.isNone = false := hblocked .rewrite
  -- whoever holds the gate can go on, since it waits for no message
  have hgate : w.gate = none := by
    cases hg : w.gate with
    | none => rfl
    | some party =>
        cases party with
        | client c =>
            have hholds := (h.orderly.gate_client c).mp hg
            cases hc : w.clients c with
            | none =>
                rw [hc] at hholds
                cases hholds
            | some stage =>
                rw [hc, Option.any_some, Stage.not_holds (hclient c stage hc)
                  (hclients c stage hc)] at hholds
                cases hholds
        | rewrite =>
            have hholds := h.orderly.gate_rewrite.mp hg
            rw [TaskStage.not_holds hrewrite htask] at hholds
            cases hholds
  rw [hgate] at hclient hrewrite
  exact hrest ⟨hgate, hqueue, TaskStage.eq_idle_of_blocked hrewrite htask,
    fun c stage hc => Stage.eq_answered (hclient c stage hc) (hclients c stage hc)⟩

/-! ## Every step keeps the queue and the waiting together -/

theorem Expected.grow (h : w.Expected) (hqueue : ∀ m ∈ w.queue, m ∈ w'.queue)
    (hclient : ∀ c, (w'.clients c).any Stage.sent = true →
      (w.clients c).any Stage.sent = true ∨ ∃ m ∈ w'.queue, m.sender = .client c)
    (htask : w'.task.sent = true → w.task.sent = true ∨ ∃ m ∈ w'.queue, m.sender = .rewrite) :
    w'.Expected where
  client c hc := by
    rcases hclient c hc with hc | hm
    · obtain ⟨m, hm, hs⟩ := h.client c hc
      exact ⟨m, hqueue m hm, hs⟩
    · exact hm
  task ht := by
    rcases htask ht with ht | hm
    · obtain ⟨m, hm, hs⟩ := h.task ht
      exact ⟨m, hqueue m hm, hs⟩
    · exact hm

theorem Expected.congr (h : w.Expected) (hs : SameParties w w') : w'.Expected :=
  h.grow (fun _ hm => hs.queue ▸ hm) (fun _ hc => .inl (hs.clients ▸ hc))
    fun ht => .inl (hs.task ▸ ht)

/-- A client goes on to a stage in which it waits for no message. -/
theorem Expected.move [DecidableEq Call] (h : w.Expected) {c : Call} {stage : Stage host Call}
    (hs : stage.sent = false) (hqueue : w'.queue = w.queue) (htask : w'.task = w.task)
    (hclients : w'.clients = w.clients) : (w'.set c stage).Expected := by
  refine h.grow (fun m hm => hqueue.symm ▸ hm) (fun d hd => ?_) fun ht => .inl (htask ▸ ht)
  by_cases hdc : d = c
  · rw [hdc, set_self, Option.any_some, hs] at hd
    cases hd
  · rw [set_of_ne _ _ hdc, hclients] at hd
    exact .inl hd

/-- The task goes on, to a stage in which it waits for no message or with one behind the others. -/
theorem Expected.advance (h : w.Expected) (hclients : w'.clients = w.clients)
    (hqueue : w'.task.sent = false ∧ w'.queue = w.queue ∨
      ∃ m : Message Call, m.sender = .rewrite ∧ w'.queue = w.queue ++ [m]) : w'.Expected := by
  rcases hqueue with ⟨hs, hq⟩ | ⟨m, hs, hq⟩
  · refine h.grow (fun m hm => hq.symm ▸ hm) (fun c hc => .inl (hclients ▸ hc)) fun ht => ?_
    rw [hs] at ht
    cases ht
  · refine h.grow (fun m' hm => ?_) (fun c hc => .inl (hclients ▸ hc)) fun _ => .inr ⟨m, ?_, hs⟩
    · rw [hq]
      exact List.mem_append_left _ hm
    · rw [hq]
      exact List.mem_append_right _ (List.mem_singleton.mpr rfl)

theorem Expected.client_step [DecidableEq Call] (h : w.Expected) {c : Call}
    (stage : Stage host Call) : (w.client c stage).Expected := by
  unfold World.client
  cases stage with
  | waiting cmd aofFrame =>
      cases w.gate with
      | some party => exact h
      | none => exact h.move rfl rfl rfl rfl
  | holding cmd aofFrame =>
      dsimp only
      unfold World.execute
      dsimp only
      split
      · exact h.move rfl rfl rfl rfl
      · split
        · exact h.move rfl rfl rfl rfl
        · exact h.move rfl rfl rfl rfl
  | applied p =>
      dsimp only
      split_ifs
      · exact h.move rfl rfl rfl rfl
      · refine h.grow (fun m hm => List.mem_append_left _ hm) (fun d hd => ?_) fun ht => .inl ht
        by_cases hdc : d = c
        · subst hdc
          exact .inr ⟨.write d p.write.bytes, List.mem_append_right _ (List.mem_singleton.mpr rfl),
            rfl⟩
        · rw [set_of_ne _ _ hdc] at hd
          exact .inl hd
  | appending p => exact h
  | acknowledged p result => cases result <;> exact h.move rfl rfl rfl rfl
  | releasing result => exact h.move rfl rfl rfl rfl
  | answered result => exact h

theorem Expected.rewrite_step (h : w.Expected) (result : TaskResult) :
    (w.rewrite result).Expected := by
  have haborted : ∀ (w' : World host Call) (reason : String), w'.clients = w.clients →
      w'.queue = w.queue → (w'.abort reason).Expected := fun w' reason hc hq =>
    h.advance hc (.inr ⟨.abortRewrite reason, rfl, congrArg (· ++ _) hq⟩)
  unfold World.rewrite
  cases ht : w.task with
  | idle | starting | finishing | aborting => exact h
  | pausing =>
      cases w.gate with
      | some party => exact h
      | none => exact h.advance rfl (.inl ⟨rfl, rfl⟩)
  | holding => exact h.advance rfl (.inr ⟨.startRewrite, rfl, rfl⟩)
  | started answer => cases answer <;> exact h.advance rfl (.inl ⟨rfl, rfl⟩)
  | captured capture => exact h.advance rfl (.inl ⟨rfl, rfl⟩)
  | opening capture =>
      cases result with
      | error e => exact haborted w e.2 rfl rfl
      | ok => exact h.advance rfl (.inl ⟨rfl, rfl⟩)
  | writing capture left =>
      cases left with
      | nil =>
          cases result with
          | error e => exact haborted { w with temp := w.temp.settle } e.2 rfl rfl
          | ok => exact h.advance rfl (.inr ⟨.finishRewrite, rfl, rfl⟩)
      | cons e left =>
          dsimp only
          cases writeSnapshotEntry w.clock e.1 e.2 with
          | error reason => exact haborted w reason rfl rfl
          | ok bytes =>
              dsimp only
              rcases w.temp.push bytes 0 result with ⟨reason | _, temp⟩
              · exact haborted { w with temp := temp } reason rfl rfl
              · exact h.advance rfl (.inl ⟨rfl, rfl⟩)
  | ending answer => exact h.advance rfl (.inl ⟨rfl, rfl⟩)

/-- The writer answers the sender of the first message, which waits no more. -/
theorem Expected.deliver [DecidableEq Call] (h : w.Expected) (ho : w.Orderly) {m : Message Call}
    {queue : List (Message Call)} (hq : w.queue = m :: queue) (policy : FsyncPolicy)
    (calls : Writer.WriteCalls) (finish : Writer.FinishCalls) :
    ({ w with queue := queue }.deliver policy calls finish m).Expected := by
  have hothers : ∀ party, party ≠ m.sender → (∃ m' ∈ w.queue, m'.sender = party) →
      ∃ m' ∈ queue, m'.sender = party := by
    rintro party hne ⟨m', hm, hs⟩
    rw [hq] at hm
    rcases List.mem_cons.mp hm with rfl | hm
    · exact (hne hs.symm).elim
    · exact ⟨m', hm, hs⟩
  have ha := ho.awaited m (hq ▸ List.mem_cons_self)
  cases m with
  | write c bytes =>
      obtain ⟨p, hc, -⟩ := ha
      unfold World.deliver World.acknowledge
      dsimp only
      rw [hc]
      refine ⟨fun d hd => ?_, fun ht => hothers .rewrite (fun he => by cases he) (h.task ht)⟩
      by_cases hdc : d = c
      · subst hdc
        rw [set_self] at hd
        cases hd
      · rw [set_of_ne _ _ hdc] at hd
        exact hothers (.client d) (fun he => hdc (Party.client.inj he)) (h.client d hd)
  | startRewrite | finishRewrite | abortRewrite reason =>
      refine ⟨fun d hd => hothers (.client d) (fun he => by cases he) (h.client d hd), fun ht => ?_⟩
      cases ht

/-! ## Every step keeps the flag of the rewrite -/

theorem client_writer [DecidableEq Call] (w : World host Call) (c : Call)
    (stage : Stage host Call) :
    (w.client c stage).writer = w.writer ∧ (w.client c stage).task = w.task := by
  unfold World.client
  cases stage with
  | waiting cmd aofFrame => cases w.gate <;> exact ⟨rfl, rfl⟩
  | applied p =>
      dsimp only
      split_ifs <;> exact ⟨rfl, rfl⟩
  | acknowledged p result => cases result <;> exact ⟨rfl, rfl⟩
  | _ => exact ⟨rfl, rfl⟩

theorem busy_rewrite (h : w.writer.stats.rewriteInProgress = w.task.busy) (result : TaskResult) :
    (w.rewrite result).writer.stats.rewriteInProgress = (w.rewrite result).task.busy := by
  have hbusy : w.task ≠ .idle → w.writer.stats.rewriteInProgress = true := fun hne => by
    cases hb : w.task.busy with
    | true => rw [h, hb]
    | false => exact (hne (TaskStage.eq_idle hb)).elim
  unfold World.rewrite
  cases ht : w.task with
  | idle | starting | finishing | aborting => exact h
  | ending answer => rfl
  | pausing =>
      cases w.gate with
      | some party => exact h
      | none => exact hbusy (by rw [ht]; exact fun he => by cases he)
  | holding | captured => exact hbusy (by rw [ht]; exact fun he => by cases he)
  | started answer => cases answer <;> exact hbusy (by rw [ht]; exact fun he => by cases he)
  | opening capture => cases result <;> exact hbusy (by rw [ht]; exact fun he => by cases he)
  | writing capture left =>
      have hwriting := hbusy (by rw [ht]; exact fun he => by cases he)
      cases left with
      | nil => cases result <;> exact hwriting
      | cons e left =>
          dsimp only
          cases writeSnapshotEntry w.clock e.1 e.2 with
          | error reason => exact hwriting
          | ok bytes =>
              dsimp only
              rcases w.temp.push bytes 0 result with ⟨reason | _, temp⟩ <;> exact hwriting

theorem busy_deliver [DecidableEq Call] (h : w.writer.stats.rewriteInProgress = w.task.busy)
    {m : Message Call} (ha : w.Awaited m) (queue : List (Message Call)) (policy : FsyncPolicy)
    (calls : Writer.WriteCalls) (finish : Writer.FinishCalls) :
    let w' := { w with queue := queue }.deliver policy calls finish m
    w'.writer.stats.rewriteInProgress = w'.task.busy := by
  cases m with
  | write c bytes =>
      have hflag := write_rewriteInProgress policy bytes calls w.writer
      unfold World.deliver World.acknowledge
      dsimp only
      split
      · exact hflag.trans h
      · exact hflag.trans h
  | startRewrite =>
      have ht : w.task = .starting := ha
      rw [ht] at h
      unfold World.deliver Writer.startRewrite
      dsimp only
      split_ifs <;> exact h
  | finishRewrite =>
      obtain ⟨capture, ht⟩ := ha
      rw [ht] at h
      exact (finishRewrite_rewriteInProgress policy _ w.writer).trans h
  | abortRewrite reason =>
      have ht : w.task = .aborting reason := ha
      rw [ht] at h
      exact h

/-! ## Every turn lowers the rank -/

theorem rank_lt_of_client {callers : Finset Call} {c : Call} (hmem : c ∈ callers)
    (hothers : ∀ d, d ≠ c → w'.clients d = w.clients d) {stage stage' : Stage host Call}
    (hc : w.clients c = some stage) (hc' : w'.clients c = some stage')
    (hlt : stage'.rank < stage.rank) (htask : w'.task = w.task) :
    w'.rank callers < w.rank callers := by
  unfold rank
  rw [Prod.Lex.toLex_lt_toLex, htask]
  refine .inl (Nat.add_lt_add_right (Finset.sum_lt_sum (fun d _ => ?_) ⟨c, hmem, ?_⟩) _)
  · by_cases hdc : d = c
    · rw [hdc, hc, hc']
      exact hlt.le
    · rw [hothers d hdc]
  · rw [hc, hc']
    exact hlt

theorem rank_lt_of_task {callers : Finset Call} (hclients : w'.clients = w.clients)
    (hlt : w'.task.rank < w.task.rank ∨
      w'.task.rank = w.task.rank ∧ w'.task.left < w.task.left) :
    w'.rank callers < w.rank callers := by
  unfold rank
  rw [Prod.Lex.toLex_lt_toLex, hclients]
  rcases hlt with hlt | ⟨heq, hlt⟩
  · exact .inl (Nat.add_lt_add_left hlt _)
  · exact .inr ⟨by rw [heq], hlt⟩

theorem client_others [DecidableEq Call] (w : World host Call) {c d : Call} (hd : d ≠ c)
    (stage : Stage host Call) : (w.client c stage).clients d = w.clients d := by
  unfold World.client
  cases stage with
  | waiting cmd aofFrame =>
      cases w.gate with
      | some party => rfl
      | none => exact set_of_ne _ _ hd
  | applied p =>
      dsimp only
      split_ifs
      · exact set_of_ne _ _ hd
      · exact set_of_ne _ _ hd
  | acknowledged p result => cases result <;> exact set_of_ne _ _ hd
  | holding | releasing => exact set_of_ne _ _ hd
  | appending | answered => rfl

/-- A client that does not wait comes to a lower stage. -/
theorem client_spec [DecidableEq Call] {c : Call} {stage : Stage host Call}
    (hr : stage.ready w.gate.isNone = true) :
    ∃ stage', (w.client c stage).clients c = some stage' ∧ stage'.rank < stage.rank := by
  unfold World.client
  cases stage with
  | waiting cmd aofFrame =>
      cases hg : w.gate with
      | some party =>
          rw [hg] at hr
          cases hr
      | none => exact ⟨_, set_self _ _ _, by simp [Stage.rank]⟩
  | holding cmd aofFrame =>
      refine ⟨_, set_self _ _ _, ?_⟩
      split
      · simp [Stage.rank]
      · split <;> simp [Stage.rank]
  | applied p =>
      dsimp only
      split_ifs
      · exact ⟨_, set_self _ _ _, by simp [Stage.rank]⟩
      · exact ⟨_, set_self _ _ _, by simp [Stage.rank]⟩
  | appending p => cases hr
  | acknowledged p result => cases result <;> exact ⟨_, set_self _ _ _, by simp [Stage.rank]⟩
  | releasing result => exact ⟨_, set_self _ _ _, by simp [Stage.rank]⟩
  | answered result => cases hr

theorem rewrite_clients (w : World host Call) (result : TaskResult) :
    (w.rewrite result).clients = w.clients := by
  unfold World.rewrite
  cases w.task with
  | pausing => cases w.gate <;> rfl
  | started answer => cases answer <;> rfl
  | opening capture => cases result <;> rfl
  | writing capture left =>
      cases left with
      | nil => cases result <;> rfl
      | cons e left =>
          dsimp only
          cases writeSnapshotEntry w.clock e.1 e.2 with
          | error reason => rfl
          | ok bytes =>
              dsimp only
              rcases w.temp.push bytes 0 result with ⟨reason | _, temp⟩ <;> rfl
  | _ => rfl

/-- The task comes to a lower stage, or has one entry less to write. -/
theorem rewrite_spec (hr : w.task.ready w.gate.isNone = true) (result : TaskResult) :
    (w.rewrite result).task.rank < w.task.rank ∨
      (w.rewrite result).task.rank = w.task.rank ∧
        (w.rewrite result).task.left < w.task.left := by
  unfold World.rewrite
  cases ht : w.task with
  | idle | starting | finishing | aborting =>
      rw [ht] at hr
      cases hr
  | pausing =>
      rw [ht] at hr
      cases hg : w.gate with
      | some party =>
          rw [hg] at hr
          cases hr
      | none => exact .inl (by simp [TaskStage.rank])
  | holding | captured | ending => exact .inl (by simp [TaskStage.rank])
  | started answer => cases answer <;> exact .inl (by simp [TaskStage.rank])
  | opening capture => cases result <;> exact .inl (by simp [TaskStage.rank, World.abort])
  | writing capture left =>
      cases left with
      | nil => cases result <;> exact .inl (by simp [TaskStage.rank, World.abort])
      | cons e left =>
          dsimp only
          cases writeSnapshotEntry w.clock e.1 e.2 with
          | error reason => exact .inl (by simp [TaskStage.rank, World.abort])
          | ok bytes =>
              dsimp only
              rcases w.temp.push bytes 0 result with ⟨reason | _, temp⟩
              · exact .inl (by simp [TaskStage.rank, World.abort])
              · exact .inr ⟨rfl, Nat.lt_succ_self _⟩

theorem Attended.deliver_rank [DecidableEq Call] {callers : Finset Call}
    (h : w.Attended callers) {m : Message Call} {queue : List (Message Call)}
    (hq : w.queue = m :: queue) (policy : FsyncPolicy) (calls : Writer.WriteCalls)
    (finish : Writer.FinishCalls) :
    ({ w with queue := queue }.deliver policy calls finish m).rank callers < w.rank callers := by
  have ha := h.orderly.awaited m (hq ▸ List.mem_cons_self)
  cases m with
  | write c bytes =>
      obtain ⟨p, hc, -⟩ := ha
      have hmem : c ∈ callers := (h.callers c).mp (by rw [hc]; rfl)
      unfold World.deliver World.acknowledge
      dsimp only
      rw [hc]
      exact rank_lt_of_client hmem (fun d hd => set_of_ne _ _ hd) hc (set_self _ _ _)
        (by simp [Stage.rank]) rfl
  | startRewrite =>
      have ht : w.task = .starting := ha
      exact rank_lt_of_task rfl (.inl (by rw [ht]; simp [World.deliver, TaskStage.rank]))
  | finishRewrite =>
      obtain ⟨capture, ht⟩ := ha
      exact rank_lt_of_task rfl (.inl (by rw [ht]; simp [World.deliver, TaskStage.rank]))
  | abortRewrite reason =>
      have ht : w.task = .aborting reason := ha
      exact rank_lt_of_task rfl (.inl (by rw [ht]; simp [World.deliver, TaskStage.rank]))

/-! ## Steps -/

section
variable {callers : Finset Call}

theorem Attended.congr (h : w.Attended callers) (hs : SameParties w w')
    (hflag : w'.writer.stats.rewriteInProgress = w.writer.stats.rewriteInProgress) :
    w'.Attended callers where
  orderly := h.orderly.congr hs
  busy := by
    rw [hflag, hs.task]
    exact h.busy
  expected := h.expected.congr hs
  callers := hs.clients ▸ h.callers

theorem Attended.rewrite (h : w.Attended callers) (result : TaskResult) :
    (w.rewrite result).Attended callers where
  orderly := h.orderly.rewrite result
  busy := busy_rewrite h.busy result
  expected := h.expected.rewrite_step result
  callers := (rewrite_clients w result).symm ▸ h.callers

theorem Attended.schedule (h : w.Attended callers) : w.schedule.Attended callers := by
  have hbusy := h.busy
  refine ⟨h.orderly.schedule hbusy, ?_, ?_, ?_⟩
  all_goals unfold World.schedule
  all_goals split_ifs with hp
  · exact hbusy
  · rfl
  · exact h.expected
  · exact h.expected.advance rfl (.inl ⟨rfl, rfl⟩)
  · exact h.callers
  · exact h.callers

theorem attended_start (now : ExpireAt) (db : Db host) (file : Bytes) :
    (start now db file : World host Call).Attended ∅ where
  orderly := orderly_start now db file
  busy := rfl
  expected := ⟨fun c hc => (by cases hc), fun ht => (by cases ht)⟩
  callers c := iff_of_false (fun hc => by cases hc) (Finset.notMem_empty c)

variable [DecidableEq Call]

/-- A client that is there goes on; the others stay. -/
theorem Attended.stay (h : w.Attended callers) {c : Call} (hmem : c ∈ callers)
    (hothers : ∀ d, d ≠ c → w'.clients d = w.clients d) (hc : (w'.clients c).isSome = true) :
    ∀ d, (w'.clients d).isSome = true ↔ d ∈ callers := fun d => by
  by_cases hdc : d = c
  · subst hdc
    exact iff_of_true hc hmem
  · rw [hothers d hdc]
    exact h.callers d

theorem client_isSome {c : Call} {stage : Stage host Call} (hc : w.clients c = some stage) :
    ((w.client c stage).clients c).isSome = true := by
  have hset : ∀ (w' : World host Call) stage', ((w'.set c stage').clients c).isSome = true :=
    fun w' stage' => by rw [set_self]; rfl
  have hsame : (w.clients c).isSome = true := by rw [hc]; rfl
  unfold World.client
  cases stage with
  | waiting cmd aofFrame =>
      cases w.gate with
      | some party => exact hsame
      | none => exact hset _ _
  | applied p =>
      dsimp only
      split_ifs
      · exact hset _ _
      · exact hset _ _
  | acknowledged p result => cases result <;> exact hset _ _
  | holding | releasing => exact hset _ _
  | appending | answered => exact hsame

theorem Attended.client (h : w.Attended callers) {c : Call} {stage : Stage host Call}
    (hc : w.clients c = some stage) : (w.client c stage).Attended callers where
  orderly := h.orderly.client hc
  busy := by
    obtain ⟨hwriter, htask⟩ := client_writer w c stage
    rw [hwriter, htask]
    exact h.busy
  expected := h.expected.client_step stage
  callers := h.stay ((h.callers c).mp (by rw [hc]; rfl)) (fun d hd => client_others w hd stage)
    (client_isSome hc)

theorem Attended.deliver (h : w.Attended callers) {m : Message Call} {queue : List (Message Call)}
    (hq : w.queue = m :: queue) (policy : FsyncPolicy) (calls : Writer.WriteCalls)
    (finish : Writer.FinishCalls) :
    ({ w with queue := queue }.deliver policy calls finish m).Attended callers where
  orderly := h.orderly.deliver hq policy calls finish
  busy := busy_deliver h.busy (h.orderly.awaited m (hq ▸ List.mem_cons_self)) queue policy calls
    finish
  expected := h.expected.deliver h.orderly hq policy calls finish
  callers := by
    have ha := h.orderly.awaited m (hq ▸ List.mem_cons_self)
    cases m with
    | write c bytes =>
        obtain ⟨p, hc, -⟩ := ha
        unfold World.deliver World.acknowledge
        dsimp only
        rw [hc]
        exact h.stay ((h.callers c).mp (by rw [hc]; rfl)) (fun d hd => set_of_ne _ _ hd)
          (by rw [set_self]; rfl)
    | _ => exact h.callers

/-- A request adds its client to those who wait, or is not taken. -/
theorem Attended.request (h : w.Attended callers) (c : Call) {cmd : Command}
    (hcmd : cmd.FromClient) : ∃ callers', (w.request c cmd).Attended callers' := by
  have ho := h.orderly.request (c := c) hcmd
  unfold World.request at ho ⊢
  cases hc : w.clients c with
  | some stage => exact ⟨callers, h⟩
  | none =>
      rw [hc] at ho
      dsimp only at ho ⊢
      split_ifs at ho ⊢
      · refine ⟨insert c callers, ho, h.busy, h.expected.move rfl rfl rfl rfl, fun d => ?_⟩
        rw [Finset.mem_insert]
        by_cases hdc : d = c
        · subst hdc
          rw [set_self]
          exact iff_of_true rfl (.inl rfl)
        · rw [set_of_ne _ _ hdc, h.callers d, or_iff_right hdc]
      · exact ⟨callers, h⟩

end
end World

/-- The commands come from clients. -/
def Event.Sent : Event Call → Prop
  | .request _ cmd => cmd.FromClient
  | _ => True

namespace World
variable [DecidableEq Call] {w : World host Call} {callers : Finset Call}

theorem Attended.step (h : w.Attended callers) (policy : FsyncPolicy) {e : Event Call}
    (he : e.Sent) : ∃ callers', (step policy e w).Attended callers' := by
  have hsame : ∀ w' : World host Call, SameParties w w' →
      w'.writer.stats.rewriteInProgress = w.writer.stats.rewriteInProgress →
      ∃ callers', w'.Attended callers' := fun w' hs hf => ⟨callers, h.congr hs hf⟩
  unfold World.step
  cases e with
  | pass ms => exact hsame _ ⟨rfl, rfl, rfl, rfl, rfl⟩ rfl
  | read cmd =>
      dsimp only
      split_ifs
      · exact ⟨callers, h⟩
      · exact hsame _ ⟨rfl, rfl, rfl, rfl, rfl⟩ rfl
  | sweep => exact hsame _ ⟨rfl, rfl, rfl, rfl, rfl⟩ rfl
  | request c cmd => exact h.request c he
  | client c =>
      dsimp only
      cases hc : w.clients c with
      | none => exact ⟨callers, h⟩
      | some stage => exact ⟨callers, h.client hc⟩
  | schedule => exact ⟨callers, h.schedule⟩
  | rewrite result => exact ⟨callers, h.rewrite result⟩
  | writer calls finish =>
      dsimp only
      cases hq : w.queue with
      | nil => exact ⟨callers, h⟩
      | cons m queue => exact ⟨callers, h.deliver hq policy calls finish⟩
  | tick syncData =>
      refine hsame _ ⟨rfl, rfl, rfl, rfl, rfl⟩ ?_
      dsimp only
      split_ifs
      · cases syncData <;> rfl
      · rfl
  | land => exact hsame _ ⟨rfl, rfl, rfl, rfl, rfl⟩ rfl

/-- All clients have their answers, and nothing is under way. -/
structure Finished (callers : Finset Call) (w : World host Call) : Prop where
  atRest : w.AtRest
  answered : ∀ c ∈ callers, ∃ result, w.clients c = some (.answered result)

/-- A turn that is ready brings the server closer to rest, and there is one until then. -/
theorem descends (policy : FsyncPolicy) (callers : Finset Call) :
    Descends (fun (t : Turn Call) a (w : World host Call) => World.step policy (t.event a) w)
      (Attended callers) (fun t w => w.ready t = true) (Finished callers) (rank callers) where
  keeps w t a h ht := by
    cases t with
    | client c =>
        unfold World.step Turn.event
        dsimp only
        cases hc : w.clients c with
        | none => exact h
        | some stage => exact h.client hc
    | rewrite => exact h.rewrite a.result
    | writer =>
        unfold World.step Turn.event
        dsimp only
        cases hq : w.queue with
        | nil => exact h
        | cons m queue => exact h.deliver hq policy a.calls a.finish
  descends w t a h ht := by
    cases t with
    | client c =>
        unfold ready at ht
        unfold World.step Turn.event
        dsimp only at ht ⊢
        cases hc : w.clients c with
        | none =>
            rw [hc] at ht
            cases ht
        | some stage =>
            rw [hc, Option.any_some] at ht
            obtain ⟨stage', hc', hlt⟩ := client_spec ht
            exact rank_lt_of_client ((h.callers c).mp (by rw [hc]; rfl))
              (fun d hd => client_others w hd stage) hc hc' hlt (client_writer w c stage).2
    | rewrite => exact rank_lt_of_task (rewrite_clients w a.result) (rewrite_spec ht a.result)
    | writer =>
        unfold ready at ht
        unfold World.step Turn.event
        dsimp only at ht ⊢
        cases hq : w.queue with
        | nil =>
            rw [hq] at ht
            cases ht
        | cons m queue => exact h.deliver_rank hq policy a.calls a.finish
  ready w h hrest := by
    refine h.exists_ready fun hat => hrest ⟨hat, fun c hc => ?_⟩
    obtain ⟨stage, hs⟩ := Option.isSome_iff_exists.mp ((h.callers c).mpr hc)
    obtain ⟨result, rfl⟩ := hat.answered c stage hs
    exact ⟨result, hs⟩

theorem attended_run (policy : FsyncPolicy) {events : List (Event Call)}
    (he : ∀ e ∈ events, e.Sent) (h : w.Attended callers) :
    ∃ callers', (run (World.step policy) events w).Attended callers' := by
  induction events generalizing w callers with
  | nil => exact ⟨callers, h⟩
  | cons e events ih =>
      obtain ⟨hfirst, hrest⟩ := List.forall_mem_cons.mp he
      obtain ⟨callers', h'⟩ := h.step policy hfirst
      exact ih hrest h'

/-- Wherever a run stops, some turns answer every client and end the rewrite, whatever fails in
them, and no turns that are ready go on for ever. -/
theorem every_client_answered (policy : FsyncPolicy) (now : ExpireAt) (db : Db host)
    (file : Bytes) (events : List (Event Call)) (he : ∀ e ∈ events, e.Sent) :
    let w := run (World.step policy) events (start now db file)
    (∀ answer : Turn Call → World host Call → Answers, ∃ turns : List (Turn Call),
      let step := fun (t : Turn Call) w => World.step policy (t.event (answer t w)) w
      (∀ x ∈ taken step turns w, x.1.ready x.2 = true) ∧ (run step turns w).AtRest ∧
        ∀ c, (w.clients c).isSome = true →
          ∃ result, (run step turns w).clients c = some (.answered result)) ∧
    ∀ s : ℕ → World host Call, s 0 = w → ¬ ∀ n, ∃ (t : Turn Call) (a : Answers),
      (s n).ready t = true ∧ s (n + 1) = World.step policy (t.event a) (s n) := by
  intro w
  obtain ⟨callers, h⟩ := attended_run policy he (attended_start now db file)
  have hdescends := @descends host _ _ policy callers
  refine ⟨fun answer => ?_, fun s hs hall => hdescends.not_forever (s := s) (hs ▸ h) hall⟩
  obtain ⟨turns, hready, hrest⟩ := hdescends.comes_to_rest answer h
  exact ⟨turns, hready, hrest.atRest, fun c hc => hrest.answered c ((h.callers c).mp hc)⟩

/-- A write that has the gate and has sent its frame, another one that waits, and a rewrite. -/
def busyEvents : List (Event ℕ) :=
  (writeEvents 0 (.set [107] [118] (some 1100))).take 4 ++
    [.request 1 (.persist [107]), .schedule]

theorem sent_busyEvents : ∀ e ∈ busyEvents, e.Sent := by
  have hpersist : (Command.persist [107]).FromClient :=
    Server.fromClient_of_args 0 _ (by decide) (by decide) (Server.fromFrame_persistFrame 0)
  simp [busyEvents, writeEvents, Event.Sent, Server.fromClient_set, hpersist]

theorem every_client_answered_busy : ∃ turns : List (Turn ℕ),
    (run (fun t w => World.step .always (t.event ⟨.ok (.ok ()), {}, { openTemp := .ok [] }⟩) w)
      turns
      (run (World.step .always) busyEvents
        (start 1000 (Db.new : Db Server.oneShard) []))).AtRest := by
  obtain ⟨turns, -, hrest, -⟩ := (every_client_answered .always 1000
    (Db.new : Db Server.oneShard) [] busyEvents sent_busyEvents).1
      fun _ _ => ⟨.ok (.ok ()), {}, { openTemp := .ok [] }⟩
  exact ⟨turns, hrest⟩

end World
end MiniRedis.RewriteProtocol
