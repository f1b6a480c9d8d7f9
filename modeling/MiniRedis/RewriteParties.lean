import MiniRedis.LoggedSizes
import MiniRedis.RewriteProtocol

/-!
# The gate and the messages of a rewrite

At most one task holds the gate, and the stages of the tasks tell which one. Every task has at
most one message in the queue of the writer, and waits for its acknowledgement. A write that
the writer has acknowledged is in the history once; its task has the acknowledgement or has
answered its client.
-/
namespace MiniRedis.RewriteProtocol
open Aof Compaction

variable {host : Host} {Call : Type}

/-! ## Stages -/

namespace Stage

/-- The task holds the gate. -/
def holds : Stage host Call → Bool
  | waiting .. | answered _ => false
  | _ => true

/-- The write was executed, and the writer's answer is open or negative. -/
def pending : Stage host Call → Option (Pending host Call)
  | applied p | appending p | acknowledged p (.error _) => some p
  | _ => none

/-- The writer has acknowledged the write. -/
def recorded : Stage host Call → Bool
  | acknowledged _ (.ok ()) => true
  | releasing (.ok reply) | answered (.ok reply) => !reply.isError
  | _ => false

/-- The frame of a write is waiting for the writer. -/
def sent : Stage host Call → Bool
  | appending _ => true
  | _ => false

def Sound (c : Call) : Stage host Call → Prop
  | waiting cmd aofFrame | holding cmd aofFrame => cmd.FromClient ∧ aofFrame.isSome = true
  | applied p | appending p | acknowledged p _ => p.write.call = c
  | _ => True

end Stage

namespace TaskStage

/-- The task holds the gate. -/
def holds : TaskStage → Bool
  | holding | starting | started _ | captured _ => true
  | _ => false

/-- A message of the task is waiting for the writer. -/
def sent : TaskStage → Bool
  | starting | finishing _ | aborting _ => true
  | _ => false

/-- There is a task. -/
def busy : TaskStage → Bool
  | idle => false
  | _ => true

theorem eq_idle {t : TaskStage} (h : t.busy = false) : t = idle := by
  cases t with
  | idle => rfl
  | _ => cases h

end TaskStage

def Message.sender : Message Call → Party Call
  | write c _ => .client c
  | _ => .rewrite

namespace World
variable {w w' : World host Call}

/-- The stage in which the sender of a message waits for it. -/
def Awaited (w : World host Call) : Message Call → Prop
  | .write c bytes => ∃ p, w.clients c = some (.appending p) ∧ p.write.bytes = bytes
  | .startRewrite => w.task = .starting
  | .finishRewrite => ∃ capture, w.task = .finishing capture
  | .abortRewrite reason => w.task = .aborting reason

/-- The calls of the writes that the writer has acknowledged. -/
def calls (w : World host Call) : List Call := (records w.history).map Write.call

structure Orderly (w : World host Call) : Prop where
  sound : ∀ c stage, w.clients c = some stage → stage.Sound c
  gate_client : ∀ c, w.gate = some (.client c) ↔ (w.clients c).any Stage.holds = true
  gate_rewrite : w.gate = some .rewrite ↔ w.task.holds = true
  awaited : ∀ m ∈ w.queue, w.Awaited m
  senders : (w.queue.map Message.sender).Nodup
  recorded : ∀ c, c ∈ w.calls ↔ (w.clients c).any Stage.recorded = true
  once : w.calls.Nodup

theorem orderly_start (now : ExpireAt) (db : Db host) (file : Bytes) :
    (start now db file : World host Call).Orderly where
  sound _ _ h := nomatch h
  gate_client _ := ⟨nofun, nofun⟩
  gate_rewrite := ⟨nofun, nofun⟩
  awaited _ h := nomatch h
  senders := List.nodup_nil
  recorded _ := ⟨nofun, nofun⟩
  once := List.nodup_nil

/-- The parts that say who does what are the same. -/
structure SameParties (w w' : World host Call) : Prop where
  gate : w'.gate = w.gate
  clients : w'.clients = w.clients
  task : w'.task = w.task
  queue : w'.queue = w.queue
  history : w'.history = w.history

theorem Orderly.congr (h : w.Orderly) (hs : SameParties w w') : w'.Orderly where
  sound := hs.clients ▸ h.sound
  gate_client := by rw [hs.gate, hs.clients]; exact h.gate_client
  gate_rewrite := by rw [hs.gate, hs.task]; exact h.gate_rewrite
  awaited := by
    intro m hm
    have ha := h.awaited m (hs.queue ▸ hm)
    cases m with
    | write c bytes =>
        unfold Awaited
        rw [hs.clients]
        exact ha
    | _ =>
        unfold Awaited
        rw [hs.task]
        exact ha
  senders := by rw [hs.queue]; exact h.senders
  recorded := by unfold calls; rw [hs.history, hs.clients]; exact h.recorded
  once := by unfold calls; rw [hs.history]; exact h.once

/-- A change of the database alone. -/
theorem Orderly.withDb (h : w.Orderly) (db : Db host) : ({ w with db := db }).Orderly :=
  h.congr ⟨rfl, rfl, rfl, rfl, rfl⟩

/-! ## Messages -/

/-- A task whose stage waits for no message has none in the queue. -/
theorem Orderly.sender_ne_rewrite (h : w.Orderly) (ht : w.task.sent = false) :
    ∀ m ∈ w.queue, m.sender ≠ .rewrite := by
  intro m hm hs
  have ha := h.awaited m hm
  cases m with
  | write c bytes => cases hs
  | startRewrite =>
      rw [show w.task = .starting from ha] at ht
      cases ht
  | finishRewrite =>
      obtain ⟨capture, ha⟩ := ha
      rw [ha] at ht
      cases ht
  | abortRewrite reason =>
      rw [show w.task = .aborting reason from ha] at ht
      cases ht

theorem Orderly.sender_ne_client (h : w.Orderly) {c : Call}
    (hc : (w.clients c).any Stage.sent = false) : ∀ m ∈ w.queue, m.sender ≠ .client c := by
  intro m hm hs
  have ha := h.awaited m hm
  cases m with
  | write d bytes =>
      obtain rfl : d = c := Party.client.inj hs
      obtain ⟨p, ha, -⟩ := ha
      rw [ha] at hc
      cases hc
  | _ => cases hs

theorem Awaited.of_clients {m : Message Call} (ha : w.Awaited m) (htask : w'.task = w.task)
    {c : Call} (hclients : ∀ d, d ≠ c → w'.clients d = w.clients d) (hs : m.sender ≠ .client c) :
    w'.Awaited m := by
  cases m with
  | write d bytes =>
      obtain ⟨p, ha, hb⟩ := ha
      have hd : d ≠ c := fun hd => hs (congrArg Party.client hd)
      exact ⟨p, (hclients d hd).trans ha, hb⟩
  | _ =>
      unfold Awaited
      rw [htask]
      exact ha

theorem Awaited.of_task {m : Message Call} (ha : w.Awaited m)
    (hclients : w'.clients = w.clients) (hs : m.sender ≠ .rewrite) : w'.Awaited m := by
  cases m with
  | write d bytes =>
      obtain ⟨p, ha, hb⟩ := ha
      exact ⟨p, by rw [hclients, ha], hb⟩
  | _ => exact (hs rfl).elim

/-- A message behind all others, if its sender has none of them. -/
theorem nodup_senders {queue : List (Message Call)} (h : (queue.map Message.sender).Nodup)
    {m : Message Call} (hm : ∀ m' ∈ queue, m'.sender ≠ m.sender) :
    ((queue ++ [m]).map Message.sender).Nodup := by
  rw [List.map_append, List.nodup_append]
  refine ⟨h, List.nodup_singleton _, fun s hs s' hs' => ?_⟩
  obtain ⟨m', hm', rfl⟩ := List.mem_map.mp hs
  obtain rfl := List.mem_singleton.mp hs'
  exact hm m' hm'

section
variable [DecidableEq Call]

/-! ## A client moves -/

theorem set_of_ne (w : World host Call) {c d : Call} (stage : Stage host Call) (hd : d ≠ c) :
    (w.set c stage).clients d = w.clients d := Function.update_of_ne hd _ _

theorem set_self (w : World host Call) (c : Call) (stage : Stage host Call) :
    (w.set c stage).clients c = some stage := Function.update_self _ _ _

/-- A client's task goes to another stage; the gate and the queue follow it. -/
theorem Orderly.set (h : w.Orderly) {c : Call} (stage : Stage host Call)
    {gate : Option (Party Call)} {queue : List (Message Call)} (hsound : stage.Sound c)
    (hgate : ∀ p, p ≠ .client c → (gate = some p ↔ w.gate = some p))
    (hholds : gate = some (.client c) ↔ stage.holds = true)
    (hawaited : ∀ m ∈ queue, m ∈ w.queue ∧ m.sender ≠ .client c ∨
      ∃ p, stage = .appending p ∧ m = .write c p.write.bytes)
    (hsenders : (queue.map Message.sender).Nodup)
    (hrecorded : stage.recorded = (w.clients c).any Stage.recorded) :
    ({ w with gate := gate, queue := queue }.set c stage).Orderly where
  sound d s hd := by
    by_cases hdc : d = c
    · subst hdc
      rw [set_self] at hd
      exact Option.some.inj hd ▸ hsound
    · rw [set_of_ne _ _ hdc] at hd
      exact h.sound d s hd
  gate_client d := by
    by_cases hdc : d = c
    · subst hdc
      rw [set_self, Option.any_some]
      exact hholds
    · rw [set_of_ne _ _ hdc]
      exact (hgate (.client d) fun he => hdc (Party.client.inj he)).trans (h.gate_client d)
  gate_rewrite := (hgate .rewrite nofun).trans h.gate_rewrite
  awaited m hm := by
    rcases hawaited m hm with ⟨hm, hs⟩ | ⟨p, rfl, rfl⟩
    · exact (h.awaited m hm).of_clients rfl (fun d hd => set_of_ne _ _ hd) hs
    · exact ⟨p, set_self _ _ _, rfl⟩
  senders := hsenders
  recorded d := by
    refine (h.recorded d).trans ?_
    by_cases hdc : d = c
    · subst hdc
      rw [set_self, Option.any_some, hrecorded]
    · rw [set_of_ne _ _ hdc]
  once := h.once

/-- A client that waits for no message moves, and the gate stays with its holder. -/
theorem Orderly.move (h : w.Orderly) {c : Call} (stage : Stage host Call)
    (hc : (w.clients c).any Stage.sent = false) (hsound : stage.Sound c)
    (hholds : stage.holds = (w.clients c).any Stage.holds)
    (hrecorded : stage.recorded = (w.clients c).any Stage.recorded) : (w.set c stage).Orderly :=
  h.set stage hsound (fun _ _ => Iff.rfl) (by rw [hholds]; exact h.gate_client c)
    (fun m hm => Or.inl ⟨hm, h.sender_ne_client hc m hm⟩) h.senders hrecorded

theorem Orderly.execute (h : w.Orderly) {c : Call} {cmd : Command} {aofFrame : Option Frame}
    (hc : w.clients c = some (.holding cmd aofFrame)) : (w.execute c cmd aofFrame).Orderly := by
  have hframe := (h.sound c _ hc).2
  have moved : ∀ stage : Stage host Call, stage.Sound c → stage.holds = true →
      stage.recorded = false →
      ({ w with db := (cmd.apply w.clock w.db).2 }.set c stage).Orderly := by
    intro stage hsound hholds hrecorded
    refine (h.withDb _).move stage ?_ hsound ?_ ?_
    · rw [hc]
      rfl
    · rw [hholds, hc]
      rfl
    · rw [hrecorded, hc]
      rfl
  unfold World.execute
  dsimp only
  by_cases he : (cmd.apply w.clock w.db).1.isError = true
  · rw [dif_pos he]
    refine moved _ trivial rfl ?_
    change (!_) = false
    rw [he]
    rfl
  · rw [dif_neg he]
    cases aofFrame with
    | none => cases hframe
    | some frame => exact moved _ rfl rfl rfl

/-- Every step of a connection task. -/
theorem Orderly.client (h : w.Orderly) {c : Call} {stage : Stage host Call}
    (hc : w.clients c = some stage) : (w.client c stage).Orderly := by
  have hsound := h.sound c stage hc
  have hholds := h.gate_client c
  rw [hc, Option.any_some] at hholds
  cases stage with
  | waiting cmd aofFrame =>
      unfold World.client
      cases hg : w.gate with
      | some party => exact h
      | none =>
          have hsent : (w.clients c).any Stage.sent = false := by rw [hc]; rfl
          refine h.set _ hsound (fun p hp => ?_) (iff_of_true rfl rfl)
            (fun m hm => Or.inl ⟨hm, h.sender_ne_client hsent m hm⟩) h.senders ?_
          · rw [hg]
            exact iff_of_false (fun hs => hp (Option.some.inj hs).symm) (fun hs => by cases hs)
          · rw [hc]
            rfl
  | holding cmd aofFrame => exact h.execute hc
  | applied p =>
      have hsent : (w.clients c).any Stage.sent = false := by rw [hc]; rfl
      unfold World.client
      split_ifs
      · refine h.move _ hsent hsound ?_ ?_
        · rw [hc]
          rfl
        · rw [hc]
          rfl
      · refine h.set (.appending p) hsound (fun _ _ => Iff.rfl) ?_ ?_
          (nodup_senders h.senders (h.sender_ne_client hsent)) ?_
        · exact hholds
        · intro m hm
          rcases List.mem_append.mp hm with hm | hm
          · exact Or.inl ⟨hm, h.sender_ne_client hsent m hm⟩
          · exact Or.inr ⟨p, rfl, List.mem_singleton.mp hm⟩
        · rw [hc]
          rfl
  | appending p => exact h
  | acknowledged p result =>
      have hsent : (w.clients c).any Stage.sent = false := by rw [hc]; rfl
      cases result with
      | ok =>
          refine h.move (.releasing (.ok p.reply)) hsent trivial ?_ ?_
          · rw [hc]
            rfl
          · rw [hc]
            change (!p.reply.isError) = true
            rw [p.succeeded]
            rfl
      | error e =>
          refine (h.withDb (w.db.restoreEntries p.rollback)).move (.releasing (.error _))
            hsent trivial ?_ ?_
          · rw [hc]
            rfl
          · rw [hc]
            rfl
  | releasing result =>
      have hsent : (w.clients c).any Stage.sent = false := by rw [hc]; rfl
      have hgate : w.gate = some (.client c) := hholds.mpr rfl
      unfold World.client
      refine h.set _ trivial (fun p hp => ?_)
        (iff_of_false (fun hs => by cases hs) (fun hs => by cases hs))
        (fun m hm => Or.inl ⟨hm, h.sender_ne_client hsent m hm⟩) h.senders ?_
      · rw [hgate]
        exact iff_of_false (fun hs => by cases hs) (fun hs => hp (Option.some.inj hs).symm)
      · rw [hc]
        cases result <;> rfl
  | answered result => exact h

theorem Orderly.request (h : w.Orderly) {c : Call} {cmd : Command} (hc : cmd.FromClient) :
    (w.request c cmd).Orderly := by
  unfold World.request
  cases hw : w.clients c with
  | some stage => exact h
  | none =>
      dsimp only
      split_ifs with hwrite
      · refine h.move _ (by rw [hw]; rfl) ⟨hc, ?_⟩ ?_ ?_
        · rw [Command.aofFrame_eq, Option.isSome_map, Command.logged_isSome, hwrite]
        · rw [hw]
          rfl
        · rw [hw]
          rfl
      · exact h

/-! ## The rewrite task moves -/

omit [DecidableEq Call]

/-- The rewrite task goes to another stage; the gate and the queue follow it. -/
theorem Orderly.advance (h : w.Orderly) (hnone : ∀ m ∈ w.queue, m.sender ≠ .rewrite)
    (hclients : w'.clients = w.clients) (hcalls : w'.calls = w.calls)
    (hgate : ∀ c, w'.gate = some (.client c) ↔ w.gate = some (.client c))
    (hholds : w'.gate = some .rewrite ↔ w'.task.holds = true)
    (hqueue : w'.queue = w.queue ∨ ∃ m : Message Call, m.sender = .rewrite ∧ w'.Awaited m ∧
      w'.queue = w.queue ++ [m]) : w'.Orderly where
  sound := hclients ▸ h.sound
  gate_client c := by
    rw [hclients]
    exact (hgate c).trans (h.gate_client c)
  gate_rewrite := hholds
  awaited m hm := by
    have hold : ∀ m ∈ w.queue, w'.Awaited m := fun m hm =>
      (h.awaited m hm).of_task hclients (hnone m hm)
    rcases hqueue with hq | ⟨m', -, ha, hq⟩
    · exact hold m (hq ▸ hm)
    · rw [hq] at hm
      rcases List.mem_append.mp hm with hm | hm
      · exact hold m hm
      · exact List.mem_singleton.mp hm ▸ ha
  senders := by
    rcases hqueue with hq | ⟨m', hs, -, hq⟩
    · rw [hq]
      exact h.senders
    · rw [hq]
      exact nodup_senders h.senders fun m hm => hs ▸ hnone m hm
  recorded := by rw [hcalls, hclients]; exact h.recorded
  once := hcalls ▸ h.once

theorem Orderly.schedule (h : w.Orderly)
    (hbusy : w.writer.stats.rewriteInProgress = w.task.busy) : w.schedule.Orderly := by
  unfold World.schedule
  rw [hbusy]
  split_ifs with hp
  · exact h
  · have ht := TaskStage.eq_idle (Bool.not_eq_true _ ▸ hp)
    have hgate := h.gate_rewrite
    rw [ht] at hgate
    exact h.advance (h.sender_ne_rewrite (by rw [ht]; rfl)) rfl rfl (fun _ => Iff.rfl) hgate
      (Or.inl rfl)

/-- The task gives up. -/
theorem Orderly.abort (h : w.Orderly) (ht : w.task.sent = false) (hh : w.task.holds = false)
    (reason : String) : (w.abort reason).Orderly := by
  have hgate := h.gate_rewrite
  rw [hh] at hgate
  exact h.advance (h.sender_ne_rewrite ht) rfl rfl (fun _ => Iff.rfl) hgate
    (Or.inr ⟨.abortRewrite reason, rfl, rfl, rfl⟩)

/-- Every step of the rewrite task. -/
theorem Orderly.rewrite (h : w.Orderly) (result : TaskResult) : (w.rewrite result).Orderly := by
  have hgate := h.gate_rewrite
  have hnone := h.sender_ne_rewrite
  have dropped : w.gate = some .rewrite → ∀ c, (none : Option (Party Call)) = some (.client c) ↔
      w.gate = some (.client c) := fun hg c => by
    rw [hg]
    exact iff_of_false (fun hs => by cases hs) (fun hs => by cases hs)
  have free : (none : Option (Party Call)) = some .rewrite ↔ false = true :=
    iff_of_false (fun hs => by cases hs) Bool.false_ne_true
  unfold World.rewrite
  cases ht : w.task with
  | idle | starting | finishing | aborting => exact h
  | pausing =>
      rw [ht] at hnone
      cases hg : w.gate with
      | some party => exact h
      | none =>
          refine h.advance (hnone rfl) rfl rfl (fun c => ?_) (iff_of_true rfl rfl) (Or.inl rfl)
          rw [hg]
          exact iff_of_false (fun hs => by cases hs) (fun hs => by cases hs)
  | holding =>
      rw [ht] at hgate hnone
      exact h.advance (hnone rfl) rfl rfl (fun _ => Iff.rfl) hgate
        (Or.inr ⟨.startRewrite, rfl, rfl, rfl⟩)
  | started answer =>
      rw [ht] at hgate hnone
      cases answer with
      | error e => exact h.advance (hnone rfl) rfl rfl (dropped (hgate.mpr rfl)) free (Or.inl rfl)
      | ok => exact h.advance (hnone rfl) rfl rfl (fun _ => Iff.rfl) hgate (Or.inl rfl)
  | captured capture =>
      rw [ht] at hgate hnone
      exact h.advance (hnone rfl) rfl rfl (dropped (hgate.mpr rfl)) free (Or.inl rfl)
  | opening capture =>
      have haborted := h.abort (by rw [ht]; rfl) (by rw [ht]; rfl)
      rw [ht] at hgate hnone
      cases result with
      | error e => exact haborted e.2
      | ok => exact h.advance (hnone rfl) rfl rfl (fun _ => Iff.rfl) hgate (Or.inl rfl)
  | writing capture left =>
      have haborted := h.abort (by rw [ht]; rfl) (by rw [ht]; rfl)
      rw [ht] at hgate hnone
      cases left with
      | nil =>
          cases result with
          | error e => exact (haborted e.2).congr ⟨rfl, rfl, rfl, rfl, rfl⟩
          | ok =>
              exact h.advance (hnone rfl) rfl rfl (fun _ => Iff.rfl) hgate
                (Or.inr ⟨.finishRewrite, rfl, ⟨capture, rfl⟩, rfl⟩)
      | cons e left =>
          dsimp only
          cases writeSnapshotEntry w.clock e.1 e.2 with
          | error reason => exact haborted reason
          | ok bytes =>
              dsimp only
              rcases w.temp.push bytes 0 result with ⟨reason | _, temp⟩
              · exact (haborted reason).congr ⟨rfl, rfl, rfl, rfl, rfl⟩
              · exact h.advance (hnone rfl) rfl rfl (fun _ => Iff.rfl) hgate (Or.inl rfl)
  | ending answer =>
      rw [ht] at hgate hnone
      exact h.advance (hnone rfl) rfl rfl (fun _ => Iff.rfl) hgate (Or.inl rfl)

/-! ## The writer answers -/

/-- The writer takes the first message; its sender has no other one. -/
theorem Orderly.popped (h : w.Orderly) {m : Message Call} {queue : List (Message Call)}
    (hq : w.queue = m :: queue) : ({ w with queue := queue }).Orderly ∧ w.Awaited m ∧
      ∀ m' ∈ queue, m'.sender ≠ m.sender := by
  have hsenders := h.senders
  rw [hq, List.map_cons, List.nodup_cons] at hsenders
  refine ⟨⟨h.sound, h.gate_client, h.gate_rewrite, fun m' hm => ?_, hsenders.2, h.recorded,
      h.once⟩, h.awaited m (hq ▸ List.mem_cons_self), fun m' hm hs => ?_⟩
  · have ha := h.awaited m' (hq ▸ List.mem_cons_of_mem m hm)
    cases m' with
    | write c bytes => exact ha
    | _ => exact ha
  · exact hsenders.1 (hs ▸ List.mem_map_of_mem hm)

theorem records_marks_began (result : CallResult) :
    records (marks result (.began : Mark (Write Call) Image)) = [] := by
  cases result <;> rfl

theorem records_switched (w : World host Call) (calls : Writer.FinishCalls) :
    records (w.switched calls) = [] := by
  unfold switched
  split
  · split <;> rfl
  · rfl

theorem Orderly.acknowledge [DecidableEq Call] (h : w.Orderly) {c : Call} {p : Pending host Call}
    (hc : w.clients c = some (.appending p)) (hnone : ∀ m ∈ w.queue, m.sender ≠ .client c)
    (result : CallResult) : (w.acknowledge c result).Orderly := by
  have hp : p.write.call = c := h.sound c _ hc
  have hfresh : c ∉ w.calls := by
    rw [h.recorded c, hc]
    exact Bool.false_ne_true
  have hmoved : (w.set c (.acknowledged p (.error ""))).Orderly := by
    refine h.set _ hp (fun _ _ => Iff.rfl) ?_ (fun m hm => Or.inl ⟨hm, hnone m hm⟩) h.senders ?_
    · rw [h.gate_client c, hc]
      rfl
    · rw [hc]
      rfl
  unfold World.acknowledge
  rw [hc]
  dsimp only
  refine ⟨fun d stage hd => ?_, fun d => ?_, hmoved.gate_rewrite, fun m hm => ?_, hmoved.senders,
    fun d => ?_, ?_⟩
  · by_cases hdc : d = c
    · subst hdc
      rw [set_self] at hd
      exact Option.some.inj hd ▸ hp
    · rw [set_of_ne _ _ hdc] at hd
      exact h.sound d stage hd
  · have hg := hmoved.gate_client d
    by_cases hdc : d = c
    · subst hdc
      rw [set_self] at hg ⊢
      exact hg
    · rw [set_of_ne _ _ hdc] at hg ⊢
      exact hg
  · exact (h.awaited m hm).of_clients rfl (fun d hd => set_of_ne _ _ hd) (hnone m hm)
  · unfold calls
    have hd := h.recorded d
    unfold calls at hd
    by_cases hdc : d = c
    · subst hdc
      rw [set_self]
      cases result with
      | ok => simp [World.set, marks, hp, Stage.recorded]
      | error e =>
          have hn : d ∉ (records w.history).map Write.call := hfresh
          simpa [World.set, marks, Stage.recorded] using hn
    · rw [set_of_ne _ _ hdc, ← hd]
      cases result with
      | ok => simp [World.set, marks, hp, hdc]
      | error e => simp [World.set, marks]
  · unfold calls
    have ho := h.once
    unfold calls at ho hfresh
    cases result with
    | ok =>
        simp only [World.set, marks, records_append, records_recorded, records_nil,
          List.map_append, List.map_cons, List.map_nil, hp]
        rw [List.nodup_append]
        refine ⟨ho, List.nodup_singleton _, fun a ha b hb => ?_⟩
        rw [List.mem_singleton.mp hb]
        exact fun he => hfresh (he ▸ ha)
    | error e => simpa [World.set, marks] using ho

/-- Every message of the writer. -/
theorem Orderly.deliver [DecidableEq Call] (h : w.Orderly) {m : Message Call}
    {queue : List (Message Call)} (hq : w.queue = m :: queue) (policy : FsyncPolicy)
    (calls : Writer.WriteCalls) (finish : Writer.FinishCalls) :
    ({ w with queue := queue }.deliver policy calls finish m).Orderly := by
  obtain ⟨hpop, ha, hnone⟩ := h.popped hq
  have hgate := hpop.gate_rewrite
  cases m with
  | write c bytes =>
      obtain ⟨p, hc, -⟩ := ha
      have h' : ({ w with
          queue := queue
          writer := (w.writer.write policy bytes calls).2 }).Orderly :=
        hpop.congr ⟨rfl, rfl, rfl, rfl, rfl⟩
      exact h'.acknowledge hc hnone _
  | startRewrite =>
      have ht : w.task = .starting := ha
      rw [ht] at hgate
      refine hpop.advance hnone rfl ?_ (fun _ => Iff.rfl) hgate (Or.inl rfl)
      simp [World.calls, World.deliver, records_marks_began]
  | finishRewrite =>
      obtain ⟨capture, ht⟩ := ha
      rw [ht] at hgate
      refine hpop.advance hnone rfl ?_ (fun _ => Iff.rfl) hgate (Or.inl rfl)
      simp [World.calls, World.deliver, records_switched]
  | abortRewrite reason =>
      have ht : w.task = .aborting reason := ha
      rw [ht] at hgate
      exact hpop.advance hnone rfl rfl (fun _ => Iff.rfl) hgate (Or.inl rfl)

end
end World
end MiniRedis.RewriteProtocol
