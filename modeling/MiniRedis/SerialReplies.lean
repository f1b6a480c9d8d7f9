import MiniRedis.Linearization
import MiniRedis.ReadOnlyServer

/-!
# The replies to the writes

Writes of many clients, rewrites, sweeps, failing appends and rollbacks are interleaved. The
clients whose writes are acknowledged get the replies that these writes alone would get, one
after the other in the order of their acknowledgements.
-/
namespace MiniRedis.RewriteProtocol
open Aof Compaction Linearization Runs World

variable {host : Host} {Call : Type}

namespace Write

/-- What the command of the write answers on a database. -/
def reply (db : Db host) (r : Write Call) : Frame := (r.cmd.apply r.now db).1

theorem reply_congr {db db' : Db host} {r : Write Call} (hw : r.cmd.isWrite = true)
    (h : db.view r.now = db'.view r.now) : r.reply db = r.reply db' := by
  obtain ⟨t, ht⟩ := Option.isSome_iff_exists.mp
    ((Command.isWrite_iff_transaction r.now r.cmd).symm.trans hw)
  have hr := r.cmd.apply_refines r.now db
  have hr' := r.cmd.apply_refines r.now db'
  rw [ht] at hr hr'
  exact hr.reply.trans ((congrArg (fun ks => (t.run ks).1) h).trans hr'.reply.symm)

end Write

/-- The reply is what the call's write answers behind those before it. -/
def Replied (db : Db host) (writes : List (Write Call)) (c : Call) (reply : Frame) : Prop :=
  ∀ front r, front ++ [r] <+: writes → r.call = c → reply = r.reply (replayed db front)

section
variable {db : Db host} {writes : List (Write Call)} {c : Call} {reply : Frame}

theorem replied_of_new (h : c ∉ writes.map Write.call) : Replied db writes c reply := by
  rintro front r hr rfl
  exact (h (List.mem_map_of_mem (hr.subset (List.mem_append_right _ List.mem_cons_self)))).elim

theorem prefix_concat_cases {A : Type} {front l : List A} {a b : A}
    (h : front ++ [a] <+: l ++ [b]) : front ++ [a] <+: l ∨ front = l ∧ a = b := by
  rcases List.prefix_concat_iff.mp h with heq | hpre
  · exact .inr ((List.append_inj' heq rfl).imp_right List.singleton_inj.mp)
  · exact .inl hpre

theorem Replied.concat (h : Replied db writes c reply) {r : Write Call}
    (hr : r.call = c → reply = r.reply (replayed db writes)) :
    Replied db (writes ++ [r]) c reply := by
  intro front r' hpre hcall
  rcases prefix_concat_cases hpre with hold | ⟨rfl, rfl⟩
  · exact h front r' hold hcall
  · exact hr hcall

end

/-- The reply to a write that the writer has acknowledged. -/
def Stage.reply? : Stage host Call → Option Frame
  | .acknowledged p (.ok ()) => some p.reply
  | .releasing (.ok reply) | .answered (.ok reply) => some reply
  | _ => none

/-- The clients are told what the acknowledged writes answer without the others. -/
structure World.Tells (asked : Command → Prop) (db : Db host) (w : World host Call) : Prop where
  tracks : w.Tracks db
  vouched : w.Vouched asked db
  pending : ∀ p, w.pending = some p →
    p.reply = p.write.reply (replayed db (records w.history))
  replied : ∀ c stage, w.clients c = some stage → ∀ reply, stage.reply? = some reply →
    Replied db (records w.history) c reply

namespace World
variable {asked : Command → Prop} {w w' : World host Call} {db : Db host}

theorem tells_start (asked : Command → Prop) (now : ExpireAt) (h : db.Valid) (file : Bytes) :
    (start now db file : World host Call).Tells asked db where
  tracks := tracks_start now h file
  vouched := vouched_start now db file
  pending p hp := by cases hp
  replied c stage hc := by cases hc

/-- No client's task moves, and nothing is acknowledged. -/
theorem Tells.keep (h : w.Tells asked db) (htracks : w'.Tracks db)
    (hvouched : w'.Vouched asked db) (hpending : w'.pending = w.pending)
    (hclients : w'.clients = w.clients) (hrecords : records w'.history = records w.history) :
    w'.Tells asked db where
  tracks := htracks
  vouched := hvouched
  pending p hp := hrecords ▸ h.pending p (hpending ▸ hp)
  replied c stage hc := hrecords ▸ h.replied c stage (hclients ▸ hc)

variable [DecidableEq Call]

/-- The task of one client moves, and nothing is acknowledged. -/
theorem Tells.move (h : w.Tells asked db) (htracks : w'.Tracks db)
    (hvouched : w'.Vouched asked db) {c : Call} {stage : Stage host Call}
    (hclients : w'.clients = Function.update w.clients c (some stage))
    (hrecords : records w'.history = records w.history)
    (hpending : ∀ p, w'.pending = some p →
      p.reply = p.write.reply (replayed db (records w.history)))
    (hstage : ∀ reply, stage.reply? = some reply →
      Replied db (records w.history) c reply) : w'.Tells asked db where
  tracks := htracks
  vouched := hvouched
  pending p hp := hrecords ▸ hpending p hp
  replied d s hd := by
    rw [hrecords]
    rw [hclients, Function.update_apply] at hd
    split_ifs at hd with hdc
    · obtain rfl := Option.some.inj hd
      exact hdc ▸ hstage
    · exact h.replied d s hd

omit [DecidableEq Call] in
/-- A call that the writer has not acknowledged. -/
theorem Orderly.not_mem_calls (ho : w.Orderly) {c : Call} {stage : Stage host Call}
    (hc : w.clients c = some stage) (hs : stage.recorded = false) : c ∉ w.calls := fun hm => by
  have hr := (ho.recorded c).mp hm
  rw [hc] at hr
  exact Bool.false_ne_true (hs.symm.trans hr)

/-- The command of the holder of the gate answers as it does behind the acknowledged writes. -/
theorem Tells.execute (h : w.Tells asked db) (ho : w.Orderly) {c : Call} {cmd : Command}
    {aofFrame : Option Frame} (hc : w.clients c = some (.holding cmd aofFrame)) :
    (w.execute c cmd aofFrame).Tells asked db := by
  have hg : w.gate = some (.client c) := (ho.gate_client c).mpr (by rw [hc]; rfl)
  have hpending : w.pending = none := pending_of_holder hg hc
  have hnew : ∀ reply, Replied db (records w.history) c reply := fun reply =>
    replied_of_new (ho.not_mem_calls hc rfl)
  have hquiet : w.db.view w.clock = (replayed db (records w.history)).view w.clock := by
    have haccounts := h.tracks.accounts
    rwa [hpending] at haccounts
  have hwrite : cmd.isWrite = true := by
    obtain ⟨-, readAt, hframe⟩ := h.vouched.stages c _ hc
    have hsome := (ho.sound c _ hc).2
    rwa [hframe, Command.aofFrame_eq, Option.isSome_map, Command.logged_isSome] at hsome
  have htracks := h.tracks.client ho hc
  have hvouched := h.vouched.client ho h.tracks.accounts hc
  change (w.execute c cmd aofFrame).Tracks db at htracks
  change (w.execute c cmd aofFrame).Vouched asked db at hvouched
  have moved : ∀ stage : Stage host Call,
      w.execute c cmd aofFrame =
        ({ w with db := (cmd.apply w.clock w.db).2 } : World host Call).set c stage →
      (∀ p, stage.pending = some p →
        p.reply = p.write.reply (replayed db (records w.history))) →
      (w.execute c cmd aofFrame).Tells asked db := by
    intro stage heq hstage
    rw [heq] at htracks hvouched ⊢
    refine h.move htracks hvouched rfl rfl (fun p hp => ?_) fun reply _ => hnew reply
    have hset : (({ w with db := (cmd.apply w.clock w.db).2 } : World host Call).set c
        stage).pending = stage.pending := pending_set hg
    exact hstage p (hset.symm.trans hp)
  unfold World.execute at moved ⊢
  dsimp only at moved ⊢
  refine moved _ rfl fun p hp => ?_
  split_ifs at hp
  · cases hp
  · cases aofFrame with
    | none => cases hp
    | some frame =>
        obtain rfl := Option.some.inj hp
        exact Write.reply_congr (r := ⟨c, w.clock, cmd, frame⟩) hwrite hquiet

/-- Every step of a connection task. -/
theorem Tells.client (h : w.Tells asked db) (ho : w.Orderly) {c : Call} {stage : Stage host Call}
    (hc : w.clients c = some stage) : (w.client c stage).Tells asked db := by
  have htracks := h.tracks.client ho hc
  have hvouched := h.vouched.client ho h.tracks.accounts hc
  have hholder : stage.holds = true → w.gate = some (.client c) := fun hs =>
    (ho.gate_client c).mpr (by rw [hc]; exact hs)
  have hpending : stage.holds = true → w.pending = stage.pending := fun hs =>
    pending_of_holder (hholder hs) hc
  have hreplied := h.replied c stage hc
  cases stage with
  | waiting cmd aofFrame =>
      unfold World.client at htracks hvouched ⊢
      cases hg : w.gate with
      | some party => exact h
      | none =>
          rw [hg] at htracks hvouched
          have hnew : ({ w with gate := some (.client c) }.set c (.holding cmd aofFrame)).pending =
              none := pending_set rfl
          refine h.move htracks hvouched rfl rfl (fun p hp => ?_) fun reply hr => by cases hr
          rw [hnew] at hp
          cases hp
  | holding cmd aofFrame => exact h.execute ho hc
  | applied p =>
      have hanswer := h.pending p (hpending rfl)
      unfold World.client at htracks hvouched ⊢
      split_ifs at htracks hvouched ⊢
      · have hnew : (w.set c (.acknowledged p (.error "AOF writer is in failed state"))).pending =
            some p := pending_set (hholder rfl)
        refine h.move htracks hvouched rfl rfl (fun q hq => ?_) fun reply hr => by cases hr
        obtain rfl := Option.some.inj (hnew.symm.trans hq)
        exact hanswer
      · have hnew : ((w.send (.write c p.write.bytes)).set c (.appending p)).pending = some p :=
          pending_set (hholder rfl)
        refine h.move htracks hvouched rfl rfl (fun q hq => ?_) fun reply hr => by cases hr
        obtain rfl := Option.some.inj (hnew.symm.trans hq)
        exact hanswer
  | appending p => exact h
  | acknowledged p result =>
      cases result with
      | ok =>
          have hnew : (w.set c (.releasing (.ok p.reply))).pending = none :=
            pending_set (hholder rfl)
          refine h.move htracks hvouched rfl rfl (fun q hq => ?_) hreplied
          cases hnew.symm.trans hq
      | error e =>
          have hnew : (w.client c (.acknowledged p (.error e))).pending = none :=
            pending_set (hholder rfl)
          refine h.move htracks hvouched rfl rfl (fun q hq => ?_) fun reply hr => by cases hr
          cases hnew.symm.trans hq
  | releasing result =>
      have hnew : (w.client c (.releasing result)).pending = none := pending_of_free rfl
      refine h.move htracks hvouched rfl rfl (fun q hq => ?_) fun reply hr => hreplied reply ?_
      · cases hnew.symm.trans hq
      · cases result with
        | ok reply' => exact hr
        | error e => cases hr
  | answered result => exact h

theorem Tells.request (h : w.Tells asked db) (ho : w.Orderly) (c : Call) {cmd : Command}
    (ha : asked cmd) : (w.request c cmd).Tells asked db := by
  have htracks := h.tracks.request ho c cmd
  have hvouched := h.vouched.request ho c ha
  unfold World.request at htracks hvouched ⊢
  cases hc : w.clients c with
  | some stage => exact h
  | none =>
      rw [hc] at htracks hvouched
      dsimp only at htracks hvouched ⊢
      split_ifs at htracks hvouched ⊢
      · have hg : w.gate ≠ some (.client c) := by
          rw [ne_eq, ho.gate_client c, hc]
          exact Bool.false_ne_true
        refine h.move htracks hvouched rfl rfl (fun p hp => h.pending p ?_) fun reply hr => by
          cases hr
        exact (pending_set_of_ne hg _).symm.trans hp
      · exact h

/-- The writer's answer to a write: the write is the last of the acknowledged ones, or it is
taken back. -/
theorem Tells.acknowledge (h : w.Tells asked db) {c : Call} {p : Pending host Call}
    (hg : w.gate = some (.client c)) (hc : w.clients c = some (.appending p))
    (hcall : p.write.call = c) (hnew : c ∉ w.calls) (result : CallResult) :
    (w.acknowledge c result).Tells asked db := by
  have hanswer := h.pending p (pending_of_holder hg hc)
  have htracks := h.tracks.acknowledge hg hc result
  have hvouched := h.vouched.acknowledge hg hc result
  have hset : ∀ history stage, ({ w with history := history }.set c stage).pending =
      stage.pending := fun history stage => pending_set hg
  unfold World.acknowledge at htracks hvouched ⊢
  rw [hc] at htracks hvouched ⊢
  cases result with
  | error e =>
      have hstill := hset (w.history ++ []) (.acknowledged p (.error e))
      refine h.move htracks hvouched rfl ?_ (fun q hq => ?_) fun reply hr => by cases hr
      · exact congrArg records (List.append_nil _)
      · obtain rfl := Option.some.inj (hstill.symm.trans hq)
        exact hanswer
  | ok =>
      have hrecords : records (w.history ++ marks (.ok ()) (.recorded p.write)) =
          records w.history ++ [p.write] := by
        rw [records_append]
        rfl
      refine ⟨htracks, hvouched, fun q hq => ?_, fun d stage hd reply hr => ?_⟩
      · cases (hset _ _).symm.trans hq
      · change Replied db (records (w.history ++ marks (.ok ()) (.recorded p.write))) d reply
        rw [hrecords]
        have hd' : Function.update w.clients c (some (.acknowledged p (.ok ()))) d =
            some stage := hd
        rw [Function.update_apply] at hd'
        split_ifs at hd' with hdc
        · obtain rfl := Option.some.inj hd'
          obtain rfl := Option.some.inj hr
          subst hdc
          exact (replied_of_new hnew).concat fun _ => hanswer
        · have hother : p.write.call ≠ d := fun heq => hdc (heq.symm.trans hcall)
          exact (h.replied d stage hd' reply hr).concat fun heq => (hother heq).elim

theorem Tells.deliver (h : w.Tells asked db) (ho : w.Orderly) {m : Message Call}
    {queue : List (Message Call)} (hq : w.queue = m :: queue) (policy : FsyncPolicy)
    (calls : Writer.WriteCalls) (finish : Writer.FinishCalls) :
    ({ w with queue := queue }.deliver policy calls finish m).Tells asked db := by
  have ha := ho.awaited m (hq ▸ List.mem_cons_self)
  have htracks := h.tracks.deliver ho hq policy calls finish
  have hvouched := h.vouched.deliver ho hq policy calls finish
  cases m with
  | write c bytes =>
      obtain ⟨p, hc, -⟩ := ha
      have hholder : w.gate = some (.client c) := (ho.gate_client c).mpr (by rw [hc]; rfl)
      have hsame : SameAccounts w { w with
          queue := queue
          writer := (w.writer.write policy bytes calls).2 } := ⟨rfl, rfl, rfl, rfl⟩
      have hdelivered : ({ w with
          queue := queue
          writer := (w.writer.write policy bytes calls).2 } : World host Call).Tells asked db :=
        h.keep (h.tracks.congr hsame)
          (h.vouched.advance hsame rfl h.vouched.capture h.vouched.images) rfl rfl rfl
      exact hdelivered.acknowledge hholder hc (ho.sound c _ hc) (ho.not_mem_calls hc rfl) _
  | startRewrite =>
      refine h.keep htracks hvouched rfl rfl ?_
      change records (w.history ++ _) = _
      rw [records_append, records_marks_began, List.append_nil]
  | finishRewrite =>
      refine h.keep htracks hvouched rfl rfl ?_
      change records (w.history ++ _) = _
      rw [records_append, records_switched, List.append_nil]
  | abortRewrite reason => exact h.keep htracks hvouched rfl rfl rfl

theorem Tells.step (h : w.Tells asked db) (ho : w.Orderly) (policy : FsyncPolicy) {e : Event Call}
    (he : e.Asks asked) : (World.step policy e w).Tells asked db := by
  have htracks := h.tracks.step ho policy e
  have hvouched := h.vouched.step ho h.tracks.accounts policy he
  unfold World.step at htracks hvouched ⊢
  cases e with
  | pass | sweep | tick | land => exact h.keep htracks hvouched rfl rfl rfl
  | read cmd =>
      dsimp only at htracks hvouched ⊢
      split_ifs at htracks hvouched ⊢
      · exact h
      · exact h.keep htracks hvouched rfl rfl rfl
  | request c cmd => exact h.request ho c he
  | client c =>
      dsimp only
      cases hc : w.clients c with
      | none => exact h
      | some stage => exact h.client ho hc
  | schedule =>
      unfold World.schedule at htracks hvouched ⊢
      dsimp only at htracks hvouched ⊢
      split_ifs at htracks hvouched ⊢
      · exact h
      · exact h.keep htracks hvouched rfl rfl rfl
  | rewrite result =>
      have hs := rewrite_sameAccounts ho result
      exact h.keep htracks hvouched hs.pending (rewrite_clients w result) hs.records
  | writer calls finish =>
      dsimp only
      cases hq : w.queue with
      | nil => exact h
      | cons m queue => exact h.deliver ho hq policy calls finish

/-! ## Runs -/

/-- The history only grows. -/
theorem history_grows (policy : FsyncPolicy) (e : Event Call) :
    w.history <+: (World.step policy e w).history := by
  unfold World.step
  cases e with
  | pass | sweep | tick | land => exact List.prefix_rfl
  | read cmd =>
      dsimp only
      split_ifs <;> exact List.prefix_rfl
  | request c cmd =>
      dsimp only
      unfold World.request
      cases w.clients c with
      | some stage => exact List.prefix_rfl
      | none =>
          dsimp only
          split_ifs <;> exact List.prefix_rfl
  | client c =>
      dsimp only
      cases w.clients c with
      | none => exact List.prefix_rfl
      | some stage =>
          dsimp only
          rw [client_history]
  | schedule =>
      dsimp only
      unfold World.schedule
      split_ifs <;> exact List.prefix_rfl
  | rewrite result =>
      dsimp only
      rw [rewrite_history]
  | writer calls finish =>
      dsimp only
      cases w.queue with
      | nil => exact List.prefix_rfl
      | cons m queue =>
          cases m with
          | write c bytes =>
              unfold World.deliver World.acknowledge
              dsimp only
              split
              · exact List.prefix_append _ _
              · exact List.prefix_rfl
          | startRewrite | finishRewrite => exact List.prefix_append _ _
          | abortRewrite reason => exact List.prefix_rfl

omit [DecidableEq Call] in
theorem records_mono {history history' : List (Mark (Write Call) Image)}
    (h : history <+: history') : records history <+: records history' := by
  obtain ⟨more, rfl⟩ := h
  rw [records_append]
  exact List.prefix_append _ _

theorem tells_run (policy : FsyncPolicy) {events : List (Event Call)}
    (he : ∀ e ∈ events, e.Sent ∧ e.Asks asked) {callers : Finset Call} (hw : w.Attended callers)
    (h : w.Tells asked db) : (run (World.step policy) events w).Tells asked db ∧
      records w.history <+: records (run (World.step policy) events w).history := by
  induction events generalizing w callers with
  | nil => exact ⟨h, List.prefix_rfl⟩
  | cons e events ih =>
      obtain ⟨⟨hsent, hasks⟩, hrest⟩ := List.forall_mem_cons.mp he
      obtain ⟨callers', hw'⟩ := hw.step policy hsent
      obtain ⟨htells, hgrow⟩ := ih hrest hw' (h.step hw.orderly policy hasks)
      exact ⟨htells, (records_mono (history_grows policy e)).trans hgrow⟩

/-- In every run, whatever fails in it, the client of an acknowledged write got the reply that its
command has behind the acknowledged writes before it, when nothing else runs. A write that was
acknowledged before another was asked for stands before it. -/
theorem replies_are_serial (policy : FsyncPolicy) (now : ExpireAt) (h : db.Valid) (file : Bytes)
    (before after : List (Event Call)) (he : ∀ e ∈ before ++ after, e.Sent) :
    let earlier := run (World.step policy) before (start now db file)
    let w := run (World.step policy) after earlier
    (∀ front r, front ++ [r] <+: records w.history → ∀ reply,
      w.clients r.call = some (.answered (.ok reply)) → reply = r.reply (replayed db front)) ∧
    ∀ a b, a ∈ earlier.calls → earlier.clients b = none → b ∈ w.calls → Before w.calls a b := by
  intro earlier w
  have hasks : ∀ e ∈ before ++ after, e.Sent ∧ e.Asks fun _ => True := fun e hm => by
    refine ⟨he e hm, ?_⟩
    cases e <;> trivial
  obtain ⟨callers, hearlier⟩ := attended_run policy
    (fun e hm => he e (List.mem_append_left _ hm)) (attended_start now db file)
  have htells := (tells_run policy (fun e hm => hasks e (List.mem_append_left _ hm))
    (attended_start now db file) (tells_start _ now h file)).1
  obtain ⟨htold, hgrow⟩ := tells_run policy (fun e hm => hasks e (List.mem_append_right _ hm))
    hearlier htells
  refine ⟨fun front r hr reply hc => htold.replied _ _ hc reply rfl front r hr rfl,
    fun a b ha hb hmem => ?_⟩
  have hnew : b ∉ earlier.calls := fun hm => by
    have hrecorded := (hearlier.orderly.recorded b).mp hm
    change (earlier.clients b).any _ = true at hrecorded
    rw [hb] at hrecorded
    cases hrecorded
  exact before_of_prefix (hgrow.map Write.call) ha hnew hmem

/-- `INCR k` of two clients, the second one asked for after the first was acknowledged. -/
def twoIncrs : List (Write ℕ) :=
  [⟨0, 1000, .incr [107], Server.incrFrame⟩, ⟨1, 1000, .incr [107], Server.incrFrame⟩]

theorem fromClient_incr : (Command.incr [107]).FromClient :=
  Server.fromClient_of_args 0 _ (by decide) (by decide) (Server.fromFrame_incrFrame 0)

theorem replies_are_serial_incr :
    let first := run (World.step .always) (writeEvents 0 (.incr [107]))
      (start 1000 (Db.new : Db Server.oneShard) [])
    let w := run (World.step .always) (writeEvents 1 (.incr [107])) first
    (.integer 2 : Frame) = Write.reply (replayed (Db.new : Db Server.oneShard) (twoIncrs.take 1))
      ⟨1, 1000, .incr [107], Server.incrFrame⟩ ∧ Before w.calls 0 1 := by
  have hsent : ∀ e ∈ writeEvents 0 (.incr [107]) ++ writeEvents 1 (.incr [107]), e.Sent := by
    simp [writeEvents, Event.Sent, fromClient_incr]
  obtain ⟨hreply, hbefore⟩ := replies_are_serial .always 1000
    (Db.valid_new : (Db.new : Db Server.oneShard).Valid) [] _ _ hsent
  exact ⟨hreply [⟨0, 1000, .incr [107], Server.incrFrame⟩]
    ⟨1, 1000, .incr [107], Server.incrFrame⟩ ⟨[], rfl⟩ _ rfl,
    hbefore 0 1 List.mem_cons_self rfl (List.mem_cons_of_mem _ List.mem_cons_self)⟩

end World
end MiniRedis.RewriteProtocol
