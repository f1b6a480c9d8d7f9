import MiniRedis.Runs
import MiniRedis.SubscriberSteps

/-!
# What a subscriber leaves behind

The pub/sub table counts receivers, the forwarders use them, and a call owes the
collection of every channel in its `tasks`. A call that ends through the loop behind
`select!` has given everything back. One that returns through `?` or `return Err` skips
that loop: its forwarders are detached with their receivers.
-/
namespace MiniRedis.PubSub
open Wire ReferenceCounts

variable {host : Host}

namespace World
variable {Call : Type}

def Listens (w : World host Call) (c : Call) (channel : Bytes) : Prop :=
  ∃ sub, w.calls c = some sub ∧ sub.Listens channel

def Holds (w : World host Call) (c : Call) (channel : Bytes) : Prop :=
  ∃ sub, w.calls c = some sub ∧ sub.Holds channel

/-- The table agrees with the receivers, and somebody owes the collection of each channel. -/
structure Consistent (w : World host Call) : Prop where
  accounted : Accounted (counts w.db) w.Listens w.Holds
  sound : ∀ c sub, w.calls c = some sub → sub.Sound

/-- If call `a` has returned, it has no forwarder left. -/
def SettledAt (a : Call) (w : World host Call) : Prop :=
  ∀ sub, w.calls a = some sub → sub.Settled

variable [DecidableEq Call]

/-- The step makes call `a` fail while it has forwarders. -/
def leaks (a : Call) (t : World host Call × Event Call) : Bool :=
  match t.2 with
  | .turn c turn => c = a && match t.1.calls a with
      | some sub => sub.fails turn && !sub.tasks.entries.isEmpty
      | none => false
  | _ => false

/-- What the calls do is what the one that has moved does, and what the others do. -/
theorem exists_update_iff {calls : Call → Option Subscriber} {c v : Call} {sub : Subscriber}
    {P : Subscriber → Prop} :
    (∃ s, Function.update calls c (some sub) v = some s ∧ P s) ↔
      if v = c then P sub else ∃ s, calls v = some s ∧ P s := by
  rw [Function.update_apply]
  split_ifs
  · simp
  · rfl

theorem sound_update {w : World host Call} (hw : w.Consistent) {db : Db host} {c : Call}
    {sub : Subscriber} (hs : sub.Sound) (v : Call) (s : Subscriber)
    (h : (⟨db, Function.update w.calls c (some sub)⟩ : World host Call).calls v = some s) :
    s.Sound := by
  dsimp only at h
  rw [Function.update_apply] at h
  split_ifs at h
  · cases h
    exact hs
  · exact hw.sound v s h

omit [DecidableEq Call] in
theorem consistent_start : (start : World host Call).Consistent where
  accounted := by
    have hnone : ∀ P : Subscriber → Prop,
        ¬ ∃ sub, (none : Option Subscriber) = some sub ∧ P sub := by
      rintro P ⟨sub, h, _⟩
      cases h
    exact Accounted.empty.keep (fun v j => iff_of_false (hnone _) id) (fun v j h => h.elim)
  sound _ _ h := by cases h

/-- `handle` calls `run_subscribed`. -/
theorem consistent_call {w : World host Call} (hw : w.Consistent) (c : Call)
    (channels : List Bytes) : (step (.call c channels) w).Consistent := by
  rw [step]
  split_ifs with hc
  · exact hw
  · rw [Option.not_isSome_iff_eq_none] at hc
    constructor
    · refine hw.accounted.keep (fun v j => ?_) fun v j h => ?_
      · refine exists_update_iff.trans ?_
        split_ifs with hv
        · refine iff_of_false Bool.false_ne_true ?_
          rintro ⟨sub, hsub, _⟩
          rw [hv, hc] at hsub
          cases hsub
        · rfl
      · refine exists_update_iff.mpr ?_
        split_ifs with hv
        · cases h with
          | intro sub h =>
              rw [hv, hc] at h
              cases h.1
        · exact h
    · exact sound_update hw ⟨nofun, nofun⟩

theorem consistent_turn {w : World host Call} (hw : w.Consistent) (c : Call) (t : Turn) :
    (step (.turn c t) w).Consistent := by
  rw [step]
  cases h : (w.calls c).bind fun sub => sub.turn w.db t with
  | none => exact hw
  | some r =>
      obtain ⟨sub, hc, hturn⟩ := Option.bind_eq_some_iff.mp h
      rcases r with ⟨db', sub'⟩
      have heffect := Subscriber.turn_effect (hw.sound c sub hc) hturn
      refine ⟨?_, sound_update hw heffect.2⟩
      -- only the users and the duties of `c` change
      have hlistens : ∀ j, w.Listens c j ↔ sub.Listens j := fun j => by simp [Listens, hc]
      have hholds : ∀ j, w.Holds c j ↔ sub.Holds j := fun j => by simp [Holds, hc]
      have huses : ∀ v j, (World.mk db' (Function.update w.calls c (some sub'))).Listens v j ↔
          if v = c then sub'.Listens j else w.Listens v j := fun v j => exists_update_iff
      have howes : ∀ v j, (World.mk db' (Function.update w.calls c (some sub'))).Holds v j ↔
          if v = c then sub'.Holds j else w.Holds v j := fun v j => exists_update_iff
      have hkept : (∀ j, sub.Holds j → sub'.Holds j) → ∀ v j, w.Holds v j →
          (World.mk db' (Function.update w.calls c (some sub'))).Holds v j := by
        intro hh v j h
        rw [howes]
        split_ifs with hv
        · exact hh j ((hholds j).mp (hv ▸ h))
        · exact h
      have hacc := hw.accounted
      cases heffect.1 with
      | quiet hl hh =>
          refine hacc.keep (fun v j => ?_) (hkept hh)
          rw [huses]
          split_ifs with hv
          · rw [hv, hl, hlistens]
          · rfl
      | acquire channel hn hl hh =>
          rw [counts_subscribe]
          have hout : ¬ w.Listens c channel := fun h => hn ((hlistens channel).mp h)
          refine hacc.acquire hout (fun v j => ?_) fun v j h => ?_
          · rw [huses]
            split_ifs with hv
            · rw [hv, hl, hlistens]
              simp
            · simp [hv]
          · rw [howes]
            split_ifs with hv
            · refine hh j (h.imp (fun h => (hholds j).mp (hv ▸ h)) fun h => h.2)
            · exact h.elim id fun h => (hv h.1).elim
      | release channel hn hl hh =>
          rw [counts_dropReceiver]
          refine hacc.release ((hlistens channel).mpr hn) (fun v j => ?_) (hkept hh)
          rw [huses]
          split_ifs with hv
          · rw [hv, hl, hlistens]
            simp
          · simp [hv]
      | collect channel hn hl hh =>
          rw [counts_gc]
          have hout : ¬ w.Listens c channel := fun h => hn ((hlistens channel).mp h)
          refine (hacc.collect hout fun v j hne h => ?_).keep (fun v j => ?_) fun v j h => h
          · rw [howes]
            split_ifs with hv
            · exact hh j (fun hj => hne ⟨hv, hj⟩) ((hholds j).mp (hv ▸ h))
            · exact h
          · rw [huses]
            split_ifs with hv
            · rw [hv, hl, hlistens]
            · rfl

theorem consistent_publish {w : World host Call} (hw : w.Consistent) (channel message : Bytes) :
    (step (.publish channel message) w).Consistent := by
  have hmap : ∀ {P : Subscriber → Prop} (c : Call),
      (∃ s, (step (.publish channel message) w).calls c = some s ∧ P s) ↔
        ∃ s, w.calls c = some s ∧ P (s.deliver channel message) := by
    intro P c
    simp only [step, Option.map_eq_some_iff]
    constructor
    · rintro ⟨_, ⟨s, hs, rfl⟩, h⟩
      exact ⟨s, hs, h⟩
    · rintro ⟨s, hs, h⟩
      exact ⟨_, ⟨s, hs, rfl⟩, h⟩
  have hquiet := Subscriber.deliver_quiet channel message
  constructor
  · have hdb : counts (step (.publish channel message) w).db = removeUnused (counts w.db) channel :=
      counts_publish w.db channel
    rw [hdb]
    refine (hw.accounted.removeUnused channel).keep (fun c j => ?_) fun c j h => ?_
    · simp only [Listens, hmap, (hquiet _).1]
    · refine (hmap c).mpr ?_
      simp only [Subscriber.deliver_holds]
      exact h
  · intro c s h
    obtain ⟨sub, hsub, rfl⟩ := Option.map_eq_some_iff.mp h
    exact Subscriber.deliver_sound channel message (hw.sound c sub hsub)

theorem step_consistent (w : World host Call) (e : Event Call) (hw : w.Consistent) :
    (step e w).Consistent := by
  cases e with
  | call c channels => exact consistent_call hw c channels
  | turn c t => exact consistent_turn hw c t
  | publish channel message => exact consistent_publish hw channel message

theorem leaks_turn {a : Call} {w : World host Call} {sub : Subscriber} (hc : w.calls a = some sub)
    {t : Turn} (h : leaks a (w, .turn a t) = false) (hf : sub.fails t = true) :
    sub.tasks.entries = [] := by
  simpa [leaks, hc, hf] using h

theorem step_settledAt {a : Call} {w : World host Call} {e : Event Call} (hw : w.Consistent)
    (h : w.SettledAt a) (hl : leaks a (w, e) = false) : (step e w).SettledAt a := by
  cases e with
  | call c channels =>
      rw [step]
      split_ifs
      · exact h
      · intro sub hsub
        dsimp only at hsub
        rw [Function.update_apply] at hsub
        split_ifs at hsub
        · cases hsub
          exact nofun
        · exact h sub hsub
  | turn c t =>
      rw [step]
      cases hr : (w.calls c).bind fun sub => sub.turn w.db t with
      | none => exact h
      | some r =>
          obtain ⟨sub, hc, hturn⟩ := Option.bind_eq_some_iff.mp hr
          intro sub' hsub
          dsimp only at hsub
          rw [Function.update_apply] at hsub
          split_ifs at hsub with hac
          · cases hsub
            subst hac
            exact Subscriber.turn_settled (hw.sound a sub hc) hturn (h sub hc) (leaks_turn hc hl)
          · exact h sub' hsub
  | publish channel message =>
      intro sub' hsub
      obtain ⟨sub, hold, rfl⟩ := Option.map_eq_some_iff.mp hsub
      intro hret j
      rw [Subscriber.hasReturned, (Subscriber.deliver_quiet channel message sub).2.2] at hret
      exact Subscriber.deliver_lookup_none.mpr (h sub hold hret j)

/-- A call none of whose steps fails while it has forwarders leaves nothing behind: no
receiver, nothing that `PUBLISH` counts, and no channel but those that other calls hold. -/
theorem finished_leaves_nothing {events : List (Event Call)} {a : Call}
    (h : ∀ t ∈ Runs.taken step events (start : World host Call), leaks a t = false)
    {w : World host Call} (hw : Runs.run step events start = w) {sub : Subscriber}
    (hc : w.calls a = some sub) (hret : sub.hasReturned = true) (channel : Bytes) :
    ¬ w.Listens a channel ∧
      (∃ users : Finset Call, a ∉ users ∧ (∀ c, c ∈ users ↔ w.Listens c channel) ∧
        (w.db.pubsubPublish channel).1 = users.card) ∧
      ((∀ c, c ≠ a → ¬ w.Holds c channel) → w.db.pubsub.lookup channel = none) := by
  have hstep : ∀ (w : World host Call) (e : Event Call), w.Consistent ∧ w.SettledAt a →
      leaks a (w, e) = false → (step e w).Consistent ∧ (step e w).SettledAt a :=
    fun w e hw hl => ⟨step_consistent w e hw.1, step_settledAt hw.1 hw.2 hl⟩
  have hinv := (Runs.kept hstep ⟨consistent_start, fun sub hsub => nomatch hsub⟩ h).2
  rw [hw] at hinv
  have hholds : ¬ w.Holds a channel := by
    rintro ⟨s, hs, hh⟩
    cases hc.symm.trans hs
    exact (hinv.2 sub hc).not_holds hret channel hh
  have hlistens : ¬ w.Listens a channel := fun hl => hholds (hinv.1.accounted.owed a channel hl)
  refine ⟨hlistens, ?_, fun hothers => ?_⟩
  · have hcount := hinv.1.accounted.counted channel
    cases hcount with
    | intro users hcount =>
        refine ⟨users, fun hm => hlistens ((hcount.1 a).mp hm), hcount.1, ?_⟩
        rw [publish_count, hcount.2]
  · -- whoever owes the collection of the channel is another call
    by_contra hne
    have hsome : (counts w.db channel).isSome = true := by
      rw [counts, Option.isSome_map]
      exact Option.isSome_iff_ne_none.mpr hne
    have howner := hinv.1.accounted.collected channel hsome
    cases howner with
    | intro c howner =>
        by_cases hca : c = a
        · exact hholds (hca ▸ howner)
        · exact hothers c hca howner

/-- Call 0 subscribes to one channel, call 1 to the same, and the stream of call 0 ends. -/
def closedRun : List (Event ℕ) :=
  [.call 0 [[99]], .turn 0 .advance, .turn 0 (.write true), .call 1 [[99]], .turn 1 .advance,
    .turn 0 .advance, .turn 0 (.read .eof), .turn 0 .advance, .turn 0 .advance, .turn 0 .advance]

theorem finished_leaves_nothing_closedRun :
    let w := Runs.run step closedRun (start : World ⟨fun _ => 0, 1⟩ ℕ)
    ¬ w.Listens 0 [99] ∧ (∃ users : Finset ℕ, 0 ∉ users ∧ (∀ c, c ∈ users ↔ w.Listens c [99]) ∧
        (w.db.pubsubPublish [99]).1 = users.card) ∧
      ((∀ c, c ≠ 0 → ¬ w.Holds c [99]) → w.db.pubsub.lookup [99] = none) := by
  intro w
  have hno : ∀ t ∈ Runs.taken step closedRun (start : World ⟨fun _ => 0, 1⟩ ℕ),
      leaks 0 t = false := by decide
  have hc : w.calls 0 = some { point := .returned true } := rfl
  exact finished_leaves_nothing hno rfl hc rfl [99]

/-! ## A malformed request -/

/-- The only subscriber sends `$-2`. -/
def malformedRun : List (Event Unit) :=
  [.call () [[99]], .turn () .advance, .turn () (.write true), .turn () .advance,
    .turn () (.read (.protocol "negative bulk len")), .turn () (.write true)]

/-- `return Err` skips the loop over `tasks`: the call has returned, its forwarder listens. -/
theorem malformed_leaves_receiver :
    let w := Runs.run step malformedRun (start : World ⟨fun _ => 0, 1⟩ Unit)
    (∃ sub, w.calls () = some sub ∧ sub.hasReturned = true) ∧ w.Listens () [99] ∧
      (w.db.pubsubPublish [99]).1 = 1 ∧ (∀ c, c ≠ () → ¬ w.Holds c [99]) ∧
      w.db.pubsub.lookup [99] ≠ none := by
  intro w
  let tasks : HashMap Bytes Forwarder := (∅ : HashMap Bytes Forwarder).insert [99] ⟨some []⟩
  let sub : Subscriber := ⟨tasks, [], [], .returned false⟩
  have hc : w.calls () = some sub := rfl
  have hin : w.db.pubsub.lookup [99] = some ⟨1⟩ := rfl
  refine ⟨⟨sub, hc, rfl⟩, ⟨sub, hc, rfl⟩, rfl, fun c hne => (hne rfl).elim, ?_⟩
  rw [hin]
  nofun

end World
end MiniRedis.PubSub
