import MiniRedis.ReferenceCounts
import MiniRedis.Subscribed

/-!
# What a step of a subscriber does

A step of a call leaves the receivers alone, takes one, gives one back, or collects a
channel; the table follows. A call that fails keeps its `tasks` as they are.
-/
namespace MiniRedis.PubSub
open Wire ReferenceCounts

variable {host : Host}

/-- The numbers of receivers in the pub/sub table. -/
def counts (db : Db host) (channel : Bytes) : Option ℕ :=
  (db.pubsub.lookup channel).map Sender.receiverCount

theorem counts_subscribe (db : Db host) (channel : Bytes) :
    counts (db.pubsubSubscribe channel) =
      Function.update (counts db) channel (some ((counts db channel).getD 0 + 1)) := by
  funext j
  simp only [counts, Db.pubsubSubscribe, FiniteMap.lookup_insert_apply, Function.update_apply]
  split_ifs
  · cases db.pubsub.lookup channel <;> rfl
  · rfl

theorem counts_dropReceiver (db : Db host) (channel : Bytes) :
    counts (db.dropReceiver channel) =
      Function.update (counts db) channel ((counts db channel).map (· - 1)) := by
  funext j
  rw [Function.update_apply]
  unfold counts Db.dropReceiver
  cases h : db.pubsub.lookup channel with
  | none =>
      split_ifs with hj
      · rw [hj, h]
        rfl
      · rfl
  | some tx =>
      simp only [FiniteMap.lookup_insert_apply]
      split_ifs <;> rfl

/-- What `pubsub_gc` and `pubsub_publish` do to the table. -/
theorem counts_erase_unused (db : Db host) (channel : Bytes) :
    counts (match db.pubsub.lookup channel with
      | some tx =>
          if tx.receiverCount = 0 then { db with pubsub := db.pubsub.erase channel } else db
      | none => db) = removeUnused (counts db) channel := by
  funext j
  rw [removeUnused_apply]
  unfold counts
  cases h : db.pubsub.lookup channel with
  | none => simp
  | some tx =>
      simp only [Option.map_some, Option.some.injEq]
      by_cases hz : tx.receiverCount = 0
      · simp only [hz, if_true, and_true, FiniteMap.lookup_erase_apply]
        split_ifs <;> rfl
      · simp only [hz, if_false, and_false]

theorem counts_gc (db : Db host) (channel : Bytes) :
    counts (db.pubsubGc channel) = removeUnused (counts db) channel :=
  counts_erase_unused db channel

theorem counts_publish (db : Db host) (channel : Bytes) :
    counts (db.pubsubPublish channel).2 = removeUnused (counts db) channel := by
  rw [← counts_erase_unused, Db.pubsubPublish]
  cases db.pubsub.lookup channel with
  | none => rfl
  | some tx =>
      dsimp only
      split_ifs <;> rfl

/-- `PUBLISH` answers with the number of receivers. -/
theorem publish_count (db : Db host) (channel : Bytes) :
    (db.pubsubPublish channel).1 = (counts db channel).getD 0 := by
  unfold Db.pubsubPublish counts
  cases db.pubsub.lookup channel with
  | none => rfl
  | some tx =>
      dsimp only
      split_ifs with hz
      · exact hz.symm
      · rfl

namespace Subscriber

/-! ## The ways a turn can go -/

/-- A turn, by the point where the body stands and what the forwarder finds. -/
inductive Moves (db : Db host) (sub : Subscriber) : Turn → Db host → Subscriber → Prop where
  | subscribed (hp : sub.point = .running (.subscribing [])) :
      Moves db sub .advance db { sub with point := .running .select }
  | subscribing {channel : Bytes} {channels : List Bytes}
      (hp : sub.point = .running (.subscribing (channel :: channels))) :
      Moves db sub .advance (sub.subscribeOne db channel).1
        { (sub.subscribeOne db channel).2 with
          point := .writing (ackSubscribe "subscribe" channel
            (sub.subscribeOne db channel).2.tasks.entries.length) (.subscribing channels) }
  | unsubscribed (hp : sub.point = .running (.unsubscribing [])) :
      Moves db sub .advance db { sub with
        point := .running (if sub.tasks.entries.isEmpty then .cleaning else .select) }
  | unsubscribing {channel : Bytes} {channels : List Bytes}
      (hp : sub.point = .running (.unsubscribing (channel :: channels)))
      (hl : sub.tasks.lookup channel = none) :
      Moves db sub .advance db { sub with
        point := .writing (ackSubscribe "unsubscribe" channel
          (sub.tasks.erase channel).entries.length) (.unsubscribing channels) }
  | stopping {channel : Bytes} {channels : List Bytes} {h : Forwarder}
      (hp : sub.point = .running (.unsubscribing (channel :: channels)))
      (hl : sub.tasks.lookup channel = some h) {ack : Frame}
      (hack : ack = ackSubscribe "unsubscribe" channel (sub.tasks.erase channel).entries.length) :
      Moves db sub .advance (sub.stop db channel h (some ack) (.unsubscribing channels)).1
        (sub.stop db channel h (some ack) (.unsubscribing channels)).2
  | cleaned (hp : sub.point = .running .cleaning) (he : sub.tasks.entries = []) :
      Moves db sub .advance db { sub with point := .returned true }
  | cleaning {channel : Bytes} {h : Forwarder} (hp : sub.point = .running .cleaning)
      (hl : sub.tasks.lookup channel = some h) :
      Moves db sub .advance (sub.stop db channel h none .cleaning).1
        (sub.stop db channel h none .cleaning).2
  | collected {channel : Bytes} {next : Place} (hp : sub.point = .collecting channel none next) :
      Moves db sub .advance (db.pubsubGc channel) { sub with point := .running next }
  | acked {channel : Bytes} {frame : Frame} {next : Place}
      (hp : sub.point = .collecting channel (some frame) next) :
      Moves db sub .advance (db.pubsubGc channel) { sub with point := .writing frame next }
  | written {frame : Frame} {next : Place} {bytes : Bytes} (hp : sub.point = .writing frame next)
      (hf : Connection.writeFrame frame = .ok bytes) :
      Moves db sub (.write true) db { sub with point := .running next }
  | unwritten {ok : Bool} {frame : Frame} {next : Place} (hp : sub.point = .writing frame next)
      (hf : (ok && (Connection.writeFrame frame).isOk) = false) :
      Moves db sub (.write ok) db { sub with point := .returned false }
  | failed {ok : Bool} {frame : Frame} (hp : sub.point = .failing frame) :
      Moves db sub (.write ok) db { sub with point := .returned false }
  | read {result : ReadResult} (hp : sub.point = .running .select) :
      Moves db sub (.read result) db { sub with point := sub.onRead result }
  | recv {channel message : Bytes} {out : List (Bytes × Bytes)} (hp : sub.point = .running .select)
      (ho : sub.out = (channel, message) :: out) :
      Moves db sub .recv db { sub with
        out := out
        point := .writing (.array [bulk "message", .bulk channel, .bulk message]) .select }
  | closeSlow {channel : Bytes} {slow : List Bytes} (hp : sub.point = .running .select)
      (hs : sub.slow = channel :: slow) :
      Moves db sub .closeSlow db { sub with
        slow := slow
        point := .writing (.error "ERR subscriber output buffer limit exceeded") .cleaning }
  | forwarded {channel message : Bytes} {rest : List Bytes}
      (hr : (sub.tasks.lookup channel).bind Forwarder.receiver = some (message :: rest))
      (hroom : ¬ (pubsubChanCap < (message :: rest).length ∨ sub.hasReturned = true ∨
        pubsubOutputCap ≤ sub.out.length)) :
      Moves db sub (.forward channel) db { sub with
        tasks := sub.tasks.insert channel ⟨some rest⟩
        out := sub.out ++ [(channel, message)] }
  | ended {channel message : Bytes} {rest slow : List Bytes}
      (hr : (sub.tasks.lookup channel).bind Forwarder.receiver = some (message :: rest))
      (hroom : pubsubChanCap < (message :: rest).length ∨ sub.hasReturned = true ∨
        pubsubOutputCap ≤ sub.out.length)
      (hs : slow = sub.slow ++ [channel] ∨
        ¬ pubsubChanCap < (message :: rest).length ∧ sub.hasReturned = true) :
      Moves db sub (.forward channel) (db.dropReceiver channel) { sub with
        tasks := sub.tasks.insert channel ⟨none⟩
        slow := slow }

theorem advance_cases {db db' : Db host} {sub sub' : Subscriber}
    (h : sub.advance db = some (db', sub')) : Moves db sub .advance db' sub' := by
  unfold advance at h
  cases hp : sub.point with
  | running place =>
      rw [hp] at h
      cases place with
      | subscribing channels =>
          cases channels with
          | nil =>
              obtain ⟨rfl, rfl⟩ := Prod.mk.inj (Option.some.inj h)
              exact .subscribed hp
          | cons channel channels =>
              obtain ⟨rfl, rfl⟩ := Prod.mk.inj (Option.some.inj h)
              exact .subscribing hp
      | select => cases h
      | unsubscribing channels =>
          cases channels with
          | nil =>
              obtain ⟨rfl, rfl⟩ := Prod.mk.inj (Option.some.inj h)
              exact .unsubscribed hp
          | cons channel channels =>
              cases hl : sub.tasks.lookup channel with
              | some forwarder =>
                  simp only [hl] at h
                  obtain ⟨rfl, rfl⟩ := Prod.mk.inj (Option.some.inj h)
                  exact .stopping hp hl rfl
              | none =>
                  simp only [hl] at h
                  obtain ⟨rfl, rfl⟩ := Prod.mk.inj (Option.some.inj h)
                  exact .unsubscribing hp hl
      | cleaning =>
          cases he : sub.tasks.entries with
          | nil =>
              simp only [he] at h
              obtain ⟨rfl, rfl⟩ := Prod.mk.inj (Option.some.inj h)
              exact .cleaned hp he
          | cons e entries =>
              simp only [he] at h
              obtain ⟨rfl, rfl⟩ := Prod.mk.inj (Option.some.inj h)
              exact .cleaning hp (FiniteMap.lookup_mem (he ▸ List.mem_cons_self))
  | collecting channel ack next =>
      rw [hp] at h
      obtain ⟨rfl, rfl⟩ := Prod.mk.inj (Option.some.inj h)
      cases ack with
      | none => exact .collected hp
      | some frame => exact .acked hp
  | writing frame next | failing frame | returned ok =>
      rw [hp] at h
      cases h

theorem write_cases (db : Db host) {sub sub' : Subscriber} {ok : Bool}
    (h : sub.write ok = some sub') : Moves db sub (.write ok) db sub' := by
  unfold write at h
  cases hp : sub.point with
  | writing frame next =>
      rw [hp] at h
      cases hf : Connection.writeFrame frame with
      | ok bytes =>
          simp only [hf] at h
          obtain rfl := Option.some.inj h
          cases ok with
          | true => exact .written hp hf
          | false => exact .unwritten hp rfl
      | error e =>
          simp only [hf] at h
          obtain rfl := Option.some.inj h
          exact .unwritten hp (by rw [hf]; exact Bool.and_false ok)
  | failing frame =>
      rw [hp] at h
      obtain rfl := Option.some.inj h
      exact .failed hp
  | running place | collecting channel ack next | returned ok =>
      rw [hp] at h
      cases h

theorem forward_cases {db db' : Db host} {sub sub' : Subscriber} {channel : Bytes}
    (h : sub.forward db channel = some (db', sub')) : Moves db sub (.forward channel) db' sub' := by
  unfold forward at h
  cases hr : (sub.tasks.lookup channel).bind Forwarder.receiver with
  | none =>
      simp only [hr] at h
      cases h
  | some queue =>
      cases queue with
      | nil =>
          simp only [hr] at h
          cases h
      | cons message rest =>
          simp only [hr] at h
          split_ifs at h with hlag hret hroom
          · obtain ⟨rfl, rfl⟩ := Prod.mk.inj (Option.some.inj h)
            exact .ended hr (Or.inl hlag) (Or.inl rfl)
          · obtain ⟨rfl, rfl⟩ := Prod.mk.inj (Option.some.inj h)
            exact .ended hr (Or.inr (Or.inl hret)) (Or.inr ⟨hlag, hret⟩)
          · obtain ⟨rfl, rfl⟩ := Prod.mk.inj (Option.some.inj h)
            refine .forwarded hr ?_
            rintro (hlag' | hret' | hfull)
            · exact hlag hlag'
            · exact hret hret'
            · exact Nat.not_le.mpr hroom hfull
          · obtain ⟨rfl, rfl⟩ := Prod.mk.inj (Option.some.inj h)
            exact .ended hr (Or.inr (Or.inr (Nat.not_lt.mp hroom))) (Or.inl rfl)

/-- A step of `select!` or of a write leaves the database alone. -/
theorem turn_of_map {db db' : Db host} {o : Option Subscriber} {sub' : Subscriber}
    (h : o.map (db, ·) = some (db', sub')) : o = some sub' ∧ db = db' := by
  obtain ⟨s, hs, heq⟩ := Option.map_eq_some_iff.mp h
  obtain ⟨rfl, rfl⟩ := Prod.mk.inj heq
  exact ⟨hs, rfl⟩

theorem turn_cases {db db' : Db host} {sub sub' : Subscriber} {t : Turn}
    (h : sub.turn db t = some (db', sub')) : Moves db sub t db' sub' := by
  cases t with
  | advance => exact advance_cases h
  | forward channel => exact forward_cases h
  | write ok =>
      obtain ⟨hw, rfl⟩ := turn_of_map h
      exact write_cases db hw
  | read result =>
      obtain ⟨hr, rfl⟩ := turn_of_map h
      unfold Subscriber.read at hr
      split at hr
      · rename_i hp
        obtain rfl := Option.some.inj hr
        exact .read hp
      · cases hr
  | recv =>
      obtain ⟨hr, rfl⟩ := turn_of_map h
      unfold Subscriber.recv at hr
      split at hr
      · rename_i hp ho
        obtain rfl := Option.some.inj hr
        exact .recv hp ho
      · cases hr
  | closeSlow =>
      obtain ⟨hr, rfl⟩ := turn_of_map h
      unfold Subscriber.closeSlow at hr
      split at hr
      · rename_i hp hs
        obtain rfl := Option.some.inj hr
        exact .closeSlow hp hs
      · cases hr

/-! ## What a turn does to the receivers -/

/-- A forwarder of the call holds a receiver of the channel. -/
def Listens (sub : Subscriber) (channel : Bytes) : Prop :=
  ((sub.tasks.lookup channel).bind Forwarder.receiver).isSome = true

/-- The call has still to run `pubsub_gc` for the channel. -/
def Holds (sub : Subscriber) (channel : Bytes) : Prop :=
  (sub.tasks.lookup channel).isSome = true ∨
    ∃ ack next, sub.point = .collecting channel ack next

/-- The forwarder is out of `tasks` before its channel is collected, and the loop at the end
empties `tasks`. -/
structure Sound (sub : Subscriber) : Prop where
  collecting : ∀ channel ack next, sub.point = .collecting channel ack next →
    sub.tasks.lookup channel = none
  returned : sub.point = .returned true → ∀ channel, sub.tasks.lookup channel = none

/-- What one step can do: to the table, to the receivers, and to what is owed. -/
inductive Effect (db : Db host) (sub : Subscriber) : Db host → Subscriber → Prop where
  | quiet {sub' : Subscriber} (hl : ∀ j, sub'.Listens j ↔ sub.Listens j)
      (hh : ∀ j, sub.Holds j → sub'.Holds j) : Effect db sub db sub'
  | acquire {sub' : Subscriber} (channel : Bytes) (hn : ¬ sub.Listens channel)
      (hl : ∀ j, sub'.Listens j ↔ sub.Listens j ∨ j = channel)
      (hh : ∀ j, sub.Holds j ∨ j = channel → sub'.Holds j) :
      Effect db sub (db.pubsubSubscribe channel) sub'
  | release {sub' : Subscriber} (channel : Bytes) (hn : sub.Listens channel)
      (hl : ∀ j, sub'.Listens j ↔ sub.Listens j ∧ j ≠ channel)
      (hh : ∀ j, sub.Holds j → sub'.Holds j) : Effect db sub (db.dropReceiver channel) sub'
  | collect {sub' : Subscriber} (channel : Bytes) (hn : ¬ sub.Listens channel)
      (hl : ∀ j, sub'.Listens j ↔ sub.Listens j)
      (hh : ∀ j, j ≠ channel → sub.Holds j → sub'.Holds j) :
      Effect db sub (db.pubsubGc channel) sub'

/-- A step that leaves `tasks` alone, from a point that collects nothing. -/
theorem effect_point {sub : Subscriber} (db : Db host) {sub' : Subscriber}
    (ht : sub'.tasks = sub.tasks)
    (hp : ∀ channel ack next, sub.point ≠ .collecting channel ack next)
    (hc : ∀ channel ack next, sub'.point ≠ .collecting channel ack next)
    (hr : sub'.point = .returned true → ∀ channel, sub.tasks.lookup channel = none) :
    Effect db sub db sub' ∧ sub'.Sound := by
  constructor
  · refine .quiet (fun j => by rw [Listens, Listens, ht]) fun j hj => ?_
    rcases hj with hj | ⟨ack, next, hj⟩
    · exact Or.inl (by rwa [ht])
    · exact (hp j ack next hj).elim
  · constructor
    · exact fun channel ack next h => (hc channel ack next h).elim
    · exact fun h channel => by rw [ht]; exact hr h channel

/-- The forwarder of a channel is taken out of `tasks` and ended. -/
theorem effect_stop (db : Db host) {sub : Subscriber} {channel : Bytes} {h : Forwarder}
    (hp : ∀ channel ack next, sub.point ≠ .collecting channel ack next)
    (hl : sub.tasks.lookup channel = some h) (ack : Option Frame) (next : Place) :
    Effect db sub (sub.stop db channel h ack next).1 (sub.stop db channel h ack next).2 ∧
      (sub.stop db channel h ack next).2.Sound := by
  have hholds : ∀ j, sub.Holds j → (sub.stop db channel h ack next).2.Holds j := by
    intro j hj
    by_cases hjc : j = channel
    · exact Or.inr ⟨ack, next, by rw [hjc]; rfl⟩
    · rcases hj with hj | ⟨ack, next, hj⟩
      · exact Or.inl (by rwa [stop, FiniteMap.lookup_erase_apply, if_neg hjc])
      · exact (hp j ack next hj).elim
  have hlistens : ∀ j, (sub.stop db channel h ack next).2.Listens j ↔
      sub.Listens j ∧ j ≠ channel := by
    intro j
    unfold Listens
    rw [stop, FiniteMap.lookup_erase_apply]
    split_ifs with hjc
    · simp [hjc]
    · simp [hjc]
  constructor
  · cases hr : h.receiver with
    | some queue =>
        have habort : (sub.stop db channel h ack next).1 = db.dropReceiver channel := by
          rw [stop, abort, hr]
          rfl
        rw [habort]
        refine .release channel ?_ hlistens hholds
        rw [Listens, hl, Option.bind_some, hr]
        rfl
    | none =>
        have habort : (sub.stop db channel h ack next).1 = db := by
          rw [stop, abort, hr]
          rfl
        rw [habort]
        refine .quiet (fun j => (hlistens j).trans ⟨fun h => h.1, fun hj => ⟨hj, ?_⟩⟩) hholds
        rintro rfl
        rw [Listens, hl, Option.bind_some, hr] at hj
        cases hj
  · constructor
    · intro channel' ack' next' hpoint
      cases hpoint
      rw [stop, FiniteMap.lookup_erase_apply, if_pos rfl]
    · intro hpoint
      cases hpoint

/-- `subscribe_one` takes a receiver for a channel without a forwarder. -/
theorem effect_subscribeOne (db : Db host) {sub sub' : Subscriber} {channel : Bytes}
    (hp : ∀ channel ack next, sub.point ≠ .collecting channel ack next)
    (ht : sub'.tasks = (sub.subscribeOne db channel).2.tasks)
    {frame : Frame} {next : Place} (hp' : sub'.point = .writing frame next) :
    Effect db sub (sub.subscribeOne db channel).1 sub' ∧ sub'.Sound := by
  have hsound : sub'.Sound :=
    ⟨fun _ _ _ h => (nomatch hp'.symm.trans h), fun h => (nomatch hp'.symm.trans h)⟩
  unfold subscribeOne at ht ⊢
  split_ifs at ht ⊢ with hl
  · exact effect_point db ht hp (fun _ _ _ h => nomatch hp'.symm.trans h)
      fun h => nomatch hp'.symm.trans h
  · refine ⟨.acquire channel ?_ (fun j => ?_) fun j hj => ?_, hsound⟩
    · rw [Option.not_isSome_iff_eq_none] at hl
      rw [Listens, hl]
      exact Bool.false_ne_true
    · unfold Listens
      rw [ht, FiniteMap.lookup_insert_apply]
      split_ifs with hj
      · simp [hj]
      · simp [hj]
    · refine Or.inl ?_
      rw [ht, FiniteMap.lookup_insert_apply]
      split_ifs with hjc
      · rfl
      · rcases hj with (hj | ⟨ack, next, hj⟩) | hj
        · exact hj
        · exact (hp j ack next hj).elim
        · exact (hjc hj).elim

/-- The channel of a call that stands in front of `pubsub_gc` is collected. -/
theorem effect_collect {sub : Subscriber} (db : Db host) (hs : sub.Sound) {sub' : Subscriber}
    {channel : Bytes} {ack : Option Frame} {next : Place}
    (hp : sub.point = .collecting channel ack next) (ht : sub'.tasks = sub.tasks)
    (hc : ∀ channel ack next, sub'.point ≠ .collecting channel ack next)
    (hr : sub'.point ≠ .returned true) :
    Effect db sub (db.pubsubGc channel) sub' ∧ sub'.Sound := by
  have hnone := hs.collecting channel ack next hp
  refine ⟨.collect channel ?_ (fun j => by rw [Listens, Listens, ht]) fun j hj hold => ?_, ?_⟩
  · rw [Listens, hnone]
    exact Bool.false_ne_true
  · rcases hold with hold | ⟨ack', next', hold⟩
    · exact Or.inl (by rwa [ht])
    · rw [hp] at hold
      cases hold
      exact (hj rfl).elim
  · exact ⟨fun j ack next h => (hc j ack next h).elim, fun h => (hr h).elim⟩

/-- A frame leads to a write or back into the body. -/
theorem onRead_cases (sub : Subscriber) (result : ReadResult) :
    (∃ place, sub.onRead result = .running place) ∨
      (∃ frame next, sub.onRead result = .writing frame next) ∨
      (∃ frame, sub.onRead result = .failing frame) ∨ sub.onRead result = .returned false := by
  cases result with
  | eof => exact Or.inl ⟨_, rfl⟩
  | protocol msg => exact Or.inr (Or.inr (Or.inl ⟨_, rfl⟩))
  | failed => exact Or.inr (Or.inr (Or.inr rfl))
  | frame now frame =>
      unfold onRead
      dsimp only
      repeat' split
      all_goals first
        | exact Or.inl ⟨_, rfl⟩
        | exact Or.inr (Or.inl ⟨_, _, rfl⟩)
        | exact Or.inr (Or.inr (Or.inl ⟨_, rfl⟩))

/-- A forwarder that still has its receiver changes, and keeps its place in `tasks`. -/
theorem listens_insert {sub sub' : Subscriber} {channel : Bytes} {forwarder : Forwarder}
    (ht : sub'.tasks = sub.tasks.insert channel forwarder) (j : Bytes) :
    sub'.Listens j ↔ if j = channel then forwarder.receiver.isSome = true else sub.Listens j := by
  unfold Listens
  rw [ht, FiniteMap.lookup_insert_apply]
  split_ifs <;> rfl

theorem holds_insert {sub sub' : Subscriber} {channel : Bytes} {forwarder : Forwarder}
    (ht : sub'.tasks = sub.tasks.insert channel forwarder) (hp : sub'.point = sub.point) {j : Bytes}
    (h : sub.Holds j) : sub'.Holds j := by
  rcases h with h | ⟨ack, next, h⟩
  · refine Or.inl ?_
    rw [ht, FiniteMap.lookup_insert_apply]
    split_ifs
    · rfl
    · exact h
  · exact Or.inr ⟨ack, next, hp.trans h⟩

theorem sound_insert {sub sub' : Subscriber} (hs : sub.Sound) {channel : Bytes}
    {forwarder : Forwarder} (hl : sub.Listens channel)
    (ht : sub'.tasks = sub.tasks.insert channel forwarder) (hp : sub'.point = sub.point) :
    sub'.Sound := by
  have hin : sub.tasks.lookup channel ≠ none := fun hn => by
    rw [Listens, hn] at hl
    cases hl
  constructor
  · intro j ack next h
    have hnone := hs.collecting j ack next (hp.symm.trans h)
    have hj : j ≠ channel := fun hj => hin (hj ▸ hnone)
    rw [ht, FiniteMap.lookup_insert_apply, if_neg hj, hnone]
  · intro h
    exact (hin (hs.returned (hp.symm.trans h) channel)).elim

/-- A forwarder ends and drops its receiver. -/
theorem effect_end (db : Db host) {sub sub' : Subscriber} (hs : sub.Sound) {channel : Bytes}
    (hl : sub.Listens channel) (ht : sub'.tasks = sub.tasks.insert channel ⟨none⟩)
    (hp : sub'.point = sub.point) : Effect db sub (db.dropReceiver channel) sub' ∧ sub'.Sound := by
  refine ⟨.release channel hl (fun j => ?_) fun j hj => holds_insert ht hp hj,
    sound_insert hs hl ht hp⟩
  rw [listens_insert ht]
  split_ifs with hj
  · simp [hj]
  · simp [hj]

/-- A forwarder takes a message from its receiver and goes on. -/
theorem effect_forwarded (db : Db host) {sub sub' : Subscriber} (hs : sub.Sound) {channel : Bytes}
    {rest : List Bytes} (hl : sub.Listens channel)
    (ht : sub'.tasks = sub.tasks.insert channel ⟨some rest⟩) (hp : sub'.point = sub.point) :
    Effect db sub db sub' ∧ sub'.Sound := by
  refine ⟨.quiet (fun j => ?_) fun j => holds_insert ht hp, sound_insert hs hl ht hp⟩
  rw [listens_insert ht]
  split_ifs with hj
  · rw [hj]
    exact iff_of_true rfl hl
  · rfl

theorem listens_of_receiver {sub : Subscriber} {channel : Bytes} {queue : List Bytes}
    (h : (sub.tasks.lookup channel).bind Forwarder.receiver = some queue) :
    sub.Listens channel := by
  rw [Listens, h]
  rfl

/-- Every step has one of the four effects. -/
theorem turn_effect {db db' : Db host} {sub sub' : Subscriber} (hs : sub.Sound) {t : Turn}
    (h : sub.turn db t = some (db', sub')) : Effect db sub db' sub' ∧ sub'.Sound := by
  have hnot : ∀ {point : Point}, sub.point = point →
      (∀ channel ack next, point ≠ .collecting channel ack next) →
      ∀ channel ack next, sub.point ≠ .collecting channel ack next := fun hp hn => hp ▸ hn
  cases turn_cases h with
  | subscribed hp => exact effect_point db rfl (hnot hp nofun) nofun nofun
  | subscribing hp => exact effect_subscribeOne db (hnot hp nofun) rfl rfl
  | unsubscribed hp => exact effect_point db rfl (hnot hp nofun) nofun nofun
  | unsubscribing hp hl => exact effect_point db rfl (hnot hp nofun) nofun nofun
  | stopping hp hl hack => exact effect_stop db (hnot hp nofun) hl _ _
  | cleaned hp he =>
      refine effect_point db rfl (hnot hp nofun) nofun fun _ channel => ?_
      by_contra hl
      exact FiniteMap.entries_ne_nil_iff.mpr ⟨channel, Option.isSome_iff_ne_none.mpr hl⟩ he
  | cleaning hp hl => exact effect_stop db (hnot hp nofun) hl _ _
  | collected hp => exact effect_collect db hs hp rfl nofun nofun
  | acked hp => exact effect_collect db hs hp rfl nofun nofun
  | written hp hf => exact effect_point db rfl (hnot hp nofun) nofun nofun
  | unwritten hp hf => exact effect_point db rfl (hnot hp nofun) nofun nofun
  | failed hp => exact effect_point db rfl (hnot hp nofun) nofun nofun
  | @read result hp =>
      have hcases := sub.onRead_cases result
      refine effect_point db rfl (hnot hp nofun) ?_ ?_
      · intro channel ack next heq
        rcases hcases with ⟨_, hr⟩ | ⟨_, _, hr⟩ | ⟨_, hr⟩ | hr <;> exact nomatch hr.symm.trans heq
      · intro heq
        rcases hcases with ⟨_, hr⟩ | ⟨_, _, hr⟩ | ⟨_, hr⟩ | hr <;> exact nomatch hr.symm.trans heq
  | recv hp ho => exact effect_point db rfl (hnot hp nofun) nofun nofun
  | closeSlow hp hslow => exact effect_point db rfl (hnot hp nofun) nofun nofun
  | forwarded hr hroom => exact effect_forwarded db hs (listens_of_receiver hr) rfl rfl
  | ended hr hroom hslow => exact effect_end db hs (listens_of_receiver hr) rfl rfl

/-- A message changes neither the receivers nor the keys of `tasks`. -/
theorem deliver_quiet (channel message : Bytes) (sub : Subscriber) :
    (∀ j, (sub.deliver channel message).Listens j ↔ sub.Listens j) ∧
      (∀ j, ((sub.deliver channel message).tasks.lookup j).isSome = (sub.tasks.lookup j).isSome) ∧
      (sub.deliver channel message).point = sub.point := by
  unfold deliver
  cases hr : (sub.tasks.lookup channel).bind Forwarder.receiver with
  | none => exact ⟨fun j => Iff.rfl, fun j => rfl, rfl⟩
  | some queue =>
      have hin : (sub.tasks.lookup channel).isSome = true := by
        cases hl : sub.tasks.lookup channel with
        | none =>
            rw [hl] at hr
            cases hr
        | some h => rfl
      refine ⟨fun j => ?_, fun j => ?_, rfl⟩
      · rw [listens_insert rfl]
        split_ifs with hj
        · rw [hj, Listens, hr]
          exact iff_of_true rfl rfl
        · rfl
      · dsimp only
        rw [FiniteMap.lookup_insert_apply]
        split_ifs with hj
        · rw [hj, hin]
          rfl
        · rfl

theorem deliver_holds (channel message : Bytes) (sub : Subscriber) (j : Bytes) :
    (sub.deliver channel message).Holds j ↔ sub.Holds j := by
  have hquiet := deliver_quiet channel message sub
  rw [Holds, Holds, hquiet.2.1, hquiet.2.2]

theorem deliver_lookup_none {channel message : Bytes} {sub : Subscriber} {j : Bytes} :
    (sub.deliver channel message).tasks.lookup j = none ↔ sub.tasks.lookup j = none := by
  rw [← Option.not_isSome_iff_eq_none, (deliver_quiet channel message sub).2.1,
    Option.not_isSome_iff_eq_none]

theorem deliver_sound (channel message : Bytes) {sub : Subscriber} (hs : sub.Sound) :
    (sub.deliver channel message).Sound := by
  have hpoint := (deliver_quiet channel message sub).2.2
  constructor
  · intro j ack next h
    exact deliver_lookup_none.mpr (hs.collecting j ack next (hpoint.symm.trans h))
  · intro h j
    exact deliver_lookup_none.mpr (hs.returned (hpoint.symm.trans h) j)

/-- The step goes on to `return Err`, or to a `?` that does. -/
def fails (sub : Subscriber) : Turn → Bool
  | .write ok =>
      match sub.point with
      | .writing frame _ => !(ok && (Connection.writeFrame frame).isOk)
      | .failing _ => true
      | _ => false
  | .read .failed =>
      match sub.point with
      | .running .select => true
      | _ => false
  | _ => false

/-- A call that has returned has no forwarder left. -/
def Settled (sub : Subscriber) : Prop :=
  sub.hasReturned = true → ∀ channel, sub.tasks.lookup channel = none

theorem hasReturned_iff (sub : Subscriber) :
    sub.hasReturned = true ↔ ∃ ok, sub.point = .returned ok := by
  unfold hasReturned
  cases sub.point with
  | returned ok => exact iff_of_true rfl ⟨ok, rfl⟩
  | running place | collecting channel ack next | writing frame next | failing frame =>
      exact iff_of_false Bool.false_ne_true nofun

/-- A request does not end the call; only a read that fails does. -/
theorem onRead_returned {sub : Subscriber} {result : ReadResult}
    (h : sub.onRead result = .returned false) : result = .failed := by
  cases result with
  | failed => rfl
  | eof | protocol msg => cases h
  | frame now frame =>
      unfold onRead at h
      dsimp only at h
      repeat' split at h
      all_goals cases h

/-- A call returns with an error out of a write or a read that fails, and keeps its `tasks`. -/
theorem turn_returned {db db' : Db host} {sub sub' : Subscriber} {t : Turn}
    (h : sub.turn db t = some (db', sub')) (hf : sub'.point = .returned false) :
    (sub.point = .returned false ∧ ∃ channel, sub.Listens channel) ∨
      sub.fails t = true ∧ sub'.tasks = sub.tasks := by
  cases turn_cases h with
  | @unwritten ok frame next hp hw =>
      refine Or.inr ⟨?_, rfl⟩
      simp only [fails, hp, hw, Bool.not_false]
  | failed hp => exact Or.inr ⟨by rw [fails, hp], rfl⟩
  | read hp =>
      obtain rfl := onRead_returned hf
      exact Or.inr ⟨by rw [fails, hp], rfl⟩
  | forwarded hr hroom => exact Or.inl ⟨hf, _, listens_of_receiver hr⟩
  | ended hr hroom hslow => exact Or.inl ⟨hf, _, listens_of_receiver hr⟩
  | _ => cases hf

/-- No step leaves a forwarder behind but a failing one with forwarders left. -/
theorem turn_settled {db db' : Db host} {sub sub' : Subscriber} (hs : sub.Sound) {t : Turn}
    (h : sub.turn db t = some (db', sub')) (hset : sub.Settled)
    (hok : sub.fails t = true → sub.tasks.entries = []) : sub'.Settled := by
  intro hret channel
  have hpoint := (hasReturned_iff sub').mp hret
  cases hpoint with
  | intro ok hpoint => cases ok with
    | true => exact (turn_effect hs h).2.returned hpoint channel
    | false =>
        rcases turn_returned h hpoint with ⟨hp, channel', hl⟩ | ⟨hfails, ht⟩
        · have hnone := hset ((hasReturned_iff sub).mpr ⟨false, hp⟩) channel'
          rw [Listens, hnone] at hl
          cases hl
        · rw [ht]
          by_contra hne
          exact FiniteMap.entries_ne_nil_iff.mpr
            ⟨channel, Option.isSome_iff_ne_none.mpr hne⟩ (hok hfails)

/-- Nothing is held by a call that has returned with an empty `tasks`. -/
theorem Settled.not_holds {sub : Subscriber} (hs : sub.Settled) (hret : sub.hasReturned = true)
    (channel : Bytes) : ¬ sub.Holds channel := by
  rintro (h | ⟨ack, next, h⟩)
  · rw [hs hret channel] at h
    cases h
  · rw [hasReturned, h] at hret
    cases hret

end Subscriber
end MiniRedis.PubSub
