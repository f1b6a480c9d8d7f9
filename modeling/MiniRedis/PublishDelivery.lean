import MiniRedis.SubscriberCleanup
import MiniRedis.SubscriberOrder

/-!
# What becomes of a published message

The number with which `PUBLISH` answers is that of the forwarders that have got the message.
As long as such a forwarder is there and its call goes on, nothing is lost on the way: what
waited for the client and what is published from then on is what is written to it, and what
waits for it at the end, in this order.
-/
namespace MiniRedis.PubSub.World
open Runs

variable {host : Host} {Call : Type}

theorem listens_iff {w : World host Call} {c : Call} {channel : Bytes} :
    w.Listens c channel ↔ w.pending c channel ≠ none := by
  unfold World.Listens pending
  cases w.calls c with
  | none =>
      constructor
      · rintro ⟨sub, hsub, -⟩
        cases hsub
      · exact fun h => (h rfl).elim
  | some sub =>
      rw [Option.bind_some, ← Option.isSome_iff_ne_none]
      constructor
      · rintro ⟨sub', hsub, hlistens⟩
        cases hsub
        exact hlistens
      · exact fun hsome => ⟨sub, rfl, hsome⟩

variable [DecidableEq Call] {c : Call} {channel : Bytes}

theorem run_consistent (events : List (Event Call)) :
    (run step events (start : World host Call)).Consistent :=
  (kept (fun w e hw (_ : True) => step_consistent w e hw) consistent_start fun _ _ => trivial).2

/-- A message does not come to a call that has no receiver of its channel. -/
theorem publish_of_not_listening {w : World host Call} (message : Bytes)
    (h : w.pending c channel = none) :
    (step (.publish channel message) w).calls c = w.calls c := by
  change (w.calls c).map (Subscriber.deliver channel message) = w.calls c
  unfold pending at h
  cases hc : w.calls c with
  | none => rfl
  | some sub =>
      rw [hc, Option.bind_some, Subscriber.pending] at h
      rw [Option.map_some, Subscriber.deliver, h]

/-- A forwarder that lasts, with the output queue of its call: nothing gets lost. -/
theorem delivery_conserved {events : List (Event Call)} {w : World host Call}
    {queue queue' : List Bytes} (hlife : lifetime c channel events w = events)
    (hqueue : w.pending c channel = some queue)
    (hqueue' : (run step events w).pending c channel = some queue')
    (hret : ¬ Returned c (run step events w)) :
    backlog c channel w ++ queue ++ published channel events =
      written c channel events w ++ backlog c channel (run step events w) ++ queue' := by
  have halive := lifetime_alive c channel events w
  rw [hlife] at halive
  have hreceived := conserved (fun t ht => queues_receiver (halive t ht) t.2)
    (by rw [hqueue']; exact Option.some_ne_none queue')
  rw [published_eq, hqueue, hqueue'] at hreceived
  have hwritten := conserved (fun t _ => queues_output c channel t.1 t.2) hret
  have hw : (taken step events w).filterMap (writes c channel) = written c channel events w := by
    rw [written, sent, List.filterMap_filterMap]
    rfl
  rw [hw] at hwritten
  calc backlog c channel w ++ queue ++ published channel events
      = backlog c channel w ++ (queue ++ published channel events) := List.append_assoc ..
    _ = backlog c channel w ++ ((taken step events w).filterMap (put c channel) ++ queue') :=
        congrArg _ hreceived
    _ = backlog c channel w ++ (taken step events w).filterMap (put c channel) ++ queue' :=
        (List.append_assoc ..).symm
    _ = written c channel events w ++ backlog c channel (run step events w) ++ queue' := by
        rw [hwritten]

/-- `PUBLISH` answers with the number of the calls that get the message; no other call changes.
Whatever follows, such a call writes to its client what was waiting for it, then what is
published, each message once and in order, up to what is still on its way. -/
theorem publish_delivers {before after : List (Event Call)} {message : Bytes}
    {w w' : World host Call} (hw : run step before start = w)
    (hw' : run step (.publish channel message :: after) w = w') :
    ∃ listeners : Finset Call, (w.db.pubsubPublish channel).1 = listeners.card ∧
      (∀ c, c ∈ listeners ↔ w.pending c channel ≠ none) ∧
      (∀ c, c ∉ listeners → (step (.publish channel message) w).calls c = w.calls c) ∧
      ∀ c ∈ listeners, ∀ queue', w'.pending c channel = some queue' → ¬ Returned c w' →
        lifetime c channel (.publish channel message :: after) w =
          .publish channel message :: after →
        ∃ queue, w.pending c channel = some queue ∧
          backlog c channel w ++ queue ++ message :: published channel after =
            written c channel (.publish channel message :: after) w ++
              backlog c channel w' ++ queue' := by
  subst hw hw'
  obtain ⟨listeners, hmem, hcard⟩ := (@run_consistent host Call _ before).accounted.counted channel
  have hlisteners : ∀ c, c ∈ listeners ↔ (run step before start).pending c channel ≠ none :=
    fun c => (hmem c).trans listens_iff
  refine ⟨listeners, ?_, hlisteners, fun c hc => ?_, fun c hc queue' hqueue' hret hlife => ?_⟩
  · rw [publish_count, hcard]
  · exact publish_of_not_listening message (not_not.mp fun hne => hc ((hlisteners c).mpr hne))
  · obtain ⟨queue, hqueue⟩ := Option.ne_none_iff_exists'.mp ((hlisteners c).mp hc)
    have hpub : published channel (.publish channel message :: after : List (Event Call)) =
        message :: published channel after :=
      List.filterMap_cons_some (if_pos rfl)
    refine ⟨queue, hqueue, ?_⟩
    rw [← hpub]
    exact delivery_conserved hlife hqueue hqueue' hret

/-- A subscription, and the turns that bring one message to the client. -/
def oneListener : World ⟨fun _ => 0, 1⟩ Unit := run step [.call () [[97]], .turn () .advance] start

def deliveredTurns : List (Event Unit) :=
  [.turn () (.write true), .turn () .advance, .turn () (.forward [97]), .turn () .recv,
    .turn () (.write true)]

theorem publish_delivers_message :
    (oneListener.db.pubsubPublish [97]).1 = 1 ∧
      [[109]] = written () [97] (.publish [97] [109] :: deliveredTurns) oneListener := by
  have hw' : run step (.publish [97] [109] :: deliveredTurns) oneListener =
      run step (.publish [97] [109] :: deliveredTurns) oneListener := rfl
  obtain ⟨listeners, -, hmem, -, hall⟩ := publish_delivers rfl hw'
  have hlistens : () ∈ listeners := (hmem ()).mpr (Option.some_ne_none [])
  obtain ⟨queue, hqueue, heq⟩ := hall () hlistens [] rfl
    (fun ⟨sub, hsub, hret⟩ => by cases hsub; cases hret) rfl
  obtain rfl : [] = queue := Option.some.inj hqueue
  have hidle : backlog () [97] (run step (.publish [97] [109] :: deliveredTurns)
    oneListener) = [] := rfl
  rw [List.append_nil, hidle, List.append_nil] at heq
  exact ⟨rfl, heq⟩

end MiniRedis.PubSub.World
