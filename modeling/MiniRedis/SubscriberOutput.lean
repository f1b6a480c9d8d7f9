import MiniRedis.Runs
import MiniRedis.SubscriberSteps

/-!
# What a subscriber is sent

The frames that a call of `run_subscribed` writes. While the output queue holds only
messages of channels in `tasks`, every message is written after the reply to a
`SUBSCRIBE` for its channel, with no reply to an `UNSUBSCRIBE` in between. The body
does not empty the queue when it takes a channel out of `tasks`, so messages that wait
there come after the reply to the `UNSUBSCRIBE`.
-/
namespace MiniRedis.PubSub
open Wire

variable {host : Host}

def messageFrame (channel message : Bytes) : Frame :=
  .array [bulk "message", .bulk channel, .bulk message]

/-- The frame that a write at this point hands to the stream; `write_frame` refuses those
beyond the output limit. -/
def Subscriber.outgoing (sub : Subscriber) : Option Frame :=
  match sub.point with
  | .writing frame _ | .failing frame =>
      match Connection.writeFrame frame with
      | .ok _ => some frame
      | .error _ => none
  | _ => none

namespace World
variable {Call : Type} [DecidableEq Call]

/-- The frame that a step makes the call write. -/
def wrote (c : Call) (t : World host Call × Event Call) : Option Frame :=
  match t.2 with
  | .turn d (.write _) => if d = c then (t.1.calls c).bind Subscriber.outgoing else none
  | _ => none

/-- The frames that a call writes in a run. The last one may have been cut off. -/
def sent (c : Call) (events : List (Event Call)) (w : World host Call) : List Frame :=
  (Runs.taken step events w).filterMap (wrote c)

/-- The step takes a channel out of `tasks` for an `UNSUBSCRIBE` while messages of that
channel wait in the output queue. -/
def strands (c : Call) (t : World host Call × Event Call) : Bool :=
  match t.2 with
  | .turn d .advance => d = c && match t.1.calls c with
      | some sub =>
          match sub.point with
          | .running (.unsubscribing (channel :: _)) =>
              (sub.tasks.lookup channel).isSome && sub.out.any (·.1 = channel)
          | _ => false
      | none => false
  | _ => false

end World

/-- The last reply about the channel is the one to a `SUBSCRIBE`. -/
def Open (frames : List Frame) (channel : Bytes) : Prop :=
  ∃ before n after, frames = before ++ ackSubscribe "subscribe" channel n :: after ∧
    ∀ k, ackSubscribe "unsubscribe" channel k ∉ after

theorem tags_ne : bulk "subscribe" ≠ bulk "unsubscribe" := by
  rw [bulk, bulk, ne_eq, Frame.bulk.injEq]
  decide

theorem messageFrame_ne_ack (channel message : Bytes) (tag : String) (channel' : Bytes) (k : ℕ) :
    messageFrame channel message ≠ ackSubscribe tag channel' k := by
  simp [messageFrame, ackSubscribe]

theorem messageFrame_inj {channel channel' message message' : Bytes}
    (h : messageFrame channel message = messageFrame channel' message') :
    channel = channel' ∧ message = message' := by
  simpa [messageFrame] using h

theorem ack_ne_ack (channel channel' : Bytes) (n k : ℕ) :
    ackSubscribe "subscribe" channel n ≠ ackSubscribe "unsubscribe" channel' k := by
  simp [ackSubscribe, tags_ne]

theorem ack_channel {tag : String} {channel channel' : Bytes} {n k : ℕ}
    (h : ackSubscribe tag channel n = ackSubscribe tag channel' k) : channel = channel' := by
  simp only [ackSubscribe, Frame.array.injEq, List.cons.injEq, Frame.bulk.injEq] at h
  exact h.2.1

theorem open_subscribed (frames : List Frame) (channel : Bytes) (n : ℕ) :
    Open (frames ++ [ackSubscribe "subscribe" channel n]) channel :=
  ⟨frames, n, [], rfl, fun _ => List.not_mem_nil⟩

theorem Open.concat {frames : List Frame} {channel : Bytes} (h : Open frames channel)
    {frame : Frame} (hf : ∀ k, frame ≠ ackSubscribe "unsubscribe" channel k) :
    Open (frames ++ [frame]) channel := by
  obtain ⟨before, n, after, rfl, hno⟩ := h
  refine ⟨before, n, after ++ [frame], by simp, fun k hk => ?_⟩
  rcases List.mem_append.mp hk with hk | hk
  · exact hno k hk
  · exact hf k (List.mem_singleton.mp hk).symm

/-- The body can get back to `select!`. -/
def Place.looping : Place → Bool
  | .cleaning => false
  | _ => true

def Point.looping : Point → Bool
  | .running place => place.looping
  | .collecting _ _ next => next.looping
  | .writing _ next => next.looping
  | .failing _ | .returned _ => false

/-- A call that has written `frames`, as long as the output queue has been in step with `tasks`. -/
structure Heard (frames : List Frame) (sub : Subscriber) : Prop where
  queued : sub.point.looping = true → ∀ e ∈ sub.out, (sub.tasks.lookup e.1).isSome = true
  subscribed : sub.point.looping = true → ∀ channel, (sub.tasks.lookup channel).isSome = true →
    Open frames channel ∨ ∃ n next, sub.point = .writing (ackSubscribe "subscribe" channel n) next
  message : ∀ channel message next, sub.point = .writing (messageFrame channel message) next →
    Open frames channel
  closed : ∀ channel k next, sub.point = .writing (ackSubscribe "unsubscribe" channel k) next →
    sub.tasks.lookup channel = none
  collecting : ∀ channel frame next, sub.point = .collecting channel (some frame) next →
    sub.tasks.lookup channel = none ∧ ∃ k, frame = ackSubscribe "unsubscribe" channel k
  failing : ∀ frame, sub.point = .failing frame → ∃ text, frame = .error text
  sent : ∀ before channel message after,
    frames = before ++ messageFrame channel message :: after → Open before channel

/-- No reply to a `SUBSCRIBE` is on its way. -/
def Point.Settled (point : Point) : Prop :=
  ∀ channel n next, point ≠ .writing (ackSubscribe "subscribe" channel n) next

/-- A point at which no message and no reply about a channel is on its way. -/
inductive Plain : Point → Prop where
  | running (place : Place) : Plain (.running place)
  | returned (ok : Bool) : Plain (.returned ok)
  | failing (text : String) : Plain (.failing (.error text))
  | writing {frame : Frame} (next : Place)
      (hm : ∀ channel message, frame ≠ messageFrame channel message)
      (ha : ∀ tag channel k, frame ≠ ackSubscribe tag channel k) : Plain (.writing frame next)

theorem plain_error (text : String) (next : Place) : Plain (.writing (.error text) next) :=
  .writing next (fun _ _ => nofun) fun _ _ _ => nofun

namespace Heard
variable {frames : List Frame} {sub sub' : Subscriber}

theorem opened (h : Heard frames sub) (hp : sub.point.Settled)
    (hl : sub.point.looping = true) {channel : Bytes}
    (hin : (sub.tasks.lookup channel).isSome = true) : Open frames channel := by
  rcases h.subscribed hl channel hin with ho | ⟨n, next, hw⟩
  · exact ho
  · exact (hp channel n next hw).elim

/-- A step to a plain point. -/
theorem move (h : Heard frames sub) (ht : sub'.tasks = sub.tasks) (ho : sub'.out = sub.out)
    (hl : sub'.point.looping = true → sub.point.looping = true) (hp : sub.point.Settled)
    (hp' : Plain sub'.point) : Heard frames sub' where
  queued hloop := by
    rw [ht, ho]
    exact h.queued (hl hloop)
  subscribed hloop channel hin := by
    rw [ht] at hin
    exact Or.inl (h.opened hp (hl hloop) hin)
  message channel message next hw := by
    rw [hw] at hp'
    cases hp' with
    | writing next hm ha => exact (hm _ _ rfl).elim
  closed channel k next hw := by
    rw [hw] at hp'
    cases hp' with
    | writing next hm ha => exact (ha _ _ _ rfl).elim
  collecting channel frame next hw := by
    rw [hw] at hp'
    cases hp'
  failing frame hw := by
    rw [hw] at hp'
    cases hp' with
    | failing text => exact ⟨text, rfl⟩
  sent := h.sent

/-- The tasks and the queue may grow, as long as a message belongs to a channel in `tasks`. -/
theorem grow (h : Heard frames sub) (hp : sub'.point = sub.point)
    (ht : ∀ channel, (sub'.tasks.lookup channel).isSome = (sub.tasks.lookup channel).isSome)
    (ho : ∀ e ∈ sub'.out, e ∈ sub.out ∨ (sub.tasks.lookup e.1).isSome = true) :
    Heard frames sub' where
  queued hloop e he := by
    rw [ht]
    rw [hp] at hloop
    exact (ho e he).elim (h.queued hloop e) id
  subscribed := by
    simp only [hp, ht]
    exact h.subscribed
  message := by
    rw [hp]
    exact h.message
  closed channel k next hw := by
    have hn := h.closed channel k next (hp ▸ hw)
    rwa [← Option.isNone_iff_eq_none, ← Option.not_isSome, ht, Option.not_isSome,
      Option.isNone_iff_eq_none]
  collecting channel frame next hw := by
    obtain ⟨hn, hk⟩ := h.collecting channel frame next (hp ▸ hw)
    refine ⟨?_, hk⟩
    rwa [← Option.isNone_iff_eq_none, ← Option.not_isSome, ht, Option.not_isSome,
      Option.isNone_iff_eq_none]
  failing := by
    rw [hp]
    exact h.failing
  sent := h.sent

/-- The reply to a `SUBSCRIBE` is next. -/
theorem subscribing (h : Heard frames sub) (hp : sub.point.Settled)
    (hl : sub.point.looping = true) {channel : Bytes} {n : ℕ} {next : Place}
    (hp' : sub'.point = .writing (ackSubscribe "subscribe" channel n) next)
    (ho : sub'.out = sub.out)
    (ht : ∀ j, (sub'.tasks.lookup j).isSome = true ↔
      (sub.tasks.lookup j).isSome = true ∨ j = channel) : Heard frames sub' where
  queued _ e he := by
    rw [ho] at he
    exact (ht e.1).mpr (Or.inl (h.queued hl e he))
  subscribed _ j hin := by
    rcases (ht j).mp hin with hin | rfl
    · exact Or.inl (h.opened hp hl hin)
    · exact Or.inr ⟨n, next, hp'⟩
  message j message next' hw := by
    have heq := hp'.symm.trans hw
    exact (messageFrame_ne_ack _ _ _ _ _ (Point.writing.inj heq).1.symm).elim
  closed j k next' hw := by
    have heq := hp'.symm.trans hw
    exact (ack_ne_ack _ _ _ _ (Point.writing.inj heq).1).elim
  collecting j frame next' hw := nomatch hp'.symm.trans hw
  failing frame hw := nomatch hp'.symm.trans hw
  sent := h.sent

/-- The reply to an `UNSUBSCRIBE` is next. -/
theorem unsubscribing (h : Heard frames sub) (ht : sub'.tasks = sub.tasks)
    (ho : sub'.out = sub.out) (hl : sub'.point.looping = true → sub.point.looping = true)
    (hp : sub.point.Settled) {channel : Bytes} {k : ℕ}
    {next : Place} (hp' : sub'.point = .writing (ackSubscribe "unsubscribe" channel k) next)
    (hn : sub.tasks.lookup channel = none) : Heard frames sub' where
  queued hloop := by
    rw [ht, ho]
    exact h.queued (hl hloop)
  subscribed hloop j hin := by
    rw [ht] at hin
    exact Or.inl (h.opened hp (hl hloop) hin)
  message j message next' hw := by
    have heq := hp'.symm.trans hw
    exact (messageFrame_ne_ack _ _ _ _ _ (Point.writing.inj heq).1.symm).elim
  closed j k' next' hw := by
    have heq := hp'.symm.trans hw
    rwa [ht, ← ack_channel (Point.writing.inj heq).1]
  collecting j frame next' hw := nomatch hp'.symm.trans hw
  failing frame hw := nomatch hp'.symm.trans hw
  sent := h.sent

/-- A channel is taken out of `tasks`; what waits for it in the queue is never taken out of it. -/
theorem stop (h : Heard frames sub) (hp : sub.point.Settled) (db : Db host) (channel : Bytes)
    (forwarder : Forwarder) {ack : Option Frame} {next : Place}
    (hl : next.looping = true → sub.point.looping = true ∧ ∀ e ∈ sub.out, e.1 ≠ channel)
    (hack : ∀ frame, ack = some frame → ∃ k, frame = ackSubscribe "unsubscribe" channel k) :
    Heard frames (sub.stop db channel forwarder ack next).2 := by
  have hlookup : ∀ j, (sub.tasks.erase channel).lookup j =
      if j = channel then none else sub.tasks.lookup j :=
    fun j => FiniteMap.lookup_erase_apply ..
  constructor
  · intro hloop e he
    have hloop' := hl hloop
    change ((sub.tasks.erase channel).lookup e.1).isSome = true
    rw [hlookup, if_neg (hloop'.2 e he)]
    exact h.queued hloop'.1 e he
  · intro hloop j hin
    change ((sub.tasks.erase channel).lookup j).isSome = true at hin
    rw [hlookup] at hin
    split_ifs at hin
    · cases hin
    · exact Or.inl (h.opened hp (hl hloop).1 hin)
  · exact fun j message next' hw => nomatch hw
  · exact fun j k next' hw => nomatch hw
  · intro j frame next' hw
    obtain ⟨rfl, rfl, rfl⟩ := Point.collecting.inj hw
    refine ⟨?_, hack frame rfl⟩
    change (sub.tasks.erase channel).lookup channel = none
    rw [hlookup, if_pos rfl]
  · exact fun frame hw => nomatch hw
  · exact h.sent

end Heard

namespace Subscriber
variable {frames : List Frame} {sub sub' : Subscriber} {db db' : Db host}

theorem subscribeOne_isSome (db : Db host) (sub : Subscriber) (channel j : Bytes) :
    ((sub.subscribeOne db channel).2.tasks.lookup j).isSome = true ↔
      (sub.tasks.lookup j).isSome = true ∨ j = channel := by
  unfold subscribeOne
  split_ifs with h
  · exact ⟨Or.inl, fun hj => hj.elim id fun hj => hj ▸ h⟩
  · rw [FiniteMap.lookup_insert_apply]
    split_ifs with hj
    · simp [hj]
    · simp [hj]

/-- A frame that is written is the last one. -/
theorem sent_concat (h : Heard frames sub) {frame : Frame}
    (hm : ∀ channel message, frame = messageFrame channel message → Open frames channel)
    (before : List Frame) (channel message : Bytes) (after : List Frame)
    (heq : frames ++ [frame] = before ++ messageFrame channel message :: after) :
    Open before channel := by
  rcases List.eq_nil_or_concat after with rfl | ⟨after, last, rfl⟩
  · obtain ⟨rfl, hf⟩ := List.append_inj' heq rfl
    exact hm channel message (List.cons.inj hf).1
  · rw [List.concat_eq_append, ← List.cons_append, ← List.append_assoc] at heq
    exact h.sent before channel message after (List.append_inj' heq rfl).1

theorem outgoing_eq_some {frame : Frame} (h : sub.outgoing = some frame) :
    (∃ next, sub.point = .writing frame next) ∨ sub.point = .failing frame := by
  unfold outgoing at h
  cases hp : sub.point with
  | writing frame' next =>
      rw [hp] at h
      cases hf : Connection.writeFrame frame' with
      | ok bytes =>
          simp only [hf] at h
          exact Or.inl ⟨next, by rw [Option.some.inj h]⟩
      | error e => simp only [hf, reduceCtorEq] at h
  | failing frame' =>
      rw [hp] at h
      cases hf : Connection.writeFrame frame' with
      | ok bytes =>
          simp only [hf] at h
          exact Or.inr (by rw [Option.some.inj h])
      | error e => simp only [hf, reduceCtorEq] at h
  | running place | collecting channel ack next | returned ok =>
      rw [hp] at h
      cases h

theorem outgoing_eq_none {ok : Bool} (h : sub.write ok = none) : sub.outgoing = none := by
  unfold write at h
  unfold outgoing
  cases hp : sub.point with
  | writing frame next =>
      rw [hp] at h
      cases hf : Connection.writeFrame frame <;> simp only [hf, reduceCtorEq] at h
  | failing frame =>
      rw [hp] at h
      cases h
  | running place | collecting channel ack next | returned ok => rfl

/-- A message that is written belongs to a channel in `tasks`, also where the write fails. -/
theorem sent_outgoing (h : Heard frames sub) (before : List Frame) (channel message : Bytes)
    (after : List Frame)
    (heq : frames ++ sub.outgoing.toList = before ++ messageFrame channel message :: after) :
    Open before channel := by
  cases ho : sub.outgoing with
  | none =>
      rw [ho, Option.toList_none, List.append_nil] at heq
      exact h.sent before channel message after heq
  | some frame =>
      rw [ho, Option.toList_some] at heq
      refine sent_concat h (fun channel message hf => ?_) before channel message after heq
      rcases outgoing_eq_some ho with ⟨next, hp⟩ | hp
      · exact h.message channel message next (hf ▸ hp)
      · obtain ⟨text, htext⟩ := h.failing frame hp
        cases htext.symm.trans hf

/-- A call that has returned keeps no promises but those on what it has written. -/
theorem heard_returned (h : Heard frames sub) {ok : Bool} (hp : sub'.point = .returned ok) :
    Heard (frames ++ sub.outgoing.toList) sub' where
  queued hloop := by
    rw [hp] at hloop
    cases hloop
  subscribed hloop := by
    rw [hp] at hloop
    cases hloop
  message _ _ _ hw := by cases hp.symm.trans hw
  closed _ _ _ hw := by cases hp.symm.trans hw
  collecting _ _ _ hw := by cases hp.symm.trans hw
  failing _ hw := by cases hp.symm.trans hw
  sent := sent_outgoing h

theorem write_heard (h : Heard frames sub) {ok : Bool}
    (hw : sub.turn db (.write ok) = some (db', sub')) :
    Heard (frames ++ sub.outgoing.toList) sub' := by
  cases turn_cases hw with
  | unwritten hp hf => exact heard_returned h rfl
  | failed hp => exact heard_returned h rfl
  | @written frame next bytes hp hf =>
      have hsome : sub.outgoing = some frame := by rw [outgoing, hp]; simp only [hf]
      have hloop : next.looping = true → sub.point.looping = true := fun hl => hp ▸ hl
      refine ⟨fun hl => h.queued (hloop hl), fun hl channel hin => Or.inl ?_,
        fun _ _ _ => nofun, fun _ _ _ => nofun, fun _ _ _ => nofun, fun _ => nofun,
        sent_outgoing h⟩
      rw [hsome, Option.toList_some]
      rcases h.subscribed (hloop hl) channel hin with ho | ⟨n, next', hack⟩
      · -- a channel in `tasks` is not the one that an `UNSUBSCRIBE` is answered for
        refine ho.concat fun k hk => ?_
        rw [hk] at hp
        have hn := h.closed channel k next hp
        rw [hn] at hin
        cases hin
      · obtain ⟨rfl, -⟩ := Point.writing.inj (hp.symm.trans hack)
        exact open_subscribed frames channel n

theorem error_of_commandParseErrorFrame {err : ParseError} {frame : Frame}
    (h : Server.commandParseErrorFrame err = some frame) : ∃ text, frame = .error text := by
  unfold Server.commandParseErrorFrame at h
  split_ifs at h
  · exact ⟨_, (Option.some.inj h).symm⟩
  · exact ⟨_, (Option.some.inj h).symm⟩

/-- A request leads to a plain point. -/
theorem plain_onRead (sub : Subscriber) (result : ReadResult) : Plain (sub.onRead result) := by
  cases result with
  | eof => exact .running _
  | protocol msg => exact .failing _
  | failed => exact .returned _
  | frame now frame =>
      unfold onRead
      dsimp only
      cases Command.fromFrame now frame with
      | error err =>
          cases hf : Server.commandParseErrorFrame err with
          | none =>
              simp only [hf]
              exact .running _
          | some frame =>
              obtain ⟨text, rfl⟩ := error_of_commandParseErrorFrame hf
              simp only [hf]
              split_ifs
              · exact .failing text
              · exact plain_error text _
      | ok cmd =>
          cases cmd with
          | subscribe channels => exact .running _
          | unsubscribe channels =>
              dsimp only
              split_ifs
              · exact .writing _ (fun _ _ => by simp [messageFrame])
                  fun _ _ _ => by simp [ackSubscribe]
              · exact .running _
          | ping msg =>
              exact .writing _ (fun _ _ => by simp [messageFrame])
                fun _ _ _ => by simp [ackSubscribe]
          | _ => exact plain_error _ _

/-- A message that is taken out of the queue belongs to a channel in `tasks`. -/
theorem recv_heard (h : Heard frames sub) {channel message : Bytes} {out : List (Bytes × Bytes)}
    (hp : sub.point = .running .select) (ho : sub.out = (channel, message) :: out) :
    Heard frames { sub with
      out := out
      point := .writing (messageFrame channel message) .select } := by
  have hloop : sub.point.looping = true := by rw [hp]; rfl
  have hsettled : sub.point.Settled := fun _ _ _ hw => nomatch hp.symm.trans hw
  have hin : (channel, message) ∈ sub.out := ho ▸ List.mem_cons_self
  constructor
  · exact fun _ e he => h.queued hloop e (ho ▸ List.mem_cons_of_mem _ he)
  · exact fun _ j hj => Or.inl (h.opened hsettled hloop hj)
  · intro j message' next hw
    obtain ⟨rfl, -⟩ := messageFrame_inj (Point.writing.inj hw).1
    exact h.opened hsettled hloop (h.queued hloop _ hin)
  · intro j k next hw
    exact (messageFrame_ne_ack channel message _ _ _ (Point.writing.inj hw).1).elim
  · exact fun _ _ _ => nofun
  · exact fun _ => nofun
  · exact h.sent

theorem insert_isSome {tasks : HashMap Bytes Forwarder} {channel : Bytes}
    (h : (tasks.lookup channel).isSome = true) (forwarder : Forwarder) (j : Bytes) :
    ((tasks.insert channel forwarder).lookup j).isSome = (tasks.lookup j).isSome := by
  rw [FiniteMap.lookup_insert_apply]
  split_ifs with hj
  · rw [hj, h]
    rfl
  · rfl

theorem isSome_of_receiver {channel : Bytes} {queue : List Bytes}
    (h : (sub.tasks.lookup channel).bind Forwarder.receiver = some queue) :
    (sub.tasks.lookup channel).isSome = true := by
  obtain ⟨forwarder, hl, -⟩ := Option.bind_eq_some_iff.mp h
  rw [hl, Option.isSome_some]

theorem deliver_heard (h : Heard frames sub) (channel message : Bytes) :
    Heard frames (sub.deliver channel message) := by
  have hquiet := deliver_quiet channel message sub
  refine h.grow hquiet.2.2 hquiet.2.1 fun e he => Or.inl ?_
  unfold deliver at he
  split at he <;> exact he

theorem turn_heard (h : Heard frames sub) {t : Turn} (ht : ∀ ok, t ≠ .write ok)
    (hs : t = .advance → ∀ channel channels,
      sub.point = .running (.unsubscribing (channel :: channels)) →
        (sub.tasks.lookup channel).isSome = true → ∀ e ∈ sub.out, e.1 ≠ channel)
    (hr : sub.turn db t = some (db', sub')) : Heard frames sub' := by
  have hsettled : ∀ {point : Point}, sub.point = point → point.Settled → sub.point.Settled :=
    fun hp hn => hp ▸ hn
  have hloop : ∀ {place : Place}, sub.point = .running place → place.looping = true →
      sub.point.looping = true := fun hp hl => hp ▸ hl
  cases turn_cases hr with
  | subscribed hp => exact h.move rfl rfl (fun _ => hloop hp rfl) (hsettled hp nofun) (.running _)
  | @subscribing channel channels hp =>
      refine h.subscribing (hsettled hp nofun) (hloop hp rfl) rfl ?_
        (subscribeOne_isSome db sub channel)
      unfold subscribeOne
      split_ifs <;> rfl
  | unsubscribed hp => exact h.move rfl rfl (fun _ => hloop hp rfl) (hsettled hp nofun) (.running _)
  | unsubscribing hp hl =>
      exact h.unsubscribing rfl rfl (fun _ => hloop hp rfl) (hsettled hp nofun) rfl hl
  | @stopping channel channels forwarder hp hl ack hack =>
      refine h.stop (hsettled hp nofun) db channel forwarder
        (fun _ => ⟨hloop hp rfl, hs rfl channel channels hp (by rw [hl]; rfl)⟩) ?_
      rintro _ ⟨⟩
      exact ⟨_, hack⟩
  | cleaned hp he => exact h.move rfl rfl nofun (hsettled hp nofun) (.returned true)
  | cleaning hp hl => exact h.stop (hsettled hp nofun) db _ _ nofun nofun
  | collected hp => exact h.move rfl rfl (fun hl => hp ▸ hl) (hsettled hp nofun) (.running _)
  | acked hp =>
      obtain ⟨hn, k, rfl⟩ := h.collecting _ _ _ hp
      exact h.unsubscribing rfl rfl (fun hl => hp ▸ hl) (hsettled hp nofun) rfl hn
  | written | unwritten | failed => exact (ht _ rfl).elim
  | read hp =>
      exact h.move rfl rfl (fun _ => hloop hp rfl) (hsettled hp nofun) (plain_onRead sub _)
  | recv hp ho => exact recv_heard h hp ho
  | closeSlow hp hslow => exact h.move rfl rfl nofun (hsettled hp nofun) (plain_error _ _)
  | forwarded hq hroom =>
      have hin := isSome_of_receiver hq
      refine h.grow rfl (insert_isSome hin _) fun e he => ?_
      rcases List.mem_append.mp he with he | he
      · exact Or.inl he
      · obtain rfl := List.mem_singleton.mp he
        exact Or.inr hin
  | ended hq hroom hslow =>
      exact h.grow rfl (insert_isSome (isSome_of_receiver hq) _) fun e he => Or.inl he

end Subscriber

/-- Of two elements, the one that comes last in one reading of a list comes later in the other. -/
theorem mem_of_append_cons {A : Type} {l₁ l₂ m₁ m₂ : List A} {a b : A}
    (h : l₁ ++ a :: l₂ = m₁ ++ b :: m₂) (hne : a ≠ b) (hb : b ∉ l₂) : a ∈ m₂ := by
  induction l₁ generalizing m₁ with
  | nil =>
      cases m₁ with
      | nil => exact (hne (List.cons.inj h).1).elim
      | cons x m₁ => exact (hb ((List.cons.inj h).2 ▸ by simp)).elim
  | cons x l₁ ih =>
      cases m₁ with
      | nil => exact (List.cons.inj h).2 ▸ by simp
      | cons y m₁ => exact ih (List.cons.inj h).2

/-- Whatever the connection wrote before the call: after a reply to an `UNSUBSCRIBE`, the call
writes no message of the channel before it has written a reply to a `SUBSCRIBE` for it. -/
def SilentAfterUnsubscribe (earlier sent : List Frame) : Prop :=
  ∀ before channel k between message after,
    earlier ++ sent = before ++ ackSubscribe "unsubscribe" channel k ::
      (between ++ messageFrame channel message :: after) →
    after.length < sent.length → ∃ n, ackSubscribe "subscribe" channel n ∈ between

theorem Heard.silent {frames : List Frame} {sub : Subscriber} (h : Heard frames sub)
    (earlier : List Frame) : SilentAfterUnsubscribe earlier frames := by
  intro before channel k between message after heq hlen
  -- the message is one of this call
  obtain ⟨own, rfl⟩ : ∃ own, frames = own ++ messageFrame channel message :: after := by
    rw [← List.cons_append, ← List.append_assoc] at heq
    rcases List.append_eq_append_iff.mp heq with ⟨own, -, hown⟩ | ⟨own, -, hown⟩
    · exact ⟨own, hown⟩
    · have hle := congrArg List.length hown
      rw [List.length_append, List.length_cons] at hle
      have hnil : own = [] := List.eq_nil_of_length_eq_zero (by omega)
      exact ⟨[], by rw [hnil] at hown; exact hown.symm⟩
  rw [← List.cons_append, ← List.append_assoc, ← List.append_assoc] at heq
  have hprefix := List.append_cancel_right heq
  obtain ⟨before', n, after', rfl, hno⟩ := h.sent own channel message after rfl
  rw [← List.append_assoc] at hprefix
  exact ⟨n, mem_of_append_cons hprefix (ack_ne_ack channel channel n k) (hno k)⟩

namespace World
variable {Call : Type} [DecidableEq Call]

/-- Call `c` has written `frames`. -/
def HeardBy (c : Call) (frames : List Frame) (w : World host Call) : Prop :=
  (w.calls c = none → frames = []) ∧ ∀ sub, w.calls c = some sub → Heard frames sub

theorem step_heard {c : Call} (frames : List Frame) (w : World host Call) (e : Event Call)
    (h : w.HeardBy c frames) (hs : strands c (w, e) = false) :
    (step e w).HeardBy c (frames ++ (wrote c (w, e)).toList) := by
  cases e with
  | call d channels =>
      simp only [wrote, Option.toList_none, List.append_nil, step]
      split_ifs with hd
      · exact h
      · by_cases hdc : c = d
        · subst hdc
          obtain rfl := h.1 (Option.not_isSome_iff_eq_none.mp hd)
          constructor
          · exact fun _ => rfl
          · intro sub hsub
            simp only [Function.update_self] at hsub
            obtain rfl := Option.some.inj hsub
            refine ⟨fun _ _ he => (nomatch he), fun _ j hj => (nomatch hj), fun _ _ _ => nofun,
              fun _ _ _ => nofun, fun _ _ _ => nofun, fun _ => nofun, fun before _ _ _ heq => ?_⟩
            cases before <;> cases heq
        · simpa [HeardBy, Function.update_of_ne hdc] using h
  | publish channel message =>
      simp only [wrote, Option.toList_none, List.append_nil]
      constructor
      · exact fun hn => h.1 (Option.map_eq_none_iff.mp hn)
      · intro sub hsub
        obtain ⟨sub, hc, rfl⟩ := Option.map_eq_some_iff.mp hsub
        exact Subscriber.deliver_heard (h.2 sub hc) channel message
  | turn d t =>
      rw [step]
      cases hr : (w.calls d).bind fun sub => sub.turn w.db t with
      | none =>
          have hnone : wrote c (w, .turn d t) = none := by
            cases t with
            | write ok =>
                simp only [wrote]
                split_ifs with hd
                · subst hd
                  cases hc : w.calls d with
                  | none => rfl
                  | some sub =>
                      rw [hc, Option.bind_some] at hr
                      exact Subscriber.outgoing_eq_none (Option.map_eq_none_iff.mp hr)
                · rfl
            | _ => rfl
          rw [hnone, Option.toList_none, List.append_nil]
          exact h
      | some r =>
          obtain ⟨sub, hd, hturn⟩ := Option.bind_eq_some_iff.mp hr
          obtain ⟨db', sub'⟩ := r
          by_cases hdc : d = c
          · subst hdc
            refine ⟨fun hn => by simp at hn, fun s hsub => ?_⟩
            simp only [Function.update_self] at hsub
            obtain rfl := Option.some.inj hsub
            have hsub := h.2 sub hd
            cases t with
            | write ok =>
                simp only [wrote, hd, if_true, Option.bind_some]
                exact Subscriber.write_heard hsub hturn
            | advance =>
                simp only [wrote, Option.toList_none, List.append_nil]
                refine Subscriber.turn_heard hsub (fun _ => Turn.noConfusion)
                  (fun _ j js hp hin e he hej => ?_) hturn
                simp only [strands, hd, hp, hin, decide_true, Bool.true_and,
                  List.any_eq_false] at hs
                exact hs e he (decide_eq_true hej)
            | _ =>
                simp only [wrote, Option.toList_none, List.append_nil]
                exact Subscriber.turn_heard hsub (fun _ => Turn.noConfusion) Turn.noConfusion hturn
          · have hnone : wrote c (w, .turn d t) = none := by
              cases t with
              | write ok => simp only [wrote, if_neg hdc]
              | _ => rfl
            rw [hnone, Option.toList_none, List.append_nil]
            simpa [HeardBy, Function.update_of_ne (Ne.symm hdc)] using h

/-- A call that never takes a channel out of `tasks` while messages of it wait in the output
queue is silent about a channel after the reply to an `UNSUBSCRIBE`. -/
theorem silent_after_unsubscribe {events : List (Event Call)} {c : Call}
    (h : ∀ t ∈ Runs.taken step events (start : World host Call), strands c t = false)
    (earlier : List Frame) :
    SilentAfterUnsubscribe earlier (sent c events (start : World host Call)) := by
  have hstart : (start : World host Call).HeardBy c [] :=
    ⟨fun _ => rfl, fun sub hsub => nomatch hsub⟩
  have hrun := Runs.kept_noted step_heard hstart h
  rw [List.nil_append] at hrun
  cases hc : (Runs.run step events (start : World host Call)).calls c with
  | some sub => exact (hrun.2 sub hc).silent earlier
  | none =>
      intro before channel k between message after _ hlen
      rw [sent, hrun.1 hc] at hlen
      cases hlen

def subscribed : List (Event Unit) :=
  [.call () [[97], [98]], .turn () .advance, .turn () (.write true), .turn () .advance,
    .turn () (.write true), .turn () .advance, .publish [97] [109], .turn () (.forward [97])]

def unsubscribeA : List (Event Unit) :=
  [.turn () (.read (.frame 0 (.array [bulk "UNSUBSCRIBE", .bulk [97]]))), .turn () .advance,
    .turn () .advance, .turn () (.write true), .turn () .advance]

def receive : List (Event Unit) := [.turn () .recv, .turn () (.write true)]

theorem sent_stranded :
    sent () (subscribed ++ unsubscribeA ++ receive) (start : World ⟨fun _ => 0, 1⟩ Unit) =
      [ackSubscribe "subscribe" [97] 1, ackSubscribe "subscribe" [98] 2,
        ackSubscribe "unsubscribe" [97] 1, messageFrame [97] [109]] := rfl

/-- The message is in the output queue when the `UNSUBSCRIBE` comes, and is written after the
reply to it. -/
theorem stranded_message_written :
    ¬ SilentAfterUnsubscribe [] (sent () (subscribed ++ unsubscribeA ++ receive)
      (start : World ⟨fun _ => 0, 1⟩ Unit)) := by
  rw [sent_stranded]
  intro h
  obtain ⟨n, hn⟩ := h [ackSubscribe "subscribe" [97] 1, ackSubscribe "subscribe" [98] 2] [97] 1 []
    [109] [] rfl (by decide)
  cases hn

/-- If the message is written first, the call is silent. -/
theorem silent_after_unsubscribe_received :
    SilentAfterUnsubscribe [] (sent () (subscribed ++ receive ++ unsubscribeA)
      (start : World ⟨fun _ => 0, 1⟩ Unit)) :=
  silent_after_unsubscribe (by decide) []

end World
end MiniRedis.PubSub
