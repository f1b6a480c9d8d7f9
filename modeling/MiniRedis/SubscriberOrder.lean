import MiniRedis.QueueRuns
import MiniRedis.SubscriberOutput

/-!
# The order of the messages

A message passes through the receiver of a forwarder and through the output queue of the
call. The forwarder ends when it has to drop a message, so what it puts into the output
queue is a prefix of what was published since it subscribed, and what the call writes is
a prefix of what was put there.
-/
namespace MiniRedis.PubSub
open Wire Runs

variable {host : Host}

/-- The message in a frame about the channel. -/
def messageOn (channel : Bytes) : Frame → Option Bytes
  | .array [.bulk tag, .bulk j, .bulk message] =>
      if tag = asBytes "message" ∧ j = channel then some message else none
  | _ => none

theorem eq_of_messageOn {channel message : Bytes} {frame : Frame}
    (h : messageOn channel frame = some message) : frame = messageFrame channel message := by
  unfold messageOn at h
  split at h
  · split_ifs at h with heq
    obtain ⟨rfl, rfl⟩ := heq
    obtain rfl := Option.some.inj h
    rfl
  · cases h

theorem messageOn_messageFrame (j message channel : Bytes) :
    messageOn channel (messageFrame j message) = if j = channel then some message else none := by
  simp [messageOn, messageFrame, bulk]

/-- The message of the channel that a step publishes. -/
def publishes {Call : Type} (channel : Bytes) : Event Call → Option Bytes
  | .publish j message => if j = channel then some message else none
  | _ => none

def published {Call : Type} (channel : Bytes) (events : List (Event Call)) : List Bytes :=
  events.filterMap (publishes channel)

namespace Subscriber

/-- What the receiver of the channel's forwarder has not returned yet. -/
def pending (sub : Subscriber) (channel : Bytes) : Option (List Bytes) :=
  (sub.tasks.lookup channel).bind Forwarder.receiver

/-- The message that the forwarder puts into the output queue in its next turn. -/
def forwards (sub : Subscriber) (channel : Bytes) : Option Bytes :=
  match sub.pending channel with
  | some (message :: rest) =>
      if pubsubChanCap < (message :: rest).length ∨ sub.hasReturned = true ∨
        pubsubOutputCap ≤ sub.out.length then none
      else some message
  | _ => none

/-- In its next turn the forwarder finds that it has fallen behind, or that the output queue
is full. -/
def drops (sub : Subscriber) (channel : Bytes) : Bool :=
  match sub.pending channel with
  | some (message :: rest) => decide (pubsubChanCap < (message :: rest).length) ||
      (!sub.hasReturned && decide (pubsubOutputCap ≤ sub.out.length))
  | _ => false

end Subscriber

namespace World
variable {Call : Type} [DecidableEq Call]

def pending (c : Call) (channel : Bytes) (w : World host Call) : Option (List Bytes) :=
  (w.calls c).bind fun sub => sub.pending channel

/-- What a step puts into the output queue of the call for the channel. -/
def put (c : Call) (channel : Bytes) (t : World host Call × Event Call) : Option Bytes :=
  match t.2 with
  | .turn d (.forward j) =>
      if d = c ∧ j = channel then (t.1.calls c).bind fun sub => sub.forwards channel else none
  | _ => none

def puts (c : Call) (channel : Bytes) (events : List (Event Call)) (w : World host Call) :
    List Bytes := (taken step events w).filterMap (put c channel)

/-- The messages of the channel that the call writes. -/
def written (c : Call) (channel : Bytes) (events : List (Event Call)) (w : World host Call) :
    List Bytes := (sent c events w).filterMap (messageOn channel)

/-- The part of a run in which the forwarder that is there at first has its receiver. -/
def lifetime (c : Call) (channel : Bytes) : List (Event Call) → World host Call →
    List (Event Call)
  | [], _ => []
  | e :: events, w =>
      if (w.pending c channel).isSome then e :: lifetime c channel events (step e w) else []

end World

namespace Subscriber
variable {sub sub' : Subscriber} {db db' : Db host}

/-- What a turn does to the receiver of the channel's forwarder. -/
inductive Flow (channel : Bytes) (sub : Subscriber) (t : Turn) (sub' : Subscriber) : Prop where
  | quiet (ht : t ≠ .forward channel) (h : sub'.pending channel = sub.pending channel)
  | ended (hf : t = .forward channel → sub.forwards channel = none)
      (h : sub'.pending channel = none)
  | subscribed (ht : t ≠ .forward channel) (h : sub.pending channel = none)
      (h' : sub'.pending channel = some [])
  | forwarded (message : Bytes) (rest : List Bytes) (ht : t = .forward channel)
      (hf : sub.forwards channel = some message) (h : sub.pending channel = some (message :: rest))
      (h' : sub'.pending channel = some rest)

theorem pending_insert {tasks : HashMap Bytes Forwarder} {j : Bytes} {forwarder : Forwarder}
    (ht : sub'.tasks = tasks.insert j forwarder) (channel : Bytes) :
    sub'.pending channel =
      if channel = j then forwarder.receiver
      else (tasks.lookup channel).bind Forwarder.receiver := by
  unfold pending
  rw [ht, FiniteMap.lookup_insert_apply]
  split_ifs <;> rfl

theorem flow_stop (db : Db host) (sub : Subscriber) (j : Bytes) (forwarder : Forwarder)
    (ack : Option Frame) (next : Place) (channel : Bytes) :
    Flow channel sub .advance (sub.stop db j forwarder ack next).2 := by
  have hlookup : (sub.stop db j forwarder ack next).2.pending channel =
      if channel = j then none else sub.pending channel := by
    change ((sub.tasks.erase j).lookup channel).bind Forwarder.receiver = _
    rw [FiniteMap.lookup_erase_apply]
    split_ifs <;> rfl
  by_cases hj : channel = j
  · rw [if_pos hj] at hlookup
    exact .ended nofun hlookup
  · rw [if_neg hj] at hlookup
    exact .quiet nofun hlookup

theorem flow_subscribeOne (channel j : Bytes) (ht : sub'.tasks = (sub.subscribeOne db j).2.tasks) :
    Flow channel sub .advance sub' := by
  unfold subscribeOne at ht
  split_ifs at ht with hin
  · exact .quiet nofun (by rw [pending, pending, ht])
  · have hnone : sub.tasks.lookup j = none := Option.not_isSome_iff_eq_none.mp hin
    have hpending := pending_insert ht channel
    by_cases hj : channel = j
    · rw [if_pos hj] at hpending
      refine .subscribed nofun ?_ hpending
      rw [pending, hj, hnone]
      rfl
    · rw [if_neg hj] at hpending
      exact .quiet nofun hpending

/-- A turn of a forwarder: it puts its message into the queue, or it ends. -/
theorem forward_spec {j : Bytes} (h : sub.turn db (.forward j) = some (db', sub')) :
    ∃ message rest, sub.pending j = some (message :: rest) ∧
      (sub.forwards j = some message ∧ sub'.tasks = sub.tasks.insert j ⟨some rest⟩ ∧
          sub'.out = sub.out ++ [(j, message)] ∧ sub'.point = sub.point ∨
        sub.forwards j = none ∧ sub'.tasks = sub.tasks.insert j ⟨none⟩ ∧ sub'.out = sub.out ∧
          sub'.point = sub.point ∧ (sub.drops j = true → sub'.slow = sub.slow ++ [j])) := by
  cases turn_cases h with
  | @forwarded _ message rest hq hroom =>
      have hpending : sub.pending j = some (message :: rest) := hq
      refine ⟨message, rest, hpending, Or.inl ⟨?_, rfl, rfl, rfl⟩⟩
      simp only [forwards, hpending]
      exact if_neg hroom
  | @ended _ message rest slow hq hroom hslow =>
      have hpending : sub.pending j = some (message :: rest) := hq
      refine ⟨message, rest, hpending, Or.inr ⟨?_, rfl, rfl, rfl, fun hdrop => ?_⟩⟩
      · simp only [forwards, hpending]
        exact if_pos hroom
      · rcases hslow with hslow | ⟨hlag, hret⟩
        · exact hslow
        · simp only [drops, hpending, decide_eq_false hlag, hret, Bool.not_true, Bool.false_and,
            Bool.or_false, Bool.false_eq_true] at hdrop

theorem flow_forward (channel : Bytes) {j : Bytes}
    (h : sub.turn db (.forward j) = some (db', sub')) : Flow channel sub (.forward j) sub' := by
  obtain ⟨message, rest, hpending, ⟨hf, ht, -, -⟩ | ⟨hf, ht, -, -, -⟩⟩ := forward_spec h
  · have hnew := pending_insert ht channel
    by_cases hj : channel = j
    · subst hj
      rw [if_pos rfl] at hnew
      exact .forwarded message rest rfl hf hpending hnew
    · rw [if_neg hj] at hnew
      exact .quiet (fun heq => hj (Turn.forward.inj heq).symm) hnew
  · have hnew := pending_insert ht channel
    by_cases hj : channel = j
    · subst hj
      rw [if_pos rfl] at hnew
      exact .ended (fun _ => hf) hnew
    · rw [if_neg hj] at hnew
      exact .quiet (fun heq => hj (Turn.forward.inj heq).symm) hnew

theorem flow_turn (channel : Bytes) {t : Turn} (h : sub.turn db t = some (db', sub')) :
    Flow channel sub t sub' := by
  cases turn_cases h with
  | subscribing hp => exact flow_subscribeOne channel _ rfl
  | stopping hp hl hack => exact flow_stop db sub _ _ _ _ channel
  | cleaning hp hl => exact flow_stop db sub _ _ _ _ channel
  | forwarded | ended => exact flow_forward channel h
  | _ => exact .quiet nofun rfl

/-- A message comes to the receiver of its own channel. -/
theorem pending_deliver (sub : Subscriber) (j message channel : Bytes) :
    (sub.deliver j message).pending channel =
      (sub.pending channel).map fun queue => if j = channel then queue ++ [message] else queue := by
  unfold deliver
  cases hq : (sub.tasks.lookup j).bind Forwarder.receiver with
  | none =>
      by_cases hj : j = channel
      · subst hj
        rw [pending, hq]
        rfl
      · simp only [if_neg hj, Option.map_id']
  | some queue =>
      dsimp only
      rw [pending_insert rfl]
      by_cases hj : j = channel
      · subst hj
        rw [if_pos rfl, pending, hq]
        simp
      · rw [if_neg (Ne.symm hj)]
        simp only [if_neg hj, Option.map_id']
        rfl

/-! ## The output queue -/

/-- What a turn puts into the output queue for the channel. -/
def puts (sub : Subscriber) (channel : Bytes) : Turn → Option Bytes
  | .forward j => if j = channel then sub.forwards channel else none
  | _ => none

/-- The message of the channel that a turn writes. -/
def writes (sub : Subscriber) (channel : Bytes) : Turn → Option Bytes
  | .write _ => sub.outgoing.bind (messageOn channel)
  | _ => none

/-- The message of the channel that has left the queue and is not yet written. -/
def underway (channel : Bytes) : Point → Option Bytes
  | .writing frame _ | .failing frame | .collecting _ (some frame) _ => messageOn channel frame
  | _ => none

def backlog (sub : Subscriber) (channel : Bytes) : List Bytes :=
  (underway channel sub.point).toList ++ (sub.out.filter (·.1 = channel)).map (·.2)

theorem underway_plain {point : Point} (h : Plain point) (channel : Bytes) :
    underway channel point = none := by
  cases h with
  | writing next hm ha =>
      by_contra hne
      obtain ⟨message, hmessage⟩ := Option.ne_none_iff_exists'.mp hne
      exact hm channel message (eq_of_messageOn hmessage)
  | running place | returned ok | failing text => rfl

theorem backlog_eq (channel : Bytes) (ho : sub'.out = sub.out)
    (hu : underway channel sub'.point = underway channel sub.point) :
    sub'.backlog channel = sub.backlog channel := by rw [backlog, backlog, ho, hu]

/-- What a write hands to the stream was underway. -/
theorem writes_prefix (sub : Subscriber) (channel : Bytes) (ok : Bool) :
    (sub.writes channel (.write ok)).toList <+: sub.backlog channel := by
  rw [writes]
  cases ho : sub.outgoing with
  | none => exact List.nil_prefix
  | some frame =>
      have hunder : underway channel sub.point = messageOn channel frame := by
        rcases outgoing_eq_some ho with ⟨next, hp⟩ | hp <;> rw [hp, underway]
      rw [Option.bind_some, backlog, hunder]
      exact List.prefix_append _ _

theorem backlog_forward (channel : Bytes) {j : Bytes}
    (h : sub.turn db (.forward j) = some (db', sub')) :
    sub.backlog channel ++ (sub.puts channel (.forward j)).toList = sub'.backlog channel := by
  obtain ⟨message, rest, -, ⟨hf, -, ho, hp⟩ | ⟨hf, -, ho, hp, -⟩⟩ := forward_spec h
  · rw [backlog, backlog, ho, hp]
    by_cases hj : j = channel
    · subst hj
      simp [puts, hf]
    · simp [puts, hj]
  · rw [backlog_eq channel ho (by rw [hp])]
    by_cases hj : j = channel
    · subst hj
      simp [puts, hf]
    · simp [puts, hj]

/-- A message enters the backlog when a forwarder puts it into the queue and leaves it when it
is written; where the write fails, the call returns. -/
theorem backlog_turn (channel : Bytes) {t : Turn} (h : sub.turn db t = some (db', sub')) :
    sub.backlog channel ++ (sub.puts channel t).toList =
        (sub.writes channel t).toList ++ sub'.backlog channel ∨
      sub'.hasReturned = true ∧
        (sub.writes channel t).toList <+: sub.backlog channel ++ (sub.puts channel t).toList := by
  have keep : ∀ {sub' : Subscriber}, sub'.out = sub.out →
      underway channel sub'.point = underway channel sub.point →
      sub.backlog channel ++ [] = [] ++ sub'.backlog channel := by
    intro sub' ho hu
    rw [backlog_eq channel ho hu, List.append_nil, List.nil_append]
  cases turn_cases h with
  | subscribed hp | unsubscribed hp | unsubscribing hp hl | cleaned hp he | cleaning hp hl
  | collected hp | acked hp | closeSlow hp hs => exact Or.inl (keep rfl (by rw [hp]; rfl))
  | stopping hp hl hack => exact Or.inl (keep rfl (by rw [hp, hack]; rfl))
  | subscribing hp =>
      refine Or.inl (keep ?_ (by rw [hp]; rfl))
      unfold subscribeOne
      split_ifs <;> rfl
  | read hp =>
      refine Or.inl (keep rfl ?_)
      rw [hp]
      exact underway_plain (plain_onRead sub _) channel
  | @written frame next bytes hp hf =>
      left
      have hsome : sub.outgoing = some frame := by rw [outgoing, hp]; simp only [hf]
      rw [writes, hsome, Option.bind_some, backlog, backlog, hp]
      simp [underway, puts]
  | unwritten | failed =>
      refine Or.inr ⟨rfl, ?_⟩
      change _ <+: sub.backlog channel ++ []
      rw [List.append_nil]
      exact writes_prefix sub channel _
  | @recv j message out hp ho =>
      left
      have hnew : underway channel
          (.writing (.array [bulk "message", .bulk j, .bulk message]) .select) =
          if j = channel then some message else none := messageOn_messageFrame j message channel
      rw [backlog, backlog, hp, ho, hnew]
      by_cases hj : j = channel
      · simp [puts, writes, underway, hj]
      · simp [puts, writes, underway, hj]
  | forwarded | ended => exact Or.inl (backlog_forward channel h)

/-- A call that has returned writes nothing any more. -/
theorem returned_turn (hret : sub.hasReturned = true) {t : Turn}
    (h : sub.turn db t = some (db', sub')) :
    sub'.hasReturned = true ∧ ∀ channel, sub.writes channel t = none := by
  cases turn_cases h with
  | forwarded | ended => exact ⟨hret, fun _ => rfl⟩
  | subscribed hp | subscribing hp | unsubscribed hp | unsubscribing hp hl | stopping hp hl hack
  | cleaned hp he | cleaning hp hl | collected hp | acked hp | written hp hf | unwritten hp hf
  | failed hp | read hp | recv hp ho | closeSlow hp hs =>
      rw [hasReturned, hp] at hret
      cases hret

theorem backlog_deliver (sub : Subscriber) (j message channel : Bytes) :
    (sub.deliver j message).backlog channel = sub.backlog channel ∧
      (sub.deliver j message).hasReturned = sub.hasReturned := by
  unfold deliver
  cases (sub.tasks.lookup j).bind Forwarder.receiver <;> exact ⟨rfl, rfl⟩

theorem puts_of_ne {channel : Bytes} {t : Turn} (h : t ≠ .forward channel) :
    sub.puts channel t = none := by
  cases t with
  | forward j =>
      rw [puts, if_neg]
      rintro rfl
      exact h rfl
  | _ => rfl

theorem puts_eq_none {channel : Bytes} {t : Turn} (h : sub.turn db t = none) :
    sub.puts channel t = none := by
  cases t with
  | forward j =>
      rw [puts]
      split_ifs with hj
      · subst hj
        change sub.forward db j = none at h
        unfold forward at h
        cases hq : (sub.tasks.lookup j).bind Forwarder.receiver with
        | none =>
            rw [forwards, pending, hq]
        | some queue =>
            cases queue with
            | nil => rw [forwards, pending, hq]
            | cons message rest =>
                simp only [hq] at h
                split_ifs at h
      · rfl
  | _ => rfl

theorem writes_eq_none {channel : Bytes} {t : Turn} (h : sub.turn db t = none) :
    sub.writes channel t = none := by
  cases t with
  | write ok => rw [writes, outgoing_eq_none (Option.map_eq_none_iff.mp h), Option.bind_none]
  | _ => rfl

theorem forwards_of_drops {channel : Bytes} (h : sub.drops channel = true) :
    sub.forwards channel = none := by
  unfold drops at h
  unfold forwards
  cases hq : sub.pending channel with
  | none => rfl
  | some queue =>
      cases queue with
      | nil => rfl
      | cons message rest =>
          simp only [hq, Bool.or_eq_true, decide_eq_true_eq, Bool.and_eq_true] at h
          exact if_pos (h.imp_right fun h => Or.inr h.2)

theorem forward_of_drops (db : Db host) {channel : Bytes} (h : sub.drops channel = true) :
    ∃ db' sub', sub.turn db (.forward channel) = some (db', sub') := by
  unfold drops at h
  cases hq : sub.pending channel with
  | none =>
      rw [hq] at h
      cases h
  | some queue =>
      cases queue with
      | nil =>
          rw [hq] at h
          cases h
      | cons message rest =>
          have hq' : (sub.tasks.lookup channel).bind Forwarder.receiver =
            some (message :: rest) := hq
          simp only [turn, forward, hq']
          split_ifs <;> exact ⟨_, _, rfl⟩

end Subscriber

namespace World
variable {Call : Type} [DecidableEq Call] {c : Call} {channel : Bytes}

theorem put_turn (w : World host Call) (d : Call) (t : Turn) :
    put c channel (w, .turn d t) =
      if d = c then (w.calls c).bind fun sub => sub.puts channel t else none := by
  cases t with
  | forward j =>
      simp only [put]
      by_cases hd : d = c
      · by_cases hj : j = channel
        · simp [hd, hj, Subscriber.puts]
        · simp [hd, hj, Subscriber.puts]
      · simp [hd]
  | _ => simp [put, Subscriber.puts]

/-- The message of the channel that a step makes the call write. -/
def writes (c : Call) (channel : Bytes) (t : World host Call × Event Call) : Option Bytes :=
  (wrote c t).bind (messageOn channel)

theorem writes_turn (w : World host Call) (d : Call) (t : Turn) :
    writes c channel (w, .turn d t) =
      if d = c then (w.calls c).bind fun sub => sub.writes channel t else none := by
  cases t with
  | write ok =>
      simp only [writes, wrote, Subscriber.writes]
      split_ifs
      · rw [Option.bind_assoc]
      · rfl
  | _ => simp [writes, wrote, Subscriber.writes]

theorem step_turn {w : World host Call} {d : Call} {sub sub' : Subscriber} {t : Turn}
    {db' : Db host} (hd : w.calls d = some sub) (ht : sub.turn w.db t = some (db', sub')) :
    (step (.turn d t) w).calls = Function.update w.calls d (some sub') := by
  rw [step, hd, Option.bind_some, ht]

theorem step_call {w : World host Call} {d : Call} (hd : w.calls d = none)
    (channels : List Bytes) : (step (.call d channels) w).calls =
      Function.update w.calls d (some { point := .running (.subscribing channels) }) := by
  rw [step, hd]
  rfl

/-- The receiver of a forwarder, as long as it is there. -/
theorem queues_receiver {w : World host Call} (hn : w.pending c channel ≠ none) (e : Event Call) :
    Queues step (fun w => (w.pending c channel).getD []) (fun t => publishes channel t.2)
      (put c channel) (fun w => w.pending c channel = none) (w, e) := by
  refine ⟨fun h => (hn h).elim, fun _ => ?_⟩
  have hsame : (step e w).pending c channel = w.pending c channel → publishes channel e = none →
      put c channel (w, e) = none → (w.pending c channel).getD [] ++
        (publishes channel e).toList = (put c channel (w, e)).toList ++
          ((step e w).pending c channel).getD [] := by
    intro hp hpub hput
    rw [hp, hpub, hput]
    exact List.append_nil _
  cases e with
  | call d channels =>
      refine Or.inl (hsame ?_ rfl rfl)
      cases hd : w.calls d with
      | some sub => rw [step, hd, Option.isSome_some, if_pos rfl]
      | none =>
          have hdc : c ≠ d := by
            rintro rfl
            exact hn (by rw [pending, hd]; rfl)
          rw [pending, pending, step_call hd, Function.update_of_ne hdc]
  | publish j message =>
      left
      have hnew : (step (.publish j message) w).pending c channel =
          (w.pending c channel).map fun queue =>
            if j = channel then queue ++ [message] else queue := by
        cases hc : w.calls c with
        | none => simp [pending, step, hc]
        | some sub => simp [pending, step, hc, Subscriber.pending_deliver]
      obtain ⟨queue, hq⟩ := Option.ne_none_iff_exists'.mp hn
      rw [hnew, hq]
      by_cases hj : j = channel
      · simp [publishes, put, hj]
      · simp [publishes, put, hj]
  | turn d t =>
      cases hr : (w.calls d).bind fun sub => sub.turn w.db t with
      | none =>
          refine Or.inl (hsame ?_ rfl ?_)
          · rw [step, hr]
          · rw [put_turn]
            split_ifs with hd
            · subst hd
              cases hc : w.calls d with
              | none => rfl
              | some sub =>
                  rw [hc, Option.bind_some] at hr
                  exact Subscriber.puts_eq_none hr
            · rfl
      | some r =>
          obtain ⟨sub, hc, hturn⟩ := Option.bind_eq_some_iff.mp hr
          obtain ⟨db', sub'⟩ := r
          by_cases hd : d = c
          · subst hd
            have hold : w.pending d channel = sub.pending channel := by rw [pending, hc]; rfl
            have hnew : (step (.turn d t) w).pending d channel = sub'.pending channel := by
              rw [pending, step_turn hc hturn, Function.update_self, Option.bind_some]
            have hput : put d channel (w, .turn d t) = sub.puts channel t := by
              rw [put_turn, if_pos rfl, hc]
              rfl
            rw [hold] at hn
            cases Subscriber.flow_turn channel hturn with
            | quiet ht hp =>
                refine Or.inl (hsame (by rw [hnew, hold, hp]) rfl ?_)
                rw [hput, Subscriber.puts_of_ne ht]
            | ended hf hp =>
                refine Or.inr ⟨hnew.trans hp, ?_⟩
                have hnone : sub.puts channel t = none := by
                  by_cases ht : t = .forward channel
                  · rw [ht, Subscriber.puts, if_pos rfl, hf ht]
                  · exact Subscriber.puts_of_ne ht
                rw [hput, hnone]
                exact List.nil_prefix
            | subscribed ht hp hp' => exact (hn hp).elim
            | forwarded message rest ht hf hp hp' =>
                left
                dsimp only
                rw [hput, hnew, hold, hp, hp', ht, Subscriber.puts, if_pos rfl, hf]
                exact List.append_nil _
          · refine Or.inl (hsame ?_ rfl ?_)
            · rw [pending, pending, step_turn hc hturn, Function.update_of_ne (Ne.symm hd)]
            · rw [put_turn, if_neg hd]

/-- What the call has still to write of a channel. -/
def backlog (c : Call) (channel : Bytes) (w : World host Call) : List Bytes :=
  (w.calls c).elim [] fun sub => sub.backlog channel

def Returned (c : Call) (w : World host Call) : Prop :=
  ∃ sub, w.calls c = some sub ∧ sub.hasReturned = true

/-- The output queue of a call, until it returns. -/
theorem queues_output (c : Call) (channel : Bytes) (w : World host Call) (e : Event Call) :
    Queues step (backlog c channel) (put c channel) (writes c channel) (Returned c) (w, e) := by
  cases e with
  | call d channels =>
      cases hd : w.calls d with
      | some sub =>
          have hstep : step (.call d channels) w = w := by
            rw [step, hd, Option.isSome_some, if_pos rfl]
          refine ⟨fun h => ⟨hstep.symm ▸ h, rfl⟩, fun _ => Or.inl ?_⟩
          rw [hstep]
          exact List.append_nil _
      | none =>
          have hstep := step_call hd channels
          by_cases hdc : d = c
          · subst hdc
            constructor
            · rintro ⟨sub, hc, -⟩
              cases hd.symm.trans hc
            · refine fun _ => Or.inl ?_
              rw [backlog, backlog, hstep, hd, Function.update_self]
              rfl
          · have hsame : (step (.call d channels) w).calls c = w.calls c := by
              rw [hstep, Function.update_of_ne (Ne.symm hdc)]
            constructor
            · rintro ⟨s, hs, hret⟩
              exact ⟨⟨s, hsame.trans hs, hret⟩, rfl⟩
            · refine fun _ => Or.inl ?_
              rw [backlog, backlog, hsame]
              exact List.append_nil _
  | publish j message =>
      constructor
      · rintro ⟨sub, hc, hret⟩
        refine ⟨⟨sub.deliver j message, ?_, ?_⟩, rfl⟩
        · exact Option.map_eq_some_iff.mpr ⟨sub, hc, rfl⟩
        · rw [(Subscriber.backlog_deliver sub j message channel).2, hret]
      · refine fun _ => Or.inl ?_
        cases hc : w.calls c with
        | none => simp [backlog, step, hc, put, writes, wrote]
        | some sub =>
            simp [backlog, step, hc, put, writes, wrote,
              (Subscriber.backlog_deliver sub j message channel).1]
  | turn d t =>
      cases hr : (w.calls d).bind fun sub => sub.turn w.db t with
      | none =>
          have hstep : step (.turn d t) w = w := by rw [step, hr]
          have hno :
              put c channel (w, .turn d t) = none ∧ writes c channel (w, .turn d t) = none := by
            rw [put_turn, writes_turn]
            split_ifs with hd
            · subst hd
              cases hc : w.calls d with
              | none => exact ⟨rfl, rfl⟩
              | some sub =>
                  rw [hc, Option.bind_some] at hr
                  exact ⟨Subscriber.puts_eq_none hr, Subscriber.writes_eq_none hr⟩
            · exact ⟨rfl, rfl⟩
          refine ⟨fun h => ⟨hstep.symm ▸ h, hno.2⟩, fun _ => Or.inl ?_⟩
          rw [hstep, hno.1, hno.2]
          exact List.append_nil _
      | some r =>
          obtain ⟨sub, hc, hturn⟩ := Option.bind_eq_some_iff.mp hr
          obtain ⟨db', sub'⟩ := r
          have hstep := step_turn hc hturn
          by_cases hd : d = c
          · subst hd
            have hput : put d channel (w, .turn d t) = sub.puts channel t := by
              rw [put_turn, if_pos rfl, hc, Option.bind_some]
            have hwrites : writes d channel (w, .turn d t) = sub.writes channel t := by
              rw [writes_turn, if_pos rfl, hc, Option.bind_some]
            have hnew : (step (.turn d t) w).calls d = some sub' := by
              rw [hstep, Function.update_self]
            constructor
            · rintro ⟨s, hs, hret⟩
              obtain rfl := Option.some.inj (hc.symm.trans hs)
              have hret' := Subscriber.returned_turn hret hturn
              exact ⟨⟨sub', hnew, hret'.1⟩, hwrites.trans (hret'.2 channel)⟩
            · intro _
              have hback : backlog d channel w = sub.backlog channel := by rw [backlog, hc]; rfl
              have hback' : backlog d channel (step (.turn d t) w) = sub'.backlog channel := by
                rw [backlog, hnew]
                rfl
              rw [hput, hwrites, hback, hback']
              exact (Subscriber.backlog_turn channel hturn).imp_right fun h =>
                ⟨⟨sub', hnew, h.1⟩, h.2⟩
          · have hno : put c channel (w, .turn d t) = none ∧
                writes c channel (w, .turn d t) = none := by
              rw [put_turn, writes_turn, if_neg hd, if_neg hd]
              exact ⟨rfl, rfl⟩
            have hsame : (step (.turn d t) w).calls c = w.calls c := by
              rw [hstep, Function.update_of_ne (Ne.symm hd)]
            constructor
            · rintro ⟨s, hs, hret⟩
              exact ⟨⟨s, hsame.trans hs, hret⟩, hno.2⟩
            · refine fun _ => Or.inl ?_
              rw [hno.1, hno.2, backlog, backlog, hsame]
              exact List.append_nil _

/-- A new receiver starts out empty. -/
theorem pending_new {w : World host Call} (h : w.pending c channel = none) {e : Event Call}
    (hnew : (step e w).pending c channel ≠ none) : (step e w).pending c channel = some [] := by
  cases e with
  | call d channels =>
      cases hd : w.calls d with
      | some sub =>
          rw [step, hd, Option.isSome_some, if_pos rfl] at hnew
          exact (hnew h).elim
      | none =>
          by_cases hdc : c = d
          · subst hdc
            rw [pending, step_call hd, Function.update_self] at hnew
            exact (hnew rfl).elim
          · rw [pending, step_call hd, Function.update_of_ne hdc] at hnew
            exact (hnew h).elim
  | publish j message =>
      cases hc : w.calls c with
      | none =>
          refine (hnew ?_).elim
          simp [pending, step, hc]
      | some sub =>
          have hsub : sub.pending channel = none := by
            rw [pending, hc] at h
            exact h
          refine (hnew ?_).elim
          simp [pending, step, hc, Subscriber.pending_deliver, hsub]
  | turn d t =>
      cases hr : (w.calls d).bind fun sub => sub.turn w.db t with
      | none =>
          rw [step, hr] at hnew
          exact (hnew h).elim
      | some r =>
          obtain ⟨sub, hd, hturn⟩ := Option.bind_eq_some_iff.mp hr
          obtain ⟨db', sub'⟩ := r
          by_cases hdc : c = d
          · subst hdc
            have hsub : sub.pending channel = none := by
              rw [pending, hd] at h
              exact h
            have hsub' : (step (.turn c t) w).pending c channel = sub'.pending channel := by
              rw [pending, step_turn hd hturn, Function.update_self, Option.bind_some]
            rw [hsub'] at hnew ⊢
            cases Subscriber.flow_turn channel hturn with
            | quiet ht hp => exact (hnew (hp.trans hsub)).elim
            | ended hf hp => exact (hnew hp).elim
            | subscribed ht hp hp' => exact hp'
            | forwarded message rest ht hf hp hp' => cases hsub.symm.trans hp
          · rw [pending, step_turn hd hturn, Function.update_of_ne hdc] at hnew
            exact (hnew h).elim

/-! ## The life of a forwarder -/

theorem lifetime_prefix (events : List (Event Call)) (w : World host Call) :
    lifetime c channel events w <+: events := by
  induction events generalizing w with
  | nil => exact List.prefix_rfl
  | cons e events ih =>
      rw [lifetime]
      split_ifs
      · exact (List.prefix_cons_inj e).mpr (ih (step e w))
      · exact List.nil_prefix

theorem lifetime_alive (c : Call) (channel : Bytes) (events : List (Event Call))
    (w : World host Call) :
    ∀ t ∈ taken step (lifetime c channel events w) w, t.1.pending c channel ≠ none := by
  induction events generalizing w with
  | nil => exact List.forall_mem_nil _
  | cons e events ih =>
      rw [lifetime]
      split_ifs with h
      · exact List.forall_mem_cons.mpr ⟨Option.isSome_iff_ne_none.mp h, ih (step e w)⟩
      · exact List.forall_mem_nil _

theorem published_eq (events : List (Event Call)) (w : World host Call) :
    (taken step events w).filterMap (fun t => publishes channel t.2) =
      published channel events := by
  have h := List.filterMap_map (f := Prod.snd) (g := publishes channel)
    (l := taken step events w)
  rw [taken_labels] at h
  exact h.symm

/-- What a forwarder puts into the output queue: no message out of order, twice, or behind a gap. -/
theorem forwarded_prefix (events : List (Event Call)) {w : World host Call}
    (hnew : w.pending c channel = some []) :
    puts c channel (lifetime c channel events w) w <+:
        published channel (lifetime c channel events w) ∧
      ∀ queue, (run step (lifetime c channel events w) w).pending c channel = some queue →
        published channel (lifetime c channel events w) =
          puts c channel (lifetime c channel events w) w ++ queue := by
  have hq := fun t ht => queues_receiver (lifetime_alive c channel events w t ht) t.2
  constructor
  · have hp := outputs_prefix hq
    rw [published_eq, hnew] at hp
    exact hp
  · intro queue hend
    have hp := conserved hq (by rw [hend]; exact Option.some_ne_none queue)
    rw [published_eq, hnew, hend] at hp
    exact hp

/-- A forwarder that has to drop a message reports it and ends. -/
theorem drop_ends {events : List (Event Call)} {w : World host Call}
    {first rest : List (Event Call)}
    (hlife : lifetime c channel events w = first ++ .turn c (.forward channel) :: rest)
    {sub : Subscriber} (hc : (run step first w).calls c = some sub)
    (hdrop : sub.drops channel = true) :
    rest = [] ∧ puts c channel (lifetime c channel events w) w = puts c channel first w ∧
      ∃ sub', (step (.turn c (.forward channel)) (run step first w)).calls c = some sub' ∧
        sub'.slow = sub.slow ++ [channel] := by
  obtain ⟨db', sub', hturn⟩ := Subscriber.forward_of_drops (run step first w).db hdrop
  have hnew : (step (.turn c (.forward channel)) (run step first w)).calls c = some sub' := by
    rw [step_turn hc hturn, Function.update_self]
  obtain ⟨message, queue, -, ⟨hf, -⟩ | ⟨hf, ht, -, -, hslow⟩⟩ := Subscriber.forward_spec hturn
  · exact nomatch (Subscriber.forwards_of_drops hdrop).symm.trans hf
  · have hend : rest = [] := by
      cases rest with
      | nil => rfl
      | cons e rest =>
          have halive := lifetime_alive c channel events w
          rw [hlife, taken_append] at halive
          have hnext := halive (step (.turn c (.forward channel)) (run step first w), e)
            (List.mem_append_right _ (List.mem_cons_of_mem _ List.mem_cons_self))
          refine (hnext ?_).elim
          rw [pending, hnew, Option.bind_some, Subscriber.pending_insert ht, if_pos rfl]
    refine ⟨hend, ?_, sub', hnew, hslow hdrop⟩
    have hput : put c channel (run step first w, .turn c (.forward channel)) = none := by
      rw [put_turn, if_pos rfl, hc, Option.bind_some, Subscriber.puts, if_pos rfl, hf]
    rw [hlife, hend, puts, taken_append, List.filterMap_append, taken, taken,
      List.filterMap_cons_none hput, List.filterMap_nil, List.append_nil, puts]

theorem written_prefix (events : List (Event Call)) :
    written c channel events (start : World host Call) <+:
      puts c channel events (start : World host Call) := by
  rw [written, sent, List.filterMap_filterMap]
  exact outputs_prefix fun t _ => queues_output c channel t.1 t.2

/-- What was there from a given place on, and no more than what one forwarder has put there. -/
theorem take_drop_prefix {A : Type} {l earlier mine later : List A}
    (h : l <+: earlier ++ later) (hm : mine <+: later) :
    (l.drop earlier.length).take mine.length <+: mine := by
  have hdrop : l.drop earlier.length <+: later := by
    have := h.drop earlier.length
    rwa [List.drop_left] at this
  have htake := hdrop.take mine.length
  rwa [← List.prefix_iff_eq_take.mp hm] at htake

/-- From its subscription on, a forwarder puts into the output queue a prefix of what is
published on its channel, without a gap before its end; what the call writes of it is a prefix
of that. A forwarder that has to drop a message puts nothing more into the queue, and the
call is told. -/
theorem subscriber_sees_prefix {before : List (Event Call)} {e : Event Call}
    (hold : (run step before (start : World host Call)).pending c channel = none)
    (hnew : (run step (before ++ [e]) (start : World host Call)).pending c channel ≠ none)
    (after : List (Event Call)) :
    let w : World host Call := run step (before ++ [e]) start
    let period := lifetime c channel after w
    let forwarded := puts c channel period w
    let earlier := puts c channel (before ++ [e]) (start : World host Call)
    let all := written c channel (before ++ e :: after) (start : World host Call)
    forwarded <+: published channel after ∧
    (∀ queue, (run step period w).pending c channel = some queue →
      published channel period = forwarded ++ queue) ∧
    all <+: puts c channel (before ++ e :: after) (start : World host Call) ∧
    (all.drop earlier.length).take forwarded.length <+: forwarded ∧
    ∀ first rest, period = first ++ .turn c (.forward channel) :: rest →
      ∀ sub, (run step first w).calls c = some sub → sub.drops channel = true →
        rest = [] ∧ forwarded = puts c channel first w ∧
          ∃ sub', (step (.turn c (.forward channel)) (run step first w)).calls c = some sub' ∧
            sub'.slow = sub.slow ++ [channel] := by
  intro w period forwarded earlier all
  have hsplit : before ++ e :: after = before ++ [e] ++ after := by simp
  have hstart : w.pending c channel = some [] := by
    have hlast : w = step e (run step before start) := run_append before [e] start
    rw [hlast]
    exact pending_new hold (by rw [← hlast]; exact hnew)
  obtain ⟨hpre, hwhole⟩ := forwarded_prefix after hstart
  have hperiod : period <+: after := lifetime_prefix after w
  have hall : puts c channel (before ++ e :: after) (start : World host Call) =
      earlier ++ puts c channel after w := by
    rw [hsplit, puts, taken_append, List.filterMap_append]
    rfl
  have hmine : forwarded <+: puts c channel after w := by
    obtain ⟨late, hlate⟩ := hperiod
    rw [← hlate, puts, taken_append, List.filterMap_append]
    exact List.prefix_append _ _
  refine ⟨hpre.trans (hperiod.filterMap _), hwhole, written_prefix _, ?_, ?_⟩
  · exact take_drop_prefix (hall ▸ written_prefix (before ++ e :: after)) hmine
  · intro first rest hlife sub hc hdrop
    exact drop_ends hlife hc hdrop

/-- Two messages are published to a subscriber, and the first of them is written. -/
def twoMessages : List (Event Unit) :=
  [.turn () (.write true), .turn () .advance, .publish [97] [109], .publish [97] [110],
    .turn () (.forward [97]), .turn () .recv, .turn () (.write true)]

theorem subscriber_sees_prefix_twoMessages :
    let w : World ⟨fun _ => 0, 1⟩ Unit := run step [.call () [[97]], .turn () .advance] start
    let period := lifetime () [97] twoMessages w
    puts () [97] period w <+: published [97] twoMessages ∧
      published [97] period = puts () [97] period w ++ [[110]] := by
  have hold : (run step [.call () [[97]]] (start : World ⟨fun _ => 0, 1⟩ Unit)).pending () [97] =
    none := rfl
  have h := subscriber_sees_prefix hold (e := .turn () .advance) (by decide) twoMessages
  exact ⟨h.1, h.2.1 [[110]] rfl⟩

end World
end MiniRedis.PubSub
