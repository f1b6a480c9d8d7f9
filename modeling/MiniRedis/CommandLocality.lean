import MiniRedis.CommandFootprints
import MiniRedis.MapServer

/-!
# What a command depends on

A command looks at the keys that it names and at no others, `INFO` aside, and it changes no
others. So a client is alone with its keys: if no other client writes them, every reply that it
gets is the reply of a server on which there is nobody else.
-/
namespace MiniRedis

variable {host : Host}

namespace Keyspace

theorem removeAll_fst_congr {keys : List Bytes} {ks ks' : Keyspace}
    (h : ∀ k ∈ keys, ks k = ks' k) : (ks.removeAll keys).1 = (ks'.removeAll keys).1 := by
  induction keys generalizing ks ks' with
  | nil => rfl
  | cons key keys ih =>
      obtain ⟨hkey, hkeys⟩ := List.forall_mem_cons.mp h
      rw [removeAll, removeAll, hkey, ih fun k hk => ?_]
      rw [Function.update_apply, Function.update_apply, hkeys k hk]

end Keyspace

namespace Transaction

/-- The keys that a transaction reads and assigns. -/
def keys : Transaction → List Bytes
  | refuse _ => []
  | on key _ => [key]
  | remove keys => keys
  | assign pairs => pairs.map (·.1)

theorem run_of_not_mem (t : Transaction) (ks : Keyspace) {k : Bytes} (hk : k ∉ t.keys) :
    (t.run ks).2 k = ks k := by
  cases t with
  | refuse reply => rfl
  | on key slot => exact Function.update_of_ne (fun he => hk (List.mem_singleton.mpr he)) _ _
  | remove keys => exact (Keyspace.removeAll_apply keys ks k).trans (if_neg hk)
  | assign pairs =>
      refine (Keyspace.setAll_apply pairs ks k).trans ?_
      rw [assignedValue_eq_none.mpr hk]
      rfl

/-- A transaction answers and assigns as its keys tell it. -/
theorem run_congr (t : Transaction) {ks ks' : Keyspace} (h : ∀ k ∈ t.keys, ks k = ks' k) :
    (t.run ks).1 = (t.run ks').1 ∧ ∀ k ∈ t.keys, (t.run ks).2 k = (t.run ks').2 k := by
  cases t with
  | refuse reply => exact ⟨rfl, fun k hk => h k hk⟩
  | on key slot =>
      have hkey := h key (List.mem_singleton.mpr rfl)
      unfold run
      dsimp only
      rw [hkey]
      refine ⟨rfl, fun k hk => ?_⟩
      rw [List.mem_singleton.mp hk, Function.update_self, Function.update_self]
  | remove keys =>
      refine ⟨congrArg (fun n => Frame.integer (Int64.ofNat n))
        (Keyspace.removeAll_fst_congr h), fun k hk => ?_⟩
      exact (Keyspace.removeAll_apply keys ks k).trans ((if_pos hk).trans
        ((Keyspace.removeAll_apply keys ks' k).trans (if_pos hk)).symm)
  | assign pairs =>
      refine ⟨rfl, fun k hk => ?_⟩
      refine (Keyspace.setAll_apply pairs ks k).trans (Eq.trans ?_
        (Keyspace.setAll_apply pairs ks' k).symm)
      rw [h k hk]

end Transaction

namespace Command

theorem transaction_keys {now : ExpireAt} {c : Command} {t : Transaction}
    (ht : c.transaction now = some t) : ∀ k ∈ t.keys, k ∈ c.mutatedKeys := by
  intro k hk
  cases c with
  | set key value expiresAt =>
      obtain rfl := Option.some.inj ht
      split_ifs at hk with hfits
      · exact hk
      · cases hk
  | decrBy key n =>
      obtain rfl := Option.some.inj ht
      cases hn : Cmd.checkedNegI64 n with
      | none =>
          rw [hn] at hk
          cases hk
      | some neg =>
          rw [hn] at hk
          exact hk
  | mset pairs =>
      obtain rfl := Option.some.inj ht
      split_ifs at hk with hfits
      · cases hk
      · exact hk
  | del | incr | decr | incrBy | append | expire | pexpire | pexpireAt | persist | lpush | rpush
  | lpop | rpop | hset | hdel | hincrby =>
      obtain rfl := Option.some.inj ht
      exact hk
  | _ => cases ht

/-- The command looks at the key; `INFO` counts all of them. -/
def LooksAt : Command → Bytes → Prop
  | info _, _ => True
  | c, k => k ∈ c.mutatedKeys ∨ k ∈ c.readKeys

theorem looksAt_of_mem {c : Command} {k : Bytes} (hk : k ∈ c.mutatedKeys) : c.LooksAt k := by
  cases c with
  | info section_ => trivial
  | _ => exact .inl hk

theorem read_congr {ks ks' : Keyspace} {k : Bytes} (h : ks k = ks' k) (missing : Frame)
    (found : Value → Frame) : ks.read k missing found = ks'.read k missing found := by
  rw [Keyspace.read, Keyspace.read, h]

theorem timeLeft_congr {ks ks' : Keyspace} {k : Bytes} (h : ks k = ks' k) (now : ExpireAt)
    (unit : ℕ) : ks.timeLeft now k unit = ks'.timeLeft now k unit := by
  rw [Keyspace.timeLeft, Keyspace.timeLeft, h]

theorem answer_congr (processId : UInt32) (now : ExpireAt) {c : Command} {ks ks' : Keyspace}
    (h : ∀ k, c.LooksAt k → ks k = ks' k) :
    c.answer processId now ks = c.answer processId now ks' := by
  cases c with
  | ping msg => cases msg <;> rfl
  | get k | strlen k | llen k | lindex k i | hget k f | hexists k f | hlen k =>
      have hk := read_congr (h k (.inr (List.mem_singleton.mpr rfl)))
      unfold answer
      exact hk _ _
  | lrange k start stop | hkeys k | hvals k | hgetall k =>
      have hk := read_congr (h k (.inr (List.mem_singleton.mpr rfl)))
      unfold answer
      exact congrArg limited (hk _ _)
  | ttl k | pttl k => exact timeLeft_congr (h k (.inr (List.mem_singleton.mpr rfl))) now _
  | existsKeys keys =>
      refine congrArg (fun n => Frame.integer (Int64.ofNat n)) (List.countP_congr fun k hk => ?_)
      rw [h k (.inr hk)]
  | mget keys =>
      refine congrArg (fun frames => limited (.array frames)) (List.map_congr_left fun k hk => ?_)
      exact read_congr (h k (.inr hk)) _ _
  | info section_ =>
      obtain rfl : ks = ks' := funext fun k => h k trivial
      rfl
  | _ => rfl

end Command

namespace Db
variable {now : ExpireAt} {db db' : Db host}

/-- A command leaves all keys alone but those that it names. -/
theorem view_apply_of_not_mem (c : Command) {k : Bytes} (hk : k ∉ c.mutatedKeys) :
    (c.apply now db).2.view now k = db.view now k := by
  have hr := c.apply_refines now db
  cases ht : c.transaction now with
  | some t =>
      rw [ht] at hr
      exact congrArg (Slot.alive now) (hr.frame k hk)
  | none =>
      rw [ht] at hr
      exact congrFun (view_of_shards hr) k

/-- A command answers and acts as the keys that it looks at tell it. -/
theorem apply_congr_on (hv : db.Valid) (hv' : db'.Valid) {c : Command} (hp : c.channel = none)
    (h : ∀ k, c.LooksAt k → db.view now k = db'.view now k) :
    (c.apply now db).1 = (c.apply now db').1 ∧
      ∀ k ∈ c.mutatedKeys, (c.apply now db).2.view now k = (c.apply now db').2.view now k := by
  have hr := c.apply_refines now db
  have hr' := c.apply_refines now db'
  cases ht : c.transaction now with
  | some t =>
      rw [ht] at hr hr'
      have hkeys := Command.transaction_keys ht
      obtain ⟨hreply, hslots⟩ := t.run_congr fun k hk =>
        h k (Command.looksAt_of_mem (hkeys k hk))
      refine ⟨hr.reply.trans (hreply.trans hr'.reply.symm), fun k hk => ?_⟩
      rw [hr.view, hr'.view]
      refine congrArg (Slot.alive now) ?_
      by_cases hmem : k ∈ t.keys
      · exact hslots k hmem
      · rw [t.run_of_not_mem _ hmem, t.run_of_not_mem _ hmem]
        exact h k (Command.looksAt_of_mem hk)
  | none =>
      rw [ht] at hr hr'
      refine ⟨?_, fun k hk => ?_⟩
      · rw [Command.apply_answer hv ht hp, Command.apply_answer hv' ht hp]
        exact Command.answer_congr _ now h
      · rw [view_of_shards hr, view_of_shards hr']
        exact h k (Command.looksAt_of_mem hk)

/-! ## Clients with keys of their own -/

/-- How many receivers `PUBLISH` would find on each channel. -/
def receivers (db : Db host) (channel : Bytes) : ℕ := (db.pubsubPublish channel).1

theorem receivers_eq (db : Db host) (channel : Bytes) :
    db.receivers channel = ((db.pubsub.lookup channel).map Sender.receiverCount).getD 0 := by
  unfold receivers pubsubPublish
  cases db.pubsub.lookup channel with
  | none => rfl
  | some tx =>
      dsimp only
      split_ifs with hzero
      · exact hzero.symm
      · rfl

theorem receivers_congr {db db' : Db host} (h : db'.pubsub = db.pubsub) :
    db'.receivers = db.receivers := by
  funext channel
  rw [receivers_eq, receivers_eq, h]

/-- A channel that `PUBLISH` forgets had no receivers. -/
theorem receivers_publish (db : Db host) (channel : Bytes) :
    (db.pubsubPublish channel).2.receivers = db.receivers := by
  unfold pubsubPublish
  cases htx : db.pubsub.lookup channel with
  | none => rfl
  | some tx =>
      dsimp only
      split_ifs with hzero
      · funext other
        rw [receivers_eq, receivers_eq, FiniteMap.lookup_erase_apply]
        split_ifs with hother
        · rw [hother, htx, Option.map_some, Option.getD_some, hzero]
          rfl
        · rfl
      · rfl

theorem receivers_apply (now : ExpireAt) (c : Command) (db : Db host) :
    (c.apply now db).2.receivers = db.receivers := by
  have hr := c.apply_refines now db
  cases ht : c.transaction now with
  | some t =>
      rw [ht] at hr
      exact receivers_congr hr.pubsub
  | none =>
      cases hp : c.channel with
      | some channel =>
          rw [Command.apply_publish hp]
          exact db.receivers_publish channel
      | none => rw [Command.apply_keeps ht hp]

/-- To a client that looks at these keys alone, two databases are the same. -/
structure Agree (keys : Set Bytes) (now : ExpireAt) (db db' : Db host) : Prop where
  view : ∀ k ∈ keys, db.view now k = db'.view now k
  receivers : db.receivers = db'.receivers

namespace Agree
variable {keys : Set Bytes}

theorem later {later : ExpireAt} (h : Agree keys now db db') (hn : now ≤ later) :
    Agree keys later db db' where
  view k hk := by
    rw [← view_alive hn db, ← view_alive hn db', Keyspace.alive, Keyspace.alive, h.view k hk]
  receivers := h.receivers

theorem sweep {at_ : ExpireAt} (h : Agree keys now db db') (hv : db.Valid) (hn : at_ ≤ now) :
    Agree keys now (db.sweepOnce at_) db' where
  view k hk := (congrFun (view_sweepOnce hv hn) k).trans (h.view k hk)
  receivers := (receivers_congr (show (db.sweepOnce at_).pubsub = db.pubsub from rfl)).trans
    h.receivers

theorem symm (h : Agree keys now db db') : Agree keys now db' db :=
  ⟨fun k hk => (h.view k hk).symm, h.receivers.symm⟩

/-- What another client does goes past it. -/
theorem others (h : Agree keys now db db') {c : Command} (hc : ∀ k ∈ c.mutatedKeys, k ∉ keys) :
    Agree keys now (c.apply now db).2 db' where
  view k hk := (view_apply_of_not_mem c fun hm => hc k hm hk).trans (h.view k hk)
  receivers := (receivers_apply now c db).trans h.receivers

/-- Its own commands have the same replies and leave it with the same keys. -/
theorem own (h : Agree keys now db db') (hv : db.Valid) (hv' : db'.Valid) {c : Command}
    (hc : ∀ k, c.LooksAt k → k ∈ keys) :
    (c.apply now db).1 = (c.apply now db').1 ∧
      Agree keys now (c.apply now db).2 (c.apply now db').2 := by
  have hreceivers := (receivers_apply now c db).trans
    (h.receivers.trans (receivers_apply now c db').symm)
  cases hp : c.channel with
  | some channel =>
      rw [Command.apply_publish hp, Command.apply_publish hp] at hreceivers ⊢
      refine ⟨?_, fun k hk => ?_, hreceivers⟩
      · exact congrArg (fun n => Frame.integer (Int64.ofNat n)) (congrFun h.receivers channel)
      · rw [view_of_shards (Cmd.shards_publish db channel),
          view_of_shards (Cmd.shards_publish db' channel)]
        exact h.view k hk
  | none =>
      obtain ⟨hreply, hview⟩ := apply_congr_on hv hv' hp fun k hk => h.view k (hc k hk)
      refine ⟨hreply, fun k hk => ?_, hreceivers⟩
      by_cases hm : k ∈ c.mutatedKeys
      · exact hview k hm
      · rw [view_apply_of_not_mem c hm, view_apply_of_not_mem c hm]
        exact h.view k hk

end Agree

section Clients
variable {ι : Type} [DecidableEq ι]

/-- A run of commands that come from clients, with what each client is sent. -/
def runOf (db : Db host) : List (ι × Event) → List (ι × Frame) × Db host
  | [] => ([], db)
  | (client, .command now c) :: events =>
      let r := (c.apply now db).2.runOf events
      ((client, (c.apply now db).1) :: r.1, r.2)
  | (_, .sweep now) :: events => (db.sweepOnce now).runOf events

/-- The part of one client in a run. -/
def part {A : Type} (client : ι) (l : List (ι × A)) : List A :=
  (l.filter fun e => e.1 = client).map (·.2)

theorem part_cons_self {A : Type} (client : ι) (a : A) (l : List (ι × A)) :
    part client ((client, a) :: l) = a :: part client l := by
  rw [part, List.filter_cons_of_pos (by simp)]
  rfl

theorem part_cons_of_ne {A : Type} {client other : ι} (h : other ≠ client) (a : A)
    (l : List (ι × A)) : part client ((other, a) :: l) = part client l := by
  rw [part, List.filter_cons_of_neg (by simpa using h)]
  rfl

/-- The keys that the commands of one client look at. -/
def looksAt (client : ι) (events : List (ι × Event)) : Set Bytes :=
  {k | ∃ now c, (client, .command now c) ∈ events ∧ c.LooksAt k}

theorem runOf_agree {client : ι} {keys : Set Bytes} {start : ExpireAt}
    {events : List (ι × Event)} (hv : db.Valid) (hv' : db'.Valid) (h : Agree keys start db db')
    (hs : ∀ e ∈ events, start ≤ e.2.time)
    (ho : events.Pairwise fun a b => a.2.time ≤ b.2.time)
    (hown : looksAt client events ⊆ keys)
    (hothers : ∀ other now c, (other, .command now c) ∈ events → other ≠ client →
      ∀ k ∈ c.mutatedKeys, k ∉ keys) :
    part client (db.runOf events).1 = (db'.run (part client events)).1 ∧
      ∀ later, start ≤ later → (∀ e ∈ events, e.2.time ≤ later) →
        Agree keys later (db.runOf events).2 (db'.run (part client events)).2 := by
  induction events generalizing db db' start with
  | nil => exact ⟨rfl, fun later hl _ => h.later hl⟩
  | cons e events ih =>
      obtain ⟨hhead, htail⟩ := List.pairwise_cons.mp ho
      have hnow := h.later (hs e List.mem_cons_self)
      have hown' : looksAt client events ⊆ keys := fun k ⟨now, c, hm, hk⟩ =>
        hown ⟨now, c, List.mem_cons_of_mem _ hm, hk⟩
      have hothers' : ∀ other now c, (other, .command now c) ∈ events → other ≠ client →
          ∀ k ∈ c.mutatedKeys, k ∉ keys := fun other now c hm =>
        hothers other now c (List.mem_cons_of_mem _ hm)
      have hlater : ∀ later, (∀ a ∈ e :: events, a.2.time ≤ later) →
          e.2.time ≤ later ∧ ∀ a ∈ events, a.2.time ≤ later := fun later hl =>
        List.forall_mem_cons.mp hl
      obtain ⟨i, event⟩ := e
      by_cases hi : i = client
      · subst hi
        rw [part_cons_self]
        cases event with
        | command now c =>
            obtain ⟨hreply, hagree⟩ := hnow.own hv hv' fun k hk =>
              hown ⟨now, c, List.mem_cons_self, hk⟩
            obtain ⟨hreplies, hend⟩ := ih (hv.apply now c) (hv'.apply now c) hagree hhead htail
              hown' hothers'
            refine ⟨?_, fun later _ hl => hend later (hlater later hl).1 (hlater later hl).2⟩
            exact (part_cons_self i _ _).trans (congrArg₂ List.cons hreply hreplies)
        | sweep now =>
            have hagree := ((hnow.sweep hv le_rfl).symm.sweep hv' le_rfl).symm
            obtain ⟨hreplies, hend⟩ := ih (hv.sweepOnce now) (hv'.sweepOnce now) hagree hhead
              htail hown' hothers'
            exact ⟨hreplies, fun later _ hl => hend later (hlater later hl).1 (hlater later hl).2⟩
      · rw [part_cons_of_ne hi]
        cases event with
        | command now c =>
            have hagree := hnow.others (hothers i now c List.mem_cons_self hi)
            obtain ⟨hreplies, hend⟩ := ih (hv.apply now c) hv' hagree hhead htail hown' hothers'
            refine ⟨?_, fun later _ hl => hend later (hlater later hl).1 (hlater later hl).2⟩
            exact (part_cons_of_ne hi _ _).trans hreplies
        | sweep now =>
            obtain ⟨hreplies, hend⟩ := ih (hv.sweepOnce now) hv' (hnow.sweep hv le_rfl) hhead
              htail hown' hothers'
            exact ⟨hreplies, fun later _ hl => hend later (hlater later hl).1 (hlater later hl).2⟩

/-- In an interleaving of whole commands and sweeps, a client whose keys no other client
writes gets the replies that it would get alone, and finds its keys as it would have left
them. Interleavings inside of commands are those of the sections. -/
theorem client_alone {client : ι} {events : List (ι × Event)} {db : Db host} (hr : db.Reachable)
    (ho : events.Pairwise fun a b => a.2.time ≤ b.2.time)
    (hothers : ∀ other now c, (other, .command now c) ∈ events → other ≠ client →
      ∀ k ∈ c.mutatedKeys, k ∉ looksAt client events) :
    part client (db.runOf events).1 = (db.run (part client events)).1 ∧
      ∀ later, (∀ e ∈ events, e.2.time ≤ later) → ∀ k ∈ looksAt client events,
        (db.runOf events).2.view later k = (db.run (part client events)).2.view later k := by
  have hsame : Agree (looksAt client events) 0 db db := ⟨fun _ _ => rfl, rfl⟩
  obtain ⟨hreplies, hend⟩ := runOf_agree hr.valid hr.valid hsame (fun _ _ => Nat.zero_le _) ho
    subset_rfl hothers
  exact ⟨hreplies, fun later hl => (hend later (Nat.zero_le _) hl).view⟩

/-- One client counts in `n` while the other one writes `k`. -/
theorem client_alone_counter :
    part 0 ((new : Db ⟨fun _ => 3, 1⟩).runOf [(0, .command 0 (.incr [110])),
        (1, .command 1 (.set [107] [118] (some 5))), (0, .command 2 (.incr [110]))]).1 =
      ((new : Db ⟨fun _ => 3, 1⟩).run [.command 0 (.incr [110]), .command 2 (.incr [110])]).1 := by
  refine (client_alone (.new : (new : Db ⟨fun _ => 3, 1⟩).Reachable) (by simp [Event.time]) ?_).1
  have hn : ∀ k, (Command.incr [110]).LooksAt k → k = [110] := by
    rintro k (hk | hk)
    · exact List.mem_singleton.mp hk
    · cases hk
  rintro other now c hm hne k hk ⟨at_, d, hd, hk'⟩
  simp only [List.mem_cons, Prod.mk.injEq, Event.command.injEq, List.not_mem_nil, or_false,
    zero_ne_one, false_and, false_or] at hm hd
  have hdk : k = [110] := by
    rcases hd with ⟨-, -, rfl⟩ | ⟨-, -, rfl⟩
    · exact hn k hk'
    · exact hn k hk'
  rcases hm with ⟨rfl, -⟩ | ⟨-, -, rfl⟩ | ⟨rfl, -⟩
  · exact hne rfl
  · rw [List.mem_singleton.mp hk] at hdk
    exact absurd hdk (by decide)
  · exact hne rfl

end Clients
end Db
end MiniRedis
