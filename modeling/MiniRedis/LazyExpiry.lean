import MiniRedis.LiveEntries
import MiniRedis.Reachability

/-!
# Lazy and active expiration

A command sees the live view of the database and nothing else: two databases with
the same view answer alike and have the same view afterwards. A sweep does not
change the view, so its place in a run cannot be observed.
-/
namespace MiniRedis

variable {host : Host}

namespace Cmd
variable {now : ExpireAt} {db db' : Db host}

theorem readLive_eq (db : Db host) (key : Bytes) (missing : Frame) (found : Value → Frame) :
    readLive now db key missing found =
      match db.view now key with
      | some entry => found entry.value
      | none => missing := by
  unfold readLive
  change _ = match Slot.alive now (db.entry key) with
    | some entry => found entry.value
    | none => missing
  cases db.entry key with
  | none => rfl
  | some entry => cases h : entryExpired now entry <;> simp [Slot.alive, Option.filter, h]

theorem readLive_congr (hv : db.view now = db'.view now) (key : Bytes) (missing : Frame)
    (found : Value → Frame) :
    readLive now db key missing found = readLive now db' key missing found := by
  rw [readLive_eq, readLive_eq, hv]

theorem existsKeys_eq (db : Db host) (keys : List Bytes) :
    existsKeys now db keys =
      .integer (Int64.ofNat (keys.countP fun key => (db.view now key).isSome)) := by
  unfold existsKeys
  congr 3
  funext key
  change _ = (Slot.alive now (db.entry key)).isSome
  cases db.entry key with
  | none => rfl
  | some entry => cases h : entryExpired now entry <;> simp [Slot.alive, Option.filter, h]

theorem mgetLoop_congr (hv : db.view now = db'.view now) (keys : List Bytes) (n : ℕ) :
    mgetLoop now db keys n = mgetLoop now db' keys n := by
  have hf : mgetFrame now db = mgetFrame now db' := by
    funext key
    exact readLive_congr hv key _ _
  induction keys generalizing n with
  | nil => rfl
  | cons key keys ih => simp only [mgetLoop, hf, ih]

theorem mget_congr (hv : db.view now = db'.view now) (keys : List Bytes) :
    mget now db keys = mget now db' keys := by
  have hl : mgetLoop now db keys = mgetLoop now db' keys := funext (mgetLoop_congr hv keys)
  rw [mget, mget, hl]

/-- `ttl` answers for an expired entry as it does for a missing one. -/
theorem ttl_eq (db : Db host) (key : Bytes) (inMs : Bool) :
    ttl now db key inMs =
      match db.view now key with
      | none => .integer (-2)
      | some ⟨_, none⟩ => .integer (-1)
      | some ⟨_, some t⟩ =>
          if inMs then .integer (saturatingI64 (t - now))
          else .integer (saturatingI64 ((t - now) / 1000)) := by
  unfold ttl
  change _ = match Slot.alive now (db.entry key) with
    | none => Frame.integer (-2)
    | some ⟨_, none⟩ => .integer (-1)
    | some ⟨_, some t⟩ =>
        if inMs then .integer (saturatingI64 (t - now))
        else .integer (saturatingI64 ((t - now) / 1000))
  rcases db.entry key with _ | ⟨value, _ | t⟩
  · rfl
  · rw [Slot.alive_of_persistent rfl]
  · rcases Nat.lt_or_ge now t with h | h
    · rw [Slot.alive_of_lt rfl h]
      exact if_neg (Nat.not_le.mpr h)
    · rw [Slot.alive_of_le rfl h]
      exact if_pos h

theorem ttl_congr (hv : db.view now = db'.view now) (key : Bytes) (inMs : Bool) :
    ttl now db key inMs = ttl now db' key inMs := by rw [ttl_eq, ttl_eq, hv]

end Cmd

namespace Db

/-- Nothing that a command reads at `now` tells the two databases apart. -/
structure Same (now : ExpireAt) (db db' : Db host) : Prop where
  view : db.view now = db'.view now
  pubsub : db.pubsub = db'.pubsub

theorem Same.later {now later : ExpireAt} {db db' : Db host} (h : Same now db db')
    (hn : now ≤ later) : Same later db db' := ⟨Db.view_congr hn h.view, h.pubsub⟩

theorem same_sweepOnce {now later : ExpireAt} {db : Db host} (h : db.Valid) (hn : now ≤ later) :
    Same later (db.sweepOnce now) db := ⟨view_sweepOnce h hn, rfl⟩

theorem publish_congr {now : ExpireAt} {db db' : Db host} (h : Same now db db') (ch : Bytes) :
    (db.pubsubPublish ch).1 = (db'.pubsubPublish ch).1 ∧
      (db.pubsubPublish ch).2.pubsub = (db'.pubsubPublish ch).2.pubsub := by
  unfold pubsubPublish
  rw [h.pubsub]
  split
  · split_ifs
    · exact ⟨rfl, rfl⟩
    · exact ⟨rfl, h.pubsub⟩
  · exact ⟨rfl, h.pubsub⟩

end Db

namespace Command
variable {now : ExpireAt} {db db' : Db host}

/-- A command answers alike on databases with the same live view. -/
theorem apply_reply_congr (hd : db.Valid) (hd' : db'.Valid) (h : Db.Same now db db')
    (c : Command) : (c.apply now db).1 = (c.apply now db').1 := by
  have hr := c.apply_refines now db
  have hr' := c.apply_refines now db'
  cases ht : c.transaction now with
  | some t =>
      rw [ht] at hr hr'
      rw [hr.reply, hr'.reply, h.view]
  | none =>
      cases c with
      | ping msg => cases msg <;> rfl
      | get k | strlen k | lrange k s e | llen k | lindex k i | hget k f | hkeys k | hvals k
      | hgetall k | hexists k f | hlen k =>
          simp only [apply, Cmd.get, Cmd.strlen, Cmd.lrange, Cmd.llen, Cmd.lindex, Cmd.hget,
            Cmd.hkeys, Cmd.hvals, Cmd.hgetall, Cmd.hexists, Cmd.hlen, Cmd.readLive_congr h.view]
      | existsKeys keys =>
          change Cmd.existsKeys now db keys = Cmd.existsKeys now db' keys
          rw [Cmd.existsKeys_eq, Cmd.existsKeys_eq, h.view]
      | mget keys => exact Cmd.mget_congr h.view keys
      | ttl k | pttl k => exact Cmd.ttl_congr h.view k _
      | publish ch msg =>
          exact congrArg (fun n => Frame.integer (Int64.ofNat n)) (Db.publish_congr h ch).1
      | info section_ =>
          simp only [apply, infoFrame, hd.stats_congr hd' h.view]
      | echo msg | subscribe chs | unsubscribe chs | bgRewriteAof | unknown name => rfl
      | _ => cases ht

/-- And leaves them with the same live view. -/
theorem view_apply_congr (h : db.view now = db'.view now) (c : Command) :
    (c.apply now db).2.view now = (c.apply now db').2.view now := by
  have hr := c.apply_refines now db
  have hr' := c.apply_refines now db'
  cases ht : c.transaction now with
  | some t =>
      rw [ht] at hr hr'
      rw [hr.view, hr'.view, h]
  | none =>
      rw [ht] at hr hr'
      rw [Db.view_of_shards hr, Db.view_of_shards hr', h]

theorem apply_same (h : Db.Same now db db') (c : Command) :
    Db.Same now (c.apply now db).2 (c.apply now db').2 := by
  refine ⟨view_apply_congr h.view c, ?_⟩
  have hr := c.apply_refines now db
  have hr' := c.apply_refines now db'
  cases ht : c.transaction now with
  | some t =>
      rw [ht] at hr hr'
      rw [hr.pubsub, hr'.pubsub, h.pubsub]
  | none =>
      cases c with
      | publish ch msg => exact (Db.publish_congr h ch).2
      | ping msg => cases msg <;> exact h.pubsub
      | get | existsKeys | echo | strlen | mget | ttl | pttl | lrange | llen | lindex | hget
      | hkeys | hvals | hgetall | hexists | hlen | subscribe | unsubscribe | info | bgRewriteAof
      | unknown => exact h.pubsub
      | _ => cases ht

end Command

/-! ## Runs -/

/-- A command or a sweep, with its clock reading. -/
inductive Event where
  | command (now : ExpireAt) (c : Command)
  | sweep (now : ExpireAt)

namespace Event

def time : Event → ExpireAt
  | command now _ | sweep now => now

def isCommand : Event → Bool
  | command .. => true
  | sweep _ => false

end Event

namespace Db

/-- The replies of a run and the database after it. -/
def run (db : Db host) : List Event → List Frame × Db host
  | [] => ([], db)
  | .command now c :: events =>
      let r := (c.apply now db).2.run events
      ((c.apply now db).1 :: r.1, r.2)
  | .sweep now :: events => (db.sweepOnce now).run events

/-- The run on one database and the run without sweeps on a database with the same view. -/
theorem run_same {db db' : Db host} {start : ExpireAt} {events : List Event}
    (hd : db.Valid) (hd' : db'.Valid) (h : Same start db db')
    (hs : ∀ e ∈ events, start ≤ e.time) (ho : events.Pairwise fun a b => a.time ≤ b.time) :
    (db.run events).1 = (db'.run (events.filter Event.isCommand)).1 ∧
      ∀ later, start ≤ later → (∀ e ∈ events, e.time ≤ later) →
        Same later (db.run events).2 (db'.run (events.filter Event.isCommand)).2 := by
  induction events generalizing db db' start with
  | nil => exact ⟨rfl, fun later hl _ => h.later hl⟩
  | cons e events ih =>
      have he := hs e List.mem_cons_self
      obtain ⟨hhead, htail⟩ := List.pairwise_cons.mp ho
      cases e with
      | command now c =>
          have hn := h.later he
          obtain ⟨h₁, h₂⟩ := ih (hd.apply now c) (hd'.apply now c) (Command.apply_same hn c)
            hhead htail
          refine ⟨congrArg₂ List.cons (Command.apply_reply_congr hd hd' hn c) h₁,
            fun later _ hl => ?_⟩
          exact h₂ later (hl _ List.mem_cons_self) fun e he => hl e (List.mem_cons_of_mem _ he)
      | sweep now =>
          have hsw := same_sweepOnce hd (le_refl now)
          have hn := h.later he
          obtain ⟨h₁, h₂⟩ := ih (hd.sweepOnce now) hd'
            ⟨hsw.view.trans hn.view, hsw.pubsub.trans hn.pubsub⟩ hhead htail
          exact ⟨h₁, fun later _ hl =>
            h₂ later (hl _ List.mem_cons_self) fun e he => hl e (List.mem_cons_of_mem _ he)⟩

/-- Sweeps cannot be observed: not in the replies of a run, not in its final live view,
and not by a single command. -/
theorem sweeps_unobservable {db : Db host} (h : db.Reachable) :
    (∀ events : List Event, events.Pairwise (fun a b => a.time ≤ b.time) →
      (db.run events).1 = (db.run (events.filter Event.isCommand)).1 ∧
        ∀ later, (∀ e ∈ events, e.time ≤ later) →
          (db.run events).2.view later = (db.run (events.filter Event.isCommand)).2.view later) ∧
    ∀ now (c : Command),
      (c.apply now db).1 = (c.apply now (db.sweepOnce now)).1 ∧
        (c.apply now db).2.view now = (c.apply now (db.sweepOnce now)).2.view now := by
  have hv := h.valid
  refine ⟨fun events ho => ?_, fun now c => ?_⟩
  · have hs : Same 0 db db := ⟨rfl, rfl⟩
    obtain ⟨h₁, h₂⟩ := run_same hv hv hs (fun _ _ => Nat.zero_le _) ho
    exact ⟨h₁, fun later hl => (h₂ later (Nat.zero_le _) hl).view⟩
  · have hs := same_sweepOnce hv (le_refl now)
    exact ⟨(Command.apply_reply_congr (hv.sweepOnce now) hv hs c).symm,
      (Command.apply_same hs c).view.symm⟩

theorem sweeps_unobservable_oneKey :
    (oneKey.run [.command 4 (.persist [107]), .sweep 5, .command 6 (.get [107])]).1 =
      (oneKey.run [.command 4 (.persist [107]), .command 6 (.get [107])]).1 :=
  ((sweeps_unobservable reachable_oneKey).1 _ (by simp [Event.time])).1

end Db
end MiniRedis
