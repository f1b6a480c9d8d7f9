import MiniRedis.ExpiryIndex
import MiniRedis.Keyspace

/-!
# The commands refine their transactions

First each critical section: what it answers and leaves under its key is a
function of the live entry. Then the database: a section in the shard of its key
is an update of the keyspace. Then every write command.
-/
namespace MiniRedis

variable {host : Host} {A : Type}

/-! ## Sections -/

/-- A critical section does to its key what `slot` does to the live entry. -/
structure Acts (now : ExpireAt) (key : Bytes) (section_ : Shard → A × Shard)
    (slot : Slot → A × Slot) : Prop where
  reply : ∀ shard, (section_ shard).1 = (slot (shard.live now key)).1
  assigns : ∀ shard, Assigns shard (section_ shard).2 key (slot (shard.live now key)).2

namespace Cmd
open Shard
variable (now : ExpireAt) (shard : Shard) (key : Bytes)

theorem entryOrInsert_eq (default : Value) :
    entryOrInsert shard key default = (shard.stored key).getD ⟨default, none⟩ := rfl

theorem assigns_update (default : Value) (body : Value → Frame × Value) :
    (update shard key default body).1 = (Slot.update default body (shard.stored key)).1 ∧
      Assigns shard (update shard key default body).2 key
        (Slot.update default body (shard.stored key)).2 := by
  refine ⟨rfl, Assigns.insertEntry _ ?_⟩
  rw [deadline_eq, entryOrInsert_eq]
  cases shard.stored key <;> rfl

theorem assigns_takeFrom (missing : Frame) (body : Value → Frame × Option Value) :
    (takeFrom shard key missing body).1 =
        (Slot.takeFrom missing body (shard.stored key)).1 ∧
      Assigns shard (takeFrom shard key missing body).2 key
        (Slot.takeFrom missing body (shard.stored key)).2 := by
  unfold takeFrom
  cases hs : shard.stored key with
  | none =>
      have hl : shard.entries.lookup key = none := hs
      have hr := Assigns.refl shard key
      rw [hs] at hr
      rw [hl]
      exact ⟨rfl, hr⟩
  | some entry =>
      have hl : shard.entries.lookup key = some entry := hs
      have hd : shard.deadline key = entry.expiresAt := by rw [deadline_eq, hs, Option.bind_some]
      rw [hl]
      dsimp only [Slot.takeFrom]
      cases (body entry.value).2 with
      | some value => exact ⟨rfl, Assigns.insertEntry _ hd⟩
      | none => exact ⟨rfl, Assigns.removeEntry shard key⟩

/-- An update after the stale check of the string commands. -/
theorem acts_update (default : Value) (body : Value → Frame × Value) :
    Acts now key (fun shard => update (shard.expireIfStale now key).2 key default body)
      (Slot.update default body) := by
  constructor
  all_goals
    intro shard
    have hs := assigns_expireIfStale now shard key
    have hu := assigns_update (shard.expireIfStale now key).2 key default body
    rw [hs.stored_self] at hu
  · exact hu.1
  · exact hs.trans hu.2

theorem acts_update_container (default : Value) (body : Value → Frame × Value) :
    Acts now key (fun shard => update (removeIfExpired now shard key) key default body)
      (Slot.update default body) := by
  simp only [removeIfExpired_eq]
  exact acts_update now key default body

theorem acts_takeFrom (missing : Frame) (body : Value → Frame × Option Value) :
    Acts now key (fun shard => takeFrom (removeIfExpired now shard key) key missing body)
      (Slot.takeFrom missing body) := by
  simp only [removeIfExpired_eq]
  constructor
  all_goals
    intro shard
    have hs := assigns_expireIfStale now shard key
    have ht := assigns_takeFrom (shard.expireIfStale now key).2 key missing body
    rw [hs.stored_self] at ht
  · exact ht.1
  · exact hs.trans ht.2

theorem assigns_setSection (value : Bytes) (expiresAt : Option ExpireAt) :
    Assigns shard (setSection key value expiresAt shard) key (some ⟨.string value, expiresAt⟩) :=
  Assigns.reindex shard key ⟨.string value, expiresAt⟩

theorem assigns_msetSection (value : Bytes) :
    Assigns shard (msetSection key value shard) key (some ⟨.string value, none⟩) :=
  Assigns.reindex shard key ⟨.string value, none⟩

theorem acts_delSection :
    Acts now key (delSection now key) fun slot => (slot.isSome, none) := by
  constructor
  all_goals
    intro shard
    obtain ⟨hs, ht⟩ := expireIfStale_spec now shard key
    unfold delSection
    generalize shard.expireIfStale now key = r at hs ht ⊢
    obtain ⟨_ | _, shard'⟩ := r
  · exact congrArg Option.isSome ((removeEntry_fst shard' key).trans hs.stored_self)
  · rw [ht rfl]
    rfl
  · exact hs.trans (Assigns.removeEntry shard' key)
  · simpa [ht rfl] using hs

theorem acts_expireSection (deadline : ExpireAt) :
    Acts now key (expireSection now key deadline) (Slot.expire now deadline) := by
  have main : ∀ shard, (expireSection now key deadline shard).1 =
      (Slot.expire now deadline (shard.live now key)).1 ∧
      Assigns shard (expireSection now key deadline shard).2 key
        (Slot.expire now deadline (shard.live now key)).2 := by
    intro shard
    obtain ⟨hs, ht⟩ := expireIfStale_spec now shard key
    unfold expireSection
    generalize shard.expireIfStale now key = r at hs ht ⊢
    obtain ⟨_ | _, shard'⟩ := r
    · have hl : shard'.entries.lookup key = shard.live now key := hs.stored_self
      dsimp only
      rw [hl]
      cases he : shard.live now key with
      | none =>
          rw [he] at hs
          exact ⟨rfl, hs⟩
      | some entry =>
          dsimp only [Slot.expire]
          split_ifs
          · exact ⟨rfl, hs.trans (Assigns.removeEntry shard' key)⟩
          · exact ⟨rfl, hs.trans (Assigns.reindex shard' key
              { entry with expiresAt := some deadline })⟩
    · rw [ht rfl] at hs ⊢
      exact ⟨rfl, hs⟩
  exact ⟨fun shard => (main shard).1, fun shard => (main shard).2⟩

/-- Dropping a deadline: the entry goes first and its row after it. -/
theorem assigns_dropDeadline {value : Value} {old : ExpireAt}
    (h : shard.stored key = some ⟨value, some old⟩) :
    Assigns shard ((shard.insertEntry key ⟨value, none⟩).unindexExpiration old key) key
      (some ⟨value, none⟩) :=
  Assigns.of_indexedAs (by simp) fun hi => by
    have hd : shard.deadline key = some old := by rw [deadline_eq, h, Option.bind_some]
    exact IndexedAs.unindexExpiration (IndexedAs.insertEntry hi key _) hd

theorem acts_persistSection : Acts now key (persistSection now key) Slot.persist := by
  have main : ∀ shard, (persistSection now key shard).1 =
      (Slot.persist (shard.live now key)).1 ∧
      Assigns shard (persistSection now key shard).2 key
        (Slot.persist (shard.live now key)).2 := by
    intro shard
    obtain ⟨hs, ht⟩ := expireIfStale_spec now shard key
    unfold persistSection
    generalize shard.expireIfStale now key = r at hs ht ⊢
    obtain ⟨_ | _, shard'⟩ := r
    · have hl : shard'.entries.lookup key = shard.live now key := hs.stored_self
      dsimp only
      rw [hl]
      rcases he : shard.live now key with _ | ⟨value, _ | old⟩
      · rw [he] at hs
        exact ⟨rfl, hs⟩
      · rw [he] at hs
        exact ⟨rfl, hs⟩
      · exact ⟨rfl, hs.trans (assigns_dropDeadline shard' key (hl.trans he))⟩
    · rw [ht rfl] at hs ⊢
      exact ⟨rfl, hs⟩
  exact ⟨fun shard => (main shard).1, fun shard => (main shard).2⟩

end Cmd

/-! ## The database -/

namespace Db

/-- Every index is exact and every key is in the shard that its hash selects. -/
structure Valid (db : Db host) : Prop where
  indexed : ∀ i, (db.shards i).Indexed
  placed : ∀ i k, (db.shards i).stored k ≠ none → shardIndex host k = i

theorem valid_new : (new : Db host).Valid :=
    ⟨fun _ => Shard.indexed_empty, fun _ _ h => (h rfl).elim⟩

/-- `db'` is `db` with the entry of `key` set to `o`. -/
structure Changes (db db' : Db host) (key : Bytes) (o : Slot) : Prop where
  entry : db'.entry = Function.update db.entry key o
  valid : db.Valid → db'.Valid
  pubsub : db'.pubsub = db.pubsub

variable {db : Db host} {key : Bytes}

/-- A critical section reaches its own key only. -/
theorem locked_changes (section_ : Shard → A × Shard) {o : Slot}
    (h : Assigns (db.shardFor key) (section_ (db.shardFor key)).2 key o) :
    db.Changes (db.locked key section_).2 key o where
  entry := by
    funext k
    change (Function.update db.shards (shardIndex host key) _ (shardIndex host k)).stored k = _
    rw [Function.update_apply, Function.update_apply]
    split_ifs with hi hk hk
    · rw [hk, h.stored_self]
    · rw [h.stored, Function.update_of_ne hk, shardFor, ← hi]
      rfl
    · exact absurd (congrArg (shardIndex host) hk) hi
    · rfl
  valid hv := by
    constructor
    · intro i
      change (Function.update db.shards (shardIndex host key) _ i).Indexed
      rw [Function.update_apply]
      split_ifs
      · exact h.indexed (hv.indexed _)
      · exact hv.indexed i
    · intro i k hk
      change (Function.update db.shards (shardIndex host key) _ i).stored k ≠ none at hk
      rw [Function.update_apply] at hk
      split_ifs at hk with hi
      · rw [h.stored, Function.update_apply] at hk
        split_ifs at hk with hkey
        · rw [hkey, hi]
        · exact (hv.placed _ k hk).trans hi.symm
      · exact hv.placed i k hk
  pubsub := rfl

theorem locked_acts (db : Db host) {key : Bytes} {now : ExpireAt} {section_ : Shard → A × Shard}
    {slot : Slot → A × Slot}
    (h : Acts now key section_ slot) :
    (db.locked key section_).1 = (slot (db.view now key)).1 ∧
      db.Changes (db.locked key section_).2 key (slot (db.view now key)).2 :=
  ⟨h.reply _, locked_changes section_ (h.assigns _)⟩

theorem Changes.view {db' : Db host} {o : Slot} (h : db.Changes db' key o) (now : ExpireAt) :
    db'.view now = Keyspace.alive now (Function.update (db.view now) key o) := by
  change Keyspace.alive now db'.entry = _
  rw [h.entry, Keyspace.alive_update, Keyspace.alive_update]
  exact congrArg (Function.update · key _) (view_alive_self now db).symm

end Db

theorem Db.entry_of_shards {db db' : Db host} (h : db'.shards = db.shards) :
    db'.entry = db.entry := by
  funext k
  unfold Db.entry Db.shardFor
  rw [h]

theorem Db.view_of_shards {now : ExpireAt} {db db' : Db host} (h : db'.shards = db.shards) :
    db'.view now = db.view now := congrArg (Keyspace.alive now) (Db.entry_of_shards h)

/-- A command's run on a database carries out its transaction on the live view. -/
structure Refines (now : ExpireAt) (db : Db host) (r : Frame × Db host) (keys : List Bytes)
    (run : Keyspace → Frame × Keyspace) : Prop where
  reply : r.1 = (run (db.view now)).1
  view : r.2.view now = (run (db.view now)).2.alive now
  frame : ∀ k, k ∉ keys → r.2.entry k = db.entry k
  stored : ∀ k, r.2.entry k = db.entry k ∨ r.2.entry k = (run (db.view now)).2 k
  valid : db.Valid → r.2.Valid
  pubsub : r.2.pubsub = db.pubsub

namespace Refines
variable {now : ExpireAt} {db : Db host} {key : Bytes}

theorem refuse (keys : List Bytes) (reply : Frame) :
    Refines now db (reply, db) keys (Transaction.refuse reply).run :=
  ⟨rfl, (Db.view_alive_self now db).symm, fun _ _ => rfl, fun _ => Or.inl rfl, id, rfl⟩

theorem of_changes {reply : Frame} {db' : Db host} {slot : Slot → Frame × Slot}
    (hr : reply = (slot (db.view now key)).1)
    (h : db.Changes db' key (slot (db.view now key)).2) :
    Refines now db (reply, db') [key] (Transaction.on key slot).run :=
  ⟨hr, h.view now, fun k hk => by
    rw [h.entry, Function.update_of_ne (by simpa using hk)], fun k => by
    by_cases hk : k = key
    · right
      subst hk
      simp only [h.entry, Transaction.run, Function.update_self]
    · left
      rw [h.entry, Function.update_of_ne hk], h.valid, h.pubsub⟩

theorem of_acts {section_ : Shard → Frame × Shard} {slot : Slot → Frame × Slot}
    (h : Acts now key section_ slot) :
    Refines now db (db.locked key section_) [key] (Transaction.on key slot).run :=
  of_changes (db.locked_acts h).1 (db.locked_acts h).2

end Refines

namespace Cmd
variable (now : ExpireAt)

theorem refines_setAt (db : Db host) (key value : Bytes) (expiresAt : Option ExpireAt) :
    Refines now db (setAt db key value expiresAt) [key]
      (if Wire.bulkResponseFits value.length
        then Transaction.on key fun _ => (.simple "OK", some ⟨.string value, expiresAt⟩)
        else .refuse Wire.responseTooLarge).run := by
  unfold setAt
  split_ifs
  · exact Refines.of_acts ⟨fun _ => rfl, fun shard => assigns_setSection shard key value expiresAt⟩
  · exact Refines.refuse _ _

theorem delLoop_spec (keys : List Bytes) (n : ℕ) (db : Db host) :
    (delLoop now keys n db).1 = n + ((db.view now).removeAll keys).1 ∧
      (∀ k, (delLoop now keys n db).2.entry k = if k ∈ keys then none else db.entry k) ∧
      (db.Valid → (delLoop now keys n db).2.Valid) ∧
      (delLoop now keys n db).2.pubsub = db.pubsub := by
  induction keys generalizing n db with
  | nil => exact ⟨rfl, fun k => by simp [delLoop], id, rfl⟩
  | cons key keys ih =>
      obtain ⟨hr, hc⟩ := db.locked_acts (acts_delSection now key)
      obtain ⟨h₁, h₂, h₃, h₄⟩ := ih (if (db.locked key (delSection now key)).1 then n + 1 else n)
        (db.locked key (delSection now key)).2
      have hv : (db.locked key (delSection now key)).2.view now =
          Function.update (db.view now) key none := by
        rw [Db.view, hc.entry, Keyspace.alive_update]
        rfl
      refine ⟨?_, fun k => ?_, h₃ ∘ hc.valid, h₄.trans hc.pubsub⟩
      · rw [delLoop, h₁, hv, hr, Keyspace.removeAll]
        dsimp only
        split_ifs <;> omega
      · rw [delLoop, h₂, hc.entry, Function.update_apply]
        by_cases hk : k ∈ keys <;> simp [hk, List.mem_cons]

theorem refines_del (db : Db host) (keys : List Bytes) :
    Refines now db (del now db keys) keys (Transaction.remove keys).run := by
  obtain ⟨h₁, h₂, h₃, h₄⟩ := delLoop_spec now keys 0 db
  refine ⟨?_, ?_, fun k hk => by rw [del, h₂, if_neg hk], fun k => ?_, h₃, h₄⟩
  · rw [del, h₁, Nat.zero_add]
    rfl
  · funext k
    change Slot.alive now ((delLoop now keys 0 db).2.entry k) =
      Slot.alive now ((Keyspace.removeAll keys (db.view now)).2 k)
    rw [h₂, Keyspace.removeAll_apply]
    split_ifs
    · rfl
    · exact (Slot.alive_alive le_rfl (db.entry k)).symm
  · change (delLoop now keys 0 db).2.entry k = db.entry k ∨
      (delLoop now keys 0 db).2.entry k = (Keyspace.removeAll keys (db.view now)).2 k
    rw [h₂, Keyspace.removeAll_apply]
    split_ifs
    · exact Or.inr rfl
    · exact Or.inl rfl

theorem msetLoop_spec (pairs : List (Bytes × Bytes)) (db : Db host) :
    (msetLoop pairs db).entry = Keyspace.setAll pairs db.entry ∧
      (db.Valid → (msetLoop pairs db).Valid) ∧ (msetLoop pairs db).pubsub = db.pubsub := by
  induction pairs generalizing db with
  | nil => exact ⟨rfl, id, rfl⟩
  | cons p pairs ih =>
      obtain ⟨key, value⟩ := p
      have hc := Db.locked_changes (fun shard => ((), msetSection key value shard))
        (assigns_msetSection (db.shardFor key) key value)
      obtain ⟨h₁, h₂, h₃⟩ := ih (db.locked key fun shard => ((), msetSection key value shard)).2
      refine ⟨?_, h₂ ∘ hc.valid, h₃.trans hc.pubsub⟩
      rw [msetLoop, h₁, hc.entry, Keyspace.setAll]

theorem refines_mset (db : Db host) (pairs : List (Bytes × Bytes)) :
    Refines now db (mset db pairs) (pairs.map (·.1))
      (if pairs.any fun p => !Wire.bulkResponseFits p.2.length
        then Transaction.refuse Wire.responseTooLarge else .assign pairs).run := by
  unfold mset
  split_ifs
  · exact Refines.refuse _ _
  · obtain ⟨h₁, h₂, h₃⟩ := msetLoop_spec pairs db
    refine ⟨rfl, ?_, fun k hk => ?_, fun k => ?_, h₂, h₃⟩
    · funext k
      change Slot.alive now ((msetLoop pairs db).entry k) =
        Slot.alive now (Keyspace.setAll pairs _ k)
      rw [h₁, Keyspace.setAll_apply, Keyspace.setAll_apply]
      cases assignedValue k pairs with
      | some v => rfl
      | none => exact (Slot.alive_alive le_rfl (db.entry k)).symm
    · change (msetLoop pairs db).entry k = db.entry k
      rw [h₁, Keyspace.setAll_apply, assignedValue_eq_none.mpr hk]
      rfl
    · change (msetLoop pairs db).entry k = db.entry k ∨
        (msetLoop pairs db).entry k = Keyspace.setAll pairs (db.view now) k
      rw [h₁, Keyspace.setAll_apply, Keyspace.setAll_apply]
      cases assignedValue k pairs with
      | some v => exact Or.inr rfl
      | none => exact Or.inl rfl

end Cmd

namespace Command
open Cmd

/-- What a command does to a database: its transaction, or nothing but a pub/sub clean-up. -/
theorem apply_refines (now : ExpireAt) (db : Db host) (c : Command) :
    match c.transaction now with
    | some t => Refines now db (apply now db c) c.mutatedKeys t.run
    | none => (apply now db c).2.shards = db.shards := by
  cases c with
  | set key value expiresAt => exact refines_setAt now db key value expiresAt
  | del keys => exact refines_del now db keys
  | incr k | decr k | incrBy k n | append k v =>
      exact Refines.of_acts (acts_update now k _ _)
  | decrBy k n =>
      simp only [transaction, apply]
      cases checkedNegI64 n with
      | some neg => exact Refines.of_acts (acts_update now k _ _)
      | none => exact Refines.refuse _ _
  | mset pairs => exact refines_mset now db pairs
  | expire k d | pexpire k d | pexpireAt k d => exact Refines.of_acts (acts_expireSection now k d)
  | persist k => exact Refines.of_acts (acts_persistSection now k)
  | lpush k vs | rpush k vs | hset k ps | hincrby k f n =>
      exact Refines.of_acts (acts_update_container now k _ _)
  | lpop k count | rpop k count =>
      cases count <;> exact Refines.of_acts (acts_takeFrom now k _ _)
  | hdel k fs => exact Refines.of_acts (acts_takeFrom now k _ _)
  | publish ch msg =>
      simp only [transaction, apply, Db.pubsubPublish]
      split
      · split_ifs <;> rfl
      · rfl
  | ping msg => cases msg <;> rfl
  | _ => rfl

end Command
end MiniRedis
