import MiniRedis.Sweep

/-!
# Reachable databases

Every database that commands, sweeps and rollbacks lead to is valid: the TTL
index is exact, and a sweep takes away what is due and nothing else.
-/
namespace MiniRedis

variable {host : Host}

namespace Db

/-- The databases that the server can be in, at any clock readings. A rollback restores
entries that were stored in an earlier reachable database. -/
inductive Reachable : Db host → Prop where
  | new : Reachable new
  | apply {db : Db host} (h : Reachable db) (now : ExpireAt) (c : Command) :
      Reachable (c.apply now db).2
  | sweep {db : Db host} (h : Reachable db) (now : ExpireAt) : Reachable (db.sweepOnce now)
  | rollback {old db : Db host} (ho : Reachable old) (h : Reachable db) (keys : List Bytes) :
      Reachable (db.restoreEntries (old.snapshotEntries keys))

theorem valid_of_shards {db db' : Db host} (h : db'.shards = db.shards) (hv : db.Valid) :
    db'.Valid := ⟨by rw [h]; exact hv.indexed, by rw [h]; exact hv.placed⟩

theorem Valid.apply {db : Db host} (h : db.Valid) (now : ExpireAt) (c : Command) :
    (c.apply now db).2.Valid := by
  have hr := c.apply_refines now db
  cases ht : c.transaction now with
  | some t =>
      rw [ht] at hr
      exact hr.valid h
  | none =>
      rw [ht] at hr
      exact valid_of_shards hr h

theorem Reachable.valid {db : Db host} (h : db.Reachable) : db.Valid := by
  induction h with
  | new => exact valid_new
  | apply _ now c ih => exact ih.apply now c
  | sweep _ now ih => exact ih.sweepOnce now
  | rollback _ _ keys _ ih => exact ih.restore_snapshot _ keys

theorem Valid.listed_once {db : Db host} (h : db.Valid) {i : Fin shardCount} {k : Bytes}
    {entry : Entry} {t : ExpireAt} (hk : (db.shards i).stored k = some entry)
    (ht : entry.expiresAt = some t) :
    ((db.shards i).index t).count k = 1 ∧ ∀ u, u ≠ t → k ∉ (db.shards i).index u := by
  have hi := h.indexed i
  have hd : (db.shards i).deadline k = some t := by
    rw [Shard.deadline_eq, hk, Option.bind_some, ht]
  refine ⟨?_, fun u hu => hi.indexes.not_mem hd hu⟩
  convert hi.indexes.count_eq_one hd

theorem Valid.stored_of_listed {db : Db host} (h : db.Valid) {i : Fin shardCount} {k : Bytes}
    {t : ExpireAt} (hk : k ∈ (db.shards i).index t) :
    ∃ entry, (db.shards i).stored k = some entry ∧ entry.expiresAt = some t :=
  Option.bind_eq_some_iff.mp ((h.indexed i).indexes.mem_iff.mp hk)

theorem Valid.stored_eq {db : Db host} (h : db.Valid) (i : Fin shardCount) (k : Bytes) :
    (db.shards i).stored k = if shardIndex host k = i then db.entry k else none := by
  split_ifs with hi
  · rw [← hi]
    rfl
  · by_contra hk
    exact hi (h.placed i k hk)

/-- A key is listed in its own shard, under its deadline. -/
theorem Valid.count_index {db : Db host} (h : db.Valid) (i : Fin shardCount) (t : ExpireAt)
    (k : Bytes) : ((db.shards i).index t).count k =
      if shardIndex host k = i ∧ (db.entry k).bind Entry.expiresAt = some t then 1 else 0 := by
  have hc : ((db.shards i).index t).count k =
      if (db.shards i).deadline k = some t then 1 else 0 := by
    convert (h.indexed i).indexes t k
  rw [hc, Shard.deadline_eq, h.stored_eq i k]
  by_cases hi : shardIndex host k = i
  · simp only [hi, if_true, true_and]
  · simp only [hi, if_false, Option.bind_none, reduceCtorEq, false_and]

/-- `db'` has `slot` under the key, alive and with its row in the index, and what `db` has
under the others. -/
structure Becomes (now : ExpireAt) (db db' : Db host) (key : Bytes) (slot : Slot) : Prop where
  entry : db'.entry = Function.update db.entry key slot
  view : db'.view now = Function.update (db.view now) key slot
  index : ∀ i t, ((db'.shards i).index t).count key =
    if shardIndex host key = i ∧ slot.bind Entry.expiresAt = some t then 1 else 0

theorem Changes.becomes {now : ExpireAt} {db db' : Db host} {key : Bytes} {slot : Slot}
    (h : db.Changes db' key slot) (hv : db.Valid) (hs : slot.alive now = slot) :
    Becomes now db db' key slot where
  entry := h.entry
  view := by rw [h.view, Keyspace.alive_update, view_alive_self, hs]
  index i t := by rw [(h.valid hv).count_index, h.entry, Function.update_self]

/-- A key whose entry goes is no longer listed anywhere. -/
theorem Becomes.gone_iff {now : ExpireAt} {db db' : Db host} {key : Bytes} {slot : Slot}
    (h : Becomes now db db' key slot) :
    (db'.entry key = none ∧ ∀ i t, key ∉ (db'.shards i).index t) ↔ slot = none := by
  rw [h.entry, Function.update_self]
  refine ⟨And.left, fun hs => ⟨hs, fun i t => ?_⟩⟩
  rw [← List.count_eq_zero, h.index, hs]
  exact if_neg fun hn => Option.some_ne_none t hn.2.symm

/-- The TTL index of every shard is exact, every key is in its own shard, and a sweep
removes exactly the entries that are due. -/
theorem ttl_index_exact {db : Db host} (h : db.Reachable) (i : Fin shardCount) :
    (∀ k entry t, (db.shards i).stored k = some entry → entry.expiresAt = some t →
      ((db.shards i).index t).count k = 1 ∧ ∀ u, u ≠ t → k ∉ (db.shards i).index u) ∧
    (∀ k t, k ∈ (db.shards i).index t →
      ∃ entry, (db.shards i).stored k = some entry ∧ entry.expiresAt = some t) ∧
    (∀ t, (db.shards i).expirations.lookup t ≠ some []) ∧
    (∀ k, (db.shards i).stored k ≠ none → shardIndex host k = i) ∧
    ∀ now k entry, ((db.sweepOnce now).shards i).stored k = some entry ↔
      (db.shards i).stored k = some entry ∧ ∀ t, entry.expiresAt = some t → now < t := by
  have hv := h.valid
  have hi := hv.indexed i
  refine ⟨fun k entry t => hv.listed_once, fun k t => hv.stored_of_listed, hi.nonempty,
    hv.placed i, fun now k entry => ?_⟩
  change ((db.shards i).sweep now).stored k = some entry ↔ _
  rw [Shard.stored_sweep now hi k]
  exact Slot.alive_eq_some.trans (and_congr_right fun _ => entryExpired_eq_false)

/-- A database with one key, which has a deadline. -/
def oneKey : Db ⟨fun _ => 3, 1⟩ := ((Command.set [107] [118] (some 5)).apply 0 new).2

theorem reachable_oneKey : oneKey.Reachable := .apply .new 0 _

theorem ttl_index_exact_oneKey :
    ((oneKey.shards ⟨3, by decide⟩).index 5).count [107] = 1 ∧
      ((oneKey.sweepOnce 5).shards ⟨3, by decide⟩).stored [107] = none := by
  have h := ttl_index_exact reachable_oneKey ⟨3, by decide⟩
  refine ⟨(h.1 [107] ⟨.string [118], some 5⟩ 5 rfl rfl).1, ?_⟩
  by_contra hn
  obtain ⟨entry, he⟩ := Option.ne_none_iff_exists'.mp hn
  obtain ⟨hs, ht⟩ := (h.2.2.2.2 5 [107] entry).mp he
  obtain rfl : (⟨.string [118], some 5⟩ : Entry) = entry := Option.some.inj hs
  exact absurd (ht 5 rfl) (lt_irrefl 5)

end Db
end MiniRedis
