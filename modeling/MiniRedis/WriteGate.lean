import MiniRedis.LoggedFrames
import MiniRedis.Rollback

/-!
# What passes the write gate

A command is a write exactly if it has a transaction and exactly if it is logged, and its
transaction stays within the keys that a rollback would put back.
-/
namespace MiniRedis

variable {host : Host}

namespace Db

/-- Two databases with the same entry under a key agree on it in every shard and in every
row of every index. -/
theorem Valid.same_at {db db' : Db host} (h : db.Valid) (h' : db'.Valid) {k : Bytes}
    (hk : db'.entry k = db.entry k) (i : Fin shardCount) :
    (db'.shards i).stored k = (db.shards i).stored k ∧
      ∀ t, ((db'.shards i).index t).count k = ((db.shards i).index t).count k := by
  constructor
  · rw [h'.stored_eq, h.stored_eq, hk]
  · intro t
    rw [h'.count_index, h.count_index, hk]

/-- A command that is no write changes no shard and is not logged. A write is logged, and
changes neither the entry nor the rows of a key that a rollback would not restore. -/
theorem Reachable.write_gate {db : Db host} (h : db.Reachable) (now : ExpireAt) (c : Command) :
    (c.isWrite = false →
      (c.apply now db).2.shards = db.shards ∧ ∀ later, c.aofFrame later = none) ∧
    (c.isWrite = true →
      (∀ later, (c.aofFrame later).isSome = true) ∧
      ∀ k, k ∉ c.mutatedKeys → ∀ i,
        ((c.apply now db).2.shards i).stored k = (db.shards i).stored k ∧
          ∀ t, (((c.apply now db).2.shards i).index t).count k =
            ((db.shards i).index t).count k) := by
  have hlogged : ∀ later, (c.aofFrame later).isSome = c.isWrite := by
    intro later
    rw [Command.aofFrame_eq, Option.isSome_map, Command.logged_isSome]
  constructor
  · intro hw
    have hr := c.apply_refines now db
    have ht : c.transaction now = none := by
      rwa [Command.isWrite_iff_transaction now, Option.isSome_eq_false_iff,
        Option.isNone_iff_eq_none]
        at hw
    rw [ht] at hr
    refine ⟨hr, fun later => ?_⟩
    rw [← Option.not_isSome_iff_eq_none, hlogged, hw]
    exact Bool.false_ne_true
  · intro hw
    refine ⟨fun later => (hlogged later).trans hw, fun k hk => ?_⟩
    exact h.valid.same_at (h.valid.apply now c) (c.entry_of_not_mutated now db hk)

theorem write_gate_oneKey :
    ((Command.get [107]).apply 9 oneKey).2.shards = oneKey.shards ∧
      (((Command.set [108] [118] (some 5)).apply 0 oneKey).2.shards ⟨3, by decide⟩).stored [107] =
        (oneKey.shards ⟨3, by decide⟩).stored [107] := by
  have hread := (reachable_oneKey.write_gate 9 (.get [107])).1 rfl
  have hwrite := (reachable_oneKey.write_gate 0 (.set [108] [118] (some 5))).2 rfl
  exact ⟨hread.1, (hwrite.2 [107] (by decide) ⟨3, by decide⟩).1⟩

end Db
end MiniRedis
