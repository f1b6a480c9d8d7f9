import MiniRedis.Sweep
import Mathlib.Data.List.Perm.Basic

/-!
# The live entries as a list

Statistics and snapshots walk over all shards. What they visit is the live view:
each live key once, in an order that differs from one database to another with
the same view. The statistics do not depend on that order.
-/
namespace MiniRedis

variable {host : Host}

/-- The live entries of a shard, in the order of iteration. -/
def Shard.liveEntries (now : ExpireAt) (shard : Shard) : List (Bytes × Entry) :=
  (shard.entries.entries.filter fun e => !entryExpired now e.2).map fun e => (e.1, e.2)

def Db.liveEntries (now : ExpireAt) (db : Db host) : List (Bytes × Entry) :=
  db.iterShards.flatMap (Shard.liveEntries now)

variable {now : ExpireAt}

theorem Shard.mem_liveEntries {shard : Shard} {k : Bytes} {entry : Entry} :
    (k, entry) ∈ shard.liveEntries now ↔ shard.live now k = some entry := by
  unfold liveEntries live
  rw [Option.filter_eq_some_iff, stored, FiniteMap.lookup_eq_some]
  simp only [List.mem_map, List.mem_filter, Prod.mk.injEq]
  constructor
  · rintro ⟨e, he, rfl, rfl⟩
    exact he
  · intro h
    exact ⟨⟨k, entry⟩, h, rfl, rfl⟩

theorem Shard.nodup_liveEntries (shard : Shard) :
    ((shard.liveEntries now).map Prod.fst).Nodup := by
  unfold liveEntries
  rw [List.map_map]
  exact (List.nodup_map_iff_inj_on (List.Nodup.filter _ shard.entries.nodupKeys.nodup)).mpr
    fun a ha b hb hab => by
      have ha' := FiniteMap.lookup_mem (List.mem_filter.mp ha).1
      have hb' := FiniteMap.lookup_mem (List.mem_filter.mp hb).1
      obtain ⟨ka, va⟩ := a
      obtain ⟨kb, vb⟩ := b
      obtain rfl : ka = kb := hab
      obtain rfl : va = vb := Option.some.inj (ha'.symm.trans hb')
      rfl

namespace Db
variable {db : Db host}

theorem Valid.placed_of_live (h : db.Valid) {i : Fin shardCount} {k : Bytes} {entry : Entry}
    (hl : (db.shards i).live now k = some entry) : shardIndex host k = i :=
  h.placed i k fun hn => by
    rw [Shard.live, hn] at hl
    cases hl

theorem Valid.mem_liveEntries (h : db.Valid) {k : Bytes} {entry : Entry} :
    (k, entry) ∈ db.liveEntries now ↔ db.view now k = some entry := by
  unfold liveEntries iterShards
  rw [List.mem_flatMap]
  constructor
  · rintro ⟨shard, hs, hk⟩
    obtain ⟨i, -, rfl⟩ := List.mem_map.mp hs
    have hl := Shard.mem_liveEntries.mp hk
    obtain rfl := h.placed_of_live hl
    exact hl
  · intro hv
    exact ⟨db.shards (shardIndex host k), List.mem_map.mpr ⟨_, List.mem_finRange _, rfl⟩,
      Shard.mem_liveEntries.mpr hv⟩

theorem Valid.nodup_liveEntries (h : db.Valid) :
    ((db.liveEntries now).map Prod.fst).Nodup := by
  unfold liveEntries iterShards
  rw [List.map_flatMap, List.flatMap_map, List.nodup_flatMap]
  refine ⟨fun i _ => Shard.nodup_liveEntries (db.shards i), ?_⟩
  refine (List.nodup_finRange shardCount).imp fun {i j} hij k hi hj => hij ?_
  have place : ∀ i, k ∈ ((db.shards i).liveEntries now).map Prod.fst → shardIndex host k = i := by
    intro i hk
    obtain ⟨⟨_, e⟩, he, rfl⟩ := List.mem_map.mp hk
    exact h.placed_of_live (Shard.mem_liveEntries.mp he)
  exact (place i hi).symm.trans (place j hj)

theorem Valid.liveEntries_perm {db' : Db host} (h : db.Valid) (h' : db'.Valid)
    (hv : db.view now = db'.view now) : (db.liveEntries now).Perm (db'.liveEntries now) := by
  refine (List.perm_ext_iff_of_nodup h.nodup_liveEntries.of_map h'.nodup_liveEntries.of_map).mpr ?_
  rintro ⟨k, entry⟩
  rw [h.mem_liveEntries, h'.mem_liveEntries, hv]

/-! ## Statistics -/

theorem stats_eq (db : Db host) :
    db.stats now = (db.liveEntries now).foldl (fun stats e => stats.count e.1 e.2) {} := by
  have hshard : ∀ (shard : Shard) (stats : DbStats),
      shard.entries.entries.foldl (fun stats e =>
        if entryExpired now e.2 then stats else stats.count e.1 e.2) stats =
      (shard.liveEntries now).foldl (fun stats e => stats.count e.1 e.2) stats := by
    intro shard stats
    rw [Shard.liveEntries, List.foldl_map, List.foldl_filter]
    congr 1
    funext stats e
    cases entryExpired now e.2 <;> rfl
  unfold stats liveEntries
  rw [List.foldl_flatMap]
  congr 1
  funext stats shard
  exact hshard shard stats

instance : RightCommutative fun (stats : DbStats) (e : Bytes × Entry) => stats.count e.1 e.2 where
  right_comm stats a b := by
    obtain ⟨ka, va, da⟩ := a
    obtain ⟨kb, vb, db⟩ := b
    cases va <;> cases vb <;> simp only [DbStats.count, DbStats.mk.injEq, true_and] <;>
      and_intros <;> ac_rfl

/-- The statistics depend on the live view alone. -/
theorem Valid.stats_congr {db' : Db host} (h : db.Valid) (h' : db'.Valid)
    (hv : db.view now = db'.view now) : db.stats now = db'.stats now := by
  rw [stats_eq, stats_eq]
  exact (h.liveEntries_perm h' hv).foldl_eq _

end Db
end MiniRedis
