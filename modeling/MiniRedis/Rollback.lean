import MiniRedis.Reachability

/-!
# Rolling back a write

A command changes no entry outside `mutatedKeys`. Putting the snapshot of these
keys back therefore undoes it, whatever it did to them and whatever a sweeper took
away in the meantime.
-/
namespace MiniRedis

variable {host : Host}

namespace Command

theorem entry_of_not_mutated (now : ExpireAt) (db : Db host) (c : Command) {k : Bytes}
    (hk : k ∉ c.mutatedKeys) : (c.apply now db).2.entry k = db.entry k := by
  have hr := c.apply_refines now db
  cases ht : c.transaction now with
  | some t =>
      rw [ht] at hr
      exact hr.frame k hk
  | none =>
      rw [ht] at hr
      rw [Db.entry_of_shards hr]

end Command

namespace Db

def sweepAll (times : List ExpireAt) (db : Db host) : Db host :=
  times.foldl (fun db now => db.sweepOnce now) db

/-- Sweeps only take away entries that are due at one of their clock readings. -/
theorem sweepAll_spec (times : List ExpireAt) {db : Db host} (h : db.Valid) :
    (sweepAll times db).Valid ∧ ∀ k, (sweepAll times db).entry k = db.entry k ∨
      ((sweepAll times db).entry k = none ∧
        ∃ entry t, db.entry k = some entry ∧ t ∈ times ∧ entryExpired t entry = true) := by
  induction times generalizing db with
  | nil => exact ⟨h, fun k => Or.inl rfl⟩
  | cons now times ih =>
      obtain ⟨hv, hs⟩ := ih (h.sweepOnce now)
      refine ⟨hv, fun k => ?_⟩
      have he : (db.sweepOnce now).entry k = Slot.alive now (db.entry k) := by
        rw [entry_sweepOnce h]
        rfl
      change (sweepAll times (db.sweepOnce now)).entry k = _ ∨
        (sweepAll times (db.sweepOnce now)).entry k = none ∧ _
      rcases hk : db.entry k with _ | entry
      · rw [hk, Slot.alive_none] at he
        rcases hs k with hs | ⟨-, entry, t, hn, -⟩
        · exact Or.inl (hs.trans he)
        · rw [he] at hn
          cases hn
      · cases hx : entryExpired now entry with
        | true =>
            have hd : Slot.alive now (some entry) = none := by
              simp [Slot.alive, Option.filter, hx]
            rw [hk, hd] at he
            refine Or.inr ⟨?_, entry, now, rfl, List.mem_cons_self, hx⟩
            rcases hs k with hs | hs
            · exact hs.trans he
            · exact hs.1
        | false =>
            rw [hk, Slot.alive_eq_some.mpr ⟨rfl, hx⟩] at he
            rcases hs k with hs | ⟨hn, e, t, hke, ht, hxe⟩
            · exact Or.inl (hs.trans he)
            · rw [he] at hke
              exact Or.inr ⟨hn, e, t, hke, List.mem_cons_of_mem _ ht, hxe⟩

/-- The database after a write whose append failed, with sweeps before the rollback. -/
def rolledBack (now : ExpireAt) (c : Command) (sweeps : List ExpireAt) (db : Db host) : Db host :=
  (sweepAll sweeps (c.apply now db).2).restoreEntries (db.snapshotEntries c.mutatedKeys)

theorem entry_rolledBack (now : ExpireAt) (c : Command) (sweeps : List ExpireAt) (db : Db host)
    (k : Bytes) :
    (rolledBack now c sweeps db).entry k =
      if k ∈ c.mutatedKeys then db.entry k else (sweepAll sweeps (c.apply now db).2).entry k :=
  entry_restore_snapshot db _ c.mutatedKeys k

/-- A failed append is undone: every entry is as it was, up to those that a sweep found due,
and every deadline is listed once. -/
theorem failed_write_undone {db : Db host} (h : db.Reachable) (now : ExpireAt) (c : Command)
    (sweeps : List ExpireAt) :
    (sweeps = [] → (rolledBack now c sweeps db).entry = db.entry) ∧
    (∀ k, (rolledBack now c sweeps db).entry k = db.entry k ∨
      (rolledBack now c sweeps db).entry k = none ∧
        ∃ entry t, db.entry k = some entry ∧ t ∈ sweeps ∧ entryExpired t entry = true) ∧
    (∀ i k entry t, ((rolledBack now c sweeps db).shards i).stored k = some entry →
      entry.expiresAt = some t → (((rolledBack now c sweeps db).shards i).index t).count k = 1 ∧
        ∀ u, u ≠ t → k ∉ ((rolledBack now c sweeps db).shards i).index u) ∧
    ∀ i k t, k ∈ ((rolledBack now c sweeps db).shards i).index t →
      ∃ entry, ((rolledBack now c sweeps db).shards i).stored k = some entry ∧
        entry.expiresAt = some t := by
  have ha := h.valid.apply now c
  obtain ⟨hv, hs⟩ := sweepAll_spec sweeps ha
  have hr : (rolledBack now c sweeps db).Valid := hv.restore_snapshot db c.mutatedKeys
  refine ⟨?_, fun k => ?_, fun i k entry t => hr.listed_once, fun i k t => hr.stored_of_listed⟩
  · rintro rfl
    funext k
    rw [entry_rolledBack]
    split_ifs with hk
    · rfl
    · exact c.entry_of_not_mutated now db hk
  · rw [entry_rolledBack]
    split_ifs with hk
    · exact Or.inl rfl
    · rw [← c.entry_of_not_mutated now db hk]
      exact hs k

theorem failed_write_undone_oneKey :
    (rolledBack 1 (.del [[107], [107]]) [] oneKey).entry = oneKey.entry :=
  (failed_write_undone reachable_oneKey 1 (.del [[107], [107]]) []).1 rfl

end Db
end MiniRedis
