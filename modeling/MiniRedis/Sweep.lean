import MiniRedis.Refinement

/-!
# Sweeps and rollbacks

The active sweep removes what has expired, by way of the index rows, and the
rollback of a failed append puts the snapshot of the touched keys back. Both keep
a database valid.
-/
namespace MiniRedis

variable {host : Host}

namespace Shard
variable (now : ExpireAt)

theorem due_iff (shard : Shard) (key : Bytes) :
    ((shard.deadline key).map fun t => decide (t ≤ now)).getD false =
      ((shard.stored key).map (entryExpired now)).getD false := by
  rw [deadline_eq]
  rcases shard.stored key with _ | ⟨value, _ | t⟩ <;> rfl

theorem stored_removeIfDue (shard : Shard) (key : Bytes) :
    (removeIfDue now shard key).stored = Function.update shard.stored key (shard.live now key) := by
  unfold removeIfDue
  rw [due_iff]
  split_ifs with h
  · rw [live_of_stale now shard key h]
    exact FiniteMap.lookup_erase shard.entries key
  · rw [live_of_fresh now shard key (by simpa using h), Function.update_eq_self]

theorem expirations_removeIfDue (shard : Shard) (key : Bytes) :
    (removeIfDue now shard key).expirations = shard.expirations := by
  unfold removeIfDue
  split_ifs <;> rfl

/-- The loop over the due keys. -/
theorem removeDue_spec (keys : List Bytes) (shard : Shard) :
    (∀ k, (keys.foldl (removeIfDue now) shard).stored k =
        if k ∈ keys then shard.live now k else shard.stored k) ∧
      (keys.foldl (removeIfDue now) shard).expirations = shard.expirations := by
  induction keys generalizing shard with
  | nil => exact ⟨fun k => by simp, rfl⟩
  | cons key keys ih =>
      obtain ⟨h₁, h₂⟩ := ih (removeIfDue now shard key)
      have hl : ∀ k, (removeIfDue now shard key).live now k = shard.live now k := by
        intro k
        rw [live, stored_removeIfDue, Function.update_apply]
        split_ifs with hk
        · rw [hk]
          exact Slot.alive_alive le_rfl (shard.stored key)
        · rfl
      refine ⟨fun k => ?_, h₂.trans (expirations_removeIfDue now shard key)⟩
      rw [List.foldl_cons, h₁, hl, stored_removeIfDue, Function.update_apply]
      by_cases hk : k = key
      · subst hk
        simp
      · simp [hk]

variable {shard : Shard}

/-- The keys that a sweep schedules for removal. -/
theorem mem_dueKeys {k : Bytes} :
    k ∈ (shard.expirations.entries.filter (·.1 ≤ now)).flatMap (·.2) ↔
      ∃ t, t ≤ now ∧ k ∈ shard.index t := by
  simp only [List.mem_flatMap, List.mem_filter, decide_eq_true_eq]
  constructor
  · rintro ⟨e, ⟨he, ht⟩, hk⟩
    refine ⟨e.1, ht, ?_⟩
    rwa [index, FiniteMap.lookup_mem he, Option.getD_some]
  · rintro ⟨t, ht, hk⟩
    unfold index at hk
    cases hl : shard.expirations.lookup t with
    | none => simp [hl] at hk
    | some keys =>
        rw [hl, Option.getD_some] at hk
        exact ⟨⟨t, keys⟩, ⟨FiniteMap.lookup_eq_some.mp hl, ht⟩, hk⟩

/-- The rows of an exact index name every entry that is due. -/
theorem Indexed.mem_dueKeys_of_stale (h : shard.Indexed) {k : Bytes}
    (hk : shard.live now k ≠ shard.stored k) :
    k ∈ (shard.expirations.entries.filter (·.1 ≤ now)).flatMap (·.2) := by
  cases hs : ((shard.stored k).map (entryExpired now)).getD false with
  | false => exact absurd (live_of_fresh now shard k hs) hk
  | true =>
      obtain ⟨entry, he, hx⟩ : ∃ e, shard.stored k = some e ∧ entryExpired now e = true := by
        cases he : shard.stored k <;> simp_all
      obtain ⟨t, ht, hn⟩ := entryExpired_iff.mp hx
      refine (mem_dueKeys now).mpr ⟨t, hn, h.indexes.mem_iff.mpr ?_⟩
      rw [deadline_eq, he, Option.bind_some, ht]

theorem stored_sweep (h : shard.Indexed) (k : Bytes) :
    (shard.sweep now).stored k = shard.live now k := by
  unfold sweep
  rw [(removeDue_spec now _ _).1]
  split_ifs with hk
  · rfl
  · by_contra hne
    exact hk (h.mem_dueKeys_of_stale now fun he => hne he.symm)

theorem deadline_sweep (h : shard.Indexed) :
    (shard.sweep now).deadline = fun k => (shard.deadline k).filter (now < ·) := by
  funext k
  rw [deadline_eq, stored_sweep now h, deadline_eq, live]
  rcases shard.stored k with _ | ⟨value, _ | t⟩
  · rfl
  · simp [Option.filter, entryExpired]
  · rcases Nat.lt_or_ge now t with hn | hn
    · simp [Option.filter, entryExpired, hn, Nat.not_le.mpr hn]
    · simp [Option.filter, entryExpired, hn, Nat.not_lt.mpr hn]

theorem lookup_expirations_sweep (t : ExpireAt) :
    (shard.sweep now).expirations.lookup t =
      (shard.expirations.lookup t).filter fun _ => now < t := by
  unfold sweep
  rw [(removeDue_spec now _ _).2]
  exact FiniteMap.lookup_retain _ _ t

theorem Indexed.sweep (h : shard.Indexed) : (shard.sweep now).Indexed where
  indexes := by
    have hi : (shard.sweep now).index =
        fun t => if decide (now < t) then shard.index t else [] := by
      funext t
      rw [index, lookup_expirations_sweep, index]
      by_cases ht : now < t
      all_goals cases shard.expirations.lookup t <;> simp [ht, Option.filter]
    rw [hi, deadline_sweep now h]
    exact h.indexes.restrict _
  nonempty t := by
    rw [lookup_expirations_sweep]
    intro he
    exact h.nonempty t (Option.filter_eq_some_iff.mp he).1

/-- The critical section of a rollback. -/
theorem assigns_restore (shard : Shard) (key : Bytes) (entry : Entry) :
    Assigns shard
      ((match entry.expiresAt with
        | some t => (shard.removeEntry key).2.pushExpiration t key
        | none => (shard.removeEntry key).2).insertEntry key entry) key (some entry) := by
  have hr := Assigns.removeEntry shard key
  have hd : (shard.removeEntry key).2.deadline key = none := by
    rw [deadline_eq, hr.stored_self, Option.bind_none]
  refine hr.trans (Assigns.of_indexedAs ?_ fun hi => IndexedAs.insertEntry ?_ key entry)
  · rw [stored_insertEntry]
    split <;> rfl
  · cases ht : entry.expiresAt with
    | some t =>
        rw [Option.bind_some, ht]
        exact IndexedAs.pushExpiration hi hd t
    | none =>
        rw [Option.bind_some, ht, Function.update_eq_self_iff.mpr hd.symm]
        exact hi

end Shard

namespace Db
variable {db : Db host}

theorem entry_sweepOnce (h : db.Valid) (now : ExpireAt) :
    (db.sweepOnce now).entry = db.view now := by
  funext k
  exact Shard.stored_sweep now (h.indexed (shardIndex host k)) k

theorem Valid.sweepOnce (h : db.Valid) (now : ExpireAt) : (db.sweepOnce now).Valid where
  indexed i := (h.indexed i).sweep now
  placed i k hk := h.placed i k fun hn => hk <| by
    change ((db.shards i).sweep now).stored k = none
    rw [Shard.stored_sweep now (h.indexed i), Shard.live, hn]
    rfl

/-- A sweep does not show in the live view from its own clock reading on. -/
theorem view_sweepOnce (h : db.Valid) {now later : ExpireAt} (hn : now ≤ later) :
    (db.sweepOnce now).view later = db.view later := by
  rw [Db.view, entry_sweepOnce h, Db.view_alive hn]

theorem changes_restoreEntry (db : Db host) (key : Bytes) (snapshot : Option Entry) :
    db.Changes (db.restoreEntry key snapshot) key snapshot := by
  refine locked_changes _ ?_
  cases snapshot with
  | none => exact Assigns.removeEntry (db.shardFor key) key
  | some entry => exact Shard.assigns_restore (db.shardFor key) key entry

/-- The snapshots of a rollback are those of another database. -/
theorem restoreEntries_spec (old : Db host) (keys : List Bytes) (db : Db host) :
    (∀ k, (db.restoreEntries (keys.map fun key => (key, old.entry key))).entry k =
        if k ∈ keys then old.entry k else db.entry k) ∧
      (db.Valid → (db.restoreEntries (keys.map fun key => (key, old.entry key))).Valid) := by
  induction keys generalizing db with
  | nil => exact ⟨fun k => by simp [restoreEntries], id⟩
  | cons key keys ih =>
      have hc := changes_restoreEntry db key (old.entry key)
      obtain ⟨h₁, h₂⟩ := ih (db.restoreEntry key (old.entry key))
      refine ⟨fun k => ?_, h₂ ∘ hc.valid⟩
      refine (h₁ k).trans ?_
      rw [hc.entry, Function.update_apply]
      by_cases hk : k = key
      · subst hk
        simp
      · simp [hk]

end Db

/-! ## The keys of a snapshot -/

theorem mem_eraseReps_loop (x a : Bytes) (l acc : List Bytes) :
    x ∈ List.eraseRepsBy.loop (· == ·) a l acc ↔ x = a ∨ x ∈ l ∨ x ∈ acc := by
  induction l generalizing a acc with
  | nil =>
      rw [List.eraseRepsBy.loop, List.mem_reverse, List.mem_cons]
      simp
  | cons b l ih =>
      rw [List.eraseRepsBy.loop]
      cases hab : a == b with
      | true =>
          obtain rfl : a = b := by simpa using hab
          simp only [ih, List.mem_cons]
          tauto
      | false =>
          simp only [ih, List.mem_cons]
          tauto

theorem mem_eraseReps {x : Bytes} {l : List Bytes} : x ∈ l.eraseReps ↔ x ∈ l := by
  cases l with
  | nil => rfl
  | cons a l =>
      refine (mem_eraseReps_loop x a l []).trans ?_
      simp

/-- Sorting and deduplicating keeps the set of keys. -/
theorem mem_sortDedup {x : Bytes} {keys : List Bytes} : x ∈ sortDedup keys ↔ x ∈ keys := by
  rw [sortDedup, mem_eraseReps, List.mem_insertionSort]

theorem Db.entry_restore_snapshot (old db : Db host) (keys : List Bytes) (k : Bytes) :
    (db.restoreEntries (old.snapshotEntries keys)).entry k =
      if k ∈ keys then old.entry k else db.entry k := by
  rw [snapshotEntries, (restoreEntries_spec old (sortDedup keys) db).1]
  simp only [mem_sortDedup]

theorem Db.Valid.restore_snapshot {db : Db host} (h : db.Valid) (old : Db host)
    (keys : List Bytes) : (db.restoreEntries (old.snapshotEntries keys)).Valid :=
  (restoreEntries_spec old (sortDedup keys) db).2 h

end MiniRedis
