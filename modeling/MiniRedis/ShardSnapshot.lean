import MiniRedis.Background
import MiniRedis.SnapshotChunks

/-!
# A snapshot shard by shard is atomic

`aof_snapshot_entries` visits the shards one after the other, while requests that do not take
the gate are answered and the sweeper goes on. What it returns may hold entries that have
expired and are no longer stored. The others are those of the database at the end, in the
same order, and only these are written.
-/
namespace MiniRedis

variable {host : Host}

open Aof

/-! ## The entries of a shard -/

theorem Shard.liveEntries_perm {now : ExpireAt} {shard shard' : Shard}
    (h : shard.live now = shard'.live now) :
    (shard.liveEntries now).Perm (shard'.liveEntries now) := by
  refine (List.perm_ext_iff_of_nodup (nodup_liveEntries shard).of_map
    (nodup_liveEntries shard').of_map).mpr ?_
  rintro ⟨k, entry⟩
  rw [mem_liveEntries, mem_liveEntries, h]

/-- Those of the live entries that are alive later. -/
theorem Shard.written_liveEntries {now later : ExpireAt} (hn : now ≤ later) (shard : Shard) :
    written (fun _ => later) (shard.liveEntries now) = shard.liveEntries later := by
  unfold written liveEntries
  rw [List.filter_map, List.filter_filter]
  congr 1
  refine List.filter_congr fun e _ => ?_
  cases hl : entryExpired later e.2 with
  | true => simp [hl]
  | false =>
      have hnow : entryExpired now e.2 = false := by
        rw [← Bool.not_eq_true]
        intro hx
        rw [entryExpired_mono hn hx] at hl
        cases hl
      simp [hl, hnow]

namespace Aof

theorem written_append (clock : Bytes → ExpireAt) (entries entries' : List (Bytes × Entry)) :
    written clock (entries ++ entries') = written clock entries ++ written clock entries' :=
  List.filter_append ..

/-- What has expired by its turn is not written. -/
theorem writeSnapshotEntries_written (clock : Bytes → ExpireAt) (entries : List (Bytes × Entry)) :
    writeSnapshotEntries clock (written clock entries) = writeSnapshotEntries clock entries := by
  induction entries with
  | nil => rfl
  | cons e entries ih =>
      cases hx : entryExpired (clock e.1) e.2 with
      | true =>
          have hskip : writeSnapshotEntry (clock e.1) e.1 e.2 = .ok [] := by
            rw [writeSnapshotEntry, hx]
            rfl
          have hwritten : written clock (e :: entries) = written clock entries :=
            List.filter_cons_of_neg (by simp [hx])
          rw [hwritten, ih, writeSnapshotEntries, hskip]
          cases writeSnapshotEntries clock entries <;> rfl
      | false =>
          have hwritten : written clock (e :: entries) = e :: written clock entries :=
            List.filter_cons_of_pos (by simp [hx])
          rw [hwritten, writeSnapshotEntries, writeSnapshotEntries, ih]

theorem written_written {clock : Bytes → ExpireAt} {now : ExpireAt} (h : ∀ k, now ≤ clock k)
    (entries : List (Bytes × Entry)) :
    written clock (written (fun _ => now) entries) = written clock entries := by
  unfold written
  rw [List.filter_filter]
  refine List.filter_congr fun e _ => ?_
  cases hx : entryExpired (clock e.1) e.2 with
  | true => rfl
  | false =>
      have hnow : entryExpired now e.2 = false := by
        rw [← Bool.not_eq_true]
        intro hs
        rw [entryExpired_mono (h e.1) hs] at hx
        cases hx
      rw [hnow]
      rfl

end Aof

namespace Background
open AtomicPrograms Clients

variable {Call : Type}

/-- What the rewrite task has collected so far, in the database as it is now. -/
def Snapshot.Sound (clock : ExpireAt) (db : Db host) : Snapshot → Prop
  | .idle | .paused => True
  | .collecting now left entries => now ≤ clock ∧ ∃ visited,
      visited ++ left = List.finRange shardCount ∧ ∀ t, clock ≤ t →
        (written (fun _ => t) entries).Perm
          (visited.flatMap fun i => (db.shards i).liveEntries t)
  | .taken entries => ∀ t, clock ≤ t →
      written (fun _ => t) entries = db.aofSnapshotEntries t

/-- The snapshot does not see what a sweep does, nor that time passes. -/
theorem Snapshot.Sound.later {clock clock' : ExpireAt} {db db' : Db host} {s : Snapshot}
    (h : s.Sound clock db) (hv : db.Valid) (hv' : db'.Valid) (hclock : clock ≤ clock')
    (hlive : ∀ t, clock' ≤ t → ∀ i, (db'.shards i).live t = (db.shards i).live t) :
    s.Sound clock' db' := by
  cases s with
  | idle | paused => trivial
  | collecting now left entries =>
      obtain ⟨hnow, visited, hvisited, hperm⟩ := h
      refine ⟨hnow.trans hclock, visited, hvisited, fun t ht => ?_⟩
      refine (hperm t (hclock.trans ht)).trans ?_
      exact List.Perm.flatMap_left _ fun i _ => Shard.liveEntries_perm (hlive t ht i).symm
  | taken entries =>
      intro t ht
      have hview : db.view t = db'.view t :=
        funext fun k => (congrFun (hlive t ht (shardIndex host k)) k).symm
      rw [h t (hclock.trans ht), aofSnapshotEntries_congr hv hv' hview]

/-- The sorted list is the snapshot that is taken at once. -/
theorem written_sorted {db : Db host} (hv : db.Valid) {t : ExpireAt}
    {entries : List (Bytes × Entry)}
    (h : (written (fun _ => t) entries).Perm (db.liveEntries t)) :
    written (fun _ => t) (entries.insertionSort fun a b => bytesLe a.1 b.1 = true) =
      db.aofSnapshotEntries t := by
  have hperm : (written (fun _ => t)
      (entries.insertionSort fun a b => bytesLe a.1 b.1 = true)).Perm (db.aofSnapshotEntries t) :=
    (((List.perm_insertionSort _ entries).filter _).trans h).trans
      (List.perm_insertionSort _ _).symm
  refine hperm.eq_of_pairwise (fun a b ha hb hab hba => ?_)
    ((pairwise_sorted entries).filter _) (pairwise_sorted _)
  have hkey : a.1 = b.1 := bytesLe_antisymm hab hba
  have hka := (mem_aofSnapshotEntries hv).mp (hperm.mem_iff.mp ha)
  have hkb := (mem_aofSnapshotEntries hv).mp hb
  rw [← hkey, hka] at hkb
  exact Prod.ext hkey (Option.some.inj hkb)

/-- The snapshot of an earlier instant, without what has expired since. -/
theorem written_aofSnapshotEntries {db : Db host} (hv : db.Valid) {now later : ExpireAt}
    (hn : now ≤ later) :
    written (fun _ => later) (db.aofSnapshotEntries now) = db.aofSnapshotEntries later := by
  refine written_sorted hv ?_
  have hlive : written (fun _ => later) (db.liveEntries now) = db.liveEntries later := by
    rw [Db.liveEntries, Db.liveEntries, written, List.filter_flatMap]
    exact List.flatMap_congr fun shard _ => Shard.written_liveEntries hn shard
  exact List.Perm.of_eq hlive

/-- What holds in every state of the server. -/
structure Kept (w : World host Call) : Prop where
  valid : w.clients.db.Valid
  tasks : ∀ c t, w.clients.tasks (.call c) = some t →
    t.stage.Fits ∧ (t.stage.holdsGate = true → w.clients.gate = some (.call c))
  /-- No write is at work while the snapshot is taken. -/
  paused : w.snapshot ≠ .idle → w.clients.gate = some .rewrite
  pass : ∀ p, w.pass = some p → p.now ≤ w.clock
  snapshot : w.snapshot.Sound w.clock w.clients.db

namespace Kept
variable {w : World host Call}

theorem start {db : Db host} (h : db.Valid) (now : ExpireAt) (aof : Bool) :
    Kept (World.start now aof db : World host Call) where
  valid := h
  tasks c t ht := by cases ht
  paused hs := (hs rfl).elim
  pass p hp := by cases hp
  snapshot := trivial

theorem wait (h : Kept w) (ms : ℕ) : Kept { w with clock := w.clock + ms } where
  valid := h.valid
  tasks := h.tasks
  paused := h.paused
  pass p hp := (h.pass p hp).trans (Nat.le_add_right _ _)
  snapshot := h.snapshot.later h.valid h.valid (Nat.le_add_right _ _) fun _ _ _ => rfl

theorem sweeper (h : Kept w) : Kept w.sweeper := by
  unfold World.sweeper
  split
  case h_1 hp =>
    exact ⟨h.valid, h.tasks, h.paused, fun p hq => by cases hq; exact le_rfl, h.snapshot⟩
  case h_2 hp => exact ⟨h.valid, h.tasks, h.paused, fun p hq => (nomatch hq), h.snapshot⟩
  case h_3 now i left hp =>
    have hnow : now ≤ w.clock := h.pass _ hp
    have hv := h.valid.sweepShard now i
    refine ⟨hv, h.tasks, h.paused, fun p hq => ?_, ?_⟩
    · cases hq
      exact hnow
    · exact h.snapshot.later h.valid hv le_rfl fun t ht j =>
        Db.live_sweepShard h.valid (hnow.trans ht) i j

theorem rewrite (h : Kept w) : Kept w.rewrite := by
  unfold World.rewrite
  split
  case h_1 hs =>
    split
    case h_1 => exact h
    case h_2 hg =>
      refine ⟨h.valid, fun c t ht => ⟨(h.tasks c t ht).1, fun hh => ?_⟩, fun _ => rfl, h.pass,
        trivial⟩
      have hc := (h.tasks c t ht).2 hh
      rw [hg] at hc
      cases hc
  case h_2 hs =>
    have hpaused := h.paused (by rw [hs]; exact Snapshot.noConfusion)
    refine ⟨h.valid, h.tasks, fun _ => hpaused, h.pass, le_rfl, [], rfl, fun t _ => ?_⟩
    exact List.Perm.refl []
  case h_3 now i left entries hs =>
    have hpaused := h.paused (by rw [hs]; exact Snapshot.noConfusion)
    have hsound := h.snapshot
    rw [hs] at hsound
    obtain ⟨hnow, visited, hvisited, hperm⟩ := hsound
    refine ⟨h.valid, h.tasks, fun _ => hpaused, h.pass, hnow, visited ++ [i], ?_, fun t ht => ?_⟩
    · rw [List.append_assoc]
      exact hvisited
    · rw [written_append, Shard.written_liveEntries (hnow.trans ht), List.flatMap_append,
        List.flatMap_singleton]
      exact (hperm t ht).append_right _
  case h_4 now entries hs =>
    have hpaused := h.paused (by rw [hs]; exact Snapshot.noConfusion)
    have hsound := h.snapshot
    rw [hs] at hsound
    obtain ⟨_, visited, hvisited, hperm⟩ := hsound
    refine ⟨h.valid, h.tasks, fun _ => hpaused, h.pass, fun t ht => ?_⟩
    rw [List.append_nil] at hvisited
    subst hvisited
    refine written_sorted h.valid ((hperm t ht).trans ?_)
    rw [Db.liveEntries, Db.iterShards, List.flatMap_map]
  case h_5 entries hs =>
    refine ⟨h.valid, fun c t ht => ⟨(h.tasks c t ht).1, fun hh => ?_⟩, fun hn => (hn rfl).elim,
      h.pass, trivial⟩
    have hc := (h.tasks c t ht).2 hh
    rw [h.paused (by rw [hs]; exact Snapshot.noConfusion)] at hc
    cases hc

variable [DecidableEq Call]

/-- A step of a connection task; none of them holds the gate while the snapshot is taken. -/
theorem client (h : Kept w) {c : Call} {e : Clients.Event (Holder Call)} (hc : e.call = .call c) :
    Kept (w.client e) := by
  have hm := Clients.World.step_moves hc (h.tasks c)
  have hv := hm.valid h.valid
  refine ⟨hv, fun d t ht => ?_, fun hs => ?_, h.pass, ?_⟩
  · by_cases hd : d = c
    · subst hd
      exact hm.own t ht
    · have hne : Holder.call d ≠ Holder.call c := fun heq => hd (Holder.call.inj heq)
      have hold := h.tasks d t ((hm.others _ hne).symm.trans ht)
      refine ⟨hold.1, fun hh => ?_⟩
      have hg := hold.2 hh
      rcases hm.gate with hsame | ⟨hnone, -⟩ | ⟨hsome, -⟩
      · exact hsame.trans hg
      · rw [hnone] at hg
        cases hg
      · exact (hne (Option.some.inj (hg.symm.trans hsome))).elim
  · have hg := h.paused hs
    rcases hm.gate with hsame | ⟨hnone, -⟩ | ⟨hsome, -⟩
    · exact hsame.trans hg
    · rw [hnone] at hg
      cases hg
    · rw [hsome] at hg
      cases hg
  · by_cases hs : w.snapshot = .idle
    · rw [World.client, hs]
      trivial
    · have hshards := hm.shards (by rw [h.paused hs]; exact fun heq => nomatch heq)
      exact h.snapshot.later h.valid hv le_rfl fun t _ i => by
        rw [World.client, hshards]

theorem step (h : Kept w) (e : Event Call) : Kept (w.step e) := by
  cases e with
  | wait ms => exact h.wait ms
  | request c req | step c | acknowledge c result => exact h.client rfl
  | sweeper => exact h.sweeper
  | rewrite => exact h.rewrite

theorem run (h : Kept w) (events : List (Event Call)) : Kept (Runs.run World.step events w) :=
  (Runs.kept (fun _ e hw (_ : True) => hw.step e) h fun _ _ => trivial).2

end Kept

variable [DecidableEq Call]

/-- Whatever happens between two of its visits, the snapshot that a rewrite writes is that of
the database at the end, taken at once. -/
theorem snapshot_is_atomic {db : Db host} (hdb : db.Reachable) (now : ExpireAt) (aof : Bool)
    {events : List (Event Call)} {w : World host Call} {entries : List (Bytes × Entry)}
    (hw : Runs.run World.step events (World.start now aof db) = w)
    (h : w.snapshot = .taken entries) :
    (∀ t, w.clock ≤ t → written (fun _ => t) entries = w.clients.db.aofSnapshotEntries t) ∧
    ∀ clock : Bytes → ExpireAt, (∀ k, w.clock ≤ clock k) → ∀ t, (∀ k, t ≤ clock k) →
      writeSnapshotEntries clock entries =
        writeSnapshotEntries clock (w.clients.db.aofSnapshotEntries t) := by
  subst hw
  have hkept := (Kept.start hdb.valid now aof).run events
  generalize Runs.run World.step events (World.start now aof db) = w at h hkept
  have hsound := hkept.snapshot
  rw [h] at hsound
  refine ⟨hsound, fun clock hclock t ht => ?_⟩
  -- both are the snapshot of the later of the two instants
  have hmax : ∀ k, max w.clock t ≤ clock k := fun k => max_le (hclock k) (ht k)
  have hsame : written (fun _ => max w.clock t) entries =
      written (fun _ => max w.clock t) (w.clients.db.aofSnapshotEntries t) := by
    rw [hsound _ (le_max_left _ _), written_aofSnapshotEntries hkept.valid (le_max_right _ _)]
  rw [← writeSnapshotEntries_written, ← written_written hmax, hsame, written_written hmax,
    writeSnapshotEntries_written]

/-- The key `k` is collected, expires and is swept before the last shards are visited. -/
def sweptSnapshot : List (Event Unit) :=
  List.replicate 6 .rewrite ++ [.wait 9] ++ List.replicate 5 .sweeper ++ List.replicate 13 .rewrite

theorem snapshot_is_atomic_swept :
    writeSnapshotEntries (fun _ => 9) [([107], ⟨.string [118], some 5⟩)] =
      writeSnapshotEntries (fun _ => 9) ((Runs.run World.step sweptSnapshot
        (World.start 0 true Db.oneKey)).clients.db.aofSnapshotEntries 0) :=
  (snapshot_is_atomic Db.reachable_oneKey 0 true rfl rfl).2 (fun _ => 9)
    (fun _ => Nat.le_of_eq rfl) 0 fun _ => Nat.zero_le 9

end Background
end MiniRedis
