import MiniRedis.LazyExpiry
import MiniRedis.RewriteBuffer
import MiniRedis.RewriteParties
import MiniRedis.Rollback

/-!
# What the file contains during rewrites

However writes, rewrites and the writer are interleaved, and wherever a rewrite gives up, the
append-only file is the one before with every acknowledged write behind it, or the snapshot of
a rewrite with the writes behind it that were acknowledged since the rewrite began. The
snapshot is that of a server which executed the earlier acknowledged writes and nothing else,
as long as every captured entry is written before its deadline.
-/
namespace MiniRedis.RewriteProtocol
open Aof Compaction Command PrefixCode

variable {host : Host} {Call : Type}

/-! ## The database of the acknowledged writes -/

/-- The database after these writes and no others. -/
def replayed (db : Db host) (writes : List (Write Call)) : Db host :=
  writes.foldl (fun db r => r.apply db) db

theorem replayed_snoc (db : Db host) (writes : List (Write Call)) (r : Write Call) :
    replayed db (writes ++ [r]) = r.apply (replayed db writes) := by
  rw [replayed, List.foldl_append]
  rfl

theorem valid_replayed {db : Db host} (h : db.Valid) (writes : List (Write Call)) :
    (replayed db writes).Valid := by
  induction writes generalizing db with
  | nil => exact h
  | cons r writes ih => exact ih (h.apply r.now r.cmd)

/-- The write that the holder of the gate has executed without the writer's consent. -/
def World.pending (w : World host Call) : Option (Pending host Call) :=
  match w.gate with
  | some (.client c) => (w.clients c).bind Stage.pending
  | _ => none

/-- The live view is that of the acknowledged writes, and of the pending one behind them, which
can be taken back. -/
def Accounts (now : ExpireAt) (acknowledged db : Db host) : Option (Pending host Call) → Prop
  | none => db.view now = acknowledged.view now
  | some p => db.view now = (p.write.apply acknowledged).view now ∧
      ∃ old : Db host, p.rollback = old.snapshotEntries p.write.cmd.mutatedKeys ∧
        old.view now = acknowledged.view now

section
variable {now later : ExpireAt} {acknowledged db db' : Db host}

theorem Accounts.mono {o : Option (Pending host Call)} (h : Accounts now acknowledged db o)
    (hn : now ≤ later) : Accounts later acknowledged db o := by
  cases o with
  | none => exact Db.view_congr hn h
  | some p =>
      obtain ⟨hview, old, hroll, hold⟩ := h
      exact ⟨Db.view_congr hn hview, old, hroll, Db.view_congr hn hold⟩

theorem Accounts.congr {o : Option (Pending host Call)} (h : Accounts now acknowledged db o)
    (hv : db'.view now = db.view now) : Accounts now acknowledged db' o := by
  cases o with
  | none => exact hv.trans h
  | some p => exact ⟨hv.trans h.1, h.2⟩

/-- The rollback takes the pending write back. -/
theorem Accounts.restored {p : Pending host Call} (h : Accounts now acknowledged db (some p)) :
    (db.restoreEntries p.rollback).view now = acknowledged.view now := by
  obtain ⟨hview, old, hroll, hold⟩ := h
  funext k
  rw [hroll]
  change Slot.alive now ((db.restoreEntries (old.snapshotEntries _)).entry k) = _
  rw [Db.entry_restore_snapshot]
  split_ifs with hk
  · exact congrFun hold k
  · have hentry : (p.write.apply acknowledged).entry k = acknowledged.entry k :=
      entry_of_not_mutated p.write.now acknowledged p.write.cmd hk
    refine (congrFun hview k).trans ?_
    change Slot.alive now _ = Slot.alive now _
    rw [hentry]

end

namespace World
variable {w w' : World host Call}

theorem pending_of_holder {c : Call} {stage : Stage host Call} (hg : w.gate = some (.client c))
    (hc : w.clients c = some stage) : w.pending = stage.pending := by
  rw [pending, hg]
  dsimp only
  rw [hc, Option.bind_some]

theorem pending_of_rewrite (hg : w.gate = some .rewrite) : w.pending = none := by
  rw [pending, hg]

theorem pending_of_free (hg : w.gate = none) : w.pending = none := by
  rw [pending, hg]

/-! ## The rewrite under way -/

/-- A rewrite began after the writes `earlier`; as long as the buffer is there, it has the
frames that were acknowledged since. -/
def Attempt (w : World host Call) (earlier : List (Write Call)) : Prop :=
  ∃ since, Running w.history earlier since ∧ w.writer.Buffers (since.map Write.bytes)

end World

/-- The entries that a server captures which executed these writes and no others. -/
def Capture.Of (db : Db host) (writes : List (Write Call)) (capture : Capture) : Prop :=
  capture.entries = (replayed db writes).aofSnapshotEntries capture.instant

/-- The bytes that `write_snapshot_entry` writes for the entries, each at an instant from
`start` on at which it was alive. -/
def WrittenAlive (start : ExpireAt) (entries : List (Bytes × Entry)) (bytes : Bytes) : Prop :=
  ∃ clock : Bytes → ExpireAt, (∀ k, start ≤ clock k) ∧
    (∀ e ∈ entries, entryExpired (clock e.1) e.2 = false) ∧
    writeSnapshotEntries clock entries = .ok bytes

/-- The image is the whole snapshot of a server that executed these writes and no others. -/
structure Reflects (db : Db host) (writes : List (Write Call)) (image : Image) : Prop where
  captured : image.capture.Of db writes
  written : WrittenAlive image.capture.instant image.capture.entries image.bytes

theorem writeSnapshotEntries_congr {clock clock' : Bytes → ExpireAt}
    {entries : List (Bytes × Entry)} (h : ∀ e ∈ entries, clock e.1 = clock' e.1) :
    writeSnapshotEntries clock entries = writeSnapshotEntries clock' entries := by
  induction entries with
  | nil => rfl
  | cons e entries ih =>
      obtain ⟨he, hes⟩ := List.forall_mem_cons.mp h
      rw [writeSnapshotEntries, writeSnapshotEntries, he, ih hes]

theorem writeSnapshotEntries_snoc {clock : Bytes → ExpireAt} {entries : List (Bytes × Entry)}
    {bytes next : Bytes} {key : Bytes} {entry : Entry}
    (h : writeSnapshotEntries clock entries = .ok bytes)
    (he : writeSnapshotEntry (clock key) key entry = .ok next) :
    writeSnapshotEntries clock (entries ++ [(key, entry)]) = .ok (bytes ++ next) := by
  induction entries generalizing bytes with
  | nil =>
      obtain rfl := Except.ok.inj h
      rw [List.nil_append, writeSnapshotEntries, he]
      exact congrArg Except.ok (List.append_nil next)
  | cons e entries ih =>
      rw [writeSnapshotEntries] at h
      obtain ⟨first, hfirst, h⟩ := bind_eq_ok.mp h
      obtain ⟨rest, hrest, h⟩ := bind_eq_ok.mp h
      obtain rfl := Except.ok.inj h
      rw [List.cons_append, writeSnapshotEntries, hfirst, ih hrest]
      exact congrArg Except.ok (List.append_assoc first rest next).symm

theorem writtenAlive_nil (start : ExpireAt) : WrittenAlive start [] [] :=
  ⟨fun _ => start, fun _ => le_rfl, List.forall_mem_nil _, rfl⟩

/-- The next entry, under a key that no earlier one has. -/
theorem WrittenAlive.snoc {start now : ExpireAt} {entries : List (Bytes × Entry)}
    {bytes next key : Bytes} {entry : Entry} (h : WrittenAlive start entries bytes)
    (hnow : start ≤ now) (hkey : ∀ e ∈ entries, e.1 ≠ key)
    (halive : entryExpired now entry = false)
    (he : writeSnapshotEntry now key entry = .ok next) :
    WrittenAlive start (entries ++ [(key, entry)]) (bytes ++ next) := by
  obtain ⟨clock, hclock, hentries, hbytes⟩ := h
  have hsame : ∀ e ∈ entries, clock e.1 = Function.update clock key now e.1 := fun e hm =>
    (Function.update_of_ne (hkey e hm) _ _).symm
  have hself : Function.update clock key now key = now := Function.update_self _ _ _
  refine ⟨Function.update clock key now, fun k => ?_, fun e hm => ?_, ?_⟩
  · by_cases hk : k = key
    · subst hk
      rw [hself]
      exact hnow
    · rw [Function.update_of_ne hk]
      exact hclock k
  · rcases List.mem_append.mp hm with hm | hm
    · rw [← hsame e hm]
      exact hentries e hm
    · rw [List.mem_singleton.mp hm, hself]
      exact halive
  · refine writeSnapshotEntries_snoc ?_ ?_
    · rw [← writeSnapshotEntries_congr hsame]
      exact hbytes
    · rw [hself]
      exact he

namespace World
variable {w w' : World host Call}

/-- How far the rewrite is. -/
def Progress (db : Db host) (w : World host Call) : TaskStage → Prop
  | .started answer => answer = .ok () ∧ w.Attempt (records w.history)
  | .captured capture | .opening capture =>
      capture.instant ≤ w.clock ∧ ∃ earlier, w.Attempt earlier ∧ capture.Of db earlier
  | .writing capture left => capture.instant ≤ w.clock ∧ ∃ earlier done, w.Attempt earlier ∧
      capture.Of db earlier ∧ capture.entries = done ++ left ∧
      (w.temp.settle.error = none → WrittenAlive capture.instant done w.temp.contents)
  | .finishing capture =>
      ∃ earlier, w.Attempt earlier ∧ Reflects db earlier ⟨capture, w.temp.bytes⟩
  | .aborting _ => True
  | _ => w.writer.rewriteBuffer = none

theorem Progress.congr {db : Db host} {t : TaskStage} (h : w.Progress db t)
    (hclock : w.clock ≤ w'.clock) (htemp : w'.temp = w.temp)
    (hattempt : ∀ earlier, w.Attempt earlier → w'.Attempt earlier)
    (hnone : w.writer.rewriteBuffer = none → w'.writer.rewriteBuffer = none)
    (hstarted : ∀ answer, t = .started answer → records w'.history = records w.history) :
    w'.Progress db t := by
  cases t with
  | started answer =>
      refine ⟨h.1, ?_⟩
      rw [hstarted answer rfl]
      exact hattempt _ h.2
  | captured capture | opening capture =>
      obtain ⟨hinstant, earlier, ha, hof⟩ := h
      exact ⟨hinstant.trans hclock, earlier, hattempt earlier ha, hof⟩
  | writing capture left =>
      obtain ⟨hinstant, earlier, done, ha, hof, hsplit, hwritten⟩ := h
      exact ⟨hinstant.trans hclock, earlier, done, hattempt earlier ha, hof, hsplit,
        htemp ▸ hwritten⟩
  | finishing capture =>
      obtain ⟨earlier, ha, hr⟩ := h
      exact ⟨earlier, hattempt earlier ha, htemp ▸ hr⟩
  | aborting => trivial
  | idle | pausing | holding | starting | ending => exact hnone h

/-- What the parts of the world have to do with each other. -/
structure Consistent (db : Db host) (file : Bytes) (w : World host Call) : Prop where
  valid : w.db.Valid
  accounts : Accounts w.clock (replayed db (records w.history)) w.db w.pending
  inSync : w.writer.InSync
  progress : w.Progress db w.task
  busy : w.writer.stats.rewriteInProgress = w.task.busy
  contents : Contents Write.bytes Image.bytes (Reflects db) file w.history
    w.writer.file.contents

end World
end MiniRedis.RewriteProtocol
