import MiniRedis.SnapshotChunks
import MiniRedis.SnapshotRestore

/-!
# The snapshot as whole frames

`aof_snapshot_frames` makes one command of each value, however large it is, where a rewrite
cuts the value into several. Run on an empty database, the commands give the live view back.
Where each of them fits the replay limit, a rewrite writes exactly these frames.
-/
namespace MiniRedis

variable {host host' : Host}

namespace Aof
open Wire ParserRoundTrip MiniRedis.Command Cmd

/-! ## The frames -/

def expiryFrames (key : Bytes) : Option ExpireAt → List Frame
  | some deadline => [pexpireatFrame key deadline]
  | none => []

/-- What `aof_snapshot_frames` makes of an entry; only the option of `SET` reads the clock. -/
def entryFrames (now : ExpireAt) (key : Bytes) (entry : Entry) : List Frame :=
  match entry.value with
  | .string value =>
      let parts := [bulk "SET", .bulk key, .bulk value]
      match entry.expiresAt with
      | some deadline => [.array (parts ++ setExpiryParts now deadline)]
      | none => [.array parts]
  | .list values =>
      if values.isEmpty then []
      else .array (bulk "RPUSH" :: .bulk key :: values.map .bulk) ::
        expiryFrames key entry.expiresAt
  | .hash values =>
      if values.entries.isEmpty then []
      else .array (bulk "HSET" :: .bulk key :: pairParts (sortedFields values)) ::
        expiryFrames key entry.expiresAt

end Aof

/-- `clock` has the later readings, those of `relative_millis_for_aof`. -/
def Db.aofSnapshotFrames (now : ExpireAt) (clock : Bytes → ExpireAt) (db : Db host) : List Frame :=
  (db.aofSnapshotEntries now).flatMap fun e => Aof.entryFrames (clock e.1) e.1 e.2

namespace Aof
open Wire ParserRoundTrip MiniRedis.Command Cmd

/-! ## The commands -/

/-- The commands for an entry, with the value in one of them. -/
def wholeCommands (key : Bytes) (entry : Entry) : List (List Bytes) :=
  match entry.value with
  | .string value => [asBytes "SET" :: key :: value :: expiryOption entry.expiresAt]
  | .list values =>
      runCommand "RPUSH" key elementArgs values :: expiryCommands key entry.expiresAt
  | .hash values =>
      runCommand "HSET" key fieldArgs (sortedFields values) :: expiryCommands key entry.expiresAt

theorem expiryFrames_eq (key : Bytes) (expiresAt : Option ExpireAt) :
    expiryFrames key expiresAt = (expiryCommands key expiresAt).map commandFrame := by
  cases expiresAt <;> rfl

theorem entryFrames_eq {key : Bytes} {entry : Entry} (h : Storable entry) (now : ExpireAt) :
    entryFrames now key entry = (wholeCommands key entry).map commandFrame := by
  cases entry with
  | mk value expiresAt =>
      cases value with
      | string value =>
          have hset : entryFrames now key ⟨.string value, expiresAt⟩ =
              [setFrame now key value expiresAt] := by cases expiresAt <;> rfl
          rw [hset, setFrame_eq key value h.fits]
          rfl
      | list values =>
          have hne : values.isEmpty = false := List.isEmpty_eq_false_iff.mpr h.wellFormed.1
          simp only [entryFrames, hne, Bool.false_eq_true, if_false, expiryFrames_eq]
          rw [wholeCommands, List.map_cons, runCommand, flatMap_elementArgs]
          rfl
      | hash values =>
          have hne : values.entries.isEmpty = false := List.isEmpty_eq_false_iff.mpr h.wellFormed.1
          simp only [entryFrames, hne, Bool.false_eq_true, if_false, expiryFrames_eq]
          rw [wholeCommands, List.map_cons, runCommand, pairParts_eq]
          rfl

theorem sortedFields_ne_nil {values : HashMap Bytes Bytes} (h : values.entries ≠ []) :
    sortedFields values ≠ [] := by
  intro hfields
  refine h (List.eq_nil_iff_forall_not_mem.mpr fun e he => ?_)
  have hm := mem_sortedFields.mpr (FiniteMap.lookup_mem he)
  rw [hfields] at hm
  cases hm

/-- The commands make the entry out of an empty slot. -/
theorem wholeCommands_leads {now : ExpireAt} {key : Bytes} {entry : Entry} (h : Storable entry) :
    ∃ value, value.Same entry.value ∧ Leads host now key (wholeCommands key entry) none
      (Slot.alive now (some ⟨value, entry.expiresAt⟩)) := by
  cases entry with
  | mk value expiresAt =>
      cases value with
      | string value => exact ⟨.string value, rfl, leads_set h.fits h.positive h.wellFormed⟩
      | list values =>
          have hrun : ∀ run ∈ [values], run ≠ [] :=
            List.forall_mem_singleton.mpr h.wellFormed.1
          have hleads : Leads host now key [runCommand "RPUSH" key elementArgs values] none
              (some ⟨.list [values].flatten, none⟩) :=
            (builds_rpush hrun).leads (List.cons_ne_nil _ _)
          exact ⟨.list [values].flatten, List.flatten_singleton .., hleads.expiry h.fits⟩
      | hash values =>
          have hrun : ∀ run ∈ [sortedFields values], run ≠ [] :=
            List.forall_mem_singleton.mpr (sortedFields_ne_nil h.wellFormed.1)
          have hleads : Leads host now key [runCommand "HSET" key fieldArgs (sortedFields values)]
              none (some ⟨.hash ([sortedFields values].flatten.foldl hsetOne (0, ∅)).2, none⟩) :=
            (builds_hset hrun).leads (List.cons_ne_nil _ _)
          refine ⟨_, ?_, hleads.expiry h.fits⟩
          rw [List.flatten_singleton]
          exact same_sortedFields values

/-- One entry after the other, where their keys are missing. -/
theorem applied_wholeCommands {now : ExpireAt} {entries : List (Bytes × Entry)}
    (hs : ∀ e ∈ entries, Storable e.2) (hn : (entries.map Prod.fst).Nodup) (db : Db host)
    (hempty : ∀ e ∈ entries, db.view now e.1 = none) :
    ∃ db', applyFrames now
        ((entries.flatMap fun e => wholeCommands e.1 e.2).map commandFrame) db = some db' ∧
      (∀ e ∈ entries, (db'.view now e.1).Same (Slot.alive now (some e.2))) ∧
      ∀ k, k ∉ entries.map Prod.fst → db'.view now k = db.view now k := by
  induction entries generalizing db with
  | nil => exact ⟨db, rfl, List.forall_mem_nil _, fun _ _ => rfl⟩
  | cons e entries ih =>
      obtain ⟨he, hes⟩ := List.forall_mem_cons.mp hs
      obtain ⟨hfree, hfrees⟩ := List.forall_mem_cons.mp hempty
      rw [List.map_cons, List.nodup_cons] at hn
      obtain ⟨value, hsame, hleads⟩ : ∃ value, _ ∧ Leads host now _ _ _ _ :=
        wholeCommands_leads he
      obtain ⟨db₁, ha₁, hv₁⟩ := hleads db hfree
      have hother : ∀ k, k ≠ e.1 → db₁.view now k = db.view now k := fun k hk => by
        rw [hv₁, Function.update_of_ne hk]
      have hne : ∀ f ∈ entries, f.1 ≠ e.1 := fun f hf hk => hn.1 (List.mem_map.mpr ⟨f, hf, hk⟩)
      obtain ⟨db₂, ha₂, hin, hout⟩ := ih hes hn.2 db₁ fun f hf => by
        rw [hother f.1 (hne f hf), hfrees f hf]
      refine ⟨db₂, ?_, List.forall_mem_cons.mpr ⟨?_, hin⟩, ?_⟩
      · rw [List.flatMap_cons, List.map_append, applyFrames_append, ha₁]
        exact ha₂
      · rw [hout e.1 hn.1, hv₁, Function.update_self]
        exact Slot.same_alive hsame now e.2.expiresAt
      · intro k hk
        rw [List.map_cons, List.mem_cons, not_or] at hk
        rw [hout k hk.2, hother k hk.1]

theorem aofSnapshotFrames_eq {db : Db host} {now : ExpireAt} {clock : Bytes → ExpireAt}
    (hs : ∀ e ∈ db.aofSnapshotEntries now, Storable e.2) :
    db.aofSnapshotFrames now clock =
      ((db.aofSnapshotEntries now).flatMap fun e => wholeCommands e.1 e.2).map commandFrame := by
  rw [Db.aofSnapshotFrames, List.map_flatMap]
  exact List.flatMap_congr fun e he => entryFrames_eq (hs e he) (clock e.1)

/-- The frames of a served database, run on an empty one at any later time, give its live view
back. -/
theorem whole_frames_restore {db : Db host} (h : db.Served) {now later : ExpireAt}
    (hn : now ≤ later) (clock : Bytes → ExpireAt)
    (hd : ∀ k entry, db.view now k = some entry → DeadlineFits entry) :
    ∃ db' : Db host', applyFrames later (db.aofSnapshotFrames now clock) Db.new = some db' ∧
      Keyspace.Same (db'.view later) (db.view later) := by
  have hvalid := h.reachable.valid
  have hs : ∀ e ∈ db.aofSnapshotEntries now, Storable e.2 := fun e he =>
    storable_of_view h hd ((mem_aofSnapshotEntries hvalid).mp he)
  obtain ⟨db', ha, hin, hout⟩ := applied_wholeCommands hs (nodup_aofSnapshotEntries hvalid)
    (Db.new : Db host') fun e _ => (rfl : Db.new.view later e.1 = none)
  refine ⟨db', by rw [aofSnapshotFrames_eq hs, ha], fun k => ?_⟩
  have hview : db.view later k = (db.view now k).alive later :=
    congrFun (Db.view_alive hn db).symm k
  cases hk : db.view now k with
  | some entry =>
      rw [hview, hk]
      exact hin (k, entry) ((mem_aofSnapshotEntries hvalid).mpr hk)
  | none =>
      have hmissing : db'.view later k = none := hout k fun hm => by
        obtain ⟨⟨k', entry⟩, he, rfl⟩ := List.mem_map.mp hm
        rw [(mem_aofSnapshotEntries hvalid).mp he] at hk
        cases hk
      rw [hview, hk, hmissing]
      trivial

/-- The only entry of the database with a list of two elements. -/
theorem eq_of_view_pushedDb {k : Bytes} {entry : Entry}
    (h : (pushedDb [[98]]).view 0 k = some entry) : entry = ⟨.list [[98], [97]], none⟩ := by
  have hserved : (pushedDb [[98]]).Served :=
    served_pushedDb (List.cons_ne_nil _ _) (by decide) (by decide)
  have hm := (mem_aofSnapshotEntries hserved.reachable.valid).mpr h
  rw [snapshot_pushedDb] at hm
  exact (Prod.mk.inj (List.mem_singleton.mp hm)).2

theorem whole_frames_restore_pushedDb :
    ∃ db' : Db Server.oneShard,
      applyFrames 9 ((pushedDb [[98]]).aofSnapshotFrames 0 fun _ => 3) Db.new = some db' ∧
        Keyspace.Same (db'.view 9) ((pushedDb [[98]]).view 9) :=
  whole_frames_restore (served_pushedDb (List.cons_ne_nil _ _) (by decide) (by decide))
    (Nat.zero_le 9) (fun _ => 3) fun k entry hv d hd => by
      rw [eq_of_view_pushedDb hv] at hd
      cases hd

/-! ## The chunked writer -/

/-- The start of a run that fits a frame fits one. -/
theorem fitsFrame_of_prefix {A : Type} {name : String} {key : Bytes} {itemArgs : A → List Bytes}
    {run whole : List A} (h : fitsFrame (runCommand name key itemArgs whole) = true)
    (hp : run <+: whole) : fitsFrame (runCommand name key itemArgs run) = true := by
  obtain ⟨rest, rfl⟩ := hp
  have hle : (wire (commandFrame (runCommand name key itemArgs (run ++ rest)))).length ≤
    maxAofBufferedFrameBytes := of_decide_eq_true h
  have hheader : headerLen (runCommand name key itemArgs run).length ≤
      headerLen (runCommand name key itemArgs (run ++ rest)).length := by
    refine headerLen_mono ?_
    simp only [runCommand, List.flatMap_append, List.length_cons, List.length_append]
    omega
  rw [length_wire_args, argsLen_runCommand, List.flatMap_append, argsLen_append] at hle
  rw [fitsFrame, decide_eq_true_iff, length_wire_args, argsLen_runCommand]
  omega

theorem commandRuns_whole {A : Type} {name : String} {key : Bytes} {itemArgs : A → List Bytes}
    {items : List A} (h : fitsFrame (runCommand name key itemArgs items) = true)
    (hne : items ≠ []) : commandRuns name key itemArgs items = some [items] :=
  GreedyPacking.pack_whole (fun _ hp _ => fitsFrame_of_prefix h hp) hne

theorem expiryReplayable_of_fits {now : ExpireAt} {key : Bytes} {expiresAt : Option ExpireAt}
    (hd : ∀ d, expiresAt = some d → d ≤ maxExpireAtMs)
    (h : ∀ args ∈ expiryCommands key expiresAt, fitsFrame args = true) :
    ExpiryReplayable now key expiresAt := by
  intro d he
  subst he
  rw [expiryFrame, if_pos (hd d rfl)]
  have hfits := h _ List.mem_cons_self
  rwa [← frameIsReplayable_command] at hfits

/-- A container whose one command fits is written as this command. -/
theorem prints_whole {A : Type} {name : String} {key : Bytes} {itemArgs : A → List Bytes}
    {c : Chunking A} (hc : c.Writes name key itemArgs) {items : List A} (hne : items ≠ [])
    {now : ExpireAt} {expiresAt : Option ExpireAt}
    (hd : ∀ d, expiresAt = some d → d ≤ maxExpireAtMs)
    (hf : fitsFrame (runCommand name key itemArgs items) = true) {bytes : Bytes}
    (h : (do
      let chunks ← writeChunks c items [] 0
      let expiry ← writeExpirySnapshot now key expiresAt
      .ok (chunks ++ expiry) : Written) = .ok bytes) :
    Prints bytes (runCommand name key itemArgs items :: expiryCommands key expiresAt) := by
  obtain ⟨runs, hruns, hprints⟩ := writeChunks_append_eq_ok hc hd h
  obtain rfl : [items] = runs := Option.some.inj ((commandRuns_whole hf hne).symm.trans hruns)
  exact hprints

/-- An entry whose commands fit is written as these commands. -/
theorem writeSnapshotEntry_whole {now : ExpireAt} {key : Bytes} {entry : Entry}
    (hs : Storable entry) (he : entryExpired now entry = false)
    (hf : ∀ args ∈ wholeCommands key entry, fitsFrame args = true) :
    ∃ bytes, writeSnapshotEntry now key entry = .ok bytes ∧
      Prints bytes (wholeCommands key entry) := by
  have hd := hs.fits
  have hw := hs.wellFormed
  cases entry with
  | mk value expiresAt =>
      cases value with
      | string value =>
          have hset := hf _ List.mem_cons_self
          have hreplayable : frameIsReplayable (setFrame now key value expiresAt) = true := by
            rw [setFrame_eq key value hd, frameIsReplayable_command]
            exact hset
          have hwrite := writeReplayableSnapshotFrame_of_fits hset
          refine ⟨_, ?_, Prints.of_write hwrite⟩
          rw [writeSnapshotEntry, he]
          simp only [Bool.false_eq_true, if_false]
          rw [writeStringSnapshot, hreplayable, setFrame_eq key value hd]
          exact hwrite
      | list values =>
          obtain ⟨hrun, hexpiry⟩ := List.forall_mem_cons.mp hf
          have hencodable : Encodable now key ⟨.list values, expiresAt⟩ := by
            refine ⟨fun value hv => ?_, expiryReplayable_of_fits hd hexpiry⟩
            have hone := fitsFrame_of_mem hrun hv
            rwa [← frameIsReplayable_command] at hone
          obtain ⟨bytes, hbytes⟩ := (writeSnapshotEntry_iff hw he).mpr hencodable
          have hlist := hbytes
          rw [writeSnapshotEntry, he] at hlist
          simp only [Bool.false_eq_true, if_false, List.isEmpty_eq_false_iff.mpr hw.1] at hlist
          exact ⟨bytes, hbytes, prints_whole (writes_listChunking key) hw.1 hd hrun hlist⟩
      | hash values =>
          obtain ⟨hrun, hexpiry⟩ := List.forall_mem_cons.mp hf
          have hencodable : Encodable now key ⟨.hash values, expiresAt⟩ := by
            refine ⟨fun field value hv => ?_, expiryReplayable_of_fits hd hexpiry⟩
            have hone := fitsFrame_of_mem hrun (mem_sortedFields.mpr hv)
            rwa [← frameIsReplayable_command] at hone
          obtain ⟨bytes, hbytes⟩ := (writeSnapshotEntry_iff hw he).mpr hencodable
          have hhash := hbytes
          rw [writeSnapshotEntry, he] at hhash
          simp only [Bool.false_eq_true, if_false, List.isEmpty_eq_false_iff.mpr hw.1] at hhash
          have hne := sortedFields_ne_nil hw.1
          exact ⟨bytes, hbytes, prints_whole (writes_hashChunking key) hne hd hrun hhash⟩

theorem writeSnapshotEntries_whole {clock : Bytes → ExpireAt} {entries : List (Bytes × Entry)}
    (hs : ∀ e ∈ entries, Storable e.2)
    (he : ∀ e ∈ entries, entryExpired (clock e.1) e.2 = false)
    (hf : ∀ args ∈ entries.flatMap fun e => wholeCommands e.1 e.2, fitsFrame args = true) :
    ∃ bytes, writeSnapshotEntries clock entries = .ok bytes ∧
      Prints bytes (entries.flatMap fun e => wholeCommands e.1 e.2) := by
  induction entries with
  | nil => exact ⟨[], rfl, Prints.nil⟩
  | cons e entries ih =>
      obtain ⟨hs₁, hs₂⟩ := List.forall_mem_cons.mp hs
      obtain ⟨he₁, he₂⟩ := List.forall_mem_cons.mp he
      rw [List.flatMap_cons, List.forall_mem_append] at hf
      obtain ⟨first, hfirst, hprints₁⟩ := writeSnapshotEntry_whole hs₁ he₁ hf.1
      obtain ⟨rest, hrest, hprints₂⟩ := ih hs₂ he₂ hf.2
      refine ⟨first ++ rest, ?_, hprints₁.append hprints₂⟩
      rw [writeSnapshotEntries, hfirst, hrest]
      rfl

/-- If every frame of the snapshot fits the replay limit, the rewrite writes exactly these
frames, unless a key expires while it does so. -/
theorem rewrite_writes_whole_frames {db : Db host} (h : db.Served) {now : ExpireAt}
    {clock : Bytes → ExpireAt}
    (hd : ∀ k entry, db.view now k = some entry → DeadlineFits entry)
    (he : ∀ k entry, db.view now k = some entry → entryExpired (clock k) entry = false)
    (hf : ∀ frame ∈ db.aofSnapshotFrames now clock, frameIsReplayable frame = true) :
    writeSnapshotEntries clock (db.aofSnapshotEntries now) =
      .ok ((db.aofSnapshotFrames now clock).flatMap fun frame => encode frame []) := by
  have hvalid := h.reachable.valid
  have hs : ∀ e ∈ db.aofSnapshotEntries now, Storable e.2 := fun e hm =>
    storable_of_view h hd ((mem_aofSnapshotEntries hvalid).mp hm)
  rw [aofSnapshotFrames_eq hs, List.forall_mem_map] at hf
  simp only [frameIsReplayable_command] at hf
  obtain ⟨bytes, hbytes, hprints⟩ := writeSnapshotEntries_whole hs
    (fun e hm => he e.1 e.2 ((mem_aofSnapshotEntries hvalid).mp hm)) hf
  rw [hbytes, hprints.bytes, aofSnapshotFrames_eq hs]
  simp only [encode_eq_append, List.nil_append]

theorem rewrite_writes_whole_frames_pushedDb :
    writeSnapshotEntries (fun _ => 3) ((pushedDb [[98]]).aofSnapshotEntries 0) =
      .ok (((pushedDb [[98]]).aofSnapshotFrames 0 fun _ => 3).flatMap fun frame =>
        encode frame []) := by
  have hserved : (pushedDb [[98]]).Served :=
    served_pushedDb (List.cons_ne_nil _ _) (by decide) (by decide)
  refine rewrite_writes_whole_frames hserved (fun k entry hv d hd => ?_) (fun k entry hv => ?_) ?_
  · rw [eq_of_view_pushedDb hv] at hd
    cases hd
  · rw [eq_of_view_pushedDb hv]
    rfl
  · rw [Db.aofSnapshotFrames, snapshot_pushedDb]
    exact List.forall_mem_singleton.mpr
      ((frameIsReplayable_command [asBytes "RPUSH", [107], [98], [97]]).trans (by decide))

end Aof
end MiniRedis
