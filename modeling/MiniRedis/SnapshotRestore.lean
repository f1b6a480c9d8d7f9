import MiniRedis.ReplayAgreement
import MiniRedis.SnapshotReplay

/-!
# A restart after a rewrite

A file that a rewrite wrote from a served database is replayed into an empty one. It
is applied whole and gives the live view back, unless a run of elements or fields
fits the 64 MiB of a frame with more arguments than the parser reads in an array:
then the file is cut in front of that command.
-/
namespace MiniRedis.Aof
open Wire MiniRedis.Parser ParserRoundTrip MiniRedis.Command Cmd

variable {host host' : Host} {now later : ExpireAt} {clock : Bytes → ExpireAt}

/-! ## The entries of a snapshot -/

theorem mem_aofSnapshotEntries {db : Db host} (h : db.Valid) {k : Bytes} {entry : Entry} :
    (k, entry) ∈ db.aofSnapshotEntries now ↔ db.view now k = some entry :=
  (List.mem_insertionSort _).trans h.mem_liveEntries

theorem nodup_aofSnapshotEntries {db : Db host} (h : db.Valid) :
    ((db.aofSnapshotEntries now).map Prod.fst).Nodup :=
  (((List.perm_insertionSort _ _).map _).nodup_iff).mpr h.nodup_liveEntries

/-- The entries that are written are those alive when it is their turn. -/
theorem mem_written {db : Db host} (h : db.Valid) (hclock : ∀ k, now ≤ clock k) {k : Bytes}
    {entry : Entry} : (k, entry) ∈ written clock (db.aofSnapshotEntries now) ↔
      db.view (clock k) k = some entry := by
  have hview : db.view (clock k) k = (db.view now k).alive (clock k) :=
    congrFun (Db.view_alive (hclock k) db).symm k
  rw [written, List.mem_filter, mem_aofSnapshotEntries h, hview, Slot.alive_eq_some,
    Bool.not_eq_true']

/-- What a live entry of a served database needs to be written. -/
theorem storable_of_view {db : Db host} (h : db.Served)
    (hd : ∀ k entry, db.view now k = some entry → DeadlineFits entry) {k : Bytes} {entry : Entry}
    (hv : db.view now k = some entry) : Storable entry where
  fits := hd k entry hv
  positive d he := Nat.zero_lt_of_lt (entryExpired_eq_false.mp (Db.fresh_of_view hv) d he)
  wellFormed := h.wellFormed k entry (Slot.alive_eq_some.mp hv).1

/-! ## Restoring -/

/-- However the file is read, all of it is replayed into an empty database, which then has
the live view of `db`. -/
def Restores (host' : Host) (later : ExpireAt) (db : Db host) (file : Bytes) : Prop :=
  ∀ pieces : List Bytes, pieces.flatten = file →
    (replay later (Db.new : Db host') pieces).file = file ∧
      Keyspace.Same ((replay later (Db.new : Db host') pieces).db.view later) (db.view later)

/-- The commands of the snapshot, run on an empty database at any clock, make the entries that
were captured and had not expired when they were written, and no others. -/
theorem applied_written (host' : Host) (readAt : ExpireAt) {db : Db host} (h : db.Valid)
    {commands : List (List Bytes)}
    (hs : ∀ e ∈ written clock (db.aofSnapshotEntries now), Storable e.2)
    (hsnap : Snapshot (written clock (db.aofSnapshotEntries now)) commands) :
    ∃ db' : Db host', applyFrames readAt (commands.map commandFrame) Db.new = some db' ∧
      (∀ k entry, db.view now k = some entry → entryExpired (clock k) entry = false →
        (db'.view readAt k).Same (Slot.alive readAt (some entry))) ∧
      ∀ k, (∀ entry, db.view now k = some entry → entryExpired (clock k) entry = true) →
        db'.view readAt k = none := by
  have hnodup : ((written clock (db.aofSnapshotEntries now)).map Prod.fst).Nodup :=
    (nodup_aofSnapshotEntries h).sublist (List.filter_sublist.map _)
  have hmem : ∀ {k entry}, (k, entry) ∈ written clock (db.aofSnapshotEntries now) ↔
      db.view now k = some entry ∧ entryExpired (clock k) entry = false := by
    intro k entry
    rw [written, List.mem_filter, mem_aofSnapshotEntries h, Bool.not_eq_true']
  obtain ⟨db', ha, hin, hout⟩ :=
    hsnap.applied hs hnodup (Db.new : Db host') fun e _ => (rfl : Db.new.view readAt e.1 = none)
  refine ⟨db', ha, fun k entry hk he => hin (k, entry) (hmem.mpr ⟨hk, he⟩), fun k hall => ?_⟩
  refine hout k fun hm => ?_
  obtain ⟨⟨k', entry⟩, he, rfl⟩ := List.mem_map.mp hm
  have hentry := hmem.mp he
  exact Bool.false_ne_true (hentry.2.symm.trans (hall entry hentry.1))

/-- The commands of the snapshot, run on an empty database, give the live view back. -/
theorem snapshot_applied (host' : Host) {db : Db host} (h : db.Valid)
    (hclock : ∀ k, now ≤ clock k ∧ clock k ≤ later) {commands : List (List Bytes)}
    (hs : ∀ e ∈ written clock (db.aofSnapshotEntries now), Storable e.2)
    (hsnap : Snapshot (written clock (db.aofSnapshotEntries now)) commands) :
    ∃ db' : Db host', applyFrames later (commands.map commandFrame) Db.new = some db' ∧
      Keyspace.Same (db'.view later) (db.view later) := by
  obtain ⟨db', ha, hin, hout⟩ := applied_written host' later h hs hsnap
  refine ⟨db', ha, fun k => ?_⟩
  have halive : ∀ entry, db.view (clock k) k = some entry ↔
      db.view now k = some entry ∧ entryExpired (clock k) entry = false := fun entry => by
    rw [← Db.view_alive (hclock k).1, Keyspace.alive_apply, Slot.alive_eq_some]
  have hview : db.view later k = (db.view (clock k) k).alive later :=
    congrFun (Db.view_alive (hclock k).2 db).symm k
  cases hk : db.view (clock k) k with
  | some entry =>
      have hentry := (halive entry).mp hk
      rw [hview, hk]
      exact hin k entry hentry.1 hentry.2
  | none =>
      have hmissing : db'.view later k = none := hout k fun entry hv => by
        by_contra he
        rw [(halive entry).mpr ⟨hv, Bool.eq_false_iff.mpr he⟩] at hk
        cases hk
      rw [hview, hk, hmissing]
      trivial

/-- The first element without a property. -/
theorem exists_first_not {A : Type} {p : A → Prop} {l : List A} (h : ¬ ∀ a ∈ l, p a) :
    ∃ done a rest, l = done ++ a :: rest ∧ (∀ b ∈ done, p b) ∧ ¬ p a := by
  induction l with
  | nil => exact (h (List.forall_mem_nil _)).elim
  | cons a l ih =>
      by_cases ha : p a
      · have hl : ¬ ∀ b ∈ l, p b := fun hl => h (List.forall_mem_cons.mpr ⟨ha, hl⟩)
        obtain ⟨done, b, rest, rfl, hdone, hb⟩ := ih hl
        exact ⟨a :: done, b, rest, rfl, List.forall_mem_cons.mpr ⟨ha, hdone⟩, hb⟩
      · exact ⟨[], a, l, rfl, List.forall_mem_nil _, ha⟩

theorem length_le_wire_command (args : List Bytes) :
    args.length ≤ (wire (commandFrame args)).length := by
  have hle := length_le_flatMap_wire (args.map .bulk)
  rw [List.length_map] at hle
  rw [commandFrame, wire_array, List.length_cons, List.length_append]
  omega

/-- A file is cut in front of the first command that is too long for the parser. -/
theorem replay_longCommand {done rest : List (List Bytes)} {args : List Bytes} {db db' : Db host}
    (hfits : ∀ as ∈ done ++ args :: rest, fitsFrame as = true)
    (hdone : ∀ as ∈ done, as.length ≤ maxArrayLen) (hlong : maxArrayLen < args.length)
    (ha : applyFrames now (done.map commandFrame) db = some db') :
    (replay now db [((done ++ args :: rest).map commandFrame).flatMap wire]).file =
      (done.map commandFrame).flatMap wire := by
  have hread : ∀ frame ∈ done.map commandFrame, Readable frame := by
    intro frame hf
    obtain ⟨as, has, rfl⟩ := List.mem_map.mp hf
    exact readable_command (hdone as has)
      (of_decide_eq_true (hfits as (List.mem_append_left _ has)))
  have hlen : (wire (commandFrame args)).length ≤ maxAofBufferedFrameBytes :=
    of_decide_eq_true (hfits args (List.mem_append_right _ List.mem_cons_self))
  have hmax : args.length ≤ 9223372036854775807 :=
    (length_le_wire_command args).trans (hlen.trans (by decide))
  have hp := parse_longCommand hlong hmax ((rest.map commandFrame).flatMap wire)
  obtain ⟨tag, w, hwire, htag⟩ := wire_cons (commandFrame args)
  rw [hwire, List.cons_append] at hp
  rw [List.map_append, List.map_cons, List.flatMap_append, List.flatMap_cons, hwire,
    List.cons_append, replay_rejects hread ha htag hp]

/-- A rewritten file is replayed whole and gives the live view back if and only if no run has
more arguments than the parser reads in an array. -/
theorem restores_iff {db : Db host} (h : db.Served)
    (hclock : ∀ k, now ≤ clock k ∧ clock k ≤ later)
    (hd : ∀ k entry, db.view now k = some entry → DeadlineFits entry) {bytes : Bytes}
    (hw : writeSnapshotEntries clock (db.aofSnapshotEntries now) = .ok bytes) :
    Restores host' later db bytes ↔
      ∀ k entry, db.view (clock k) k = some entry → ShortRuns k entry.value := by
  have hvalid := h.reachable.valid
  have hstorable : ∀ e ∈ db.aofSnapshotEntries now, Storable e.2 := fun e he =>
    storable_of_view h hd ((mem_aofSnapshotEntries hvalid).mp he)
  obtain ⟨commands, hsnap, hprints⟩ := writeSnapshotEntries_eq_ok hstorable hw
  obtain ⟨db', ha, hsame⟩ := snapshot_applied host' hvalid hclock
    (fun e he => hstorable e (List.mem_filter.mp he).1) hsnap
  have hshort : (∀ args ∈ commands, args.length ≤ maxArrayLen) ↔
      ∀ k entry, db.view (clock k) k = some entry → ShortRuns k entry.value := by
    rw [hsnap.short_iff, Prod.forall]
    exact forall₂_congr fun k entry => by rw [mem_written hvalid fun k => (hclock k).1]
  rw [← hshort]
  constructor
  · intro hr
    by_contra hlong
    obtain ⟨done, args, rest, rfl, hdone, hargs⟩ := exists_first_not hlong
    rw [List.map_append, applyFrames_append] at ha
    obtain ⟨db₁, ha₁, -⟩ := Option.bind_eq_some_iff.mp ha
    have hfile := (hr [bytes] (List.flatten_singleton ..)).1
    rw [hprints.bytes, replay_longCommand hprints.fits hdone (not_le.mp hargs) ha₁] at hfile
    have hpos := wire_length_pos (commandFrame args)
    have hlen := congrArg List.length hfile
    simp only [List.map_append, List.map_cons, List.flatMap_append, List.flatMap_cons,
      List.length_append] at hlen
    omega
  · intro hcommands pieces hpieces
    have hread : ∀ frame ∈ commands.map commandFrame, Readable frame := by
      intro frame hf
      obtain ⟨args, hargs, rfl⟩ := List.mem_map.mp hf
      exact readable_command (hcommands args hargs) (of_decide_eq_true (hprints.fits args hargs))
    rw [replay_spec (hpieces.trans hprints.bytes) hread ha]
    exact ⟨hpieces, hsame⟩

/-! ## A list that is too long -/

theorem writeReplayableSnapshotFrame_of_fits {args : List Bytes} (h : fitsFrame args = true) :
    writeReplayableSnapshotFrame (commandFrame args) = .ok (wire (commandFrame args)) := by
  have hle : (wire (commandFrame args)).length ≤ maxAofBufferedFrameBytes := of_decide_eq_true h
  have hlen : encodedLen (commandFrame args) = some (wire (commandFrame args)).length :=
    encodedLen_eq_some.mpr ⟨rfl, hle.trans_lt (by decide)⟩
  rw [writeReplayableSnapshotFrame, hlen, encode_eq_append, List.nil_append]
  exact if_neg (not_lt.mpr hle)

/-- A list whose command fits a frame is written as one command. -/
theorem writeChunks_of_fits {key : Bytes} {items current : List Bytes} (hne : current ++ items ≠ [])
    (hf : fitsFrame (asBytes "RPUSH" :: key :: (current ++ items)) = true) :
    writeChunks (listChunking key) items current (argsLen current) =
      .ok (wire (commandFrame (asBytes "RPUSH" :: key :: (current ++ items)))) := by
  induction items generalizing current with
  | nil =>
      rw [List.append_nil] at hne hf ⊢
      have hwrite := (writes_listChunking key).write current
      rw [runCommand, flatMap_elementArgs, writeReplayableSnapshotFrame_of_fits hf] at hwrite
      rw [writeChunks, List.isEmpty_eq_false_iff.mpr hne, hwrite]
      exact if_neg Bool.false_ne_true
  | cons item items ih =>
      have hsplit : current ++ item :: items = current ++ [item] ++ items := by simp
      have hle : (wire (commandFrame (asBytes "RPUSH" :: key :: (current ++ item :: items)))).length
        ≤ maxAofBufferedFrameBytes := of_decide_eq_true hf
      have hheader : headerLen (current.length + 1 + 2) ≤
          headerLen (asBytes "RPUSH" :: key :: (current ++ item :: items)).length :=
        headerLen_mono (by simp only [List.length_cons, List.length_append]; omega)
      rw [length_wire_args, argsLen_cons, argsLen_cons, argsLen_append, argsLen_cons] at hle
      have hmax : maxAofBufferedFrameBytes < 2 ^ 64 := by decide
      have hitem : respBulkLen item.length = some (bulkLen item.length) := by
        rw [respBulkLen_eq]
        exact usize?_eq_some.mpr ⟨rfl, by omega⟩
      have hlen : ∃ n, chunkedCommandLen "RPUSH" key (current.length + 1)
          (argsLen current + bulkLen item.length) = some n ∧ n ≤ maxAofBufferedFrameBytes := by
        rw [chunkedCommandLen_eq]
        exact ⟨_, usize?_eq_some.mpr ⟨rfl, by omega⟩, by omega⟩
      obtain ⟨n, hn, hnle⟩ := hlen
      rw [hsplit] at hne hf ⊢
      have hnext := ih hne hf
      rw [argsLen_append, argsLen_cons, argsLen_nil, Nat.add_zero] at hnext
      rw [writeChunks]
      simp only [listChunking, hitem, okOr, bind, Except.bind, hn, hnle, if_true]
      exact hnext

theorem writeSnapshotEntries_list {key : Bytes} {values : List Bytes} (hne : values ≠ [])
    (hf : fitsFrame (asBytes "RPUSH" :: key :: values) = true) :
    writeSnapshotEntries (fun _ => 0) [(key, ⟨.list values, none⟩)] =
      .ok (wire (commandFrame (asBytes "RPUSH" :: key :: values))) := by
  have hchunks : writeChunks (listChunking key) values [] 0 = .ok _ :=
    writeChunks_of_fits (List.nil_append values ▸ hne) hf
  simp only [writeSnapshotEntries, writeSnapshotEntry, entryExpired, Bool.false_eq_true, if_false,
    List.isEmpty_eq_false_iff.mpr hne, writeListSnapshot, hchunks, writeExpirySnapshot, bind,
    Except.bind, List.append_nil, List.nil_append]

/-- A list that two `RPUSH` commands make. -/
def pushedDb (values : List Bytes) : Db Server.oneShard :=
  ((Command.rpush [107] [[97]]).apply 0 ((Command.rpush [107] values).apply 0 Db.new).2).2

theorem snapshot_pushedDb (values : List Bytes) :
    (pushedDb values).aofSnapshotEntries 0 = [([107], ⟨.list (values ++ [[97]]), none⟩)] := by
  have hpush : (pushedDb values).aofSnapshotEntries 0 =
      [([107], ⟨.list (values.foldl (pushOne .right) [] ++ [[97]]), none⟩)] := rfl
  rw [hpush, foldl_pushOne_right, List.nil_append]

theorem length_rpush_le {key : Bytes} {values : List Bytes} (hk : key.length ≤ 1)
    (hn : values.length ≤ maxArrayLen) (hlen : argsLen values ≤ 2 ^ 24) :
    (wire (commandFrame (asBytes "RPUSH" :: key :: values))).length ≤ maxBufferedFrameBytes := by
  have hheader : headerLen (asBytes "RPUSH" :: key :: values).length ≤
    headerLen (maxArrayLen + 2) :=
    headerLen_mono (by simp only [List.length_cons]; omega)
  have hmax : headerLen (maxArrayLen + 2) = 10 := by decide
  have hname : bulkLen (asBytes "RPUSH").length = 11 := by decide
  have hkey : bulkLen key.length ≤ bulkLen 1 := bulkLen_mono hk
  have hone : bulkLen 1 = 7 := by decide
  have hframe : maxBufferedFrameBytes = 2 ^ 26 := by decide
  rw [length_wire_args, argsLen_cons, argsLen_cons]
  omega

theorem fromClient_rpush {values : List Bytes} (hne : values ≠ [])
    (hn : values.length + 2 ≤ maxArrayLen) (hlen : argsLen values ≤ 2 ^ 24) :
    (Command.rpush [107] values).FromClient := by
  have hread : Command.fromFrame 0 (commandFrame (runCommand "RPUSH" [107] elementArgs values)) =
      .ok (.rpush [107] values) := fromFrame_rpush [107] hne
  rw [runCommand, flatMap_elementArgs] at hread
  exact Server.fromClient_of_args 0 (asBytes "RPUSH" :: [107] :: values) hn
    (length_rpush_le le_rfl (by omega) hlen) hread

theorem served_pushedDb {values : List Bytes} (hne : values ≠ [])
    (hn : values.length + 2 ≤ maxArrayLen) (hlen : argsLen values ≤ 2 ^ 24) :
    (pushedDb values).Served :=
  .apply (.apply .new 0 (fromClient_rpush hne hn hlen)) 0
    (fromClient_rpush (List.cons_ne_nil _ _) (by decide) (by decide))

/-- As many elements as one `RPUSH` of a client can have. -/
def longList : List Bytes := List.replicate 1048574 [97]

/-- With one more element the list is written as one command, which a restart cuts off. -/
theorem long_list_cut :
    (pushedDb longList).Served ∧
    ∃ bytes, writeSnapshotEntries (fun _ => 0) ((pushedDb longList).aofSnapshotEntries 0) =
        .ok bytes ∧ bytes ≠ [] ∧
      (replay 0 (Db.new : Db Server.oneShard) [bytes]).file = [] ∧
      ¬ Restores Server.oneShard 0 (pushedDb longList) bytes := by
  have hn : longList.length = 1048574 := List.length_replicate
  have hlen : argsLen longList = 7340018 := by
    rw [argsLen, longList, List.map_replicate, List.sum_replicate]
    decide
  have hall : (longList ++ [[97]]).length = 1048575 := by
    rw [List.length_append, hn]
    rfl
  have hargs : argsLen (longList ++ [[97]]) ≤ 2 ^ 24 := by
    rw [argsLen_append, hlen]
    decide
  have hne : longList ++ [[97]] ≠ [] := List.append_ne_nil_of_right_ne_nil _ (List.cons_ne_nil _ _)
  generalize hlong : longList ++ [[97]] = values at hall hargs hne
  have hfits : fitsFrame (asBytes "RPUSH" :: [107] :: values) = true :=
    decide_eq_true (length_rpush_le le_rfl (by rw [hall]; decide) hargs)
  have hbytes := List.length_pos_iff.mp
    (wire_length_pos (commandFrame (asBytes "RPUSH" :: [107] :: values)))
  have hcount : (asBytes "RPUSH" :: [107] :: values).length = 1048577 := by
    rw [List.length_cons, List.length_cons, hall]
  have hmany : maxArrayLen < (asBytes "RPUSH" :: [107] :: values).length := by
    rw [hcount]
    decide
  have hparse := parse_longCommand hmany (by omega) []
  rw [List.append_nil] at hparse
  have hcut : replay 0 (Db.new : Db Server.oneShard)
      [wire (commandFrame (asBytes "RPUSH" :: [107] :: values))] = ⟨0, Db.new, []⟩ := by
    obtain ⟨tag, w, hwire, htag⟩ := wire_cons (commandFrame (asBytes "RPUSH" :: [107] :: values))
    rw [hwire] at hparse ⊢
    exact replay_rejects (List.forall_mem_nil _)
      (rfl : applyFrames 0 [] (Db.new : Db Server.oneShard) = some Db.new) htag hparse
  refine ⟨served_pushedDb ?_ ?_ ?_, wire (commandFrame (asBytes "RPUSH" :: [107] :: values)),
    ?_, hbytes, by rw [hcut], ?_⟩
  · exact List.ne_nil_of_length_pos (by rw [hn]; decide)
  · rw [hn]
    decide
  · rw [hlen]
    decide
  · rw [snapshot_pushedDb, hlong]
    exact writeSnapshotEntries_list hne hfits
  · intro hr
    have hfile := (hr [_] (List.flatten_singleton ..)).1
    rw [hcut] at hfile
    exact hbytes hfile.symm

/-- A list of two elements comes back. -/
theorem restores_iff_pushedDb : Restores Server.oneShard 5 (pushedDb [[98]])
    (wire (commandFrame [asBytes "RPUSH", [107], [98], [97]])) := by
  have hserved : (pushedDb [[98]]).Served :=
    served_pushedDb (List.cons_ne_nil _ _) (by decide) (by decide)
  have hentries := snapshot_pushedDb [[98]]
  have hview : ∀ k entry, (pushedDb [[98]]).view 0 k = some entry →
      k = [107] ∧ entry = ⟨.list [[98], [97]], none⟩ := by
    intro k entry hv
    have hm := (mem_aofSnapshotEntries hserved.reachable.valid).mpr hv
    rw [hentries] at hm
    exact Prod.mk.inj (List.mem_singleton.mp hm)
  have hwrite : writeSnapshotEntries (fun _ => 0) ((pushedDb [[98]]).aofSnapshotEntries 0) =
      .ok (wire (commandFrame [asBytes "RPUSH", [107], [98], [97]])) := by
    rw [hentries]
    exact writeSnapshotEntries_list (List.cons_ne_nil _ _) (by decide)
  refine (restores_iff hserved (fun _ => ⟨le_rfl, by decide⟩) ?_ hwrite).mpr ?_
  · intro k entry hv d hd
    rw [(hview k entry hv).2] at hd
    cases hd
  · intro k entry hv
    rw [(hview k entry hv).1, (hview k entry hv).2]
    exact shortRuns_list (by decide)

end MiniRedis.Aof
