import MiniRedis.CrashDurability
import MiniRedis.Recovery
import MiniRedis.ReplaySimulation

/-!
# A restart after a crash

What a crash leaves of the file is replayed at a later clock. If no write has relied on an
entry that is dead by then, and the entries that rewrites write fit the parser's arrays, the
restart has the live view of the server after the acknowledged writes: after all of them if the
policy is `always`, and otherwise after those that were acknowledged in time for the last sync.
At most one write comes on top that was never acknowledged. The file that is left gives the
same live view again.
-/
namespace MiniRedis
open Wire ParserRoundTrip

/-! ## The same contents -/

section
variable {host host' : Host} {now later : ExpireAt}

/-- A write on databases with the same contents. -/
theorem Command.apply_contents {c : Command} {t : Transaction} (ht : c.transaction now = some t)
    {db : Db host} {db' : Db host'} (h : (db'.view now).Same (db.view now)) :
    (c.apply now db').1 = (c.apply now db).1 ∧
      ((c.apply now db').2.view now).Same ((c.apply now db).2.view now) := by
  have hr := c.apply_refines now db
  have hr' := c.apply_refines now db'
  rw [ht] at hr hr'
  obtain ⟨hreply, hkeys⟩ := Command.transaction_respects ht fun k _ => h k
  refine ⟨by rw [hr.reply, hr'.reply, hreply], fun k => ?_⟩
  by_cases hk : k ∈ c.mutatedKeys
  · rw [hr.view, hr'.view]
    exact (hkeys k hk).alive now
  · have hb : (c.apply now db).2.view now k = db.view now k :=
      congrArg (Slot.alive now) (hr.frame k hk)
    have ha : (c.apply now db').2.view now k = db'.view now k :=
      congrArg (Slot.alive now) (hr'.frame k hk)
    rw [ha, hb]
    exact h k

/-- A deadline within the range is logged as it is, whenever the frame is made. -/
theorem Command.aofFrame_of_inRange {c : Command} (h : c.DeadlineInRange)
    (readAt now : ExpireAt) : c.aofFrame readAt = c.aofFrame now := by
  cases c with
  | set key value expiresAt =>
      cases expiresAt with
      | none => rfl
      | some d =>
          have hd : d ≤ maxExpireAtMs := h
          simp only [Command.aofFrame, setExpiryParts, if_pos hd]
  | lpop key count | rpop key count => cases count <;> rfl
  | _ => rfl

/-- The replay of an acknowledged write, on a database that holds the same. -/
theorem Command.applyFrame_same {readAt : ExpireAt} {db : Db host} {db' : Db host'} {c : Command}
    {frame : Frame} (hn : now ≤ later) (hc : c.FromClient) (hd : c.DeadlineInRange)
    (h : (db'.view later).Same (db.view later)) (hl : c.aofFrame readAt = some frame)
    (he : (c.apply now db).1.isError = false) (hs : c.ReplaySafe later (db.view now)) :
    ∃ db₁, Aof.applyFrame later db' frame = some db₁ ∧
      (db₁.view later).Same ((c.apply now db).2.view later) := by
  rw [Command.aofFrame_of_inRange hd readAt now] at hl
  obtain ⟨db₀, h₀, hv₀⟩ := Command.applyFrame_rerun hn hc hd rfl hl he hs
  obtain ⟨cmd, hcmd, hok, rfl⟩ := Aof.applyFrame_eq_some.mp h₀
  obtain rfl := Except.ok.inj (hcmd.symm.trans (hc.reread hd hl later))
  have hw : c.isWrite = true := by
    rw [← Command.logged_isSome now, ← Option.isSome_map (f := commandFrame),
      ← Command.aofFrame_eq, hl, Option.isSome_some]
  obtain ⟨t, ht⟩ := Option.isSome_iff_exists.mp
    ((Command.isWrite_iff_transaction now c).symm.trans hw)
  obtain ⟨u, hu, -⟩ := Command.rerun ht hn hs
  obtain ⟨hreply, hsame⟩ := Command.apply_contents hu h
  refine ⟨_, Aof.applyFrame_eq_some.mpr ⟨_, hcmd, by rw [hreply]; exact hok, rfl⟩, ?_⟩
  rw [← hv₀]
  exact hsame

end

/-! ## A command that is refused at the end of a file -/

namespace Aof
open MiniRedis.Parser

/-- A command behind the others that is not applied is cut off, wherever the file is cut into
pieces. -/
theorem replay_refusedLast {host : Host} {now : ExpireAt} {front : List Frame} {last : Frame}
    {pieces : List Bytes} {db db' : Db host} (hread : ∀ f ∈ front ++ [last], Readable f)
    (ha : applyFrames now front db = some db') (hnone : applyFrame now db' last = none)
    (hfile : pieces.flatten = (front ++ [last]).flatMap wire) :
    replay now db pieces =
      ⟨front.length, refusedDb now db' (wire last), front.flatMap wire⟩ := by
  have hall : applyFrames now (front ++ [last]) db = none := by
    rw [applyFrames_append, ha, Option.bind_some, applyFrames, hnone, Option.bind_none]
  have hfront : ∀ f ∈ front, Readable f := fun f hf => hread f (List.mem_append_left _ hf)
  have hr := replay_replays now db pieces
  generalize replay now db pieces = r at hr
  cases hr with
  | @whole ws tail rest fs db'' hbytes hw ha' ht hpoints =>
      have heq : (front ++ [last]).flatMap wire ++ [] = ws ++ tail := by
        rw [List.append_nil, ← hfile, hbytes]
      obtain ⟨vs, gs, -, rfl, -, -⟩ := (words_wire hread).split hw heq ht
      rw [applyFrames_append, hall] at ha'
      cases ha'
  | @stopped i ws b junk fs db'' hbytes hw hb ha' href hpoints =>
      have hpq := (flatten_take_drop pieces i).trans hfile
      obtain ⟨done, rest, tail, hsplit, hp, hrest, ht, hlen, -⟩ := cut_frames hread hpq
      have hdone : ∀ f ∈ done, Readable f := fun f hf =>
        hread f (hsplit ▸ List.mem_append_left _ hf)
      have hstops : applyFrames now done db = none :=
        href.applyFrames_eq_none hw hb ha' (words_wire hdone) (hbytes.symm.trans hp) ht hlen
      -- the replay has read the last frame when it stops
      have hlast : rest = [] := by
        by_contra hne
        have hle : done.length ≤ front.length := by
          have hcount := congrArg List.length hsplit
          have hpos := List.length_pos_iff.mpr hne
          simp only [List.length_append, List.length_singleton] at hcount
          omega
        obtain ⟨more, rfl⟩ := List.prefix_of_prefix_length_le ⟨rest, hsplit.symm⟩
          (List.prefix_append front [last]) hle
        rw [applyFrames_append, hstops] at ha
        cases ha
      subst hlast
      rw [List.append_nil] at hsplit
      subst hsplit
      obtain ⟨rfl, -⟩ := List.append_eq_nil_iff.mp hrest
      have heq : ws ++ (b ++ junk) = front.flatMap wire ++ ([] ++ wire last) := by
        rw [← hbytes, hp]
        simp
      have hparse : parse (wire last) = .ok (some last, []) := by
        have hword := word_wire (hread last (List.mem_append_right _ List.mem_cons_self)) []
        rwa [List.append_nil] at hword
      obtain ⟨rfl, rfl, rfl, hjunk⟩ := href.unique hw hb ha' (words_wire hfront) blank_nil ha
        (.command hparse hnone) heq
      obtain ⟨tag, c, hwire, htag⟩ := wire_cons last
      rw [List.nil_append, hwire] at hjunk
      obtain rfl := eq_nil_of_blank hb hjunk htag
      rw [hwire, ← hjunk, List.append_nil]
      rfl

end Aof
namespace RewriteProtocol
open Aof Compaction Runs MiniRedis.Parser PrefixCode

variable {host host' : Host} {Call : Type} {later clock : ExpireAt}

/-! ## What the log must be like -/

/-- What is logged of the command is read back as the command. -/
structure Loggable (c : Command) : Prop where
  fromClient : c.FromClient
  inRange : c.DeadlineInRange
  short : ∀ now frame, c.aofFrame now = some frame →
    (encode frame []).length ≤ maxAofBufferedFrameBytes

/-- The commands of a snapshot are read back. -/
def Printable (db : Db host) : Prop :=
  ∀ now k entry, db.view now k = some entry → DeadlineFits entry ∧ ShortRuns k entry.value

/-- The writes can be run again at a later clock, and snapshots taken between them. -/
structure Rerunnable (later : ExpireAt) (db : Db host) (writes : List (Write Call)) : Prop where
  safe : ∀ earlier r, earlier ++ [r] <+: writes →
    r.cmd.ReplaySafe later ((replayed db earlier).view r.now)
  printable : ∀ earlier, earlier <+: writes → Printable (replayed db earlier)

/-- Replayed at the later clock, the file gives the live view back. -/
def Backs (host' : Host) (later : ExpireAt) (file : Bytes) (db : Db host) : Prop :=
  ∃ (frames : List Frame) (db' : Db host'), file = frames.flatMap wire ∧
    (∀ frame ∈ frames, Readable frame) ∧ applyFrames later frames Db.new = some db' ∧
    (db'.view later).Same (db.view later)

theorem Write.Worded.readable {r : Write Call} (h : r.Worded Loggable) : Readable r.frame := by
  obtain ⟨hlog, readAt, hframe⟩ := h
  have hlen := hlog.short readAt r.frame hframe
  rw [encode_eq_append, List.nil_append] at hlen
  rw [Command.aofFrame_eq] at hframe
  obtain ⟨args, hargs, hr⟩ := Option.map_eq_some_iff.mp hframe
  rw [← hr] at hlen ⊢
  exact readable_command (hlog.fromClient.logged_length hargs) hlen

theorem AllGenuine.of_prefix {asked : Command → Prop} {db : Db host}
    {writes earlier : List (Write Call)} {r : Write Call} (h : AllGenuine asked clock db writes)
    (hr : earlier ++ [r] <+: writes) : r.Genuine asked clock (replayed db earlier) := by
  obtain ⟨rest, rfl⟩ := hr
  exact (allGenuine_append.mp (allGenuine_append.mp h).1).2.1

theorem served_replayed {db : Db host} (h : db.Served) {writes : List (Write Call)}
    (hw : AllGenuine Loggable clock db writes) : (replayed db writes).Served := by
  induction writes generalizing db with
  | nil => exact h
  | cons r writes ih => exact ih (.apply h r.now hw.1.worded.1.fromClient) hw.2

/-! ## Writes behind a file -/

theorem Backs.write {file : Bytes} {db : Db host} (h : Backs host' later file db) {r : Write Call}
    (hr : r.Genuine Loggable clock db) (hl : clock ≤ later)
    (hs : r.cmd.ReplaySafe later (db.view r.now)) :
    Backs host' later (file ++ r.bytes) (r.apply db) := by
  obtain ⟨frames, db', rfl, hread, ha, hsame⟩ := h
  have hreadable := hr.worded.readable
  obtain ⟨hlog, readAt, hframe⟩ := hr.worded
  obtain ⟨db₁, h₁, hsame₁⟩ := Command.applyFrame_same (hr.before.trans hl) hlog.fromClient
    hlog.inRange hsame hframe hr.succeeded hs
  refine ⟨frames ++ [r.frame], db₁, ?_, ?_, ?_, hsame₁⟩
  · rw [List.flatMap_append, Write.bytes, encode_eq_append, List.nil_append]
    simp
  · exact List.forall_mem_append.mpr ⟨hread, List.forall_mem_singleton.mpr hreadable⟩
  · rw [applyFrames_append, ha, Option.bind_some, applyFrames, h₁]
    rfl

theorem Backs.writes {db : Db host} {writes : List (Write Call)}
    (hw : AllGenuine Loggable clock db writes) (hl : clock ≤ later)
    (hr : Rerunnable later db writes) {file : Bytes} {earlier more : List (Write Call)}
    (h : Backs host' later file (replayed db earlier)) (hm : earlier ++ more <+: writes) :
    Backs host' later (file ++ more.flatMap Write.bytes) (replayed db (earlier ++ more)) := by
  induction more generalizing file earlier with
  | nil => simpa using h
  | cons r more ih =>
      have hone : earlier ++ [r] <+: writes :=
        List.IsPrefix.trans ⟨more, List.append_assoc ..⟩ hm
      have hnext := h.write (hw.of_prefix hone) hl (hr.safe earlier r hone)
      rw [← replayed_snoc] at hnext
      have hrest := ih hnext (by rwa [List.append_assoc, List.singleton_append])
      rwa [List.append_assoc, List.append_assoc, List.singleton_append] at hrest

/-! ## The image of a rewrite -/

theorem backs_image {db : Db host} {writes : List (Write Call)} {image : Image}
    (h : (replayed db writes).Served) (hp : Printable (replayed db writes))
    (hr : Reflects db writes image) (hl : image.capture.instant ≤ later) :
    Backs host' later image.bytes (replayed db writes) := by
  obtain ⟨hof, each, -, halive, hwritten⟩ := hr
  have hvalid := h.reachable.valid
  rw [show image.capture.entries = _ from hof] at halive hwritten
  have hmem : ∀ {k entry}, (replayed db writes).view image.capture.instant k = some entry →
      (k, entry) ∈ (replayed db writes).aofSnapshotEntries image.capture.instant :=
    (mem_aofSnapshotEntries hvalid).mpr
  have hview : ∀ e ∈ (replayed db writes).aofSnapshotEntries image.capture.instant,
      (replayed db writes).view image.capture.instant e.1 = some e.2 :=
    fun e he => (mem_aofSnapshotEntries hvalid).mp he
  have hstorable : ∀ e ∈ (replayed db writes).aofSnapshotEntries image.capture.instant,
      Storable e.2 := fun e he =>
    storable_of_view h (fun k entry hv => (hp _ k entry hv).1) (hview e he)
  obtain ⟨commands, hsnap, hprints⟩ := writeSnapshotEntries_eq_ok hstorable hwritten
  obtain ⟨db', ha, hin, hout⟩ := applied_written host' later hvalid
    (fun e he => hstorable e (List.mem_filter.mp he).1) hsnap
  have hshort : ∀ args ∈ commands, args.length ≤ maxArrayLen := hsnap.short_iff.mpr fun e he =>
    (hp _ e.1 e.2 (hview e (List.mem_filter.mp he).1)).2
  refine ⟨commands.map commandFrame, db', hprints.bytes, fun frame hf => ?_, ha, fun k => ?_⟩
  · obtain ⟨args, hargs, rfl⟩ := List.mem_map.mp hf
    exact readable_command (hshort args hargs) (of_decide_eq_true (hprints.fits args hargs))
  · rw [← Db.view_alive hl (replayed db writes), Keyspace.alive_apply]
    cases hk : (replayed db writes).view image.capture.instant k with
    | some entry => exact hin k entry hk (halive (k, entry) (hmem hk))
    | none =>
        rw [hout k fun entry he => by rw [hk] at he; cases he]
        exact trivial

/-- So does the whole log. -/
theorem backs_contents {db : Db host} {file log : Bytes} (hdb : db.Served)
    (hfile : Backs host' later file db) {writes : List (Write Call)}
    (hw : AllGenuine Loggable clock db writes) (hl : clock ≤ later)
    (hr : Rerunnable later db writes) {history : List (Mark (Write Call) Image)}
    (hpre : records history <+: writes)
    (hi : ∀ image, .switched image ∈ history → image.capture.instant ≤ clock)
    (h : Contents Write.bytes Image.bytes (Reflects db) file history log) :
    Backs host' later log (replayed db (records history)) := by
  cases h with
  | original hu =>
      have hstart : Backs host' later file (replayed db ([] : List (Write Call))) := hfile
      exact hstart.writes hw hl hr hpre
  | @compacted before after during image hhistory hafter hshows =>
      have hrecords : records history = records before ++ (during ++ records after) := by
        rw [hhistory]
        simp
      rw [hrecords] at hpre ⊢
      have hearlier : records before <+: writes := (List.prefix_append _ _).trans hpre
      have hgenuine : AllGenuine Loggable clock db (records before) := by
        obtain ⟨rest, rfl⟩ := hearlier
        exact (allGenuine_append.mp hw).1
      have himage : image.capture.instant ≤ clock := by
        refine hi image ?_
        rw [hhistory]
        simp
      exact Backs.writes hw hl hr (backs_image (served_replayed hdb hgenuine)
        (hr.printable _ hearlier) hshows (himage.trans hl)) hpre

/-! ## The restart -/

/-- What a restart after a crash finds: the writes that have survived, and at most one write on
top that was not acknowledged. -/
structure Restarts (asked : Command → Prop) (policy : FsyncPolicy) (later : ExpireAt)
    (db : Db host) (m : Machine host Call) (survivors : List (Write Call))
    (r : Replayed host') : Prop where
  earlier : survivors <+: records m.world.history
  always : policy = .always → survivors = records m.world.history
  everySec : policy = .everySec → ∀ t ∈ m.checks.drop survivors.length,
    ∀ t' ∈ m.checks.drop survivors.length, t' < t + 1000
  restored : ∃ db₁ : Db host', (db₁.view later).Same ((replayed db survivors).view later) ∧
    (r.db.view later = db₁.view later ∨ ∃ extra : Write Call, extra.call ∉ m.world.calls ∧
      asked extra.cmd ∧ r.db = (extra.cmd.apply later db₁).2)
  backed : Backs host' later r.file r.db

theorem backs_self {frames : List Frame} {db : Db host'} (hread : ∀ frame ∈ frames, Readable frame)
    (ha : applyFrames later frames Db.new = some db) :
    Backs host' later (frames.flatMap wire) db :=
  ⟨frames, db, rfl, hread, ha, fun _ => Slot.Same.refl _⟩

/-- A file that ends within a write is replayed up to that write. -/
theorem Backs.cut {file : Bytes} {db : Db host} (h : Backs host' later file db)
    {next : List Frame} {tail q : Bytes} {pieces : List Bytes}
    (hnext : ∀ frame ∈ next, Readable frame) (hfile : pieces.flatten = file ++ tail)
    (ht : parse tail = .ok (none, tail)) (hq : tail ++ q = next.flatMap wire) :
    ∃ (n : ℕ) (db₁ : Db host'), replay later Db.new pieces = ⟨n, db₁, file⟩ ∧
      (db₁.view later).Same (db.view later) ∧ Backs host' later file db₁ := by
  obtain ⟨frames, db₁, rfl, hread, ha, hsame⟩ := h
  have hpoints : ∀ i, Awaits (pieces.take i).flatten := fun i => by
    have hall : (pieces.take i).flatten ++ ((pieces.drop i).flatten ++ q) =
        (frames ++ next).flatMap wire := by
      rw [← List.append_assoc, flatten_take_drop, hfile, List.append_assoc, hq,
        List.flatMap_append]
    exact awaits_of_readable (List.forall_mem_append.mpr ⟨hread, hnext⟩) hall
  refine ⟨frames.length, db₁, ?_, hsame, backs_self hread ha⟩
  rw [replay_awaits hfile (words_wire hread) ha ht hpoints]
  split_ifs with he
  · rw [hfile, List.isEmpty_iff.mp he, List.append_nil]
  · rfl

/-- A file with one more write behind it, which is applied or refused. -/
theorem Backs.extra {file : Bytes} {db : Db host} (h : Backs host' later file db)
    {r : Write Call} (hr : r.Worded Loggable) {pieces : List Bytes}
    (hfile : pieces.flatten = file ++ r.bytes) :
    ∃ (db₁ : Db host') (x : Replayed host'), replay later Db.new pieces = x ∧
      (db₁.view later).Same (db.view later) ∧
      (x.db.view later = db₁.view later ∨ x.db = (r.cmd.apply later db₁).2) ∧
      Backs host' later x.file x.db := by
  obtain ⟨frames, db₁, rfl, hread, ha, hsame⟩ := h
  have hall : ∀ frame ∈ frames ++ [r.frame], Readable frame :=
    List.forall_mem_append.mpr ⟨hread, List.forall_mem_singleton.mpr hr.readable⟩
  rw [Write.bytes, encode_eq_append, List.nil_append, ← List.flatMap_singleton wire r.frame,
    ← List.flatMap_append] at hfile
  refine ⟨db₁, _, rfl, hsame, ?_⟩
  cases hlast : applyFrame later db₁ r.frame with
  | some db₂ =>
      have happly : applyFrames later (frames ++ [r.frame]) Db.new = some db₂ := by
        rw [applyFrames_append, ha, Option.bind_some, applyFrames, hlast]
        rfl
      obtain ⟨hlog, readAt, hframe⟩ := hr
      obtain ⟨cmd, hcmd, -, rfl⟩ := applyFrame_eq_some.mp hlast
      obtain rfl := Except.ok.inj
        (hcmd.symm.trans (hlog.fromClient.reread hlog.inRange hframe later))
      rw [replay_spec hfile hall happly]
      refine ⟨.inr (by rw [Command.apply_asLogged]), ?_⟩
      rw [hfile]
      exact backs_self hall happly
  | none =>
      rw [replay_refusedLast hall ha hlast hfile]
      obtain ⟨tag, w, hwire, -⟩ := wire_cons r.frame
      have hparse : parse (wire r.frame) = .ok (some r.frame, []) := by
        have hword := word_wire hr.readable []
        rwa [List.append_nil] at hword
      have hview : (refusedDb later db₁ (wire r.frame)).view later = db₁.view later := by
        rcases refusedDb_eq (.command hparse hlast) with hdb | ⟨cmd, hc, he, hdb⟩
        · rw [hdb]
        · rw [hdb]
          exact hc.view_of_error he
      refine ⟨.inl hview, frames, db₁, rfl, hread, ha, fun k => ?_⟩
      rw [hview]
      exact Slot.Same.refl _

theorem Machine.Leaves.restarts {m : Machine host Call} {policy : FsyncPolicy} {db : Db host}
    {file image : Bytes} {older : List (Mark (Write Call) Image)} {lost : List (Write Call)}
    {kept flight : Bytes}
    (h : m.Leaves Loggable policy db file image older lost kept flight) (hdb : db.Served)
    (hfile : Backs host' later file db)
    (hw : AllGenuine Loggable m.world.clock db (records m.world.history))
    (hl : m.world.clock ≤ later) (hr : Rerunnable later db (records m.world.history))
    {pieces : List Bytes} (hpieces : pieces.flatten = image) :
    ∃ survivors, Restarts Loggable policy later db m survivors
      (replay later (Db.new : Db host') pieces) := by
  have hall := h.acknowledged
  have holder : records older <+: records m.world.history := ⟨lost, hall.symm⟩
  have hkept : Backs host' later kept (replayed db (records older)) :=
    backs_contents hdb hfile hw hl hr holder h.captured h.contents
  -- `n` of the lost writes are whole in the image
  have survives : ∀ n, let survivors := records older ++ lost.take n
      survivors <+: records m.world.history ∧
      (policy = .always → survivors = records m.world.history) ∧
      (policy = .everySec → ∀ t ∈ m.checks.drop survivors.length,
        ∀ t' ∈ m.checks.drop survivors.length, t' < t + 1000) ∧
      Backs host' later (kept ++ (lost.take n).flatMap Write.bytes) (replayed db survivors) := by
    intro n survivors
    have hpre : survivors <+: records m.world.history := by
      rw [hall]
      exact (List.prefix_append_right_inj _).mpr (List.take_prefix n lost)
    refine ⟨hpre, fun hp => ?_, fun hp t hm t' hm' => ?_, hkept.writes hw hl hr hpre⟩
    · rw [hall]
      change records older ++ lost.take n = _
      rw [h.always hp, List.take_nil]
    · have hdrop : m.checks.drop survivors.length =
          (m.checks.drop (records older).length).drop (lost.take n).length := by
        rw [List.drop_drop, List.length_append]
      rw [hdrop] at hm hm'
      exact h.everySec hp t (List.mem_of_mem_drop hm) t' (List.mem_of_mem_drop hm')
  have hworded : ∀ r ∈ lost, r.Worded Loggable := fun r hm => by
    obtain ⟨before, after, rfl⟩ := List.append_of_mem hm
    have hpre : records older ++ before ++ [r] <+: records m.world.history := by
      rw [hall]
      exact ⟨after, by simp⟩
    exact (hw.of_prefix hpre).worded
  have hlost : ∀ frame ∈ lost.map Write.frame, Readable frame := fun frame hf => by
    obtain ⟨r, hm, rfl⟩ := List.mem_map.mp hf
    exact (hworded r hm).readable
  have hbytes : ∀ writes : List (Write Call),
      writes.flatMap Write.bytes = (writes.map Write.frame).flatMap wire := fun writes => by
    rw [List.flatMap_map]
    refine congrArg (List.flatMap · writes) (funext fun r => ?_)
    rw [Write.bytes, encode_eq_append, List.nil_append]
  obtain ⟨extra, hextra, hlen, rfl⟩ : ∃ extra : List (Write Call),
      (∀ r ∈ extra, r.call ∉ m.world.calls ∧ r.Worded Loggable) ∧ extra.length ≤ 1 ∧
        flight = extra.flatMap Write.bytes := by
    rcases h.flight with rfl | ⟨r, hr, hrw, rfl⟩
    · exact ⟨[], List.forall_mem_nil _, Nat.zero_le _, rfl⟩
    · exact ⟨[r], List.forall_mem_singleton.mpr ⟨hr, hrw⟩, le_rfl, by simp⟩
  have hread : ∀ frame ∈ lost.map Write.frame ++ extra.map Write.frame, Readable frame :=
    List.forall_mem_append.mpr ⟨hlost, fun frame hf => by
      obtain ⟨r, hm, rfl⟩ := List.mem_map.mp hf
      exact (hextra r hm).2.readable⟩
  obtain ⟨⟨part, himage⟩, q, hq⟩ := h.between
  rw [← himage, List.append_assoc, List.append_assoc, List.append_cancel_left_eq, hbytes, hbytes,
    ← List.flatMap_append] at hq
  obtain ⟨done, rest, tail, hsplit, rfl, hrest, ht, -, -⟩ := cut_frames hread hq
  rcases Nat.lt_or_ge lost.length done.length with hlong | hshort
  · -- the write in flight is whole
    have hcount := congrArg List.length hsplit
    simp only [List.length_append, List.length_map] at hcount
    obtain ⟨r, rfl⟩ : ∃ r, extra = [r] := List.length_eq_one_iff.mp (by omega)
    obtain rfl : rest = [] := by
      rw [List.length_singleton] at hcount
      exact List.length_eq_zero_iff.mp (by omega)
    obtain ⟨rfl, -⟩ := List.append_eq_nil_iff.mp hrest
    obtain ⟨hcall, hworded'⟩ := hextra r List.mem_cons_self
    obtain ⟨hpre, halways, hevery, hbacks⟩ := survives lost.length
    rw [List.take_length] at hpre halways hevery hbacks
    have hwhole : pieces.flatten = kept ++ lost.flatMap Write.bytes ++ r.bytes := by
      rw [List.append_nil] at hsplit
      have hone : r.bytes = ([r].map Write.frame).flatMap wire := by
        rw [← hbytes, List.flatMap_singleton]
      rw [hpieces, ← himage, ← hsplit, List.append_nil, List.flatMap_append, ← hone, hbytes,
        List.append_assoc]
    obtain ⟨db₁, x, hreplay, hsame, hdb, hback⟩ := hbacks.extra hworded' hwhole
    rw [hreplay]
    exact ⟨_, hpre, halways, hevery,
      ⟨db₁, hsame, hdb.imp_right fun hr => ⟨r, hcall, hworded'.1, hr⟩⟩, hback⟩
  · obtain ⟨more, hmore⟩ := List.prefix_of_prefix_length_le ⟨rest, hsplit.symm⟩
      (List.prefix_append (lost.map Write.frame) (extra.map Write.frame)) (by simpa using hshort)
    have hdone : done = (lost.take done.length).map Write.frame := by
      rw [List.map_take, ← hmore, List.take_left]
    obtain ⟨hpre, halways, hevery, hbacks⟩ := survives done.length
    have hwhole : pieces.flatten =
        kept ++ (lost.take done.length).flatMap Write.bytes ++ tail := by
      rw [hpieces, ← himage, hbytes, ← hdone, List.append_assoc]
    have hnext : ∀ frame ∈ rest, Readable frame := fun frame hf =>
      hread frame (hsplit ▸ List.mem_append_right _ hf)
    obtain ⟨n, db₁, hreplay, hsame, hback⟩ := hbacks.cut hnext hwhole ht hrest
    rw [hreplay]
    exact ⟨_, hpre, halways, hevery, ⟨db₁, hsame, .inl rfl⟩, hback⟩

variable [DecidableEq Call]

/-- Wherever a crash comes in a run, between two events or between two calls of one event, and
however its image is read in pieces, the restart has the live view after the acknowledged writes
that have survived, at most one write on top, and a file that gives this view back. -/
theorem restart_restores (host' : Host) (policy : FsyncPolicy) (now later : ExpireAt)
    {db : Db host} (h : db.Served) {file : Bytes} (hfile : Backs host' later file db)
    (events : List (Event Call × Moment))
    (ha : ∀ e ∈ events, e.1.Admissible policy ∧ e.1.Asks Loggable ∧ e.1.SyncsDirectory)
    (ht : ∀ t ∈ taken (Machine.step policy) events (Machine.start now db file),
      inTime (t.1.world, t.2.1) = true)
    (hn : ∀ t ∈ taken (Machine.step policy) events (Machine.start now db file),
      noticed policy (t.1.world, t.1.event t.2) = true) :
    (∀ t ∈ taken (Machine.step policy) events (Machine.start now db file),
      t.1.world.clock ≤ later → Rerunnable later db (records t.1.world.history) →
      ∀ pieces : List Bytes,
        t.1.volume.SurvivesDuring (t.1.diskCalls policy t.2) pieces.flatten →
        ∃ survivors, Restarts Loggable policy later db t.1 survivors
          (replay later (Db.new : Db host') pieces)) ∧
    let m := run (Machine.step policy) events (Machine.start now db file)
    m.world.clock ≤ later → Rerunnable later db (records m.world.history) →
      ∀ pieces : List Bytes, m.volume.Survives pieces.flatten →
        ∃ survivors, Restarts Loggable policy later db m survivors
          (replay later (Db.new : Db host') pieces) := by
  obtain ⟨htaken, hrun⟩ := Machine.durable_run Loggable policy now h.reachable.valid file events
    ha ht hn
  refine ⟨fun t hm hl hr pieces hs => ?_, fun hl hr pieces hs => ?_⟩
  · obtain ⟨hdurable, hok⟩ := htaken t hm
    obtain ⟨older, lost, kept, flight, hleaves⟩ := (hdurable.step h.reachable.valid hok.stepOk
      hok.asks hok.syncsDirectory).crash _ hs
    exact hleaves.restarts h hfile hdurable.vouched.acknowledged hl hr rfl
  · obtain ⟨older, lost, kept, flight, hleaves⟩ := hrun.crash hs
    exact hleaves.restarts h hfile hrun.vouched.acknowledged hl hr rfl

theorem inRange_set : (Command.set [107] [118] (some 1100)).DeadlineInRange :=
  (by decide : 1100 ≤ maxExpireAtMs)

theorem loggable_set : Loggable (.set [107] [118] (some 1100)) where
  fromClient := Server.fromClient_set
  inRange := inRange_set
  short now frame h := by
    rw [Command.aofFrame_of_inRange inRange_set now 0] at h
    have hframe : frame = Server.setFrame := (Option.some.inj h).symm
    rw [hframe]
    decide

theorem printable_expiringDb : Printable Server.expiringDb := by
  intro now k entry h
  have hentry : Server.expiringDb.entry k = some entry := (Slot.alive_eq_some.mp h).1
  have hset := (Command.set [107] [118] (some 1100)).apply_refines 1000
    (Db.new : Db Server.oneShard)
  by_cases hk : k = [107]
  · subst hk
    obtain rfl := Option.some.inj (hentry.symm.trans rfl)
    exact ⟨fun d hd => by obtain rfl := Option.some.inj hd; decide, trivial⟩
  · have hnone : Server.expiringDb.entry k = none :=
      hset.frame k fun hm => hk (List.mem_singleton.mp hm)
    rw [hnone] at hentry
    cases hentry

/-- The first `SET` was acknowledged, the second one was in flight. -/
theorem rerunnable_crashEvents : Rerunnable 1050 (Db.new : Db Server.oneShard)
    [⟨(0 : ℕ), 1000, .set [107] [118] (some 1100), Server.setFrame⟩] where
  safe earlier r h := by
    obtain ⟨-, rfl⟩ : earlier = [] ∧ r = _ := by
      obtain ⟨rest, hrest⟩ := h
      cases earlier with
      | nil => exact ⟨rfl, (List.cons.inj hrest).1⟩
      | cons e earlier => simp at hrest
    exact .inl rfl
  printable earlier h := by
    cases earlier with
    | nil => exact fun now k entry hv => by cases hv
    | cons e earlier =>
        obtain ⟨rest, hrest⟩ := h
        obtain ⟨rfl, hnil⟩ := List.cons.inj hrest
        obtain ⟨rfl, -⟩ := List.append_eq_nil_iff.mp hnil
        exact printable_expiringDb

theorem restart_restores_set :
    let m := run (Machine.step .always) Machine.crashEvents
      (Machine.start 1000 (Db.new : Db Server.oneShard) [])
    ∀ pieces : List Bytes, m.volume.Survives pieces.flatten →
      ∃ survivors, Restarts Loggable .always 1050 Db.new m survivors
        (replay 1050 (Db.new : Db Server.oneShard) pieces) := by
  have hwriter : World.Recoverable .always {} { openTemp := .ok [] } := ⟨rfl, rfl, fun _ => rfl⟩
  have hempty : Backs Server.oneShard 1050 [] (Db.new : Db Server.oneShard) :=
    backs_self (List.forall_mem_nil _) rfl
  refine (restart_restores Server.oneShard .always 1000 1050 .new hempty Machine.crashEvents ?_
    (List.all_eq_true.mp rfl) (List.all_eq_true.mp rfl)).2 (by decide : 1000 ≤ 1050)
    rerunnable_crashEvents
  simp [Machine.crashEvents, writeEvents, Event.Admissible, Event.Asks, Event.SyncsDirectory,
    Server.fromClient_set, loggable_set, hwriter]

end RewriteProtocol
end MiniRedis
