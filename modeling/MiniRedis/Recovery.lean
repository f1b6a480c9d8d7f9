import MiniRedis.Feeding
import MiniRedis.ReplayAgreement

/-!
# Recovery from a damaged log

After a crash the log ends with a part of a frame, and `replay` cuts that part off.
Whatever else has happened to the file, what `replay` leaves of it is the bytes of
the frames that it has applied, perhaps with blank lines after them: the next replay
applies the same frames, and then the ones that were appended.
-/
namespace MiniRedis.Aof
open Wire MiniRedis.Parser ParserRoundTrip

variable {host : Host} {now : ExpireAt}

/-- A frame that the server logs for a command of a client. -/
def Logged (frame : Frame) : Prop :=
  ∃ (cmd : Command) (now : ExpireAt), cmd.FromClient ∧ cmd.aofFrame now = some frame

theorem Logged.readable {frame : Frame} (h : Logged frame)
    (hlen : (encode frame []).length ≤ maxAofBufferedFrameBytes) : Readable frame := by
  obtain ⟨cmd, t, hc, hframe⟩ := h
  rw [Command.aofFrame_eq] at hframe
  obtain ⟨args, hargs, rfl⟩ := Option.map_eq_some_iff.mp hframe
  rw [encode_eq_append, List.nil_append] at hlen
  exact readable_command (hc.logged_length hargs) hlen

/-! ## A crash while a frame is written -/

/-- However much of a frame was written, the frames before it are applied and kept. -/
theorem crash_loses_only_cut {frames : List Frame} {pieces : List Bytes} {p : ℕ} {db : Db host}
    (hlogged : ∀ frame ∈ frames, Logged frame)
    (hlen : ∀ frame ∈ frames, (encode frame []).length ≤ maxAofBufferedFrameBytes)
    (ha : applyFrames now frames (Db.new : Db host) = some db)
    (hfile : pieces.flatten = (encodeAll frames).take p) :
    ∃ db', applyFrames now (endingBy p frames) (Db.new : Db host) = some db' ∧
      replay now Db.new pieces =
        ⟨(endingBy p frames).length, db', encodeAll (endingBy p frames)⟩ := by
  have hread : ∀ frame ∈ frames, Readable frame := fun f hf => (hlogged f hf).readable (hlen f hf)
  have hcut : pieces.flatten ++ (encodeAll frames).drop p = frames.flatMap wire := by
    rw [hfile, List.take_append_drop, encodeAll_eq]
  obtain ⟨done, rest, tail, rfl, hp, hrest, ht, -, hnext⟩ := cut_frames hread hcut
  have hdone : endingBy p (done ++ rest) = done := by
    have hlen : (pieces.flatten).length = (encodeAll done).length + tail.length := by
      rw [hp, List.length_append, encodeAll_eq]
    rw [hfile, List.length_take] at hlen
    rw [← endingBy_min, hlen, endingBy_append, endingBy_short hnext, List.append_nil]
  rw [applyFrames_append] at ha
  obtain ⟨db', hd, -⟩ := Option.bind_eq_some_iff.mp ha
  have hwords := words_wire fun f hf => hread f (List.mem_append_left rest hf)
  have hreplay := replay_awaits hp hwords hd ht fun i =>
    awaits_of_readable hread (p := (pieces.take i).flatten)
      (q := (pieces.drop i).flatten ++ (encodeAll (done ++ rest)).drop p) (by
        rw [← List.append_assoc, flatten_take_drop, hcut])
  rw [hdone]
  refine ⟨db', hd, hreplay.trans ?_⟩
  rw [encodeAll_eq]
  split_ifs with he
  · rw [hp, List.isEmpty_iff.mp he, List.append_nil]
  · rfl

theorem logged_appendFrame : Logged Server.appendFrame :=
  ⟨.append [107] [121], 0, Server.fromClient_of_args 0 _ (by decide) (by decide)
    (Server.fromFrame_appendFrame 0), rfl⟩

/-- The second of two appends is cut after three of its bytes. -/
theorem crash_loses_only_cut_append :
    ∃ db', applyFrames 0 (endingBy 33 [Server.appendFrame, Server.appendFrame])
        (Db.new : Db Server.oneShard) = some db' ∧
      replay 0 Db.new [(encodeAll [Server.appendFrame, Server.appendFrame]).take 33] =
        ⟨(endingBy 33 [Server.appendFrame, Server.appendFrame]).length, db',
          encodeAll (endingBy 33 [Server.appendFrame, Server.appendFrame])⟩ := by
  have ha : applyFrames 0 [Server.appendFrame, Server.appendFrame] (Db.new : Db Server.oneShard) =
      some _ :=
    Option.bind_eq_some_iff.mpr
      ⟨_, applyFrame_eq_some.mpr ⟨_, Server.fromFrame_appendFrame 0, rfl, rfl⟩,
        Option.bind_eq_some_iff.mpr
          ⟨_, applyFrame_eq_some.mpr ⟨_, Server.fromFrame_appendFrame 0, rfl, rfl⟩, rfl⟩⟩
  exact crash_loses_only_cut
    (List.forall_mem_cons.mpr ⟨logged_appendFrame,
      List.forall_mem_cons.mpr ⟨logged_appendFrame, List.forall_mem_nil _⟩⟩)
    (List.forall_mem_cons.mpr ⟨by decide,
      List.forall_mem_cons.mpr ⟨by decide, List.forall_mem_nil _⟩⟩)
    ha (List.flatten_singleton ..)

/-! ## Any damage -/

/-- What `read_buf` returns of a file for reads of given sizes, and then the rest at once. -/
def readPieces : List ℕ → Bytes → List Bytes
  | [], file => if file.isEmpty then [] else [file]
  | n :: sizes, file =>
      if file.isEmpty then [] else file.take n :: readPieces sizes (file.drop n)

/-- How far the file has been read after a number of reads. -/
def readTo (sizes : List ℕ) (i : ℕ) (file : Bytes) : Bytes :=
  if i ≤ sizes.length then file.take (sizes.take i).sum else file

theorem flatten_take_readPieces (sizes : List ℕ) (file : Bytes) (i : ℕ) :
    ((readPieces sizes file).take i).flatten = readTo sizes i file := by
  induction sizes generalizing file i with
  | nil =>
      cases i with
      | zero => simp [readTo]
      | succ i => cases file <;> simp [readPieces, readTo]
  | cons n sizes ih =>
      cases i with
      | zero => simp [readTo]
      | succ i =>
          rw [readPieces]
          split_ifs with he
          · rw [List.isEmpty_iff.mp he]
            simp [readTo]
          · rw [List.take_succ_cons, List.flatten_cons, ih, readTo, readTo]
            simp only [List.length_cons, Nat.add_le_add_iff_right, List.take_succ_cons,
              List.sum_cons]
            split_ifs
            · rw [List.take_add]
            · rw [List.take_append_drop]

theorem flatten_readPieces (sizes : List ℕ) (file : Bytes) :
    (readPieces sizes file).flatten = file := by
  have h := flatten_take_readPieces sizes file (sizes.length + 1 + (readPieces sizes file).length)
  rwa [List.take_of_length_le (by omega), readTo, if_neg (by omega)] at h

theorem readTo_append {sizes : List ℕ} {i : ℕ} {file more : Bytes} (junk : Bytes)
    (h : (readTo sizes i (file ++ more)).length ≤ file.length) :
    readTo sizes i (file ++ more) = readTo sizes i (file ++ junk) ∨
      more = [] ∧ readTo sizes i (file ++ more) = file := by
  unfold readTo at h ⊢
  split_ifs at h ⊢ with hi
  · by_cases hlen : (sizes.take i).sum ≤ file.length
    · left
      rw [List.take_append_of_le_length hlen, List.take_append_of_le_length hlen]
    · right
      have hmore : more = [] := by
        rw [List.length_take, List.length_append] at h
        rw [← List.length_eq_zero_iff]
        omega
      rw [hmore, List.append_nil]
      exact ⟨rfl, List.take_of_length_le (by omega)⟩
  · rw [List.length_append] at h
    have hmore : more = [] := by
      rw [← List.length_eq_zero_iff]
      omega
    exact Or.inr ⟨hmore, by rw [hmore, List.append_nil]⟩

theorem readTo_prefix (sizes : List ℕ) (i : ℕ) (file : Bytes) : readTo sizes i file <+: file := by
  unfold readTo
  split_ifs
  · exact List.take_prefix _ _
  · exact List.prefix_refl _

/-- What a replay leaves: the words that it has applied, and blank lines. -/
structure Recovered (now : ExpireAt) (sizes : List ℕ) (x : Bytes) (r : Replayed host)
    (frames : List Frame) (db : Db host) : Prop where
  isPrefix : r.file <+: x
  words : ∃ ws b, r.file = ws ++ b ∧ Words ws frames ∧ Blank b
  applied : r.applied = frames.length
  frames : applyFrames now frames Db.new = some db
  /-- A command that answers with an error is not among the frames, but it was run. -/
  db : r.db = db ∨ ∃ cmd : Command, cmd.FromClient ∧ (cmd.apply now db).1.isError = true ∧
    r.db = (cmd.apply now db).2
  points : ∀ i, (readTo sizes i x).length ≤ r.file.length → Awaits (readTo sizes i x)

theorem Recovered.view {sizes : List ℕ} {x : Bytes} {r : Replayed host} {frames : List Frame}
    {db : Db host} (h : Recovered now sizes x r frames db) : r.db.view now = db.view now := by
  rcases h.db with hdb | ⟨cmd, hc, he, hdb⟩
  · rw [hdb]
  · rw [hdb]
    exact hc.view_of_error he

theorem refusedDb_eq {db : Db host} {junk : Bytes} (h : Refused now db junk) :
    refusedDb now db junk = db ∨ ∃ cmd : Command, cmd.FromClient ∧
      (cmd.apply now db).1.isError = true ∧ refusedDb now db junk = (cmd.apply now db).2 := by
  unfold refusedDb
  cases h with
  | error hp => exact Or.inl (by rw [hp])
  | long hp _ => exact Or.inl (by rw [hp])
  | @command frame rest hp hnone =>
      rw [hp]
      dsimp only
      rw [applyFrame] at hnone
      cases hc : Command.fromFrame now frame with
      | error e => exact Or.inl rfl
      | ok cmd =>
          rw [hc] at hnone
          dsimp only at hnone
          split_ifs at hnone with he
          exact Or.inr ⟨cmd, ⟨junk, rest, frame, now, hp, hc⟩, he, rfl⟩

theorem replay_recovered (host : Host) (now : ExpireAt) (sizes : List ℕ) (x : Bytes) :
    ∃ frames db, Recovered now sizes x (replay now (Db.new : Db host) (readPieces sizes x))
      frames db := by
  have hr := replay_replays now (Db.new : Db host) (readPieces sizes x)
  have hpoint := flatten_take_readPieces sizes x
  have hflat := flatten_readPieces sizes x
  generalize replay now (Db.new : Db host) (readPieces sizes x) = r at hr
  cases hr with
  | @whole ws tail rest fs db' hfile hw ha ht hpoints =>
      rw [hflat] at hfile ⊢
      have hawaits : ∀ i, Awaits (readTo sizes i x) := fun i => hpoint i ▸ hpoints i
      refine ⟨fs, db', ?_, ?_, rfl, ha, Or.inl rfl, fun i _ => hawaits i⟩
      · dsimp only
        split_ifs
        · exact List.prefix_refl x
        · exact ⟨tail, hfile.symm⟩
      · dsimp only
        split_ifs with he
        · obtain ⟨⟨b, hb, hblank⟩, -⟩ := parse_blank ht
          rw [List.isEmpty_iff.mp he, List.append_nil] at hb
          exact ⟨ws, tail, hfile, hw, hb ▸ hblank⟩
        · exact ⟨ws, [], (List.append_nil ws).symm, hw, blank_nil⟩
  | @stopped i ws b junk fs db' hread hw hb ha href hpoints =>
      rw [hpoint] at hread
      have hpre := readTo_prefix sizes i x
      rw [hread] at hpre
      obtain ⟨more, hx⟩ := hpre
      have hpos := List.length_pos_iff.mpr href.ne_nil
      refine ⟨fs, db', ⟨junk ++ more, by rw [← hx]; simp⟩, ⟨ws, b, rfl, hw, hb⟩, rfl, ha,
        refusedDb_eq href, fun j hj => ?_⟩
      -- the replay had read beyond these bytes when it stopped
      have hlt : j < i := by
        by_contra hge
        have hmono : (readTo sizes i x).length ≤ (readTo sizes j x).length := by
          rw [← hpoint i, ← hpoint j]
          have hsub := (List.take_prefix_take_left (l := readPieces sizes x) (Nat.not_lt.mp hge))
          obtain ⟨l, hl⟩ := hsub
          rw [← hl, List.flatten_append, List.length_append]
          omega
        rw [hread] at hmono
        simp only [List.length_append] at hmono hj
        omega
      exact hpoint j ▸ hpoints j hlt

/-- Blank lines in front of words belong to the first of them, or are passed over. -/
theorem words_of_blank {b vs : Bytes} {fs : List Frame} (hb : Blank b) (hv : Words vs fs) :
    ∃ ws tail, b ++ vs = ws ++ tail ∧ Words ws fs ∧ parse tail = .ok (none, []) := by
  cases hv with
  | nil =>
      have hp := hb []
      rw [List.append_nil] at hp
      exact ⟨[], b, by simp, .nil, hp⟩
  | @cons w vs frame frames hw hvs =>
      exact ⟨b ++ w ++ vs, [], by simp, .cons (hb.word hw) hvs, rfl⟩

theorem awaits_of_blank {b p : Bytes} (hb : Blank b) (h : Awaits p) : Awaits (b ++ p) := by
  obtain ⟨ws, fs, tail, rest, rfl, hw, ht, hlen⟩ := h
  cases hw with
  | nil => exact ⟨[], [], b ++ tail, rest, rfl, .nil, (hb tail).trans ht, hlen⟩
  | @cons w ws frame frames hword hws =>
      exact ⟨b ++ w ++ ws, frame :: frames, tail, rest,
        by simp, .cons (hb.word hword) hws, ht, hlen⟩

theorem parseAll_words {ws b : Bytes} {fs : List Frame} (hw : Words ws fs) (hb : Blank b)
    {fuel : ℕ} (h : (ws ++ b).length < fuel) :
    parseAll fuel (ws ++ b) = (fs, .waiting []) := by
  induction hw generalizing fuel with
  | nil =>
      obtain ⟨fuel, rfl⟩ : ∃ k, fuel = k + 1 := ⟨fuel - 1, by omega⟩
      have hp := hb []
      rw [List.append_nil] at hp
      rw [List.nil_append, parseAll, hp]
      rfl
  | @cons w ws frame frames hword _ ih =>
      obtain ⟨fuel, rfl⟩ : ∃ k, fuel = k + 1 := ⟨fuel - 1, by omega⟩
      have hpos := List.length_pos_iff.mpr hword.ne_nil
      simp only [List.length_append] at h ih
      have hi : parseAll fuel (ws ++ b) = (frames, .waiting []) := ih (by omega)
      rw [List.append_assoc, parseAll, hword]
      simp only [hi]

/-- The recovered file with more frames after it: the next replay applies them too. -/
theorem Recovered.append {sizes : List ℕ} {x : Bytes} {r : Replayed host}
    {frames appended : List Frame} {db db' : Db host} (h : Recovered now sizes x r frames db)
    (hread : ∀ frame ∈ appended, Readable frame) (ha : applyFrames now appended db = some db') :
    replay now (Db.new : Db host) (readPieces sizes (r.file ++ encodeAll appended)) =
      ⟨r.applied + appended.length, db', r.file ++ encodeAll appended⟩ := by
  obtain ⟨ws, b, hfile, hw, hb⟩ := h.words
  obtain ⟨vs, tail, heq, hv, ht⟩ := words_of_blank hb (words_wire hread)
  obtain ⟨junk, hx⟩ := h.isPrefix
  have hflat : (readPieces sizes (r.file ++ encodeAll appended)).flatten = ws ++ vs ++ tail := by
    rw [flatten_readPieces, hfile, encodeAll_eq, List.append_assoc, heq, List.append_assoc]
  have happly : applyFrames now (frames ++ appended) (Db.new : Db host) = some db' := by
    rw [applyFrames_append, h.frames, Option.bind_some, ha]
  have hpoints : ∀ i, Awaits (readTo sizes i (r.file ++ encodeAll appended)) := by
    intro i
    have hwhole : ∀ y, y <+: encodeAll appended → Awaits (r.file ++ y) := fun y ⟨z, hz⟩ => by
      rw [hfile, List.append_assoc]
      exact (awaits_of_blank hb (awaits_of_readable hread (hz.trans (encodeAll_eq _)))).words hw
    by_cases hlen : (readTo sizes i (r.file ++ encodeAll appended)).length ≤ r.file.length
    · rcases readTo_append junk hlen with hsame | ⟨hnil, hall⟩
      · rw [hx] at hsame
        rw [hsame] at hlen ⊢
        exact h.points i hlen
      · rw [hall]
        simpa using hwhole [] (List.nil_prefix)
    · have hpre := readTo_prefix sizes i (r.file ++ encodeAll appended)
      obtain ⟨y, hy⟩ := List.prefix_of_prefix_length_le (List.prefix_append r.file _) hpre
        (by omega)
      rw [← hy] at hpre ⊢
      exact hwhole y ((List.prefix_append_right_inj r.file).mp hpre)
  have hreplay := replay_awaits hflat (hw.append hv) happly ht fun i =>
    flatten_take_readPieces sizes (r.file ++ encodeAll appended) i ▸ hpoints i
  rw [hreplay, flatten_readPieces, List.length_append, h.applied]
  rfl

/-- After any damage the file holds just the frames that were applied, and the next replay
applies them again, with whatever frames of commands were appended and truncating nothing. -/
theorem recovered_file_appendable (now : ExpireAt) (sizes : List ℕ) (x : Bytes) :
    ∃ (frames : List Frame) (db : Db host),
      let first := replay now (Db.new : Db host) (readPieces sizes x)
      first.file <+: x ∧ parseAll (first.file.length + 1) first.file = (frames, .waiting []) ∧
      first.applied = frames.length ∧ applyFrames now frames (Db.new : Db host) = some db ∧
      first.db.view now = db.view now ∧
      (first.db = db ∨ ∃ cmd : Command, cmd.FromClient ∧ (cmd.apply now db).1.isError = true ∧
        first.db = (cmd.apply now db).2) ∧
      ∀ (appended : List Frame) (db' : Db host), (∀ frame ∈ appended, Logged frame) →
        (∀ frame ∈ appended, (encode frame []).length ≤ maxAofBufferedFrameBytes) →
        applyFrames now appended db = some db' →
        replay now (Db.new : Db host) (readPieces sizes (first.file ++ encodeAll appended)) =
          ⟨first.applied + appended.length, db', first.file ++ encodeAll appended⟩ := by
  obtain ⟨frames, db, h⟩ := replay_recovered host now sizes x
  refine ⟨frames, db, h.isPrefix, ?_, h.applied, h.frames, h.view, h.db, ?_⟩
  · obtain ⟨ws, b, hfile, hw, hb⟩ := h.words
    rw [hfile]
    exact parseAll_words hw hb (Nat.lt_succ_self _)
  · intro appended db' hlogged hlen ha
    exact h.append (fun f hf => (hlogged f hf).readable (hlen f hf)) ha

/-- The second of two appends is cut, the file is repaired, and a `SET` is appended to it. -/
theorem recovered_file_appendable_set :
    let damaged := (encodeAll [Server.appendFrame, Server.appendFrame]).take 33
    let first := replay 0 (Db.new : Db Server.oneShard) (readPieces [7] damaged)
    ∃ db : Db Server.oneShard, first.db.view 0 = db.view 0 ∧
      replay 0 (Db.new : Db Server.oneShard)
          (readPieces [7] (first.file ++ encodeAll [Server.setFrame])) =
        ⟨first.applied + 1, ((Command.set [107] [118] (some 1100)).apply 0 db).2,
          first.file ++ encodeAll [Server.setFrame]⟩ := by
  obtain ⟨frames, db, -, -, -, -, hview, -, happend⟩ :=
    @recovered_file_appendable Server.oneShard 0 [7]
      ((encodeAll [Server.appendFrame, Server.appendFrame]).take 33)
  have hlogged : Logged Server.setFrame :=
    ⟨.set [107] [118] (some 1100), 0, Server.fromClient_set, rfl⟩
  have ha : applyFrames 0 [Server.setFrame] db =
      some ((Command.set [107] [118] (some 1100)).apply 0 db).2 :=
    Option.bind_eq_some_iff.mpr
      ⟨_, applyFrame_eq_some.mpr ⟨_, Server.fromFrame_setFrame 0, rfl, rfl⟩, rfl⟩
  exact ⟨db, hview, happend [Server.setFrame] _ (List.forall_mem_singleton.mpr hlogged)
    (List.forall_mem_singleton.mpr (by decide)) ha⟩

end MiniRedis.Aof
