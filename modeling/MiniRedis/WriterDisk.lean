import MiniRedis.DurableFiles
import MiniRedis.WriterRollback

/-!
# The writer task and the disk

The calls that the writer makes on the disk for one message, in the order in which it makes
them, and the time of its last sync. The file of the writer is what a reader of the disk
finds behind the path.
-/
namespace MiniRedis.Aof
open DurableFiles Runs Wire

namespace Writer

/-- The write in flight reaches the disk. -/
def landCalls (file : QueuedFile UInt8) : List (Call UInt8) :=
  if file.inFlight.isSome then [.append file.landing] else []

/-- What reaches the disk during `write_all`. -/
def pushCalls (bytes : Bytes) (start : ℕ) (result : PushResult) (file : QueuedFile UInt8) :
    List (Call UInt8) :=
  if bytes.isEmpty then []
  else landCalls file ++
    match file.settle.error with
    | some _ => []
    | none =>
        match result with
        | .error (n, _) => [.append (bytes.take n)]
        | .ok _ => [.append (bytes.take start)]

/-- The calls of `rollback_active_file`; how its sync ends is ignored by the source. -/
def rollbackCalls (previousLen : ℕ) (setLenResult : CallResult) (synced : Bool)
    (file : QueuedFile UInt8) : List (Call UInt8) :=
  landCalls file ++
    match setLenResult with
    | .ok () => [.resize previousLen 0, .sync synced]
    | .error _ => []

def writeCalls (policy : FsyncPolicy) (bytes : Bytes) (calls : WriteCalls) (synced : Bool)
    (w : Writer) : List (Call UInt8) :=
  if w.stats.writeFailed then []
  else
    let previousLen := w.stats.currentSize
    let start := lastPiece maxFileBufSize bytes.length
    pushCalls bytes start (calls.writeAll.push start) w.file ++
      match w.writeOne bytes previousLen calls.writeAll with
      | (.error _, w) => rollbackCalls previousLen calls.setLen synced w.file
      | (.ok (), w) =>
          if syncs policy calls.elapsed then
            landCalls w.file ++ .sync calls.syncData.isOk ::
              match calls.syncData with
              | .ok () => []
              | .error _ => rollbackCalls previousLen calls.setLen synced w.file.settle
          else []

/-- What a failed append leaves in the temporary file is not seen again. -/
def finishCalls (policy : FsyncPolicy) (calls : FinishCalls) (w : Writer) : List (Call UInt8) :=
  match w.rewriteBuffer, calls.openTemp with
  | some buffer, .ok temp =>
      match QueuedFile.push buffer.frames.flatten 0 calls.append { bytes := temp } with
      | (.error _, _) => []
      | (.ok (), file) =>
          [.openTemp temp, .appendTemp file.landing, .syncTemp calls.syncTemp.isOk] ++
            match calls.syncTemp, calls.rename with
            | .ok (), .ok () => .rename :: .syncDir calls.syncParent.isOk ::
                if policy = .always then [.sync calls.syncActive.isOk] else []
            | _, _ => []
  | _, _ => []

/-- A volume that has what the writer has put on it, of which a crash leaves something between
`lo` and `hi`. -/
structure Holds (lo hi : Bytes) (file : QueuedFile UInt8) (v : Volume UInt8) : Prop where
  within : v.Within lo hi
  bytes : v.file.bytes = file.bytes

/-- The file of the writer on the disk. -/
structure Kept (lo hi : Bytes) (w : Writer) (v : Volume UInt8) : Prop extends
    Holds lo hi w.file v where
  /-- Until a sync has failed, the syncs can be trusted. -/
  trusted : w.stats.writeFailed = false → v.file.doubtful = false

variable {policy : FsyncPolicy} {w : Writer} {v : Volume UInt8} {lo hi : Bytes}
  {file : QueuedFile UInt8}

/-- Some more bytes reach the disk. -/
theorem Holds.append (h : Holds lo hi file v) {data : Bytes} (hd : file.bytes ++ data <+: hi) :
    v.WithinDuring lo hi [.append data] ∧ (v.call (.append data)).Within lo hi ∧
      (v.call (.append data)).file.bytes = file.bytes ++ data := by
  have happend : (v.call (.append data)).Within lo hi := h.within.append (h.bytes ▸ hd)
  refine ⟨Volume.withinDuring_cons h.within (Volume.withinDuring_nil happend), happend, ?_⟩
  exact (File.bytes_put _ _).trans (h.bytes ▸ rfl)

theorem Holds.land (h : Holds lo hi file v) (hc : file.contents <+: hi) :
    v.WithinDuring lo hi (landCalls file) ∧
      Holds lo hi file.settle (run Volume.call (landCalls file) v) ∧
      (run Volume.call (landCalls file) v).file.doubtful = v.file.doubtful := by
  have hbytes := file.bytes_landing
  unfold landCalls
  split_ifs with hf
  · obtain ⟨hduring, hwithin, hdata⟩ := h.append (hbytes.symm ▸ hc)
    exact ⟨hduring, ⟨hwithin, hdata.trans hbytes⟩, rfl⟩
  · have hnone : file.inFlight = none := by simpa using hf
    rw [QueuedFile.settle_of_none hnone]
    exact ⟨Volume.withinDuring_nil h.within, h, rfl⟩

theorem Holds.push (h : Holds lo hi file v) {bytes : Bytes} (start : ℕ) (result : PushResult)
    (hc : file.contents ++ bytes <+: hi) :
    v.WithinDuring lo hi (pushCalls bytes start result file) ∧
      Holds lo hi (file.push bytes start result).2
        (run Volume.call (pushCalls bytes start result file) v) ∧
      (run Volume.call (pushCalls bytes start result file) v).file.doubtful =
        v.file.doubtful := by
  obtain ⟨hduring, hland, hdoubt⟩ := h.land ((List.prefix_append _ _).trans hc)
  have hpart : ∀ n, file.settle.bytes ++ bytes.take n <+: hi := fun n =>
    ((List.prefix_append_right_inj _).mpr (List.take_prefix n bytes)).trans hc
  unfold pushCalls QueuedFile.push
  split_ifs
  · exact ⟨Volume.withinDuring_nil h.within, h, rfl⟩
  · rw [run_append]
    cases he : file.settle.error with
    | some e =>
        rw [List.append_nil]
        exact ⟨hduring, ⟨hland.within, hland.bytes⟩, hdoubt⟩
    | none =>
        rcases result with ⟨n, e⟩ | late
        · obtain ⟨hmore, hwithin, hdata⟩ := hland.append (hpart n)
          exact ⟨Volume.withinDuring_append hduring hmore, ⟨hwithin, hdata⟩, hdoubt⟩
        · obtain ⟨hmore, hwithin, hdata⟩ := hland.append (hpart start)
          exact ⟨Volume.withinDuring_append hduring hmore, ⟨hwithin, hdata⟩, hdoubt⟩

/-- A rollback behind an append, with a sync of it or without. -/
theorem Holds.rollback (h : Holds lo hi file v) {old bytes : Bytes}
    (hc : file.contents = old ++ bytes) (hi' : file.contents <+: hi) (hl : lo <+: old)
    (synced : Bool) :
    v.WithinDuring lo hi (rollbackCalls old.length (.ok ()) synced file) ∧
      (run Volume.call (rollbackCalls old.length (.ok ()) synced file) v).Within lo hi ∧
      (run Volume.call (rollbackCalls old.length (.ok ()) synced file) v).file.bytes = old := by
  obtain ⟨hduring, hland, -⟩ := h.land hi'
  obtain ⟨hcut, hold⟩ := hland.within.resize (hland.bytes.trans hc) hl 0
  have hmore := Volume.withinDuring_cons hland.within (Volume.withinDuring_cons hcut
    (Volume.withinDuring_nil (hcut.sync synced)))
  unfold rollbackCalls
  rw [run_append]
  exact ⟨Volume.withinDuring_append hduring hmore, hcut.sync synced,
    (File.bytes_sync _ _).trans hold⟩

theorem bufferFrame_writeFailed (bytes : Bytes) (w : Writer) :
    (w.bufferFrame bytes).stats.writeFailed = w.stats.writeFailed := by
  unfold bufferFrame
  cases w.rewriteBuffer with
  | none => rfl
  | some buffer =>
      dsimp only
      cases buffer.push bytes <;> rfl

theorem Refiled.writeFailed {w' : Writer} (h : w.Refiled w') :
    w'.stats.writeFailed = w.stats.writeFailed := by
  obtain ⟨file, size, rfl⟩ := h
  rfl

theorem Kept.bufferFrame (h : w.Kept lo hi v) (bytes : Bytes) :
    (w.bufferFrame bytes).Kept lo hi v where
  within := h.within
  bytes := h.bytes.trans (congrArg _ (bufferFrame_file bytes w).1.symm)
  trusted hf := h.trusted ((bufferFrame_writeFailed bytes w).symm.trans hf)

/-- A sync that succeeds, while the syncs can be trusted. -/
theorem Kept.synced (h : w.Kept lo hi v) (hf : w.stats.writeFailed = false) :
    w.Kept w.file.bytes w.file.bytes (v.call (.sync true)) where
  within := ⟨h.bytes ▸ File.between_sync (h.trusted hf), h.within.former⟩
  bytes := (File.bytes_sync _ _).trans h.bytes
  trusted hf := (File.doubtful_sync_true _).trans (h.trusted hf)

/-- A write that fails: what a crash leaves may have a part of it. -/
theorem rollback_kept (e : String) (h : w.InSync) {bytes : Bytes} (w₁ : Writer)
    (hw : w₁.file.contents = w.file.contents ++ bytes) (hv : Holds lo hi w₁.file v)
    (hhi : w₁.file.contents <+: hi) (hl : lo <+: w.file.contents) (synced : Bool) :
    v.WithinDuring lo hi (rollbackCalls w.stats.currentSize (.ok ()) synced w₁.file) ∧
      ((w₁.rollbackActiveFile w.stats.currentSize (.ok ())).markWriteFailed e).Kept lo hi
        (run Volume.call (rollbackCalls w.stats.currentSize (.ok ()) synced w₁.file) v) := by
  obtain ⟨hduring, hwithin, hold⟩ := hv.rollback hw hhi hl synced
  have hcontents := (rollback_appended h w₁ hw).1
  rw [← show w.stats.currentSize = w.file.contents.length from h] at hduring hwithin hold
  have hsettled : (w₁.rollbackActiveFile w.stats.currentSize (.ok ())).file.inFlight = none :=
    w₁.file.settle_inFlight
  rw [QueuedFile.contents_of_none hsettled] at hcontents
  exact ⟨hduring, ⟨hwithin, hold.trans hcontents.symm⟩, fun hf => by cases hf⟩

/-- The calls for a write that is not refused. -/
theorem write_kept (policy : FsyncPolicy) (h : w.Kept lo w.file.contents v)
    (hf : w.stats.writeFailed = false) (hs : w.InSync) (bytes : Bytes) {calls : WriteCalls}
    (hset : calls.setLen = .ok ())
    (hn : calls.failsUnnoticed policy bytes = false) (synced : Bool) :
    v.WithinDuring lo (w.file.contents ++ bytes) (w.writeCalls policy bytes calls synced) ∧
    match (w.write policy bytes calls).1 with
    | .ok () => (w.write policy bytes calls).2.Kept
        (if syncs policy calls.elapsed then w.file.contents ++ bytes else lo)
        (w.file.contents ++ bytes)
        (run Volume.call (w.writeCalls policy bytes calls synced) v)
    | .error _ => (w.write policy bytes calls).2.Kept lo (w.file.contents ++ bytes)
        (run Volume.call (w.writeCalls policy bytes calls synced) v) ∧
      (w.write policy bytes calls).2.stats.writeFailed = true := by
  have hlo : lo <+: w.file.contents := by
    rw [← w.file.bytes_landing, ← h.bytes]
    exact (h.within.file _ v.file.bytes_mem).1.trans (List.prefix_append _ _)
  have hwithin : Holds lo (w.file.contents ++ bytes) w.file v :=
    ⟨h.within.mono List.prefix_rfl (List.prefix_append _ _), h.bytes⟩
  obtain ⟨hduring, hpush, hdoubt⟩ := hwithin.push (lastPiece maxFileBufSize bytes.length)
    (calls.writeAll.push (lastPiece maxFileBufSize bytes.length)) List.prefix_rfl
  obtain ⟨⟨n, hsome⟩, hok⟩ := w.writeOne_spec bytes w.stats.currentSize calls.writeAll
  have hrefiled := w.writeOne_refiled bytes w.stats.currentSize calls.writeAll
  rw [← writeOne_file bytes w.stats.currentSize] at hpush
  unfold write writeCalls writeFrame
  dsimp only
  rw [hf, hset, if_neg Bool.false_ne_true, if_neg Bool.false_ne_true]
  cases hw : w.writeOne bytes w.stats.currentSize calls.writeAll with
  | mk result w₁ =>
      rw [hw] at hsome hok hpush hrefiled
      have hhi : w₁.file.contents <+: w.file.contents ++ bytes :=
        hsome ▸ (List.prefix_append_right_inj _).mpr (List.take_prefix n bytes)
      cases result with
      | error e =>
          obtain ⟨hback, hkept⟩ := rollback_kept e hs w₁ hsome hpush hhi hlo synced
          refine ⟨Volume.withinDuring_append hduring hback, ?_, rfl⟩
          rw [run_append]
          exact hkept
      | ok =>
          have htrusted : w₁.stats.writeFailed = false →
              (run Volume.call (pushCalls bytes (lastPiece maxFileBufSize bytes.length)
                (calls.writeAll.push (lastPiece maxFileBufSize bytes.length)) w.file)
                v).file.doubtful = false := fun _ => hdoubt.trans (h.trusted hf)
          unfold syncAfterWrite
          dsimp only
          cases hsync : syncs policy calls.elapsed with
          | false =>
              rw [if_neg Bool.false_ne_true, if_neg Bool.false_ne_true,
                if_neg Bool.false_ne_true, List.append_nil]
              exact ⟨hduring, Kept.bufferFrame ⟨hpush, htrusted⟩ bytes⟩
          | true =>
              obtain ⟨hland, hlanded, hdoubt'⟩ := hpush.land hhi
              rw [if_pos rfl, if_pos rfl, if_pos rfl]
              cases hd : calls.syncData with
              | error e =>
                  have hsynced : Holds lo (w.file.contents ++ bytes) w₁.settle.file _ :=
                    ⟨hlanded.within.sync false, (File.bytes_sync _ _).trans hlanded.bytes⟩
                  obtain ⟨hback, hkept⟩ := rollback_kept e hs w₁.settle
                    (w₁.settle_contents.trans hsome) hsynced (w₁.settle_contents.symm ▸ hhi) hlo
                    synced
                  have hafter := Volume.withinDuring_cons hlanded.within hback
                  refine ⟨Volume.withinDuring_append hduring
                    (Volume.withinDuring_append hland hafter), ?_, rfl⟩
                  rw [run_append, run_append]
                  exact hkept
              | ok u =>
                  cases u
                  have hafter := Volume.withinDuring_cons hlanded.within
                    (Volume.withinDuring_nil (hlanded.within.sync true))
                  refine ⟨Volume.withinDuring_append hduring
                    (Volume.withinDuring_append hland hafter), ?_⟩
                  have hwhole : w₁.file.contents = w.file.contents ++ bytes := by
                    rw [WriteCalls.failsUnnoticed, hsync, hd] at hn
                    exact (hok rfl).2 ((Bool.and_true _).symm.trans hn)
                  have hsettled : w₁.settle.Kept lo (w.file.contents ++ bytes) _ :=
                    ⟨hlanded, fun hf => hdoubt'.trans (htrusted hf)⟩
                  have hsynced := hsettled.synced (hrefiled.writeFailed.trans hf)
                  rw [show w₁.settle.file.bytes = _ from hwhole] at hsynced
                  rw [run_append, run_append]
                  exact hsynced.bufferFrame bytes

/-! ## The end of a rewrite -/

/-- The file that a `FinishRewrite` renames, if it comes to that. -/
def renamed (calls : FinishCalls) (w : Writer) : Option (QueuedFile UInt8) :=
  w.rewriteBuffer.bind fun buffer => (replacement calls buffer).toOption

theorem switchTo_writeFailed (policy : FsyncPolicy) (calls : FinishCalls)
    (file : QueuedFile UInt8) (w : Writer) :
    (w.switchTo policy calls file).2.stats.writeFailed = w.stats.writeFailed := by
  unfold switchTo
  dsimp only
  split <;> rfl

theorem finishRewrite_file (policy : FsyncPolicy) (calls : FinishCalls) (w : Writer) :
    (w.finishRewrite policy calls).2.file = (w.renamed calls).getD w.file := by
  unfold finishRewrite renamed
  cases w.rewriteBuffer with
  | none => rfl
  | some buffer =>
      dsimp only [Option.bind_some]
      cases replacement calls buffer with
      | error e => rfl
      | ok file => exact switchTo_file calls file _

/-- Nothing is in flight to a file that was synced before it was renamed. -/
theorem renamed_inFlight {calls : FinishCalls} {file : QueuedFile UInt8}
    (h : w.renamed calls = some file) : file.inFlight = none := by
  unfold renamed at h
  obtain ⟨buffer, -, hr⟩ := Option.bind_eq_some_iff.mp h
  cases hrep : replacement calls buffer with
  | error e =>
      rw [hrep] at hr
      cases hr
  | ok new =>
      rw [hrep] at hr
      obtain rfl := Option.some.inj hr
      obtain ⟨temp, -, rfl⟩ := replacement_eq_ok.mp hrep
      exact QueuedFile.settle_inFlight _

theorem finishRewrite_writeFailed (policy : FsyncPolicy) (calls : FinishCalls) (w : Writer) :
    (w.finishRewrite policy calls).2.stats.writeFailed = w.stats.writeFailed := by
  unfold finishRewrite
  cases w.rewriteBuffer with
  | none => rfl
  | some buffer =>
      dsimp only
      cases replacement calls buffer with
      | error e => rfl
      | ok file => exact switchTo_writeFailed policy calls file _

theorem finishRewrite_not_renamed {calls : FinishCalls} (h : w.renamed calls = none) :
    (w.finishRewrite policy calls).1.isOk = false := by
  unfold finishRewrite
  unfold renamed at h
  cases hb : w.rewriteBuffer with
  | none => rfl
  | some buffer =>
      rw [hb, Option.bind_some] at h
      dsimp only
      cases hr : replacement calls buffer with
      | error e => rfl
      | ok file =>
          rw [hr] at h
          cases h

/-- The calls on the temporary file alone. -/
theorem temp_within (h : v.Within lo hi) (temp frames : Bytes) (synced : Bool) :
    v.WithinDuring lo hi [.openTemp temp, .appendTemp frames, .syncTemp synced] :=
  Volume.withinDuring_cons h (Volume.withinDuring_cons ⟨h.file, h.former⟩
    (Volume.withinDuring_cons ⟨h.file, h.former⟩ (Volume.withinDuring_nil ⟨h.file, h.former⟩)))

/-- The calls from the rename on, for a temporary file that is on the disk. -/
theorem rename_kept (h : w.Kept lo hi v) {new : QueuedFile UInt8}
    (ht : v.temp = { synced := new.bytes })
    {calls : FinishCalls} (hparent : calls.syncParent = .ok ())
    (hactive : policy = .always → calls.syncActive = .ok ()) (w' : Writer) :
    let tail := .rename :: .syncDir calls.syncParent.isOk ::
      if policy = .always then [.sync calls.syncActive.isOk] else []
    (∀ image, v.SurvivesDuring tail image → (lo <+: image ∧ image <+: hi) ∨ image = new.bytes) ∧
      (w'.switchTo policy calls new).2.Kept new.bytes new.bytes (run Volume.call tail v) := by
  have hnew : ({ synced := new.bytes } : File UInt8).Between new.bytes new.bytes := fun c hc => by
    rw [List.mem_singleton.mp hc]
    exact ⟨List.prefix_rfl, List.prefix_rfl⟩
  have heq : ∀ image, ({ file := { synced := new.bytes } } : Volume UInt8).Survives image →
      image = new.bytes := fun image hs =>
    have hb := Volume.Within.survives ⟨hnew, rfl⟩ hs
    (List.IsPrefix.eq_of_length_le hb.2 hb.1.length_le)
  have hbetween : ∀ image, (v.call .rename).Survives image →
      (lo <+: image ∧ image <+: hi) ∨ image = new.bytes := by
    rintro image (hs | ⟨f, hf, hs⟩)
    · exact .inr (heq image (.inl (ht ▸ hs)))
    · rcases List.mem_cons.mp hf with rfl | hf
      · exact .inl (h.within.file.survives hs)
      · rw [h.within.former] at hf
        cases hf
  have hrenamed : (v.call .rename).call (.syncDir true) = { file := { synced := new.bytes } } := by
    unfold Volume.call
    dsimp only
    rw [ht]
    rfl
  have hsynced : ((v.call .rename).call (.syncDir true)).call (.sync true) =
      { file := { synced := new.bytes } } := by
    rw [hrenamed]
    rfl
  have hwriter : ∀ v' : Volume UInt8, v' = { file := { synced := new.bytes } } →
      (w'.switchTo policy calls new).2.Kept new.bytes new.bytes v' := by
    rintro v' rfl
    exact ⟨⟨⟨hnew, rfl⟩, by rw [switchTo_file]; rfl⟩, fun _ => rfl⟩
  dsimp only
  rw [hparent]
  by_cases hp : policy = .always
  · rw [if_pos hp, hactive hp]
    refine ⟨fun image hs => ?_, hwriter _ hsynced⟩
    rw [Volume.survivesDuring_cons, Volume.survivesDuring_cons, Volume.survivesDuring_cons,
      Volume.survivesDuring_nil] at hs
    rcases hs with hs | hs | hs | hs
    · exact .inl (h.within.survives hs)
    · exact hbetween image hs
    · exact .inr (heq image (hrenamed ▸ hs))
    · exact .inr (heq image (hsynced ▸ hs))
  · rw [if_neg hp]
    refine ⟨fun image hs => ?_, hwriter _ hrenamed⟩
    rw [Volume.survivesDuring_cons, Volume.survivesDuring_cons, Volume.survivesDuring_nil] at hs
    rcases hs with hs | hs | hs
    · exact .inl (h.within.survives hs)
    · exact hbetween image hs
    · exact .inr (heq image (hrenamed ▸ hs))

/-- What is in the temporary file when it is synced. -/
theorem temp_bytes {frames temp : Bytes} {append : PushResult} {file : QueuedFile UInt8}
    (h : QueuedFile.push frames 0 append { bytes := temp } = (.ok (), file)) :
    temp ++ file.landing = file.settle.bytes := by
  have hbytes : file.bytes = temp := by
    rcases QueuedFile.push_ok (congrArg Prod.fst h) with ⟨-, hf⟩ | ⟨late, -, -, hf⟩
    · rw [h] at hf
      exact congrArg QueuedFile.bytes hf
    · rw [h] at hf
      exact (congrArg QueuedFile.bytes hf).trans (List.append_nil temp)
  rw [QueuedFile.settle_bytes, ← file.bytes_landing, hbytes]

/-- All calls for a `FinishRewrite`. A crash finds the old file or the new one; which of the
two is left at the end, the rename decides. -/
theorem finish_kept (policy : FsyncPolicy) (h : w.Kept lo hi v) {calls : FinishCalls}
    (hparent : calls.syncParent = .ok ()) (hactive : policy = .always → calls.syncActive = .ok ()) :
    (∀ image, v.SurvivesDuring (w.finishCalls policy calls) image →
      (lo <+: image ∧ image <+: hi) ∨ ∃ new, w.renamed calls = some new ∧ image = new.bytes) ∧
    match w.renamed calls with
    | none => (w.finishRewrite policy calls).2.Kept lo hi
        (run Volume.call (w.finishCalls policy calls) v)
    | some new => (w.finishRewrite policy calls).2.Kept new.bytes new.bytes
        (run Volume.call (w.finishCalls policy calls) v) := by
  have hkept : ∀ v' : Volume UInt8, v'.file = v.file → v'.former = v.former →
      ({ w with rewriteBuffer := none } : Writer).Kept lo hi v' := fun v' hfile hformer =>
    ⟨⟨⟨hfile ▸ h.within.file, hformer ▸ h.within.former⟩, hfile ▸ h.bytes⟩, hfile ▸ h.trusted⟩
  have hquiet : ∀ calls' : List (Call UInt8), v.WithinDuring lo hi calls' →
      ∀ image, v.SurvivesDuring calls' image → (lo <+: image ∧ image <+: hi) ∨
        ∃ new, w.renamed calls = some new ∧ image = new.bytes :=
    fun calls' hw image hs => .inl (hw.survives hs)
  unfold finishCalls finishRewrite
  cases hb : w.rewriteBuffer with
  | none =>
      have hnone : w.renamed calls = none := by rw [renamed, hb]; rfl
      rw [hnone] at hquiet ⊢
      exact ⟨hquiet [] (Volume.withinDuring_nil h.within), h⟩
  | some buffer =>
      have hrenamed : w.renamed calls = (replacement calls buffer).toOption := by
        rw [renamed, hb]
        rfl
      rw [hrenamed] at hquiet ⊢
      unfold replacement at hquiet ⊢
      cases ho : calls.openTemp with
      | error e =>
          rw [ho] at hquiet
          exact ⟨hquiet [] (Volume.withinDuring_nil h.within), hkept v rfl rfl⟩
      | ok temp =>
          rw [ho] at hquiet
          dsimp only [bind, Except.bind] at hquiet ⊢
          cases hp : QueuedFile.push buffer.frames.flatten 0 calls.append { bytes := temp } with
          | mk answer file =>
              rw [hp] at hquiet
              cases answer with
              | error e => exact ⟨hquiet [] (Volume.withinDuring_nil h.within), hkept v rfl rfl⟩
              | ok =>
                  have htemp := temp_within h.within temp file.landing
                  cases hs : calls.syncTemp with
                  | error e =>
                      rw [hs] at hquiet
                      exact ⟨hquiet _ (htemp false), hkept _ rfl rfl⟩
                  | ok =>
                      rw [hs] at hquiet
                      cases hr : calls.rename with
                      | error e =>
                          rw [hr] at hquiet
                          exact ⟨hquiet _ (htemp true), hkept _ rfl rfl⟩
                      | ok =>
                          have h₃ : w.Kept lo hi (run Volume.call
                              [.openTemp temp, .appendTemp file.landing, .syncTemp true] v) :=
                            ⟨⟨(htemp true).after, h.bytes⟩, h.trusted⟩
                          have hnew : (run Volume.call
                              [.openTemp temp, .appendTemp file.landing, .syncTemp true]
                              v).temp = { synced := file.settle.bytes } := by
                            rw [← temp_bytes hp]
                            rfl
                          obtain ⟨himage, hafter⟩ := rename_kept h₃ hnew hparent hactive
                            { w with rewriteBuffer := none }
                          refine ⟨fun image hsurvives => ?_, hafter⟩
                          rcases Volume.survivesDuring_append hsurvives with hs | hs
                          · exact .inl ((htemp true).survives hs)
                          · exact (himage image hs).imp_right fun heq => ⟨_, rfl, heq⟩

/-- The calls for a tick of the timer. -/
def tickCalls (syncData : CallResult) (w : Writer) : List (Call UInt8) :=
  landCalls w.file ++ [.sync syncData.isOk]

theorem land_kept (h : w.Kept lo hi v) (hc : w.file.contents <+: hi) :
    v.WithinDuring lo hi (landCalls w.file) ∧
      w.settle.Kept lo hi (run Volume.call (landCalls w.file) v) := by
  obtain ⟨hduring, hland, hdoubt⟩ := h.land hc
  exact ⟨hduring, hland, fun hf => hdoubt.trans (h.trusted hf)⟩

theorem tick_kept (h : w.Kept lo hi v) (hc : w.file.contents <+: hi) (syncData : CallResult) :
    v.WithinDuring lo hi (w.tickCalls syncData) ∧
      (w.tick syncData).Kept lo hi (run Volume.call (w.tickCalls syncData) v) ∧
      (syncData = .ok () → w.stats.writeFailed = false →
        (w.tick syncData).Kept w.file.contents w.file.contents
          (run Volume.call (w.tickCalls syncData) v)) := by
  obtain ⟨hduring, hland⟩ := w.land_kept h hc
  have hwithin := hland.within.sync syncData.isOk
  have hbytes : ∀ v' : Volume UInt8, v'.file.bytes = w.settle.file.bytes →
      (v'.call (.sync syncData.isOk)).file.bytes = w.settle.file.bytes :=
    fun v' hb => (File.bytes_sync _ _).trans hb
  unfold tickCalls
  rw [run_append]
  refine ⟨Volume.withinDuring_append hduring
    (Volume.withinDuring_cons hland.within (Volume.withinDuring_nil hwithin)), ?_, ?_⟩
  · cases syncData with
    | error e => exact ⟨⟨hwithin, hbytes _ hland.bytes⟩, fun hf => by cases hf⟩
    | ok =>
        exact ⟨⟨hwithin, hbytes _ hland.bytes⟩,
          fun hf => (File.doubtful_sync_true _).trans (hland.trusted hf)⟩
  · rintro rfl hf
    exact hland.synced hf

end Writer

namespace WriterStep

/-- The calls on the disk that are made for a message or by the timer. -/
def diskCalls (policy : FsyncPolicy) (synced : Bool) (w : Writer) : WriterStep → List (Call UInt8)
  | .write bytes calls => w.writeCalls policy bytes calls synced
  | .finishRewrite calls => w.finishCalls policy calls
  | .tick syncData => if policy = .everySec then w.tickCalls syncData else []
  | .land => Writer.landCalls w.file
  | .startRewrite | .abortRewrite _ => []

/-- `last_sync` after the step, if `now` is what the clock says behind the calls. -/
def lastSync (policy : FsyncPolicy) (w : Writer) (last now : ℕ) : WriterStep → ℕ
  | .write bytes calls =>
      if (w.write policy bytes calls).1.isOk && Writer.syncs policy calls.elapsed then now
      else last
  | .finishRewrite calls => if (w.finishRewrite policy calls).1.isOk then now else last
  | .tick _ => if policy = .everySec then now else last
  | .startRewrite | .abortRewrite _ | .land => last

end WriterStep
end MiniRedis.Aof
