import MiniRedis.ChunkSearch
import MiniRedis.Connection
import MiniRedis.SnapshotRestore

/-!
# What a rewrite can encode

A rewrite writes every live entry, or fails. It fails at an entry that has no commands
within the limit of the replay: a string whose `SET` is too long and whose key leaves no
room for an `APPEND`, an element or a field that is too long for a command of its own, or
a key that leaves no room for the deadline. Commands with a shorter name, a shorter
deadline or no value can create such entries.
-/
namespace MiniRedis.Aof
open Wire PrefixCode ParserRoundTrip GreedyPacking MiniRedis.Command

variable {host : Host}

/-! ## Frames -/

theorem frameIsReplayable_iff {frame : Frame} :
    frameIsReplayable frame = true ↔ (wire frame).length ≤ maxAofBufferedFrameBytes := by
  have hmax : maxAofBufferedFrameBytes < 2 ^ 64 := by decide
  rw [frameIsReplayable, encodedLen_eq, usize?]
  split_ifs with h
  · simp
  · simp only [Option.any_none, Bool.false_eq_true, false_iff]
    omega

theorem frameIsReplayable_command (args : List Bytes) :
    frameIsReplayable (commandFrame args) = fitsFrame args := by
  rw [Bool.eq_iff_iff, frameIsReplayable_iff, fitsFrame, decide_eq_true_iff]

/-- A frame is written if and only if it is replayable. -/
theorem writeReplayableSnapshotFrame_iff {frame : Frame} :
    (∃ bytes, writeReplayableSnapshotFrame frame = .ok bytes) ↔ frameIsReplayable frame = true := by
  unfold writeReplayableSnapshotFrame frameIsReplayable
  cases encodedLen frame with
  | none => simp [okOr, bind, Except.bind]
  | some len =>
      simp only [okOr, bind, Except.bind, Option.any_some, decide_eq_true_iff]
      split_ifs with h
      · exact iff_of_false (by simp) (not_le.mpr h)
      · exact iff_of_true ⟨_, rfl⟩ (not_lt.mp h)

/-- The deadline of an entry can be written. -/
def ExpiryReplayable (now : ExpireAt) (key : Bytes) (expiresAt : Option ExpireAt) : Prop :=
  ∀ deadline, expiresAt = some deadline → frameIsReplayable (expiryFrame now key deadline) = true

theorem writeExpirySnapshot_iff {now : ExpireAt} {key : Bytes} {expiresAt : Option ExpireAt} :
    (∃ bytes, writeExpirySnapshot now key expiresAt = .ok bytes) ↔
      ExpiryReplayable now key expiresAt := by
  cases expiresAt with
  | none => exact iff_of_true ⟨[], rfl⟩ fun _ h => by cases h
  | some deadline =>
      rw [writeExpirySnapshot, writeReplayableSnapshotFrame_iff]
      exact ⟨fun h d hd => Option.some.inj hd ▸ h, fun h => h deadline rfl⟩

/-! ## Runs -/

/-- The length of a command, bounded by those of its arguments. -/
theorem length_wire_command_le (args : List Bytes) :
    (wire (commandFrame args)).length ≤ 2 * argsLen args + 4 := by
  have hcount : args.length ≤ argsLen args := by
    have h := List.card_nsmul_le_sum (args.map fun a => bulkLen a.length) 1
      (List.forall_mem_map.mpr fun a _ => by unfold bulkLen; omega)
    rwa [List.length_map, Nat.nsmul_eq_mul, Nat.mul_one] at h
  have hdigits : (Numeral.decimal args.length).length ≤ args.length + 1 :=
    (Numeral.length_decimal_le_iff (Nat.succ_pos _)).mpr
      (Nat.lt_pow_self (by decide : 1 < 10) |>.trans (Nat.pow_lt_pow_succ (by decide)))
  rw [length_wire_args, headerLen]
  omega

theorem argsLen_le_of_fits {args : List Bytes} (h : fitsFrame args = true) :
    argsLen args ≤ maxAofBufferedFrameBytes := by
  have hle : (wire (commandFrame args)).length ≤ maxAofBufferedFrameBytes := of_decide_eq_true h
  rw [length_wire_args] at hle
  omega

section Runs
variable {A : Type} {name : String} {key : Bytes} {itemArgs : A → List Bytes}

/-- The functions of a loop over items return a length unless it overflows. -/
structure Chunking.Computes (c : Chunking A) (name : String) (key : Bytes)
    (itemArgs : A → List Bytes) : Prop where
  itemLen : ∀ {item}, argsLen (itemArgs item) < 2 ^ 64 →
    c.itemLen item = .ok (argsLen (itemArgs item))
  addLen : ∀ {m n}, m + n < 2 ^ 64 → c.addLen m n = .ok (m + n)
  frameLen : ∀ run, (wire (commandFrame (runCommand name key itemArgs run))).length < 2 ^ 64 →
    c.frameLen run.length (argsLen (run.flatMap itemArgs)) =
      .ok (wire (commandFrame (runCommand name key itemArgs run))).length

theorem argsLen_runCommand (run : List A) : argsLen (runCommand name key itemArgs run) =
    bulkLen (asBytes name).length + bulkLen key.length + argsLen (run.flatMap itemArgs) := by
  rw [runCommand, argsLen_cons, argsLen_cons, Nat.add_assoc]

/-- The loop succeeds on items that fit alone. -/
theorem writeChunks_ok {c : Chunking A} (hw : c.Writes name key itemArgs)
    (hc : c.Computes name key itemArgs) {items : List A} (current : List A)
    (hitems : ∀ item ∈ items, fitsFrame (runCommand name key itemArgs [item]) = true)
    (hcurrent : current ≠ [] → fitsFrame (runCommand name key itemArgs current) = true) :
    ∃ bytes, writeChunks c items current (argsLen (current.flatMap itemArgs)) = .ok bytes := by
  have write_ok : ∀ run, fitsFrame (runCommand name key itemArgs run) = true →
      ∃ bytes, c.write run = .ok bytes := by
    intro run hf
    rw [hw.write, writeReplayableSnapshotFrame_iff, frameIsReplayable_command]
    exact hf
  induction items generalizing current with
  | nil =>
      rw [writeChunks]
      split_ifs with hempty
      · exact ⟨[], rfl⟩
      · exact write_ok current (hcurrent fun hn => hempty (by rw [hn]; rfl))
  | cons item items ih =>
      obtain ⟨hitem, hitems⟩ := List.forall_mem_cons.mp hitems
      have hmax : 4 * maxAofBufferedFrameBytes + 4 < 2 ^ 64 := by decide
      -- neither the run so far nor the item is longer than a frame
      have hone := argsLen_le_of_fits hitem
      rw [argsLen_runCommand, List.flatMap_singleton] at hone
      have hsofar : argsLen (current.flatMap itemArgs) ≤ maxAofBufferedFrameBytes := by
        by_cases hn : current = []
        · rw [hn]
          exact Nat.zero_le _
        · have hf := argsLen_le_of_fits (hcurrent hn)
          rw [argsLen_runCommand] at hf
          omega
      have hsum : argsLen (current.flatMap itemArgs) + argsLen (itemArgs item) =
          argsLen ((current ++ [item]).flatMap itemArgs) := by
        rw [List.flatMap_append, argsLen_append, List.flatMap_singleton]
      have hframe := length_wire_command_le (runCommand name key itemArgs (current ++ [item]))
      rw [argsLen_runCommand, ← hsum] at hframe
      have hcount : current.length + 1 = (current ++ [item]).length := by simp
      simp only [writeChunks, bind, Except.bind,
        hc.itemLen (by omega : argsLen (itemArgs item) < _),
        hc.addLen (by omega : argsLen (current.flatMap itemArgs) + argsLen (itemArgs item) < _)]
      rw [hcount, hsum, hc.frameLen _ (by omega)]
      dsimp only
      split_ifs with hfits hempty
      · exact ih _ hitems fun _ => decide_eq_true hfits
      · rw [List.isEmpty_iff.mp hempty, List.nil_append] at hfits
        exact (hfits (of_decide_eq_true hitem)).elim
      · have hne : current ≠ [] := fun hn => hempty (by rw [hn]; rfl)
        have hsingle : (wire (commandFrame (runCommand name key itemArgs [item]))).length ≤
          maxAofBufferedFrameBytes := of_decide_eq_true hitem
        have hlen := hc.frameLen [item] (by omega)
        rw [List.flatMap_singleton, List.length_singleton] at hlen
        obtain ⟨chunk, hchunk⟩ := write_ok current (hcurrent hne)
        obtain ⟨rest, hrest⟩ := ih [item] hitems fun _ => hitem
        rw [List.flatMap_singleton] at hrest
        simp only [hchunk, hlen, hrest, if_neg (not_lt.mpr hsingle)]
        exact ⟨chunk ++ rest, rfl⟩

/-- A part of a run that fits a frame fits one. -/
theorem fitsFrame_of_mem {run : List A} {item : A}
    (h : fitsFrame (runCommand name key itemArgs run) = true) (hm : item ∈ run) :
    fitsFrame (runCommand name key itemArgs [item]) = true := by
  have hargs : (itemArgs item).length ≤ (run.flatMap itemArgs).length ∧
      argsLen (itemArgs item) ≤ argsLen (run.flatMap itemArgs) := by
    obtain ⟨before, after, rfl⟩ := List.append_of_mem hm
    rw [List.flatMap_append, List.flatMap_cons, argsLen_append, argsLen_append, List.length_append,
      List.length_append]
    constructor <;> omega
  have hle : (wire (commandFrame (runCommand name key itemArgs run))).length ≤
    maxAofBufferedFrameBytes := of_decide_eq_true h
  have hheader : headerLen (runCommand name key itemArgs [item]).length ≤
      headerLen (runCommand name key itemArgs run).length := by
    refine headerLen_mono ?_
    simp only [runCommand, List.flatMap_singleton, List.length_cons]
    omega
  rw [length_wire_args, argsLen_runCommand] at hle
  rw [fitsFrame, decide_eq_true_iff, length_wire_args, argsLen_runCommand, List.flatMap_singleton]
  omega

/-- The loop succeeds if and only if every item fits a command of its own. -/
theorem writeChunks_iff {c : Chunking A} (hw : c.Writes name key itemArgs)
    (hc : c.Computes name key itemArgs) (items : List A) :
    (∃ bytes, writeChunks c items [] 0 = .ok bytes) ↔
      ∀ item ∈ items, fitsFrame (runCommand name key itemArgs [item]) = true := by
  constructor
  · rintro ⟨bytes, h⟩
    have h' : writeChunks c items [] (argsLen (([] : List A).flatMap itemArgs)) = .ok bytes := h
    obtain ⟨runs, hruns, -⟩ := writeChunks_eq_ok hw h'
    exact (pack_isSome_iff fun run item => fitsFrame_of_mem).mp
      (Option.isSome_iff_exists.mpr ⟨runs, hruns⟩)
  · exact fun h => writeChunks_ok hw hc [] h fun hn => (hn rfl).elim

end Runs

/-- The length that the source computes, where it does not overflow. -/
theorem chunkedCommandLen_command {command : String} {key : Bytes} {payload : List Bytes}
    (h : (wire (commandFrame (asBytes command :: key :: payload))).length < 2 ^ 64) :
    chunkedCommandLen command key payload.length (argsLen payload) =
      some (wire (commandFrame (asBytes command :: key :: payload))).length := by
  have hl : (asBytes command :: key :: payload).length = payload.length + 2 := rfl
  rw [length_wire_args, argsLen_cons, argsLen_cons, hl] at h ⊢
  rw [chunkedCommandLen_eq]
  exact usize?_eq_some.mpr ⟨by omega, by omega⟩

theorem computes_listChunking (key : Bytes) :
    (listChunking key).Computes "RPUSH" key elementArgs where
  itemLen := by
    intro item h
    rw [elementArgs, argsLen_cons, argsLen_nil, Nat.add_zero] at h ⊢
    exact okOr_eq_ok.mpr (respBulkLen_of_lt h)
  addLen _ := rfl
  frameLen run h := by
    rw [runCommand, flatMap_elementArgs] at h ⊢
    exact okOr_eq_ok.mpr (chunkedCommandLen_command h)

theorem computes_hashChunking (key : Bytes) :
    (hashChunking key).Computes "HSET" key fieldArgs where
  itemLen := by
    intro item h
    rw [fieldArgs, argsLen_cons, argsLen_cons, argsLen_nil, Nat.add_zero] at h ⊢
    have hsum : checkedAdd (bulkLen item.1.length) (bulkLen item.2.length) = some _ :=
      usize?_eq_some.mpr ⟨rfl, h⟩
    simp only [hashChunking, okOr, bind, Except.bind, hsum,
      respBulkLen_of_lt (by omega : bulkLen item.1.length < _),
      respBulkLen_of_lt (by omega : bulkLen item.2.length < _)]
  addLen h := okOr_eq_ok.mpr (usize?_eq_some.mpr ⟨rfl, h⟩)
  frameLen run h := by
    have hlen := chunkedCommandLen_command h
    rw [length_flatMap_fieldArgs] at hlen
    exact okOr_eq_ok.mpr hlen

/-! ## Strings -/

/-- The length of an `APPEND` frame without its chunk. -/
def appendBaseLen (key : Bytes) : ℕ :=
  headerLen 3 + bulkLen (asBytes "APPEND").length + bulkLen key.length

theorem fitsFrame_append {key chunk : Bytes} : fitsFrame [asBytes "APPEND", key, chunk] = true ↔
    appendBaseLen key + bulkLen chunk.length ≤ maxAofBufferedFrameBytes := by
  rw [fitsFrame, decide_eq_true_iff, length_wire_args, argsLen_cons, argsLen_cons, argsLen_cons,
    argsLen_nil, appendBaseLen, show [asBytes "APPEND", key, chunk].length = 3 from rfl]
  omega

theorem maxAppendChunkLen_eq (key : Bytes) : maxAppendChunkLen key =
    (usize? (appendBaseLen key)).bind maxPayloadLenForFrame := by
  rw [maxAppendChunkLen, commandKeyBaseLen_eq]
  rfl

theorem appendBaseLen_le {key : Bytes} {len : ℕ} (h : maxAppendChunkLen key = some len) :
    appendBaseLen key + bulkLen 0 ≤ maxAofBufferedFrameBytes := by
  rw [maxAppendChunkLen_eq] at h
  obtain ⟨base, hbase, h⟩ := Option.bind_eq_some_iff.mp h
  obtain rfl := (usize?_eq_some.mp hbase).1
  by_contra hlt
  rw [maxPayloadLenForFrame_none (not_le.mp hlt)] at h
  cases h

/-- A key with room for a payload has a chunk length that is no shorter, with room for that. -/
theorem maxAppendChunkLen_of_le {key : Bytes} {n : ℕ} (hn : n ≤ maxBulkLen)
    (h : appendBaseLen key + bulkLen n ≤ maxAofBufferedFrameBytes) :
    ∃ len, maxAppendChunkLen key = some len ∧ n ≤ len ∧
      appendBaseLen key + bulkLen len ≤ maxAofBufferedFrameBytes := by
  have hmax : maxAofBufferedFrameBytes < 2 ^ 64 := by decide
  have hzero := bulkLen_mono (Nat.zero_le n)
  obtain ⟨len, hlen, hlongest, -⟩ :=
    maxPayloadLenForFrame_some (by omega : appendBaseLen key + bulkLen 0 ≤ _)
  refine ⟨len, ?_, hlongest.2 ⟨hn, h⟩, hlongest.1.2⟩
  rw [maxAppendChunkLen_eq, usize?_eq_some.mpr ⟨rfl, by omega⟩, Option.bind_some]
  exact hlen

/-- The length of the chunks is the longest that fits. -/
theorem longestPayload_append {key : Bytes} {len : ℕ} (h : maxAppendChunkLen key = some len) :
    LongestPayload (appendBaseLen key) len := by
  have hbase := appendBaseLen_le h
  rw [maxAppendChunkLen_eq] at h
  obtain ⟨base, hb, h⟩ := Option.bind_eq_some_iff.mp h
  obtain rfl := (usize?_eq_some.mp hb).1
  obtain ⟨n, hn, hlongest, -⟩ := maxPayloadLenForFrame_some hbase
  obtain rfl := Option.some.inj (hn.symm.trans h)
  exact hlongest

theorem writeAppendChunks_ok {key : Bytes} {chunkLen : ℕ}
    (h : appendBaseLen key + bulkLen chunkLen ≤ maxAofBufferedFrameBytes) (fuel : ℕ)
    (value : Bytes) : ∃ bytes, writeAppendChunks key chunkLen fuel value = .ok bytes := by
  induction fuel generalizing value with
  | zero => exact ⟨[], rfl⟩
  | succ fuel ih =>
      rw [writeAppendChunks]
      split_ifs
      · exact ⟨[], rfl⟩
      · have hshort := bulkLen_mono (List.length_take_le chunkLen value)
        have hfits : fitsFrame [asBytes "APPEND", key, value.take chunkLen] = true :=
          fitsFrame_append.mpr (by omega)
        obtain ⟨rest, hrest⟩ := ih (value.drop chunkLen)
        have hchunk := writeReplayableSnapshotFrame_of_fits hfits
        change writeReplayableSnapshotFrame
          (.array [bulk "APPEND", .bulk key, .bulk (value.take chunkLen)]) = _ at hchunk
        simp only [hchunk, hrest, bind, Except.bind]
        exact ⟨_, rfl⟩

/-- Where an `APPEND` has room, the empty `SET` in front of it has. -/
theorem fitsFrame_emptySet {key : Bytes} {n : ℕ}
    (h : appendBaseLen key + bulkLen n ≤ maxAofBufferedFrameBytes) :
    fitsFrame [asBytes "SET", key, []] = true := by
  have h₃ : headerLen 3 = 4 := by decide
  have hname : bulkLen (asBytes "APPEND").length = 12 := by decide
  have hname' : bulkLen (asBytes "SET").length = 9 := by decide
  have hnil := bulkLen_mono (Nat.zero_le n)
  unfold appendBaseLen at h
  rw [fitsFrame, decide_eq_true_iff, length_wire_args, argsLen_cons, argsLen_cons, argsLen_cons,
    argsLen_nil, show [asBytes "SET", key, []].length = 3 from rfl,
    show ([] : Bytes).length = 0 from rfl]
  omega

/-- A string is written if its `SET` is, or else if its first byte and its deadline are. -/
theorem writeStringSnapshot_iff {now : ExpireAt} {key value : Bytes}
    {expiresAt : Option ExpireAt} :
    (∃ bytes, writeStringSnapshot now key value expiresAt = .ok bytes) ↔
      frameIsReplayable (setFrame now key value expiresAt) = true ∨
        fitsFrame [asBytes "APPEND", key, value.take 1] = true ∧
          ExpiryReplayable now key expiresAt := by
  unfold writeStringSnapshot
  dsimp only
  split_ifs with hset
  · exact iff_of_true (writeReplayableSnapshotFrame_iff.mpr hset) (Or.inl hset)
  rw [← writeExpirySnapshot_iff, fitsFrame_append]
  simp only [hset, Bool.false_eq_true, false_or]
  have hempty : setFrame now key [] none = commandFrame [asBytes "SET", key, []] := rfl
  constructor
  · rintro ⟨bytes, h⟩
    obtain ⟨emptySet, -, h⟩ := bind_eq_ok.mp h
    obtain ⟨chunkLen, hchunkLen, h⟩ := bind_eq_ok.mp h
    have hbase := appendBaseLen_le (okOr_eq_ok.mp hchunkLen)
    split_ifs at h with hnone
    obtain ⟨chunks, hchunks, h⟩ := bind_eq_ok.mp h
    obtain ⟨expiry, hexpiry, -⟩ := bind_eq_ok.mp h
    refine ⟨?_, expiry, hexpiry⟩
    cases value with
    | nil => exact hbase
    | cons b value =>
        -- the first chunk has a byte in it
        have hpos : 0 < chunkLen := Nat.pos_of_ne_zero fun hn => hnone ⟨hn, by simp⟩
        rw [List.length_cons, writeAppendChunks] at hchunks
        simp only [List.isEmpty_cons, Bool.false_eq_true, if_false] at hchunks
        obtain ⟨chunk, hchunk, -⟩ := bind_eq_ok.mp hchunks
        have hfits := writeReplayableSnapshotFrame_iff.mp ⟨chunk, hchunk⟩
        change frameIsReplayable
          (commandFrame [asBytes "APPEND", key, (b :: value).take chunkLen]) =
          true at hfits
        rw [frameIsReplayable_command, fitsFrame_append] at hfits
        have hshort : bulkLen ((b :: value).take 1).length ≤
            bulkLen ((b :: value).take chunkLen).length := by
          refine bulkLen_mono ?_
          simp only [List.length_take, List.length_cons]
          omega
        omega
  · rintro ⟨happend, expiry, hexpiry⟩
    have hone : (value.take 1).length ≤ 1 := List.length_take_le 1 value
    obtain ⟨chunkLen, hchunkLen, hle, hfits⟩ :=
      maxAppendChunkLen_of_le (hone.trans (by decide)) happend
    obtain ⟨chunks, hchunks⟩ := writeAppendChunks_ok hfits value.length value
    have hsetFits := fitsFrame_emptySet happend
    have hnone : ¬ (chunkLen = 0 ∧ ¬ value.isEmpty = true) := by
      rintro ⟨hn, hne⟩
      cases value with
      | nil => exact hne rfl
      | cons b value => exact absurd (hn ▸ hle) (by simp)
    simp only [hempty, writeReplayableSnapshotFrame_of_fits hsetFits, hchunkLen, okOr, bind,
      Except.bind,
      hchunks, hexpiry, if_neg hnone]
    exact ⟨_, rfl⟩

/-! ## Entries -/

/-- Two parts are written if and only if each of them is. -/
theorem append_ok_iff {a b : Written} :
    (∃ bytes, (do
      let chunks ← a
      let expiry ← b
      .ok (chunks ++ expiry) : Written) = .ok bytes) ↔
      (∃ bytes, a = .ok bytes) ∧ ∃ bytes, b = .ok bytes := by
  cases a <;> cases b <;> simp [bind, Except.bind]

def hsetFrame (key : Bytes) (pairs : List (Bytes × Bytes)) : Frame :=
  .array (bulk "HSET" :: .bulk key :: pairParts pairs)

theorem runCommand_rpush (key : Bytes) :
    (fun run => commandFrame (runCommand "RPUSH" key elementArgs run)) =
      commandWithValues "RPUSH" key := by
  funext run
  rw [runCommand, flatMap_elementArgs]
  rfl

theorem runCommand_hset (key : Bytes) :
    (fun run => commandFrame (runCommand "HSET" key fieldArgs run)) = hsetFrame key := by
  funext run
  rw [hsetFrame, pairParts_eq]
  rfl

theorem writeListSnapshot_iff {now : ExpireAt} {key : Bytes} {values : List Bytes}
    {expiresAt : Option ExpireAt} :
    (∃ bytes, writeListSnapshot now key values expiresAt = .ok bytes) ↔
      (∀ value, value ∈ values → frameIsReplayable (commandWithValues "RPUSH" key [value]) = true) ∧
        ExpiryReplayable now key expiresAt := by
  rw [writeListSnapshot, append_ok_iff, writeExpirySnapshot_iff,
    writeChunks_iff (writes_listChunking key) (computes_listChunking key), ← runCommand_rpush]
  simp only [frameIsReplayable_command]

theorem writeHashSnapshot_iff {now : ExpireAt} {key : Bytes} {values : HashMap Bytes Bytes}
    {expiresAt : Option ExpireAt} :
    (∃ bytes, writeHashSnapshot now key values expiresAt = .ok bytes) ↔
      (∀ pair : Bytes × Bytes, values.lookup pair.1 = some pair.2 →
        frameIsReplayable (hsetFrame key [pair]) = true) ∧ ExpiryReplayable now key expiresAt := by
  rw [writeHashSnapshot, append_ok_iff, writeExpirySnapshot_iff,
    writeChunks_iff (writes_hashChunking key) (computes_hashChunking key), ← runCommand_hset]
  simp only [frameIsReplayable_command, ← mem_sortedFields]

/-- The entry has commands within the limit of the replay. -/
def Encodable (now : ExpireAt) (key : Bytes) (entry : Entry) : Prop :=
  match entry.value with
  | .string value =>
      frameIsReplayable (setFrame now key value entry.expiresAt) = true ∨
        frameIsReplayable (.array [bulk "APPEND", .bulk key, .bulk (value.take 1)]) = true ∧
          ExpiryReplayable now key entry.expiresAt
  | .list values =>
      (∀ value ∈ values, frameIsReplayable (commandWithValues "RPUSH" key [value]) = true) ∧
        ExpiryReplayable now key entry.expiresAt
  | .hash values =>
      (∀ field value, values.lookup field = some value →
        frameIsReplayable (.array (bulk "HSET" :: .bulk key :: pairParts [(field, value)])) =
          true) ∧
        ExpiryReplayable now key entry.expiresAt

theorem writeSnapshotEntry_iff {now : ExpireAt} {key : Bytes} {entry : Entry}
    (hw : entry.value.WellFormed) (he : entryExpired now entry = false) :
    (∃ bytes, writeSnapshotEntry now key entry = .ok bytes) ↔ Encodable now key entry := by
  rw [writeSnapshotEntry, he]
  cases entry with
  | mk value expiresAt =>
      cases value with
      | string value =>
          refine writeStringSnapshot_iff.trans (or_congr Iff.rfl (and_congr ?_ Iff.rfl))
          rw [← frameIsReplayable_command]
          rfl
      | list values =>
          simp only [Bool.false_eq_true, if_false, List.isEmpty_eq_false_iff.mpr hw.1]
          exact writeListSnapshot_iff
      | hash values =>
          simp only [Bool.false_eq_true, if_false, List.isEmpty_eq_false_iff.mpr hw.1]
          exact writeHashSnapshot_iff.trans (and_congr Prod.forall Iff.rfl)

theorem writeSnapshotEntries_iff {clock : Bytes → ExpireAt} {entries : List (Bytes × Entry)} :
    (∃ bytes, writeSnapshotEntries clock entries = .ok bytes) ↔
      ∀ e ∈ entries, ∃ bytes, writeSnapshotEntry (clock e.1) e.1 e.2 = .ok bytes := by
  induction entries with
  | nil => exact iff_of_true ⟨[], rfl⟩ (List.forall_mem_nil _)
  | cons e entries ih =>
      rw [List.forall_mem_cons, ← ih]
      exact append_ok_iff

/-- A rewrite encodes a served database if and only if it can encode every entry that is
alive when it is its turn. -/
theorem rewrite_encodes_iff {db : Db host} (h : db.Served) (now : ExpireAt)
    (clock : Bytes → ExpireAt) :
    (∃ bytes, writeSnapshotEntries clock (db.aofSnapshotEntries now) = .ok bytes) ↔
      ∀ key entry, db.view now key = some entry → entryExpired (clock key) entry = false →
        Encodable (clock key) key entry := by
  rw [writeSnapshotEntries_iff, Prod.forall]
  refine forall₂_congr fun key entry => ?_
  rw [mem_aofSnapshotEntries h.reachable.valid]
  refine forall_congr' fun hv => ?_
  cases he : entryExpired (clock key) entry with
  | true =>
      refine iff_of_true ⟨[], ?_⟩ fun hf => by cases hf
      rw [writeSnapshotEntry, he]
      rfl
  | false =>
      have hw := h.wellFormed key entry (Slot.alive_eq_some.mp hv).1
      exact (writeSnapshotEntry_iff hw he).trans ⟨fun h _ => h, fun h => h rfl⟩

theorem rewrite_encodes_iff_pushedDb :
    (∃ bytes, writeSnapshotEntries (fun _ => 0) ((pushedDb [[98]]).aofSnapshotEntries 0) =
      .ok bytes) ↔
      ∀ key entry, (pushedDb [[98]]).view 0 key = some entry → entryExpired 0 entry = false →
        Encodable 0 key entry :=
  rewrite_encodes_iff (served_pushedDb (List.cons_ne_nil _ _) (by decide) (by decide)) 0 fun _ => 0

/-! ## A counter with a long key -/

/-- What `INCR` makes of a missing key. -/
theorem view_counted (key : Bytes) :
    ((Command.incr key).apply 0 (Db.new : Db Server.oneShard)).2.view 0 key =
      some ⟨.string [49], none⟩ := by
  have hr := Command.apply_refines 0 (Db.new : Db Server.oneShard) (.incr key)
  have hnone : (Db.new : Db Server.oneShard).view 0 key = none := rfl
  change Refines 0 _ _ _ (Transaction.on key _).run at hr
  rw [hr.view, Keyspace.alive_apply, Transaction.run, hnone]
  simp only [Function.update_self]
  have hone : (Slot.update (.string Cmd.zeroBytes) (Cmd.incrValue 1) none).2 =
      some ⟨.string [49], none⟩ := by rfl
  rw [hone]
  rfl

/-- A key for which `INCR` is exactly as long as a request may be. -/
def longKey : Bytes := List.replicate 67108837 97

theorem bulkLen_longKey : bulkLen longKey.length = 67108850 := by
  rw [longKey, List.length_replicate]
  exact bulkLen_eight (by decide) (by decide)

/-- One such request, and no rewrite succeeds. -/
theorem longKey_stops_rewrites :
    Parser.parse (encode (commandFrame [asBytes "INCR", longKey]) []) =
      .ok (some (commandFrame [asBytes "INCR", longKey]), []) ∧
    Command.fromFrame 0 (commandFrame [asBytes "INCR", longKey]) = .ok (.incr longKey) ∧
    ((Command.incr longKey).apply 0 (Db.new : Db Server.oneShard)).2.Served ∧
    ∀ clock bytes, writeSnapshotEntries clock
      (((Command.incr longKey).apply 0 (Db.new : Db Server.oneShard)).2.aofSnapshotEntries 0) ≠
        .ok bytes := by
  have hkey := bulkLen_longKey
  generalize longKey = key at hkey
  have hmax : maxAofBufferedFrameBytes = 67108864 := by decide
  have h₂ : headerLen 2 = 4 := by decide
  have h₃ : headerLen 3 = 4 := by decide
  have hincr : bulkLen (asBytes "INCR").length = 10 := by decide
  have hset : bulkLen (asBytes "SET").length = 9 := by decide
  have happend : bulkLen (asBytes "APPEND").length = 12 := by decide
  have hone : bulkLen 1 = 7 := by decide
  have hlen : (wire (commandFrame [asBytes "INCR", key])).length ≤ maxBufferedFrameBytes := by
    rw [length_wire_args, argsLen_cons, argsLen_cons, argsLen_nil, hkey, hincr]
    simp only [List.length_cons, List.length_nil, h₂]
    decide
  have hcount : [asBytes "INCR", key].length ≤ Parser.maxArrayLen :=
    (by decide : 2 ≤ Parser.maxArrayLen)
  have hread : Command.fromFrame 0 (commandFrame [asBytes "INCR", key]) = .ok (.incr key) :=
    (fromFrame_command 0 "INCR" [key]).trans rfl
  have hserved : ((Command.incr key).apply 0 (Db.new : Db Server.oneShard)).2.Served :=
    .apply .new 0 (Server.fromClient_of_args 0 _ hcount hlen hread)
  refine ⟨Connection.parse_request hcount hlen, hread, hserved, fun clock bytes h => ?_⟩
  have hentry := (rewrite_encodes_iff hserved 0 clock).mp ⟨bytes, h⟩ key _ (view_counted key) rfl
  rcases hentry with hentry | ⟨hentry, -⟩
  · change frameIsReplayable (commandFrame [asBytes "SET", key, [49]]) = true at hentry
    rw [frameIsReplayable_iff, length_wire_args, argsLen_cons, argsLen_cons, argsLen_cons,
      argsLen_nil, hkey, hset] at hentry
    simp only [List.length_cons, List.length_nil, h₃, hone, hmax] at hentry
    omega
  · change frameIsReplayable (commandFrame [asBytes "APPEND", key, [49]]) = true at hentry
    rw [frameIsReplayable_iff, length_wire_args, argsLen_cons, argsLen_cons, argsLen_cons,
      argsLen_nil, hkey, happend] at hentry
    simp only [List.length_cons, List.length_nil, h₃, hone, hmax] at hentry
    omega

end MiniRedis.Aof
