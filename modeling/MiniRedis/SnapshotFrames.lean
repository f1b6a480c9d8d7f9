import MiniRedis.AofSnapshot
import MiniRedis.GreedyPacking
import MiniRedis.StoredValues

/-!
# The commands in a snapshot

What a rewrite writes for an entry, when it succeeds, is the encoding of a list of
commands: one `SET`, or an empty one and the chunks of `APPEND`, or the `RPUSH` and
`HSET` commands of the longest runs that fit a frame, and a deadline in the end.
Every frame is within the limit of the replay. The number of arguments in it is not
looked at.
-/
namespace MiniRedis.Aof
open Wire PrefixCode ParserRoundTrip GreedyPacking MiniRedis.Command

theorem okOr_eq_ok {A : Type} {message : String} {o : Option A} {a : A} :
    okOr message o = .ok a ↔ o = some a := by
  cases o <;> simp [okOr]

/-! ## Commands on the file -/

/-- The frame of the command is within the limit of the replay. -/
def fitsFrame (args : List Bytes) : Bool :=
  (wire (commandFrame args)).length ≤ maxAofBufferedFrameBytes

/-- The bytes are those of the commands, all of them within the limit. -/
structure Prints (bytes : Bytes) (commands : List (List Bytes)) : Prop where
  fits : ∀ args ∈ commands, fitsFrame args = true
  bytes : bytes = (commands.map commandFrame).flatMap wire

namespace Prints

theorem nil : Prints [] [] := ⟨List.forall_mem_nil _, rfl⟩

theorem append {a b : Bytes} {as bs : List (List Bytes)} (ha : Prints a as) (hb : Prints b bs) :
    Prints (a ++ b) (as ++ bs) :=
  ⟨List.forall_mem_append.mpr ⟨ha.fits, hb.fits⟩, by
    rw [ha.bytes, hb.bytes, List.map_append, List.flatMap_append]⟩

/-- One frame of a snapshot. -/
theorem of_write {args : List Bytes} {bytes : Bytes}
    (h : writeReplayableSnapshotFrame (commandFrame args) = .ok bytes) : Prints bytes [args] := by
  have hl := bind_eq_ok.mp h
  cases hl with
  | intro len hl =>
      have hlen := encodedLen_eq_some.mp (okOr_eq_ok.mp hl.1)
      have hb := hl.2
      split_ifs at hb with hle
      have hw := Except.ok.inj hb
      rw [encode_eq_append, List.nil_append] at hw
      refine ⟨List.forall_mem_singleton.mpr (decide_eq_true ?_), ?_⟩
      · omega
      · rw [← hw, List.map_singleton, List.flatMap_singleton]

theorem cons {args : List Bytes} {a b : Bytes} {commands : List (List Bytes)}
    (ha : writeReplayableSnapshotFrame (commandFrame args) = .ok a) (hb : Prints b commands) :
    Prints (a ++ b) (args :: commands) := (of_write ha).append hb

end Prints

/-! ## Lengths -/

/-- Two lengths and their sum are computed if and only if the sum is. -/
theorem usize?_add_bind (a b : ℕ) (f : ℕ → Option ℕ) :
    ((usize? a).bind fun x => (usize? b).bind fun y => (checkedAdd x y).bind f) =
      (usize? (a + b)).bind f := by
  by_cases h : a + b < 2 ^ 64
  · have ha : a < 2 ^ 64 := by omega
    have hb : b < 2 ^ 64 := by omega
    simp only [checkedAdd, usize?, ha, hb, h, if_true, Option.bind_some]
  · simp only [checkedAdd, usize?]
    split_ifs <;> simp_all

theorem usize?_add (a b : ℕ) :
    ((usize? a).bind fun x => (usize? b).bind fun y => checkedAdd x y) = usize? (a + b) := by
  have h := usize?_add_bind a b some
  simpa only [Option.bind_fun_some] using h

theorem commandKeyBaseLen_eq (command : String) (key : Bytes) (totalItems : ℕ) :
    commandKeyBaseLen command key totalItems =
      usize? (headerLen totalItems + bulkLen (asBytes command).length + bulkLen key.length) := by
  rw [commandKeyBaseLen, respArrayHeaderLen_eq, respBulkLen_eq, respBulkLen_eq, usize?_add_bind]
  exact usize?_add _ _

theorem chunkedCommandLen_eq (command : String) (key : Bytes) (payloadItems payloadLen : ℕ) :
    chunkedCommandLen command key payloadItems payloadLen =
      usize? (headerLen (payloadItems + 2) + bulkLen (asBytes command).length +
        bulkLen key.length + payloadLen) := by
  rw [chunkedCommandLen, commandKeyBaseLen_eq, usize?_bind_add]

/-! ## Runs -/

section Runs
variable {A : Type} (name : String) (key : Bytes) (itemArgs : A → List Bytes)

/-- The command for a run of items. -/
def runCommand (run : List A) : List Bytes := asBytes name :: key :: run.flatMap itemArgs

/-- The runs of the items whose commands fit a frame. -/
def commandRuns (items : List A) : Option (List (List A)) :=
  pack (fun run => fitsFrame (runCommand name key itemArgs run)) items

/-- The functions of a loop over items compute the lengths of the commands and write them. -/
structure Chunking.Writes (c : Chunking A) : Prop where
  itemLen : ∀ {item n}, c.itemLen item = .ok n → n = argsLen (itemArgs item)
  addLen : ∀ {m n k}, c.addLen m n = .ok k → k = m + n
  frameLen : ∀ {run n}, c.frameLen run.length (argsLen (run.flatMap itemArgs)) = .ok n →
    n = (wire (commandFrame (runCommand name key itemArgs run))).length
  write : ∀ run, c.write run =
    writeReplayableSnapshotFrame (commandFrame (runCommand name key itemArgs run))

variable {name key itemArgs}

theorem argsLen_append (as bs : List Bytes) : argsLen (as ++ bs) = argsLen as + argsLen bs := by
  simp only [argsLen, List.map_append, List.sum_append]

/-- The loop writes the runs of the greedy packing. -/
theorem writeChunks_eq_ok {c : Chunking A} (hc : c.Writes name key itemArgs)
    {items current : List A}
    {bytes : Bytes}
    (h : writeChunks c items current (argsLen (current.flatMap itemArgs)) = .ok bytes) :
    ∃ runs, packFrom (fun run => fitsFrame (runCommand name key itemArgs run)) items current =
        some runs ∧ Prints bytes (runs.map (runCommand name key itemArgs)) := by
  induction items generalizing current bytes with
  | nil =>
      refine ⟨_, packFrom_nil, ?_⟩
      rw [writeChunks] at h
      split_ifs at h ⊢
      · have hb := Except.ok.inj h
        rw [← hb]
        exact Prints.nil
      · rw [hc.write] at h
        exact Prints.of_write h
  | cons item items ih =>
      obtain ⟨itemLen, hitem, h⟩ := bind_eq_ok.mp h
      obtain ⟨payloadLen, hpayload, h⟩ := bind_eq_ok.mp h
      obtain ⟨nextLen, hnext, h⟩ := bind_eq_ok.mp h
      have hnew : payloadLen = argsLen ((current ++ [item]).flatMap itemArgs) := by
        rw [hc.addLen hpayload, hc.itemLen hitem, List.flatMap_append, argsLen_append,
          List.flatMap_singleton]
      have hcount : current.length + 1 = (current ++ [item]).length := by simp
      rw [hcount, hnew] at hnext
      have hfits : fitsFrame (runCommand name key itemArgs (current ++ [item])) = true ↔
          nextLen ≤ maxAofBufferedFrameBytes := by
        rw [fitsFrame, decide_eq_true_iff, hc.frameLen hnext]
      rw [packFrom]
      split_ifs at h with hle hempty
      · rw [if_pos (hfits.mpr hle)]
        rw [hnew] at h
        exact ih h
      · rw [if_neg fun hf => hle (hfits.mp hf), if_neg hempty]
        obtain ⟨chunk, hchunk, h⟩ := bind_eq_ok.mp h
        obtain ⟨singleLen, hsingle, h⟩ := bind_eq_ok.mp h
        split_ifs at h with hone
        obtain ⟨rest, hrest, h⟩ := bind_eq_ok.mp h
        have hitem' : itemLen = argsLen ([item].flatMap itemArgs) := by
          rw [hc.itemLen hitem, List.flatMap_singleton]
        rw [hitem'] at hsingle hrest
        have hfits' : fitsFrame (runCommand name key itemArgs [item]) = true := by
          have hlen : singleLen =
              (wire (commandFrame (runCommand name key itemArgs [item]))).length :=
            hc.frameLen hsingle
          rw [fitsFrame, decide_eq_true_iff, ← hlen]
          exact not_lt.mp hone
        obtain ⟨runs, hruns, hprints⟩ := ih hrest
        rw [hc.write] at hchunk
        refine ⟨current :: runs, by rw [if_pos hfits', hruns, Option.map_some], ?_⟩
        rw [← Except.ok.inj h]
        exact Prints.cons hchunk hprints

end Runs

def elementArgs (value : Bytes) : List Bytes := [value]

def fieldArgs (pair : Bytes × Bytes) : List Bytes := [pair.1, pair.2]

@[simp] theorem flatMap_elementArgs (values : List Bytes) : values.flatMap elementArgs = values :=
  List.flatMap_singleton' values

theorem length_flatMap_fieldArgs (pairs : List (Bytes × Bytes)) :
    (pairs.flatMap fieldArgs).length = pairs.length * 2 := by
  induction pairs with
  | nil => rfl
  | cons p pairs ih =>
      rw [List.flatMap_cons, List.length_append, ih, List.length_cons]
      exact (by omega : 2 + pairs.length * 2 = (pairs.length + 1) * 2)

/-- The length that the source computes is that of the command. -/
theorem length_of_chunkedCommandLen {command : String} {key : Bytes} {payload : List Bytes} {n : ℕ}
    (h : chunkedCommandLen command key payload.length (argsLen payload) = some n) :
    n = (wire (commandFrame (asBytes command :: key :: payload))).length := by
  rw [chunkedCommandLen_eq] at h
  have hl : (asBytes command :: key :: payload).length = payload.length + 2 := rfl
  rw [length_wire_args, argsLen_cons, argsLen_cons, hl, ← (usize?_eq_some.mp h).1]
  omega

theorem writes_listChunking (key : Bytes) :
    Chunking.Writes "RPUSH" key elementArgs (listChunking key) where
  itemLen := by
    intro item n h
    have hlen := okOr_eq_ok.mp h
    rw [respBulkLen_eq] at hlen
    rw [← (usize?_eq_some.mp hlen).1, elementArgs, argsLen_cons, argsLen_nil, Nat.add_zero]
  addLen h := (Except.ok.inj h).symm
  frameLen := by
    intro run n h
    have hlen := okOr_eq_ok.mp h
    rw [flatMap_elementArgs] at hlen
    rw [runCommand, flatMap_elementArgs]
    exact length_of_chunkedCommandLen hlen
  write run := by
    rw [runCommand, flatMap_elementArgs]
    rfl

theorem writes_hashChunking (key : Bytes) :
    Chunking.Writes "HSET" key fieldArgs (hashChunking key) where
  itemLen := by
    intro item n h
    obtain ⟨fieldLen, hfield, h⟩ := bind_eq_ok.mp h
    obtain ⟨valueLen, hvalue, h⟩ := bind_eq_ok.mp h
    have hf := okOr_eq_ok.mp hfield
    have hv := okOr_eq_ok.mp hvalue
    have hsum := okOr_eq_ok.mp h
    rw [respBulkLen_eq] at hf hv
    rw [← (usize?_eq_some.mp hsum).1, ← (usize?_eq_some.mp hf).1, ← (usize?_eq_some.mp hv).1,
      fieldArgs, argsLen_cons, argsLen_cons, argsLen_nil, Nat.add_zero]
  addLen h := (usize?_eq_some.mp (okOr_eq_ok.mp h)).1.symm
  frameLen := by
    intro run n h
    have hlen := okOr_eq_ok.mp h
    rw [← length_flatMap_fieldArgs] at hlen
    exact length_of_chunkedCommandLen hlen
  write run := by
    rw [runCommand, show run.flatMap fieldArgs = pairArgs run from rfl]
    change writeReplayableSnapshotFrame (.array (_ :: _ :: pairParts run)) = _
    rw [pairParts_eq]
    rfl

/-- The chunks that are appended make up the string. -/
theorem writeAppendChunks_eq_ok {key : Bytes} {chunkLen fuel : ℕ} {value bytes : Bytes}
    (hc : chunkLen = 0 → value = []) (hf : value.length ≤ fuel)
    (h : writeAppendChunks key chunkLen fuel value = .ok bytes) :
    ∃ chunks : List Bytes, chunks.flatten = value ∧
      Prints bytes (chunks.map fun chunk => [asBytes "APPEND", key, chunk]) := by
  induction fuel generalizing value bytes with
  | zero =>
      refine ⟨[], (List.eq_nil_of_length_eq_zero (Nat.le_zero.mp hf)).symm, ?_⟩
      rw [← Except.ok.inj h]
      exact Prints.nil
  | succ fuel ih =>
      rw [writeAppendChunks] at h
      split_ifs at h with hempty
      · refine ⟨[], (List.isEmpty_iff.mp hempty).symm, ?_⟩
        rw [← Except.ok.inj h]
        exact Prints.nil
      · obtain ⟨chunk, hchunk, h⟩ := bind_eq_ok.mp h
        obtain ⟨rest, hrest, h⟩ := bind_eq_ok.mp h
        have hpos : 0 < chunkLen := Nat.pos_of_ne_zero fun hn => hempty (by rw [hc hn]; rfl)
        have hdrop : (value.drop chunkLen).length ≤ fuel := by
          rw [List.length_drop]
          omega
        obtain ⟨chunks, hflat, hprints⟩ := ih (fun hn => absurd hn hpos.ne') hdrop hrest
        refine ⟨value.take chunkLen :: chunks, ?_, ?_⟩
        · rw [List.flatten_cons, hflat, List.take_append_drop]
        · rw [← Except.ok.inj h]
          exact Prints.cons hchunk hprints

/-! ## Entries -/

/-- The option of `SET` for a deadline in range. -/
def expiryOption : Option ExpireAt → List Bytes
  | none => []
  | some deadline => [asBytes "PXAT", Numeral.decimal deadline]

/-- The command behind the value, for a deadline in range. -/
def expiryCommands (key : Bytes) : Option ExpireAt → List (List Bytes)
  | none => []
  | some deadline => [[asBytes "PEXPIREAT", key, Numeral.decimal deadline]]

/-- The commands that a rewrite writes for an entry. -/
inductive Commands (key : Bytes) : Entry → List (List Bytes) → Prop where
  | set {value : Bytes} {expiresAt : Option ExpireAt} :
      Commands key ⟨.string value, expiresAt⟩
        [asBytes "SET" :: key :: value :: expiryOption expiresAt]
  | append {value : Bytes} {expiresAt : Option ExpireAt} {chunks : List Bytes}
      (h : chunks.flatten = value) :
      Commands key ⟨.string value, expiresAt⟩
        ([asBytes "SET", key, []] :: (chunks.map (fun chunk => [asBytes "APPEND", key, chunk]) ++
          expiryCommands key expiresAt))
  | rpush {values : List Bytes} {expiresAt : Option ExpireAt} {runs : List (List Bytes)}
      (h : commandRuns "RPUSH" key elementArgs values = some runs) :
      Commands key ⟨.list values, expiresAt⟩
        (runs.map (runCommand "RPUSH" key elementArgs) ++ expiryCommands key expiresAt)
  | hset {values : HashMap Bytes Bytes} {expiresAt : Option ExpireAt}
      {runs : List (List (Bytes × Bytes))}
      (h : commandRuns "HSET" key fieldArgs (sortedFields values) = some runs) :
      Commands key ⟨.hash values, expiresAt⟩
        (runs.map (runCommand "HSET" key fieldArgs) ++ expiryCommands key expiresAt)

/-- The deadline of the entry is within the signed range. -/
def DeadlineFits (entry : Entry) : Prop := ∀ d, entry.expiresAt = some d → d ≤ maxExpireAtMs

/-- What the commands for an entry need. -/
structure Storable (entry : Entry) : Prop where
  fits : DeadlineFits entry
  positive : ∀ d, entry.expiresAt = some d → 0 < d
  wellFormed : entry.value.WellFormed

/-- No command for a run of the value has more arguments than the parser reads in an array. -/
def ShortRuns (key : Bytes) : Value → Prop
  | .string _ => True
  | .list values => ∀ run ∈ (commandRuns "RPUSH" key elementArgs values).getD [],
      (runCommand "RPUSH" key elementArgs run).length ≤ Parser.maxArrayLen
  | .hash values => ∀ run ∈ (commandRuns "HSET" key fieldArgs (sortedFields values)).getD [],
      (runCommand "HSET" key fieldArgs run).length ≤ Parser.maxArrayLen

/-- A run has at most as many items as there are. -/
theorem length_run_le {A : Type} {name : String} {key : Bytes} {itemArgs : A → List Bytes}
    {items run : List A} (h : run ∈ (commandRuns name key itemArgs items).getD []) :
    run.length ≤ items.length := by
  cases hruns : commandRuns name key itemArgs items with
  | none =>
      rw [hruns] at h
      cases h
  | some runs =>
      rw [hruns] at h
      have hsub : run.Sublist runs.flatten := List.sublist_flatten_of_mem h
      rw [pack_flatten hruns] at hsub
      exact hsub.length_le

/-- What one command may add, a snapshot writes in short commands. -/
theorem shortRuns_list {key : Bytes} {values : List Bytes}
    (h : values.length + 2 ≤ Parser.maxArrayLen) : ShortRuns key (.list values) := by
  intro run hrun
  have hle := length_run_le hrun
  rw [runCommand, flatMap_elementArgs, List.length_cons, List.length_cons]
  omega

theorem length_expiryCommands {key : Bytes} {expiresAt : Option ExpireAt} {args : List Bytes}
    (h : args ∈ expiryCommands key expiresAt) : args.length ≤ Parser.maxArrayLen := by
  cases expiresAt with
  | none => cases h
  | some d =>
      rw [List.mem_singleton.mp h]
      exact (by decide : 3 ≤ Parser.maxArrayLen)

/-- The commands for strings and deadlines are short, so the runs decide. -/
theorem Commands.short_iff {key : Bytes} {entry : Entry} {commands : List (List Bytes)}
    (h : Commands key entry commands) :
    (∀ args ∈ commands, args.length ≤ Parser.maxArrayLen) ↔ ShortRuns key entry.value := by
  cases h with
  | @set value expiresAt =>
      refine iff_of_true (List.forall_mem_singleton.mpr ?_) trivial
      cases expiresAt with
      | none => exact (by decide : 3 ≤ Parser.maxArrayLen)
      | some d => exact (by decide : 5 ≤ Parser.maxArrayLen)
  | append hchunks =>
      refine iff_of_true (List.forall_mem_cons.mpr ⟨(by decide : 3 ≤ Parser.maxArrayLen),
        List.forall_mem_append.mpr ⟨?_, fun args ha => length_expiryCommands ha⟩⟩) trivial
      exact List.forall_mem_map.mpr fun _ _ => (by decide : 3 ≤ Parser.maxArrayLen)
  | rpush hruns | hset hruns =>
      rw [List.forall_mem_append, List.forall_mem_map, ShortRuns, hruns]
      exact and_iff_left fun args ha => length_expiryCommands ha

theorem setFrame_eq {now : ExpireAt} (key value : Bytes) {expiresAt : Option ExpireAt}
    (h : ∀ d, expiresAt = some d → d ≤ maxExpireAtMs) :
    setFrame now key value expiresAt =
      commandFrame (asBytes "SET" :: key :: value :: expiryOption expiresAt) := by
  cases expiresAt with
  | none => rfl
  | some d =>
      simp only [setFrame, setExpiryParts, if_pos (h d rfl)]
      rfl

theorem writeExpirySnapshot_eq_ok {now : ExpireAt} {key bytes : Bytes}
    {expiresAt : Option ExpireAt} (he : ∀ d, expiresAt = some d → d ≤ maxExpireAtMs)
    (h : writeExpirySnapshot now key expiresAt = .ok bytes) :
    Prints bytes (expiryCommands key expiresAt) := by
  cases expiresAt with
  | none =>
      rw [← Except.ok.inj h]
      exact Prints.nil
  | some d =>
      rw [writeExpirySnapshot, expiryFrame, if_pos (he d rfl)] at h
      exact Prints.of_write h

/-- A string that no single frame holds: an empty value, the chunks, and the deadline. -/
theorem writeStringSnapshot_parts {now : ExpireAt} {key value bytes : Bytes}
    {expiresAt : Option ExpireAt}
    (hset : frameIsReplayable (setFrame now key value expiresAt) = false)
    (h : writeStringSnapshot now key value expiresAt = .ok bytes) :
    ∃ (chunks : List Bytes) (head expiry : Bytes), chunks.flatten = value ∧ bytes = head ++ expiry ∧
      Prints head ([asBytes "SET", key, []] ::
        chunks.map fun chunk => [asBytes "APPEND", key, chunk]) ∧
      writeExpirySnapshot now key expiresAt = .ok expiry := by
  rw [writeStringSnapshot, hset] at h
  simp only [Bool.false_eq_true, if_false] at h
  obtain ⟨emptySet, hempty, h⟩ := bind_eq_ok.mp h
  obtain ⟨chunkLen, hlen, h⟩ := bind_eq_ok.mp h
  split_ifs at h with hzero
  obtain ⟨chunks, hchunks, h⟩ := bind_eq_ok.mp h
  obtain ⟨expiry, hexpiry, h⟩ := bind_eq_ok.mp h
  have hpos : chunkLen = 0 → value = [] := fun hn => by
    by_contra hv
    exact hzero ⟨hn, fun he => hv (List.isEmpty_iff.mp he)⟩
  have happend := writeAppendChunks_eq_ok hpos le_rfl hchunks
  cases happend with
  | intro parts happend =>
      exact ⟨parts, emptySet ++ chunks, expiry, happend.1, (Except.ok.inj h).symm,
        Prints.cons hempty happend.2, hexpiry⟩

theorem writeStringSnapshot_eq_ok {now : ExpireAt} {key value bytes : Bytes}
    {expiresAt : Option ExpireAt} (he : ∀ d, expiresAt = some d → d ≤ maxExpireAtMs)
    (h : writeStringSnapshot now key value expiresAt = .ok bytes) :
    ∃ commands, Commands key ⟨.string value, expiresAt⟩ commands ∧ Prints bytes commands := by
  cases hset : frameIsReplayable (setFrame now key value expiresAt) with
  | true =>
      rw [writeStringSnapshot, hset] at h
      simp only [if_true] at h
      rw [setFrame_eq key value he] at h
      exact ⟨_, .set, Prints.of_write h⟩
  | false =>
      obtain ⟨chunks, head, expiry, hflat, rfl, hprints, hexpiry⟩ :=
        writeStringSnapshot_parts hset h
      exact ⟨_, .append hflat, hprints.append (writeExpirySnapshot_eq_ok he hexpiry)⟩

/-- The chunks of a container and the deadline behind them. -/
theorem writeChunks_append_eq_ok {A : Type} {name : String} {key : Bytes}
    {itemArgs : A → List Bytes} {c : Chunking A} (hc : c.Writes name key itemArgs) {items : List A}
    {now : ExpireAt} {expiresAt : Option ExpireAt}
    (he : ∀ d, expiresAt = some d → d ≤ maxExpireAtMs) {bytes : Bytes}
    (h : (do
      let chunks ← writeChunks c items [] 0
      let expiry ← writeExpirySnapshot now key expiresAt
      .ok (chunks ++ expiry) : Written) = .ok bytes) :
    ∃ runs, commandRuns name key itemArgs items = some runs ∧
      Prints bytes (runs.map (runCommand name key itemArgs) ++ expiryCommands key expiresAt) := by
  obtain ⟨chunks, hchunks, h⟩ := bind_eq_ok.mp h
  obtain ⟨expiry, hexpiry, h⟩ := bind_eq_ok.mp h
  have hruns : ∃ runs, GreedyPacking.packFrom _ items [] = some runs ∧ _ :=
    writeChunks_eq_ok hc hchunks
  cases hruns with
  | intro runs hruns =>
      refine ⟨runs, hruns.1, ?_⟩
      rw [← Except.ok.inj h]
      exact hruns.2.append (writeExpirySnapshot_eq_ok he hexpiry)

/-- A live entry is written as its commands. -/
theorem writeSnapshotEntry_eq_ok {now : ExpireAt} {key bytes : Bytes} {entry : Entry}
    (hs : Storable entry) (he : entryExpired now entry = false)
    (h : writeSnapshotEntry now key entry = .ok bytes) :
    ∃ commands, Commands key entry commands ∧ Prints bytes commands := by
  have hd := hs.fits
  have hw := hs.wellFormed
  rw [writeSnapshotEntry, he] at h
  cases entry with
  | mk value expiresAt =>
      cases value with
      | string value => exact writeStringSnapshot_eq_ok hd h
      | list values =>
          have hne : values.isEmpty = false := List.isEmpty_eq_false_iff.mpr hw.1
          simp only [hne, Bool.false_eq_true, if_false] at h
          have hruns := writeChunks_append_eq_ok (writes_listChunking key) hd h
          cases hruns with
          | intro runs hruns => exact ⟨_, .rpush hruns.1, hruns.2⟩
      | hash values =>
          have hne : values.entries.isEmpty = false := List.isEmpty_eq_false_iff.mpr hw.1
          simp only [hne, Bool.false_eq_true, if_false] at h
          have hruns := writeChunks_append_eq_ok (writes_hashChunking key) hd h
          cases hruns with
          | intro runs hruns => exact ⟨_, .hset hruns.1, hruns.2⟩

/-! ## Snapshots -/

/-- The commands for the entries of a snapshot, one entry after the other. -/
inductive Snapshot : List (Bytes × Entry) → List (List Bytes) → Prop where
  | nil : Snapshot [] []
  | cons {key : Bytes} {entry : Entry} {entries : List (Bytes × Entry)}
      {commands rest : List (List Bytes)} (h : Commands key entry commands)
      (hs : Snapshot entries rest) : Snapshot ((key, entry) :: entries) (commands ++ rest)

/-- The entries that are alive when it is their turn to be written. -/
def written (clock : Bytes → ExpireAt) (entries : List (Bytes × Entry)) : List (Bytes × Entry) :=
  entries.filter fun e => !entryExpired (clock e.1) e.2

theorem writeSnapshotEntries_eq_ok {clock : Bytes → ExpireAt} {entries : List (Bytes × Entry)}
    {bytes : Bytes} (hs : ∀ e ∈ entries, Storable e.2)
    (h : writeSnapshotEntries clock entries = .ok bytes) :
    ∃ commands, Snapshot (written clock entries) commands ∧ Prints bytes commands := by
  induction entries generalizing bytes with
  | nil =>
      rw [← Except.ok.inj h]
      exact ⟨[], .nil, Prints.nil⟩
  | cons e entries ih =>
      obtain ⟨first, hfirst, h⟩ := bind_eq_ok.mp h
      obtain ⟨rest, hrest, h⟩ := bind_eq_ok.mp h
      have hall := List.forall_mem_cons.mp hs
      have htail := ih hall.2 hrest
      cases htail with
      | intro tail htail =>
          rw [← Except.ok.inj h]
          cases he : entryExpired (clock e.1) e.2 with
          | true =>
              rw [writeSnapshotEntry, he] at hfirst
              rw [written, List.filter_cons_of_neg (by rw [he]; decide),
                ← Except.ok.inj hfirst, List.nil_append]
              exact ⟨tail, htail⟩
          | false =>
              have hentry := writeSnapshotEntry_eq_ok hall.1 he hfirst
              cases hentry with
              | intro commands hentry =>
                  rw [written, List.filter_cons_of_pos (by rw [he]; rfl)]
                  exact ⟨commands ++ tail, .cons hentry.1 htail.1, hentry.2.append htail.2⟩

/-- The whole snapshot is short if and only if its runs are. -/
theorem Snapshot.short_iff {entries : List (Bytes × Entry)} {commands : List (List Bytes)}
    (h : Snapshot entries commands) :
    (∀ args ∈ commands, args.length ≤ Parser.maxArrayLen) ↔
      ∀ e ∈ entries, ShortRuns e.1 e.2.value := by
  induction h with
  | nil => exact iff_of_true (List.forall_mem_nil _) (List.forall_mem_nil _)
  | cons h _ ih => rw [List.forall_mem_append, List.forall_mem_cons, h.short_iff, ih]

end MiniRedis.Aof
