import MiniRedis.SnapshotLimits

/-!
# The chunks of a snapshot

The loops over lists and hashes keep the payload length of the run so far beside its
items, and compute the length of the frame before they add to it. The runs they write
make up the value, none of them is empty, and the length that was computed last is the
encoded length of the frame.
-/
namespace MiniRedis.Aof
open Wire PrefixCode ParserRoundTrip MiniRedis.Command

/-! ## Tracked lengths -/

section Runs
variable {A : Type}

/-- The loop of `writeChunks`, with the frame length that it computed last for the current
run. It returns every run that is written with this length. -/
def trackedRuns (chunking : Chunking A) :
    List A → List A → ℕ → ℕ → Except String (List (List A × ℕ))
  | [], current, _, tracked => .ok (if current.isEmpty then [] else [(current, tracked)])
  | item :: items, current, payloadLen, tracked => do
      let itemLen ← chunking.itemLen item
      let nextPayloadLen ← chunking.addLen payloadLen itemLen
      let nextLen ← chunking.frameLen (current.length + 1) nextPayloadLen
      if nextLen ≤ maxAofBufferedFrameBytes then
        trackedRuns chunking items (current ++ [item]) nextPayloadLen nextLen
      else if current.isEmpty then .error chunking.tooLarge
      else do
        let singleLen ← chunking.frameLen 1 itemLen
        if maxAofBufferedFrameBytes < singleLen then .error chunking.tooLarge
        else do
          let rest ← trackedRuns chunking items [item] itemLen singleLen
          .ok ((current, tracked) :: rest)

/-- The runs partition the items, and each was written as a frame of its tracked length. -/
structure Partitions (frame : List A → Frame) (items : List A) (runs : List (List A × ℕ))
    (bytes : Bytes) : Prop where
  items : (runs.map Prod.fst).flatten = items
  nonempty : ∀ run ∈ runs, run.1 ≠ []
  encodedLen : ∀ run ∈ runs, encodedLen (frame run.1) = some run.2
  fits : ∀ run ∈ runs, run.2 ≤ maxAofBufferedFrameBytes
  bytes : bytes = runs.flatMap fun run => encode (frame run.1) []

namespace Partitions
variable {frame : List A → Frame} {items run : List A} {runs : List (List A × ℕ)}
  {bytes chunk : Bytes}

theorem nil : Partitions frame [] [] [] := ⟨rfl, nofun, nofun, nofun, rfl⟩

/-- One more run in front. -/
theorem cons {len : ℕ} (h : Partitions frame items runs bytes) (hne : run ≠ [])
    (hlen : Wire.encodedLen (frame run) = some len)
    (hwrite : writeReplayableSnapshotFrame (frame run) = .ok chunk) :
    Partitions frame (run ++ items) ((run, len) :: runs) (chunk ++ bytes) := by
  have hw : len ≤ maxAofBufferedFrameBytes ∧ chunk = encode (frame run) [] := by
    simp only [writeReplayableSnapshotFrame, hlen, okOr, bind, Except.bind] at hwrite
    split_ifs at hwrite with hle
    exact ⟨not_lt.mp hle, (Except.ok.inj hwrite).symm⟩
  constructor
  · rw [List.map_cons, List.flatten_cons, h.items]
  · exact List.forall_mem_cons.mpr ⟨hne, h.nonempty⟩
  · exact List.forall_mem_cons.mpr ⟨hlen, h.encodedLen⟩
  · exact List.forall_mem_cons.mpr ⟨hw.1, h.fits⟩
  · rw [List.flatMap_cons, hw.2, h.bytes]

end Partitions

variable {name : String} {key : Bytes} {itemArgs : A → List Bytes}

/-- The frame for a run, of the length that the loop computes for it. -/
theorem encodedLen_run {c : Chunking A} (hc : c.Writes name key itemArgs) {run : List A} {len : ℕ}
    (h : c.frameLen run.length (argsLen (run.flatMap itemArgs)) = .ok len)
    (hle : len ≤ maxAofBufferedFrameBytes) :
    encodedLen (commandFrame (runCommand name key itemArgs run)) = some len := by
  have hlen := hc.frameLen h
  have hmax : maxAofBufferedFrameBytes < 2 ^ 64 := by decide
  exact encodedLen_eq_some.mpr ⟨hlen.symm, by omega⟩

/-- What the loop writes is the tracked runs. The length tracked for the current run is that
of its frame. -/
theorem writeChunks_tracked {c : Chunking A} (hc : c.Writes name key itemArgs)
    {items current : List A} {tracked : ℕ} {bytes : Bytes}
    (htracked : current ≠ [] →
      encodedLen (commandFrame (runCommand name key itemArgs current)) = some tracked)
    (h : writeChunks c items current (argsLen (current.flatMap itemArgs)) = .ok bytes) :
    ∃ runs, trackedRuns c items current (argsLen (current.flatMap itemArgs)) tracked = .ok runs ∧
      Partitions (fun run => commandFrame (runCommand name key itemArgs run)) (current ++ items)
        runs bytes := by
  induction items generalizing current tracked bytes with
  | nil =>
      rw [writeChunks] at h
      refine ⟨_, rfl, ?_⟩
      split_ifs at h ⊢ with hempty
      · rw [← Except.ok.inj h, List.isEmpty_iff.mp hempty]
        exact .nil
      · have hne : current ≠ [] := fun hn => hempty (by rw [hn]; rfl)
        rw [hc.write] at h
        have hnil :
            Partitions (fun run => commandFrame (runCommand name key itemArgs run)) [] [] [] :=
          .nil
        have hp := hnil.cons hne (htracked hne) h
        rwa [List.append_nil bytes] at hp
  | cons item items ih =>
      obtain ⟨itemLen, hitem, h⟩ := bind_eq_ok.mp h
      obtain ⟨payloadLen, hpayload, h⟩ := bind_eq_ok.mp h
      obtain ⟨nextLen, hnext, h⟩ := bind_eq_ok.mp h
      have hnew : payloadLen = argsLen ((current ++ [item]).flatMap itemArgs) := by
        rw [hc.addLen hpayload, hc.itemLen hitem, List.flatMap_append, argsLen_append,
          List.flatMap_singleton]
      have hcount : current.length + 1 = (current ++ [item]).length := by simp
      simp only [trackedRuns, hitem, hpayload, hnext, bind, Except.bind]
      split_ifs at h ⊢ with hle hempty
      · rw [hnew] at h ⊢
        rw [hcount, hnew] at hnext
        have hr := ih (fun _ => encodedLen_run hc hnext hle) h
        rwa [List.append_assoc, List.singleton_append] at hr
      · obtain ⟨chunk, hchunk, h⟩ := bind_eq_ok.mp h
        obtain ⟨singleLen, hsingle, h⟩ := bind_eq_ok.mp h
        split_ifs at h with hone
        obtain ⟨rest, hrest, h⟩ := bind_eq_ok.mp h
        have hne : current ≠ [] := fun hn => hempty (by rw [hn]; rfl)
        have hitem' : itemLen = argsLen ([item].flatMap itemArgs) := by
          rw [hc.itemLen hitem, List.flatMap_singleton]
        rw [hitem'] at hrest hsingle
        have hlen : c.frameLen [item].length (argsLen ([item].flatMap itemArgs)) = .ok singleLen :=
          hsingle
        have hr := ih (fun _ => encodedLen_run hc hlen (not_lt.mp hone)) hrest
        cases hr with
        | intro runs hr =>
            rw [hc.write] at hchunk
            simp only [hitem', hsingle, hone, if_false, hr.1]
            rw [← Except.ok.inj h]
            exact ⟨_, rfl, hr.2.cons hne (htracked hne) hchunk⟩

end Runs

/-! ## Lists and hashes -/

/-- The value and the deadline of a container, written one after the other. -/
theorem writeChunks_parts {A : Type} {name : String} {key : Bytes} {itemArgs : A → List Bytes}
    {c : Chunking A} (hc : c.Writes name key itemArgs) {items : List A} {expiry : Written}
    {bytes : Bytes}
    (h : (do
      let chunks ← writeChunks c items [] 0
      let expiry ← expiry
      .ok (chunks ++ expiry) : Written) = .ok bytes) :
    ∃ runs chunks rest, trackedRuns c items [] 0 0 = .ok runs ∧
      Partitions (fun run => commandFrame (runCommand name key itemArgs run)) items runs chunks ∧
      expiry = .ok rest ∧ bytes = chunks ++ rest := by
  obtain ⟨chunks, hchunks, h⟩ := bind_eq_ok.mp h
  obtain ⟨rest, hrest, h⟩ := bind_eq_ok.mp h
  have hempty : ([] : List A) ≠ [] →
    encodedLen (commandFrame (runCommand name key itemArgs [])) = some 0 := fun hn => (hn rfl).elim
  have hw := writeChunks_tracked hc hempty hchunks
  cases hw with
  | intro runs hw => exact ⟨runs, chunks, rest, hw.1, hw.2, hrest, (Except.ok.inj h).symm⟩

theorem bytesLe_total (a b : Bytes) : bytesLe a b = true ∨ bytesLe b a = true := by
  induction a generalizing b with
  | nil => exact Or.inl rfl
  | cons x a ih =>
      cases b with
      | nil => exact Or.inr rfl
      | cons y b =>
          simp only [bytesLe, Bool.or_eq_true, Bool.and_eq_true, decide_eq_true_eq, beq_iff_eq,
            UInt8.lt_iff_toNat_lt, ← UInt8.toNat_inj]
          rcases lt_trichotomy x.toNat y.toNat with h | h | h
          · exact Or.inl (Or.inl h)
          · cases ih b with
            | inl hab => exact Or.inl (Or.inr ⟨h, hab⟩)
            | inr hba => exact Or.inr (Or.inr ⟨h.symm, hba⟩)
          · exact Or.inr (Or.inl h)

theorem bytesLe_trans {a b c : Bytes} (hab : bytesLe a b = true) (hbc : bytesLe b c = true) :
    bytesLe a c = true := by
  induction a generalizing b c with
  | nil => rfl
  | cons x a ih =>
      cases b with
      | nil => cases hab
      | cons y b =>
          cases c with
          | nil => cases hbc
          | cons z c =>
              simp only [bytesLe, Bool.or_eq_true, Bool.and_eq_true, decide_eq_true_eq,
                beq_iff_eq] at hab hbc ⊢
              rcases hab with hxy | ⟨rfl, hab⟩
              · rcases hbc with hyz | ⟨rfl, -⟩
                · exact Or.inl (UInt8.lt_trans hxy hyz)
                · exact Or.inl hxy
              · rcases hbc with hyz | ⟨rfl, hbc⟩
                · exact Or.inl hyz
                · exact Or.inr ⟨rfl, ih hab hbc⟩

theorem bytesLe_antisymm {a b : Bytes} (hab : bytesLe a b = true) (hba : bytesLe b a = true) :
    a = b := by
  induction a generalizing b with
  | nil =>
      cases b with
      | nil => rfl
      | cons y b => cases hba
  | cons x a ih =>
      cases b with
      | nil => cases hab
      | cons y b =>
          simp only [bytesLe, Bool.or_eq_true, Bool.and_eq_true, decide_eq_true_eq,
            beq_iff_eq] at hab hba
          rcases hab with hxy | ⟨rfl, hab⟩
          · rcases hba with hyx | ⟨rfl, -⟩
            · exact absurd (UInt8.lt_trans hxy hyx) (UInt8.lt_irrefl x)
            · exact absurd hxy (UInt8.lt_irrefl y)
          · rcases hba with hxx | ⟨-, hba⟩
            · exact absurd hxx (UInt8.lt_irrefl x)
            · rw [ih hab hba]

/-- The entries of a database, or the fields of a hash, in the order of their bytes. -/
theorem pairwise_sorted {A : Type} (l : List (Bytes × A)) :
    (l.insertionSort fun a b => bytesLe a.1 b.1 = true).Pairwise fun a b =>
      bytesLe a.1 b.1 = true := by
  have htotal : Std.Total fun a b : Bytes × A => bytesLe a.1 b.1 = true :=
    ⟨fun a b => bytesLe_total a.1 b.1⟩
  have htrans : IsTrans (Bytes × A) fun a b => bytesLe a.1 b.1 = true :=
    ⟨fun _ _ _ => bytesLe_trans⟩
  exact List.pairwise_insertionSort _ _

/-- The snapshot depends on the live view alone. -/
theorem aofSnapshotEntries_congr {host : Host} {now : ExpireAt} {db db' : Db host} (h : db.Valid)
    (h' : db'.Valid) (hv : db.view now = db'.view now) :
    db.aofSnapshotEntries now = db'.aofSnapshotEntries now := by
  have hperm : (db.aofSnapshotEntries now).Perm (db'.aofSnapshotEntries now) :=
    ((List.perm_insertionSort _ _).trans (h.liveEntries_perm h' hv)).trans
      (List.perm_insertionSort _ _).symm
  refine hperm.eq_of_pairwise (fun a b ha hb hab hba => ?_) (pairwise_sorted _) (pairwise_sorted _)
  have hkey : a.1 = b.1 := bytesLe_antisymm hab hba
  have hka := (mem_aofSnapshotEntries h).mp ha
  have hkb := (mem_aofSnapshotEntries h').mp hb
  rw [← hkey, ← hv, hka] at hkb
  exact Prod.ext hkey (Option.some.inj hkb)

/-- The fields of a hash in the order of their bytes. -/
theorem pairwise_sortedFields (values : HashMap Bytes Bytes) :
    (sortedFields values).Pairwise fun a b => bytesLe a.1 b.1 = true :=
  pairwise_sorted _

/-! ## Strings -/

def appendFrame (key chunk : Bytes) : Frame := .array [bulk "APPEND", .bulk key, .bulk chunk]

theorem frameIsReplayable_append {key chunk : Bytes} :
    frameIsReplayable (appendFrame key chunk) = true ↔
      appendBaseLen key + bulkLen chunk.length ≤ maxAofBufferedFrameBytes := by
  rw [← fitsFrame_append, ← frameIsReplayable_command]
  rfl

/-- The search has no result exactly if an empty bulk string does not fit beside the base.
Otherwise its loop ends, with every operation in range, at the longest payload that fits. A
chunk of that length fits into an `APPEND` for its key, and below the cap one that is a byte
longer does not. -/
theorem payload_search_exact (baseLen : ℕ) :
    (maxPayloadLenForFrame baseLen = none ↔ maxAofBufferedFrameBytes < baseLen + bulkLen 0) ∧
    (baseLen + bulkLen 0 ≤ maxAofBufferedFrameBytes →
      ∃ n, maxPayloadLenForFrame baseLen = some n ∧ LongestPayload baseLen n ∧
        Search baseLen 0 (min maxBulkLen maxAofBufferedFrameBytes) n) ∧
    ∀ key n, maxAppendChunkLen key = some n →
      (∀ chunk, chunk.length ≤ n → frameIsReplayable (appendFrame key chunk) = true) ∧
      (n < maxBulkLen →
        ∀ chunk, chunk.length = n + 1 → frameIsReplayable (appendFrame key chunk) = false) := by
  refine ⟨⟨fun hnone => ?_, maxPayloadLenForFrame_none⟩, maxPayloadLenForFrame_some,
    fun key n hn => ?_⟩
  · by_contra hle
    obtain ⟨n, hsome, -⟩ := maxPayloadLenForFrame_some (not_lt.mp hle)
    cases hnone.symm.trans hsome
  · have hlongest := longestPayload_append hn
    refine ⟨fun chunk hlen => ?_, fun hcap chunk hlen => ?_⟩
    · exact frameIsReplayable_append.mpr
        ((Nat.add_le_add_left (bulkLen_mono hlen) _).trans hlongest.1.2)
    · rw [← Bool.not_eq_true, frameIsReplayable_append, hlen]
      intro hfits
      exact absurd (hlongest.2 ⟨hcap, hfits⟩) (by omega)

/-- The search that is made for the key `k`, and the chunks that it allows. -/
theorem payload_search_exact_append :
    ∃ n, maxAppendChunkLen [107] = some n ∧ LongestPayload (appendBaseLen [107]) n ∧
      Search (appendBaseLen [107]) 0 (min maxBulkLen maxAofBufferedFrameBytes) n ∧
      ∀ chunk, chunk.length ≤ n → frameIsReplayable (appendFrame [107] chunk) = true := by
  obtain ⟨n, hn, hlongest, hsearch⟩ :=
    (payload_search_exact (appendBaseLen [107])).2.1 (by decide)
  have hkey : maxAppendChunkLen [107] = some n := by
    rw [maxAppendChunkLen_eq, usize?_eq_some.mpr ⟨rfl, by decide⟩, Option.bind_some, hn]
  exact ⟨n, hkey, hlongest, hsearch, ((payload_search_exact 0).2.2 [107] n hkey).1⟩

/-- The loop over a string ends with the string: more turns would not change anything. -/
theorem writeAppendChunks_fuel {key : Bytes} {chunkLen fuel fuel' : ℕ} {value : Bytes}
    (hc : chunkLen = 0 → value = []) (hf : value.length ≤ fuel) (hf' : value.length ≤ fuel') :
    writeAppendChunks key chunkLen fuel value = writeAppendChunks key chunkLen fuel' value := by
  induction fuel generalizing fuel' value with
  | zero =>
      obtain rfl := List.eq_nil_of_length_eq_zero (Nat.le_zero.mp hf)
      cases fuel' with
      | zero => rfl
      | succ fuel' => rfl
  | succ fuel ih =>
      cases value with
      | nil =>
          cases fuel' with
          | zero => rfl
          | succ fuel' => rfl
      | cons b value =>
          cases fuel' with
          | zero => exact absurd hf' (Nat.not_succ_le_zero _)
          | succ fuel' =>
              have hpos : 0 < chunkLen := Nat.pos_of_ne_zero fun hn => by cases hc hn
              have hdrop : ((b :: value).drop chunkLen).length ≤ value.length := by
                rw [List.length_drop, List.length_cons]
                omega
              have hrest := ih (fun hn => absurd hn hpos.ne')
                (hdrop.trans (Nat.le_of_succ_le_succ hf)) (hdrop.trans (Nat.le_of_succ_le_succ hf'))
              rw [writeAppendChunks, writeAppendChunks, hrest]

/-- The frames of the loop hold the string piece by piece. -/
theorem writeAppendChunks_partition {key value : Bytes} {chunkLen : ℕ}
    (h : maxAppendChunkLen key = some chunkLen) (hc : chunkLen = 0 → value = []) :
    ∃ chunks : List Bytes, chunks.flatten = value ∧
      (∀ chunk ∈ chunks, frameIsReplayable (appendFrame key chunk) = true) ∧
      ∀ fuel, value.length ≤ fuel → writeAppendChunks key chunkLen fuel value =
        .ok (chunks.flatMap fun chunk => encode (appendFrame key chunk) []) := by
  obtain ⟨bytes, hbytes⟩ := writeAppendChunks_ok (longestPayload_append h).1.2 value.length value
  obtain ⟨chunks, hflat, hprints⟩ := writeAppendChunks_eq_ok hc le_rfl hbytes
  refine ⟨chunks, hflat, fun chunk hm => ?_, fun fuel hf => ?_⟩
  · have hfits := hprints.fits _ (List.mem_map_of_mem hm)
    rwa [← frameIsReplayable_command] at hfits
  · have hencode : (fun chunk => encode (appendFrame key chunk) []) =
        fun chunk => wire (commandFrame [asBytes "APPEND", key, chunk]) := by
      funext chunk
      exact encode_eq_append _ []
    rw [writeAppendChunks_fuel hc hf le_rfl, hbytes, hprints.bytes, hencode, List.map_map,
      List.flatMap_map]
    rfl

/-- The chunked path of a string fails with its deadline only. -/
theorem writeStringSnapshot_chunked {now : ExpireAt} {key value : Bytes}
    {expiresAt : Option ExpireAt} {chunkLen : ℕ} {bytes : Bytes}
    (hset : frameIsReplayable (setFrame now key value expiresAt) = false)
    (h : maxAppendChunkLen key = some chunkLen) (hc : chunkLen = 0 → value = [])
    (hchunks : writeAppendChunks key chunkLen value.length value = .ok bytes) :
    writeStringSnapshot now key value expiresAt = (writeExpirySnapshot now key expiresAt).map
      fun expiry => encode (setFrame now key [] none) [] ++ bytes ++ expiry := by
  have hnone : ¬ (chunkLen = 0 ∧ ¬ value.isEmpty = true) :=
    fun hn => hn.2 (List.isEmpty_iff.mpr (hc hn.1))
  have hempty := writeReplayableSnapshotFrame_of_fits
    (fitsFrame_emptySet (longestPayload_append h).1.2)
  have hwire : encode (setFrame now key [] none) [] =
    wire (commandFrame [asBytes "SET", key, []]) :=
    encode_eq_append _ []
  change writeReplayableSnapshotFrame (setFrame now key [] none) = _ at hempty
  rw [← hwire] at hempty
  rw [writeStringSnapshot, hset]
  simp only [Bool.false_eq_true, if_false, hempty, h, okOr, hchunks, if_neg hnone, bind,
    Except.bind]
  cases writeExpirySnapshot now key expiresAt <;> rfl

/-! ## The writers of a snapshot -/

theorem error_iff {A : Type} {x : Except String A} : (∃ e, x = .error e) ↔ ¬ ∃ a, x = .ok a := by
  cases x with
  | error e => exact iff_of_true ⟨e, rfl⟩ nofun
  | ok a => exact iff_of_false nofun fun h => h ⟨a, rfl⟩

/-- Something in a container, or its deadline, does not fit a frame. -/
theorem not_fits_iff {A : Type} {P : A → Prop} {frame : A → Frame} {now : ExpireAt} {key : Bytes}
    {expiresAt : Option ExpireAt} :
    ¬ ((∀ a, P a → frameIsReplayable (frame a) = true) ∧ ExpiryReplayable now key expiresAt) ↔
      (∃ a, P a ∧ frameIsReplayable (frame a) = false) ∨
        ∃ d, expiresAt = some d ∧ frameIsReplayable (expiryFrame now key d) = false := by
  simp only [ExpiryReplayable, not_and_or, not_forall, Bool.not_eq_true, exists_prop]

/-- The snapshot of a list or a hash partitions it into runs of tracked frame length, and
fails only where an item or the deadline fits no frame; the chunks of a string partition it,
and the loop that writes them ends. -/
theorem snapshot_chunks_exact (now : ExpireAt) (key : Bytes) (expiresAt : Option ExpireAt) :
    (∀ values bytes, writeListSnapshot now key values expiresAt = .ok bytes →
      ∃ runs chunks expiry, trackedRuns (listChunking key) values [] 0 0 = .ok runs ∧
        Partitions (commandWithValues "RPUSH" key) values runs chunks ∧
        writeExpirySnapshot now key expiresAt = .ok expiry ∧ bytes = chunks ++ expiry) ∧
    (∀ values bytes, writeHashSnapshot now key values expiresAt = .ok bytes →
      ∃ fields runs chunks expiry, trackedRuns (hashChunking key) fields [] 0 0 = .ok runs ∧
        Partitions (hsetFrame key) fields runs chunks ∧
        writeExpirySnapshot now key expiresAt = .ok expiry ∧ bytes = chunks ++ expiry ∧
        (fields.Pairwise fun a b => bytesLe a.1 b.1 = true) ∧ (fields.map Prod.fst).Nodup ∧
        ∀ field value, (field, value) ∈ fields ↔ values.lookup field = some value) ∧
    (∀ values, (∃ e, writeListSnapshot now key values expiresAt = .error e) ↔
      (∃ value, value ∈ values ∧
        frameIsReplayable (commandWithValues "RPUSH" key [value]) = false) ∨
      ∃ d, expiresAt = some d ∧ frameIsReplayable (expiryFrame now key d) = false) ∧
    (∀ values, (∃ e, writeHashSnapshot now key values expiresAt = .error e) ↔
      (∃ pair : Bytes × Bytes, values.lookup pair.1 = some pair.2 ∧
        frameIsReplayable (hsetFrame key [pair]) = false) ∨
      ∃ d, expiresAt = some d ∧ frameIsReplayable (expiryFrame now key d) = false) ∧
    ∀ value chunkLen, frameIsReplayable (setFrame now key value expiresAt) = false →
      maxAppendChunkLen key = some chunkLen → (chunkLen = 0 → value = []) →
      ∃ chunks : List Bytes, chunks.flatten = value ∧
        (∀ chunk ∈ chunks, frameIsReplayable (appendFrame key chunk) = true) ∧
        (∀ fuel, value.length ≤ fuel → writeAppendChunks key chunkLen fuel value =
          .ok (chunks.flatMap fun chunk => encode (appendFrame key chunk) [])) ∧
        writeStringSnapshot now key value expiresAt = (writeExpirySnapshot now key expiresAt).map
          fun expiry => encode (setFrame now key [] none) [] ++
            (chunks.flatMap fun chunk => encode (appendFrame key chunk) []) ++ expiry := by
  refine ⟨fun values bytes h => ?_, fun values bytes h => ?_, fun values => ?_, fun values => ?_,
    fun value chunkLen hset h hc => ?_⟩
  · have hw := writeChunks_parts (writes_listChunking key) h
    rwa [runCommand_rpush] at hw
  · obtain ⟨runs, chunks, expiry, hruns, hp, he, hb⟩ :=
      writeChunks_parts (writes_hashChunking key) h
    rw [runCommand_hset] at hp
    exact ⟨_, runs, chunks, expiry, hruns, hp, he, hb, pairwise_sortedFields values,
      nodup_sortedFields values, fun field value => mem_sortedFields⟩
  · rw [error_iff, writeListSnapshot_iff]
    exact not_fits_iff
  · rw [error_iff, writeHashSnapshot_iff]
    exact not_fits_iff
  · obtain ⟨chunks, hflat, hfits, hloop⟩ := writeAppendChunks_partition h hc
    exact ⟨chunks, hflat, hfits, hloop, writeStringSnapshot_chunked hset h hc (hloop _ le_rfl)⟩

/-- A list of two elements with a deadline, and a hash whose fields are stored the other way
round. -/
theorem snapshot_chunks_exact_twoItems :
    (∃ runs chunks expiry, trackedRuns (listChunking [107]) [[97], [98]] [] 0 0 = .ok runs ∧
      Partitions (commandWithValues "RPUSH" [107]) [[97], [98]] runs chunks ∧
      writeExpirySnapshot 0 [107] (some 9) = .ok expiry ∧
      encode (commandWithValues "RPUSH" [107] [[97], [98]]) [] ++
        encode (pexpireatFrame [107] 9) [] = chunks ++ expiry) ∧
    ∃ fields runs chunks expiry, trackedRuns (hashChunking [107]) fields [] 0 0 = .ok runs ∧
      Partitions (hsetFrame [107]) fields runs chunks ∧
      writeExpirySnapshot 0 [107] none = .ok expiry ∧
      encode (hsetFrame [107] [([97], [49]), ([98], [50])]) [] = chunks ++ expiry ∧
      (fields.Pairwise fun a b => bytesLe a.1 b.1 = true) ∧ (fields.map Prod.fst).Nodup ∧
      ∀ field value, (field, value) ∈ fields ↔
        (((∅ : HashMap Bytes Bytes).insert [97] [49]).insert [98] [50]).lookup field =
          some value :=
  ⟨(snapshot_chunks_exact 0 [107] (some 9)).1 [[97], [98]] _ rfl,
    (snapshot_chunks_exact 0 [107] none).2.1 _ _ rfl⟩

end MiniRedis.Aof
