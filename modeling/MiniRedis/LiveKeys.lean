import MiniRedis.Replies
import MiniRedis.SnapshotChunks

/-!
# What is stored can be read and rewritten

Stored values are well formed in every database that clients, sweeps and rollbacks can
lead to. So a live string is answered within the limit, and a rewrite that succeeds has
a command for every key that is alive when it is its turn.
-/
namespace MiniRedis
open Wire ParserRoundTrip

variable {host : Host}

namespace Aof

/-- The bytes start with a command that gives the key a value. -/
def Creates (key : Bytes) (bytes : Bytes) : Prop :=
  ∃ name args rest, name ∈ ["SET", "RPUSH", "HSET"] ∧
    bytes = encode (commandFrame (asBytes name :: key :: args)) [] ++ rest

theorem creates_of_write {name : String} (hname : name ∈ ["SET", "RPUSH", "HSET"]) {key : Bytes}
    {args : List Bytes} {bytes : Bytes}
    (h : writeReplayableSnapshotFrame (commandFrame (asBytes name :: key :: args)) = .ok bytes) :
    Creates key bytes := by
  obtain ⟨len, -, h⟩ := PrefixCode.bind_eq_ok.mp h
  split_ifs at h
  exact ⟨name, args, [], hname, by rw [List.append_nil, Except.ok.inj h]⟩

theorem Creates.append {key a b : Bytes} (h : Creates key a) : Creates key (a ++ b) := by
  obtain ⟨name, args, rest, hname, rfl⟩ := h
  exact ⟨name, args, rest ++ b, hname, List.append_assoc ..⟩

/-- The frame of a `SET`, whatever its deadline. -/
theorem setFrame_command (now : ExpireAt) (key value : Bytes) (expiresAt : Option ExpireAt) :
    ∃ args, setFrame now key value expiresAt = commandFrame (asBytes "SET" :: key :: args) := by
  cases expiresAt with
  | none => exact ⟨[value], rfl⟩
  | some d =>
      simp only [setFrame, setExpiryParts]
      split_ifs
      · exact ⟨[value, asBytes "PXAT", Numeral.decimal d], rfl⟩
      · exact ⟨[value, asBytes "PX", Numeral.decimal (relativeMillisForAof now d)], rfl⟩

theorem creates_set {now : ExpireAt} {key value bytes : Bytes} {expiresAt : Option ExpireAt}
    (h : writeReplayableSnapshotFrame (setFrame now key value expiresAt) = .ok bytes) :
    Creates key bytes := by
  obtain ⟨args, hargs⟩ := setFrame_command now key value expiresAt
  rw [hargs] at h
  exact creates_of_write (by decide) h

theorem creates_string {now : ExpireAt} {key value bytes : Bytes} {expiresAt : Option ExpireAt}
    (h : writeStringSnapshot now key value expiresAt = .ok bytes) : Creates key bytes := by
  rw [writeStringSnapshot] at h
  split_ifs at h
  · exact creates_set h
  · obtain ⟨emptySet, hset, h⟩ := PrefixCode.bind_eq_ok.mp h
    obtain ⟨chunkLen, -, h⟩ := PrefixCode.bind_eq_ok.mp h
    split_ifs at h
    obtain ⟨chunks, -, h⟩ := PrefixCode.bind_eq_ok.mp h
    obtain ⟨expiry, -, h⟩ := PrefixCode.bind_eq_ok.mp h
    rw [← Except.ok.inj h, List.append_assoc]
    exact (creates_set hset).append

/-- The first run of a container that is not empty. -/
theorem creates_runs {A : Type} {name : String} (hname : name ∈ ["SET", "RPUSH", "HSET"])
    {key : Bytes} {itemArgs : A → List Bytes} {c : Chunking A} (hc : c.Writes name key itemArgs)
    {items : List A} (hne : items ≠ []) {expiry : Written} {bytes : Bytes}
    (h : (do
      let chunks ← writeChunks c items [] 0
      let expiry ← expiry
      .ok (chunks ++ expiry) : Written) = .ok bytes) : Creates key bytes := by
  obtain ⟨runs, chunks, rest, -, hp, -, rfl⟩ := writeChunks_parts hc h
  cases runs with
  | nil => exact (hne hp.items.symm).elim
  | cons run runs =>
      rw [hp.bytes, List.flatMap_cons, List.append_assoc]
      exact ⟨name, _, _, hname, rfl⟩

/-- A live entry is written as commands for its key. -/
theorem creates_entry {now : ExpireAt} {key bytes : Bytes} {entry : Entry}
    (hw : entry.value.WellFormed) (he : entryExpired now entry = false)
    (h : writeSnapshotEntry now key entry = .ok bytes) : Creates key bytes := by
  rw [writeSnapshotEntry, he] at h
  cases entry with
  | mk value expiresAt =>
      cases value with
      | string value => exact creates_string h
      | list values =>
          have hne : values.isEmpty = false := List.isEmpty_eq_false_iff.mpr hw.1
          simp only [hne, Bool.false_eq_true, if_false] at h
          exact creates_runs (by decide) (writes_listChunking key) hw.1 h
      | hash values =>
          have hne : values.entries.isEmpty = false := List.isEmpty_eq_false_iff.mpr hw.1
          have hfields : sortedFields values ≠ [] := fun hn => by
            have hperm := (List.perm_insertionSort (fun a b => bytesLe a.1 b.1 = true)
              (values.entries.map fun e => (e.1, e.2))).length_eq
            rw [show List.insertionSort _ _ = sortedFields values from rfl, hn,
              List.length_map] at hperm
            exact hw.1 (List.eq_nil_of_length_eq_zero hperm.symm)
          simp only [hne, Bool.false_eq_true, if_false] at h
          exact creates_runs (by decide) (writes_hashChunking key) hfields h

/-- The part of a snapshot that is written for one of its entries. -/
theorem writeSnapshotEntries_part {clock : Bytes → ExpireAt} {entries : List (Bytes × Entry)}
    {bytes : Bytes} (h : writeSnapshotEntries clock entries = .ok bytes) {e : Bytes × Entry}
    (he : e ∈ entries) : ∃ before own after, bytes = before ++ own ++ after ∧
      writeSnapshotEntry (clock e.1) e.1 e.2 = .ok own := by
  induction entries generalizing bytes with
  | nil => cases he
  | cons first entries ih =>
      obtain ⟨a, ha, h⟩ := PrefixCode.bind_eq_ok.mp h
      obtain ⟨b, hb, h⟩ := PrefixCode.bind_eq_ok.mp h
      rw [← Except.ok.inj h]
      cases List.mem_cons.mp he with
      | inl hfirst => exact ⟨[], a, b, rfl, hfirst ▸ ha⟩
      | inr hrest =>
          obtain ⟨before, own, after, rfl, hown⟩ := ih hb hrest
          exact ⟨a ++ before, own, after, by simp only [List.append_assoc], hown⟩

end Aof

namespace Db

/-- What is stored is well formed: no empty container, no string that is too long for a
reply. A live string is answered and sent, and a live key is in every rewrite. -/
theorem Served.live_keys_kept {db : Db host} (h : db.Served) :
    (∀ k expiresAt, db.entry k ≠ some ⟨.list [], expiresAt⟩) ∧
    (∀ k m expiresAt, db.entry k = some ⟨.hash m, expiresAt⟩ → m.entries ≠ []) ∧
    (∀ k s expiresAt, db.entry k = some ⟨.string s, expiresAt⟩ → bulkResponseFits s.length = true) ∧
    (∀ now k s expiresAt, db.view now k = some ⟨.string s, expiresAt⟩ →
      (Command.get k).apply now db = (.bulk s, db) ∧ Server.Sendable (.bulk s)) ∧
    ∀ now clock bytes, Aof.writeSnapshotEntries clock (db.aofSnapshotEntries now) = .ok bytes →
      ∀ k entry, db.view now k = some entry → entryExpired (clock k) entry = false →
        ∃ before own after, bytes = before ++ own ++ after ∧ Aof.Creates k own := by
  have hw := h.wellFormed
  refine ⟨fun k e he => (hw k _ he).1 rfl, fun k m e he => (hw k _ he).1, fun k s e he => hw k _ he,
    fun now k s e hv => ?_, fun now clock bytes hbytes k entry hv he => ?_⟩
  · obtain ⟨hentry, hfresh⟩ := Slot.alive_eq_some.mp hv
    have hget : Cmd.get now db k = .bulk s := by
      rw [Cmd.get, Cmd.readLive, hentry]
      exact if_neg (Bool.eq_false_iff.mp hfresh)
    exact ⟨Prod.ext hget rfl, (Server.sendable_iff _).mpr (Fits.bulk (hw k _ hentry))⟩
  · have hmem := (Aof.mem_aofSnapshotEntries h.reachable.valid).mpr hv
    obtain ⟨before, own, after, hb, hown⟩ := Aof.writeSnapshotEntries_part hbytes hmem
    have hvalue := hw k entry (Slot.alive_eq_some.mp hv).1
    exact ⟨before, own, after, hb, Aof.creates_entry hvalue he hown⟩

theorem Served.live_keys_kept_set :
    let db : Db Server.oneShard := ((Command.set [107] [118] (some 1100)).apply 5 Db.new).2
    (Command.get [107]).apply 5 db = (.bulk [118], db) ∧ Server.Sendable (.bulk [118]) :=
  (Served.live_keys_kept (.apply .new 5 Server.fromClient_set)).2.2.2.1 5 [107] [118]
    (some 1100) rfl

end Db
end MiniRedis
