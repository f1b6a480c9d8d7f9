import MiniRedis.Command

/-!
# What the commands mean

The purpose of the database, without shards, index rows or expired entries: a
keyspace maps keys to live entries, and a write command is a transaction on it.
Most transactions change the slot of one key, as a function of what that slot
holds.
-/
namespace MiniRedis

variable {host : Host}

abbrev Slot := Option Entry
abbrev Keyspace := Bytes → Slot

/-- A slot at a clock reading: an entry is there until its deadline. -/
def Slot.alive (now : ExpireAt) (slot : Slot) : Slot := slot.filter fun e => !entryExpired now e

def Keyspace.alive (now : ExpireAt) (ks : Keyspace) : Keyspace := fun k => (ks k).alive now

/-- The live view of a database. -/
def Db.view (now : ExpireAt) (db : Db host) : Keyspace := Keyspace.alive now db.entry

namespace Slot

/-- Change the value in a slot, which holds `default` if it was empty. -/
def update (default : Value) (body : Value → Frame × Value) (slot : Slot) : Frame × Slot :=
  let entry := slot.getD ⟨default, none⟩
  ((body entry.value).1, some { entry with value := (body entry.value).2 })

/-- Take from the value in a slot, and empty the slot if nothing is left. -/
def takeFrom (missing : Frame) (body : Value → Frame × Option Value) : Slot → Frame × Slot
  | none => (missing, none)
  | some entry =>
      ((body entry.value).1, (body entry.value).2.map fun value => { entry with value := value })

def expire (now deadline : ExpireAt) : Slot → Frame × Slot
  | none => (.integer 0, none)
  | some entry => (.integer 1,
      if deadline ≤ now then none else some { entry with expiresAt := some deadline })

def persist : Slot → Frame × Slot
  | some ⟨value, some _⟩ => (.integer 1, some ⟨value, none⟩)
  | slot => (.integer 0, slot)

end Slot

/-- Empty the slots of the keys one after the other, counting those that held an entry. -/
def Keyspace.removeAll : List Bytes → Keyspace → ℕ × Keyspace
  | [], ks => (0, ks)
  | key :: keys, ks =>
      let r := removeAll keys (Function.update ks key none)
      ((if (ks key).isSome then 1 else 0) + r.1, r.2)

def Keyspace.setAll : List (Bytes × Bytes) → Keyspace → Keyspace
  | [], ks => ks
  | (key, value) :: pairs, ks =>
      setAll pairs (Function.update ks key (some ⟨.string value, none⟩))

inductive Transaction where
  /-- An error before anything is touched. -/
  | refuse (reply : Frame)
  | on (key : Bytes) (slot : Slot → Frame × Slot)
  | remove (keys : List Bytes)
  | assign (pairs : List (Bytes × Bytes))

def Transaction.run : Transaction → Keyspace → Frame × Keyspace
  | refuse reply, ks => (reply, ks)
  | on key slot, ks => ((slot (ks key)).1, Function.update ks key (slot (ks key)).2)
  | remove keys, ks =>
      let r := ks.removeAll keys
      (.integer (Int64.ofNat r.1), r.2)
  | assign pairs, ks => (.simple "OK", ks.setAll pairs)

namespace Command
open Cmd Wire

def popMissing : Option ℕ → Frame
  | none => .null
  | some _ => .nullArray

/-- What a write command does to the keyspace; the other commands have no transaction. -/
def transaction (now : ExpireAt) : Command → Option Transaction
  | set key value expiresAt => some <|
      if bulkResponseFits value.length then
        .on key fun _ => (.simple "OK", some ⟨.string value, expiresAt⟩)
      else .refuse responseTooLarge
  | del keys => some (.remove keys)
  | incr k => some (.on k (Slot.update (.string zeroBytes) (incrValue 1)))
  | decr k => some (.on k (Slot.update (.string zeroBytes) (incrValue (-1))))
  | incrBy k n => some (.on k (Slot.update (.string zeroBytes) (incrValue n)))
  | decrBy k n => some <|
      match checkedNegI64 n with
      | some neg => .on k (Slot.update (.string zeroBytes) (incrValue neg))
      | none => .refuse overflow
  | append k v => some (.on k (Slot.update (.string []) (appendValue v)))
  | mset pairs => some <|
      if pairs.any fun p => !bulkResponseFits p.2.length then .refuse responseTooLarge
      else .assign pairs
  | expire k d | pexpire k d | pexpireAt k d => some (.on k (Slot.expire now d))
  | persist k => some (.on k Slot.persist)
  | lpush k vs => some (.on k (Slot.update (.list []) (pushValue vs .left)))
  | rpush k vs => some (.on k (Slot.update (.list []) (pushValue vs .right)))
  | lpop k c => some (.on k (Slot.takeFrom (popMissing c) (popValue c .left)))
  | rpop k c => some (.on k (Slot.takeFrom (popMissing c) (popValue c .right)))
  | hset k pairs => some (.on k (Slot.update (.hash ∅) (hsetValue pairs)))
  | hdel k fs => some (.on k (Slot.takeFrom (.integer 0) (hdelValue fs)))
  | hincrby k f n => some (.on k (Slot.update (.hash ∅) (hincrbyValue f n)))
  | _ => none

theorem isWrite_iff_transaction (now : ExpireAt) (c : Command) :
    c.isWrite = (c.transaction now).isSome := by
  cases c <;> rfl

end Command

/-! ## Time -/

theorem entryExpired_iff {now : ExpireAt} {entry : Entry} :
    entryExpired now entry = true ↔ ∃ t, entry.expiresAt = some t ∧ t ≤ now := by
  unfold entryExpired
  cases entry.expiresAt <;> simp

theorem entryExpired_eq_false {now : ExpireAt} {entry : Entry} :
    entryExpired now entry = false ↔ ∀ t, entry.expiresAt = some t → now < t := by
  unfold entryExpired
  cases entry.expiresAt <;> simp

theorem entryExpired_mono {now later : ExpireAt} (h : now ≤ later) {entry : Entry}
    (he : entryExpired now entry = true) : entryExpired later entry = true := by
  obtain ⟨t, ht, hn⟩ := entryExpired_iff.mp he
  exact entryExpired_iff.mpr ⟨t, ht, hn.trans h⟩

namespace Slot

@[simp] theorem alive_none (now : ExpireAt) : Slot.alive now none = none := rfl

theorem alive_eq_some {now : ExpireAt} {slot : Slot} {entry : Entry} :
    slot.alive now = some entry ↔ slot = some entry ∧ entryExpired now entry = false := by
  rw [alive, Option.filter_eq_some_iff, Bool.not_eq_true']

theorem alive_of_persistent {now : ExpireAt} {entry : Entry} (h : entry.expiresAt = none) :
    Slot.alive now (some entry) = some entry :=
  alive_eq_some.mpr ⟨rfl, by rw [entryExpired, h]⟩

theorem alive_of_le {now t : ExpireAt} {entry : Entry} (h : entry.expiresAt = some t)
    (ht : t ≤ now) : Slot.alive now (some entry) = none :=
  Option.filter_eq_none_iff.mpr fun e he => by
    rw [← Option.some.inj he, entryExpired_iff.mpr ⟨t, h, ht⟩]
    decide

theorem alive_of_lt {now t : ExpireAt} {entry : Entry} (h : entry.expiresAt = some t)
    (ht : now < t) : Slot.alive now (some entry) = some entry :=
  alive_eq_some.mpr ⟨rfl, by
    rw [entryExpired, h]
    exact decide_eq_false (Nat.not_le.mpr ht)⟩

/-- What is dead stays dead. -/
theorem alive_alive {now later : ExpireAt} (h : now ≤ later) (slot : Slot) :
    (slot.alive now).alive later = slot.alive later := by
  cases slot with
  | none => rfl
  | some entry =>
      cases he : entryExpired now entry with
      | true =>
          have hl := entryExpired_mono h he
          simp [alive, Option.filter, he, hl]
      | false => rw [alive_eq_some.mpr ⟨rfl, he⟩]

end Slot

theorem Keyspace.alive_apply (now : ExpireAt) (ks : Keyspace) (k : Bytes) :
    ks.alive now k = (ks k).alive now := rfl

theorem Keyspace.alive_update (now : ExpireAt) (ks : Keyspace) (k : Bytes) (slot : Slot) :
    Keyspace.alive now (Function.update ks k slot) =
      Function.update (ks.alive now) k (slot.alive now) := by
  funext k'
  simp only [Keyspace.alive_apply, Function.update_apply]
  split_ifs <;> rfl

/-- An entry of the live view has not expired. -/
theorem Db.fresh_of_view {now : ExpireAt} {db : Db host} {k : Bytes} {entry : Entry}
    (h : db.view now k = some entry) : entryExpired now entry = false :=
  (Slot.alive_eq_some.mp h).2

theorem Db.view_alive {now later : ExpireAt} (h : now ≤ later) (db : Db host) :
    (db.view now).alive later = db.view later := by
  funext k
  exact Slot.alive_alive h (db.entry k)

@[simp] theorem Db.view_alive_self (now : ExpireAt) (db : Db host) :
    (db.view now).alive now = db.view now := Db.view_alive le_rfl db

theorem Db.view_congr {now later : ExpireAt} (h : now ≤ later) {db db' : Db host}
    (hv : db.view now = db'.view now) : db.view later = db'.view later := by
  rw [← Db.view_alive h, hv, Db.view_alive h]

/-! ## Multi-key transactions -/

theorem Keyspace.removeAll_apply (keys : List Bytes) (ks : Keyspace) (k : Bytes) :
    (ks.removeAll keys).2 k = if k ∈ keys then none else ks k := by
  induction keys generalizing ks with
  | nil => simp [removeAll]
  | cons key keys ih =>
      rw [removeAll, ih, Function.update_apply]
      by_cases h : k ∈ keys
      · simp [h]
      · simp [h, List.mem_cons]

/-- The value that an assignment leaves under a key: the last one given for it. -/
def assignedValue (k : Bytes) : List (Bytes × Bytes) → Option Bytes
  | [] => none
  | (key, value) :: pairs => assignedValue k pairs <|> if k = key then some value else none

theorem assignedValue_eq_none {k : Bytes} {pairs : List (Bytes × Bytes)} :
    assignedValue k pairs = none ↔ k ∉ pairs.map (·.1) := by
  induction pairs with
  | nil => simp [assignedValue]
  | cons p pairs ih =>
      simp only [assignedValue, List.map_cons, List.mem_cons, not_or, ← ih]
      cases assignedValue k pairs <;> simp

theorem Keyspace.setAll_apply (pairs : List (Bytes × Bytes)) (ks : Keyspace) (k : Bytes) :
    ks.setAll pairs k =
      ((assignedValue k pairs).map fun v => (⟨.string v, none⟩ : Entry)).or (ks k) := by
  induction pairs generalizing ks with
  | nil => rfl
  | cons p pairs ih =>
      rw [setAll, ih, Function.update_apply, assignedValue]
      cases assignedValue k pairs with
      | none => split_ifs <;> simp
      | some v => rfl

end MiniRedis
