import MiniRedis.Sections
import MiniRedis.InverseIndex

/-!
# The TTL index of one shard

The expiration rows of a shard are an inverse index of the deadlines of its
entries, and no row is empty. `IndexedAs` states this for an arbitrary tagging of
the keys, since a command updates the rows and the entries one after the other.
`Assigns` says all that a critical section does to a shard.
-/
namespace MiniRedis
open InverseIndex

namespace Shard

/-- The keys listed under a deadline. -/
def index (shard : Shard) (t : ExpireAt) : List Bytes := (shard.expirations.lookup t).getD []

structure IndexedAs (shard : Shard) (tag : Bytes → Option ExpireAt) : Prop where
  indexes : Indexes tag shard.index
  nonempty : ∀ t, shard.expirations.lookup t ≠ some []

def Indexed (shard : Shard) : Prop := shard.IndexedAs shard.deadline

/-- The stored entry of a key, as the locked shard sees it. -/
def stored (shard : Shard) (key : Bytes) : Option Entry := shard.entries.lookup key

theorem deadline_eq (shard : Shard) (key : Bytes) :
    shard.deadline key = (shard.stored key).bind Entry.expiresAt := rfl

theorem indexed_empty : Indexed {} where
  indexes := indexes_empty
  nonempty := by simp

theorem index_unindexExpiration (shard : Shard) (t : ExpireAt) (key : Bytes) :
    (shard.unindexExpiration t key).index = InverseIndex.drop shard.index t key := by
  have hrow : shard.index t = (shard.expirations.lookup t).getD [] := rfl
  unfold unindexExpiration InverseIndex.drop
  cases hl : shard.expirations.lookup t with
  | none =>
      rw [hrow, hl]
      exact (Function.update_eq_self_iff.mpr (by rw [hrow, hl]; rfl)).symm
  | some keys =>
      rw [hrow, hl]
      funext u
      dsimp only
      by_cases he : (keys.filter (· ≠ key)).isEmpty
      · rw [if_pos he]
        have hu := congrFun (FiniteMap.lookup_erase shard.expirations t) u
        simp only [index, hu, Option.getD_some, Function.update_apply, List.isEmpty_iff.mp he]
        split_ifs <;> rfl
      · rw [if_neg he]
        have hu := congrFun (FiniteMap.lookup_insert shard.expirations t
          (keys.filter (· ≠ key))) u
        simp only [index, hu, Option.getD_some, Function.update_apply]
        split_ifs <;> rfl

theorem index_pushExpiration (shard : Shard) (t : ExpireAt) (key : Bytes) :
    (shard.pushExpiration t key).index = InverseIndex.push shard.index t key := by
  funext u
  have hu := congrFun (FiniteMap.lookup_insert shard.expirations t (shard.index t ++ [key])) u
  simp only [index, pushExpiration, InverseIndex.push, Function.update_apply] at hu ⊢
  rw [hu]
  split_ifs <;> rfl

@[simp] theorem stored_unindexExpiration (shard : Shard) (t : ExpireAt) (key : Bytes) :
    (shard.unindexExpiration t key).stored = shard.stored := by
  unfold unindexExpiration
  cases shard.expirations.lookup t with
  | none => rfl
  | some keys => simp only [apply_ite]; split_ifs <;> rfl

@[simp] theorem stored_pushExpiration (shard : Shard) (t : ExpireAt) (key : Bytes) :
    (shard.pushExpiration t key).stored = shard.stored := rfl

@[simp] theorem stored_insertEntry (shard : Shard) (key : Bytes) (entry : Entry) :
    (shard.insertEntry key entry).stored = Function.update shard.stored key (some entry) :=
  FiniteMap.lookup_insert shard.entries key entry

@[simp] theorem stored_unindexCurrent (shard : Shard) (key : Bytes) :
    (shard.unindexCurrent key).stored = shard.stored := by
  unfold unindexCurrent
  split <;> simp

variable {shard : Shard} {tag : Bytes → Option ExpireAt}

theorem IndexedAs.unindexExpiration (h : shard.IndexedAs tag) {t : ExpireAt} {key : Bytes}
    (ht : tag key = some t) :
    (shard.unindexExpiration t key).IndexedAs (Function.update tag key none) where
  indexes := by
    rw [index_unindexExpiration]
    exact h.indexes.drop ht
  nonempty u := by
    have hu := h.nonempty u
    unfold Shard.unindexExpiration
    split
    case h_1 keys hl =>
      dsimp only
      split_ifs with he
      · rw [congrFun (FiniteMap.lookup_erase shard.expirations t) u, Function.update_apply]
        split_ifs
        · simp
        · exact hu
      · rw [congrFun (FiniteMap.lookup_insert shard.expirations t _) u, Function.update_apply]
        split_ifs
        · simpa [List.isEmpty_iff] using he
        · exact hu
    case h_2 => exact hu

theorem IndexedAs.pushExpiration (h : shard.IndexedAs tag) {key : Bytes} (hk : tag key = none)
    (t : ExpireAt) :
    (shard.pushExpiration t key).IndexedAs (Function.update tag key (some t)) where
  indexes := by
    rw [index_pushExpiration]
    exact h.indexes.push hk t
  nonempty u := by
    have hu := congrFun (FiniteMap.lookup_insert shard.expirations t (shard.index t ++ [key])) u
    change (shard.expirations.insert t (shard.index t ++ [key])).lookup u ≠ some []
    rw [hu, Function.update_apply]
    split_ifs
    · simp
    · exact h.nonempty u

/-- The rows do not depend on the entries. -/
theorem IndexedAs.insertEntry (h : shard.IndexedAs tag) (key : Bytes) (entry : Entry) :
    (shard.insertEntry key entry).IndexedAs tag := ⟨h.indexes, h.nonempty⟩

theorem Indexed.unindexCurrent (h : shard.Indexed) (key : Bytes) :
    (shard.unindexCurrent key).IndexedAs (Function.update shard.deadline key none) := by
  unfold Shard.unindexCurrent
  split
  case h_1 old ho => exact IndexedAs.unindexExpiration h ho
  case h_2 ho =>
    rw [Function.update_eq_self_iff.mpr ho.symm]
    exact h

/-- The rows of a key after its entry was replaced by one with deadline `d`. -/
theorem Indexed.reindex (h : shard.Indexed) (key : Bytes) (d : Option ExpireAt)
    {shard' : Shard} (hs : shard'.expirations = (shard.unindexCurrent key).expirations) :
    (match d with
      | some t => shard'.pushExpiration t key
      | none => shard').IndexedAs (Function.update shard.deadline key d) := by
  have hu := h.unindexCurrent key
  have hx : shard'.index = (shard.unindexCurrent key).index := by
    funext t
    rw [index, index, hs]
  have h' : shard'.IndexedAs (Function.update shard.deadline key none) :=
    ⟨by rw [hx]; exact hu.indexes, by rw [hs]; exact hu.nonempty⟩
  cases d with
  | none => exact h'
  | some t =>
      have hp := h'.pushExpiration (Function.update_self key none shard.deadline) t
      rwa [Function.update_idem] at hp

end Shard

/-- `shard'` is `shard` with the entry of `key` set to `o`, and an exact index stays exact. -/
structure Assigns (shard shard' : Shard) (key : Bytes) (o : Option Entry) : Prop where
  stored : shard'.stored = Function.update shard.stored key o
  indexed : shard.Indexed → shard'.Indexed

namespace Assigns
open Shard
variable {shard shard' shard'' : Shard} {key : Bytes} {o o' : Option Entry}

theorem refl (shard : Shard) (key : Bytes) : Assigns shard shard key (shard.stored key) :=
  ⟨by simp, id⟩

theorem trans (h : Assigns shard shard' key o) (h' : Assigns shard' shard'' key o') :
    Assigns shard shard'' key o' :=
  ⟨by rw [h'.stored, h.stored, Function.update_idem], h'.indexed ∘ h.indexed⟩

@[simp] theorem stored_self (h : Assigns shard shard' key o) : shard'.stored key = o := by
  rw [h.stored, Function.update_self]

theorem deadline (h : shard'.stored = Function.update shard.stored key o) :
    shard'.deadline = Function.update shard.deadline key (o.bind Entry.expiresAt) := by
  funext k
  rw [deadline_eq, h]
  by_cases hk : k = key
  · subst hk
    simp
  · rw [Function.update_of_ne hk, Function.update_of_ne hk]
    rfl

/-- The index of an updated shard need only fit the updated deadlines. -/
theorem of_indexedAs (hs : shard'.stored = Function.update shard.stored key o)
    (hi : shard.Indexed →
      shard'.IndexedAs (Function.update shard.deadline key (o.bind Entry.expiresAt))) :
    Assigns shard shard' key o :=
  ⟨hs, fun h => by
    rw [Indexed, deadline hs]
    exact hi h⟩

/-- A new value under the deadline that the key has already. -/
theorem insertEntry (entry : Entry) (h : shard.deadline key = entry.expiresAt) :
    Assigns shard (shard.insertEntry key entry) key (some entry) :=
  of_indexedAs (stored_insertEntry shard key entry) fun hi => by
    rw [Function.update_eq_self_iff.mpr (by rw [h, Option.bind_some])]
    exact IndexedAs.insertEntry hi key entry

theorem removeEntry (shard : Shard) (key : Bytes) :
    Assigns shard (shard.removeEntry key).2 key none := by
  have he : (fun k => (shard.entries.erase key).lookup k) =
      Function.update shard.stored key none := FiniteMap.lookup_erase shard.entries key
  unfold Shard.removeEntry
  split
  case h_1 hl =>
    have hl : shard.stored key = none := hl
    exact hl ▸ refl shard key
  case h_2 entry hl =>
    have hd : shard.deadline key = entry.expiresAt := by
      rw [Shard.deadline, hl, Option.bind_some]
    dsimp only
    split
    case h_1 t ht =>
      refine of_indexedAs ((stored_unindexExpiration _ t key).trans he) fun hi => ?_
      have hi' : IndexedAs { shard with entries := shard.entries.erase key } shard.deadline :=
        ⟨hi.indexes, hi.nonempty⟩
      exact hi'.unindexExpiration (hd.trans ht)
    case h_2 ht =>
      refine of_indexedAs he fun hi => ?_
      rw [Function.update_eq_self_iff.mpr (by rw [hd, ht, Option.bind_none])]
      exact ⟨hi.indexes, hi.nonempty⟩

/-- A new entry under a new deadline, after the old row of the key was dropped. -/
theorem reindex (shard : Shard) (key : Bytes) (entry : Entry) :
    Assigns shard
      (match entry.expiresAt with
        | some t => ((shard.unindexCurrent key).insertEntry key entry).pushExpiration t key
        | none => (shard.unindexCurrent key).insertEntry key entry) key (some entry) := by
  refine of_indexedAs ?_ fun hi => hi.reindex key entry.expiresAt rfl
  split <;> simp

end Assigns

namespace Shard
variable (now : ExpireAt) (shard : Shard) (key : Bytes)

/-- The entry of a key, unless it has expired. -/
def live : Option Entry := (shard.stored key).filter fun e => !entryExpired now e

theorem removeEntry_fst : (shard.removeEntry key).1 = shard.stored key := by
  unfold removeEntry stored
  cases shard.entries.lookup key with
  | none => rfl
  | some entry =>
      dsimp only
      split <;> rfl

/-- The first stale check of the source, by entry. -/
theorem expireIfStale_eq :
    shard.expireIfStale now key =
      if ((shard.stored key).map (entryExpired now)).getD false
      then (true, (shard.removeEntry key).2) else (false, shard) := by
  unfold expireIfStale deadline stored entryExpired
  cases shard.entries.lookup key with
  | none => rfl
  | some entry =>
      cases h : entry.expiresAt with
      | none => simp [h]
      | some t =>
          rcases Nat.lt_or_ge now t with hn | hn
          · simp [h, hn, Nat.not_le.mpr hn]
          · simp [h, hn, Nat.not_lt.mpr hn]

/-- The second one does the same. -/
theorem removeIfExpired_eq :
    Cmd.removeIfExpired now shard key = (shard.expireIfStale now key).2 := by
  rw [expireIfStale_eq, apply_ite Prod.snd]
  rfl

theorem live_of_fresh
    (h : ((shard.stored key).map (entryExpired now)).getD false = false) :
    shard.live now key = shard.stored key := by
  unfold live
  cases hs : shard.stored key with
  | none => rfl
  | some entry =>
      rw [hs] at h
      exact Option.filter_eq_some_iff.mpr ⟨rfl, by simpa using h⟩

theorem live_of_stale
    (h : ((shard.stored key).map (entryExpired now)).getD false = true) :
    shard.live now key = none := by
  unfold live
  cases hs : shard.stored key with
  | none => rfl
  | some entry =>
      rw [hs] at h
      exact Option.filter_eq_none_iff.mpr fun e he => by
        rw [← Option.some.inj he]
        simpa using h

/-- A stale check leaves the live entry; it answers true only where there is none. -/
theorem expireIfStale_spec :
    Assigns shard (shard.expireIfStale now key).2 key (shard.live now key) ∧
      ((shard.expireIfStale now key).1 = true → shard.live now key = none) := by
  rw [expireIfStale_eq]
  split_ifs with h
  · rw [live_of_stale now shard key h]
    exact ⟨Assigns.removeEntry shard key, fun _ => rfl⟩
  · rw [live_of_fresh now shard key (by simpa using h)]
    exact ⟨Assigns.refl shard key, by simp⟩

theorem assigns_expireIfStale :
    Assigns shard (shard.expireIfStale now key).2 key (shard.live now key) :=
  (expireIfStale_spec now shard key).1

end Shard
end MiniRedis
