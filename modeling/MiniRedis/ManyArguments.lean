import MiniRedis.LazyExpiry
import MiniRedis.ReplayAgreement
import MiniRedis.ResponseLimit
import Mathlib.Data.Set.Card

/-!
# Commands with many arguments

`HSET`, `HDEL` and `DEL` answer by how much a cardinality changed, and `EXISTS` how many
of its arguments are alive. `MSET` and `MGET` do for all of their keys what `SET` and `GET`
do for one.
-/
namespace MiniRedis
open Wire Cmd

variable {host : Host}

/-- The fields of a hash. A key without a hash has none. -/
def Slot.fields : Slot → HashMap Bytes Bytes
  | some ⟨.hash map, _⟩ => map
  | _ => ∅

namespace Cmd

/-! ## Hashes -/

theorem length_foldl_hsetOne (pairs : List (Bytes × Bytes)) (r : ℕ × HashMap Bytes Bytes) :
    (pairs.foldl hsetOne r).2.entries.length + r.1 =
      r.2.entries.length + (pairs.foldl hsetOne r).1 := by
  induction pairs generalizing r with
  | nil => rfl
  | cons p pairs ih =>
      have hrest := ih (hsetOne r p)
      have hone : (hsetOne r p).2.entries.length + r.1 =
          r.2.entries.length + (hsetOne r p).1 := by
        have hlen := FiniteMap.length_insert r.2 p.1 p.2
        simp only [hsetOne, hlen, ← Option.not_isSome]
        cases (r.2.lookup p.1).isSome with
        | true => rfl
        | false =>
            simp only [Bool.not_false, Bool.false_eq_true, if_true, if_false]
            omega
      rw [List.foldl_cons]
      omega

theorem length_foldl_hdelOne (fields : List Bytes) (r : ℕ × HashMap Bytes Bytes) :
    (fields.foldl hdelOne r).2.entries.length + (fields.foldl hdelOne r).1 =
      r.2.entries.length + r.1 := by
  induction fields generalizing r with
  | nil => rfl
  | cons f fields ih =>
      have hrest := ih (hdelOne r f)
      have hone : (hdelOne r f).2.entries.length + (hdelOne r f).1 = r.2.entries.length + r.1 := by
        have hlen := FiniteMap.length_erase r.2 f
        simp only [hdelOne]
        cases hs : (r.2.lookup f).isSome with
        | true =>
            rw [hs] at hlen
            simp only [if_true] at hlen ⊢
            omega
        | false =>
            rw [hs] at hlen
            simpa using hlen
      rw [List.foldl_cons]
      omega

variable {now : ExpireAt} {db : Db host} {key : Bytes}

/-- A successful `HSET` runs its loop on the fields of the live hash. -/
theorem hset_fields {pairs : List (Bytes × Bytes)}
    (hs : ∀ msg, (hset now db key pairs).1 ≠ .error msg) :
    (hset now db key pairs).1 =
        .integer (Int64.ofNat (pairs.foldl hsetOne (0, (db.view now key).fields)).1) ∧
      ((hset now db key pairs).2.view now key).fields =
        (pairs.foldl hsetOne (0, (db.view now key).fields)).2 := by
  obtain ⟨hr, hc⟩ := db.locked_acts
    (acts_update_container now key (.hash ∅) (hsetValue pairs))
  have hview := congrFun (hc.view now) key
  rw [Keyspace.alive_apply, Function.update_self] at hview
  change (hset now db key pairs).1 = _ at hr
  change (hset now db key pairs).2.view now key = _ at hview
  rw [hview]
  cases hk : db.view now key with
  | none =>
      rw [hk] at hr
      exact ⟨hr, rfl⟩
  | some entry =>
      have hfresh := Db.fresh_of_view hk
      rw [hk] at hr
      cases entry with
      | mk value deadline =>
          cases value with
          | hash map =>
              have halive : Slot.alive now
                (some ⟨.hash (pairs.foldl hsetOne (0, map)).2, deadline⟩) =
                  some ⟨.hash (pairs.foldl hsetOne (0, map)).2, deadline⟩ :=
                Slot.alive_eq_some.mpr ⟨rfl, hfresh⟩
              exact ⟨hr, congrArg Slot.fields halive⟩
          | string b | list l => exact (hs _ hr).elim

/-- There is nothing to take away from no fields. -/
theorem foldl_hdelOne_empty (fields : List Bytes) : fields.foldl hdelOne (0, ∅) = (0, ∅) := by
  induction fields with
  | nil => rfl
  | cons f fields ih => exact ih

/-- So does a successful `HDEL`, and the key goes with its last field. -/
theorem hdel_fields {fields : List Bytes}
    (hs : ∀ msg, (hdel now db key fields).1 ≠ .error msg) :
    (hdel now db key fields).1 =
        .integer (Int64.ofNat (fields.foldl hdelOne (0, (db.view now key).fields)).1) ∧
      ((hdel now db key fields).2.view now key).fields =
        (fields.foldl hdelOne (0, (db.view now key).fields)).2 ∧
      ((hdel now db key fields).2.entry key = none ↔
        (fields.foldl hdelOne (0, (db.view now key).fields)).2.entries = []) := by
  obtain ⟨hr, hc⟩ := db.locked_acts (acts_takeFrom now key (.integer 0) (hdelValue fields))
  have hentry := congrFun hc.entry key
  have hview := congrFun (hc.view now) key
  rw [Function.update_self] at hentry
  rw [Keyspace.alive_apply, Function.update_self] at hview
  change (hdel now db key fields).1 = _ at hr
  change (hdel now db key fields).2.entry key = _ at hentry
  change (hdel now db key fields).2.view now key = _ at hview
  rw [hview, hentry]
  cases hk : db.view now key with
  | none =>
      rw [hk] at hr
      simp only [Slot.fields, foldl_hdelOne_empty]
      exact ⟨hr, rfl, iff_of_true rfl rfl⟩
  | some entry =>
      have hfresh := Db.fresh_of_view hk
      rw [hk] at hr
      cases entry with
      | mk value deadline =>
          cases value with
          | hash map =>
              simp only [Slot.takeFrom, hdelValue, Slot.fields]
              refine ⟨hr, ?_⟩
              by_cases hempty : (fields.foldl hdelOne (0, map)).2.entries = []
              · rw [if_pos (List.isEmpty_iff.mpr hempty)]
                exact ⟨(AList.ext hempty).symm, iff_of_true rfl hempty⟩
              · have halive : Slot.alive now
                    (some ⟨.hash (fields.foldl hdelOne (0, map)).2, deadline⟩) =
                    some ⟨.hash (fields.foldl hdelOne (0, map)).2, deadline⟩ :=
                  Slot.alive_eq_some.mpr ⟨rfl, hfresh⟩
                rw [if_neg (mt List.isEmpty_iff.mp hempty), Option.map_some, halive]
                exact ⟨rfl, iff_of_false (Option.some_ne_none _) hempty⟩
          | string b | list l => exact (hs _ hr).elim

end Cmd

/-! ## Keys -/

namespace Keyspace

/-- The keys that have an entry. -/
def occupied (ks : Keyspace) : Set Bytes := {k | (ks k).isSome}

theorem mem_occupied {ks : Keyspace} {k : Bytes} : k ∈ ks.occupied ↔ (ks k).isSome = true := Iff.rfl

/-- Emptying slots one after the other counts the keys that go. -/
theorem ncard_removeAll (keys : List Bytes) {ks : Keyspace} (hfin : ks.occupied.Finite) :
    ks.occupied.ncard = (ks.removeAll keys).2.occupied.ncard + (ks.removeAll keys).1 := by
  induction keys generalizing ks with
  | nil => rfl
  | cons key keys ih =>
      have hocc : Keyspace.occupied (Function.update ks key none) = ks.occupied \ {key} := by
        ext k
        by_cases hk : k = key
        · simp [mem_occupied, hk]
        · simp [mem_occupied, hk]
      have hone : ks.occupied.ncard = (Keyspace.occupied (Function.update ks key none)).ncard +
          if (ks key).isSome then 1 else 0 := by
        rw [hocc]
        split_ifs with hs <;> rw [← mem_occupied] at hs
        · exact (Set.ncard_sdiff_singleton_add_one hs hfin).symm
        · rw [Set.sdiff_singleton_eq_self hs, Nat.add_zero]
      have hrest := ih (hocc ▸ hfin.sdiff)
      simp only [removeAll]
      omega

end Keyspace

namespace Db

theorem Valid.occupied_view {now : ExpireAt} {db : Db host} (h : db.Valid) :
    (db.view now).occupied = ↑((db.liveEntries now).map Prod.fst).toFinset := by
  ext k
  rw [List.coe_toFinset, Keyspace.mem_occupied, Set.mem_ofPred_eq, List.mem_map]
  constructor
  · intro hk
    obtain ⟨entry, he⟩ := Option.isSome_iff_exists.mp hk
    exact ⟨(k, entry), h.mem_liveEntries.mpr he, rfl⟩
  · rintro ⟨⟨k, entry⟩, he, rfl⟩
    exact Option.isSome_iff_exists.mpr ⟨entry, h.mem_liveEntries.mp he⟩

theorem Valid.ncard_view {now : ExpireAt} {db : Db host} (h : db.Valid) :
    (db.view now).occupied.ncard = (db.liveEntries now).length := by
  rw [h.occupied_view, Set.ncard_coe_finset, List.toFinset_card_of_nodup h.nodup_liveEntries,
    List.length_map]

/-- The last of the pairs with a key gives its value. -/
theorem assignedValue_last {f v : Bytes} {before after : List (Bytes × Bytes)}
    (h : f ∉ after.map Prod.fst) : assignedValue f (before ++ (f, v) :: after) = some v := by
  induction before with
  | nil =>
      rw [List.nil_append, assignedValue, assignedValue_eq_none.mpr h, if_pos rfl]
      rfl
  | cons p before ih =>
      rw [List.cons_append, assignedValue, ih]
      rfl

/-- `HSET`, `HDEL` and `DEL` reply by how much they changed the number of fields or of live
keys, and `EXISTS` counts its arguments. -/
theorem Served.count_replies {db : Db host} (h : db.Served) (now : ExpireAt) :
    (∀ key pairs, let r := (Command.hset key pairs).apply now db
      (∀ msg, r.1 ≠ .error msg) →
        (∃ n, r.1 = .integer (Int64.ofNat n) ∧ (r.2.view now key).fields.entries.length =
          (db.view now key).fields.entries.length + n) ∧
        (∀ f v before after, pairs = before ++ (f, v) :: after → f ∉ after.map Prod.fst →
          (r.2.view now key).fields.lookup f = some v) ∧
        ∀ f, f ∉ pairs.map Prod.fst →
          (r.2.view now key).fields.lookup f = (db.view now key).fields.lookup f) ∧
    (∀ key fields, let r := (Command.hdel key fields).apply now db
      (∀ msg, r.1 ≠ .error msg) →
        (∃ n, r.1 = .integer (Int64.ofNat n) ∧ (db.view now key).fields.entries.length =
          (r.2.view now key).fields.entries.length + n) ∧
        (r.2.entry key = none ↔ (r.2.view now key).fields.entries = []) ∧
        ∀ f, (r.2.view now key).fields.lookup f =
          if f ∈ fields then none else (db.view now key).fields.lookup f) ∧
    (∀ keys, let r := (Command.del keys).apply now db
      ∃ n, r.1 = .integer (Int64.ofNat n) ∧
        (db.liveEntries now).length = (r.2.liveEntries now).length + n) ∧
    ∀ keys, (Command.existsKeys keys).apply now db =
      (.integer (Int64.ofNat (keys.countP fun key => (db.view now key).isSome)), db) := by
  have hvalid := h.reachable.valid
  refine ⟨fun key pairs => ?hset, fun key fields => ?hdel, fun keys => ?del, fun keys => ?count⟩
  case hset =>
    intro r hs
    obtain ⟨hreply, hfields⟩ := hset_fields hs
    have hlen := length_foldl_hsetOne pairs (0, (db.view now key).fields)
    have hlookup := lookup_foldl_hsetOne pairs (0, (db.view now key).fields)
    rw [← hfields] at hlen hlookup
    refine ⟨⟨_, hreply, hlen⟩, fun f v before after hp hf => ?_, fun f hf => ?_⟩
    · exact (hlookup f).trans (by rw [hp, assignedValue_last hf, Option.some_or])
    · exact (hlookup f).trans (by rw [assignedValue_eq_none.mpr hf, Option.none_or])
  case hdel =>
    intro r hs
    obtain ⟨hreply, hfields, hgone⟩ := hdel_fields hs
    have hlen := length_foldl_hdelOne fields (0, (db.view now key).fields)
    have hlookup := lookup_foldl_hdelOne fields (0, (db.view now key).fields)
    rw [← hfields] at hlen hlookup hgone
    exact ⟨⟨_, hreply, hlen.symm⟩, hgone, hlookup⟩
  case del =>
    intro r
    have hr : Refines now db r keys (Transaction.remove keys).run := refines_del now db keys
    refine ⟨((db.view now).removeAll keys).1, hr.reply, ?_⟩
    have hview : r.2.view now = ((db.view now).removeAll keys).2 := by
      rw [hr.view]
      funext k
      rw [Keyspace.alive_apply]
      change Slot.alive now (((db.view now).removeAll keys).2 k) = _
      rw [Keyspace.removeAll_apply]
      split_ifs
      · rfl
      · exact congrFun (view_alive_self now db) k
    have hfin : (db.view now).occupied.Finite := by
      rw [hvalid.occupied_view]
      exact Finset.finite_toSet _
    have hcount := Keyspace.ncard_removeAll keys hfin
    rw [← hview, hvalid.ncard_view, (hr.valid hvalid).ncard_view] at hcount
    exact hcount
  case count => exact Prod.ext (existsKeys_eq db keys) rfl

theorem Served.count_replies_hset :
    let db : Db Server.oneShard := Db.new
    let r := (Command.hset [107] [([102], [49]), ([102], [50])]).apply 0 db
    (∃ n, r.1 = .integer (Int64.ofNat n) ∧ (r.2.view 0 [107]).fields.entries.length = 0 + n) ∧
      (r.2.view 0 [107]).fields.lookup [102] = some [50] := by
  intro db r
  have hs : ∀ msg, r.1 ≠ .error msg := fun msg hn => by cases hn
  obtain ⟨hcount, hlast, -⟩ :=
    (Served.count_replies .new 0).1 [107] [([102], [49]), ([102], [50])] hs
  exact ⟨hcount, hlast [102] [50] [([102], [49])] [] rfl (List.not_mem_nil)⟩

end Db

/-! ## Strings -/

namespace Cmd
variable {now : ExpireAt} {db : Db host}

/-- The section of `mset` for a pair is the one of `set` without options. -/
theorem msetLoop_eq (pairs : List (Bytes × Bytes)) (db : Db host)
    (h : ∀ p ∈ pairs, bulkResponseFits p.2.length = true) :
    msetLoop pairs db =
      pairs.foldl (fun db p => ((Command.set p.1 p.2 none).apply now db).2) db := by
  induction pairs generalizing db with
  | nil => rfl
  | cons p pairs ih =>
      have hfit := h p List.mem_cons_self
      have hset : ((Command.set p.1 p.2 none).apply now db).2 =
          (db.locked p.1 fun shard => ((), msetSection p.1 p.2 shard)).2 := by
        change (setAt db p.1 p.2 none).2 = _
        rw [setAt, if_pos hfit]
        rfl
      rw [List.foldl_cons, hset, ← ih _ fun q hq => h q (List.mem_cons_of_mem p hq)]
      rfl

theorem get_cases (now : ExpireAt) (db : Db host) (key : Bytes) :
    (get now db key).isError = false ∧ mgetFrame now db key = get now db key ∨
      get now db key = wrongType ∧ mgetFrame now db key = .null := by
  unfold mgetFrame get readLive
  cases db.entry key with
  | none => exact Or.inl ⟨rfl, rfl⟩
  | some entry =>
      dsimp only
      split_ifs with hexp
      · exact Or.inl ⟨rfl, rfl⟩
      · cases entry.value with
        | string b => exact Or.inl ⟨rfl, rfl⟩
        | list l | hash m => exact Or.inr ⟨rfl, rfl⟩

/-- `GET` errs on a value of another type only, and `MGET` answers null there. -/
theorem mgetFrame_eq (key : Bytes) :
    ((get now db key).isError = true → get now db key = wrongType) ∧
      mgetFrame now db key = if (get now db key).isError then .null else get now db key := by
  rcases get_cases now db key with ⟨hok, hmget⟩ | ⟨herr, hmget⟩
  · rw [hmget, hok]
    exact ⟨fun h => Bool.noConfusion h, rfl⟩
  · rw [hmget, herr]
    exact ⟨fun _ => rfl, rfl⟩

end Cmd

/-- `MSET` leaves the database that `SET` leaves pair by pair, or does nothing. `MGET` sends
what `GET` answers key by key, with null for a value of another type. -/
theorem Db.mset_mget (now : ExpireAt) (db : Db host) :
    (∀ pairs, (∀ p ∈ pairs, bulkResponseFits p.2.length = true) →
      (Command.mset pairs).apply now db = (.simple "OK",
        pairs.foldl (fun db p => ((Command.set p.1 p.2 none).apply now db).2) db)) ∧
    (∀ pairs, (∃ p ∈ pairs, bulkResponseFits p.2.length = false) →
      (Command.mset pairs).apply now db = (responseTooLarge, db)) ∧
    (∀ key, ((Command.get key).apply now db).1.isError = true →
      ((Command.get key).apply now db).1 = wrongType) ∧
    ∀ keys, let frames := keys.map fun key =>
        if ((Command.get key).apply now db).1.isError then .null
        else ((Command.get key).apply now db).1
      Fits (.array frames) → (Command.mget keys).apply now db = (.array frames, db) := by
  refine ⟨fun pairs h => ?fits, fun pairs h => ?refused, fun key => (mgetFrame_eq key).1,
    fun keys => ?mget⟩
  case fits =>
    change mset db pairs = _
    rw [mset, if_neg, msetLoop_eq pairs db h]
    intro hany
    obtain ⟨p, hp, hn⟩ := List.any_eq_true.mp hany
    rw [h p hp] at hn
    cases hn
  case refused =>
    obtain ⟨p, hp, hn⟩ := h
    change mset db pairs = _
    rw [mset, if_pos]
    exact List.any_eq_true.mpr ⟨p, hp, by rw [hn]; rfl⟩
  case mget =>
    intro frames hf
    have hframes : keys.map (mgetFrame now db) = frames :=
      List.map_congr_left fun key _ => (mgetFrame_eq key).2
    refine Prod.ext ?_ rfl
    change mget now db keys = _
    rw [mget_eq, hframes, limited_of_fits hf]

theorem Db.mset_mget_twice :
    let db : Db Server.oneShard := ((Command.set [107] [118] (some 9)).apply 0 Db.new).2
    (Command.mset [([107], [49]), ([107], [50])]).apply 5 db = (.simple "OK",
      ((Command.set [107] [50] none).apply 5
        ((Command.set [107] [49] none).apply 5 db).2).2) ∧
    (Command.mget [[107], [108]]).apply 5 db = (.array [.bulk [118], .null], db) := by
  intro db
  obtain ⟨hmset, -, -, hmget⟩ := Db.mset_mget 5 db
  refine ⟨hmset _ fun p hp => ?_, hmget [[107], [108]] (by decide : _ ≤ _)⟩
  simp only [List.mem_cons, List.not_mem_nil, or_false] at hp
  rcases hp with rfl | rfl <;> decide

end MiniRedis
