import MiniRedis.SnapshotReplay

/-!
# Commands on equal contents

A snapshot gives a hash back in another order. No write command sees the order: on slots
with the same contents it answers alike and leaves the same contents.
-/
namespace MiniRedis
open Wire Cmd

/-! ## Values -/

namespace Value

theorem Same.refl (v : Value) : v.Same v := by
  cases v with
  | string b => exact rfl
  | list l => exact rfl
  | hash m => exact fun _ => rfl

/-- Only hashes can have the same contents without being equal. -/
theorem Same.eq_or_hash {v v' : Value} (h : v.Same v') :
    v = v' ∨ ∃ m m', v = .hash m ∧ v' = .hash m' ∧ ∀ f, m.lookup f = m'.lookup f := by
  cases v with
  | string b => cases v' with
    | string b' => exact Or.inl (congrArg Value.string h)
    | list l' | hash m' => exact h.elim
  | list l => cases v' with
    | list l' => exact Or.inl (congrArg Value.list h)
    | string b' | hash m' => exact h.elim
  | hash m => cases v' with
    | hash m' => exact Or.inr ⟨m, m', rfl, rfl, h⟩
    | string b' | list l' => exact h.elim

/-- The change answers alike on the same contents and leaves the same contents. -/
def Respects (body : Value → Frame × Value) : Prop :=
  ∀ v v', v.Same v' → (body v).1 = (body v').1 ∧ (body v).2.Same (body v').2

theorem respects_of_hash {body : Value → Frame × Value}
    (h : ∀ m m' : HashMap Bytes Bytes, (∀ f, m.lookup f = m'.lookup f) →
      (body (.hash m)).1 = (body (.hash m')).1 ∧ (body (.hash m)).2.Same (body (.hash m')).2) :
    Respects body := by
  intro v v' hs
  rcases hs.eq_or_hash with rfl | ⟨m, m', rfl, rfl, hm⟩
  · exact ⟨rfl, Same.refl _⟩
  · exact h m m' hm

end Value

namespace Cmd

theorem respects_incrValue (delta : Int64) : Value.Respects (incrValue delta) :=
  Value.respects_of_hash fun _ _ hm => ⟨rfl, hm⟩

theorem respects_appendValue (suffix : Bytes) : Value.Respects (appendValue suffix) :=
  Value.respects_of_hash fun _ _ hm => ⟨rfl, hm⟩

theorem respects_pushValue (values : List Bytes) (side : PushSide) :
    Value.Respects (pushValue values side) :=
  Value.respects_of_hash fun _ _ hm => ⟨rfl, hm⟩

variable {m m' : HashMap Bytes Bytes}

theorem lookup_insert_congr (h : ∀ f, m.lookup f = m'.lookup f) (field value f : Bytes) :
    (m.insert field value).lookup f = (m'.insert field value).lookup f := by
  rw [FiniteMap.lookup_insert_apply, FiniteMap.lookup_insert_apply, h]

theorem foldl_hsetOne_congr (pairs : List (Bytes × Bytes)) (n : ℕ)
    (h : ∀ f, m.lookup f = m'.lookup f) :
    (pairs.foldl hsetOne (n, m)).1 = (pairs.foldl hsetOne (n, m')).1 ∧
      ∀ f, (pairs.foldl hsetOne (n, m)).2.lookup f = (pairs.foldl hsetOne (n, m')).2.lookup f := by
  induction pairs generalizing n m m' with
  | nil => exact ⟨rfl, h⟩
  | cons p pairs ih =>
      simp only [List.foldl_cons, hsetOne, h p.1]
      exact ih _ (lookup_insert_congr h p.1 p.2)

theorem foldl_hdelOne_congr (fields : List Bytes) (n : ℕ) (h : ∀ f, m.lookup f = m'.lookup f) :
    (fields.foldl hdelOne (n, m)).1 = (fields.foldl hdelOne (n, m')).1 ∧
      ∀ f, (fields.foldl hdelOne (n, m)).2.lookup f =
        (fields.foldl hdelOne (n, m')).2.lookup f := by
  induction fields generalizing n m m' with
  | nil => exact ⟨rfl, h⟩
  | cons field fields ih =>
      simp only [List.foldl_cons, hdelOne, h field]
      refine ih _ fun f => ?_
      rw [FiniteMap.lookup_erase_apply, FiniteMap.lookup_erase_apply, h]

theorem respects_hsetValue (pairs : List (Bytes × Bytes)) : Value.Respects (hsetValue pairs) :=
  Value.respects_of_hash fun _ _ hm => by
    have hfold := foldl_hsetOne_congr pairs 0 hm
    exact ⟨congrArg (fun n => Frame.integer (Int64.ofNat n)) hfold.1, hfold.2⟩

theorem respects_hincrbyValue (field : Bytes) (delta : Int64) :
    Value.Respects (hincrbyValue field delta) :=
  Value.respects_of_hash fun m m' hm => by
    have hopen : ∀ f, (if (m'.lookup field).isSome then m else m.insert field zeroBytes).lookup f =
        (if (m'.lookup field).isSome then m' else m'.insert field zeroBytes).lookup f := by
      intro f
      split_ifs
      · exact hm f
      · exact lookup_insert_congr hm field zeroBytes f
    simp only [hincrbyValue, hm field]
    cases readI64 ((m'.lookup field).getD zeroBytes) with
    | none => exact ⟨rfl, hopen⟩
    | some n =>
        dsimp only
        cases checkedAddI64 n delta with
        | none => exact ⟨rfl, hopen⟩
        | some new => exact ⟨rfl, lookup_insert_congr hopen field (Numeral.signed new.toInt)⟩

end Cmd

/-! ## Slots -/

namespace Slot

theorem Same.refl (s : Slot) : s.Same s := by
  cases s with
  | none => exact trivial
  | some entry => exact ⟨Value.Same.refl _, rfl⟩

/-- Two slots with the same contents are both empty, or both hold an entry. -/
theorem Same.eq_none_or_some {s s' : Slot} (h : s.Same s') :
    s = none ∧ s' = none ∨ ∃ value value' e, s = some ⟨value, e⟩ ∧ s' = some ⟨value', e⟩ ∧
      value.Same value' := by
  cases s with
  | none => cases s' with
    | none => exact Or.inl ⟨rfl, rfl⟩
    | some entry' => exact h.elim
  | some entry => cases s' with
    | none => exact h.elim
    | some entry' =>
        cases entry with
        | mk value e =>
            cases entry' with
            | mk value' e' =>
                obtain rfl : e = e' := h.2
                exact Or.inr ⟨value, value', e, rfl, rfl, h.1⟩

/-- The same at a later clock. -/
theorem Same.alive {s s' : Slot} (h : s.Same s') (now : ExpireAt) :
    (s.alive now).Same (s'.alive now) := by
  rcases h.eq_none_or_some with ⟨rfl, rfl⟩ | ⟨value, value', e, rfl, rfl, hv⟩
  · exact trivial
  · exact same_alive hv now e

/-- The change answers alike on the same contents and leaves the same contents. -/
def Respects (f : Slot → Frame × Slot) : Prop :=
  ∀ s s' : Slot, s.Same s' → (f s).1 = (f s').1 ∧ (f s).2.Same (f s').2

theorem respects_const (r : Frame × Slot) : Respects fun _ => r := fun _ _ _ => ⟨rfl, Same.refl _⟩

theorem respects_update {body : Value → Frame × Value} (h : Value.Respects body)
    (default : Value) : Respects (Slot.update default body) := by
  intro s s' hs
  rcases hs.eq_none_or_some with ⟨rfl, rfl⟩ | ⟨value, value', e, rfl, rfl, hv⟩
  · exact ⟨rfl, Same.refl _⟩
  · have hb := h value value' hv
    exact ⟨hb.1, hb.2, rfl⟩

/-- A change that may take everything: what it does to a hash decides. -/
theorem respects_takeFrom {body : Value → Frame × Option Value}
    (h : ∀ m m' : HashMap Bytes Bytes, (∀ f, m.lookup f = m'.lookup f) → ∀ e : Option ExpireAt,
      (body (.hash m)).1 = (body (.hash m')).1 ∧
        Slot.Same ((body (.hash m)).2.map fun value => ⟨value, e⟩)
          ((body (.hash m')).2.map fun value => ⟨value, e⟩))
    (missing : Frame) : Respects (Slot.takeFrom missing body) := by
  intro s s' hs
  rcases hs.eq_none_or_some with ⟨rfl, rfl⟩ | ⟨value, value', e, rfl, rfl, hv⟩
  · exact ⟨rfl, trivial⟩
  · rcases hv.eq_or_hash with rfl | ⟨m, m', rfl, rfl, hm⟩
    · exact ⟨rfl, Same.refl _⟩
    · exact h m m' hm e

theorem respects_expire (now deadline : ExpireAt) : Respects (Slot.expire now deadline) := by
  intro s s' hs
  rcases hs.eq_none_or_some with ⟨rfl, rfl⟩ | ⟨value, value', e, rfl, rfl, hv⟩
  · exact ⟨rfl, trivial⟩
  · refine ⟨rfl, ?_⟩
    unfold Slot.expire
    dsimp only
    split_ifs
    · exact trivial
    · exact ⟨hv, rfl⟩

theorem respects_persist : Respects Slot.persist := by
  intro s s' hs
  rcases hs.eq_none_or_some with ⟨rfl, rfl⟩ | ⟨value, value', e, rfl, rfl, hv⟩
  · exact ⟨rfl, trivial⟩
  · cases e with
    | none => exact ⟨rfl, hs⟩
    | some d => exact ⟨rfl, hv, rfl⟩

end Slot

namespace Cmd

theorem respects_pop (missing : Frame) (count : Option ℕ) (side : PopSide) :
    Slot.Respects (Slot.takeFrom missing (popValue count side)) :=
  Slot.respects_takeFrom (fun m m' hm e => by exact ⟨rfl, hm, rfl⟩) missing

theorem respects_hdel (missing : Frame) (fields : List Bytes) :
    Slot.Respects (Slot.takeFrom missing (hdelValue fields)) :=
  Slot.respects_takeFrom (fun m m' hm e => by
    have hfold := foldl_hdelOne_congr fields 0 hm
    refine ⟨congrArg (fun n => Frame.integer (Int64.ofNat n)) hfold.1, ?_⟩
    have hempty : (fields.foldl hdelOne (0, m)).2.entries.isEmpty =
        (fields.foldl hdelOne (0, m')).2.entries.isEmpty := by
      have hlen := (FiniteMap.entries_perm hfold.2).length_eq
      rw [Bool.eq_iff_iff, List.isEmpty_iff_length_eq_zero, List.isEmpty_iff_length_eq_zero, hlen]
    simp only [hdelValue, hempty]
    split_ifs
    · exact trivial
    · exact ⟨hfold.2, rfl⟩) missing

end Cmd

/-! ## Transactions -/

namespace Transaction
variable {a b : Keyspace}

theorem respects_on {f : Slot → Frame × Slot} (h : Slot.Respects f) {key : Bytes}
    (hs : (a key).Same (b key)) :
    ((on key f).run a).1 = ((on key f).run b).1 ∧
      (((on key f).run a).2 key).Same (((on key f).run b).2 key) := by
  have hf := h _ _ hs
  refine ⟨hf.1, ?_⟩
  simp only [run, Function.update_self]
  exact hf.2

theorem removeAll_congr {keys : List Bytes} (h : ∀ k ∈ keys, (a k).Same (b k)) :
    (a.removeAll keys).1 = (b.removeAll keys).1 := by
  induction keys generalizing a b with
  | nil => rfl
  | cons key keys ih =>
      have hkey := (h key List.mem_cons_self).eq_none_or_some
      have hrest : ∀ k ∈ keys,
          (Function.update a key none k).Same (Function.update b key none k) := by
        intro k hk
        rw [Function.update_apply, Function.update_apply]
        split_ifs
        · exact trivial
        · exact h k (List.mem_cons_of_mem key hk)
      have hsome : (a key).isSome = (b key).isSome := by
        rcases hkey with ⟨ha, hb⟩ | ⟨value, value', e, ha, hb, -⟩
        · rw [ha, hb]
        · rw [ha, hb]
          rfl
      simp only [Keyspace.removeAll, ih hrest, hsome]

end Transaction

namespace Command

/-- A transaction on keyspaces with the same contents at the keys it changes. -/
theorem transaction_respects {now : ExpireAt} {c : Command} {t : Transaction}
    (ht : c.transaction now = some t) {a b : Keyspace}
    (h : ∀ k ∈ c.mutatedKeys, (a k).Same (b k)) :
    (t.run a).1 = (t.run b).1 ∧ ∀ k ∈ c.mutatedKeys, ((t.run a).2 k).Same ((t.run b).2 k) := by
  have on_ : ∀ {key : Bytes} {f : Slot → Frame × Slot}, c.mutatedKeys = [key] → Slot.Respects f →
      ((Transaction.on key f).run a).1 = ((Transaction.on key f).run b).1 ∧
        ∀ k ∈ c.mutatedKeys,
          (((Transaction.on key f).run a).2 k).Same (((Transaction.on key f).run b).2 k) := by
    intro key f hkeys hf
    have hkey := Transaction.respects_on hf (h key (hkeys ▸ List.mem_cons_self))
    refine ⟨hkey.1, fun k hk => ?_⟩
    rw [hkeys] at hk
    obtain rfl := List.mem_singleton.mp hk
    exact hkey.2
  have refuse_ : ∀ reply, ((Transaction.refuse reply).run a).1 =
    ((Transaction.refuse reply).run b).1 ∧
      ∀ k ∈ c.mutatedKeys,
        (((Transaction.refuse reply).run a).2 k).Same (((Transaction.refuse reply).run b).2 k) :=
    fun reply => ⟨rfl, h⟩
  cases c with
  | set key value e =>
      obtain rfl := Option.some.inj ht
      split_ifs
      · exact on_ rfl (Slot.respects_const _)
      · exact refuse_ _
  | del keys =>
      obtain rfl := Option.some.inj ht
      refine ⟨congrArg (fun n => Frame.integer (Int64.ofNat n)) (Transaction.removeAll_congr h),
        fun k hk => ?_⟩
      have hmem : k ∈ keys := hk
      simp only [Transaction.run, Keyspace.removeAll_apply, if_pos hmem]
      exact trivial
  | mset pairs =>
      obtain rfl := Option.some.inj ht
      split_ifs
      · exact refuse_ _
      · refine ⟨rfl, fun k hk => ?_⟩
        simp only [Transaction.run, Keyspace.setAll_apply]
        cases assignedValue k pairs with
        | none => exact h k hk
        | some v => exact Slot.Same.refl _
  | decrBy k n =>
      obtain rfl := Option.some.inj ht
      cases Cmd.checkedNegI64 n with
      | some neg => exact on_ rfl (Slot.respects_update (respects_incrValue neg) _)
      | none => exact refuse_ _
  | incr k | decr k | incrBy k n =>
      obtain rfl := Option.some.inj ht
      exact on_ rfl (Slot.respects_update (respects_incrValue _) _)
  | append k v =>
      obtain rfl := Option.some.inj ht
      exact on_ rfl (Slot.respects_update (respects_appendValue v) _)
  | expire k d | pexpire k d | pexpireAt k d =>
      obtain rfl := Option.some.inj ht
      exact on_ rfl (Slot.respects_expire now d)
  | persist k =>
      obtain rfl := Option.some.inj ht
      exact on_ rfl Slot.respects_persist
  | lpush k vs | rpush k vs =>
      obtain rfl := Option.some.inj ht
      exact on_ rfl (Slot.respects_update (respects_pushValue vs _) _)
  | lpop k count | rpop k count =>
      obtain rfl := Option.some.inj ht
      exact on_ rfl (respects_pop _ count _)
  | hset k pairs =>
      obtain rfl := Option.some.inj ht
      exact on_ rfl (Slot.respects_update (respects_hsetValue pairs) _)
  | hdel k fs =>
      obtain rfl := Option.some.inj ht
      exact on_ rfl (respects_hdel _ fs)
  | hincrby k f n =>
      obtain rfl := Option.some.inj ht
      exact on_ rfl (Slot.respects_update (respects_hincrbyValue f n) _)
  | _ => cases ht

end Command
end MiniRedis
