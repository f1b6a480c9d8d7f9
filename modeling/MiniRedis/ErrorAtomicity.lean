import MiniRedis.Reachability

/-!
# Commands that answer with an error

An update may insert the default value before it finds out that it must fail. The
defaults of `INCR`, of the pushes and of the hash commands cannot fail. The empty
string that `APPEND` inserts can: the suffix alone may exceed the limit, and then
the new key stays.
-/
namespace MiniRedis
open Wire Cmd

variable {host : Host}

namespace Slot

/-- The slot is as it was, if the answer is an error. -/
def Atomic (slot : Slot → Frame × Slot) (s : Slot) : Prop :=
  (slot s).1.isError = true → (slot s).2 = s

theorem atomic_update {default : Value} {body : Value → Frame × Value}
    (hb : ∀ v, (body v).1.isError = true → (body v).2 = v) {s : Slot}
    (hd : s = none → (body default).1.isError = false) : Atomic (Slot.update default body) s := by
  intro he
  cases s with
  | none => exact absurd he (by simp [Slot.update, hd rfl])
  | some entry => exact congrArg (fun v => some { entry with value := v }) (hb entry.value he)

theorem atomic_takeFrom {missing : Frame} {body : Value → Frame × Option Value}
    (hb : ∀ v, (body v).1.isError = true → (body v).2 = some v)
    (s : Slot) : Atomic (Slot.takeFrom missing body) s := by
  intro he
  cases s with
  | none => rfl
  | some entry => exact congrArg (Option.map _) (hb entry.value he)

end Slot

namespace Cmd

theorem incrValue_error (delta : Int64) (v : Value) (h : (incrValue delta v).1.isError = true) :
    (incrValue delta v).2 = v := by
  unfold incrValue at h ⊢
  split
  · split
    · rfl
    · split
      · rfl
      · simp_all [Frame.isError]
  · rfl

@[simp] theorem checkedAddI64_zero (n : Int64) : checkedAddI64 0 n = some n := by
  rw [checkedAddI64, show (0 : Int64).toInt = 0 from rfl, Int.zero_add, Numeral.int64?_toInt]

@[simp] theorem readI64_zeroBytes : readI64 zeroBytes = some 0 := by decide

theorem incrValue_default (delta : Int64) :
    incrValue delta (.string zeroBytes) =
      (.integer delta, .string (Numeral.signed delta.toInt)) := by
  simp only [incrValue, readI64_zeroBytes, checkedAddI64_zero]

theorem appendValue_error (suffix : Bytes) (v : Value)
    (h : (appendValue suffix v).1.isError = true) : (appendValue suffix v).2 = v := by
  unfold appendValue at h ⊢
  split
  · split
    · rfl
    · split_ifs
      · simp_all [Frame.isError]
      · rfl
  · rfl

theorem checkedAdd_of_fits {a b : ℕ} (h : bulkResponseFits (a + b) = true) :
    checkedAdd a b = some (a + b) := by
  have hl := (bulkResponseFits_iff (a + b)).mp h
  have hmax : maxResponseFrameBytes < 2 ^ 64 := by decide
  exact usize?_eq_some.mpr ⟨rfl, by unfold bulkLen at hl; omega⟩

/-- The value after an append whose result fits, and the error of one whose result does not. -/
theorem appendValue_string (suffix b : Bytes) :
    appendValue suffix (.string b) =
      if bulkResponseFits (b.length + suffix.length)
      then (.integer (Int64.ofNat (b ++ suffix).length), .string (b ++ suffix))
      else (responseTooLarge, .string b) := by
  unfold appendValue
  split_ifs with h
  · simp only [checkedAdd_of_fits h, h, if_true]
  · dsimp only
    split
    · rfl
    · rename_i n hn
      rw [← (usize?_eq_some.mp hn).1, if_neg h]

theorem pushValue_error (values : List Bytes) (side : PushSide) (v : Value)
    (h : (pushValue values side v).1.isError = true) : (pushValue values side v).2 = v := by
  cases v with
  | list l => cases h
  | string b | hash m => rfl

theorem hsetValue_error (pairs : List (Bytes × Bytes)) (v : Value)
    (h : (hsetValue pairs v).1.isError = true) : (hsetValue pairs v).2 = v := by
  cases v with
  | hash m => cases h
  | string b | list l => rfl

/-- A field that `HINCRBY` has just inserted holds a number. -/
theorem hincrbyValue_new {field : Bytes} {map : HashMap Bytes Bytes} (delta : Int64)
    (h : map.lookup field = none) :
    (hincrbyValue field delta (.hash map)).1 = .integer delta := by
  simp only [hincrbyValue, h, Option.getD_none, readI64_zeroBytes, checkedAddI64_zero]

theorem hincrbyValue_error (field : Bytes) (delta : Int64) (v : Value)
    (h : (hincrbyValue field delta v).1.isError = true) :
    (hincrbyValue field delta v).2 = v := by
  cases v with
  | hash map =>
      cases hf : map.lookup field with
      | none =>
          rw [hincrbyValue_new delta hf] at h
          cases h
      | some b =>
          simp only [hincrbyValue, hf, Option.isSome_some, if_true] at h ⊢
          split
          · rfl
          · split
            · rfl
            · simp_all [Frame.isError]
  | string b | list l => rfl

theorem popReply_isError (count : Option ℕ) (popped : List Bytes) :
    (popReply count popped).isError = false := by
  unfold popReply
  split <;> rfl

theorem popValue_error (count : Option ℕ) (side : PopSide) (v : Value)
    (h : (popValue count side v).1.isError = true) : (popValue count side v).2 = some v := by
  cases v with
  | list l =>
      unfold popValue at h ⊢
      dsimp only at h ⊢
      split_ifs at h ⊢ with h₁ h₂
      · rfl
      · rfl
      · simp [popReply_isError] at h
      · simp [popReply_isError] at h
  | string b | hash m => rfl

theorem hdelValue_error (fields : List Bytes) (v : Value)
    (h : (hdelValue fields v).1.isError = true) : (hdelValue fields v).2 = some v := by
  cases v with
  | hash m => cases h
  | string b | list l => rfl

end Cmd

namespace Command

/-- An `APPEND` to a key that is not there, of a suffix that no reply could return. -/
def OversizedAppend (ks : Keyspace) (c : Command) : Prop :=
  ∃ key value, c = append key value ∧ ks key = none ∧ bulkResponseFits value.length = false

/-- Every transaction that answers with an error is a no-op, oversized appends aside. -/
theorem transaction_atomic {now : ExpireAt} {c : Command} {t : Transaction}
    (ht : c.transaction now = some t) {ks : Keyspace} (hc : ¬ c.OversizedAppend ks)
    (he : (t.run ks).1.isError = true) : (t.run ks).2 = ks := by
  have on_ : ∀ {key slot}, Slot.Atomic slot (ks key) →
      ((Transaction.on key slot).run ks).1.isError = true →
      ((Transaction.on key slot).run ks).2 = ks := fun ha he =>
    Function.update_eq_self_iff.mpr (ha he)
  have incr_ : ∀ (k : Bytes) (n : Int64),
      Slot.Atomic (Slot.update (.string zeroBytes) (incrValue n)) (ks k) := fun k n =>
    Slot.atomic_update (incrValue_error n) fun _ => by rw [incrValue_default]; rfl
  cases c with
  | set key value expiresAt =>
      obtain rfl := Option.some.inj ht
      split_ifs at he ⊢
      · cases he
      · rfl
  | del keys =>
      obtain rfl := Option.some.inj ht
      cases he
  | incr k | decr k | incrBy k n =>
      obtain rfl := Option.some.inj ht
      exact on_ (incr_ _ _) he
  | decrBy k n =>
      obtain rfl := Option.some.inj ht
      cases hn : checkedNegI64 n with
      | some neg =>
          rw [hn] at he
          exact on_ (incr_ _ _) he
      | none => rfl
  | append k v =>
      obtain rfl := Option.some.inj ht
      refine on_ (Slot.atomic_update (appendValue_error v) fun hk => ?_) he
      have hf : bulkResponseFits v.length = true := by
        by_contra hf
        exact hc ⟨k, v, rfl, hk, by simpa using hf⟩
      rw [appendValue_string, List.length_nil, Nat.zero_add, if_pos hf]
      rfl
  | mset pairs =>
      obtain rfl := Option.some.inj ht
      split_ifs at he ⊢
      · rfl
      · cases he
  | expire k d | pexpire k d | pexpireAt k d =>
      obtain rfl := Option.some.inj ht
      refine on_ (fun he => ?_) he
      cases hs : ks k <;> simp [hs, Slot.expire, Frame.isError] at he
  | persist k =>
      obtain rfl := Option.some.inj ht
      refine on_ (fun he => ?_) he
      rcases hs : ks k with _ | ⟨v, _ | d⟩ <;> simp [hs, Slot.persist, Frame.isError] at he
  | lpush k vs | rpush k vs =>
      obtain rfl := Option.some.inj ht
      exact on_ (Slot.atomic_update (pushValue_error vs _) fun _ => rfl) he
  | lpop k count | rpop k count =>
      obtain rfl := Option.some.inj ht
      exact on_ (Slot.atomic_takeFrom (popValue_error count _) _) he
  | hset k pairs =>
      obtain rfl := Option.some.inj ht
      exact on_ (Slot.atomic_update (hsetValue_error pairs) fun _ => rfl) he
  | hdel k fs =>
      obtain rfl := Option.some.inj ht
      exact on_ (Slot.atomic_takeFrom (hdelValue_error fs) _) he
  | hincrby k f n =>
      obtain rfl := Option.some.inj ht
      refine on_ (Slot.atomic_update (hincrbyValue_error f n) fun _ => ?_) he
      rw [hincrbyValue_new n rfl]
      rfl
  | _ => cases ht

/-- The oversized append answers with an error and leaves an empty string behind. -/
theorem apply_oversizedAppend (now : ExpireAt) (db : Db host) (key value : Bytes)
    (hk : db.view now key = none) (hv : bulkResponseFits value.length = false) :
    ((append key value).apply now db).1 = responseTooLarge ∧
      ((append key value).apply now db).2.view now key = some ⟨.string [], none⟩ := by
  have hr := (append key value).apply_refines now db
  have hb : appendValue value (.string []) = (responseTooLarge, .string []) := by
    rw [appendValue_string, List.length_nil, Nat.zero_add, if_neg (by simp [hv])]
  constructor
  · rw [hr.reply]
    simp only [Transaction.run, hk, Slot.update, Option.getD_none, hb]
  · rw [hr.view, Keyspace.alive_apply]
    simp only [Transaction.run, hk, Slot.update, Option.getD_none, hb, Function.update_self]
    exact Slot.alive_of_persistent rfl

theorem view_of_error {now : ExpireAt} {db : Db host} {c : Command}
    (hc : ¬ c.OversizedAppend (db.view now)) (he : (c.apply now db).1.isError = true) :
    (c.apply now db).2.view now = db.view now := by
  have hr := c.apply_refines now db
  cases ht : c.transaction now with
  | some t =>
      rw [ht] at hr
      rw [hr.reply] at he
      rw [hr.view, transaction_atomic ht hc he, Db.view_alive_self]
  | none =>
      rw [ht] at hr
      exact Db.view_of_shards hr

/-- A command that answers with an error changes nothing, unless it is an `APPEND` of an
oversized suffix to a missing key. -/
theorem error_changes_nothing_iff (now : ExpireAt) (db : Db host) (c : Command) :
    ((c.apply now db).1.isError = true → (c.apply now db).2.view now = db.view now) ↔
      ¬ c.OversizedAppend (db.view now) := by
  constructor
  · rintro h ⟨key, value, rfl, hk, hv⟩
    obtain ⟨h₁, h₂⟩ := apply_oversizedAppend now db key value hk hv
    rw [h (by rw [h₁]; rfl), hk] at h₂
    cases h₂
  · intro hc he
    exact view_of_error hc he

/-- The suffix that fails: one byte more than a reply can hold. -/
theorem append_error_creates_key :
    ¬ ∀ (db : Db ⟨fun _ => 0, 1⟩) (now : ExpireAt) (c : Command), db.Reachable →
      (c.apply now db).1.isError = true → (c.apply now db).2.view now = db.view now := by
  intro h
  have hv : bulkResponseFits (List.replicate 67108852 (0 : UInt8)).length = false := by
    rw [List.length_replicate]
    decide
  obtain ⟨h₁, h₂⟩ := apply_oversizedAppend 0 (Db.new : Db ⟨fun _ => 0, 1⟩) [107]
    (List.replicate 67108852 0) rfl hv
  rw [h Db.new 0 _ .new (by rw [h₁]; rfl)] at h₂
  cases h₂

end Command
end MiniRedis
