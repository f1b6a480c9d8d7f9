import MiniRedis.StoredValues

/-!
# The sizes of replies

The replies of the commands over well-formed stored values. Arrays stop at the limit
while they are counted, single values fit because they were let in, and the other
replies are short.
-/
namespace MiniRedis
open Numeral Wire ParserRoundTrip

variable {host : Host}

/-- The frame is within the limit of `write_frame`. -/
def Fits (frame : Frame) : Prop := (wire frame).length ≤ maxResponseFrameBytes

/-- The limit leaves room for every short reply. -/
theorem le_maxResponse {n : ℕ} (h : n ≤ 67108864) : n ≤ maxResponseFrameBytes := h

namespace Fits

@[simp] theorem null : Fits .null := le_maxResponse (by decide)

@[simp] theorem nullArray : Fits .nullArray := le_maxResponse (by decide)

@[simp] theorem emptyArray : Fits (.array []) := le_maxResponse (by decide)

@[simp] theorem integer (n : Int64) : Fits (.integer n) := by
  have h := length_signed_le n
  apply le_maxResponse
  simp only [wire, List.length_cons, List.length_append, List.length_nil]
  omega

theorem length_wire_error (s : String) : (wire (.error s)).length = (asBytes s).length + 3 := by
  simp only [wire, List.length_cons, List.length_append, List.length_nil]

theorem error_iff (s : String) :
    Fits (.error s) ↔ (asBytes s).length + 3 ≤ maxResponseFrameBytes := by
  rw [Fits, length_wire_error]

theorem bulk_iff (b : Bytes) : Fits (.bulk b) ↔ Answerable b := by
  rw [Fits, length_wire_bulk, Answerable, bulkResponseFits_iff]

theorem bulk {b : Bytes} (h : Answerable b) : Fits (.bulk b) := (bulk_iff b).mpr h

end Fits

namespace Cmd

@[simp] theorem fits_ok : Fits (.simple "OK") := le_maxResponse (by decide)
@[simp] theorem fits_wrongType : Fits wrongType := le_maxResponse (by decide)
@[simp] theorem fits_overflow : Fits overflow := le_maxResponse (by decide)
@[simp] theorem fits_notInt : Fits notInt := le_maxResponse (by decide)
@[simp] theorem fits_hashNotInt : Fits hashNotInt := le_maxResponse (by decide)
@[simp] theorem fits_responseTooLarge : Fits responseTooLarge := le_maxResponse (by decide)

/-! ## Arrays -/

/-- One step of the running length: the sum, which the limit bounds. -/
theorem checkedAdd_step {a : Option ℕ} {n total : ℕ} {B : Type} {f : ℕ → Option B} {r : B}
    (ha : a = usize? n)
    (h : (a.bind fun n => (checkedAddResponseLen total n).bind f) = some r) :
    total + n ≤ maxResponseFrameBytes ∧ f (total + n) = some r := by
  obtain ⟨n', hn, h⟩ := Option.bind_eq_some_iff.mp h
  obtain rfl := (usize?_eq_some.mp (ha.symm.trans hn)).1
  rw [checkedAddResponseLen_eq] at h
  split_ifs at h with hle
  · exact ⟨hle, h⟩
  · cases h

theorem addBulks_eq_some {values : List Bytes} {total m : ℕ} (h : addBulks values total = some m) :
    m = total + argsLen values ∧ (values ≠ [] → m ≤ maxResponseFrameBytes) := by
  induction values generalizing total with
  | nil => exact ⟨(Option.some.inj h).symm, fun hn => (hn rfl).elim⟩
  | cons v values ih =>
      have hstep := checkedAdd_step (respBulkLen_eq v.length) h
      have hrest := ih hstep.2
      rw [argsLen_cons, ← Nat.add_assoc]
      refine ⟨hrest.1, fun _ => ?_⟩
      cases values with
      | nil => exact hrest.1 ▸ hstep.1
      | cons w values => exact hrest.2 (List.cons_ne_nil w values)

/-- An array that was counted up to its end is within the limit. -/
theorem fits_counted {values : List Bytes} {m : ℕ}
    (h : (respArrayHeaderLen values.length).bind (addBulks values) = some m) :
    Fits (.array (values.map .bulk)) := by
  obtain ⟨header, hheader, h⟩ := Option.bind_eq_some_iff.mp h
  rw [respArrayHeaderLen_eq] at hheader
  obtain rfl := (usize?_eq_some.mp hheader).1
  have hm := addBulks_eq_some h
  cases values with
  | nil => exact Fits.emptyArray
  | cons v values =>
      rw [Fits, show Frame.array ((v :: values).map .bulk) = commandFrame (v :: values) from rfl,
        length_wire_args]
      exact hm.1 ▸ hm.2 (List.cons_ne_nil v values)

theorem fits_bulkArrayFromIter {len : ℕ} {values : List Bytes} (h : len = values.length) :
    Fits (bulkArrayFromIter len values) := by
  unfold bulkArrayFromIter
  split
  · rename_i m hm
    exact fits_counted (h ▸ hm)
  · exact fits_responseTooLarge

theorem mgetFrame_cases (now : ExpireAt) (db : Db host) (key : Bytes) :
    (∃ b, mgetFrame now db key = .bulk b) ∨ mgetFrame now db key = .null := by
  unfold mgetFrame readLive
  split
  · split_ifs
    · exact Or.inr rfl
    · dsimp only
      split
      · exact Or.inl ⟨_, rfl⟩
      · exact Or.inr rfl
  · exact Or.inr rfl

/-- What `mget` counts for one answer is its length on the wire. -/
theorem mgetLen_eq (now : ExpireAt) (db : Db host) (key : Bytes) :
    mgetLen (mgetFrame now db key) = usize? (wire (mgetFrame now db key)).length := by
  rcases mgetFrame_cases now db key with ⟨b, h⟩ | h
  · rw [h, length_wire_bulk]
    exact respBulkLen_eq b.length
  · rw [h]
    rfl

theorem mgetLoop_eq_some {now : ExpireAt} {db : Db host} {keys : List Bytes} {total : ℕ}
    {frames : List Frame} (h : mgetLoop now db keys total = some frames) :
    frames.length = keys.length ∧ (keys ≠ [] →
      total + (frames.map fun f => (wire f).length).sum ≤ maxResponseFrameBytes) := by
  induction keys generalizing total frames with
  | nil =>
      rw [← Option.some.inj h]
      exact ⟨rfl, fun hn => (hn rfl).elim⟩
  | cons key keys ih =>
      have hstep := checkedAdd_step (mgetLen_eq now db key) h
      obtain ⟨rest, hrest, rfl⟩ := Option.map_eq_some_iff.mp hstep.2
      have hr := ih hrest
      rw [List.length_cons, List.length_cons, hr.1, List.map_cons, List.sum_cons, ← Nat.add_assoc]
      refine ⟨rfl, fun _ => ?_⟩
      cases keys with
      | nil =>
          obtain rfl := List.length_eq_zero_iff.mp hr.1
          exact hstep.1
      | cons k keys => exact hr.2 (List.cons_ne_nil k keys)

theorem fits_mget (now : ExpireAt) (db : Db host) (keys : List Bytes) :
    Fits (mget now db keys) := by
  unfold mget
  split
  · rename_i frames hf
    obtain ⟨header, hheader, hf⟩ := Option.bind_eq_some_iff.mp hf
    rw [respArrayHeaderLen_eq] at hheader
    obtain rfl := (usize?_eq_some.mp hheader).1
    have h := mgetLoop_eq_some hf
    rw [Fits, length_wire_array, h.1]
    cases keys with
    | nil =>
        obtain rfl := List.length_eq_zero_iff.mp h.1
        exact Fits.emptyArray
    | cons key keys => exact h.2 (List.cons_ne_nil key keys)
  · exact fits_responseTooLarge

/-- The values that `pop` takes, as `pop_array_response_too_large` sees them. -/
theorem popLoop_fst (side : PopSide) (n : ℕ) (list : List Bytes) :
    (popLoop side n list).1 = match side with
      | .left => list.take n
      | .right => list.reverse.take n := by
  induction n generalizing list with
  | zero => cases side <;> rfl
  | succ n ih =>
      simp only [popLoop, ih]
      cases side with
      | left => cases list <;> simp [popOne]
      | right =>
          rcases List.eq_nil_or_concat list with rfl | ⟨list, v, rfl⟩
          · simp [popOne]
          · simp [popOne]

theorem fits_popArray {list : List Bytes} {n : ℕ} {side : PopSide} (hn : n ≤ list.length)
    (h : popArrayResponseTooLarge list n side = false) :
    Fits (.array ((popLoop side n list).1.map .bulk)) := by
  have hlen : (popLoop side n list).1.length = n := by
    rw [popLoop_fst]
    cases side <;> simp [hn]
  have hsum : popArrayResponseTooLarge list n side =
      ((respArrayHeaderLen n).bind (addBulks (popLoop side n list).1)).isNone := by
    rw [popLoop_fst]
    rfl
  rw [hsum, Option.isNone_eq_false_iff, Option.isSome_iff_exists] at h
  cases h with
  | intro m hm => exact fits_counted (m := m) (by rwa [hlen])

/-! ## Reads -/

/-- A read answers for a well-formed value, or for none. -/
theorem fits_readLive {now : ExpireAt} {db : Db host} (h : Keyspace.WellFormed db.entry)
    (key : Bytes) {missing : Frame} (hm : Fits missing) {found : Value → Frame}
    (hf : ∀ v, v.WellFormed → Fits (found v)) : Fits (readLive now db key missing found) := by
  unfold readLive
  split
  · rename_i entry he
    split_ifs
    · exact hm
    · exact hf entry.value (h key entry he)
  · exact hm

section
variable {now : ExpireAt} {db : Db host} (h : Keyspace.WellFormed db.entry)
include h

theorem fits_get (key : Bytes) : Fits (get now db key) :=
  fits_readLive h key .null fun v hv => by
    cases v with
    | string b => exact Fits.bulk hv
    | list l | hash m => exact fits_wrongType

theorem fits_lindex (key : Bytes) (idx : Int64) : Fits (lindex now db key idx) :=
  fits_readLive h key .null fun v hv => by
    cases v with
    | list l =>
        dsimp only
        split
        · rename_i v hi
          obtain ⟨i, -, hi⟩ := Option.bind_eq_some_iff.mp hi
          exact Fits.bulk (hv.2 v (List.mem_of_getElem? hi))
        · exact Fits.null
    | string b | hash m => exact fits_wrongType

theorem fits_hget (key field : Bytes) : Fits (hget now db key field) :=
  fits_readLive h key .null fun v hv => by
    cases v with
    | hash m =>
        dsimp only
        split
        · rename_i v hf
          exact Fits.bulk (hv.2 field v hf)
        · exact Fits.null
    | string b | list l => exact fits_wrongType

theorem fits_lrange (key : Bytes) (start stop : Int64) : Fits (lrange now db key start stop) :=
  fits_readLive h key .emptyArray fun v _ => by
    cases v with
    | list l =>
        dsimp only
        split_ifs
        · exact Fits.emptyArray
        · exact fits_bulkArrayFromIter rfl
    | string b | hash m => exact fits_wrongType

theorem fits_hkeys (key : Bytes) : Fits (hkeys now db key) :=
  fits_readLive h key .emptyArray fun v _ => by
    cases v with
    | hash m => exact fits_bulkArrayFromIter (List.length_map _).symm
    | string b | list l => exact fits_wrongType

theorem fits_hvals (key : Bytes) : Fits (hvals now db key) :=
  fits_readLive h key .emptyArray fun v _ => by
    cases v with
    | hash m => exact fits_bulkArrayFromIter (List.length_map _).symm
    | string b | list l => exact fits_wrongType

theorem fits_hgetall (key : Bytes) : Fits (hgetall now db key) :=
  fits_readLive h key .emptyArray fun v _ => by
    cases v with
    | hash m =>
        dsimp only
        split
        · exact fits_responseTooLarge
        · rename_i n hn
          refine fits_bulkArrayFromIter ?_
          rw [← (usize?_eq_some.mp hn).1, List.length_flatMap]
          simp
    | string b | list l => exact fits_wrongType

/-- The reads that answer with a number. -/
theorem fits_count (key : Bytes) {found : Value → Frame}
    (hf : ∀ v, (∃ n, found v = .integer n) ∨ found v = wrongType) :
    Fits (readLive now db key (.integer 0) found) :=
  fits_readLive h key (.integer 0) fun v _ => by
    rcases hf v with ⟨n, hn⟩ | hn
    · exact hn ▸ Fits.integer n
    · exact hn ▸ fits_wrongType

theorem fits_strlen (key : Bytes) : Fits (strlen now db key) :=
  fits_count h key fun v => by
    cases v with
    | string b => exact Or.inl ⟨_, rfl⟩
    | list l | hash m => exact Or.inr rfl

theorem fits_llen (key : Bytes) : Fits (llen now db key) :=
  fits_count h key fun v => by
    cases v with
    | list l => exact Or.inl ⟨_, rfl⟩
    | string b | hash m => exact Or.inr rfl

theorem fits_hexists (key field : Bytes) : Fits (hexists now db key field) :=
  fits_count h key fun v => by
    cases v with
    | hash m => exact Or.inl ⟨_, rfl⟩
    | string b | list l => exact Or.inr rfl

theorem fits_hlen (key : Bytes) : Fits (hlen now db key) :=
  fits_count h key fun v => by
    cases v with
    | hash m => exact Or.inl ⟨_, rfl⟩
    | string b | list l => exact Or.inr rfl

end

theorem fits_ttl (now : ExpireAt) (db : Db host) (key : Bytes) (inMs : Bool) :
    Fits (ttl now db key inMs) := by
  unfold ttl
  repeat' split
  all_goals exact Fits.integer _

/-! ## Writes -/

theorem fits_incrValue (delta : Int64) (v : Value) : Fits (incrValue delta v).1 := by
  unfold incrValue
  split
  · split
    · exact fits_notInt
    · split
      · exact fits_overflow
      · exact Fits.integer _
  · exact fits_wrongType

theorem fits_appendValue (suffix : Bytes) (v : Value) : Fits (appendValue suffix v).1 := by
  unfold appendValue
  split
  · split
    · exact fits_responseTooLarge
    · split_ifs
      · exact Fits.integer _
      · exact fits_responseTooLarge
  · exact fits_wrongType

theorem fits_pushValue (values : List Bytes) (side : PushSide) (v : Value) :
    Fits (pushValue values side v).1 := by
  cases v with
  | list l => exact Fits.integer _
  | string b | hash m => exact fits_wrongType

theorem fits_popValue (count : Option ℕ) (side : PopSide) {v : Value} (h : v.WellFormed) :
    Fits (popValue count side v).1 := by
  cases v with
  | list l =>
      simp only [popValue]
      split
      · cases count with
        | none => exact Fits.null
        | some n => exact Fits.emptyArray
      · split
        · exact fits_responseTooLarge
        · rename_i hlarge
          cases count with
          | some n =>
              rw [Option.isSome_some, Bool.true_and, Bool.not_eq_true] at hlarge
              exact fits_popArray (Nat.min_le_right n l.length) hlarge
          | none =>
              have hmem := (popLoop_subset side (min 1 l.length) l).1
              change Fits (popReply none (popLoop side (min 1 l.length) l).1)
              cases hp : (popLoop side (min 1 l.length) l).1 with
              | nil => exact Fits.null
              | cons v popped => exact Fits.bulk (h.2 v (hmem v (hp ▸ List.mem_cons_self)))
  | string b | hash m => exact fits_wrongType

theorem fits_hsetValue (pairs : List (Bytes × Bytes)) (v : Value) :
    Fits (hsetValue pairs v).1 := by
  cases v with
  | hash m => exact Fits.integer _
  | string b | list l => exact fits_wrongType

theorem fits_hdelValue (fields : List Bytes) (v : Value) : Fits (hdelValue fields v).1 := by
  cases v with
  | hash m => exact Fits.integer _
  | string b | list l => exact fits_wrongType

theorem fits_hincrbyValue (field : Bytes) (delta : Int64) (v : Value) :
    Fits (hincrbyValue field delta v).1 := by
  cases v with
  | hash m =>
      simp only [hincrbyValue]
      split
      · exact fits_hashNotInt
      · split
        · exact fits_overflow
        · exact Fits.integer _
  | string b | list l => exact fits_wrongType

end Cmd

/-! ## The report -/

theorem length_asBytes_append (s t : String) :
    (asBytes (s ++ t)).length = (asBytes s).length + (asBytes t).length := by
  simp only [length_asBytes, String.toList_append, List.map_append, List.sum_append]

/-- The text has at most `n` bytes. -/
def TextLe (s : String) (n : ℕ) : Prop := (asBytes s).length ≤ n

namespace TextLe

theorem self (s : String) : TextLe s (asBytes s).length := Nat.le_refl _

theorem append {s t : String} {m n : ℕ} (hs : TextLe s m) (ht : TextLe t n) :
    TextLe (s ++ t) (m + n) := by
  rw [TextLe, length_asBytes_append]
  exact Nat.add_le_add hs ht

theorem mono {s : String} {m n : ℕ} (hs : TextLe s m) (h : m ≤ n) : TextLe s n := hs.trans h

/-- A number of a machine has at most twenty digits, and no character has more than four bytes. -/
theorem toString {n : ℕ} (h : n < 10 ^ 20) : TextLe (ToString.toString n) 80 := by
  have hlen : (Nat.toDigits 10 n).length ≤ 20 :=
    (Nat.length_toDigits_le_iff (by decide) (by decide)).mpr h
  rw [TextLe, length_asBytes, Nat.toString_eq_ofList_toDigits, String.toList_ofList]
  calc ((Nat.toDigits 10 n).map Char.utf8Size).sum
      ≤ ((Nat.toDigits 10 n).map Char.utf8Size).length • 4 :=
        List.sum_le_card_nsmul _ _ (List.forall_mem_map.mpr fun c _ => c.utf8Size_le_four)
    _ ≤ 80 := by
        rw [List.length_map, Nat.nsmul_eq_mul]
        omega

theorem infoServer (host : Host) (now : ExpireAt) :
    TextLe (MiniRedis.infoServer host now none) 1000 := by
  have hn : TextLe (ToString.toString host.processId) 80 :=
    TextLe.toString (host.processId.toNat_lt.trans (by decide))
  apply mono
  · unfold MiniRedis.infoServer
    dsimp only
    repeat' with_reducible apply append
    all_goals first | with_reducible exact hn | with_reducible exact self _
  · decide

theorem infoMemory (stats : DbStats) : TextLe (MiniRedis.infoMemory stats) 1000 := by
  have hn : ∀ n, TextLe (ToString.toString (asUsize n)) 80 := fun n =>
    TextLe.toString ((Nat.mod_lt n (by decide)).trans (by decide))
  apply mono
  · unfold MiniRedis.infoMemory
    repeat' with_reducible apply append
    all_goals first | with_reducible exact hn _ | with_reducible exact self _
  · decide

theorem ite {p : Prop} [Decidable p] {s : String} {n : ℕ} (h : TextLe s n) :
    TextLe (if p then s else "") n := by
  split_ifs
  · exact h
  · exact Nat.zero_le n

end TextLe

theorem fits_infoFrame (now : ExpireAt) (db : Db host) (section_ : Option String) :
    Fits (infoFrame now db none none section_) := by
  refine Fits.bulk ((bulkResponseFits_iff _).mpr ((bulkLen_mono (n := 3000) ?_).trans (by decide)))
  have hserver := TextLe.infoServer host now
  have hmemory := TextLe.infoMemory (db.stats now)
  exact (((hserver.ite.append (TextLe.self _).ite).append hmemory.ite).append
    (TextLe.self _).ite).mono (by decide)

namespace Slot

theorem fits_update (default : Value) {body : Value → Frame × Value}
    (hb : ∀ v, Fits (body v).1) (slot : Slot) : Fits (Slot.update default body slot).1 := hb _

theorem fits_takeFrom {missing : Frame} (hm : Fits missing) {body : Value → Frame × Option Value}
    (hb : ∀ v, v.WellFormed → Fits (body v).1) {slot : Slot} (h : slot.WellFormed) :
    Fits (Slot.takeFrom missing body slot).1 := by
  cases slot with
  | none => exact hm
  | some entry => exact hb entry.value (h entry rfl)

theorem fits_expire (now deadline : ExpireAt) (slot : Slot) :
    Fits (Slot.expire now deadline slot).1 := by
  cases slot <;> exact Fits.integer _

theorem fits_persist (slot : Slot) : Fits (Slot.persist slot).1 := by
  unfold Slot.persist
  split <;> exact Fits.integer _

end Slot

namespace Command
open Cmd

theorem fits_popMissing (count : Option ℕ) : Fits (popMissing count) := by
  cases count with
  | none => exact Fits.null
  | some n => exact Fits.nullArray

theorem transaction_fits {now : ExpireAt} {c : Command} {t : Transaction}
    (ht : c.transaction now = some t) {ks : Keyspace} (h : ks.WellFormed) : Fits (t.run ks).1 := by
  cases c with
  | set key value e =>
      obtain rfl := Option.some.inj ht
      split_ifs
      · exact fits_ok
      · exact fits_responseTooLarge
  | mset pairs =>
      obtain rfl := Option.some.inj ht
      split_ifs
      · exact fits_responseTooLarge
      · exact fits_ok
  | decrBy k n =>
      obtain rfl := Option.some.inj ht
      cases checkedNegI64 n with
      | some neg => exact Slot.fits_update _ (fits_incrValue neg) _
      | none => exact fits_overflow
  | del keys =>
      obtain rfl := Option.some.inj ht
      exact Fits.integer _
  | incr k | decr k | incrBy k n =>
      obtain rfl := Option.some.inj ht
      exact Slot.fits_update _ (fits_incrValue _) _
  | append k v =>
      obtain rfl := Option.some.inj ht
      exact Slot.fits_update _ (fits_appendValue v) _
  | expire k d | pexpire k d | pexpireAt k d =>
      obtain rfl := Option.some.inj ht
      exact Slot.fits_expire now d _
  | persist k =>
      obtain rfl := Option.some.inj ht
      exact Slot.fits_persist _
  | lpush k vs | rpush k vs =>
      obtain rfl := Option.some.inj ht
      exact Slot.fits_update _ (fits_pushValue vs _) _
  | lpop k count | rpop k count =>
      obtain rfl := Option.some.inj ht
      exact Slot.fits_takeFrom (fits_popMissing count) (fun v => fits_popValue count _) (h k)
  | hset k pairs =>
      obtain rfl := Option.some.inj ht
      exact Slot.fits_update _ (fits_hsetValue pairs) _
  | hdel k fs =>
      obtain rfl := Option.some.inj ht
      exact Slot.fits_takeFrom (Fits.integer 0) (fun v _ => fits_hdelValue fs v) (h k)
  | hincrby k f n =>
      obtain rfl := Option.some.inj ht
      exact Slot.fits_update _ (fits_hincrbyValue f n) _
  | _ => cases ht

end Command
end MiniRedis
