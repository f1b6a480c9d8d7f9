import MiniRedis.ReplySizes

/-!
# The response limit

Arrays are counted while they are put together, and the count stops when it passes the
limit. It is the length that the encoder computes, so the error is sent exactly for the
arrays that are too long, and every other array is sent whole.
-/
namespace MiniRedis
open Numeral Wire ParserRoundTrip

variable {host : Host}

/-- The encoder finds the frame longer than the limit, or its length no `usize`. -/
def ExceedsLimit (frame : Frame) : Prop :=
  ∀ len, encodedLen frame = some len → maxResponseFrameBytes < len

theorem exceedsLimit_iff (frame : Frame) : ExceedsLimit frame ↔ ¬ Fits frame := by
  have hmax : maxResponseFrameBytes < 2 ^ 64 := by decide
  rw [Fits, not_le]
  constructor
  · intro h
    by_contra hle
    have hlen : encodedLen frame = some (wire frame).length :=
      encodedLen_eq_some.mpr ⟨rfl, by omega⟩
    exact hle (h _ hlen)
  · intro h len hlen
    exact (encodedLen_eq_some.mp hlen).1 ▸ h

instance (frame : Frame) : Decidable (Fits frame) :=
  inferInstanceAs (Decidable ((wire frame).length ≤ maxResponseFrameBytes))

/-- The frame, or the error in its place. -/
def limited (frame : Frame) : Frame := if Fits frame then frame else responseTooLarge

theorem limited_of_fits {frame : Frame} (h : Fits frame) : limited frame = frame := if_pos h

theorem limited_of_not_fits {frame : Frame} (h : ¬ Fits frame) : limited frame = responseTooLarge :=
  if_neg h

/-- The error stands for the frames that exceed the limit, the others are sent. -/
theorem limited_spec {frame reply : Frame} (h : reply = limited frame)
    (hne : frame ≠ responseTooLarge) :
    (reply = responseTooLarge ↔ ExceedsLimit frame) ∧ (¬ ExceedsLimit frame → reply = frame) := by
  rw [exceedsLimit_iff, not_not, h]
  by_cases hf : Fits frame
  · rw [limited_of_fits hf]
    exact ⟨iff_of_false hne fun hn => hn hf, fun _ => rfl⟩
  · rw [limited_of_not_fits hf]
    exact ⟨iff_of_true rfl hf, fun hn => (hf hn).elim⟩

namespace Cmd

/-! ## The running length -/

theorem checkedAdd_add {a : Option ℕ} {n total : ℕ} {B : Type} {f : ℕ → Option B}
    (ha : a = usize? n) (h : total + n ≤ maxResponseFrameBytes) :
    (a.bind fun n => (checkedAddResponseLen total n).bind f) = f (total + n) := by
  have hmax : maxResponseFrameBytes < 2 ^ 64 := by decide
  have hn : usize? n = some n := usize?_eq_some.mpr ⟨rfl, by omega⟩
  rw [ha, hn, Option.bind_some, checkedAddResponseLen_eq, if_pos h, Option.bind_some]

/-- The count goes through if the sum is within the limit. -/
theorem addBulks_of_le {values : List Bytes} {total : ℕ}
    (h : total + argsLen values ≤ maxResponseFrameBytes) :
    addBulks values total = some (total + argsLen values) := by
  induction values generalizing total with
  | nil => rfl
  | cons v values ih =>
      rw [argsLen_cons, ← Nat.add_assoc] at h ⊢
      rw [addBulks, checkedAdd_add (respBulkLen_eq v.length) (by omega)]
      exact ih h

theorem length_wire_bulks (values : List Bytes) :
    (wire (.array (values.map .bulk))).length = headerLen values.length + argsLen values := by
  rw [← length_wire_args]
  rfl

theorem respArrayHeaderLen_of_fits {items : ℕ} (h : headerLen items ≤ maxResponseFrameBytes) :
    respArrayHeaderLen items = some (headerLen items) := by
  have hmax : maxResponseFrameBytes < 2 ^ 64 := by decide
  rw [respArrayHeaderLen_eq]
  exact usize?_eq_some.mpr ⟨rfl, by omega⟩

/-- The count over the bulk strings of an array goes through if and only if the array is
within the limit. -/
theorem counted_isSome_iff (values : List Bytes) :
    ((respArrayHeaderLen values.length).bind (addBulks values)).isSome = true ↔
      Fits (.array (values.map .bulk)) := by
  constructor
  · intro h
    exact (Option.isSome_iff_exists.mp h).elim fun m hm => fits_counted hm
  · intro h
    rw [Fits, length_wire_bulks] at h
    rw [respArrayHeaderLen_of_fits (by omega), Option.bind_some, addBulks_of_le h]
    rfl

theorem bulkArrayFromIter_eq {len : ℕ} {values : List Bytes} (h : len = values.length) :
    bulkArrayFromIter len values = limited (.array (values.map .bulk)) := by
  have hiff := counted_isSome_iff values
  unfold bulkArrayFromIter
  rw [h]
  cases hc : (respArrayHeaderLen values.length).bind (addBulks values) with
  | some m =>
      rw [hc] at hiff
      exact (limited_of_fits (hiff.mp rfl)).symm
  | none =>
      rw [hc] at hiff
      exact (limited_of_not_fits fun hf => Bool.noConfusion (hiff.mpr hf)).symm

theorem mgetLoop_of_le {now : ExpireAt} {db : Db host} {keys : List Bytes} {total : ℕ}
    (h : total + ((keys.map (mgetFrame now db)).map fun f => (wire f).length).sum ≤
      maxResponseFrameBytes) :
    mgetLoop now db keys total = some (keys.map (mgetFrame now db)) := by
  induction keys generalizing total with
  | nil => rfl
  | cons key keys ih =>
      rw [List.map_cons, List.map_cons, List.sum_cons, ← Nat.add_assoc] at h
      rw [mgetLoop, checkedAdd_add (mgetLen_eq now db key) (by omega), ih h]
      rfl

theorem mgetLoop_frames {now : ExpireAt} {db : Db host} {keys : List Bytes} {total : ℕ}
    {frames : List Frame} (h : mgetLoop now db keys total = some frames) :
    frames = keys.map (mgetFrame now db) := by
  induction keys generalizing total frames with
  | nil => exact (Option.some.inj h).symm
  | cons key keys ih =>
      have hstep := checkedAdd_step (mgetLen_eq now db key) h
      obtain ⟨rest, hrest, rfl⟩ := Option.map_eq_some_iff.mp hstep.2
      rw [ih hrest, List.map_cons]

theorem mget_eq (now : ExpireAt) (db : Db host) (keys : List Bytes) :
    mget now db keys = limited (.array (keys.map (mgetFrame now db))) := by
  by_cases hf : Fits (.array (keys.map (mgetFrame now db)))
  · rw [limited_of_fits hf]
    rw [Fits, length_wire_array, List.length_map] at hf
    rw [mget, respArrayHeaderLen_of_fits (by omega), Option.bind_some, mgetLoop_of_le hf]
  · rw [limited_of_not_fits hf]
    have hfits := fits_mget now db keys
    unfold mget at hfits ⊢
    split at hfits
    · rename_i frames hframes
      obtain ⟨header, -, hloop⟩ := Option.bind_eq_some_iff.mp hframes
      exact (hf (mgetLoop_frames hloop ▸ hfits)).elim
    · rfl

/-- The limit on a read is the limit on what it finds. -/
theorem readLive_limited (now : ExpireAt) (db : Db host) (key : Bytes) {missing : Frame}
    (hm : Fits missing) (found : Value → Frame) :
    readLive now db key missing (fun v => limited (found v)) =
      limited (readLive now db key missing found) := by
  unfold readLive
  split
  · split_ifs
    · exact (limited_of_fits hm).symm
    · rfl
  · exact (limited_of_fits hm).symm

end Cmd

/-! ## The commands -/

/-- What a pop takes off a list, in the order of the pops. -/
def popped (side : Cmd.PopSide) (count : ℕ) (list : List Bytes) : List Bytes :=
  match side with
  | .left => list.take count
  | .right => list.reverse.take count

/-- What a pop leaves of a list. -/
def unpopped (side : Cmd.PopSide) (count : ℕ) (list : List Bytes) : List Bytes :=
  match side with
  | .left => list.drop count
  | .right => (list.reverse.drop count).reverse

namespace Command
open Cmd

/-- What a pop with a count finds. -/
def popFrame (now : ExpireAt) (db : Db host) (key : Bytes) (side : PopSide) (count : ℕ) : Frame :=
  readLive now db key .nullArray fun
    | .list list => .array ((popped side count list).map .bulk)
    | _ => wrongType

/-- The reply that a command with an array to send would have without the limit. -/
def unlimited (now : ExpireAt) (db : Db host) : Command → Option Frame
  | mget keys => some (.array (keys.map (mgetFrame now db)))
  | lrange key start stop => some <| readLive now db key (.array []) fun
      | .list list => .array ((rangeOf list start stop).map .bulk)
      | _ => wrongType
  | lpop key (some count) => some (popFrame now db key .left count)
  | rpop key (some count) => some (popFrame now db key .right count)
  | hkeys key => some <| readLive now db key (.array []) fun
      | .hash map => .array (map.entries.map fun e => .bulk e.1)
      | _ => wrongType
  | hvals key => some <| readLive now db key (.array []) fun
      | .hash map => .array (map.entries.map fun e => .bulk e.2)
      | _ => wrongType
  | hgetall key => some <| readLive now db key (.array []) fun
      | .hash map => .array ((map.entries.flatMap fun e => [e.1, e.2]).map .bulk)
      | _ => wrongType
  | _ => none

end Command

namespace Cmd

theorem lrange_eq (now : ExpireAt) (db : Db host) (key : Bytes) (start stop : Int64) :
    some (lrange now db key start stop) =
      ((Command.lrange key start stop).unlimited now db).map limited := by
  rw [Command.unlimited, Option.map_some, ← readLive_limited now db key Fits.emptyArray, lrange]
  congr 2
  funext v
  cases v with
  | list l =>
      dsimp only
      split_ifs with hempty
      · rw [List.isEmpty_iff.mp hempty]
        exact (limited_of_fits Fits.emptyArray).symm
      · exact bulkArrayFromIter_eq rfl
  | string b | hash m => exact (limited_of_fits fits_wrongType).symm

theorem hkeys_eq (now : ExpireAt) (db : Db host) (key : Bytes) :
    some (hkeys now db key) = ((Command.hkeys key).unlimited now db).map limited := by
  rw [Command.unlimited, Option.map_some, ← readLive_limited now db key Fits.emptyArray, hkeys]
  congr 2
  funext v
  cases v with
  | hash m =>
      dsimp only
      rw [bulkArrayFromIter_eq (List.length_map _).symm, List.map_map]
      rfl
  | string b | list l => exact (limited_of_fits fits_wrongType).symm

theorem hvals_eq (now : ExpireAt) (db : Db host) (key : Bytes) :
    some (hvals now db key) = ((Command.hvals key).unlimited now db).map limited := by
  rw [Command.unlimited, Option.map_some, ← readLive_limited now db key Fits.emptyArray, hvals]
  congr 2
  funext v
  cases v with
  | hash m =>
      dsimp only
      rw [bulkArrayFromIter_eq (List.length_map _).symm, List.map_map]
      rfl
  | string b | list l => exact (limited_of_fits fits_wrongType).symm

/-- Every bulk string takes more than a byte. -/
theorem length_le_argsLen (args : List Bytes) : args.length ≤ argsLen args := by
  induction args with
  | nil => exact le_rfl
  | cons a args ih =>
      rw [List.length_cons, argsLen_cons, bulkLen]
      omega

theorem hgetall_eq (now : ExpireAt) (db : Db host) (key : Bytes) :
    some (hgetall now db key) = ((Command.hgetall key).unlimited now db).map limited := by
  rw [Command.unlimited, Option.map_some, ← readLive_limited now db key Fits.emptyArray, hgetall]
  congr 2
  funext v
  cases v with
  | hash m =>
      have hlen : m.entries.length * 2 = (m.entries.flatMap fun e => [e.1, e.2]).length := by
        rw [List.length_flatMap]
        simp
      dsimp only
      split
      · rename_i hnone
        -- so many fields exceed the limit by their number alone
        refine (limited_of_not_fits fun hf => ?_).symm
        have hmax : maxResponseFrameBytes < 2 ^ 64 := by decide
        have hle := length_le_argsLen (m.entries.flatMap fun e => [e.1, e.2])
        rw [Fits, length_wire_bulks] at hf
        have hsome := usize?_eq_some.mpr ⟨rfl, (by omega : m.entries.length * 2 < 2 ^ 64)⟩
        cases hnone.symm.trans hsome
      · rename_i n hn
        exact bulkArrayFromIter_eq ((usize?_eq_some.mp hn).1.symm.trans hlen)
  | string b | list l => exact (limited_of_fits fits_wrongType).symm

/-! ## Pops -/

theorem popLoop_popped (side : PopSide) (n : ℕ) (list : List Bytes) :
    (popLoop side n list).1 = popped side n list := by
  rw [popLoop_fst]
  rfl

theorem popLoop_unpopped (side : PopSide) (n : ℕ) (list : List Bytes) :
    (popLoop side n list).2 = unpopped side n list := by
  induction n generalizing list with
  | zero => cases side <;> simp [popLoop, unpopped]
  | succ n ih =>
      simp only [popLoop, ih]
      cases side with
      | left => simp [popOne, unpopped]
      | right =>
          simp only [popOne, unpopped]
          rw [← List.tail_reverse, List.drop_tail]

theorem popped_min (side : PopSide) (n : ℕ) (list : List Bytes) :
    popped side (min n list.length) list = popped side n list := by
  cases side with
  | left => exact List.take_eq_take_min.symm
  | right =>
      have h := List.take_eq_take_min (l := list.reverse) (i := n)
      rw [List.length_reverse] at h
      exact h.symm

theorem unpopped_min (side : PopSide) (n : ℕ) (list : List Bytes) :
    unpopped side (min n list.length) list = unpopped side n list := by
  cases side with
  | left => exact List.drop_eq_drop_min.symm
  | right =>
      have h := List.drop_eq_drop_min (l := list.reverse) (i := n)
      rw [List.length_reverse] at h
      exact congrArg List.reverse h.symm

/-- The check in front of a pop counts the array that the pop would send. -/
theorem popArrayResponseTooLarge_iff {list : List Bytes} {n : ℕ} {side : PopSide}
    (hn : n ≤ list.length) : popArrayResponseTooLarge list n side = true ↔
      ¬ Fits (.array ((popped side n list).map .bulk)) := by
  have hlen : (popped side n list).length = n := by
    cases side <;> simp [popped, hn]
  have hsum : popArrayResponseTooLarge list n side =
      ((respArrayHeaderLen (popped side n list).length).bind
        (addBulks (popped side n list))).isNone := by
    rw [hlen]
    rfl
  rw [hsum, ← counted_isSome_iff, ← Option.not_isSome, Bool.not_eq_true', Bool.not_eq_true]

/-- The popped elements are sent and the rest is kept, or nothing changes. -/
theorem popValue_counted (side : PopSide) (n : ℕ) (list : List Bytes) :
    (popValue (some n) side (.list list)).1 =
        limited (.array ((popped side n list).map .bulk)) ∧
      (Fits (.array ((popped side n list).map .bulk)) →
        (popValue (some n) side (.list list)).2 = some (.list (unpopped side n list)) ∨
          unpopped side n list = [] ∧ (popValue (some n) side (.list list)).2 = none) ∧
      (¬ Fits (.array ((popped side n list).map .bulk)) →
        (popValue (some n) side (.list list)).2 = some (.list list)) := by
  rw [← popped_min, ← unpopped_min]
  simp only [popValue, Option.getD_some, Option.isSome_some, Bool.true_and,
    popArrayResponseTooLarge_iff (Nat.min_le_right n list.length)]
  generalize min n list.length = m
  split_ifs with hm hfits hempty
  · subst hm
    have hnone : popped side 0 list = [] := by cases side <;> rfl
    have hall : unpopped side 0 list = list := by cases side <;> simp [unpopped]
    rw [hnone, hall]
    exact ⟨(limited_of_fits Fits.emptyArray).symm, fun _ => Or.inl rfl, fun _ => rfl⟩
  · rw [limited_of_fits hfits, popLoop_popped]
    rw [popLoop_unpopped, List.isEmpty_iff] at hempty
    refine ⟨?_, fun _ => Or.inr ⟨hempty, rfl⟩, fun hf => (hf hfits).elim⟩
    cases popped side m list <;> rfl
  · rw [limited_of_fits hfits, popLoop_popped, popLoop_unpopped]
    refine ⟨?_, fun _ => Or.inl rfl, fun hf => (hf hfits).elim⟩
    cases popped side m list <;> rfl
  · exact ⟨(limited_of_not_fits hfits).symm, fun hf => (hfits hf).elim, fun _ => rfl⟩

end Cmd

namespace Command
open Cmd

/-- A pop answers what it finds, within the limit. -/
theorem pop_eq {now : ExpireAt} {db : Db host} {key : Bytes} {side : PopSide} {count : ℕ}
    {c : Command} (ht : c.transaction now = some (.on key
      (Slot.takeFrom (popMissing (some count)) (popValue (some count) side)))) :
    (c.apply now db).1 = limited (popFrame now db key side count) := by
  have hr := c.apply_refines now db
  rw [ht] at hr
  rw [hr.reply]
  change (Slot.takeFrom _ _ (db.view now key)).1 = _
  unfold popFrame readLive Db.view Keyspace.alive Slot.alive
  cases db.entry key with
  | none => exact (limited_of_fits Fits.nullArray).symm
  | some entry =>
      cases he : entryExpired now entry with
      | true =>
          simp only [Option.filter, he]
          exact (limited_of_fits Fits.nullArray).symm
      | false =>
          simp only [Option.filter, he]
          cases entry with
          | mk value e =>
              cases value with
              | list l => exact (popValue_counted side count l).1
              | string b | hash m => exact (limited_of_fits fits_wrongType).symm

/-- Every command that sends an array sends the one it would send without the limit, or the
error in its place. -/
theorem apply_unlimited {now : ExpireAt} {db : Db host} {c : Command} {frame : Frame}
    (h : c.unlimited now db = some frame) : (c.apply now db).1 = limited frame := by
  cases c with
  | mget keys =>
      obtain rfl := Option.some.inj h
      exact mget_eq now db keys
  | lrange key start stop =>
      exact Option.some.inj ((lrange_eq now db key start stop).trans (congrArg _ h))
  | lpop key count | rpop key count =>
      cases count with
      | none => cases h
      | some n =>
          obtain rfl := Option.some.inj h
          exact pop_eq rfl
  | hkeys key => exact Option.some.inj ((hkeys_eq now db key).trans (congrArg _ h))
  | hvals key => exact Option.some.inj ((hvals_eq now db key).trans (congrArg _ h))
  | hgetall key => exact Option.some.inj ((hgetall_eq now db key).trans (congrArg _ h))
  | _ => cases h

theorem wrongType_ne : wrongType ≠ responseTooLarge := by
  rw [wrongType, responseTooLarge, ne_eq, Frame.error.injEq]
  decide

theorem readLive_ne {now : ExpireAt} {db : Db host} {key : Bytes} {missing frame : Frame}
    {found : Value → Frame} (hm : missing ≠ frame) (hf : ∀ v, found v ≠ frame) :
    readLive now db key missing found ≠ frame := by
  unfold readLive
  split
  · split_ifs
    · exact hm
    · exact hf _
  · exact hm

/-- Without the limit its error does not occur. -/
theorem unlimited_ne {now : ExpireAt} {db : Db host} {c : Command} {frame : Frame}
    (h : c.unlimited now db = some frame) : frame ≠ responseTooLarge := by
  have harray : ∀ {items}, Frame.array items ≠ responseTooLarge := nofun
  cases c with
  | mget keys => exact Option.some.inj h ▸ harray
  | lrange key start stop =>
      refine Option.some.inj h ▸ readLive_ne harray fun v => ?_
      cases v with
      | list l => exact harray
      | string b | hash m => exact wrongType_ne
  | lpop key count | rpop key count =>
      cases count with
      | none => cases h
      | some n =>
          refine Option.some.inj h ▸ readLive_ne nofun fun v => ?_
          cases v with
          | list l => exact harray
          | string b | hash m => exact wrongType_ne
  | hkeys key | hvals key | hgetall key =>
      refine Option.some.inj h ▸ readLive_ne harray fun v => ?_
      cases v with
      | hash m => exact harray
      | string b | list l => exact wrongType_ne
  | _ => cases h

/-- The pop with a count from a side. -/
def popCount (side : PopSide) (key : Bytes) (count : ℕ) : Command :=
  match side with
  | .left => lpop key (some count)
  | .right => rpop key (some count)

theorem popCount_transaction (now : ExpireAt) (side : PopSide) (key : Bytes) (count : ℕ) :
    (popCount side key count).transaction now = some (.on key
      (Slot.takeFrom (popMissing (some count)) (popValue (some count) side))) := by
  cases side <;> rfl

/-- What a pop with a count leaves under its key, and that it changes no other key. -/
theorem view_popCount {now : ExpireAt} {db : Db host} {side : PopSide} {key : Bytes} {count : ℕ}
    {list : List Bytes} {e : Option ExpireAt} (h : db.view now key = some ⟨.list list, e⟩) :
    ((popCount side key count).apply now db).2.view now = Function.update (db.view now) key
      ((popValue (some count) side (.list list)).2.map fun value => ⟨value, e⟩) := by
  have hr := (popCount side key count).apply_refines now db
  rw [popCount_transaction] at hr
  have hlist : entryExpired now ⟨.list list, e⟩ = false := Db.fresh_of_view h
  have hfresh : ∀ value, entryExpired now ⟨value, e⟩ = false := fun _ => hlist
  rw [hr.view]
  simp only [Transaction.run, Keyspace.alive_update, Db.view_alive_self, h, Slot.takeFrom]
  congr 1
  cases (popValue (some count) side (.list list)).2 with
  | none => rfl
  | some value => exact Slot.alive_eq_some.mpr ⟨rfl, hfresh value⟩

/-- The commands that send arrays send the error if and only if the array exceeds the limit,
and the whole array otherwise. A pop then takes what it sends and keeps the rest, and takes
nothing with the error. -/
theorem response_limit_exact (now : ExpireAt) (db : Db host) :
    (∀ (c : Command) frame, c.unlimited now db = some frame →
      ((c.apply now db).1 = responseTooLarge ↔ ExceedsLimit frame) ∧
        (¬ ExceedsLimit frame → (c.apply now db).1 = frame)) ∧
    ∀ side key count list e, db.view now key = some ⟨.list list, e⟩ → ∃ slot,
      ((popCount side key count).apply now db).2.view now = Function.update (db.view now) key slot ∧
      (ExceedsLimit (.array ((popped side count list).map .bulk)) → slot = some ⟨.list list, e⟩) ∧
      (¬ ExceedsLimit (.array ((popped side count list).map .bulk)) →
        slot = some ⟨.list (unpopped side count list), e⟩ ∨
          unpopped side count list = [] ∧ slot = none) := by
  refine ⟨fun c frame h => limited_spec (apply_unlimited h) (unlimited_ne h),
    fun side key count list e h => ⟨_, view_popCount h, fun hx => ?_, fun hx => ?_⟩⟩
  · rw [(popValue_counted side count list).2.2 ((exceedsLimit_iff _).mp hx)]
    rfl
  · have hfits := not_not.mp fun hn => hx ((exceedsLimit_iff _).mpr hn)
    cases (popValue_counted side count list).2.1 hfits with
    | inl hkept => exact Or.inl (by rw [hkept]; rfl)
    | inr hempty => exact Or.inr ⟨hempty.1, by rw [hempty.2]; rfl⟩

end Command
end MiniRedis
