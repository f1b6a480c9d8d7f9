import MiniRedis.ExpiryArithmetic
import MiniRedis.LoggedMeaning
import MiniRedis.SnapshotChunks

/-!
# Deadlines beyond the signed range

`SET PX` takes a duration of up to `i64::MAX`, and so a deadline that no absolute option
can name. A rewrite writes it as the time that is left. Behind a value that is split into
chunks the time is an argument of `PEXPIRE`, which does not take a deadline beyond the
range: replay stops there.
-/
namespace MiniRedis
open Numeral Wire ParserRoundTrip PrefixCode

variable {host host' : Host}

/-! ## The deadlines of stored entries -/

/-- No entry lives on after the bound. -/
def Slot.EndsBy (bound : ℕ) (s : Slot) : Prop :=
  ∀ entry d, s = some entry → entry.expiresAt = some d → d ≤ bound

def Keyspace.EndsBy (bound : ℕ) (ks : Keyspace) : Prop := ∀ k, (ks k).EndsBy bound

namespace Slot
variable {bound : ℕ} {s : Slot}

theorem endsBy_none : Slot.EndsBy bound none := fun _ _ h => by cases h

theorem endsBy_some {entry : Entry} (h : ∀ d, entry.expiresAt = some d → d ≤ bound) :
    Slot.EndsBy bound (some entry) := fun _ d he hd => h d (Option.some.inj he ▸ hd)

theorem endsBy_persistent (value : Value) : Slot.EndsBy bound (some ⟨value, none⟩) :=
  endsBy_some fun d hd => by cases hd

theorem EndsBy.alive (h : s.EndsBy bound) (now : ExpireAt) : (s.alive now).EndsBy bound :=
  fun entry d he hd => h entry d (alive_eq_some.mp he).1 hd

theorem EndsBy.update (h : s.EndsBy bound) (default : Value) (body : Value → Frame × Value) :
    (Slot.update default body s).2.EndsBy bound := by
  refine endsBy_some fun d hd => ?_
  cases s with
  | none => cases hd
  | some entry => exact h entry d rfl hd

theorem EndsBy.takeFrom (h : s.EndsBy bound) (missing : Frame)
    (body : Value → Frame × Option Value) : (Slot.takeFrom missing body s).2.EndsBy bound := by
  cases s with
  | none => exact endsBy_none
  | some entry =>
      change EndsBy bound ((body entry.value).2.map _)
      cases (body entry.value).2 with
      | none => exact endsBy_none
      | some value => exact endsBy_some fun d hd => h entry d rfl hd

theorem endsBy_expire {deadline : ℕ} (hd : deadline ≤ bound) (now : ExpireAt) :
    (Slot.expire now deadline s).2.EndsBy bound := by
  cases s with
  | none => exact endsBy_none
  | some entry =>
      unfold Slot.expire
      dsimp only
      split_ifs
      · exact endsBy_none
      · exact endsBy_some fun d h => Option.some.inj h ▸ hd

theorem EndsBy.persist (h : s.EndsBy bound) : (Slot.persist s).2.EndsBy bound := by
  rcases s with _ | ⟨value, _ | d⟩
  · exact h
  · exact h
  · exact endsBy_persistent value

end Slot

namespace Command

/-- The deadline that a command gives its key. -/
def deadline : Command → Option ExpireAt
  | set _ _ expiresAt => expiresAt
  | expire _ d | pexpire _ d | pexpireAt _ d => some d
  | _ => none

theorem transaction_endsBy {now : ExpireAt} {c : Command} {t : Transaction} {bound : ℕ}
    (hc : ∀ d, c.deadline = some d → d ≤ bound) (ht : c.transaction now = some t) {ks : Keyspace}
    (h : ks.EndsBy bound) : (t.run ks).2.EndsBy bound := by
  have on_ : ∀ k (slot : Slot → Frame × Slot), (slot (ks k)).2.EndsBy bound →
      ((Transaction.on k slot).run ks).2.EndsBy bound := by
    intro k slot hs k'
    simp only [Transaction.run, Function.update_apply]
    split_ifs
    · exact hs
    · exact h k'
  cases c with
  | set key value e =>
      obtain rfl := Option.some.inj ht
      split_ifs
      · exact on_ key _ (Slot.endsBy_some hc)
      · exact h
  | del keys =>
      obtain rfl := Option.some.inj ht
      intro k
      simp only [Transaction.run, Keyspace.removeAll_apply]
      split_ifs
      · exact Slot.endsBy_none
      · exact h k
  | mset pairs =>
      obtain rfl := Option.some.inj ht
      split_ifs
      · exact h
      · intro k
        simp only [Transaction.run, Keyspace.setAll_apply]
        cases assignedValue k pairs with
        | none => exact h k
        | some v => exact Slot.endsBy_persistent _
  | decrBy k n =>
      obtain rfl := Option.some.inj ht
      cases Cmd.checkedNegI64 n with
      | some neg => exact on_ k _ ((h k).update _ _)
      | none => exact h
  | incr k | decr k | incrBy k n | append k v | lpush k vs | rpush k vs | hset k pairs
  | hincrby k f n =>
      obtain rfl := Option.some.inj ht
      exact on_ k _ ((h k).update _ _)
  | expire k d | pexpire k d | pexpireAt k d =>
      obtain rfl := Option.some.inj ht
      exact on_ k _ (Slot.endsBy_expire (hc d rfl) now)
  | persist k =>
      obtain rfl := Option.some.inj ht
      exact on_ k _ (h k).persist
  | lpop k count | rpop k count | hdel k fs =>
      obtain rfl := Option.some.inj ht
      exact on_ k _ ((h k).takeFrom _ _)
  | _ => cases ht

/-- A deadline that the parser computes is at most the longest duration away. -/
theorem deadline_le_of_fromFrame {now : ℕ} {frame : Frame} {c : Command}
    (h : fromFrame now frame = .ok c) {d : ℕ} (hd : c.deadline = some d) :
    d ≤ now + maxExpireAtMs := by
  obtain ⟨nameBytes, s, rest, -, -, hargs⟩ := fromFrame_eq_ok h
  generalize toAsciiUppercase s = name at hargs
  have near : ∀ {d : ℕ}, d ≤ maxExpireAtMs → d ≤ now + maxExpireAtMs := fun h =>
    h.trans (Nat.le_add_left _ _)
  cases c with
  | set key value e =>
      obtain rfl : e = some d := hd
      cases readFrom_of_fromArgs hargs rfl with
      | set ho =>
          have hset := parseSetOptions_spec (fun d hd => by cases hd) ho
          exact hset.bound.elim near And.left
  | expire key d' =>
      obtain rfl := Option.some.inj hd
      cases readFrom_of_fromArgs hargs rfl with
      | expire hn h => exact near (expireRelativeDeadline_le h)
  | pexpire key d' =>
      obtain rfl := Option.some.inj hd
      cases readFrom_of_fromArgs hargs rfl with
      | pexpire hn h => exact near (expireRelativeDeadline_le h)
  | pexpireAt key d' =>
      obtain rfl := Option.some.inj hd
      cases readFrom_of_fromArgs hargs rfl with
      | expireAt hn h => exact near (expireAbsoluteDeadline_le h)
      | pexpireAt hn h => exact near (expireAbsoluteDeadline_le h)
  | _ => cases hd

/-- A client sent the command, and it was read when the clock showed no more than `t`. -/
def FromClientBy (t : ℕ) (c : Command) : Prop :=
  ∃ buf rest frame now, now ≤ t ∧ Parser.parse buf = .ok (some frame, rest) ∧
    fromFrame now frame = .ok c

theorem FromClientBy.fromClient {t : ℕ} {c : Command} (h : c.FromClientBy t) : c.FromClient := by
  obtain ⟨buf, rest, frame, readAt, -, hp, hf⟩ := h
  exact ⟨buf, rest, frame, readAt, hp, hf⟩

end Command

namespace Db

/-- The databases of a server whose commands were all read up to a clock reading. -/
inductive ServedBy (t : ℕ) : Db host → Prop where
  | new : ServedBy t new
  | apply {db : Db host} (h : ServedBy t db) (now : ExpireAt) {c : Command}
      (hc : c.FromClientBy t) : ServedBy t (c.apply now db).2
  | sweep {db : Db host} (h : ServedBy t db) (now : ExpireAt) : ServedBy t (db.sweepOnce now)
  | rollback {old db : Db host} (ho : ServedBy t old) (h : ServedBy t db) (keys : List Bytes) :
      ServedBy t (db.restoreEntries (old.snapshotEntries keys))

namespace ServedBy
variable {t : ℕ} {db : Db host}

theorem served (h : ServedBy t db) : db.Served := by
  induction h with
  | new => exact .new
  | apply _ now hc ih => exact .apply ih now hc.fromClient
  | sweep _ now ih => exact .sweep ih now
  | rollback _ _ keys iho ih => exact .rollback iho ih keys

/-- Every stored deadline is at most the longest duration away. -/
theorem endsBy (h : ServedBy t db) : Keyspace.EndsBy (t + maxExpireAtMs) db.entry := by
  induction h with
  | new => exact fun _ => Slot.endsBy_none
  | @apply db _ now c hc ih =>
      obtain ⟨buf, rest, frame, readAt, hle, -, hf⟩ := hc
      have hr := c.apply_refines now db
      cases ht : c.transaction now with
      | none =>
          rw [ht] at hr
          rw [entry_of_shards hr]
          exact ih
      | some u =>
          rw [ht] at hr
          intro k
          rcases hr.stored k with hk | hk
          · rw [hk]
            exact ih k
          · rw [hk]
            have hdeadline : ∀ d, c.deadline = some d → d ≤ t + maxExpireAtMs := fun d hd =>
              (Command.deadline_le_of_fromFrame hf hd).trans (Nat.add_le_add_right hle _)
            exact Command.transaction_endsBy hdeadline ht (fun k => (ih k).alive now) k
  | @sweep db hdb now ih =>
      rw [entry_sweepOnce hdb.served.reachable.valid now]
      exact fun k => (ih k).alive now
  | @rollback old db _ _ keys iho ih =>
      intro k
      rw [entry_restore_snapshot old db keys k]
      split_ifs
      · exact iho k
      · exact ih k

end ServedBy

end Db

/-! ## The frames of a far deadline -/

namespace Aof
open MiniRedis.Parser MiniRedis.Command
variable {t later d n : ℕ} {key value bytes : Bytes}

/-- The arguments of a `SET` with the time that is left. -/
def farArgs (key value : Bytes) (n : ℕ) : List Bytes :=
  [asBytes "SET", key, value, asBytes "PX", decimal n]

theorem relativeMillis_eq (hlt : t < d) (hd : d ≤ t + maxExpireAtMs) :
    relativeMillisForAof t d = d - t := by
  obtain ⟨hone, hle, -⟩ := left_in_range hd le_rfl hlt
  rw [relativeMillisForAof, Nat.max_eq_left hone, Nat.min_eq_left hle]

theorem setFrame_far (hfar : maxExpireAtMs < d) (hlt : t < d) (hd : d ≤ t + maxExpireAtMs)
    (key value : Bytes) :
    setFrame t key value (some d) = commandFrame (farArgs key value (d - t)) := by
  rw [setFrame, setExpiryParts, if_neg (Nat.not_le.mpr hfar), relativeMillis_eq hlt hd]
  rfl

theorem expiryFrame_far (hfar : maxExpireAtMs < d) (hlt : t < d) (hd : d ≤ t + maxExpireAtMs)
    (key : Bytes) :
    expiryFrame t key d = commandFrame [asBytes "PEXPIRE", key, decimal (d - t)] := by
  rw [expiryFrame, if_neg (Nat.not_le.mpr hfar), relativeMillis_eq hlt hd]
  rfl

/-- `SET` takes the time that is left whatever the deadline is, up to the width of a `u128`. -/
theorem fromFrame_far (hpos : 0 < n) (hn : n ≤ maxExpireAtMs) (c : Command) :
    fromFrame later (commandFrame (farArgs key value n)) = .ok c ↔
      later + n < 340282366920938463463374607431768211456 ∧
        c = .set key value (some (later + n)) := by
  obtain ⟨v, hv, hvn⟩ := parseI64_decimal hn
  have hpx : Spells (asBytes "PX") "PX" := congrArg _ (fromUtf8_asBytes "PX")
  rw [farArgs, fromFrame_command]
  refine (parseSet_spelled hpx rfl hv key value c).trans ?_
  have hrange : 0 < v.toInt ∧ v.toInt * unitMillis true ≤ maxExpireAtMs := by
    rw [hvn, unitMillis, if_pos rfl, Nat.cast_one, mul_one]
    exact ⟨Int.natCast_pos.mpr hpos, Int.ofNat_le.mpr hn⟩
  have hsum : (later : ℤ) + v.toInt * unitMillis true = ((later + n : ℕ) : ℤ) := by
    rw [hvn, unitMillis, if_pos rfl, Nat.cast_one, mul_one, Nat.cast_add]
  constructor
  · rintro ⟨d, hd, rfl⟩
    obtain ⟨-, heq, hlt⟩ := setRelativeDeadline_eq_ok.mp hd
    rw [hsum, Int.ofNat_inj] at heq
    exact ⟨heq ▸ hlt, by rw [heq]⟩
  · rintro ⟨hlt, rfl⟩
    exact ⟨_, setRelativeDeadline_eq_ok.mpr ⟨hrange, hsum.symm, hlt⟩, rfl⟩

/-- `PEXPIRE` does not. -/
theorem fromFrame_farPexpire (hpos : 0 < n) (hn : n ≤ maxExpireAtMs)
    (hfar : maxExpireAtMs < later + n) (c : Command) :
    fromFrame later (commandFrame [asBytes "PEXPIRE", key, decimal n]) ≠ .ok c := by
  obtain ⟨v, hv, hvn⟩ := parseI64_decimal hn
  intro h
  rw [fromFrame_command] at h
  obtain ⟨d, hd, -⟩ := (parseExpire_map hv key "PEXPIRE" true Command.pexpire c).mp h
  obtain ⟨hrange, -⟩ := expireRelativeDeadline_eq_ok.mp hd
  rw [hvn, unitMillis, if_pos rfl, Nat.cast_one, mul_one, ← Nat.cast_add, Int.ofNat_le] at hrange
  exact hrange.elim (fun h => by omega) (Nat.not_le.mpr hfar)

/-! ## Replay -/

/-- However the bytes are read, all of their commands are read and applied at `later`, and the
key then has the value and a deadline in the interval. -/
def Revives (host' : Host) (later : ExpireAt) (key value : Bytes) (lo hi : ℕ) (bytes : Bytes) :
    Prop :=
  ∀ (db : Db host') (pieces : List Bytes), pieces.flatten = bytes →
    (replay later db pieces).file = bytes ∧
      ∃ d, (replay later db pieces).db.entry key = some ⟨.string value, some d⟩ ∧ lo ≤ d ∧ d ≤ hi

theorem apply_set (hfits : bulkResponseFits value.length = true) (now : ExpireAt) (db : Db host')
    (key : Bytes) (expiresAt : Option ExpireAt) :
    ((Command.set key value expiresAt).apply now db).1.isError = false ∧
      ((Command.set key value expiresAt).apply now db).2.entry key =
        some ⟨.string value, expiresAt⟩ := by
  have hset : (Command.set key value expiresAt).apply now db =
      db.locked key fun shard => (.simple "OK", Cmd.setSection key value expiresAt shard) :=
    if_pos hfits
  have hc := Db.locked_changes
    (fun shard => (Frame.simple "OK", Cmd.setSection key value expiresAt shard))
    (Cmd.assigns_setSection (db.shardFor key) key value expiresAt)
  rw [hset]
  exact ⟨rfl, by rw [hc.entry, Function.update_self]⟩

/-- Bytes with a command in them that is refused are not replayed whole. -/
theorem not_revives {done rest : List Frame} {frame : Frame} {db db' : Db host'}
    (hread : ∀ f ∈ done ++ frame :: rest, Readable f)
    (ha : applyFrames later done db = some db') (hnone : applyFrame later db' frame = none)
    (lo hi : ℕ) :
    ¬ Revives host' later key value lo hi ((done ++ frame :: rest).flatMap wire) := by
  intro h
  obtain ⟨db'', hr, -⟩ := replay_refusedFrame hread ha hnone
  have hfile := (h db _ (List.flatten_singleton ..)).1
  rw [hr] at hfile
  have hlen := congrArg List.length hfile
  have hpos := wire_length_pos frame
  simp only [List.flatMap_append, List.flatMap_cons, List.length_append] at hlen
  omega

/-- One `SET` with the time that is left. -/
theorem revives_set (hpos : 0 < n) (hn : n ≤ maxExpireAtMs)
    (hfits : fitsFrame (farArgs key value n) = true)
    (hvalue : bulkResponseFits value.length = true) {lo hi : ℕ} :
    Revives host' later key value lo hi (wire (commandFrame (farArgs key value n))) ↔
      later + n < 340282366920938463463374607431768211456 ∧ lo ≤ later + n ∧ later + n ≤ hi := by
  have hread : Readable (commandFrame (farArgs key value n)) :=
    readable_command (by decide : 5 ≤ maxArrayLen) (of_decide_eq_true hfits)
  have hall : ∀ f ∈ [commandFrame (farArgs key value n)], Readable f :=
    List.forall_mem_singleton.mpr hread
  by_cases hlt : later + n < 340282366920938463463374607431768211456
  · have hset := fun db : Db host' => apply_set hvalue later db key (some (later + n))
    have happlied : ∀ db : Db host', applyFrames later [commandFrame (farArgs key value n)] db =
        some ((Command.set key value (some (later + n))).apply later db).2 := fun db =>
      Option.bind_eq_some_iff.mpr ⟨_, applyFrame_eq_some.mpr
        ⟨_, (fromFrame_far hpos hn _).mpr ⟨hlt, rfl⟩, (hset db).1, rfl⟩, rfl⟩
    rw [and_iff_right hlt]
    constructor
    · intro h
      obtain ⟨-, d, hd, hlo, hhi⟩ := h Db.new [wire (commandFrame (farArgs key value n))]
        (List.flatten_singleton ..)
      rw [replay_spec (by simp) hall (happlied Db.new), (hset Db.new).2] at hd
      cases hd
      exact ⟨hlo, hhi⟩
    · intro h db pieces hpieces
      have hfile : pieces.flatten = [commandFrame (farArgs key value n)].flatMap wire := by
        rw [hpieces, List.flatMap_singleton]
      rw [replay_spec hfile hall (happlied db)]
      exact ⟨hpieces, later + n, (hset db).2, h.1, h.2⟩
  · refine iff_of_false (fun h => ?_) fun h => hlt h.1
    have hnone : applyFrame later (Db.new : Db host')
        (commandFrame (farArgs key value n)) = none := by
      rw [Option.eq_none_iff_forall_ne_some]
      intro db' h'
      obtain ⟨c, hc, -⟩ := applyFrame_eq_some.mp h'
      exact hlt ((fromFrame_far hpos hn c).mp hc).1
    have hbytes : wire (commandFrame (farArgs key value n)) =
        ([] ++ commandFrame (farArgs key value n) :: []).flatMap wire := by
      rw [List.nil_append, List.flatMap_singleton]
    rw [hbytes] at h
    exact not_revives hall rfl hnone lo hi h

/-- Behind the chunks of a value the time that is left is refused. -/
theorem not_revives_chunks (hpos : 0 < n) (hn : n ≤ maxExpireAtMs)
    (hfar : maxExpireAtMs < later + n)
    {chunks : List Bytes} {head expiry : Bytes} (hflat : chunks.flatten = value)
    (hvalue : bulkResponseFits value.length = true)
    (hhead : Prints head ([asBytes "SET", key, []] ::
      chunks.map fun chunk => [asBytes "APPEND", key, chunk]))
    (hexpiry : Prints expiry [[asBytes "PEXPIRE", key, decimal n]]) (lo hi : ℕ) :
    ¬ Revives host' later key value lo hi (head ++ expiry) := by
  have hcommands : Commands key ⟨.string value, none⟩ _ := .append hflat
  have hstorable : Storable ⟨.string value, none⟩ :=
    ⟨fun d hd => (by cases hd), fun d hd => (by cases hd), hvalue⟩
  obtain ⟨value', -, hleads⟩ := @Commands.leads host' later key _ _ hcommands hstorable
  obtain ⟨db', ha, -⟩ := hleads Db.new rfl
  have hnone : applyFrame later db' (commandFrame [asBytes "PEXPIRE", key, decimal n]) = none := by
    rw [Option.eq_none_iff_forall_ne_some]
    intro db'' h'
    obtain ⟨c, hc, -⟩ := applyFrame_eq_some.mp h'
    exact fromFrame_farPexpire hpos hn hfar c hc
  have hbytes := (hhead.append hexpiry).bytes
  have hshort := hcommands.short_iff.mpr trivial
  simp only [expiryCommands, List.append_nil] at ha hshort
  rw [hbytes, List.map_append]
  refine not_revives ?_ ha hnone lo hi
  change ∀ f ∈ _ ++ [[asBytes "PEXPIRE", key, decimal n]].map commandFrame, _
  rw [← List.map_append, List.forall_mem_map]
  intro args hargs
  refine readable_command ?_ (of_decide_eq_true ((hhead.append hexpiry).fits args hargs))
  rcases List.mem_append.mp hargs with h | h
  · exact hshort args h
  · rw [List.mem_singleton.mp h]
    exact (by decide : 3 ≤ maxArrayLen)

/-! ## Strings with a far deadline -/

/-- What a client can bring about, and the clock has not passed. -/
theorem far_range {db : Db host} (h : db.ServedBy t)
    (hv : db.view t key = some ⟨.string value, some d⟩) :
    t < d ∧ d ≤ t + maxExpireAtMs ∧ bulkResponseFits value.length = true := by
  obtain ⟨hentry, hfresh⟩ := Slot.alive_eq_some.mp hv
  exact ⟨entryExpired_eq_false.mp hfresh d rfl, h.endsBy key _ d hentry rfl,
    h.served.wellFormed key _ hentry⟩

/-- A string that is written in chunks. -/
theorem far_chunks_not_revive {db : Db host} (h : db.ServedBy t)
    (hv : db.view t key = some ⟨.string value, some d⟩) (hfar : maxExpireAtMs < d)
    (hw : writeStringSnapshot t key value (some d) = .ok bytes) (hlater : t ≤ later)
    (hfits : fitsFrame (farArgs key value (d - t)) = false) (lo hi : ℕ) :
    ¬ Revives host' later key value lo hi bytes := by
  obtain ⟨hlt, hd, hvalue⟩ := far_range h hv
  obtain ⟨hpos, hn, hsum⟩ := left_in_range hd le_rfl hlt
  have hset : frameIsReplayable (setFrame t key value (some d)) = false := by
    rw [setFrame_far hfar hlt hd, frameIsReplayable_command, hfits]
  obtain ⟨chunks, head, expiry, hflat, rfl, hhead, hexpiry⟩ := writeStringSnapshot_parts hset hw
  rw [writeExpirySnapshot, expiryFrame_far hfar hlt hd] at hexpiry
  have hrefused : maxExpireAtMs < later + (d - t) :=
    Nat.lt_of_lt_of_le (hsum.symm ▸ hfar) (Nat.add_le_add_right hlater _)
  exact not_revives_chunks hpos hn hrefused hflat hvalue hhead (Prints.of_write hexpiry) lo hi

/-! ## A string of two requests -/

/-- `SET k a PX 9223372036854775807`, read at 1, and `APPEND k b`. -/
def farDb (a b : Bytes) : Db Server.oneShard :=
  ((Command.append [107] b).apply 3
    ((Command.set [107] a (some 9223372036854775808)).apply 2 Db.new).2).2

theorem fromClientBy_of_args {now : ℕ} (hnow : now ≤ t) (args : List Bytes) {c : Command}
    (hn : args.length ≤ maxArrayLen)
    (hlen : (wire (commandFrame args)).length ≤ maxBufferedFrameBytes)
    (h : fromFrame now (commandFrame args) = .ok c) : c.FromClientBy t :=
  ⟨_, _, _, now, hnow, parse_command hn hlen [], h⟩

theorem servedBy_farDb {a b : Bytes}
    (ha : fitsFrame (farArgs [107] a 9223372036854775807) = true)
    (hb : fitsFrame [asBytes "APPEND", [107], b] = true) : (farDb a b).ServedBy 5 := by
  have hset : fromFrame 1 (commandFrame (farArgs [107] a 9223372036854775807)) =
      .ok (.set [107] a (some 9223372036854775808)) :=
    (fromFrame_far (by decide) (by decide) _).mpr ⟨by decide, rfl⟩
  refine .apply (.apply .new 2 ?_) 3 ?_
  · exact fromClientBy_of_args (by decide) (farArgs [107] a 9223372036854775807)
      (by decide : 5 ≤ maxArrayLen) (of_decide_eq_true ha) hset
  · exact fromClientBy_of_args le_rfl [asBytes "APPEND", [107], b] (by decide : 3 ≤ maxArrayLen)
      (of_decide_eq_true hb) (fromFrame_append [107] b)

theorem view_farDb {a b : Bytes} (ha : bulkResponseFits a.length = true)
    (hab : bulkResponseFits (a ++ b).length = true) :
    (farDb a b).view 5 [107] = some ⟨.string (a ++ b), some 9223372036854775808⟩ := by
  have hset : ((Command.set [107] a (some 9223372036854775808)).apply 2
      (Db.new : Db Server.oneShard)).2.view 3 [107] =
        some ⟨.string a, some 9223372036854775808⟩ := by
    change Slot.alive 3 _ = _
    rw [(apply_set ha 2 Db.new _ _).2]
    rfl
  rw [farDb, view_later rfl (by decide), hset, Slot.update]
  dsimp only [Option.getD_some]
  rw [appendValue_of_fits hab]
  rfl

theorem length_farArgs (value : Bytes) (n : ℕ) :
    (wire (commandFrame (farArgs [107] value n))).length =
      28 + bulkLen value.length + bulkLen (decimal n).length := by
  have hset : bulkLen (asBytes "SET").length = 9 := by decide
  have hpx : bulkLen (asBytes "PX").length = 8 := by decide
  have hkey : bulkLen 1 = 7 := by decide
  have hheader : headerLen 5 = 4 := by decide
  rw [length_wire_args, farArgs]
  simp only [argsLen_cons, argsLen_nil, List.length_cons, List.length_nil, hset, hpx, hkey, hheader]
  omega

theorem bulkLen_nineteen {n : ℕ} (hlo : 10 ^ 18 ≤ n) (hhi : n < 10 ^ 19) :
    bulkLen (decimal n).length = 26 := by
  have hle := (length_decimal_le_iff (n := n) (by decide : 0 < 19)).mpr hhi
  have hgt := (length_decimal_le_iff (n := n) (by decide : 0 < 18)).not.mpr (Nat.not_lt.mpr hlo)
  rw [show (decimal n).length = 19 by omega]
  decide

/-- Half of a value that no frame can hold. -/
def half : Bytes := List.replicate 33554410 97

theorem bulkLen_half : bulkLen half.length = 33554423 := by
  rw [half, List.length_replicate]
  exact bulkLen_eight (by decide) (by decide)

/-- Two requests make a string that a rewrite writes, and a restart does not read. -/
theorem far_string_lost :
    (farDb half half).ServedBy 5 ∧
    (farDb half half).view 5 [107] = some ⟨.string (half ++ half), some 9223372036854775808⟩ ∧
    ∃ bytes, writeStringSnapshot 5 [107] (half ++ half) (some 9223372036854775808) = .ok bytes ∧
      ¬ Revives Server.oneShard 5 [107] (half ++ half) 9223372036854775808
        (9223372036854775808 + (5 - 5)) bytes := by
  have hlen := bulkLen_half
  have hmax : maxAofBufferedFrameBytes = 67108864 := by decide
  have hlong : (half ++ half).length = 67108820 := by
    rw [half, List.length_append, List.length_replicate]
  generalize half = a at hlen hlong
  have hall : bulkLen (a ++ a).length = 67108833 := by
    rw [hlong]
    exact bulkLen_eight (by decide) (by decide)
  have hset : fitsFrame (farArgs [107] a 9223372036854775807) = true := by
    have hn := bulkLen_nineteen (n := 9223372036854775807) (by omega) (by omega)
    rw [fitsFrame, decide_eq_true_iff, length_farArgs, hlen, hn]
    decide
  have htooLong : fitsFrame (farArgs [107] (a ++ a) (9223372036854775808 - 5)) = false := by
    have hn := bulkLen_nineteen (n := 9223372036854775808 - 5) (by omega) (by omega)
    rw [fitsFrame, decide_eq_false_iff_not, length_farArgs, hall, hn]
    decide
  have happend : fitsFrame [asBytes "APPEND", [107], a] = true := by
    rw [fitsFrame_append, hlen]
    decide
  have hone : fitsFrame [asBytes "APPEND", [107], (a ++ a).take 1] = true := by
    rw [fitsFrame_append]
    have hle : bulkLen ((a ++ a).take 1).length ≤ bulkLen 1 :=
      bulkLen_mono (List.length_take_le 1 _)
    have hbase : appendBaseLen [107] + bulkLen 1 ≤ maxAofBufferedFrameBytes := by decide
    exact (Nat.add_le_add_left hle _).trans hbase
  have hvalue : bulkResponseFits a.length = true := by
    rw [bulkResponseFits_iff, hlen]
    decide
  have hvalues : bulkResponseFits (a ++ a).length = true := by
    rw [bulkResponseFits_iff, hall]
    decide
  have hserved := servedBy_farDb hset happend
  have hview := view_farDb hvalue hvalues
  have hexpiry : ExpiryReplayable 5 [107] (some 9223372036854775808) := by
    intro d hd
    obtain rfl := Option.some.inj hd
    have hn := bulkLen_nineteen (n := 9223372036854775808 - 5) (by omega) (by omega)
    rw [expiryFrame_far (by decide) (by decide) (by decide), frameIsReplayable_command, fitsFrame,
      decide_eq_true_iff, length_wire_args]
    simp only [argsLen_cons, argsLen_nil, List.length_cons, List.length_nil, hn]
    decide
  obtain ⟨bytes, hw⟩ := writeStringSnapshot_iff.mpr (Or.inr ⟨hone, hexpiry⟩)
  exact ⟨hserved, hview, bytes, hw,
    far_chunks_not_revive hserved hview (by decide) hw le_rfl htooLong _ _⟩

/-- A string with a far deadline comes back with all of its time if and only if the `SET`
that holds it fits a frame, and the sum of the clock and the time left a `u128`. -/
theorem far_string_revives_iff {db : Db host} (h : db.ServedBy t) {key value : Bytes} {d : ℕ}
    (hv : db.view t key = some ⟨.string value, some d⟩) (hfar : maxExpireAtMs < d) {bytes : Bytes}
    (hw : writeStringSnapshot t key value (some d) = .ok bytes) (hlater : t ≤ later) :
    Revives host' later key value d (d + (later - t)) bytes ↔
      fitsFrame (farArgs key value (d - t)) = true ∧
        later + (d - t) < 340282366920938463463374607431768211456 := by
  obtain ⟨hlt, hd, hvalue⟩ := far_range h hv
  obtain ⟨hpos, hn, hsum⟩ := left_in_range hd le_rfl hlt
  cases hfits : fitsFrame (farArgs key value (d - t)) with
  | false =>
      exact iff_of_false (far_chunks_not_revive h hv hfar hw hlater hfits _ _)
        fun hn => Bool.false_ne_true hn.1
  | true =>
      have hset : frameIsReplayable (setFrame t key value (some d)) = true := by
        rw [setFrame_far hfar hlt hd, frameIsReplayable_command, hfits]
      rw [writeStringSnapshot, hset] at hw
      simp only [if_true] at hw
      rw [setFrame_far hfar hlt hd] at hw
      have hbytes := (Prints.of_write hw).bytes
      rw [List.map_singleton, List.flatMap_singleton] at hbytes
      rw [hbytes, revives_set hpos hn hfits hvalue, and_iff_right rfl]
      refine and_iff_left ⟨?_, ?_⟩ <;> omega

theorem far_string_revives_iff_short :
    ∃ bytes, writeStringSnapshot 5 [107] [97, 98] (some 9223372036854775808) = .ok bytes ∧
      Revives Server.oneShard 7 [107] [97, 98] 9223372036854775808
        (9223372036854775808 + (7 - 5)) bytes := by
  have hset : fitsFrame (farArgs [107] [97] 9223372036854775807) = true := by
    have hn := bulkLen_nineteen (n := 9223372036854775807) (by omega) (by omega)
    rw [fitsFrame, decide_eq_true_iff, length_farArgs, hn]
    decide
  have hall : fitsFrame (farArgs [107] [97, 98] (9223372036854775808 - 5)) = true := by
    have hn := bulkLen_nineteen (n := 9223372036854775808 - 5) (by omega) (by omega)
    rw [fitsFrame, decide_eq_true_iff, length_farArgs, hn]
    decide
  have hserved := servedBy_farDb hset
    (by decide : fitsFrame [asBytes "APPEND", [107], [98]] = true)
  have hview : (farDb [97] [98]).view 5 [107] =
      some ⟨.string [97, 98], some 9223372036854775808⟩ := view_farDb (by decide) (by decide)
  have hframe : frameIsReplayable
      (setFrame 5 [107] [97, 98] (some 9223372036854775808)) = true := by
    rw [setFrame_far (by decide) (by decide) (by decide), frameIsReplayable_command, hall]
  obtain ⟨bytes, hw⟩ := writeStringSnapshot_iff.mpr (Or.inl hframe)
  exact ⟨bytes, hw, (far_string_revives_iff hserved hview (by decide) hw (by decide)).mpr
    ⟨hall, by decide⟩⟩

end Aof
end MiniRedis
