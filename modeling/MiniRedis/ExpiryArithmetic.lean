import MiniRedis.Rereading
import MiniRedis.LazyExpiry
import MiniRedis.ListPositions

/-!
# Expiry arithmetic

There are eight ways to give a deadline: four options of `SET` and four commands. Their
range checks are four functions of the parser, which mix `i64` and `u128`. Here each is
compared with sums and products of integers, and the deadline with what `TTL` and `PTTL`
make of it later.
-/
namespace MiniRedis
open Numeral Wire ParserRoundTrip

variable {host : Host}

namespace Command

/-! ## The range checks -/

/-- Milliseconds in the unit of an option or a command. -/
def unitMillis (ms : Bool) : ℕ := if ms then 1 else 1000

theorem durationMillis_eq {v : Int64} (hv : 0 < v.toInt) (ms : Bool) (name : String) :
    ∃ d : ℕ, durationMillis v ms name = .ok d ∧ (d : ℤ) = v.toInt * unitMillis ms := by
  have hrange := int64_range v
  obtain ⟨n, hn⟩ := Int.eq_ofNat_of_zero_le hv.le
  have hu : asU128 v = n := asU128_of_nonneg hn
  rw [hn] at hrange ⊢
  cases ms with
  | true => exact ⟨n, congrArg _ hu, (mul_one _).symm⟩
  | false =>
      refine ⟨n * 1000, ?_, Nat.cast_mul n 1000⟩
      have hfit : u128? (n * 1000) = some (n * 1000) := if_pos (by omega)
      simp only [durationMillis, hu, millisPerSecond, hfit, Bool.false_eq_true, if_false]

section
variable {v : Int64} {ms : Bool} {name : String} {d : ExpireAt}

theorem absoluteDeadline_eq_ok (hv : 0 < v.toInt) :
    absoluteDeadline v ms name = .ok d ↔
      v.toInt * unitMillis ms ≤ maxExpireAtMs ∧ (d : ℤ) = v.toInt * unitMillis ms := by
  obtain ⟨delta, hdelta, heq⟩ := durationMillis_eq hv ms name
  unfold absoluteDeadline
  rw [hdelta, ← heq]
  simp only [bind, Except.bind]
  by_cases hle : delta ≤ maxExpireAtMs
  · rw [if_pos hle, Except.ok.injEq, Int.ofNat_inj, eq_comm]
    exact (and_iff_right (Int.ofNat_le.mpr hle)).symm
  · rw [if_neg hle]
    exact ⟨fun h => (nomatch h), fun h => absurd (Int.ofNat_le.mp h.1) hle⟩

theorem setAbsoluteDeadline_eq_ok :
    setAbsoluteDeadline v ms name = .ok d ↔
      (0 < v.toInt ∧ v.toInt * unitMillis ms ≤ maxExpireAtMs) ∧
        (d : ℤ) = v.toInt * unitMillis ms := by
  unfold setAbsoluteDeadline
  by_cases hv : v.toInt ≤ 0
  · rw [if_pos hv]
    exact ⟨fun h => (nomatch h), fun h => absurd h.1.1 (not_lt.mpr hv)⟩
  · rw [if_neg hv, absoluteDeadline_eq_ok (not_le.mp hv), and_assoc]
    exact (and_iff_right (not_le.mp hv)).symm

theorem expireAbsoluteDeadline_eq_ok :
    expireAbsoluteDeadline v ms name = .ok d ↔
      (v.toInt ≤ 0 ∨ v.toInt * unitMillis ms ≤ maxExpireAtMs) ∧
        (d : ℤ) = if v.toInt ≤ 0 then 0 else v.toInt * unitMillis ms := by
  unfold expireAbsoluteDeadline
  by_cases hv : v.toInt ≤ 0
  · rw [if_pos hv, if_pos hv, Except.ok.injEq, Int.natCast_eq_zero, eq_comm]
    exact (and_iff_right (Or.inl hv)).symm
  · rw [if_neg hv, if_neg hv, absoluteDeadline_eq_ok (not_le.mp hv), or_iff_right hv]

variable {now : ℕ}

/-- The sum with the clock reading has to be a `u128`. -/
theorem setRelativeDeadline_eq_ok :
    setRelativeDeadline now v ms name = .ok d ↔
      (0 < v.toInt ∧ v.toInt * unitMillis ms ≤ maxExpireAtMs) ∧
        (d : ℤ) = now + v.toInt * unitMillis ms ∧
        d < 340282366920938463463374607431768211456 := by
  unfold setRelativeDeadline
  by_cases hv : v.toInt ≤ 0
  · rw [if_pos hv]
    exact ⟨fun h => (nomatch h), fun h => absurd h.1.1 (not_lt.mpr hv)⟩
  · obtain ⟨delta, hdelta, heq⟩ := durationMillis_eq (not_le.mp hv) ms name
    rw [if_neg hv, hdelta, ← heq]
    simp only [bind, Except.bind]
    by_cases hle : maxExpireAtMs < delta
    · rw [if_pos hle]
      exact ⟨fun h => (nomatch h), fun h => absurd (Int.ofNat_le.mp h.1.2) (not_le.mpr hle)⟩
    · have hrange := And.intro (not_le.mp hv) (Int.ofNat_le.mpr (not_lt.mp hle))
      rw [if_neg hle, ← Nat.cast_add, Int.ofNat_inj, and_iff_right hrange, u128?]
      by_cases hfit : now + delta < 340282366920938463463374607431768211456
      · rw [if_pos hfit]
        dsimp only
        rw [Except.ok.injEq, eq_comm]
        exact (and_iff_left_of_imp fun h => h ▸ hfit).symm
      · rw [if_neg hfit]
        exact ⟨fun h => (nomatch h), fun h => absurd (h.1 ▸ h.2) hfit⟩

/-- On a clock below `2 ^ 63` it is. -/
theorem setRelativeDeadline_eq_ok_of_lt (hnow : now < 9223372036854775808) :
    setRelativeDeadline now v ms name = .ok d ↔
      (0 < v.toInt ∧ v.toInt * unitMillis ms ≤ maxExpireAtMs) ∧
        (d : ℤ) = now + v.toInt * unitMillis ms := by
  have hmax : (maxExpireAtMs : ℤ) = 9223372036854775807 := rfl
  rw [setRelativeDeadline_eq_ok, ← and_assoc]
  refine and_iff_left_of_imp fun h => ?_
  have hle := h.1.2
  have heq := h.2
  have hd : (d : ℤ) < 340282366920938463463374607431768211456 := by omega
  exact Int.ofNat_lt.mp hd

/-- Here the sum itself has to be in the range. -/
theorem expireRelativeDeadline_eq_ok :
    expireRelativeDeadline now v ms name = .ok d ↔
      (v.toInt ≤ 0 ∨ now + v.toInt * unitMillis ms ≤ maxExpireAtMs) ∧
        (d : ℤ) = if v.toInt ≤ 0 then 0 else now + v.toInt * unitMillis ms := by
  unfold expireRelativeDeadline
  by_cases hv : v.toInt ≤ 0
  · rw [if_pos hv, if_pos hv, Except.ok.injEq, Int.natCast_eq_zero, eq_comm]
    exact (and_iff_right (Or.inl hv)).symm
  · obtain ⟨delta, hdelta, heq⟩ := durationMillis_eq (not_le.mp hv) ms name
    rw [if_neg hv, if_neg hv, relativeDeadline, hdelta, ← heq, or_iff_right hv]
    simp only [bind, Except.bind]
    rw [← Nat.cast_add, Int.ofNat_le, Int.ofNat_inj]
    by_cases hle : now + delta ≤ maxExpireAtMs
    · have hmax : now + delta ≤ 9223372036854775807 := hle
      have hfit : u128? (now + delta) = some (now + delta) := if_pos (by omega)
      rw [hfit, Option.filter_some, if_pos (decide_eq_true hle)]
      dsimp only
      rw [Except.ok.injEq, eq_comm]
      exact (and_iff_right hle).symm
    · have hnone : (u128? (now + delta)).filter (· ≤ maxExpireAtMs) = none := by
        rw [Option.filter_eq_none_iff]
        intro m hm
        rw [← (u128?_eq_some hm).1]
        simpa using hle
      rw [hnone]
      exact ⟨fun h => (nomatch h), fun h => absurd h.1 hle⟩

end

/-! ## The eight settings -/

/-- The options of `SET`, and the commands, that give a deadline. -/
inductive Setting where
  | ex | px | exat | pxat
  | expire | pexpire | expireat | pexpireat

namespace Setting

def name : Setting → String
  | ex | px | exat | pxat => "SET"
  | expire => "EXPIRE"
  | pexpire => "PEXPIRE"
  | expireat => "EXPIREAT"
  | pexpireat => "PEXPIREAT"

def option : Setting → Option String
  | ex => some "EX"
  | px => some "PX"
  | exat => some "EXAT"
  | pxat => some "PXAT"
  | expire | pexpire | expireat | pexpireat => none

/-- The arguments of a request, under the spelling of the name and of the option. -/
def args (name option key value n : Bytes) : Setting → List Bytes
  | ex | px | exat | pxat => [name, key, value, option, n]
  | expire | pexpire | expireat | pexpireat => [name, key, n]

def unit : Setting → ℕ
  | ex | exat | expire | expireat => 1000
  | px | pxat | pexpire | pexpireat => 1

def Accepts (now : ℕ) (n : ℤ) (w : Setting) : Prop :=
  match w with
  | ex | px | exat | pxat => 0 < n ∧ n * w.unit ≤ maxExpireAtMs
  | expire | pexpire => n ≤ 0 ∨ now + n * w.unit ≤ maxExpireAtMs
  | expireat | pexpireat => n ≤ 0 ∨ n * w.unit ≤ maxExpireAtMs

/-- The deadline as an integer; the commands read a number that is not positive as zero. -/
def deadline (now : ℕ) (n : ℤ) (w : Setting) : ℤ :=
  match w with
  | ex | px => now + n * w.unit
  | exat | pxat => n * w.unit
  | expire | pexpire => if n ≤ 0 then 0 else now + n * w.unit
  | expireat | pexpireat => if n ≤ 0 then 0 else n * w.unit

def command (key value : Bytes) (d : ExpireAt) : Setting → Command
  | ex | px | exat | pxat => .set key value (some d)
  | expire => .expire key d
  | pexpire => .pexpire key d
  | expireat | pexpireat => .pexpireAt key d

end Setting

/-- The bytes are the word in some mixture of upper and lower case. -/
def Spells (b : Bytes) (word : String) : Prop := (fromUtf8 b).map toAsciiUppercase = some word

theorem fromFrame_spelled {b : Bytes} {word : String} (h : Spells b word) (now : ExpireAt)
    (rest : List Bytes) : fromFrame now (commandFrame (b :: rest)) = fromArgs now word rest := by
  obtain ⟨s, hs, rfl⟩ := Option.map_eq_some_iff.mp h
  simp [commandFrame, fromFrame, expectBulk, expectBulks_map, hs, bind, Except.bind]

theorem parseSet_spelled {now : ExpireAt} {o b : Bytes} {word : String} {v : Int64}
    {f : Int64 → Except ParseError ExpireAt} (h : Spells o word)
    (hf : setOption now "SET" word = some f) (hv : parseI64 b = .ok v) (key value : Bytes)
    (c : Command) : parseSet now [key, value, o, b] "SET" = .ok c ↔
      ∃ d, f v = .ok d ∧ c = .set key value (some d) := by
  obtain ⟨s, hs, rfl⟩ := Option.map_eq_some_iff.mp h
  simp only [parseSet, parseSetOptions, hs, Option.bind_some, hf, hv, Bool.false_eq_true, if_false,
    bind, Except.bind]
  cases f v with
  | error e => simp
  | ok d => simp [eq_comm]

theorem parseExpire_map {now : ExpireAt} {b : Bytes} {v : Int64} (hv : parseI64 b = .ok v)
    (key : Bytes) (name : String) (ms : Bool) (f : Bytes → ExpireAt → Command) (c : Command) :
    (parseExpire now [key, b] name ms).map (fun r => f r.1 r.2) = .ok c ↔
      ∃ d, expireRelativeDeadline now v ms name = .ok d ∧ c = f key d := by
  simp only [parseExpire, hv, bind, Except.bind]
  cases expireRelativeDeadline now v ms name with
  | error e => simp [Except.map]
  | ok d => simp [Except.map, eq_comm]

theorem parseExpireAt_map {b : Bytes} {v : Int64} (hv : parseI64 b = .ok v)
    (key : Bytes) (name : String) (ms : Bool) (f : Bytes → ExpireAt → Command) (c : Command) :
    (parseExpireAt [key, b] name ms).map (fun r => f r.1 r.2) = .ok c ↔
      ∃ d, expireAbsoluteDeadline v ms name = .ok d ∧ c = f key d := by
  simp only [parseExpireAt, hv, bind, Except.bind]
  cases expireAbsoluteDeadline v ms name with
  | error e => simp [Except.map]
  | ok d => simp [Except.map, eq_comm]

/-- What the parser makes of a setting. -/
theorem fromFrame_setting {now : ℕ} (hnow : now < 9223372036854775808) (w : Setting)
    {name option nBytes : Bytes} (hname : Spells name w.name)
    (hoption : ∀ o, w.option = some o → Spells option o) {n : Int64}
    (hn : parseI64 nBytes = .ok n) (key value : Bytes) (c : Command) :
    fromFrame now (commandFrame (w.args name option key value nBytes)) = .ok c ↔
      ∃ d : ℕ, (w.Accepts now n.toInt ∧ (d : ℤ) = w.deadline now n.toInt) ∧
        c = w.command key value d := by
  cases w with
  | ex | px =>
      refine (fromFrame_spelled hname now _).congr_left.trans ?_
      refine (parseSet_spelled (hoption _ rfl) rfl hn key value c).trans (exists_congr fun d => ?_)
      exact and_congr_left fun _ => setRelativeDeadline_eq_ok_of_lt hnow
  | exat | pxat =>
      refine (fromFrame_spelled hname now _).congr_left.trans ?_
      refine (parseSet_spelled (hoption _ rfl) rfl hn key value c).trans (exists_congr fun d => ?_)
      exact and_congr_left fun _ => setAbsoluteDeadline_eq_ok
  | expire | pexpire =>
      refine (fromFrame_spelled hname now _).congr_left.trans ?_
      refine (parseExpire_map hn key _ _ _ c).trans (exists_congr fun d => ?_)
      exact and_congr_left fun _ => expireRelativeDeadline_eq_ok
  | expireat | pexpireat =>
      refine (fromFrame_spelled hname now _).congr_left.trans ?_
      refine (parseExpireAt_map hn key _ _ _ c).trans (exists_congr fun d => ?_)
      exact and_congr_left fun _ => expireAbsoluteDeadline_eq_ok

end Command

/-! ## Reading a deadline -/

namespace Db

/-- What a client reads at every clock from `t` on, when `d` is the deadline of a key. -/
structure ReadsDeadline (db : Db host) (key : Bytes) (t d : ℕ) : Prop where
  pttl : ∀ s, t ≤ s → s < d → ∃ v, ((Command.pttl key).apply s db).1 = .integer v ∧
    v.toInt = min ((d : ℤ) - s) maxExpireAtMs
  ttl : ∀ s, t ≤ s → s < d → ∃ v, ((Command.ttl key).apply s db).1 = .integer v ∧
    v.toInt = ((d : ℤ) - s) / 1000
  gone : ∀ s, t ≤ s → d ≤ s →
    ((Command.ttl key).apply s db).1 = .integer (-2) ∧
    ((Command.pttl key).apply s db).1 = .integer (-2) ∧
    ((Command.get key).apply s db).1 = .null ∧
    ((Command.existsKeys [key]).apply s db).1 = .integer 0

end Db

namespace Cmd

theorem toInt_saturatingI64 (n : ℕ) :
    (saturatingI64 n).toInt = min (n : ℤ) 9223372036854775807 := by
  unfold saturatingI64 int64?
  by_cases hn : n ≤ 9223372036854775807
  · rw [if_pos (by omega), Option.getD_some, toInt_ofNat hn]
    omega
  · rw [if_neg (by omega)]
    change (9223372036854775807 : ℤ) = _
    omega

end Cmd

/-- A deadline below `2 ^ 64` is read back; `TTL` then needs no saturation. -/
theorem Db.readsDeadline_of_view {db : Db host} {key : Bytes} {t d : ℕ} (value : Value)
    (hd : d < 18446744073709551616)
    (h : ∀ s, t ≤ s → db.view s key = Slot.alive s (some ⟨value, some d⟩)) :
    db.ReadsDeadline key t d where
  pttl s ht hs := by
    refine ⟨_, ?_, (Cmd.toInt_saturatingI64 (d - s)).trans ?_⟩
    · change Cmd.ttl s db key true = _
      rw [Cmd.ttl_eq, h s ht, Slot.alive_of_lt rfl hs]
      rfl
    · rw [Int.ofNat_sub hs.le]
      rfl
  ttl s ht hs := by
    refine ⟨_, ?_, (Cmd.toInt_saturatingI64 ((d - s) / 1000)).trans ?_⟩
    · change Cmd.ttl s db key false = _
      rw [Cmd.ttl_eq, h s ht, Slot.alive_of_lt rfl hs]
      rfl
    · omega
  gone s ht hs := by
    have hnone : db.view s key = none := (h s ht).trans (Slot.alive_of_le rfl hs)
    refine ⟨?_, ?_, ?_, ?_⟩
    · change Cmd.ttl s db key false = _
      rw [Cmd.ttl_eq, hnone]
    · change Cmd.ttl s db key true = _
      rw [Cmd.ttl_eq, hnone]
    · change Cmd.get s db key = _
      rw [Cmd.get, Cmd.readLive_eq, hnone]
    · change Cmd.existsKeys s db [key] = _
      rw [Cmd.existsKeys_eq, List.countP_cons_of_neg (by simp [hnone])]
      rfl

namespace Command

/-- What a key holds after a transaction on it, at every later clock. -/
theorem view_later {t : ℕ} {db : Db host} {c : Command} {key : Bytes}
    {slot : Slot → Frame × Slot} (ht : c.transaction t = some (.on key slot)) {s : ℕ}
    (hs : t ≤ s) : (c.apply t db).2.view s key = Slot.alive s (slot (db.view t key)).2 := by
  have hr := c.apply_refines t db
  rw [ht] at hr
  rw [← Db.view_alive hs, hr.view]
  change Slot.alive s (Slot.alive t (Function.update (db.view t) key _ key)) = _
  rw [Function.update_self, Slot.alive_alive hs]

theorem alive_expire {t s d : ℕ} (hs : t ≤ s) (entry : Entry) :
    Slot.alive s (Slot.expire t d (some entry)).2 = Slot.alive s (some ⟨entry.value, some d⟩) := by
  unfold Slot.expire
  dsimp only
  split_ifs with hd
  · exact (Slot.alive_of_le rfl (hd.trans hs)).symm
  · rfl

theorem Setting.transaction_eq {w : Setting} (h : w.option = none) (key value : Bytes) (t d : ℕ) :
    (w.command key value d).transaction t = some (.on key (Slot.expire t d)) := by
  cases w with
  | ex | px | exat | pxat => cases h
  | expire | pexpire | expireat | pexpireat => rfl

theorem Setting.command_eq {w : Setting} (h : w.option ≠ none) (key value : Bytes) (d : ℕ) :
    w.command key value d = set key value (some d) := by
  cases w with
  | ex | px | exat | pxat => rfl
  | expire | pexpire | expireat | pexpireat => exact absurd rfl h

/-- A command that sets the deadline, on a key that is there. -/
theorem Setting.readsDeadline {w : Setting} {key value : Bytes} {t d : ℕ}
    (hd : d < 18446744073709551616) {db : Db host}
    (hlive : w.option = none → (db.view t key).isSome)
    (hok : ((w.command key value d).apply t db).1.isError = false) :
    ((w.command key value d).apply t db).2.ReadsDeadline key t d := by
  by_cases ho : w.option = none
  · obtain ⟨entry, hentry⟩ := Option.isSome_iff_exists.mp (hlive ho)
    refine Db.readsDeadline_of_view entry.value hd fun s hs => ?_
    rw [view_later (w.transaction_eq ho key value t d) hs, hentry, alive_expire hs]
  · rw [w.command_eq ho] at hok ⊢
    by_cases hfits : bulkResponseFits value.length
    · have ht : (set key value (some d)).transaction t =
        some (.on key fun _ => (.simple "OK", some ⟨.string value, some d⟩)) :=
        congrArg some (if_pos hfits)
      exact Db.readsDeadline_of_view _ hd fun s hs => view_later ht hs
    · have hreply : ((set key value (some d)).apply t db).1 = responseTooLarge := by
        change (Cmd.setAt db key value (some d)).1 = _
        rw [Cmd.setAt, if_neg hfits]
      rw [hreply] at hok
      cases hok

/-- `EXPIRE` and its forms with a number that is not positive. -/
theorem Setting.deletes {w : Setting} (ho : w.option = none) {key value : Bytes} {t : ℕ}
    {db : Db host} (hlive : (db.view t key).isSome) :
    ((w.command key value 0).apply t db).1 = .integer 1 ∧
      ((w.command key value 0).apply t db).2.entry key = none := by
  obtain ⟨entry, hentry⟩ := Option.isSome_iff_exists.mp hlive
  have heq : (w.command key value 0).apply t db = db.locked key (Cmd.expireSection t key 0) := by
    cases w with
    | ex | px | exat | pxat => cases ho
    | expire | pexpire | expireat | pexpireat => rfl
  have hacts := db.locked_acts (Cmd.acts_expireSection t key 0)
  rw [heq, hacts.1, hacts.2.entry, Function.update_self, hentry]
  simp [Slot.expire]

/-- The deadline that an accepted setting computes is a natural number below `2 ^ 64`. -/
theorem Setting.deadline_range {w : Setting} {now : ℕ} (hnow : now < 9223372036854775808) {n : ℤ}
    (h : w.Accepts now n) :
    0 ≤ w.deadline now n ∧ w.deadline now n < 18446744073709551616 := by
  have hmax : (maxExpireAtMs : ℤ) = 9223372036854775807 := rfl
  have hmul : 0 ≤ n → 0 ≤ n * w.unit := fun hn => Int.mul_nonneg hn (Int.natCast_nonneg _)
  cases w with
  | ex | px | exat | pxat =>
      have hpos := hmul h.1.le
      have hle := h.2
      constructor <;> (dsimp only [deadline]; omega)
  | expire | pexpire | expireat | pexpireat =>
      dsimp only [Accepts] at h
      dsimp only [deadline]
      split_ifs with hn
      · omega
      · have hpos := hmul (not_le.mp hn).le
        have hle := h.resolve_left hn
        omega

theorem Setting.deadline_of_nonpos (w : Setting) (ho : w.option = none) (now : ℕ) {n : ℤ}
    (hn : n ≤ 0) : w.deadline now n = 0 := by
  cases w with
  | ex | px | exat | pxat => cases ho
  | expire | pexpire | expireat | pexpireat => exact if_pos hn

/-- Every setting is accepted when its deadline is in its range, computes that deadline
without wrapping, and `TTL` and `PTTL` read it back at every later clock. -/
theorem expiry_exact {now : ℕ} (hnow : now < 9223372036854775808) (w : Setting)
    {name option nBytes : Bytes} (hname : Spells name w.name)
    (hoption : ∀ o, w.option = some o → Spells option o) {n : Int64}
    (hn : parseI64 nBytes = .ok n) (key value : Bytes) :
    ((∃ c, fromFrame now (commandFrame (w.args name option key value nBytes)) = .ok c) ↔
      w.Accepts now n.toInt) ∧
    ∀ c, fromFrame now (commandFrame (w.args name option key value nBytes)) = .ok c →
      ∃ d : ℕ, (d : ℤ) = w.deadline now n.toInt ∧ c = w.command key value d ∧
        ∀ (db : Db host) (t : ℕ), (w.option = none → (db.view t key).isSome) →
          (c.apply t db).1.isError = false →
            (c.apply t db).2.ReadsDeadline key t d ∧
            (w.option = none → n.toInt ≤ 0 →
              (c.apply t db).1 = .integer 1 ∧ (c.apply t db).2.entry key = none) := by
  have hread := fromFrame_setting hnow w hname hoption hn key value
  refine ⟨⟨fun ⟨c, hc⟩ => ?_, fun h => ?_⟩, fun c hc => ?_⟩
  · obtain ⟨d, h, -⟩ := (hread c).mp hc
    exact h.1
  · have hd : ((w.deadline now n.toInt).toNat : ℤ) = w.deadline now n.toInt :=
      Int.toNat_of_nonneg (Setting.deadline_range hnow h).1
    exact ⟨_, (hread _).mpr ⟨_, ⟨h, hd⟩, rfl⟩⟩
  · obtain ⟨d, ⟨h, hd⟩, rfl⟩ := (hread c).mp hc
    refine ⟨d, hd, rfl, fun db t hlive hok => ⟨?_, fun ho hneg => ?_⟩⟩
    · have hlt := (Setting.deadline_range hnow h).2
      exact Setting.readsDeadline (by omega) hlive hok
    · have hzero : d = 0 := by
        have hz := w.deadline_of_nonpos ho now hneg
        omega
      rw [hzero]
      exact Setting.deletes ho (hlive ho)

theorem expiry_exact_expire : ∃ d : ℕ, (d : ℤ) = Setting.expire.deadline 1 10 ∧
    ((expire [107] d).apply 2 Db.oneKey).2.ReadsDeadline [107] 2 d := by
  have hname : Spells (asBytes "expire") "EXPIRE" := congrArg _ (fromUtf8_asBytes "expire")
  have hten : parseI64 [49, 48] = .ok 10 := by decide
  have h := @expiry_exact ⟨fun _ => 3, 1⟩ 1 (by decide) .expire (asBytes "expire") [] _ hname nofun
    _ hten [107] []
  obtain ⟨c, hc⟩ := h.1.mpr (Or.inr (by decide))
  obtain ⟨d, hd, rfl, hread⟩ := h.2 c hc
  obtain rfl : d = 10001 := Int.ofNat_inj.mp hd
  exact ⟨10001, hd, (hread Db.oneKey 2 (fun _ => rfl) rfl).1⟩

end Command
end MiniRedis
