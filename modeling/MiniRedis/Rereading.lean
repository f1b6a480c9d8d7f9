import MiniRedis.LoggedFrames

/-!
# Reading the log back

A logged frame is read as the command it was logged for, whatever the clock shows
then: its deadline is absolute. The relative and the absolute forms of `EXPIRE` are
all logged as `PEXPIREAT`. A deadline of `SET` beyond the signed range is logged as
a duration, and is left out here.
-/
namespace MiniRedis
open Numeral Wire PrefixCode ParserRoundTrip

namespace Command

/-! ## Deadlines -/

theorem asU128_of_nonneg {v : Int64} {n : ℕ} (h : v.toInt = n) : asU128 v = n := by
  have hr := int64_range v
  unfold asU128
  omega

theorem parseI64_decimal {n : ℕ} (h : n ≤ maxExpireAtMs) :
    ∃ v, parseI64 (decimal n) = .ok v ∧ v.toInt = n := by
  have hv := toInt_ofNat h
  refine ⟨Int64.ofInt n, ?_, hv⟩
  rw [parseI64_eq_ok, ← signed_natCast, ← hv, readI64_signed, hv]

theorem absoluteDeadline_ms {v : Int64} {n : ℕ} (hv : v.toInt = n) (h : n ≤ maxExpireAtMs)
    (name : String) : absoluteDeadline v true name = .ok n := by
  simp only [absoluteDeadline, durationMillis, if_true, bind, Except.bind, asU128_of_nonneg hv]
  exact if_pos h

theorem setAbsoluteDeadline_ms {v : Int64} {n : ℕ} (hv : v.toInt = n) (h : n ≤ maxExpireAtMs)
    (hn : 0 < n) (name : String) : setAbsoluteDeadline v true name = .ok n := by
  rw [setAbsoluteDeadline, if_neg (by omega), absoluteDeadline_ms hv h]

theorem expireAbsoluteDeadline_ms {v : Int64} {n : ℕ} (hv : v.toInt = n) (h : n ≤ maxExpireAtMs)
    (name : String) : expireAbsoluteDeadline v true name = .ok n := by
  unfold expireAbsoluteDeadline
  split_ifs with hn
  · rw [show n = 0 by omega]
  · exact absoluteDeadline_ms hv h name

theorem absoluteDeadline_le {v : Int64} {ms : Bool} {name : String} {d : ExpireAt}
    (h : absoluteDeadline v ms name = .ok d) : d ≤ maxExpireAtMs := by
  obtain ⟨d', -, h⟩ := bind_eq_ok.mp h
  split_ifs at h with hd
  obtain rfl := Except.ok.inj h
  exact hd

theorem expireAbsoluteDeadline_le {v : Int64} {ms : Bool} {name : String} {d : ExpireAt}
    (h : expireAbsoluteDeadline v ms name = .ok d) : d ≤ maxExpireAtMs := by
  unfold expireAbsoluteDeadline at h
  split_ifs at h
  · obtain rfl := Except.ok.inj h
    exact Nat.zero_le _
  · exact absoluteDeadline_le h

theorem expireRelativeDeadline_le {now : ExpireAt} {v : Int64} {ms : Bool} {name : String}
    {d : ExpireAt} (h : expireRelativeDeadline now v ms name = .ok d) : d ≤ maxExpireAtMs := by
  unfold expireRelativeDeadline at h
  split_ifs at h
  · obtain rfl := Except.ok.inj h
    exact Nat.zero_le _
  · obtain ⟨delta, -, h⟩ := bind_eq_ok.mp h
    cases hf : (u128? (now + delta)).filter (· ≤ maxExpireAtMs) with
    | none => simp [hf] at h
    | some deadline =>
        rw [hf] at h
        obtain rfl := Except.ok.inj h
        exact of_decide_eq_true (Option.filter_eq_some_iff.mp hf).2

theorem durationMillis_pos {v : Int64} {ms : Bool} {name : String} {d : ExpireAt}
    (hv : 0 < v.toInt) (h : durationMillis v ms name = .ok d) : 0 < d := by
  have hu : 0 < asU128 v := by
    have hr := int64_range v
    unfold asU128
    omega
  unfold durationMillis at h
  split_ifs at h
  · obtain rfl := Except.ok.inj h
    exact hu
  · unfold u128? at h
    split_ifs at h
    obtain rfl := Except.ok.inj h
    exact Nat.mul_pos hu (by decide)

theorem u128?_eq_some {n d : ℕ} (h : u128? n = some d) : n = d ∧ u128? d = some d := by
  unfold u128? at h ⊢
  split_ifs at h with hn
  obtain rfl := Option.some.inj h
  exact ⟨rfl, if_pos hn⟩

/-- What `SET` lets through as a deadline: only the relative options go beyond the range. -/
structure SetDeadline (now d : ExpireAt) : Prop where
  pos : 0 < d
  bound : d ≤ maxExpireAtMs ∨ d ≤ now + maxExpireAtMs ∧ u128? d = some d

theorem setRelativeDeadline_spec {now : ExpireAt} {v : Int64} {ms : Bool} {name : String}
    {d : ExpireAt} (h : setRelativeDeadline now v ms name = .ok d) : SetDeadline now d := by
  unfold setRelativeDeadline at h
  split_ifs at h with hv
  obtain ⟨delta, hdelta, h⟩ := bind_eq_ok.mp h
  have hpos := durationMillis_pos (not_le.mp hv) hdelta
  split_ifs at h with hle
  cases hu : u128? (now + delta) with
  | none =>
      rw [hu] at h
      cases h
  | some deadline =>
      rw [hu] at h
      obtain rfl := Except.ok.inj h
      have hsum := u128?_eq_some hu
      rw [← hsum.1]
      exact ⟨Nat.add_pos_right now hpos,
        Or.inr ⟨Nat.add_le_add_left (not_lt.mp hle) now, hsum.1 ▸ hsum.2⟩⟩

theorem setAbsoluteDeadline_spec {now : ExpireAt} {v : Int64} {ms : Bool} {name : String}
    {d : ExpireAt} (h : setAbsoluteDeadline v ms name = .ok d) : SetDeadline now d := by
  unfold setAbsoluteDeadline at h
  split_ifs at h with hv
  have hle := absoluteDeadline_le h
  obtain ⟨d', hd', h⟩ := bind_eq_ok.mp h
  split_ifs at h
  obtain rfl := Except.ok.inj h
  exact ⟨durationMillis_pos (not_le.mp hv) hd', Or.inl hle⟩

theorem setOption_spec {now : ExpireAt} {name option : String}
    {f : Int64 → Except ParseError ExpireAt} (hf : setOption now name option = some f) {v : Int64}
    {d : ExpireAt} (h : f v = .ok d) : SetDeadline now d := by
  unfold setOption at hf
  split at hf
  · obtain rfl := Option.some.inj hf
    exact setRelativeDeadline_spec h
  · obtain rfl := Option.some.inj hf
    exact setRelativeDeadline_spec h
  · obtain rfl := Option.some.inj hf
    exact setAbsoluteDeadline_spec h
  · obtain rfl := Option.some.inj hf
    exact setAbsoluteDeadline_spec h
  · cases hf

theorem parseSetOptions_spec {now : ExpireAt} {name : String} {options : List Bytes} {seen : Bool}
    {e : Option ExpireAt} {d : ExpireAt} (he : ∀ d, e = some d → SetDeadline now d)
    (h : parseSetOptions now name options seen e = .ok (some d)) : SetDeadline now d := by
  induction options using List.twoStepInduction generalizing seen e with
  | nil => exact he d (Except.ok.inj h)
  | singleton opt =>
      rw [parseSetOptions] at h
      split at h
      · cases h
      · split_ifs at h
  | cons_cons opt b options ih _ =>
      rw [parseSetOptions] at h
      split at h
      · cases h
      · rename_i deadline hopt
        split_ifs at h
        obtain ⟨n, -, h⟩ := bind_eq_ok.mp h
        obtain ⟨d', hd', h⟩ := bind_eq_ok.mp h
        obtain ⟨s, -, hs⟩ := Option.bind_eq_some_iff.mp hopt
        refine ih (fun d hd => ?_) h
        obtain rfl := Option.some.inj hd
        exact setOption_spec hs hd'

/-! ## Reading a logged frame -/

/-- The command that a logged one is read as. -/
def asLogged : Command → Command
  | expire key d | pexpire key d => pexpireAt key d
  | c => c

def DeadlineInRange : Command → Prop
  | set _ _ (some d) => d ≤ maxExpireAtMs
  | _ => True

theorem pairUp_pairArgs (pairs : List (Bytes × Bytes)) : pairUp (pairArgs pairs) = pairs := by
  induction pairs with
  | nil => rfl
  | cons p pairs ih =>
      change (p.1, p.2) :: pairUp (pairArgs pairs) = p :: pairs
      rw [ih]

theorem parseSetOptions_one {now : ExpireAt} {name option : String} {b : Bytes} {v : Int64}
    {f : Int64 → Except ParseError ExpireAt}
    (ho : setOption now name (toAsciiUppercase option) = some f) (hv : parseI64 b = .ok v) :
    parseSetOptions now name [asBytes option, b] false none = (f v).map some := by
  rw [parseSetOptions, fromUtf8_asBytes, Option.bind_some, ho]
  simp only [Bool.false_eq_true, if_false, hv, bind, Except.bind]
  cases f v <;> rfl

theorem parsePop_count (key : Bytes) {n : ℕ} (hn : n ≤ maxExpireAtMs) (name : String) :
    parsePop [key, decimal n] name = .ok (key, some n) := by
  obtain ⟨v, hv, hvn⟩ := parseI64_decimal hn
  simp only [parsePop, hv, hvn, bind, Except.bind, Int.toNat_natCast]
  exact if_neg (by omega)

/-- An absolute deadline is read back as it was written. -/
theorem fromFrame_pexpireAt (now : ExpireAt) (key : Bytes) {d : ExpireAt} (hd : d ≤ maxExpireAtMs) :
    fromFrame now (commandFrame [asBytes "PEXPIREAT", key, decimal d]) = .ok (pexpireAt key d) := by
  obtain ⟨v, hv, hn⟩ := parseI64_decimal hd
  rw [fromFrame_command]
  change (parseExpireAt [key, decimal d] "PEXPIREAT" true).map _ = _
  simp only [parseExpireAt, hv, expireAbsoluteDeadline_ms hn hd, bind, Except.bind, Except.map]

theorem fromFrame_setPxat (now : ExpireAt) (key value : Bytes) {d : ExpireAt}
    (hd : d ≤ maxExpireAtMs) (hpos : 0 < d) :
    fromFrame now (commandFrame [asBytes "SET", key, value, asBytes "PXAT", decimal d]) =
      .ok (set key value (some d)) := by
  obtain ⟨v, hv, hn⟩ := parseI64_decimal hd
  have hpxat : setOption now "SET" (toAsciiUppercase "PXAT") =
    some fun n => setAbsoluteDeadline n true "SET" := rfl
  rw [fromFrame_command]
  change parseSet now [key, value, asBytes "PXAT", decimal d] "SET" = _
  rw [parseSet, parseSetOptions_one hpxat hv, setAbsoluteDeadline_ms hn hd hpos]
  rfl

/-- Reading the logged arguments of a command that a client sent, at any later clock. -/
theorem ReadFrom.reread {now : ExpireAt} {name : String} {rest : List Bytes} {c : Command}
    (h : ReadFrom now name rest c) (hd : c.DeadlineInRange) (later again : ExpireAt) :
    ∃ name args, c.logged later = some (asBytes name :: args) ∧
      fromFrame again (commandFrame (asBytes name :: args)) = .ok c.asLogged := by
  have deadline : ∀ key d, d ≤ maxExpireAtMs →
      fromFrame again (commandFrame [asBytes "PEXPIREAT", key, decimal d]) =
        .ok (Command.pexpireAt key d) := fun key _ hle => fromFrame_pexpireAt again key hle
  cases h with
  | @set key value options expiresAt ho =>
      cases expiresAt with
      | none =>
          refine ⟨"SET", _, rfl, ?_⟩
          rw [fromFrame_command]
          rfl
      | some d =>
          have hle : d ≤ maxExpireAtMs := hd
          have hpos := (parseSetOptions_spec (fun d hd => by cases hd) ho).pos
          refine ⟨"SET", [key, value, asBytes "PXAT", decimal d], ?_,
            fromFrame_setPxat again key value hle hpos⟩
          rw [logged, expiryArgs, if_pos hle]
  | del hne =>
      refine ⟨"DEL", _, rfl, ?_⟩
      rw [fromFrame_command]
      exact if_neg (by simpa using hne)
  | mset hne heven =>
      refine ⟨"MSET", _, rfl, ?_⟩
      rw [fromFrame_command, pairArgs_pairUp _ heven]
      exact if_neg (by simp [hne, heven])
  | hset hlen heven =>
      refine ⟨"HSET", _, rfl, ?_⟩
      rw [fromFrame_command, pairArgs_pairUp _ heven]
      refine if_neg ?_
      simp only [List.length_cons]
      omega
  | expire h hd' => exact ⟨"PEXPIREAT", _, rfl, deadline _ _ (expireRelativeDeadline_le hd')⟩
  | pexpire h hd' => exact ⟨"PEXPIREAT", _, rfl, deadline _ _ (expireRelativeDeadline_le hd')⟩
  | expireAt h hd' => exact ⟨"PEXPIREAT", _, rfl, deadline _ _ (expireAbsoluteDeadline_le hd')⟩
  | pexpireAt h hd' => exact ⟨"PEXPIREAT", _, rfl, deadline _ _ (expireAbsoluteDeadline_le hd')⟩
  | incrBy h =>
      refine ⟨"INCRBY", _, rfl, ?_⟩
      rw [fromFrame_command]
      exact map_eq_ok.mpr ⟨_, parseI64_eq_ok.mpr (readI64_signed _), rfl⟩
  | decrBy h =>
      refine ⟨"DECRBY", _, rfl, ?_⟩
      rw [fromFrame_command]
      exact map_eq_ok.mpr ⟨_, parseI64_eq_ok.mpr (readI64_signed _), rfl⟩
  | hincrby h =>
      refine ⟨"HINCRBY", _, rfl, ?_⟩
      rw [fromFrame_command]
      exact map_eq_ok.mpr ⟨_, parseI64_eq_ok.mpr (readI64_signed _), rfl⟩
  | @lpopCount key b n h hn =>
      have hle : n.toInt.toNat ≤ maxExpireAtMs := Int.toNat_le.mpr (int64_range n).2
      exact ⟨"LPOP", _, rfl, (fromFrame_command _ _ _).trans
        (map_eq_ok.mpr ⟨_, parsePop_count key hle "LPOP", rfl⟩)⟩
  | @rpopCount key b n h hn =>
      have hle : n.toInt.toNat ≤ maxExpireAtMs := Int.toNat_le.mpr (int64_range n).2
      exact ⟨"RPOP", _, rfl, (fromFrame_command _ _ _).trans
        (map_eq_ok.mpr ⟨_, parsePop_count key hle "RPOP", rfl⟩)⟩
  | incr => exact ⟨"INCR", _, rfl, (fromFrame_command _ _ _).trans rfl⟩
  | decr => exact ⟨"DECR", _, rfl, (fromFrame_command _ _ _).trans rfl⟩
  | append => exact ⟨"APPEND", _, rfl, (fromFrame_command _ _ _).trans rfl⟩
  | persist => exact ⟨"PERSIST", _, rfl, (fromFrame_command _ _ _).trans rfl⟩
  | lpush => exact ⟨"LPUSH", _, rfl, (fromFrame_command _ _ _).trans rfl⟩
  | rpush => exact ⟨"RPUSH", _, rfl, (fromFrame_command _ _ _).trans rfl⟩
  | lpop => exact ⟨"LPOP", _, rfl, (fromFrame_command _ _ _).trans rfl⟩
  | rpop => exact ⟨"RPOP", _, rfl, (fromFrame_command _ _ _).trans rfl⟩
  | hdel => exact ⟨"HDEL", _, rfl, (fromFrame_command _ _ _).trans rfl⟩

end Command
end MiniRedis
