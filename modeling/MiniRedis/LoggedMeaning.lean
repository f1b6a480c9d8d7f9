import MiniRedis.Rereading

/-!
# A logged frame means its command

What a write command is logged as is read, at the same clock, as a command that
answers and does the same on every database. A deadline of `SET` beyond the signed
range is logged as the time that is left, so it has to be in the future then: once
it has passed, at least one millisecond is logged all the same.
-/
namespace MiniRedis.Command
open Numeral Wire ParserRoundTrip

/-- Nothing but a `SET` deadline beyond the signed range depends on the clock of the log. -/
def LoggedInTime (later : ExpireAt) : Command → Prop
  | set _ _ (some d) => maxExpireAtMs < d → later < d
  | _ => True

/-- The time that is left is in range, and no less than a millisecond. -/
theorem left_in_range {now later d bound : ℕ} (hd : d ≤ now + bound) (hn : now ≤ later)
    (hl : later < d) : 1 ≤ d - later ∧ d - later ≤ bound ∧ later + (d - later) = d := by
  omega

/-- The relative form of `SET`, read when it is written. -/
theorem fromFrame_setPx {now later d : ExpireAt} (key value : Bytes) (hd : SetDeadline now d)
    (hn : now ≤ later) (hmax : maxExpireAtMs < d) (hlater : later < d) :
    fromFrame later (commandFrame (asBytes "SET" :: key :: value :: expiryArgs later d)) =
      .ok (set key value (some d)) := by
  have hbound := hd.bound.resolve_left (Nat.not_le.mpr hmax)
  obtain ⟨hone, hle, hsum⟩ := left_in_range hbound.1 hn hlater
  have hleft : relativeMillisForAof later d = d - later := by
    rw [relativeMillisForAof, Nat.max_eq_left hone, Nat.min_eq_left hle]
  obtain ⟨v, hv, hvn⟩ := parseI64_decimal hle
  have hpx : setOption later "SET" (toAsciiUppercase "PX") =
    some fun n => setRelativeDeadline later n true "SET" := rfl
  have hdeadline : setRelativeDeadline later v true "SET" = .ok d := by
    simp only [setRelativeDeadline, durationMillis, if_true, bind, Except.bind,
      asU128_of_nonneg hvn, hsum, hbound.2]
    have hpos : ¬ v.toInt ≤ 0 := by
      rw [hvn]
      exact not_le.mpr (Int.natCast_pos.mpr hone)
    rw [if_neg hpos, if_neg (Nat.not_lt.mpr hle)]
  rw [expiryArgs, if_neg (Nat.not_le.mpr hmax), hleft, fromFrame_command]
  change parseSet later [key, value, asBytes "PX", decimal (d - later)] "SET" = _
  rw [parseSet, parseSetOptions_one hpx hv, hdeadline]
  rfl

/-- The logged arguments of a command are read back in time. -/
theorem ReadFrom.reread_in_time {now later : ExpireAt} {name : String} {rest : List Bytes}
    {c : Command} (h : ReadFrom now name rest c) (hn : now ≤ later) (hd : c.LoggedInTime later) :
    ∃ args, c.logged later = some args ∧ fromFrame later (commandFrame args) = .ok c.asLogged := by
  by_cases hr : c.DeadlineInRange
  · obtain ⟨name, args, hl, hf⟩ := h.reread hr later later
    exact ⟨_, hl, hf⟩
  · cases h with
    | @set key value options expiresAt ho =>
        cases expiresAt with
        | none => exact (hr trivial).elim
        | some d =>
            have hspec := parseSetOptions_spec (fun d hd => by cases hd) ho
            have hmax : maxExpireAtMs < d := Nat.not_le.mp hr
            exact ⟨_, rfl, fromFrame_setPx key value hspec hn hmax (hd hmax)⟩
    | _ => exact (hr trivial).elim

theorem apply_asLogged {host : Host} (now : ExpireAt) (db : Db host) (c : Command) :
    c.asLogged.apply now db = c.apply now db := by
  cases c <;> rfl

/-- A write command is logged as a frame that is read as a command with the same effect. -/
theorem logged_means_same {now later : ExpireAt} {frame : Frame} {c : Command}
    (h : fromFrame now frame = .ok c) (hw : c.isWrite = true) (hn : now ≤ later)
    (hd : c.LoggedInTime later) :
    ∃ f c', c.aofFrame later = some f ∧ fromFrame later f = .ok c' ∧
      ∀ (host : Host) (db : Db host) (clock : ExpireAt), c'.apply clock db = c.apply clock db := by
  obtain ⟨nameBytes, s, rest, -, -, hargs⟩ := fromFrame_eq_ok h
  obtain ⟨args, hl, hf⟩ := (readFrom_of_fromArgs hargs hw).reread_in_time hn hd
  refine ⟨commandFrame args, c.asLogged, ?_, hf, fun host db clock => apply_asLogged clock db c⟩
  rw [aofFrame_eq, hl, Option.map_some]

/-- `SET k v PX 9223372036854775807`. -/
def setFarPx : Frame :=
  commandFrame [asBytes "SET", [107], [118], asBytes "PX", decimal 9223372036854775807]

theorem fromFrame_setFarPx :
    fromFrame 1 setFarPx = .ok (set [107] [118] (some 9223372036854775808)) := by
  have hspec : SetDeadline 1 9223372036854775808 := ⟨by decide, Or.inr ⟨by decide, by decide⟩⟩
  have hargs : expiryArgs 1 9223372036854775808 =
    [asBytes "PX", decimal 9223372036854775807] := rfl
  have hmax : maxExpireAtMs < 9223372036854775808 := by decide
  have hread := fromFrame_setPx [107] [118] hspec le_rfl hmax (by decide)
  rwa [hargs] at hread

theorem logged_means_same_setFarPx :
    ∃ f c', (set [107] [118] (some 9223372036854775808)).aofFrame 5 = some f ∧
      fromFrame 5 f = .ok c' ∧ ∀ (host : Host) (db : Db host) (clock : ExpireAt),
        c'.apply clock db = (set [107] [118] (some 9223372036854775808)).apply clock db :=
  logged_means_same fromFrame_setFarPx rfl (by decide) fun _ => by decide

/-- Logged after the deadline has passed, the command sets a value that is still alive. -/
theorem late_setFarPx_revives :
    fromFrame 1 setFarPx = .ok (set [107] [118] (some 9223372036854775808)) ∧
    ∃ f, (set [107] [118] (some 9223372036854775808)).aofFrame 9223372036854775808 = some f ∧
      fromFrame 9223372036854775808 f = .ok (set [107] [118] (some 9223372036854775809)) ∧
      ¬ ∀ (host : Host) (db : Db host) (clock : ExpireAt),
        (set [107] [118] (some 9223372036854775809)).apply clock db =
          (set [107] [118] (some 9223372036854775808)).apply clock db := by
  refine ⟨fromFrame_setFarPx, _, rfl, ?_, ?_⟩
  · have hn : parseI64 (decimal 1) = .ok 1 := parseI64_eq_ok.mpr (readI64_signed 1)
    have hpx : setOption 9223372036854775808 "SET" (toAsciiUppercase "PX") =
      some fun n => setRelativeDeadline 9223372036854775808 n true "SET" := rfl
    change fromFrame _ (commandFrame [asBytes "SET", [107], [118], asBytes "PX", decimal 1]) = _
    rw [fromFrame_command]
    change parseSet _ [[107], [118], asBytes "PX", decimal 1] "SET" = _
    rw [parseSet, parseSetOptions_one hpx hn]
    rfl
  · intro h
    have hdb := congrArg (fun r => r.2.entry [107]) (h ⟨fun _ => 0, 1⟩ Db.new 0)
    cases hdb

end MiniRedis.Command
