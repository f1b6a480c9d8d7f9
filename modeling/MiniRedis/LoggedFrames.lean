import MiniRedis.ParserBounds
import MiniRedis.AofReplay

/-!
# The frames of the append-only file

A write command is read from an array of bulk strings and logged as one. What the
client sent and what is logged are related by a relation with one case for each
command, so that facts about the log follow the commands and not the parser.
-/
namespace MiniRedis
open Numeral Wire PrefixCode ParserRoundTrip ParserBounds

namespace Command

/-! ## What a write command is read from -/

/-- The arguments that a write command was read from, under its upper-case name. -/
inductive ReadFrom (now : ExpireAt) : String → List Bytes → Command → Prop where
  | set {key value : Bytes} {options : List Bytes} {expiresAt : Option ExpireAt}
      (h : parseSetOptions now "SET" options false none = .ok expiresAt) :
      ReadFrom now "SET" (key :: value :: options) (.set key value expiresAt)
  | del {keys : List Bytes} (h : keys ≠ []) : ReadFrom now "DEL" keys (.del keys)
  | incr {key : Bytes} : ReadFrom now "INCR" [key] (.incr key)
  | decr {key : Bytes} : ReadFrom now "DECR" [key] (.decr key)
  | incrBy {key b : Bytes} {n : Int64} (h : readI64 b = some n) :
      ReadFrom now "INCRBY" [key, b] (.incrBy key n)
  | decrBy {key b : Bytes} {n : Int64} (h : readI64 b = some n) :
      ReadFrom now "DECRBY" [key, b] (.decrBy key n)
  | append {key value : Bytes} : ReadFrom now "APPEND" [key, value] (.append key value)
  | mset {args : List Bytes} (h : args ≠ []) (he : args.length % 2 = 0) :
      ReadFrom now "MSET" args (.mset (pairUp args))
  | expire {key b : Bytes} {n : Int64} {deadline : ExpireAt} (h : readI64 b = some n)
      (hd : expireRelativeDeadline now n false "EXPIRE" = .ok deadline) :
      ReadFrom now "EXPIRE" [key, b] (.expire key deadline)
  | pexpire {key b : Bytes} {n : Int64} {deadline : ExpireAt} (h : readI64 b = some n)
      (hd : expireRelativeDeadline now n true "PEXPIRE" = .ok deadline) :
      ReadFrom now "PEXPIRE" [key, b] (.pexpire key deadline)
  | expireAt {key b : Bytes} {n : Int64} {deadline : ExpireAt} (h : readI64 b = some n)
      (hd : expireAbsoluteDeadline n false "EXPIREAT" = .ok deadline) :
      ReadFrom now "EXPIREAT" [key, b] (.pexpireAt key deadline)
  | pexpireAt {key b : Bytes} {n : Int64} {deadline : ExpireAt} (h : readI64 b = some n)
      (hd : expireAbsoluteDeadline n true "PEXPIREAT" = .ok deadline) :
      ReadFrom now "PEXPIREAT" [key, b] (.pexpireAt key deadline)
  | persist {key : Bytes} : ReadFrom now "PERSIST" [key] (.persist key)
  | lpush {key value : Bytes} {values : List Bytes} :
      ReadFrom now "LPUSH" (key :: value :: values) (.lpush key (value :: values))
  | rpush {key value : Bytes} {values : List Bytes} :
      ReadFrom now "RPUSH" (key :: value :: values) (.rpush key (value :: values))
  | lpop {key : Bytes} : ReadFrom now "LPOP" [key] (.lpop key none)
  | lpopCount {key b : Bytes} {n : Int64} (h : readI64 b = some n) (hn : 0 ≤ n.toInt) :
      ReadFrom now "LPOP" [key, b] (.lpop key (some n.toInt.toNat))
  | rpop {key : Bytes} : ReadFrom now "RPOP" [key] (.rpop key none)
  | rpopCount {key b : Bytes} {n : Int64} (h : readI64 b = some n) (hn : 0 ≤ n.toInt) :
      ReadFrom now "RPOP" [key, b] (.rpop key (some n.toInt.toNat))
  | hset {key : Bytes} {args : List Bytes} (h : 2 ≤ args.length) (he : args.length % 2 = 0) :
      ReadFrom now "HSET" (key :: args) (.hset key (pairUp args))
  | hdel {key field : Bytes} {fields : List Bytes} :
      ReadFrom now "HDEL" (key :: field :: fields) (.hdel key (field :: fields))
  | hincrby {key field b : Bytes} {n : Int64} (h : readI64 b = some n) :
      ReadFrom now "HINCRBY" [key, field, b] (.hincrby key field n)

theorem map_eq_ok {E A B : Type} {x : Except E A} {f : A → B} {b : B} :
    x.map f = .ok b ↔ ∃ a, x = .ok a ∧ f a = b := by
  cases x <;> simp [Except.map]

theorem oneArg_eq_ok {rest : List Bytes} {name : String} {a : Bytes} :
    oneArg rest name = .ok a ↔ rest = [a] := by
  unfold oneArg
  split <;> simp_all

theorem parseI64_eq_ok {b : Bytes} {n : Int64} : parseI64 b = .ok n ↔ readI64 b = some n := by
  unfold parseI64
  cases readI64 b <;> simp

theorem parseExpire_eq_ok {now : ExpireAt} {rest : List Bytes} {name : String} {ms : Bool}
    {r : Bytes × ExpireAt} (h : parseExpire now rest name ms = .ok r) :
    ∃ b n, rest = [r.1, b] ∧ readI64 b = some n ∧
      expireRelativeDeadline now n ms name = .ok r.2 := by
  unfold parseExpire at h
  split at h
  · rename_i key b
    obtain ⟨n, hn, h⟩ := bind_eq_ok.mp h
    obtain ⟨d, hd, h⟩ := bind_eq_ok.mp h
    obtain rfl := Except.ok.inj h
    exact ⟨b, n, rfl, parseI64_eq_ok.mp hn, hd⟩
  · cases h

theorem parseExpireAt_eq_ok {rest : List Bytes} {name : String} {ms : Bool}
    {r : Bytes × ExpireAt} (h : parseExpireAt rest name ms = .ok r) :
    ∃ b n, rest = [r.1, b] ∧ readI64 b = some n ∧ expireAbsoluteDeadline n ms name = .ok r.2 := by
  unfold parseExpireAt at h
  split at h
  · rename_i key b
    obtain ⟨n, hn, h⟩ := bind_eq_ok.mp h
    obtain ⟨d, hd, h⟩ := bind_eq_ok.mp h
    obtain rfl := Except.ok.inj h
    exact ⟨b, n, rfl, parseI64_eq_ok.mp hn, hd⟩
  · cases h

theorem parsePush_eq_ok {rest : List Bytes} {name : String} {r : Bytes × List Bytes}
    (h : parsePush rest name = .ok r) : ∃ v vs, rest = r.1 :: v :: vs ∧ r.2 = v :: vs := by
  unfold parsePush at h
  split at h
  · obtain rfl := Except.ok.inj h
    exact ⟨_, _, rfl, rfl⟩
  · cases h

theorem parsePop_eq_ok {rest : List Bytes} {name : String} {r : Bytes × Option ℕ}
    (h : parsePop rest name = .ok r) :
    (rest = [r.1] ∧ r.2 = none) ∨ ∃ b n, rest = [r.1, b] ∧ readI64 b = some n ∧ 0 ≤ n.toInt ∧
      r.2 = some n.toInt.toNat := by
  unfold parsePop at h
  split at h
  · obtain rfl := Except.ok.inj h
    exact Or.inl ⟨rfl, rfl⟩
  · rename_i key b
    obtain ⟨n, hn, h⟩ := bind_eq_ok.mp h
    split_ifs at h with hneg
    obtain rfl := Except.ok.inj h
    exact Or.inr ⟨b, n, rfl, parseI64_eq_ok.mp hn, not_lt.mp hneg, rfl⟩
  · cases h

theorem parseSet_eq_ok {now : ExpireAt} {rest : List Bytes} {name : String} {c : Command}
    (h : parseSet now rest name = .ok c) :
    ∃ key value options expiresAt, rest = key :: value :: options ∧
      parseSetOptions now name options false none = .ok expiresAt ∧
      c = .set key value expiresAt := by
  unfold parseSet at h
  split at h
  · obtain ⟨e, he, h⟩ := bind_eq_ok.mp h
    exact ⟨_, _, _, e, rfl, he, (Except.ok.inj h).symm⟩
  · cases h

/-- A reader of a command that is not a write. -/
theorem not_write_of_map {A : Type} {x : Except ParseError A} {f : A → Command} {c : Command}
    (h : x.map f = .ok c) (hf : ∀ a, (f a).isWrite = false) : c.isWrite = false := by
  obtain ⟨a, -, rfl⟩ := map_eq_ok.mp h
  exact hf a

theorem readFrom_of_fromArgs {now : ExpireAt} {name : String} {rest : List Bytes} {c : Command}
    (h : fromArgs now name rest = .ok c) (hw : c.isWrite = true) : ReadFrom now name rest c := by
  unfold fromArgs at h
  dsimp only at h
  split at h
  case h_4 =>
    obtain ⟨key, value, options, e, rfl, he, rfl⟩ := parseSet_eq_ok h
    exact .set he
  case h_5 =>
    split_ifs at h with hr
    obtain rfl := Except.ok.inj h
    exact .del (by simpa using hr)
  case h_7 | h_8 | h_21 =>
    obtain ⟨key, hk, rfl⟩ := map_eq_ok.mp h
    obtain rfl := oneArg_eq_ok.mp hk
    constructor
  case h_9 | h_10 | h_11 | h_37 =>
    split at h
    · first
      | (obtain ⟨n, hn, rfl⟩ := map_eq_ok.mp h
         exact (by constructor; exact parseI64_eq_ok.mp hn))
      | (obtain rfl := Except.ok.inj h
         constructor)
    · cases h
  case h_14 =>
    split_ifs at h with hr
    obtain rfl := Except.ok.inj h
    rw [not_or, not_not] at hr
    exact .mset (by simpa using hr.1) hr.2
  case h_15 | h_16 =>
    obtain ⟨⟨key, d⟩, hr, rfl⟩ := map_eq_ok.mp h
    obtain ⟨b, n, rfl, hn, hd⟩ := parseExpire_eq_ok hr
    first
    | exact .expire hn hd
    | exact .pexpire hn hd
  case h_17 | h_18 =>
    obtain ⟨⟨key, d⟩, hr, rfl⟩ := map_eq_ok.mp h
    obtain ⟨b, n, rfl, hn, hd⟩ := parseExpireAt_eq_ok hr
    first
    | exact .expireAt hn hd
    | exact .pexpireAt hn hd
  case h_22 | h_23 =>
    obtain ⟨⟨key, vs⟩, hr, rfl⟩ := map_eq_ok.mp h
    obtain ⟨v, vs', hrest, hvs⟩ := parsePush_eq_ok hr
    dsimp only at hrest hvs ⊢
    subst hrest hvs
    constructor
  case h_24 | h_25 =>
    obtain ⟨⟨key, count⟩, hr, rfl⟩ := map_eq_ok.mp h
    dsimp only
    rcases parsePop_eq_ok hr with ⟨rfl, hc⟩ | ⟨b, n, rfl, hn, hpos, hc⟩ <;>
      dsimp only at hc <;> subst hc
    · constructor
    · first
      | exact .lpopCount hn hpos
      | exact .rpopCount hn hpos
  case h_29 =>
    split at h
    · split_ifs at h with hr
      obtain rfl := Except.ok.inj h
      simp only [List.length_cons] at hr
      exact .hset (by omega) (by omega)
    · cases h
  case h_31 =>
    split at h
    · obtain rfl := Except.ok.inj h
      constructor
    · cases h
  -- the commands that are not writes
  case h_2 | h_3 | h_12 | h_19 | h_20 | h_27 | h_32 | h_33 | h_34 | h_36 =>
    exact (Bool.false_ne_true ((not_write_of_map h fun _ => rfl).symm.trans hw)).elim
  case h_39 | h_43 =>
    obtain rfl := Except.ok.inj h
    cases hw
  case h_26 =>
    split at h
    · obtain ⟨start, -, h⟩ := bind_eq_ok.mp h
      obtain ⟨stop, -, h⟩ := bind_eq_ok.mp h
      obtain rfl := Except.ok.inj h
      cases hw
    · cases h
  case h_28 =>
    split at h
    · exact (Bool.false_ne_true ((not_write_of_map h fun _ => rfl).symm.trans hw)).elim
    · cases h
  case h_41 =>
    split at h
    · obtain rfl := Except.ok.inj h
      cases hw
    · split at h
      · obtain rfl := Except.ok.inj h
        cases hw
      · cases h
    · cases h
  all_goals
    split at h <;> first
    | (obtain rfl := Except.ok.inj h
       cases hw)
    | cases h

/-- The frame and the name that a command was read from. -/
theorem fromFrame_eq_ok {now : ExpireAt} {f : Frame} {c : Command}
    (h : fromFrame now f = .ok c) :
    ∃ nameBytes s rest, f = commandFrame (nameBytes :: rest) ∧ fromUtf8 nameBytes = some s ∧
      fromArgs now (toAsciiUppercase s) rest = .ok c := by
  have bulks : ∀ (items : List Frame) idx rest, expectBulks items idx = .ok rest →
      items = rest.map .bulk := by
    intro items
    induction items with
    | nil =>
        intro idx rest h
        obtain rfl := Except.ok.inj h
        rfl
    | cons item items ih =>
        intro idx rest h
        obtain ⟨b, hb, h⟩ := bind_eq_ok.mp h
        obtain ⟨bs, hbs, h⟩ := bind_eq_ok.mp h
        obtain rfl := Except.ok.inj h
        rw [ih (idx + 1) bs hbs, List.map_cons]
        cases item <;> cases hb
        rfl
  unfold fromFrame at h
  split at h
  · cases h
  · rename_i nameFrame items
    obtain ⟨nameBytes, hn, h⟩ := bind_eq_ok.mp h
    cases hs : fromUtf8 nameBytes with
    | none => simp [hs] at h
    | some s =>
        rw [hs] at h
        obtain ⟨rest, hr, h⟩ := bind_eq_ok.mp h
        refine ⟨nameBytes, s, rest, ?_, hs, h⟩
        rw [bulks items 1 rest hr]
        cases nameFrame <;> cases hn
        rfl
  · cases h

theorem expectBulks_map (rest : List Bytes) (idx : ℕ) :
    expectBulks (rest.map .bulk) idx = .ok rest := by
  induction rest generalizing idx with
  | nil => rfl
  | cons b rest ih => simp [expectBulks, expectBulk, ih, bind, Except.bind]

theorem fromFrame_command (now : ExpireAt) (name : String) (rest : List Bytes) :
    fromFrame now (commandFrame (asBytes name :: rest)) =
      fromArgs now (toAsciiUppercase name) rest := by
  simp [commandFrame, fromFrame, expectBulk, expectBulks_map, bind, Except.bind]

/-! ## What is logged -/

/-- The arguments that `push_set_expiry` adds. -/
def expiryArgs (now deadline : ExpireAt) : List Bytes :=
  if deadline ≤ maxExpireAtMs then [asBytes "PXAT", decimal deadline]
  else [asBytes "PX", decimal (relativeMillisForAof now deadline)]

def pairArgs (pairs : List (Bytes × Bytes)) : List Bytes := pairs.flatMap fun p => [p.1, p.2]

/-- The arguments of the logged frame. -/
def logged (now : ExpireAt) : Command → Option (List Bytes)
  | set key value none => some [asBytes "SET", key, value]
  | set key value (some d) => some (asBytes "SET" :: key :: value :: expiryArgs now d)
  | del keys => some (asBytes "DEL" :: keys)
  | incr key => some [asBytes "INCR", key]
  | decr key => some [asBytes "DECR", key]
  | incrBy key n => some [asBytes "INCRBY", key, signed n.toInt]
  | decrBy key n => some [asBytes "DECRBY", key, signed n.toInt]
  | append key value => some [asBytes "APPEND", key, value]
  | mset pairs => some (asBytes "MSET" :: pairArgs pairs)
  | expire key d | pexpire key d | pexpireAt key d => some [asBytes "PEXPIREAT", key, decimal d]
  | persist key => some [asBytes "PERSIST", key]
  | lpush key values => some (asBytes "LPUSH" :: key :: values)
  | rpush key values => some (asBytes "RPUSH" :: key :: values)
  | lpop key none => some [asBytes "LPOP", key]
  | lpop key (some n) => some [asBytes "LPOP", key, decimal n]
  | rpop key none => some [asBytes "RPOP", key]
  | rpop key (some n) => some [asBytes "RPOP", key, decimal n]
  | hset key pairs => some (asBytes "HSET" :: key :: pairArgs pairs)
  | hdel key fields => some (asBytes "HDEL" :: key :: fields)
  | hincrby key field n => some [asBytes "HINCRBY", key, field, signed n.toInt]
  | _ => none

theorem pairParts_eq (pairs : List (Bytes × Bytes)) :
    pairParts pairs = (pairArgs pairs).map .bulk := by
  induction pairs with
  | nil => rfl
  | cons p pairs ih =>
      simp only [pairParts, pairArgs, List.flatMap_cons, List.map_append] at ih ⊢
      rw [ih]
      rfl

theorem pairArgs_pairUp (args : List Bytes) (h : args.length % 2 = 0) :
    pairArgs (pairUp args) = args := by
  induction args using pairUp.induct with
  | case1 a b rest ih =>
      simp only [List.length_cons] at h
      have hrest := ih (by omega)
      simp only [pairUp, pairArgs, List.flatMap_cons] at hrest ⊢
      rw [hrest]
      rfl
  | case2 args hne =>
      cases args with
      | nil => rfl
      | cons a args =>
          cases args with
          | nil => simp at h
          | cons b rest => exact (hne a b rest rfl).elim

theorem aofFrame_eq (now : ExpireAt) (c : Command) :
    c.aofFrame now = (c.logged now).map commandFrame := by
  cases c with
  | set key value e =>
      cases e with
      | none => rfl
      | some d =>
          simp only [aofFrame, logged, setExpiryParts, expiryArgs]
          split_ifs <;> rfl
  | mset pairs => simp [aofFrame, logged, pairParts_eq, commandFrame, bulk]
  | hset key pairs => simp [aofFrame, logged, pairParts_eq, commandFrame, bulk]
  | lpop key n | rpop key n => cases n <;> rfl
  | _ => rfl

theorem logged_isSome (now : ExpireAt) (c : Command) : (c.logged now).isSome = c.isWrite := by
  cases c with
  | set key value e => cases e <;> rfl
  | lpop key n | rpop key n => cases n <;> rfl
  | _ => rfl

end Command
end MiniRedis
