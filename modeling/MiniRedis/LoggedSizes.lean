import MiniRedis.LoggedFrames

/-!
# The sizes of logged frames

Except for the deadlines, a logged frame is no longer than the client's, so it is
within the limits of the reader. A deadline has more digits than the time it was
computed from, and the option and the command that carry it have longer names: the
frame of a client next to the limit can be logged as one beyond it.
-/
namespace MiniRedis
open Numeral Wire PrefixCode ParserRoundTrip ParserBounds MiniRedis.Parser

/-! ## Upper case keeps the length -/

theorem utf8Size_ascii {c : Char} (h : c.val.toNat < 128) : c.utf8Size = 1 := by
  have hc : c.val ≤ 127 := UInt32.le_iff_toNat_le.mpr (by simpa using Nat.le_of_lt_succ h)
  exact if_pos hc

theorem utf8Size_toUpper (c : Char) : c.toUpper.utf8Size = c.utf8Size := by
  unfold Char.toUpper
  split
  · rename_i h
    have h₁ : 97 ≤ c.val.toNat := UInt32.le_iff_toNat_le.mp h.1
    have h₂ : c.val.toNat ≤ 122 := UInt32.le_iff_toNat_le.mp h.2
    have hd : ('A'.val - 'a'.val).toNat = 4294967264 := by decide
    rw [utf8Size_ascii (c := c) (by omega), utf8Size_ascii]
    simp only [UInt32.toNat_add, hd]
    omega
  · rfl

theorem length_asBytes (s : String) : (asBytes s).length = (s.toList.map Char.utf8Size).sum := by
  conv_lhs => rw [← String.ofList_toList (s := s), asBytes_ofList, List.length_flatMap]
  congr 1
  exact List.map_congr_left fun c _ => String.length_utf8EncodeChar c

theorem length_toAsciiUppercase (s : String) :
    (asBytes (toAsciiUppercase s)).length = (asBytes s).length := by
  rw [length_asBytes, length_asBytes, toAsciiUppercase, String.toList_ofList, List.map_map]
  congr 1
  exact List.map_congr_left fun c _ => utf8Size_toUpper c

/-! ## Lengths of arguments -/

/-- The encoded length of the arguments, without the array header. -/
def argsLen (args : List Bytes) : ℕ := (args.map fun a => bulkLen a.length).sum

@[simp] theorem argsLen_nil : argsLen [] = 0 := rfl

@[simp] theorem argsLen_cons (a : Bytes) (args : List Bytes) :
    argsLen (a :: args) = bulkLen a.length + argsLen args := by
  simp [argsLen]

theorem length_wire_args (args : List Bytes) :
    (wire (commandFrame args)).length = headerLen args.length + argsLen args :=
  length_wire_command args

theorem headerLen_mono {m n : ℕ} (h : m ≤ n) : headerLen m ≤ headerLen n := by
  have := length_decimal_mono h
  unfold headerLen
  omega

theorem bulkLen_signed_le {b : Bytes} {n : Int64} (h : readI64 b = some n) :
    bulkLen (signed n.toInt).length ≤ bulkLen b.length :=
  bulkLen_mono (Numeral.length_signed_le (parseInt64_of_readI64 h))

theorem bulkLen_count_le {b : Bytes} {n : Int64} (h : readI64 b = some n) (hn : 0 ≤ n.toInt) :
    bulkLen (decimal n.toInt.toNat).length ≤ bulkLen b.length := by
  have hb := bulkLen_signed_le h
  rwa [← Int.toNat_of_nonneg hn, signed_natCast] at hb

namespace Command

/-- The command writes a deadline that its client gave. -/
def setsExpiry : Command → Bool
  | set _ _ (some _) | expire .. | pexpire .. | pexpireAt .. => true
  | _ => false

/-- Apart from deadlines, the log has no more arguments than the request, and no longer ones. -/
theorem ReadFrom.logged_le {now : ExpireAt} {name : String} {rest : List Bytes} {c : Command}
    (h : ReadFrom now name rest c) (he : c.setsExpiry = false) (later : ExpireAt) :
    ∃ args, c.logged later = some (asBytes name :: args) ∧ args.length ≤ rest.length ∧
      argsLen args ≤ argsLen rest := by
  cases h with
  | @set key value options expiresAt _ =>
      cases expiresAt with
      | some d => cases he
      | none =>
          refine ⟨[key, value], rfl, by simp, ?_⟩
          simp only [argsLen_cons, argsLen_nil]
          omega
  | expire | pexpire | expireAt | pexpireAt => cases he
  | mset _ hodd => exact ⟨_, rfl, by rw [pairArgs_pairUp _ hodd], by rw [pairArgs_pairUp _ hodd]⟩
  | @hset key args _ hodd =>
      exact ⟨_, rfl, by rw [pairArgs_pairUp _ hodd], by rw [pairArgs_pairUp _ hodd]⟩
  | incrBy h | decrBy h | hincrby h =>
      have hb := bulkLen_signed_le h
      refine ⟨_, rfl, by simp, ?_⟩
      simp only [argsLen_cons, argsLen_nil]
      omega
  | lpopCount h hn | rpopCount h hn =>
      have hb := bulkLen_count_le h hn
      refine ⟨_, rfl, by simp, ?_⟩
      simp only [argsLen_cons, argsLen_nil]
      omega
  | _ => exact ⟨_, rfl, le_rfl, le_rfl⟩

/-! ## Which commands can be read back -/

/-- The frame that is logged at `now` is within the limit of `replay`, which reads it back. -/
def ReadsBack (now : ExpireAt) (c : Command) : Prop :=
  ∃ frame, c.aofFrame now = some frame ∧
    (encode frame []).length ≤ Aof.maxAofBufferedFrameBytes ∧
    parse (encode frame []) = .ok (some frame, [])

/-- The absolute deadline of a command leaves room for its key and its value. -/
def ExpiryFits (now : ExpireAt) : Command → Prop
  | set key value (some d) =>
      if d ≤ maxExpireAtMs then
        bulkLen key.length + bulkLen value.length + bulkLen (decimal d).length + 23 ≤
          Aof.maxAofBufferedFrameBytes
      else
        bulkLen key.length + bulkLen value.length +
          bulkLen (decimal (relativeMillisForAof now d)).length + 21 ≤ Aof.maxAofBufferedFrameBytes
  | expire key d | pexpire key d | pexpireAt key d =>
      bulkLen key.length + bulkLen (decimal d).length + 19 ≤ Aof.maxAofBufferedFrameBytes
  | _ => True

instance (now : ExpireAt) (c : Command) : Decidable (c.ExpiryFits now) := by
  unfold ExpiryFits
  split <;> infer_instance

theorem readsBack_iff {now : ExpireAt} {c : Command} {args : List Bytes}
    (h : c.logged now = some args) (hn : args.length ≤ maxArrayLen) :
    c.ReadsBack now ↔ headerLen args.length + argsLen args ≤ Aof.maxAofBufferedFrameBytes := by
  have hf : c.aofFrame now = some (commandFrame args) := by rw [aofFrame_eq, h, Option.map_some]
  have he : encode (commandFrame args) [] = wire (commandFrame args) := by
    rw [encode_eq_append, List.nil_append]
  constructor
  · rintro ⟨frame, hframe, hlen, -⟩
    obtain rfl := Option.some.inj (hf.symm.trans hframe)
    rwa [he, length_wire_args] at hlen
  · intro hlen
    rw [← length_wire_args] at hlen
    refine ⟨_, hf, by rwa [he], ?_⟩
    have hp := parse_command hn hlen []
    rwa [List.append_nil, ← he] at hp

theorem expiryFits_of_not_setsExpiry {c : Command} (h : c.setsExpiry = false) (now : ExpireAt) :
    c.ExpiryFits now := by
  cases c with
  | set key value e =>
      cases e with
      | none => trivial
      | some d => cases h
  | expire | pexpire | pexpireAt => cases h
  | _ => trivial

theorem length_expiryArgs (now d : ExpireAt) : (expiryArgs now d).length = 2 := by
  unfold expiryArgs
  split_ifs <;> rfl

/-- Where a deadline is logged, the condition is the length of the logged frame. -/
theorem readsBack_iff_expiryFits {c : Command} (h : c.setsExpiry = true) (now : ExpireAt) :
    c.ReadsBack now ↔ c.ExpiryFits now := by
  have h₃ : headerLen 3 = 4 := by decide
  have h₅ : headerLen 5 = 4 := by decide
  have hset : bulkLen (asBytes "SET").length = 9 := by decide
  have hpxat : bulkLen (asBytes "PXAT").length = 10 := by decide
  have hpx : bulkLen (asBytes "PX").length = 8 := by decide
  have hexpire : bulkLen (asBytes "PEXPIREAT").length = 15 := by decide
  have hmax : maxArrayLen = 1048576 := rfl
  cases c with
  | set key value e =>
      cases e with
      | none => cases h
      | some d =>
          have hl : (asBytes "SET" :: key :: value :: expiryArgs now d).length = 5 := by
            simp only [List.length_cons, length_expiryArgs]
          rw [readsBack_iff rfl (by omega), hl, ExpiryFits, expiryArgs]
          split_ifs
          · simp only [argsLen_cons, argsLen_nil]
            omega
          · simp only [argsLen_cons, argsLen_nil]
            omega
  | expire key d | pexpire key d | pexpireAt key d =>
      have hl : [asBytes "PEXPIREAT", key, decimal d].length = 3 := rfl
      rw [readsBack_iff rfl (by omega), hl, ExpiryFits]
      simp only [argsLen_cons, argsLen_nil]
      omega
  | _ => cases h

/-- A command in a frame that the parser accepts, at whatever clock the frame was read. -/
def FromClient (c : Command) : Prop :=
  ∃ buf rest frame now, parse buf = .ok (some frame, rest) ∧ fromFrame now frame = .ok c

/-- The request of a client, as the arguments that were read. -/
theorem FromClient.request {c : Command} (h : c.FromClient) :
    ∃ now name args, fromArgs now name args = .ok c ∧ args.length + 1 ≤ maxArrayLen ∧
      headerLen (args.length + 1) + (bulkLen (asBytes name).length + argsLen args) ≤
        maxBufferedFrameBytes := by
  obtain ⟨buf, rest, frame, now, hp, hf⟩ := h
  obtain ⟨nameBytes, s, args, rfl, hs, hargs⟩ := fromFrame_eq_ok hf
  obtain ⟨hparse, hlen⟩ := parse_accepted hp
  have hname : (asBytes (toAsciiUppercase s)).length = nameBytes.length := by
    rw [length_toAsciiUppercase, asBytes_of_fromUtf8 hs]
  have hcount := hparse.1
  rw [List.length_map, List.length_cons] at hcount
  rw [length_wire_args, List.length_cons, argsLen_cons] at hlen
  exact ⟨now, _, args, hargs, hcount, by rwa [hname]⟩

/-- The log never has more arguments than an array may have. -/
theorem FromClient.logged_length {c : Command} (h : c.FromClient) {later : ExpireAt}
    {args : List Bytes} (hl : c.logged later = some args) : args.length ≤ maxArrayLen := by
  have hw : c.isWrite = true := by rw [← logged_isSome later, hl]; rfl
  have hmax : maxArrayLen = 1048576 := rfl
  obtain ⟨now, name, request, hr, hcount, -⟩ := h.request
  cases he : c.setsExpiry with
  | false =>
      obtain ⟨args', hl', hle, -⟩ := (readFrom_of_fromArgs hr hw).logged_le he later
      obtain rfl := Option.some.inj (hl.symm.trans hl')
      rw [List.length_cons]
      omega
  | true =>
      cases c with
      | set key value e =>
          cases e with
          | none => cases he
          | some d =>
              obtain rfl := Option.some.inj hl
              simp only [List.length_cons, length_expiryArgs]
              omega
      | expire key d | pexpire key d | pexpireAt key d =>
          obtain rfl := Option.some.inj hl
          simp only [List.length_cons, List.length_nil]
          omega
      | _ => cases he

theorem FromClient.readsBack_iff {c : Command} (h : c.FromClient) (hw : c.isWrite = true)
    (later : ExpireAt) : c.ReadsBack later ↔ c.ExpiryFits later := by
  cases he : c.setsExpiry with
  | true => exact readsBack_iff_expiryFits he later
  | false =>
      obtain ⟨now, name, args, hargs, -, hlen⟩ := h.request
      obtain ⟨args', hl, hle, hsize⟩ := (readFrom_of_fromArgs hargs hw).logged_le he later
      have hheader : headerLen (args'.length + 1) ≤ headerLen (args.length + 1) :=
        headerLen_mono (by omega)
      have hmax : maxBufferedFrameBytes = Aof.maxAofBufferedFrameBytes := rfl
      rw [Command.readsBack_iff hl (h.logged_length hl)]
      refine iff_of_true ?_ (expiryFits_of_not_setsExpiry he later)
      rw [List.length_cons, argsLen_cons]
      omega

/-- An accepted write is logged as a frame that `replay` reads back if and only if its
deadline fits, which it does unless the frame is next to the limit. -/
theorem logged_readsBack_iff {buf rest : Bytes} {frame : Frame} {now : ExpireAt} {c : Command}
    (hp : parse buf = .ok (some frame, rest)) (hf : fromFrame now frame = .ok c)
    (hw : c.isWrite = true) (later : ExpireAt) : c.ReadsBack later ↔ c.ExpiryFits later :=
  FromClient.readsBack_iff ⟨buf, rest, frame, now, hp, hf⟩ hw later

/-- `SET k value EX 1`, as a client sends it. -/
def setEx (value : Bytes) : Frame :=
  commandFrame [asBytes "SET", asBytes "k", value, asBytes "EX", decimal 1]

theorem fromFrame_setEx (value : Bytes) :
    fromFrame 1700000000000 (setEx value) =
      .ok (set (asBytes "k") value (some 1700000001000)) := by
  have hn : parseI64 (decimal 1) = .ok 1 := by
    rw [parseI64, show decimal 1 = signed (1 : Int64).toInt from rfl, readI64_signed]
  rw [setEx, fromFrame_command, show toAsciiUppercase "SET" = "SET" by decide]
  change parseSet 1700000000000 [asBytes "k", value, asBytes "EX", decimal 1] "SET" = _
  simp only [parseSet, parseSetOptions, setOption, hn, bind, Except.bind]
  rfl

theorem bulkLen_large : bulkLen 67108816 = 67108829 := bulkLen_eight (by decide) (by decide)

theorem length_setEx {value : Bytes} (h : value.length = 67108816) :
    (wire (setEx value)).length = maxBufferedFrameBytes := by
  have h₅ : headerLen [asBytes "SET", asBytes "k", value, asBytes "EX", decimal 1].length = 4 :=
    show headerLen 5 = 4 by decide
  rw [setEx, length_wire_args, h₅]
  simp only [argsLen_cons, argsLen_nil, h, bulkLen_large]
  decide

def largeValue : Bytes := List.replicate 67108816 0

/-- A client's frame of exactly the accepted length whose logged frame is beyond the limit. -/
theorem setEx_not_readsBack :
    parse (encode (setEx largeValue) []) = .ok (some (setEx largeValue), []) ∧
      fromFrame 1700000000000 (setEx largeValue) =
        .ok (set (asBytes "k") largeValue (some 1700000001000)) ∧
      ¬ ReadsBack 1700000000000 (set (asBytes "k") largeValue (some 1700000001000)) := by
  have hv : largeValue.length = 67108816 := List.length_replicate
  refine ⟨?_, fromFrame_setEx largeValue, ?_⟩
  · have hcount : (5 : ℕ) ≤ maxArrayLen := by decide
    have hp : parse (wire (setEx largeValue) ++ []) = .ok (some (setEx largeValue), []) := by
      refine parse_command ?_ (length_setEx hv).le []
      exact hcount
    rwa [List.append_nil, ← List.nil_append (wire _), ← encode_eq_append] at hp
  · rw [readsBack_iff_expiryFits rfl, ExpiryFits, if_pos (by decide), hv, bulkLen_large]
    decide

theorem logged_readsBack_iff_setEx :
    parse (encode (setEx (asBytes "v")) []) = .ok (some (setEx (asBytes "v")), []) ∧
      (ReadsBack 1700000000000 (set (asBytes "k") (asBytes "v") (some 1700000001000)) ↔
        ExpiryFits 1700000000000 (set (asBytes "k") (asBytes "v") (some 1700000001000))) := by
  have hp : parse (wire (setEx (asBytes "v")) ++ []) = .ok (some (setEx (asBytes "v")), []) :=
    parse_command (by decide) (by decide) []
  rw [List.append_nil, ← List.nil_append (wire _), ← encode_eq_append] at hp
  exact ⟨hp, logged_readsBack_iff hp (fromFrame_setEx (asBytes "v")) rfl 1700000000000⟩

end Command
end MiniRedis
