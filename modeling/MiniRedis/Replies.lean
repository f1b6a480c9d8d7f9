import MiniRedis.Connection
import MiniRedis.ReplySizes
import MiniRedis.Server

/-!
# Replies and the limit of `write_frame`

Outside of subscribed mode a request is answered with the frame of its command, or with
the error of reading it. `write_frame` refuses a frame beyond the output limit, and the
connection ends without a reply. Only one reply repeats a name of any length.
-/
namespace MiniRedis
open Numeral Wire ParserRoundTrip

variable {host : Host}

/-! ## Reading a command -/

/-- The errors that the arguments of a command can cause. -/
def ParseError.About (name : String) : ParseError → Prop
  | arity n => n = name
  | invalidExpireTime n => n = toAsciiLowercase name
  | notInt | outOfRangePositive | syntaxError => True
  | notArray | empty | notBulk _ | badName => False

namespace Command
variable {now : ExpireAt} {name : String} {A B : Type}

/-- The command has a known name, and what it sends back is one of its arguments. -/
def Known (args : List Bytes) : Command → Prop
  | ping (some msg) | echo msg => msg ∈ args
  | unknown _ => False
  | _ => True

/-- A reader whose errors are about the arguments. -/
def Errs (name : String) (x : Except ParseError A) : Prop := ∀ e, x = .error e → e.About name

namespace Errs

theorem ok (a : A) : Errs name (.ok a) := fun _ h => by cases h

theorem error {e : ParseError} (h : e.About name) : Errs name (.error e : Except ParseError A) :=
  fun _ he => Except.error.inj he ▸ h

theorem bind {x : Except ParseError A} {f : A → Except ParseError B} (h : Errs name x)
    (hf : ∀ a, Errs name (f a)) : Errs name (x >>= f) := by
  cases x with
  | error e => exact error (h e rfl)
  | ok a => exact hf a

theorem parseI64 (b : Bytes) : Errs name (Command.parseI64 b) := by
  unfold Command.parseI64
  split
  · exact ok _
  · exact error trivial

theorem oneArg (rest : List Bytes) : Errs name (Command.oneArg rest name) := by
  unfold Command.oneArg
  split
  · exact ok _
  · exact error rfl

theorem durationMillis (n : Int64) (ms : Bool) : Errs name (Command.durationMillis n ms name) := by
  unfold Command.durationMillis
  split_ifs
  · exact ok _
  · split
    · exact ok _
    · exact error rfl

theorem setRelativeDeadline (n : Int64) (ms : Bool) :
    Errs name (Command.setRelativeDeadline now n ms name) := by
  unfold Command.setRelativeDeadline
  split_ifs
  · exact error rfl
  · refine bind (durationMillis n ms) fun delta => ?_
    split_ifs
    · exact error rfl
    · split
      · exact ok _
      · exact error rfl

theorem absoluteDeadline (n : Int64) (ms : Bool) :
    Errs name (Command.absoluteDeadline n ms name) := by
  refine bind (durationMillis n ms) fun deadline => ?_
  split_ifs
  · exact ok _
  · exact error rfl

theorem setOption {option : String} {f : Int64 → Except ParseError ExpireAt}
    (h : Command.setOption now name option = some f) (n : Int64) : Errs name (f n) := by
  have habsolute : ∀ ms, Errs name (Command.setAbsoluteDeadline n ms name) := by
    intro ms
    unfold Command.setAbsoluteDeadline
    split_ifs
    · exact error rfl
    · exact absoluteDeadline n ms
  unfold Command.setOption at h
  split at h
  · exact Option.some.inj h ▸ setRelativeDeadline n false
  · exact Option.some.inj h ▸ setRelativeDeadline n true
  · exact Option.some.inj h ▸ habsolute false
  · exact Option.some.inj h ▸ habsolute true
  · cases h

theorem parseSetOptions (options : List Bytes) (seen : Bool) (expiresAt : Option ExpireAt) :
    Errs name (Command.parseSetOptions now name options seen expiresAt) := by
  induction options using List.twoStepInduction generalizing seen expiresAt with
  | nil => exact ok _
  | singleton opt =>
      unfold Command.parseSetOptions
      split
      · exact error trivial
      · split_ifs <;> exact error trivial
  | cons_cons opt n rest ih _ =>
      unfold Command.parseSetOptions
      split
      · exact error trivial
      · rename_i deadline hopt
        obtain ⟨s, -, hoption⟩ := Option.bind_eq_some_iff.mp hopt
        split_ifs
        · exact error trivial
        · exact bind (parseI64 n) fun n => bind (setOption hoption n) fun d => ih true (some d)

theorem parseSet (rest : List Bytes) : Errs name (Command.parseSet now rest name) := by
  unfold Command.parseSet
  split
  · exact bind (parseSetOptions _ _ _) fun _ => ok _
  · exact error rfl

theorem parseExpire (rest : List Bytes) (ms : Bool) :
    Errs name (Command.parseExpire now rest name ms) := by
  unfold Command.parseExpire
  split
  · refine bind (parseI64 _) fun n => bind ?_ fun _ => ok _
    unfold Command.expireRelativeDeadline
    split_ifs
    · exact ok _
    · refine bind (durationMillis n ms) fun delta => ?_
      split
      · exact ok _
      · exact error rfl
  · exact error rfl

theorem parseExpireAt (rest : List Bytes) (ms : Bool) :
    Errs name (Command.parseExpireAt rest name ms) := by
  unfold Command.parseExpireAt
  split
  · refine bind (parseI64 _) fun n => bind ?_ fun _ => ok _
    unfold Command.expireAbsoluteDeadline
    split_ifs
    · exact ok _
    · exact absoluteDeadline n ms
  · exact error rfl

theorem parsePush (rest : List Bytes) : Errs name (Command.parsePush rest name) := by
  unfold Command.parsePush
  split
  · exact ok _
  · exact error rfl

theorem parsePop (rest : List Bytes) : Errs name (Command.parsePop rest name) := by
  unfold Command.parsePop
  split
  · exact ok _
  · refine bind (parseI64 _) fun n => ?_
    split_ifs
    · exact error trivial
    · exact ok _
  · exact error rfl

end Errs

/-- What the reader of a known command returns. -/
def Reads (name : String) (args : List Bytes) : Except ParseError Command → Prop
  | .ok c => c.Known args
  | .error e => e.About name

theorem Errs.reads {args : List Bytes} {x : Except ParseError A} (h : Errs name x) {f : A → Command}
    (hf : ∀ a, (f a).Known args) : Reads name args (x.map f) := by
  cases x with
  | error e => exact h e rfl
  | ok a => exact hf a

/-- The names that `from_frame` knows. -/
def names : List String :=
  ["PING", "ECHO", "GET", "SET", "DEL", "EXISTS", "INCR", "DECR", "INCRBY", "DECRBY", "APPEND",
    "STRLEN", "MGET", "MSET", "EXPIRE", "PEXPIRE", "EXPIREAT", "PEXPIREAT", "TTL", "PTTL",
    "PERSIST", "LPUSH", "RPUSH", "LPOP", "RPOP", "LRANGE", "LLEN", "LINDEX", "HSET", "HGET",
    "HDEL", "HKEYS", "HVALS", "HGETALL", "HEXISTS", "HLEN", "HINCRBY", "SUBSCRIBE",
    "UNSUBSCRIBE", "PUBLISH", "INFO", "BGREWRITEAOF"]

theorem length_of_mem_names : ∀ name ∈ names, (asBytes name).length ≤ 12 := by decide

/-- A command is unknown under its own name, or it has one of the names and its reader is
known. -/
theorem fromArgs_spec (now : ExpireAt) (name : String) (args : List Bytes) :
    fromArgs now name args = .ok (unknown name) ∨
      name ∈ names ∧ Reads name args (fromArgs now name args) := by
  unfold fromArgs
  dsimp only
  split
  case h_43 => exact Or.inl rfl
  all_goals refine Or.inr ⟨by decide, ?_⟩
  case h_1 =>
    split
    · trivial
    · exact List.mem_singleton_self _
    · rfl
  case h_2 =>
    cases ho : oneArg args "ECHO" with
    | error e => exact Errs.oneArg args e ho
    | ok a => exact oneArg_eq_ok.mp ho ▸ List.mem_singleton_self a
  case h_3 | h_7 | h_8 | h_12 | h_19 | h_20 | h_21 | h_27 | h_32 | h_33 | h_34 | h_36 =>
    exact (Errs.oneArg args).reads fun _ => trivial
  case h_4 =>
    cases hs : parseSet now args "SET" with
    | error e => exact Errs.parseSet args e hs
    | ok c =>
        obtain ⟨key, value, options, expiresAt, -, -, rfl⟩ := parseSet_eq_ok hs
        trivial
  case h_5 | h_6 | h_13 | h_14 | h_38 | h_42 =>
    split_ifs
    · first | rfl | trivial
    · first | rfl | trivial
  case h_9 | h_10 | h_28 | h_37 =>
    split
    · exact (Errs.parseI64 _).reads fun _ => trivial
    · rfl
  case h_11 | h_30 | h_31 | h_35 | h_40 =>
    split
    · trivial
    · rfl
  case h_15 | h_16 => exact (Errs.parseExpire args _).reads fun _ => trivial
  case h_17 | h_18 => exact (Errs.parseExpireAt args _).reads fun _ => trivial
  case h_22 | h_23 => exact (Errs.parsePush args).reads fun _ => trivial
  case h_24 | h_25 => exact (Errs.parsePop args).reads fun _ => trivial
  case h_26 =>
    split
    · rename_i key start stop
      cases hstart : parseI64 start with
      | error e => exact Errs.parseI64 start e hstart
      | ok a => cases hstop : parseI64 stop with
        | error e => exact Errs.parseI64 stop e hstop
        | ok b => trivial
    · rfl
  case h_29 =>
    split
    · split_ifs
      · rfl
      · trivial
    · rfl
  case h_39 => trivial
  case h_41 =>
    split
    · trivial
    · split
      · trivial
      · trivial
    · rfl

/-! ## Commands -/

/-- A write command answers what its transaction answers. -/
theorem write_fits {db : Db host} (h : db.Served) {now : ExpireAt} {c : Command}
    (hw : c.isWrite = true) : Fits (c.apply now db).1 := by
  have hr := c.apply_refines now db
  rw [isWrite_iff_transaction now, Option.isSome_iff_exists] at hw
  cases hw with
  | intro t ht =>
      rw [ht] at hr
      have hview : Keyspace.WellFormed (db.view now) := fun k entry he =>
        h.wellFormed k entry (Slot.alive_eq_some.mp he).1
      rw [hr.reply]
      exact transaction_fits ht hview

theorem apply_fits {db : Db host} (h : db.Served) (now : ExpireAt) {c : Command} {args : List Bytes}
    (hargs : ∀ a ∈ args, Answerable a) (hc : c.Known args) : Fits (c.apply now db).1 := by
  have hdb := h.wellFormed
  cases c with
  | ping msg =>
      cases msg with
      | none => exact (le_maxResponse (by decide) : Fits (.simple "PONG"))
      | some msg => exact Fits.bulk (hargs msg hc)
  | echo msg => exact Fits.bulk (hargs msg hc)
  | get k => exact Cmd.fits_get hdb k
  | mget keys => exact Cmd.fits_mget now db keys
  | lrange k start stop => exact Cmd.fits_lrange hdb k start stop
  | lindex k i => exact Cmd.fits_lindex hdb k i
  | hget k f => exact Cmd.fits_hget hdb k f
  | hkeys k => exact Cmd.fits_hkeys hdb k
  | hvals k => exact Cmd.fits_hvals hdb k
  | hgetall k => exact Cmd.fits_hgetall hdb k
  | strlen k => exact Cmd.fits_strlen hdb k
  | llen k => exact Cmd.fits_llen hdb k
  | hexists k f => exact Cmd.fits_hexists hdb k f
  | hlen k => exact Cmd.fits_hlen hdb k
  | ttl k | pttl k => exact Cmd.fits_ttl now db k _
  | existsKeys keys | publish ch msg => exact Fits.integer _
  | info section_ => exact fits_infoFrame now db section_
  | bgRewriteAof =>
      exact (le_maxResponse (by decide) : Fits (.error "ERR AOF is not enabled"))
  | subscribe channels | unsubscribe channels =>
      exact (le_maxResponse (by decide) :
        Fits (.error "ERR SUBSCRIBE/UNSUBSCRIBE must be handled by connection"))
  | unknown name => exact hc.elim
  | _ => exact write_fits h rfl

end Command

/-! ## Errors -/

theorem utf8Size_toLower (c : Char) : c.toLower.utf8Size = c.utf8Size := by
  unfold Char.toLower
  split
  · rename_i h
    have h₁ : 65 ≤ c.val.toNat := UInt32.le_iff_toNat_le.mp h.1
    have h₂ : c.val.toNat ≤ 90 := UInt32.le_iff_toNat_le.mp h.2
    have hd : ('a'.val - 'A'.val).toNat = 32 := by decide
    rw [utf8Size_ascii (c := c) (by omega), utf8Size_ascii]
    simp only [UInt32.toNat_add, hd]
    omega
  · rfl

theorem length_toAsciiLowercase (s : String) :
    (asBytes (toAsciiLowercase s)).length = (asBytes s).length := by
  rw [length_asBytes, length_asBytes, toAsciiLowercase, String.toList_ofList, List.map_map]
  congr 1
  exact List.map_congr_left fun c _ => utf8Size_toLower c

/-- Line ends are replaced by a character of the same length. -/
theorem length_replaceCrlf {by_ : Char} (h : by_.utf8Size = 1) (s : String) :
    (asBytes (replaceCrlf by_ s)).length = (asBytes s).length := by
  rw [length_asBytes, length_asBytes, replaceCrlf, String.toList_ofList, List.map_map]
  congr 1
  refine List.map_congr_left fun c _ => ?_
  rw [Function.comp_apply]
  split_ifs with hc
  · rcases hc with rfl | rfl <;> exact h
  · rfl

theorem length_wire_unknown (now : ExpireAt) (db : Db host) (name : String) :
    (wire ((Command.unknown name).apply now db).1).length = (asBytes name).length + 25 := by
  have hq : (asBytes (replaceCrlf '?' name)).length = (asBytes name).length :=
    length_replaceCrlf (by decide) name
  have hl : (asBytes (toString "ERR unknown command '")).length = 21 := by decide
  have hr : (asBytes (toString "'")).length = 1 := by decide
  simp only [Command.apply, Fits.length_wire_error, length_asBytes_append, hl, hr]
  change 21 + (asBytes (replaceCrlf '?' name)).length + 1 + 3 = _
  omega

namespace Command

/-- The errors of a name of at most twelve bytes are short. -/
theorem textLe_about {name : String} (hn : (asBytes name).length ≤ 12) {e : ParseError}
    (h : e.About name) : TextLe e.message 200 := by
  cases e with
  | arity n =>
      obtain rfl : n = name := h
      exact (((TextLe.self _).append hn).append (TextLe.self _)).mono (by decide)
  | invalidExpireTime n =>
      obtain rfl : n = toAsciiLowercase name := h
      have hl : TextLe (toAsciiLowercase name) 12 := (length_toAsciiLowercase name).trans_le hn
      exact (((TextLe.self _).append hl).append (TextLe.self _)).mono (by decide)
  | notInt | outOfRangePositive | syntaxError => exact (TextLe.self _).mono (by decide)
  | notArray | empty | notBulk | badName => exact h.elim

theorem textLe_notBulk {idx : ℕ} (h : idx < 10 ^ 20) :
    TextLe (ParseError.notBulk idx).message 200 :=
  (((TextLe.self _).append (TextLe.toString h)).append (TextLe.self _)).mono (by decide)

/-- The position in the error is one of the arguments. -/
theorem expectBulks_error {items : List Frame} {idx : ℕ} {e : ParseError}
    (h : expectBulks items idx = .error e) : ∃ i, e = .notBulk i ∧ i < idx + items.length := by
  induction items generalizing idx e with
  | nil => cases h
  | cons item items ih =>
      rw [List.length_cons]
      cases item with
      | bulk b =>
          cases hb : expectBulks items (idx + 1) with
          | ok bs =>
              simp only [expectBulks, expectBulk, hb, bind, Except.bind] at h
              cases h
          | error e' =>
              simp only [expectBulks, expectBulk, hb, bind, Except.bind] at h
              have hi := ih hb
              cases hi with
              | intro i hi => exact ⟨i, Except.error.inj h ▸ hi.1, by omega⟩
      | _ => exact ⟨idx, (Except.error.inj h).symm, by omega⟩

/-- No error repeats more of the request than the name of a known command. -/
theorem textLe_fromFrame {now : ExpireAt} {request : Frame} {e : ParseError}
    (hlen : ∀ items, request = .array items → items.length ≤ Parser.maxArrayLen)
    (h : fromFrame now request = .error e) : TextLe e.message 200 := by
  have hmax : Parser.maxArrayLen < 10 ^ 20 := by decide
  have hidx : ∀ {i}, i < Parser.maxArrayLen → TextLe (ParseError.notBulk i).message 200 :=
    fun hi => textLe_notBulk (hi.trans hmax)
  unfold fromFrame at h
  split at h
  · exact Except.error.inj h ▸ (TextLe.self _).mono (by decide)
  · rename_i nameFrame items
    have hcount := hlen _ rfl
    rw [List.length_cons] at hcount
    cases nameFrame with
    | bulk nameBytes =>
        simp only [expectBulk, bind, Except.bind] at h
        split at h
        · exact Except.error.inj h ▸ (TextLe.self _).mono (by decide)
        · rename_i s _
          cases hb : expectBulks items 1 with
          | error e' =>
              rw [hb] at h
              have hi := expectBulks_error hb
              cases hi with
              | intro i hi =>
                  rw [← Except.error.inj h, hi.1]
                  exact hidx (by omega)
          | ok args =>
              rw [hb] at h
              rcases fromArgs_spec now (toAsciiUppercase s) args with hu | ⟨hn, hr⟩
              · cases hu.symm.trans h
              · rw [show fromArgs now (toAsciiUppercase s) args = .error e from h] at hr
                exact textLe_about (length_of_mem_names _ hn) hr
    | _ => exact Except.error.inj h ▸ hidx (by omega)
  · exact Except.error.inj h ▸ (TextLe.self _).mono (by decide)

end Command

/-! ## The limit -/

namespace Server

theorem fits_commandParseErrorFrame {e : ParseError} (he : TextLe e.message 200) {frame : Frame}
    (h : commandParseErrorFrame e = some frame) : Fits frame := by
  have htext : ∀ s : String, TextLe s 300 → Fits (.error s) := fun s hs =>
    (Fits.error_iff s).mpr ((Nat.add_le_add_right hs 3).trans (le_maxResponse (by decide)))
  unfold commandParseErrorFrame at h
  split_ifs at h
  · have hs : TextLe (sanitizeErrorMessage e.message) 200 :=
      (length_replaceCrlf (by decide) e.message).trans_le he
    rw [← Option.some.inj h]
    exact htext _ (((TextLe.self _).append hs).mono (by decide))
  · rw [← Option.some.inj h]
    exact htext _ (((TextLe.self _).append he).mono (by decide))

/-- The request begins with a text so long that no command has it for a name and the error
that repeats it is beyond the limit. -/
def LongName (request : Frame) : Prop :=
  ∃ name args, request = commandFrame (name :: args) ∧ (fromUtf8 name).isSome = true ∧
    maxResponseFrameBytes < name.length + 25

/-- The frame has an encoded length within the limit, and `write_frame` sends it. -/
def Sendable (frame : Frame) : Prop :=
  (∃ len, encodedLen frame = some len ∧ len ≤ maxResponseFrameBytes) ∧
    Connection.writeFrame frame = .ok (encode frame [])

theorem sendable_iff (frame : Frame) : Sendable frame ↔ Fits frame := by
  constructor
  · rintro ⟨⟨len, hl, hle⟩, -⟩
    exact (encodedLen_eq_some.mp hl).1.trans_le hle
  · intro h
    have hl : encodedLen frame = some (wire frame).length :=
      encodedLen_eq_some.mpr ⟨rfl, h.trans_lt (by decide)⟩
    refine ⟨⟨_, hl, h⟩, ?_⟩
    rw [Connection.writeFrame, hl]
    exact if_neg (Nat.not_lt.mpr h)

theorem fromFrame_long {name : Bytes} {s : String} (hs : fromUtf8 name = some s)
    (hlen : 12 < name.length) (now : ExpireAt) (args : List Bytes) :
    Command.fromFrame now (commandFrame (name :: args)) = .ok (.unknown (toAsciiUppercase s)) := by
  have hname := asBytes_of_fromUtf8 hs
  have hlong : 12 < (asBytes (toAsciiUppercase s)).length := by
    rwa [length_toAsciiUppercase, hname]
  rw [← hname, Command.fromFrame_command]
  refine (Command.fromArgs_spec now (toAsciiUppercase s) args).resolve_right fun h => ?_
  exact absurd (Command.length_of_mem_names _ h.1) (Nat.not_le.mpr hlong)

/-- Every accepted request is answered with a frame that is sent, or with nothing at all if
it is empty, unless its name is as long as a whole reply. -/
theorem reply_sendable_iff {db : Db host} (h : db.Served) (readAt now : ExpireAt)
    {buf rest : Bytes} {request : Frame} (hp : Parser.parse buf = .ok (some request, rest)) :
    (∀ frame, reply readAt now db request = some frame → Sendable frame) ↔ ¬ LongName request := by
  obtain ⟨hparse, hlen⟩ := ParserBounds.parse_accepted hp
  constructor
  · rintro hall ⟨name, args, rfl, hname, hlong⟩
    obtain ⟨s, hs⟩ := Option.isSome_iff_exists.mp hname
    have hmax : (37 : ℕ) ≤ maxResponseFrameBytes := by decide
    have hfits := (sendable_iff _).mp (hall _ (by rw [reply, fromFrame_long hs (by omega)]))
    rw [Fits, length_wire_unknown, length_toAsciiUppercase, asBytes_of_fromUtf8 hs] at hfits
    omega
  · intro hshort frame hframe
    rw [sendable_iff]
    cases hf : Command.fromFrame readAt request with
    | error e =>
        rw [reply, hf] at hframe
        refine fits_commandParseErrorFrame (Command.textLe_fromFrame ?_ hf) hframe
        rintro items rfl
        exact hparse.1
    | ok c =>
        rw [reply, hf] at hframe
        rw [← Option.some.inj hframe]
        obtain ⟨name, s, args, rfl, hs, hargs⟩ := Command.fromFrame_eq_ok hf
        have hname : (asBytes (toAsciiUppercase s)).length = name.length := by
          rw [length_toAsciiUppercase, asBytes_of_fromUtf8 hs]
        rcases Command.fromArgs_spec readAt (toAsciiUppercase s) args with hu | ⟨-, hr⟩
        · obtain rfl := Except.ok.inj (hargs.symm.trans hu)
          rw [Fits, length_wire_unknown, hname, ← Nat.not_lt]
          exact fun hlong => hshort ⟨name, args, rfl, by rw [hs]; rfl, hlong⟩
        · rw [hargs] at hr
          rw [length_wire_args, argsLen_cons] at hlen
          have hfit : argsLen args ≤ maxBufferedFrameBytes := by omega
          exact Command.apply_fits h now (fun a => Command.answerable_of_mem hfit) hr

def getRequest : Frame := commandFrame [asBytes "GET", [107]]

/-- The reply to `GET` repeats what a client has stored. -/
theorem reply_sendable_iff_get :
    let db := ((Command.set [107] [118] none).apply 0 (Db.new : Db ⟨fun _ => 0, 1⟩)).2
    reply 0 0 db getRequest = some (.bulk [118]) ∧
      ((∀ frame, reply 0 0 db getRequest = some frame → Sendable frame) ↔
        ¬ LongName getRequest) := by
  have hparse : Parser.parse (encode (commandFrame [asBytes "SET", [107], [118]]) []) = _ :=
    Connection.parse_request (by decide) (by decide)
  have hset : (Command.set [107] [118] none).FromClient := ⟨_, _, _, 0, hparse, rfl⟩
  exact ⟨rfl, reply_sendable_iff (.apply .new 0 hset) 0 0
    (Connection.parse_request (by decide) (by decide))⟩

/-- A request of exactly the accepted length that `write_frame` leaves without an answer. -/
theorem fullRequest_unanswered :
    (Db.new : Db ⟨fun _ => 0, 1⟩).Served ∧
    Parser.parse (encode Connection.fullRequest []) = .ok (some Connection.fullRequest, []) ∧
    ∃ frame, reply 0 0 (Db.new : Db ⟨fun _ => 0, 1⟩) Connection.fullRequest = some frame ∧
      encodedLen frame = some 67108872 ∧
      Connection.writeFrame frame =
        .error s!"server response exceeds output limit of {maxResponseFrameBytes} bytes" := by
  have hp : Parser.parse (encode Connection.fullRequest []) =
    .ok (some Connection.fullRequest, []) :=
    Connection.parse_request (Nat.le_of_ble_eq_true rfl) Connection.length_fullRequest.le
  have hlen : (List.replicate 67108847 (97 : UInt8)).length = 67108847 := List.length_replicate
  obtain ⟨s, hs, -⟩ := fromUtf8_ascii (List.replicate 67108847 97) fun x hx =>
    List.eq_of_mem_replicate hx ▸ (by decide)
  have hread := fromFrame_long hs (by rw [hlen]; decide) 0 []
  have hwire : (wire ((Command.unknown (toAsciiUppercase s)).apply 0
      (Db.new : Db ⟨fun _ => 0, 1⟩)).1).length = 67108872 := by
    rw [length_wire_unknown, length_toAsciiUppercase, asBytes_of_fromUtf8 hs, hlen]
  have hencoded := encodedLen_eq_some.mpr ⟨hwire, hwire.trans_lt (by decide)⟩
  refine ⟨.new, hp, _, ?_, hencoded, ?_⟩
  · rw [reply, Connection.fullRequest, hread]
  · rw [Connection.writeFrame, hencoded]
    exact if_pos (by decide)

end Server
end MiniRedis
