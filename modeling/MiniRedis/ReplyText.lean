import MiniRedis.Replies
import MiniRedis.ReplyReader

/-!
# One frame for each answer

Texts of simple strings and errors end at the first CR LF, so a line end inside of one
would let a client read a second frame. No text that the server answers with has one:
what a request brings in is bulk, or replaced, or the name of a known command.
-/
namespace MiniRedis
open Numeral Wire PrefixCode ParserRoundTrip

variable {host : Host}

theorem OneLine.replaceCrlf {by_ : Char} (h : by_ ≠ '\r' ∧ by_ ≠ '\n') (s : String) :
    OneLine (MiniRedis.replaceCrlf by_ s) := by
  intro c hc
  rw [MiniRedis.replaceCrlf, String.toList_ofList] at hc
  have hmap := List.mem_map.mp hc
  cases hmap with
  | intro x hx =>
      rw [← hx.2]
      split_ifs with hline
      · exact h
      · exact not_or.mp hline

/-! ## Answers of the commands -/

namespace Cmd

@[simp] theorem unsplit_ok : Unsplit (.simple "OK") := .simple (by decide)
@[simp] theorem unsplit_wrongType : Unsplit wrongType := .error (by decide)
@[simp] theorem unsplit_overflow : Unsplit overflow := .error (by decide)
@[simp] theorem unsplit_notInt : Unsplit notInt := .error (by decide)
@[simp] theorem unsplit_hashNotInt : Unsplit hashNotInt := .error (by decide)
@[simp] theorem unsplit_responseTooLarge : Unsplit responseTooLarge := .error (by decide)

@[simp] theorem unsplit_bulkArrayFromIter (len : ℕ) (values : List Bytes) :
    Unsplit (bulkArrayFromIter len values) := by
  unfold bulkArrayFromIter
  split
  · exact .bulks values
  · exact unsplit_responseTooLarge

theorem unsplit_mgetFrame (now : ExpireAt) (db : Db host) (key : Bytes) :
    Unsplit (mgetFrame now db key) := by
  rcases mgetFrame_cases now db key with ⟨b, h⟩ | h
  · exact h ▸ .bulk b
  · exact h ▸ .null

theorem mgetLoop_unsplit {now : ExpireAt} {db : Db host} {keys : List Bytes} {total : ℕ}
    {frames : List Frame} (h : mgetLoop now db keys total = some frames) :
    ∀ frame ∈ frames, Unsplit frame := by
  induction keys generalizing total frames with
  | nil => exact Option.some.inj h ▸ nofun
  | cons key keys ih =>
      have hstep := checkedAdd_step (mgetLen_eq now db key) h
      obtain ⟨rest, hrest, rfl⟩ := Option.map_eq_some_iff.mp hstep.2
      exact List.forall_mem_cons.mpr ⟨unsplit_mgetFrame now db key, ih hrest⟩

theorem unsplit_mget (now : ExpireAt) (db : Db host) (keys : List Bytes) :
    Unsplit (mget now db keys) := by
  unfold mget
  split
  · rename_i frames hf
    obtain ⟨header, -, hf⟩ := Option.bind_eq_some_iff.mp hf
    exact (Unsplit.array_iff frames).mpr (mgetLoop_unsplit hf)
  · exact unsplit_responseTooLarge

theorem unsplit_ttl (now : ExpireAt) (db : Db host) (key : Bytes) (inMs : Bool) :
    Unsplit (ttl now db key inMs) := by
  unfold ttl
  repeat' split
  all_goals exact .integer _

theorem unsplit_readLive (now : ExpireAt) (db : Db host) (key : Bytes) {missing : Frame}
    (hm : Unsplit missing) {found : Value → Frame} (hf : ∀ v, Unsplit (found v)) :
    Unsplit (readLive now db key missing found) := by
  unfold readLive
  split
  · split_ifs
    · exact hm
    · exact hf _
  · exact hm

section
variable (now : ExpireAt) (db : Db host) (key : Bytes)

theorem unsplit_get : Unsplit (get now db key) :=
  unsplit_readLive now db key .null fun v => by cases v <;> simp

theorem unsplit_strlen : Unsplit (strlen now db key) :=
  unsplit_readLive now db key (.integer 0) fun v => by cases v <;> simp

theorem unsplit_llen : Unsplit (llen now db key) :=
  unsplit_readLive now db key (.integer 0) fun v => by cases v <;> simp

theorem unsplit_hlen : Unsplit (hlen now db key) :=
  unsplit_readLive now db key (.integer 0) fun v => by cases v <;> simp

theorem unsplit_hexists (field : Bytes) : Unsplit (hexists now db key field) :=
  unsplit_readLive now db key (.integer 0) fun v => by cases v <;> simp

theorem unsplit_hkeys : Unsplit (hkeys now db key) :=
  unsplit_readLive now db key .emptyArray fun v => by cases v <;> simp

theorem unsplit_hvals : Unsplit (hvals now db key) :=
  unsplit_readLive now db key .emptyArray fun v => by cases v <;> simp

theorem unsplit_hgetall : Unsplit (hgetall now db key) :=
  unsplit_readLive now db key .emptyArray fun v => by
    cases v with
    | hash m =>
        dsimp only
        split <;> simp
    | string b | list l => exact unsplit_wrongType

theorem unsplit_hget (field : Bytes) : Unsplit (hget now db key field) :=
  unsplit_readLive now db key .null fun v => by
    cases v with
    | hash m =>
        dsimp only
        split <;> simp
    | string b | list l => exact unsplit_wrongType

theorem unsplit_lindex (idx : Int64) : Unsplit (lindex now db key idx) :=
  unsplit_readLive now db key .null fun v => by
    cases v with
    | list l =>
        dsimp only
        split <;> simp
    | string b | hash m => exact unsplit_wrongType

theorem unsplit_lrange (start stop : Int64) : Unsplit (lrange now db key start stop) :=
  unsplit_readLive now db key .emptyArray fun v => by
    cases v with
    | list l =>
        dsimp only
        split_ifs <;> simp
    | string b | hash m => exact unsplit_wrongType

end

theorem unsplit_incrValue (delta : Int64) (v : Value) : Unsplit (incrValue delta v).1 := by
  unfold incrValue
  repeat' split
  all_goals simp

theorem unsplit_appendValue (suffix : Bytes) (v : Value) : Unsplit (appendValue suffix v).1 := by
  unfold appendValue
  repeat' split
  all_goals simp

theorem unsplit_pushValue (values : List Bytes) (side : PushSide) (v : Value) :
    Unsplit (pushValue values side v).1 := by
  cases v <;> simp [pushValue]

theorem unsplit_popReply (count : Option ℕ) (popped : List Bytes) :
    Unsplit (popReply count popped) := by
  unfold popReply
  split <;> simp

theorem unsplit_popValue (count : Option ℕ) (side : PopSide) (v : Value) :
    Unsplit (popValue count side v).1 := by
  cases v with
  | list l =>
      simp only [popValue]
      split
      · cases count <;> simp
      · split
        · exact unsplit_responseTooLarge
        · exact unsplit_popReply _ _
  | string b | hash m => exact unsplit_wrongType

theorem unsplit_hsetValue (pairs : List (Bytes × Bytes)) (v : Value) :
    Unsplit (hsetValue pairs v).1 := by
  cases v <;> simp [hsetValue]

theorem unsplit_hdelValue (fields : List Bytes) (v : Value) : Unsplit (hdelValue fields v).1 := by
  cases v <;> simp [hdelValue]

theorem unsplit_hincrbyValue (field : Bytes) (delta : Int64) (v : Value) :
    Unsplit (hincrbyValue field delta v).1 := by
  cases v with
  | hash m =>
      simp only [hincrbyValue]
      split
      · exact unsplit_hashNotInt
      · split
        · exact unsplit_overflow
        · exact .integer _
  | string b | list l => exact unsplit_wrongType

end Cmd

theorem Slot.unsplit_takeFrom {missing : Frame} (hm : Unsplit missing)
    {body : Value → Frame × Option Value} (hb : ∀ v, Unsplit (body v).1) (slot : Slot) :
    Unsplit (Slot.takeFrom missing body slot).1 := by
  cases slot with
  | none => exact hm
  | some entry => exact hb entry.value

namespace Command
open Cmd

theorem unsplit_popMissing (count : Option ℕ) : Unsplit (popMissing count) := by
  cases count with
  | none => exact .null
  | some n => exact .nullArray

theorem transaction_unsplit {now : ExpireAt} {c : Command} {t : Transaction}
    (ht : c.transaction now = some t) (ks : Keyspace) : Unsplit (t.run ks).1 := by
  cases c with
  | set key value e =>
      obtain rfl := Option.some.inj ht
      split_ifs
      · exact unsplit_ok
      · exact unsplit_responseTooLarge
  | mset pairs =>
      obtain rfl := Option.some.inj ht
      split_ifs
      · exact unsplit_responseTooLarge
      · exact unsplit_ok
  | decrBy k n =>
      obtain rfl := Option.some.inj ht
      cases checkedNegI64 n with
      | some neg => exact unsplit_incrValue neg _
      | none => exact unsplit_overflow
  | del keys =>
      obtain rfl := Option.some.inj ht
      exact .integer _
  | incr k | decr k | incrBy k n =>
      obtain rfl := Option.some.inj ht
      exact unsplit_incrValue _ _
  | append k v =>
      obtain rfl := Option.some.inj ht
      exact unsplit_appendValue v _
  | expire k d | pexpire k d | pexpireAt k d =>
      obtain rfl := Option.some.inj ht
      change Unsplit (Slot.expire now d (ks k)).1
      cases ks k <;> exact .integer _
  | persist k =>
      obtain rfl := Option.some.inj ht
      change Unsplit (Slot.persist (ks k)).1
      unfold Slot.persist
      split <;> exact .integer _
  | lpush k vs | rpush k vs =>
      obtain rfl := Option.some.inj ht
      exact unsplit_pushValue vs _ _
  | lpop k count | rpop k count =>
      obtain rfl := Option.some.inj ht
      exact Slot.unsplit_takeFrom (unsplit_popMissing count) (unsplit_popValue count _) (ks k)
  | hset k pairs =>
      obtain rfl := Option.some.inj ht
      exact unsplit_hsetValue pairs _
  | hdel k fs =>
      obtain rfl := Option.some.inj ht
      exact Slot.unsplit_takeFrom (.integer 0) (unsplit_hdelValue fs) (ks k)
  | hincrby k f n =>
      obtain rfl := Option.some.inj ht
      exact unsplit_hincrbyValue f n _
  | _ => cases ht

theorem write_unsplit {now : ExpireAt} {db : Db host} {c : Command} (hw : c.isWrite = true) :
    Unsplit (c.apply now db).1 := by
  have hr := c.apply_refines now db
  rw [isWrite_iff_transaction now, Option.isSome_iff_exists] at hw
  cases hw with
  | intro t ht =>
      rw [ht] at hr
      rw [hr.reply]
      exact transaction_unsplit ht _

/-- Whatever a command holds and whatever is stored, the answer has no line end in a text. -/
theorem apply_unsplit (now : ExpireAt) (db : Db host) (c : Command) :
    Unsplit (c.apply now db).1 := by
  cases c with
  | ping msg =>
      cases msg with
      | none => exact .simple (by decide)
      | some msg => exact .bulk msg
  | echo msg => exact .bulk msg
  | get k => exact unsplit_get now db k
  | mget keys => exact unsplit_mget now db keys
  | lrange k start stop => exact unsplit_lrange now db k start stop
  | lindex k i => exact unsplit_lindex now db k i
  | hget k f => exact unsplit_hget now db k f
  | hkeys k => exact unsplit_hkeys now db k
  | hvals k => exact unsplit_hvals now db k
  | hgetall k => exact unsplit_hgetall now db k
  | strlen k => exact unsplit_strlen now db k
  | llen k => exact unsplit_llen now db k
  | hexists k f => exact unsplit_hexists now db k f
  | hlen k => exact unsplit_hlen now db k
  | ttl k | pttl k => exact unsplit_ttl now db k _
  | existsKeys keys | publish ch msg => exact .integer _
  | info section_ => exact .bulk _
  | bgRewriteAof => exact .error (by decide)
  | subscribe channels | unsubscribe channels => exact .error (by decide)
  | unknown name =>
      have hname : OneLine (replaceCrlf '?' name) := .replaceCrlf (by decide) name
      exact .error (.append (.append (s := "ERR unknown command '") (by decide) hname) (by decide))
  | _ => exact write_unsplit rfl

/-! ## Errors -/

theorem oneLine_names : ∀ name ∈ names, OneLine name ∧ OneLine (toAsciiLowercase name) := by
  decide

theorem oneLine_about {name : String} (hn : name ∈ names) {e : ParseError} (h : e.About name) :
    OneLine e.message := by
  have hname := oneLine_names name hn
  cases e with
  | arity n =>
      obtain rfl : n = name := h
      exact .append (.append (by decide) hname.1) (by decide)
  | invalidExpireTime n =>
      obtain rfl : n = toAsciiLowercase name := h
      exact .append (.append (by decide) hname.2) (by decide)
  | notInt | outOfRangePositive | syntaxError => decide
  | notArray | empty | notBulk | badName => exact h.elim

/-- The errors that are sent as they are repeat nothing of the request but a known name. -/
theorem oneLine_fromFrame {now : ExpireAt} {request : Frame} {e : ParseError}
    (h : fromFrame now request = .error e) (hp : e.isProtocolError = false) :
    OneLine e.message := by
  unfold fromFrame at h
  split at h
  · exact Except.error.inj h ▸ (by decide)
  · rename_i nameFrame items
    cases nameFrame with
    | bulk nameBytes =>
        simp only [expectBulk, bind, Except.bind] at h
        split at h
        · exact Except.error.inj h ▸ (by decide)
        · rename_i s _
          cases hb : expectBulks items 1 with
          | error e' =>
              rw [hb] at h
              obtain ⟨i, rfl, -⟩ := expectBulks_error hb
              rw [← Except.error.inj h] at hp
              cases hp
          | ok args =>
              rw [hb] at h
              cases fromArgs_spec now (toAsciiUppercase s) args with
              | inl hu => cases hu.symm.trans h
              | inr hn =>
                  have hr := hn.2
                  rw [show fromArgs now (toAsciiUppercase s) args = .error e from h] at hr
                  exact oneLine_about hn.1 hr
    | _ =>
        rw [← Except.error.inj h] at hp
        cases hp
  · exact Except.error.inj h ▸ (by decide)

end Command

namespace Server

theorem unsplit_protocolErrorFrame (message : String) : Unsplit (protocolErrorFrame message) :=
  .error (.append (by decide) (.replaceCrlf (by decide) message))

theorem unsplit_commandParseErrorFrame {now : ExpireAt} {request : Frame} {e : ParseError}
    (h : Command.fromFrame now request = .error e) {frame : Frame}
    (hframe : commandParseErrorFrame e = some frame) : Unsplit frame := by
  unfold commandParseErrorFrame at hframe
  split_ifs at hframe with hempty hprotocol
  · exact Option.some.inj hframe ▸ unsplit_protocolErrorFrame _
  · rw [← Option.some.inj hframe]
    exact .error (.append (by decide)
      (Command.oneLine_fromFrame h (Bool.eq_false_iff.mpr hprotocol)))

/-- The file's error is the only text in the answer that the server does not make itself. -/
theorem execute_unsplit {now : ExpireAt} {append : Frame → Except String Unit}
    (happend : ∀ frame e, append frame = .error e → OneLine e) (db : Db host) (cmd : Command) :
    Unsplit (execute now append db cmd).reply := by
  have hreply := cmd.apply_unsplit now db
  unfold execute
  dsimp only
  split
  · exact hreply
  · split
    · exact hreply
    · split
      · exact hreply
      · rename_i e he
        exact .error (.append (by decide) (happend _ e he))

/-- What the server answers to the bytes it has read: a parser error, an error of reading
the command, or the answer of a command. The errors of the file come from a given set. -/
inductive Answers (fileErrors : Set String) (db : Db host) (buf : Bytes) : Frame → Prop where
  | unparsed {message : String} (hparse : Parser.parse buf = .error (.protocol message)) :
      Answers fileErrors db buf (protocolErrorFrame message)
  | refused {request frame : Frame} {rest : Bytes} {now : ExpireAt} {err : ParseError}
      (hparse : Parser.parse buf = .ok (some request, rest))
      (hread : Command.fromFrame now request = .error err)
      (hframe : commandParseErrorFrame err = some frame) : Answers fileErrors db buf frame
  | executed {request : Frame} {rest : Bytes} {readAt now : ExpireAt} {cmd : Command}
      {append : Frame → Except String Unit}
      (hparse : Parser.parse buf = .ok (some request, rest))
      (hread : Command.fromFrame readAt request = .ok cmd)
      (happend : ∀ logged e, append logged = .error e → e ∈ fileErrors) :
      Answers fileErrors db buf (execute now append db cmd).reply

theorem Answers.unsplit {fileErrors : Set String} (hfile : ∀ e ∈ fileErrors, OneLine e)
    {db : Db host} {buf : Bytes} {frame : Frame} (h : Answers fileErrors db buf frame) :
    Unsplit frame := by
  cases h with
  | unparsed hparse => exact unsplit_protocolErrorFrame _
  | refused hparse hread hframe => exact unsplit_commandParseErrorFrame hread hframe
  | executed hparse hread happend =>
      exact execute_unsplit (fun logged e he => hfile e (happend logged e he)) db _

/-- Whatever the requests and the stored values are, no text of an answer has a line end,
and a client that has received the answers reads exactly one frame for each. -/
theorem answers_not_split {fileErrors : Set String} (hfile : ∀ e ∈ fileErrors, OneLine e)
    {frames : List Frame}
    (h : ∀ frame ∈ frames, ∃ (db : Db host) (buf : Bytes), Answers fileErrors db buf frame) :
    (∀ frame ∈ frames, Unsplit frame) ∧
      ∀ rest, Client.replies frames.length (frames.flatMap (encode · []) ++ rest) =
        .ok (frames, rest) := by
  have hunsplit : ∀ frame ∈ frames, Unsplit frame := fun frame hf => by
    obtain ⟨db, buf, hanswer⟩ := h frame hf
    exact hanswer.unsplit hfile
  refine ⟨hunsplit, fun rest => ?_⟩
  have hwire : (encode · []) = wire := by
    funext frame
    exact encode_eq_append frame []
  rw [hwire]
  exact Client.replies_eq hunsplit rest

/-- A client reads the answer to a request whose name has a line end in it as one frame. -/
theorem answers_not_split_unknown :
    Client.replies 1 (encode (.error "ERR unknown command 'A??B'") [] ++ [43, 79, 75]) =
      .ok ([.error "ERR unknown command 'A??B'"], [43, 79, 75]) := by
  let db : Db ⟨fun _ => 0, 1⟩ := Db.new
  let request := commandFrame [asBytes "a\r\nb"]
  let cmd := Command.unknown (toAsciiUppercase "a\r\nb")
  have hparse : Parser.parse (encode request []) = .ok (some request, []) :=
    Connection.parse_request (by decide) (by decide)
  have hread : Command.fromFrame 0 request = .ok cmd := Command.fromFrame_command 0 "a\r\nb" []
  have hanswer : Answers ∅ db (encode request []) (execute 0 (fun _ => .ok ()) db cmd).reply :=
    .executed hparse hread nofun
  have hnone : ∀ e ∈ (∅ : Set String), OneLine e := fun _ he => he.elim
  have hall : ∀ frame ∈ [(execute 0 (fun _ => .ok ()) db cmd).reply],
      ∃ (db : Db ⟨fun _ => 0, 1⟩) (buf : Bytes), Answers ∅ db buf frame := fun frame hf =>
    List.mem_singleton.mp hf ▸ ⟨db, encode request [], hanswer⟩
  exact (answers_not_split hnone hall).2 [43, 79, 75]

end Server
end MiniRedis
