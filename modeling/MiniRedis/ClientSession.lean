import MiniRedis.LazyExpiry
import MiniRedis.ReplyText

/-!
# The loop of one client

`handle` from the bytes that come in to the bytes that go out, up to `SUBSCRIBE`. Between two
requests of the client the other connections and the sweeper do what they want. Whatever the
client sends, it can read what it gets: whole frames one behind the other. If its requests are
well formed, it gets their replies in order, however the socket cuts what it has sent.
-/
namespace MiniRedis.Session
open Wire ParserRoundTrip Connection Server

variable {host : Host}

/-- How `handle` leaves its loop. -/
inductive Ending where
  /-- The stream has ended between two requests. -/
  | closed
  /-- `handle` returns an error, and the connection is dropped. -/
  | failed
  /-- `run_subscribed` takes over. -/
  | subscribed (channels : List Bytes)
  /-- The last request that is looked at has not been answered yet. -/
  | waiting

/-- What a request finds when its turn has come. -/
structure Surroundings where
  /-- What the other connections and the sweeper have done since the last request. -/
  others : List Event := []
  /-- The clock in `from_frame`, and in the command. -/
  readAt : ExpireAt
  now : ExpireAt
  /-- How the writer of the append-only file ends; without a file it has nothing to do. -/
  append : Frame → Except String Unit := fun _ => .ok ()
  aof : Option AofStats := none
  state : ServerState

def ackUnsubscribe (channel : Option Bytes) (count : ℕ) : Frame :=
  .array [bulk "unsubscribe", (channel.map Frame.bulk).getD .null, .integer (Int64.ofNat count)]

/-- The branch for `BGREWRITEAOF`; `schedule_rewrite` fails while a rewrite is in progress. -/
def bgRewriteAofReply (aof : Option AofStats) : Frame :=
  match aof with
  | some stats =>
      if stats.rewriteInProgress then
        .error "ERR Background append only file rewriting already in progress"
      else .simple "Background append only file rewriting started"
  | none => .error "ERR AOF is not enabled"

/-- What a request is answered with, and where the loop goes on if it does not go on here. -/
structure Answer (host : Host) where
  frames : List Frame
  db : Db host
  ending : Option Ending := none

/-- The `match` on `Command::from_frame`. -/
def answer (s : Surroundings) (db : Db host) (request : Frame) : Answer host :=
  match Command.fromFrame s.readAt request with
  | .ok (.subscribe channels) => ⟨[], db, some (.subscribed channels)⟩
  | .ok (.unsubscribe (some channels)) =>
      { frames := channels.map fun channel => ackUnsubscribe (some channel) 0, db := db }
  | .ok (.unsubscribe none) => { frames := [ackUnsubscribe none 0], db := db }
  | .ok (.info section_) =>
      { frames := [infoFrame s.now db s.aof (some s.state) section_], db := db }
  | .ok .bgRewriteAof => { frames := [bgRewriteAofReply s.aof], db := db }
  | .ok cmd =>
      let o := execute s.now s.append db cmd
      { frames := [o.reply], db := o.db }
  | .error err => ⟨(commandParseErrorFrame err).toList, db,
      if err.isProtocolError then some .failed else none⟩

/-- Calls of `write_frame`, up to one that refuses its frame: the bytes, and whether it was all. -/
def writeFrames : List Frame → Bytes × Bool
  | [] => ([], true)
  | frame :: frames =>
      match writeFrame frame with
      | .error _ => ([], false)
      | .ok bytes => (bytes ++ (writeFrames frames).1, (writeFrames frames).2)

structure Outcome (host : Host) where
  bytes : Bytes
  db : Db host
  ending : Ending

def handle (surroundings : List Surroundings) (incoming : List Bytes) (buf : Bytes) (db : Db host) :
    Outcome host :=
  let r := readFrame incoming buf
  match r.1 with
  | .ok none => ⟨[], db, .closed⟩
  | .error (.protocol msg) => ⟨(writeFrames [protocolErrorFrame msg]).1, db, .failed⟩
  | .error .closedMidFrame => ⟨[], db, .failed⟩
  | .ok (some request) =>
      match surroundings with
      | [] => ⟨[], db, .waiting⟩
      | s :: rest =>
          let a := answer s (db.run s.others).2 request
          let w := writeFrames a.frames
          match if w.2 then a.ending else some .failed with
          | some ending => ⟨w.1, a.db, ending⟩
          | none =>
              let later := handle rest r.2.2 r.2.1 a.db
              { later with bytes := w.1 ++ later.bytes }

/-! ## What is written -/

theorem writeFrame_of_fits {frame : Frame} (h : Fits frame) :
    writeFrame frame = .ok (wire frame) := by
  rw [((sendable_iff frame).mpr h).2, encode_eq_append, List.nil_append]

theorem writeFrames_of_fits {frames : List Frame} (h : ∀ frame ∈ frames, Fits frame) :
    writeFrames frames = (frames.flatMap wire, true) := by
  induction frames with
  | nil => rfl
  | cons frame frames ih =>
      obtain ⟨hf, hfs⟩ := List.forall_mem_cons.mp h
      rw [writeFrames, writeFrame_of_fits hf]
      dsimp only
      rw [ih hfs]
      rfl

theorem writeFrame_cases (frame : Frame) :
    writeFrame frame = .ok (wire frame) ∨ ∃ e, writeFrame frame = .error e := by
  unfold writeFrame
  cases encodedLen frame with
  | none => exact .inr ⟨_, rfl⟩
  | some len =>
      dsimp only
      split_ifs
      · exact .inr ⟨_, rfl⟩
      · exact .inl (by rw [encode_eq_append, List.nil_append])

/-- What goes out is made of the first frames, each of them whole. -/
theorem writeFrames_prefix (frames : List Frame) :
    ∃ sent, sent <+: frames ∧ (writeFrames frames).1 = sent.flatMap wire := by
  induction frames with
  | nil => exact ⟨[], List.prefix_refl _, rfl⟩
  | cons frame frames ih =>
      rw [writeFrames]
      rcases writeFrame_cases frame with hok | ⟨e, he⟩
      · obtain ⟨sent, hsent, hbytes⟩ := ih
        rw [hok]
        exact ⟨frame :: sent, (List.prefix_cons_inj frame).mpr hsent,
          congrArg (wire frame ++ ·) hbytes⟩
      · rw [he]
        exact ⟨[], List.nil_prefix, rfl⟩

/-- What the surroundings of a request may be: the commands of clients, and errors of the file
that are one line. -/
structure Surroundings.Plain (s : Surroundings) : Prop where
  others : ∀ now c, .command now c ∈ s.others → c.FromClient
  errors : ∀ frame e, s.append frame = .error e → OneLine e

theorem served_run {events : List Event} {db : Db host} (h : db.Served)
    (hc : ∀ now c, .command now c ∈ events → c.FromClient) : (db.run events).2.Served := by
  induction events generalizing db with
  | nil => exact h
  | cons e events ih =>
      have hrest : ∀ now c, .command now c ∈ events → c.FromClient := fun now c hm =>
        hc now c (List.mem_cons_of_mem _ hm)
      cases e with
      | command now c => exact ih (h.apply now (hc now c List.mem_cons_self)) hrest
      | sweep now => exact ih (h.sweep now) hrest

theorem served_execute {now : ExpireAt} {append : Frame → Except String Unit} {db : Db host}
    (h : db.Served) {cmd : Command} (hc : cmd.FromClient) :
    (execute now append db cmd).db.Served := by
  unfold execute
  dsimp only
  split
  · exact h.apply now hc
  · split
    · exact h.apply now hc
    · split
      · exact h.apply now hc
      · exact .rollback h (h.apply now hc) _

theorem unsplit_ackUnsubscribe (channel : Option Bytes) (count : ℕ) :
    Unsplit (ackUnsubscribe channel count) := by
  refine (Unsplit.array_iff _).mpr fun item hi => ?_
  simp only [List.mem_cons, List.not_mem_nil, or_false] at hi
  rcases hi with rfl | rfl | rfl
  · exact Unsplit.bulk _
  · cases channel with
    | none => exact Unsplit.null
    | some channel => exact Unsplit.bulk channel
  · exact Unsplit.integer _

theorem unsplit_bgRewriteAofReply (aof : Option AofStats) : Unsplit (bgRewriteAofReply aof) := by
  cases aof with
  | none => exact .error (by decide)
  | some stats =>
      unfold bgRewriteAofReply
      dsimp only
      split_ifs
      · exact .error (by decide)
      · exact .simple (by decide)

/-- An answer is the reply of a command that runs, or a text or report about the server. -/
inductive Answered (s : Surroundings) (db : Db host) (request : Frame) : Answer host → Prop where
  | subscribe (channels : List Bytes) :
      Answered s db request ⟨[], db, some (.subscribed channels)⟩
  | unsubscribe {channels : List Bytes}
      (h : Command.fromFrame s.readAt request = .ok (.unsubscribe (some channels))) :
      Answered s db request ⟨channels.map fun channel => ackUnsubscribe (some channel) 0, db, none⟩
  | unsubscribeAll : Answered s db request ⟨[ackUnsubscribe none 0], db, none⟩
  | info (section_ : Option String) :
      Answered s db request ⟨[infoFrame s.now db s.aof (some s.state) section_], db, none⟩
  | bgRewriteAof : Answered s db request ⟨[bgRewriteAofReply s.aof], db, none⟩
  | command {cmd : Command} (h : Command.fromFrame s.readAt request = .ok cmd) :
      Answered s db request
        ⟨[(execute s.now s.append db cmd).reply], (execute s.now s.append db cmd).db, none⟩
  | refused {err : ParseError} (h : Command.fromFrame s.readAt request = .error err) :
      Answered s db request ⟨(commandParseErrorFrame err).toList, db,
        if err.isProtocolError then some .failed else none⟩

theorem answered (s : Surroundings) (db : Db host) (request : Frame) :
    Answered s db request (answer s db request) := by
  unfold answer
  split
  · exact .subscribe _
  · next h => exact .unsubscribe h
  · exact .unsubscribeAll
  · exact .info _
  · exact .bgRewriteAof
  · next h => exact .command h
  · next h => exact .refused h

theorem Answered.unsplit {s : Surroundings} {db : Db host} {request : Frame} {a : Answer host}
    (h : Answered s db request a) (hs : s.Plain) : ∀ frame ∈ a.frames, Unsplit frame := by
  intro frame hf
  cases h with
  | subscribe channels => cases hf
  | unsubscribe h =>
      obtain ⟨channel, -, rfl⟩ := List.mem_map.mp hf
      exact unsplit_ackUnsubscribe _ 0
  | unsubscribeAll => exact List.mem_singleton.mp hf ▸ unsplit_ackUnsubscribe none 0
  | info section_ => exact List.mem_singleton.mp hf ▸ Unsplit.bulk _
  | bgRewriteAof => exact List.mem_singleton.mp hf ▸ unsplit_bgRewriteAofReply s.aof
  | command h => exact List.mem_singleton.mp hf ▸ execute_unsplit hs.errors db _
  | refused h => exact unsplit_commandParseErrorFrame h (Option.mem_toList.mp hf)

theorem Answered.served {s : Surroundings} {db : Db host} {request : Frame} {a : Answer host}
    (h : Answered s db request a) (hv : db.Served) {buf rest : Bytes}
    (hp : Parser.parse buf = .ok (some request, rest)) : a.db.Served := by
  cases h with
  | command h => exact served_execute hv ⟨buf, rest, request, s.readAt, hp, h⟩
  | subscribe | unsubscribe | unsubscribeAll | info | bgRewriteAof | refused => exact hv

theorem parse_of_parseBuffered {buf rest : Bytes} {request : Frame}
    (h : parseBuffered buf = .ok (some request, rest)) :
    Parser.parse buf = .ok (some request, rest) := by
  unfold parseBuffered checkBufferedFrameLimit at h
  split_ifs at h
  · cases h
  · cases hp : Parser.parse buf with
    | ok r =>
        rw [hp] at h
        exact congrArg Except.ok (Except.ok.inj h)
    | error e =>
        rw [hp] at h
        cases e with
        | incomplete => cases h
        | protocol msg => cases h

/-- A frame that is read has come out of the parser. -/
theorem parsed_of_readFrame {incoming : List Bytes} {buf : Bytes} {request : Frame}
    (h : (readFrame incoming buf).1 = .ok (some request)) :
    ∃ buf' rest, Parser.parse buf' = .ok (some request, rest) := by
  induction incoming generalizing buf with
  | nil =>
      unfold readFrame at h
      cases hp : parseBuffered buf with
      | error e =>
          rw [hp] at h
          cases h
      | ok r =>
          obtain ⟨_ | frame, rest⟩ := r
          · rw [hp] at h
            dsimp only at h
            unfold endOfStream at h
            cases hc : checkBufferedFrameLimit rest with
            | error e =>
                rw [hc] at h
                cases h
            | ok u =>
                rw [hc] at h
                change (if rest.isEmpty then .ok none else .error .closedMidFrame :
                  Except ReadError (Option Frame)) = _ at h
                split_ifs at h
                cases h
          · rw [hp] at h
            obtain rfl := Option.some.inj (Except.ok.inj h)
            exact ⟨buf, rest, parse_of_parseBuffered hp⟩
  | cons piece incoming ih =>
      unfold readFrame at h
      cases hp : parseBuffered buf with
      | error e =>
          rw [hp] at h
          cases h
      | ok r =>
          obtain ⟨_ | frame, rest⟩ := r
          · rw [hp] at h
            dsimp only at h
            cases hc : checkBufferedFrameLimit (rest ++ piece) with
            | error e =>
                rw [hc] at h
                cases h
            | ok u =>
                rw [hc] at h
                exact ih h
          · rw [hp] at h
            obtain rfl := Option.some.inj (Except.ok.inj h)
            exact ⟨buf, rest, parse_of_parseBuffered hp⟩

/-- The bytes are whole frames that a client can tell apart. -/
def Framed (bytes : Bytes) : Prop :=
  ∃ frames : List Frame, bytes = frames.flatMap wire ∧ ∀ frame ∈ frames, Unsplit frame

theorem Framed.append {bytes bytes' : Bytes} (h : Framed bytes) (h' : Framed bytes') :
    Framed (bytes ++ bytes') := by
  obtain ⟨frames, rfl, hframes⟩ := h
  obtain ⟨frames', rfl, hframes'⟩ := h'
  refine ⟨frames ++ frames', List.flatMap_append.symm, fun frame hf => ?_⟩
  rcases List.mem_append.mp hf with hf | hf
  · exact hframes frame hf
  · exact hframes' frame hf

theorem framed_nil : Framed [] := ⟨[], rfl, fun _ h => by cases h⟩

theorem framed_writeFrames {frames : List Frame} (h : ∀ frame ∈ frames, Unsplit frame) :
    Framed (writeFrames frames).1 := by
  obtain ⟨sent, hsent, hbytes⟩ := writeFrames_prefix frames
  exact ⟨sent, hbytes, fun frame hf => h frame (hsent.subset hf)⟩

theorem handle_framed {surroundings : List Surroundings} (hs : ∀ s ∈ surroundings, s.Plain)
    (incoming : List Bytes) (buf : Bytes) {db : Db host} (hv : db.Served) :
    Framed (handle surroundings incoming buf db).bytes ∧
      (handle surroundings incoming buf db).db.Served := by
  induction surroundings generalizing incoming buf db with
  | nil =>
      unfold handle
      dsimp only
      split
      · exact ⟨framed_nil, hv⟩
      · refine ⟨framed_writeFrames fun frame hf => ?_, hv⟩
        exact List.mem_singleton.mp hf ▸ unsplit_protocolErrorFrame _
      · exact ⟨framed_nil, hv⟩
      · exact ⟨framed_nil, hv⟩
  | cons s rest ih =>
      obtain ⟨hplain, hrest⟩ := List.forall_mem_cons.mp hs
      unfold handle
      dsimp only
      split
      · exact ⟨framed_nil, hv⟩
      · refine ⟨framed_writeFrames fun frame hf => ?_, hv⟩
        exact List.mem_singleton.mp hf ▸ unsplit_protocolErrorFrame _
      · exact ⟨framed_nil, hv⟩
      · next request hread =>
          obtain ⟨buf', rest', hp⟩ := parsed_of_readFrame hread
          have ha := answered s (db.run s.others).2 request
          have hframed := framed_writeFrames (ha.unsplit hplain)
          have hserved := ha.served (served_run hv hplain.others) hp
          split
          · exact ⟨hframed, hserved⟩
          · have hlater := ih hrest (readFrame incoming buf).2.2 (readFrame incoming buf).2.1
              hserved
            exact ⟨hframed.append hlater.1, hlater.2⟩

/-- Whatever bytes a client sends and whatever the others do, it gets whole replies, which it
reads back one by one with nothing in between or behind them. -/
theorem output_readable {surroundings : List Surroundings} (hs : ∀ s ∈ surroundings, s.Plain)
    (incoming : List Bytes) {db : Db host} (hv : db.Served) :
    ∃ frames : List Frame,
      (handle surroundings incoming [] db).bytes = frames.flatMap wire ∧
      Client.replies frames.length (handle surroundings incoming [] db).bytes = .ok (frames, []) ∧
      (handle surroundings incoming [] db).db.Served := by
  obtain ⟨⟨frames, hbytes, hunsplit⟩, hserved⟩ := handle_framed hs incoming [] hv
  refine ⟨frames, hbytes, ?_, hserved⟩
  have hread := Client.replies_eq hunsplit []
  rwa [List.append_nil, ← hbytes] at hread

def quiet : Surroundings := { readAt := 0, now := 0, state := ⟨1, 1, 0⟩ }

theorem plain_quiet : quiet.Plain where
  others _ _ h := by cases h
  errors _ _ h := by cases h

/-- `PING` and a bulk string with a negative length, in two pieces. -/
def malformed : List Bytes := [[80, 73], [78, 71, 13, 10, 36, 45, 50, 13, 10]]

theorem output_readable_malformed : ∃ frames : List Frame,
    (handle [quiet] malformed [] (Db.new : Db ⟨fun _ => 3, 1⟩)).bytes = frames.flatMap wire ∧
    Client.replies frames.length (handle [quiet] malformed [] (Db.new : Db ⟨fun _ => 3, 1⟩)).bytes =
      .ok (frames, []) ∧
    (handle [quiet] malformed [] (Db.new : Db ⟨fun _ => 3, 1⟩)).db.Served :=
  output_readable (List.forall_mem_cons.mpr ⟨plain_quiet, List.forall_mem_nil _⟩) malformed .new

/-! ## Well-formed requests -/

/-- Texts and counters of a size that they have on a machine. -/
structure Surroundings.Bounded (s : Surroundings) : Prop where
  errors : ∀ frame e, s.append frame = .error e → TextLe e (2 ^ 20)
  state : s.state.connectedClients < 2 ^ 64 ∧ s.state.totalConnections < 2 ^ 64
  counters : ∀ stats ∈ s.aof, stats.currentSize < 2 ^ 64 ∧ stats.rewriteCount < 2 ^ 64 ∧
    stats.lastRewriteFinishedMs < 2 ^ 64
  texts : ∀ stats ∈ s.aof, TextLe stats.path (2 ^ 20) ∧ TextLe stats.lastRewriteStatus (2 ^ 20) ∧
    ∀ e ∈ stats.lastError, TextLe e (2 ^ 20)

theorem textLe_infoServer (host : Host) (now : ExpireAt) (state : ServerState) :
    TextLe (infoServer host now (some state)) 2000 := by
  have hid : TextLe (ToString.toString host.processId) 80 :=
    TextLe.toString (host.processId.toNat_lt.trans (by decide))
  have htime : TextLe (ToString.toString ((now % 2 ^ 64 - state.startedAtMs) / 1000)) 80 := by
    refine TextLe.toString (lt_of_le_of_lt (Nat.div_le_self _ _) (lt_of_le_of_lt
      (Nat.sub_le _ _) ((Nat.mod_lt _ (by decide)).trans (by decide))))
  apply TextLe.mono
  · unfold infoServer
    dsimp only
    repeat' with_reducible apply TextLe.append
    all_goals first
      | with_reducible exact hid
      | with_reducible exact htime
      | with_reducible exact TextLe.self _
  · decide

theorem textLe_infoClients {state : ServerState} (h : state.connectedClients < 2 ^ 64 ∧
    state.totalConnections < 2 ^ 64) : TextLe (infoClients (some state)) 2000 := by
  have hconnected := TextLe.toString (h.1.trans (by decide))
  have htotal := TextLe.toString (h.2.trans (by decide))
  apply TextLe.mono
  · unfold infoClients
    dsimp only
    repeat' with_reducible apply TextLe.append
    all_goals first
      | with_reducible exact hconnected
      | with_reducible exact htotal
      | with_reducible exact TextLe.self _
  · decide

theorem textLe_sanitizeInfoValue {text : String} {n : ℕ} (h : TextLe text n) :
    TextLe (ToString.toString (sanitizeInfoValue text)) n :=
  (length_replaceCrlf (by decide) text).trans_le h

theorem textLe_flag (b : Bool) : TextLe (ToString.toString (flag b)) 1 := by
  cases b <;> exact Nat.le_of_ble_eq_true rfl

theorem textLe_asStr (policy : FsyncPolicy) : TextLe (ToString.toString policy.asStr) 10 := by
  cases policy <;> exact Nat.le_of_ble_eq_true rfl

theorem textLe_infoPersistence {stats : AofStats} (hcounters : stats.currentSize < 2 ^ 64 ∧
      stats.rewriteCount < 2 ^ 64 ∧ stats.lastRewriteFinishedMs < 2 ^ 64)
    (htexts : TextLe stats.path (2 ^ 20) ∧ TextLe stats.lastRewriteStatus (2 ^ 20) ∧
      ∀ e ∈ stats.lastError, TextLe e (2 ^ 20)) :
    TextLe (infoPersistence (some stats)) (2 ^ 22) := by
  have hsize := TextLe.toString (hcounters.1.trans (by decide))
  have hcount := TextLe.toString (hcounters.2.1.trans (by decide))
  have hfinished := TextLe.toString (hcounters.2.2.trans (by decide))
  have hpath := textLe_sanitizeInfoValue htexts.1
  have hstatus : TextLe (ToString.toString stats.lastRewriteStatus) (2 ^ 20) := htexts.2.1
  have herror : ∀ e, stats.lastError = some e →
      TextLe (ToString.toString (sanitizeInfoValue e)) (2 ^ 20) :=
    fun e he => textLe_sanitizeInfoValue (htexts.2.2 e he)
  unfold infoPersistence
  dsimp only
  cases he : stats.lastError
  all_goals
    apply TextLe.mono
    · dsimp only
      repeat' with_reducible apply TextLe.append
      all_goals first
        | with_reducible exact hsize
        | with_reducible exact hcount
        | with_reducible exact hfinished
        | with_reducible exact hpath
        | with_reducible exact hstatus
        | with_reducible exact herror _ he
        | with_reducible exact textLe_flag _
        | with_reducible exact textLe_asStr _
        | with_reducible exact TextLe.self _
    · decide

theorem fits_infoFrame {s : Surroundings} (hs : s.Bounded) (db : Db host)
    (section_ : Option String) : Fits (infoFrame s.now db s.aof (some s.state) section_) := by
  have hserver := textLe_infoServer host s.now s.state
  have hclients := textLe_infoClients hs.state
  have hmemory := TextLe.infoMemory (db.stats s.now)
  have hpersistence : TextLe (infoPersistence s.aof) (2 ^ 22) := by
    cases ha : s.aof with
    | none => exact Nat.le_of_ble_eq_true rfl
    | some stats => exact textLe_infoPersistence (hs.counters stats ha) (hs.texts stats ha)
  refine Fits.bulk ((bulkResponseFits_iff _).mpr
    ((bulkLen_mono (n := 2 ^ 23) ?_).trans (by decide)))
  exact (((hserver.ite.append hclients.ite).append hmemory.ite).append hpersistence.ite).mono
    (by decide)

theorem fits_bgRewriteAofReply (aof : Option AofStats) : Fits (bgRewriteAofReply aof) := by
  cases aof with
  | none => exact le_maxResponse (by decide)
  | some stats =>
      unfold bgRewriteAofReply
      dsimp only
      split_ifs <;> exact le_maxResponse (by decide)

/-- No reply to the request can be sent: it is the longest there is, and its name or one of the
channels that it leaves comes back with a few bytes more. -/
def Overlong (request : Frame) : Prop :=
  LongName request ∨ ∃ now channels, Command.fromFrame now request =
    .ok (.unsubscribe (some channels)) ∧
      ∃ channel ∈ channels, ¬ Fits (ackUnsubscribe (some channel) 0)

theorem Answered.fits {s : Surroundings} {db : Db host} {request : Frame} {a : Answer host}
    (h : Answered s db request a) (hv : db.Served) (hs : s.Bounded) {buf rest : Bytes}
    (hp : Parser.parse buf = .ok (some request, rest)) (hshort : ¬ Overlong request) :
    ∀ frame ∈ a.frames, Fits frame := by
  have hname : ¬ LongName request := fun hl => hshort (.inl hl)
  have hreply := (reply_sendable_iff hv s.readAt s.now hp).mpr hname
  intro frame hf
  cases h with
  | subscribe channels => cases hf
  | unsubscribe h =>
      obtain ⟨channel, hc, rfl⟩ := List.mem_map.mp hf
      by_contra hlong
      exact hshort (.inr ⟨_, _, h, channel, hc, hlong⟩)
  | unsubscribeAll => exact List.mem_singleton.mp hf ▸ le_maxResponse (by decide)
  | info section_ => exact List.mem_singleton.mp hf ▸ fits_infoFrame hs db section_
  | bgRewriteAof => exact List.mem_singleton.mp hf ▸ fits_bgRewriteAofReply s.aof
  | @command cmd h =>
      rw [List.mem_singleton.mp hf]
      have happly : Fits (cmd.apply s.now db).1 :=
        (sendable_iff _).mp (hreply _ (by rw [reply, h]))
      unfold execute
      dsimp only
      split
      · exact happly
      · split
        · exact happly
        · split
          · exact happly
          · next e he =>
              refine (Fits.error_iff _).mpr ((Nat.add_le_add_right ?_ 3).trans
                (le_maxResponse (Nat.le_of_ble_eq_true rfl : 2 ^ 20 + 100 + 3 ≤ 67108864)))
              exact ((TextLe.self _).append (hs.errors _ e he)).mono (by decide)
  | refused h =>
      refine (sendable_iff _).mp (hreply frame ?_)
      rw [reply, h]
      exact Option.mem_toList.mp hf

/-- The requests of a client answered one after the other: what `handle` is meant to do. -/
def converse : List Surroundings → List Frame → Db host → List Frame × Db host × Ending
  | _, [], db => ([], db, .closed)
  | [], _ :: _, db => ([], db, .waiting)
  | s :: surroundings, request :: requests, db =>
      let a := answer s (db.run s.others).2 request
      match a.ending with
      | some ending => (a.frames, a.db, ending)
      | none =>
          let later := converse surroundings requests a.db
          (a.frames ++ later.1, later.2)

theorem converse_unsplit {surroundings : List Surroundings} (hs : ∀ s ∈ surroundings, s.Plain)
    (requests : List Frame) (db : Db host) :
    ∀ frame ∈ (converse surroundings requests db).1, Unsplit frame := by
  induction requests generalizing surroundings db with
  | nil => cases surroundings <;> exact fun frame hf => by cases hf
  | cons request requests ih =>
      cases surroundings with
      | nil => exact fun frame hf => by cases hf
      | cons s surroundings =>
          obtain ⟨hplain, hrest⟩ := List.forall_mem_cons.mp hs
          have ha := (answered s (db.run s.others).2 request).unsplit hplain
          rw [converse]
          dsimp only
          split
          · exact ha
          · intro frame hf
            rcases List.mem_append.mp hf with hf | hf
            · exact ha frame hf
            · exact ih hrest _ frame hf

theorem handle_delivered {surroundings : List Surroundings}
    (hs : ∀ s ∈ surroundings, s.Plain ∧ s.Bounded) {requests : List Frame}
    (hshort : ∀ request ∈ requests, ¬ Overlong request) {incoming : List Bytes} {buf : Bytes}
    (hread : readFrames (requests.length + 1) incoming buf = delivered requests) {db : Db host}
    (hv : db.Served) :
    handle surroundings incoming buf db = ⟨(converse surroundings requests db).1.flatMap wire,
      (converse surroundings requests db).2.1, (converse surroundings requests db).2.2⟩ := by
  induction requests generalizing surroundings incoming buf db with
  | nil =>
      have hfirst := (List.cons.inj hread).1
      unfold handle
      dsimp only
      rw [hfirst]
      cases surroundings <;> rfl
  | cons request requests ih =>
      obtain ⟨hfirst, hnext⟩ := List.cons.inj hread
      rw [hfirst] at hnext
      obtain ⟨hrequest, hrequests⟩ := List.forall_mem_cons.mp hshort
      unfold handle
      dsimp only
      rw [hfirst]
      cases surroundings with
      | nil => rfl
      | cons s surroundings =>
          obtain ⟨⟨hplain, hbounded⟩, hrest⟩ := List.forall_mem_cons.mp hs
          obtain ⟨buf', rest', hp⟩ := parsed_of_readFrame hfirst
          have hothers := served_run hv hplain.others
          have ha := answered s (db.run s.others).2 request
          have hfits := ha.fits hothers hbounded hp hrequest
          dsimp only
          rw [writeFrames_of_fits hfits, converse]
          dsimp only
          rw [if_pos rfl]
          cases he : (answer s (db.run s.others).2 request).ending with
          | some ending => rfl
          | none =>
              dsimp only
              rw [ih hrest hrequests hnext (ha.served hothers hp), List.flatMap_append]

/-- The request is answered with one frame, and the loop goes on. -/
def OneReply (request : Frame) : Prop :=
  ∀ now, match Command.fromFrame now request with
    | .ok (.subscribe _) | .ok (.unsubscribe (some _)) => False
    | .ok _ => True
    | .error err => err ≠ .empty ∧ err.isProtocolError = false

theorem answer_oneReply {request : Frame} (h : OneReply request) (s : Surroundings) (db : Db host) :
    (answer s db request).frames.length = 1 ∧ (answer s db request).ending = none := by
  have hs := h s.readAt
  unfold answer
  split at hs
  · exact hs.elim
  · exact hs.elim
  · next cmd hsubscribe hunsubscribe hok =>
      rw [hok]
      cases cmd with
      | subscribe channels => exact (hsubscribe channels rfl).elim
      | unsubscribe channels =>
          cases channels with
          | none => exact ⟨rfl, rfl⟩
          | some channels => exact (hunsubscribe channels rfl).elim
      | _ => exact ⟨rfl, rfl⟩
  · next err herr =>
      rw [herr]
      obtain ⟨hempty, hprotocol⟩ := hs
      unfold commandParseErrorFrame
      dsimp only
      rw [if_neg hempty, hprotocol]
      exact ⟨rfl, rfl⟩

theorem converse_oneReply {requests : List Frame} (h : ∀ request ∈ requests, OneReply request)
    {surroundings : List Surroundings} (hl : requests.length ≤ surroundings.length) (db : Db host) :
    (converse surroundings requests db).1.length = requests.length ∧
      (converse surroundings requests db).2.2 = .closed := by
  induction requests generalizing surroundings db with
  | nil => cases surroundings <;> exact ⟨rfl, rfl⟩
  | cons request requests ih =>
      obtain ⟨hrequest, hrest⟩ := List.forall_mem_cons.mp h
      cases surroundings with
      | nil => cases hl
      | cons s surroundings =>
          obtain ⟨hlen, hending⟩ := answer_oneReply hrequest s (db.run s.others).2
          obtain ⟨hlater, hclosed⟩ := ih hrest (Nat.le_of_succ_le_succ hl)
            (answer s (db.run s.others).2 request).db
          rw [converse]
          dsimp only
          rw [hending]
          dsimp only
          rw [List.length_append, hlen, hlater, List.length_cons, Nat.add_comm]
          exact ⟨rfl, hclosed⟩

/-- A client that pipelines its requests gets the replies of the same requests made one after
the other, however its bytes arrive, and reads them back: one for each request, unless the
request is to leave several channels or none, or is empty. -/
theorem requests_answered {surroundings : List Surroundings}
    (hs : ∀ s ∈ surroundings, s.Plain ∧ s.Bounded) {requests : List Frame}
    (hrequests : ∀ request ∈ requests, (∃ args, request = commandFrame args) ∧
      Parser.parse (encode request []) = .ok (some request, []))
    (hshort : ∀ request ∈ requests, ¬ Overlong request) {incoming : List Bytes}
    (hbytes : incoming.flatten = encodeAll requests) (hfit : ReadsFit incoming requests)
    {db : Db host} (hv : db.Served) :
    let replies := converse surroundings requests db
    handle surroundings incoming [] db = ⟨replies.1.flatMap wire, replies.2.1, replies.2.2⟩ ∧
      Client.replies replies.1.length (handle surroundings incoming [] db).bytes =
        .ok (replies.1, []) ∧
      ((∀ request ∈ requests, OneReply request) → requests.length ≤ surroundings.length →
        replies.1.length = requests.length ∧ replies.2.2 = .closed) := by
  intro replies
  have hread := (pipelined_iff hrequests hbytes).mpr hfit
  have hhandle := handle_delivered hs hshort hread hv
  refine ⟨hhandle, ?_, fun hone hl => converse_oneReply hone hl db⟩
  have hunsplit := converse_unsplit (fun s hm => (hs s hm).1) requests db
  have hreplies := Client.replies_eq hunsplit []
  rw [List.append_nil] at hreplies
  rw [hhandle]
  exact hreplies

theorem bounded_quiet : quiet.Bounded where
  errors _ _ h := by cases h
  state := by decide
  counters _ h := by cases h
  texts _ h := by cases h

theorem short_ping : ¬ Overlong pingRequest := by
  rintro (⟨name, args, heq, -, hlong⟩ | ⟨now, channels, hread, -⟩)
  · have hargs : asBytes "PING" = name :=
      Frame.bulk.inj (List.cons.inj (Frame.array.inj heq)).1
    rw [← hargs] at hlong
    exact absurd hlong (by decide)
  · cases hread

theorem requests_answered_pings :
    let replies := converse [quiet, quiet] [pingRequest, pingRequest] (Db.new : Db ⟨fun _ => 3, 1⟩)
    Client.replies replies.1.length (handle [quiet, quiet]
      [encodeAll [pingRequest, pingRequest]] [] (Db.new : Db ⟨fun _ => 3, 1⟩)).bytes =
        .ok (replies.1, []) := by
  have hping : Parser.parse (encode pingRequest []) = .ok (some pingRequest, []) :=
    parse_request (by decide) (by decide)
  have hreads : ReadsFit [encodeAll [pingRequest, pingRequest]] [pingRequest, pingRequest] := by
    intro before piece after heq
    cases before with
    | nil =>
        obtain rfl := (List.cons.inj heq).1
        exact Nat.le_of_ble_eq_true rfl
    | cons piece' before => exact absurd (congrArg List.length heq) (by simp)
  refine (requests_answered (List.forall_mem_cons.mpr ⟨⟨plain_quiet, bounded_quiet⟩,
    List.forall_mem_cons.mpr ⟨⟨plain_quiet, bounded_quiet⟩, List.forall_mem_nil _⟩⟩)
    (List.forall_mem_cons.mpr ⟨⟨⟨_, rfl⟩, hping⟩,
      List.forall_mem_cons.mpr ⟨⟨⟨_, rfl⟩, hping⟩, List.forall_mem_nil _⟩⟩)
    (List.forall_mem_cons.mpr ⟨short_ping, List.forall_mem_cons.mpr ⟨short_ping,
      List.forall_mem_nil _⟩⟩) (List.flatten_singleton ..) hreads .new).2.1

end MiniRedis.Session
