import MiniRedis.FrameStream
import MiniRedis.ParserBounds

/-!
# Reading and writing frames on a connection

`read_frame` parses what is buffered and reads more from the socket until a frame is
complete. Each piece is what one `read_buf` returned, so none of them is empty, and
after the last one the stream has ended. Timeouts and failing reads are left out. The
limit on the buffer is meant for one request, but a read may bring the end of one
request together with the start of the next. `write_frame` is modelled up to the bytes
that it hands to the socket.
-/
namespace MiniRedis.Connection
open Wire MiniRedis.Parser ParserRoundTrip ParserBounds

inductive ReadError where
  | protocol (message : String)
  | closedMidFrame
deriving Repr, DecidableEq

def checkBufferedFrameLimit (buf : Bytes) : Except ReadError Unit :=
  if maxBufferedFrameBytes < buf.length then
    .error (.protocol s!"client frame exceeds buffered limit of {maxBufferedFrameBytes} bytes")
  else .ok ()

/-- What a read of zero bytes means. -/
def endOfStream (buf : Bytes) : Except ReadError (Option Frame) := do
  checkBufferedFrameLimit buf
  if buf.isEmpty then .ok none else .error .closedMidFrame

/-- The first half of a turn of the loop: a frame of the buffer, if there is one. -/
def parseBuffered (buf : Bytes) : Except ReadError (Option Frame × Bytes) := do
  checkBufferedFrameLimit buf
  match parse buf with
  | .ok r => .ok r
  | .error .incomplete => .ok (none, buf)
  | .error (.protocol msg) => .error (.protocol msg)

/-- The result, and the buffer and the pieces that are left. -/
def readFrame (incoming : List Bytes) (buf : Bytes) :
    Except ReadError (Option Frame) × Bytes × List Bytes :=
  match parseBuffered buf with
  | .error e => (.error e, buf, incoming)
  | .ok (some frame, buf) => (.ok (some frame), buf, incoming)
  | .ok (none, buf) =>
      match incoming with
      | [] => (endOfStream buf, buf, [])
      | piece :: incoming =>
          match checkBufferedFrameLimit (buf ++ piece) with
          | .error e => (.error e, buf ++ piece, incoming)
          | .ok () => readFrame incoming (buf ++ piece)

def writeFrame (frame : Frame) : Except String Bytes :=
  match encodedLen frame with
  | none => .error "server response length overflow"
  | some len =>
      if maxResponseFrameBytes < len then
        .error s!"server response exceeds output limit of {maxResponseFrameBytes} bytes"
      else .ok (encode frame [])

/-- Successive calls of `read_frame`, up to the first one that returns no frame. -/
def readFrames : ℕ → List Bytes → Bytes → List (Except ReadError (Option Frame))
  | 0, _, _ => []
  | calls + 1, incoming, buf =>
      let r := readFrame incoming buf
      r.1 :: match r.1 with
        | .ok (some _) => readFrames calls r.2.2 r.2.1
        | _ => []

/-- The results of calls that return the requests one after the other, and then the end. -/
def delivered (requests : List Frame) : List (Except ReadError (Option Frame)) :=
  (requests.map fun frame => .ok (some frame)) ++ [.ok none]

theorem checkBufferedFrameLimit_ok {buf : Bytes} (h : buf.length ≤ maxBufferedFrameBytes) :
    checkBufferedFrameLimit buf = .ok () := if_neg (Nat.not_lt.mpr h)

theorem parseBuffered_of_ok {buf : Bytes} {r : Option Frame × Bytes}
    (h : buf.length ≤ maxBufferedFrameBytes) (hp : parse buf = .ok r) :
    parseBuffered buf = .ok r := by
  simp only [parseBuffered, checkBufferedFrameLimit_ok h, hp, bind, Except.bind]

/-- The calls that find a whole request in the buffer. -/
theorem readFrames_buffered {done : List Frame} (hread : ∀ frame ∈ done, Readable frame)
    {tail : Bytes} (hlen : (done.flatMap wire ++ tail).length ≤ maxBufferedFrameBytes)
    (calls : ℕ) (incoming : List Bytes) :
    readFrames (done.length + calls) incoming (done.flatMap wire ++ tail) =
      (done.map fun frame => .ok (some frame)) ++ readFrames calls incoming tail := by
  induction done with
  | nil =>
      rw [List.length_nil, Nat.zero_add]
      rfl
  | cons frame done ih =>
      obtain ⟨hf, hread⟩ := List.forall_mem_cons.mp hread
      have hp := parseBuffered_of_ok hlen
        ((List.append_assoc ..) ▸ parse_wire hf.parseable hf.length_le (done.flatMap wire ++ tail))
      rw [List.flatMap_cons, List.append_assoc] at hlen hp
      rw [List.length_append] at hlen
      rw [List.length_cons, Nat.add_right_comm, readFrames, List.flatMap_cons, List.append_assoc,
        readFrame, hp]
      simp only [ih hread (by omega), List.map_cons, List.cons_append]

/-- A call that finds only a part of a request. -/
theorem readFrame_waiting {tail piece : Bytes} (ht : parse tail = .ok (none, tail))
    (hlen : tail.length ≤ maxBufferedFrameBytes) (incoming : List Bytes) :
    readFrame (piece :: incoming) tail =
      if maxBufferedFrameBytes < (tail ++ piece).length then
        (.error (.protocol
          s!"client frame exceeds buffered limit of {maxBufferedFrameBytes} bytes"),
          tail ++ piece, incoming)
      else readFrame incoming (tail ++ piece) := by
  rw [readFrame, parseBuffered_of_ok hlen ht]
  dsimp only
  unfold checkBufferedFrameLimit
  split_ifs <;> rfl

/-- After every read, the bytes since the end of the last request that was complete before
the read are within the limit. -/
def ReadsFit (incoming : List Bytes) (requests : List Frame) : Prop :=
  ∀ before piece after, incoming = before ++ piece :: after →
    (before.flatten ++ piece).length -
      (encodeAll (endingBy before.flatten.length requests)).length ≤ maxBufferedFrameBytes

/-- The same, with a part of the requests in the buffer. -/
def ReadsFitFrom (buf : Bytes) (incoming : List Bytes) (requests : List Frame) : Prop :=
  ∀ before piece after, incoming = before ++ piece :: after →
    (buf ++ before.flatten ++ piece).length -
      (encodeAll (endingBy (buf ++ before.flatten).length requests)).length ≤
        maxBufferedFrameBytes

theorem readsFitFrom_cons {done rest : List Frame} {tail piece : Bytes} {incoming : List Bytes}
    (hshort : ∀ frame rest', rest = frame :: rest' → tail.length < (wire frame).length) :
    ReadsFitFrom (done.flatMap wire ++ tail) (piece :: incoming) (done ++ rest) ↔
      (tail ++ piece).length ≤ maxBufferedFrameBytes ∧
        ReadsFitFrom (tail ++ piece) incoming rest := by
  -- the requests that are already complete drop out of the difference
  have hshift : ∀ x y : Bytes,
      (done.flatMap wire ++ tail ++ x ++ y).length - (encodeAll
        (endingBy (done.flatMap wire ++ tail ++ x).length (done ++ rest))).length =
      (tail ++ x ++ y).length - (encodeAll (endingBy (tail ++ x).length rest)).length := by
    intro x y
    have hend : (done.flatMap wire ++ tail ++ x).length =
        (encodeAll done).length + (tail ++ x).length := by
      rw [encodeAll_eq, List.append_assoc, List.length_append]
    have hall : (done.flatMap wire ++ tail ++ x ++ y).length =
        (encodeAll done).length + (tail ++ x ++ y).length := by
      rw [encodeAll_eq, List.append_assoc, List.append_assoc, List.append_assoc, List.length_append]
    have hdone : (encodeAll (done ++ endingBy (tail ++ x).length rest)).length =
        (encodeAll done).length + (encodeAll (endingBy (tail ++ x).length rest)).length := by
      rw [encodeAll_append, List.length_append]
    rw [hend, hall, endingBy_append, hdone]
    omega
  constructor
  · intro h
    refine ⟨?_, fun before piece' after heq => ?_⟩
    · have hfirst := h [] piece incoming rfl
      rw [List.flatten_nil, hshift, List.append_nil, endingBy_short hshort] at hfirst
      exact hfirst
    · have hnext := h (piece :: before) piece' after (by rw [heq]; rfl)
      rw [List.flatten_cons, hshift] at hnext
      rwa [List.append_assoc tail piece]
  · rintro ⟨hfirst, hnext⟩ before piece' after heq
    cases before with
    | nil =>
        obtain ⟨rfl, rfl⟩ := List.cons.inj heq
        rw [List.flatten_nil, hshift, List.append_nil, endingBy_short hshort]
        exact hfirst
    | cons piece'' before =>
        obtain ⟨rfl, rfl⟩ := List.cons.inj heq
        have h := hnext before piece' after rfl
        rw [List.flatten_cons, hshift]
        rwa [List.append_assoc tail piece] at h

theorem delivered_append (done rest : List Frame) :
    delivered (done ++ rest) = (done.map fun frame => .ok (some frame)) ++ delivered rest := by
  rw [delivered, List.map_append, List.append_assoc, delivered]

theorem error_not_mem_delivered (requests : List Frame) (e : ReadError) :
    .error e ∉ delivered requests := by
  simp [delivered]

/-- From a buffer within the limit, the requests are delivered if and only if every read fits. -/
theorem readFrames_iff {incoming : List Bytes} {requests : List Frame} {buf : Bytes}
    (hread : ∀ frame ∈ requests, Readable frame) (hbuf : buf.length ≤ maxBufferedFrameBytes)
    (hbytes : buf ++ incoming.flatten = requests.flatMap wire) :
    readFrames (requests.length + 1) incoming buf = delivered requests ↔
      ReadsFitFrom buf incoming requests := by
  induction incoming generalizing buf requests with
  | nil =>
      obtain ⟨done, rest, tail, rfl, rfl, htail, -, -, hnext⟩ := cut_frames hread hbytes
      rw [List.flatten_nil, List.append_nil] at htail
      have hrest : rest = [] := by
        cases rest with
        | nil => rfl
        | cons frame rest =>
            have hlt := hnext frame rest rfl
            have hlen := congrArg List.length htail
            rw [List.flatMap_cons, List.length_append] at hlen
            omega
      subst hrest
      obtain rfl : tail = [] := htail
      simp only [List.append_nil] at hread hbuf ⊢
      refine iff_of_true ?_ fun before piece after h => by simp at h
      have h := readFrames_buffered hread (by rwa [List.append_nil]) 1 []
      rw [List.append_nil] at h
      rw [h]
      rfl
  | cons piece incoming ih =>
      obtain ⟨done, rest, tail, rfl, rfl, htail, ht, htlen, hnext⟩ := cut_frames hread hbytes
      rw [readsFitFrom_cons hnext, List.length_append, Nat.add_assoc,
        readFrames_buffered (fun f hf => hread f (List.mem_append_left rest hf)) hbuf,
        delivered_append, List.append_cancel_left_eq]
      by_cases hlen : (tail ++ piece).length ≤ maxBufferedFrameBytes
      · have hstep : readFrames (rest.length + 1) (piece :: incoming) tail =
            readFrames (rest.length + 1) incoming (tail ++ piece) := by
          rw [readFrames, readFrame_waiting ht htlen, if_neg (Nat.not_lt.mpr hlen), readFrames]
        rw [hstep, ih (fun f hf => hread f (List.mem_append_right done hf)) hlen
          (by rw [List.append_assoc]; exact htail)]
        exact ⟨fun h => ⟨hlen, h⟩, fun h => h.2⟩
      · refine iff_of_false (fun h => ?_) fun h => hlen h.1
        rw [readFrames, readFrame_waiting ht htlen, if_pos (Nat.not_le.mp hlen)] at h
        exact error_not_mem_delivered rest _ (h ▸ List.mem_cons_self)

/-- A request that the parser accepts on its own. -/
theorem readable_request {args : List Bytes}
    (h : parse (encode (commandFrame args) []) = .ok (some (commandFrame args), [])) :
    Readable (commandFrame args) := by
  obtain ⟨hparse, hlen⟩ := parse_accepted h
  exact ⟨hparse, shortLines_command args, hlen⟩

/-- Pipelined requests are returned one after the other, whatever the socket delivers at a
time, if and only if every read fits in the buffer behind the last complete request. -/
theorem pipelined_iff {requests : List Frame} {incoming : List Bytes}
    (hrequests : ∀ frame ∈ requests, (∃ args, frame = commandFrame args) ∧
      parse (encode frame []) = .ok (some frame, []))
    (hbytes : incoming.flatten = encodeAll requests) :
    readFrames (requests.length + 1) incoming [] = delivered requests ↔
      ReadsFit incoming requests := by
  have hread : ∀ frame ∈ requests, Readable frame := by
    intro frame hf
    obtain ⟨⟨args, rfl⟩, hp⟩ := hrequests frame hf
    exact readable_request hp
  have hall : [] ++ incoming.flatten = requests.flatMap wire := hbytes.trans (encodeAll_eq requests)
  exact readFrames_iff hread (Nat.zero_le _) hall

theorem parse_request {args : List Bytes} (hn : args.length ≤ maxArrayLen)
    (hlen : (wire (commandFrame args)).length ≤ maxBufferedFrameBytes) :
    parse (encode (commandFrame args) []) = .ok (some (commandFrame args), []) := by
  have hp := parse_command hn hlen []
  rwa [List.append_nil, ← List.nil_append (wire _), ← encode_eq_append] at hp

def pingRequest : Frame := commandFrame [asBytes "PING"]

/-- The first request, all but its last byte, and then that byte with the second one. -/
def splitLate (first second : Frame) : List Bytes :=
  [(wire first).take ((wire first).length - 1),
    (wire first).drop ((wire first).length - 1) ++ wire second]

theorem flatten_splitLate (first second : Frame) :
    (splitLate first second).flatten = encodeAll [first, second] := by
  rw [encodeAll_eq, splitLate]
  simp only [List.flatten_cons, List.flatten_nil, List.append_nil, ← List.append_assoc,
    List.take_append_drop, List.flatMap_cons, List.flatMap_nil]

/-- A request next to the limit is rejected together with the one behind it. -/
theorem splitLate_rejected {first second : Frame} (h₁ : Readable first) (h₂ : Readable second)
    (hlong : maxBufferedFrameBytes < (wire first).length + (wire second).length) :
    readFrames 3 (splitLate first second) [] ≠ delivered [first, second] := by
  have hbytes : [] ++ (splitLate first second).flatten = [first, second].flatMap wire :=
    (flatten_splitLate first second).trans (encodeAll_eq _)
  have hiff := readFrames_iff
    (List.forall_mem_cons.mpr ⟨h₁, List.forall_mem_cons.mpr ⟨h₂, List.forall_mem_nil _⟩⟩)
    (Nat.zero_le _) hbytes
  intro h
  have hpos := wire_length_pos first
  have hfit := hiff.mp h [(wire first).take ((wire first).length - 1)] _ [] rfl
  rw [endingBy_short] at hfit
  · simp only [encodeAll, List.flatMap_nil, List.length_nil, List.nil_append, List.flatten_cons,
      List.flatten_nil, List.append_nil, List.length_append, List.length_take,
      List.length_drop] at hfit
    omega
  · intro frame rest heq
    obtain ⟨rfl, -⟩ := List.cons.inj heq
    simp only [List.nil_append, List.flatten_cons, List.flatten_nil, List.append_nil,
      List.length_take]
    omega

/-- A request of exactly the accepted length. -/
def fullRequest : Frame := commandFrame [List.replicate 67108847 97]

theorem length_fullRequest : (wire fullRequest).length = maxBufferedFrameBytes := by
  have hb : bulkLen 67108847 = 67108860 := bulkLen_eight (by decide) (by decide)
  rw [fullRequest, length_wire_command, List.map_cons, List.length_replicate, hb]
  rfl

/-- With the end of such a request a `PING` arrives, and the connection fails. -/
theorem fullRequest_then_ping_rejected :
    (∀ frame ∈ [fullRequest, pingRequest], (∃ args, frame = commandFrame args) ∧
      parse (encode frame []) = .ok (some frame, [])) ∧
    (splitLate fullRequest pingRequest).flatten = encodeAll [fullRequest, pingRequest] ∧
    readFrames 3 (splitLate fullRequest pingRequest) [] ≠ delivered [fullRequest, pingRequest] := by
  have hfull : parse (encode fullRequest []) = .ok (some fullRequest, []) :=
    parse_request (Nat.le_of_ble_eq_true rfl) length_fullRequest.le
  have hping : parse (encode pingRequest []) = .ok (some pingRequest, []) :=
    parse_request (by decide) (by decide)
  refine ⟨List.forall_mem_cons.mpr ⟨⟨⟨_, rfl⟩, hfull⟩,
    List.forall_mem_cons.mpr ⟨⟨⟨_, rfl⟩, hping⟩, List.forall_mem_nil _⟩⟩,
    flatten_splitLate _ _, splitLate_rejected (readable_request hfull) (readable_request hping) ?_⟩
  rw [length_fullRequest]
  exact Nat.lt_add_of_pos_right (wire_length_pos _)

/-- Two requests that arrive together are returned one after the other. -/
theorem pipelined_iff_pings :
    readFrames 3 [encodeAll [pingRequest, pingRequest]] [] = delivered [pingRequest, pingRequest] ↔
      ReadsFit [encodeAll [pingRequest, pingRequest]] [pingRequest, pingRequest] := by
  have hping : parse (encode pingRequest []) = .ok (some pingRequest, []) :=
    parse_request (by decide) (by decide)
  exact pipelined_iff (List.forall_mem_cons.mpr ⟨⟨⟨_, rfl⟩, hping⟩,
    List.forall_mem_cons.mpr ⟨⟨⟨_, rfl⟩, hping⟩, List.forall_mem_nil _⟩⟩)
    (List.flatten_singleton ..)

end MiniRedis.Connection
