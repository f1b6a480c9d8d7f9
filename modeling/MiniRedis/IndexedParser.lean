import MiniRedis.Parser

/-!
# The parser on positions

The parser once more, as the source has it: positions in a buffer, and every index, slice,
position, sum and difference checked where the source would panic. Loops and the recursion
run on fuel, and a run that needs more of it diverges.
-/
namespace MiniRedis.IndexedParser
open Wire MiniRedis.Parser

/-- How a run can end without a result. -/
inductive Fault where
  /-- An operation is out of bounds. -/
  | panic
  /-- The run goes on. -/
  | diverges
  /-- The error that the source returns. -/
  | error (e : Error)
deriving Repr, DecidableEq

abbrev Run (A : Type) := Except Fault A

def fail {A : Type} (e : Error) : Run A := .error (.error e)

/-- `buf[i]`. -/
def index (buf : Bytes) (i : ℕ) : Run UInt8 :=
  match buf[i]? with
  | some b => .ok b
  | none => .error .panic

/-- `&buf[i..j]`. -/
def slice (buf : Bytes) (i j : ℕ) : Run Bytes :=
  if i ≤ j ∧ j ≤ buf.length then .ok ((buf.take j).drop i) else .error .panic

/-- `a + b` on `usize`, and on the `u64` positions of a cursor. -/
def add (a b : ℕ) : Run ℕ := if a + b < 2 ^ 64 then .ok (a + b) else .error .panic

/-- `a - b` on `usize`. -/
def sub (a b : ℕ) : Run ℕ := if b ≤ a then .ok (a - b) else .error .panic

def addU8 (a b : UInt8) : Run UInt8 :=
  if a.toNat + b.toNat < 256 then .ok (a + b) else .error .panic

def subU8 (a b : UInt8) : Run UInt8 := if b ≤ a then .ok (a - b) else .error .panic

/-- `BytesMut::advance`. -/
def advance (buf : Bytes) (n : ℕ) : Run Bytes :=
  if n ≤ buf.length then .ok (buf.drop n) else .error .panic

/-! ## Lines -/

/-- The scan of `find_crlf` over the `n` positions from `i` on. -/
def findCrlfFrom (buf : Bytes) : ℕ → ℕ → Run (Option ℕ)
  | 0, _ => .ok none
  | n + 1, i => do
      let b ← index buf i
      if b = 13 then
        let next ← add i 1
        let b ← index buf next
        if b = 10 then .ok (some i) else findCrlfFrom buf n (i + 1)
      else findCrlfFrom buf n (i + 1)

def findCrlf (buf : Bytes) (start : ℕ) : Run (Option ℕ) := do
  let stop ← add start 2
  if buf.length < stop then .ok none
  else findCrlfFrom buf (buf.length - 1 - start) start

def findLf (buf : Bytes) (start : ℕ) : Run (Option ℕ) :=
  if buf.length < start then .ok none -- `buf.get(start..)`
  else match (buf.drop start).findIdx? (· = 10) with
    | none => .ok none
    | some offset => do
        let pos ← add start offset
        .ok (some pos)

def readU8 (buf : Bytes) (pos : ℕ) : Run (UInt8 × ℕ) :=
  if buf.length - pos = 0 then fail .incomplete
  else do
    let b ← index buf pos
    let pos ← add pos 1
    .ok (b, pos)

def readLine (buf : Bytes) (pos : ℕ) : Run (Bytes × ℕ) := do
  match ← findCrlf buf pos with
  | some crlf =>
      let next ← add crlf 2
      let line ← slice buf pos crlf
      .ok (line, next)
  | none => if maxLineLen < buf.length - pos then fail lineTooLong else fail .incomplete

def readLineString (buf : Bytes) (pos : ℕ) : Run (String × ℕ) := do
  let (line, pos) ← readLine buf pos
  match fromUtf8 line with
  | some s => .ok (s, pos)
  | none => fail (.protocol "invalid utf8 in line")

def readLineInt (buf : Bytes) (pos : ℕ) : Run (Int64 × ℕ) := do
  let (line, pos) ← readLine buf pos
  match readI64 line with
  | some n => .ok (n, pos)
  | none => fail (.protocol "invalid integer")

/-! ## Frames -/

def parseBulk (buf : Bytes) (pos : ℕ) : Run (Frame × ℕ) := do
  let (len, pos) ← readLineInt buf pos
  if len.toInt = -1 then .ok (.null, pos)
  else if len.toInt < 0 then fail (.protocol "negative bulk len")
  else
    let len := len.toInt.toNat
    if maxBulkLen < len then fail (.protocol s!"bulk length {len} exceeds limit {maxBulkLen}")
    else if ¬ (respBulkLen len).any (· ≤ maxBufferedFrameBytes) then
      fail (.protocol s!"bulk frame length exceeds buffered limit {maxBufferedFrameBytes}")
    else
      let remaining ← sub buf.length pos
      let needed ← add len 2
      if remaining < needed then fail .incomplete
      else
        let stop ← add pos len
        let bytes ← slice buf pos stop
        let (cr, pos) ← readU8 buf stop
        if cr ≠ 13 then fail (.protocol "missing CRLF after bulk")
        else
          let (lf, pos) ← readU8 buf pos
          if lf ≠ 10 then fail (.protocol "missing CRLF after bulk")
          else .ok (.bulk bytes, pos)

def parseItems (frame : ℕ → Run (Frame × ℕ)) : ℕ → ℕ → Run (List Frame × ℕ)
  | 0, pos => .ok ([], pos)
  | count + 1, pos => do
      let (item, pos) ← frame pos
      let (items, pos) ← parseItems frame count pos
      .ok (item :: items, pos)

def parseArray (buf : Bytes) (frame : ℕ → Run (Frame × ℕ)) (pos : ℕ) : Run (Frame × ℕ) := do
  let (count, pos) ← readLineInt buf pos
  if count.toInt = -1 then .ok (.nullArray, pos)
  else if count.toInt < 0 then fail (.protocol "negative array len")
  else
    let count := count.toInt.toNat
    if maxArrayLen < count then
      fail (.protocol s!"array length {count} exceeds limit {maxArrayLen}")
    else
      let (items, pos) ← parseItems frame count pos
      .ok (.array items, pos)

/-- `parse_frame` at a depth. The fuel bounds the calls that are open at a time. -/
def parseFrame (buf : Bytes) : ℕ → ℕ → ℕ → Run (Frame × ℕ)
  | 0, _, _ => .error .diverges
  | fuel + 1, depth, pos => do
      if maxNestingDepth < depth then
        fail (.protocol s!"array nesting depth exceeds limit {maxNestingDepth}")
      else
        let (tag, pos) ← readU8 buf pos
        if tag = 43 then
          let (s, pos) ← readLineString buf pos
          .ok (.simple s, pos)
        else if tag = 45 then
          let (s, pos) ← readLineString buf pos
          .ok (.error s, pos)
        else if tag = 58 then
          let (n, pos) ← readLineInt buf pos
          .ok (.integer n, pos)
        else if tag = 36 then parseBulk buf pos
        else if tag = 42 then
          parseArray buf (fun pos => do
            let depth ← add depth 1
            parseFrame buf fuel depth pos) pos
        else fail (.protocol s!"invalid type byte: 0x{hexByte tag}")

/-! ## Inline commands -/

def hexValue (b : UInt8) : Run (Option UInt8) :=
  if 48 ≤ b ∧ b ≤ 57 then do
    let v ← subU8 b 48
    .ok (some v)
  else if 97 ≤ b ∧ b ≤ 102 then do
    let v ← subU8 b 97
    let v ← addU8 v 10
    .ok (some v)
  else if 65 ≤ b ∧ b ≤ 70 then do
    let v ← subU8 b 65
    let v ← addU8 v 10
    .ok (some v)
  else .ok none

def readInlineQuoted (quote : UInt8) (line : Bytes) : ℕ → ℕ → Bytes → Run (Bytes × ℕ)
  | 0, _, _ => .error .diverges
  | fuel + 1, idx, out =>
      if line.length ≤ idx then fail (.protocol "unbalanced quotes in inline request")
      else do
        let byte ← index line idx
        let idx ← add idx 1
        if byte = quote then .ok (out, idx)
        else if byte ≠ 92 then readInlineQuoted quote line fuel idx (out ++ [byte])
        else if idx = line.length then fail unterminatedEscape
        else
          let escaped ← index line idx
          let idx ← add idx 1
          if escaped = 120 ∧ quote = 34 then
            let next ← add idx 1
            if next < line.length then
              let high ← index line idx
              let high ← hexValue high
              let next ← add idx 1
              let low ← index line next
              let low ← hexValue low
              match high, low with
              | some h, some l =>
                  let idx ← add idx 2
                  readInlineQuoted quote line fuel idx (out ++ [h <<< 4 ||| l])
              | _, _ => readInlineQuoted quote line fuel idx (out ++ [escaped])
            else readInlineQuoted quote line fuel idx (out ++ [escaped])
          else readInlineQuoted quote line fuel idx (out ++ [unescape quote escaped])

/-- The loop of `split_inline_args` over the separators. -/
def skipSpaces (line : Bytes) : ℕ → ℕ → Run ℕ
  | 0, _ => .error .diverges
  | fuel + 1, idx =>
      if line.length ≤ idx then .ok idx
      else do
        let b ← index line idx
        if isInlineSpace b then
          let idx ← add idx 1
          skipSpaces line fuel idx
        else .ok idx

/-- The loop of `split_inline_args` over one argument. -/
def readInlineArg (line : Bytes) : ℕ → ℕ → Bytes → Run (Bytes × ℕ)
  | 0, _, _ => .error .diverges
  | fuel + 1, idx, arg =>
      if line.length ≤ idx then .ok (arg, idx)
      else do
        let b ← index line idx
        if isInlineSpace b then .ok (arg, idx)
        else if b = 39 ∨ b = 34 then
          let idx ← add idx 1
          let (arg, idx) ← readInlineQuoted b line (line.length + 1) idx arg
          readInlineArg line fuel idx arg
        else if b = 92 then
          let idx ← add idx 1
          if idx = line.length then fail unterminatedEscape
          else
            let escaped ← index line idx
            let idx ← add idx 1
            readInlineArg line fuel idx (arg ++ [escaped])
        else
          let idx ← add idx 1
          readInlineArg line fuel idx (arg ++ [b])

def splitInlineArgs (line : Bytes) : ℕ → ℕ → List Bytes → Run (List Bytes)
  | 0, _, _ => .error .diverges
  | fuel + 1, idx, args =>
      if line.length ≤ idx then .ok args
      else do
        let idx ← skipSpaces line (line.length + 1) idx
        if idx = line.length then .ok args
        else
          let (arg, idx) ← readInlineArg line (line.length + 1) idx []
          splitInlineArgs line fuel idx (args ++ [arg])

def inlineFrame (line : Bytes) : Run (Option Frame) := do
  let args ← splitInlineArgs line (line.length + 1) 0 []
  if args.isEmpty then .ok none
  else .ok (some (.array (args.map .bulk)))

/-- The line without its CR: `line.ends_with(b"\r")` and the slice. -/
def stripCr (line : Bytes) : Run Bytes :=
  if line.getLast? = some 13 then do
    let n ← sub line.length 1
    slice line 0 n
  else .ok line

def parseInline (buf : Bytes) : Run (Option Frame × Bytes) := do
  match ← findLf buf 0 with
  | none => if maxLineLen < buf.length then fail lineTooLong else .ok (none, buf)
  | some lineEnd =>
      if maxLineLen < lineEnd then fail lineTooLong
      else
        let line ← slice buf 0 lineEnd
        let line ← stripCr line
        let frame ← inlineFrame line
        let n ← add lineEnd 1
        let buf ← advance buf n
        .ok (frame, buf)

/-- The loop of `parse`. One call of `parse_frame` may open one at each depth up to the limit,
and one more that is rejected. -/
def parseLoop : ℕ → Bytes → Run (Option Frame × Bytes)
  | 0, _ => .error .diverges
  | fuel + 1, buf =>
      if buf.isEmpty then .ok (none, buf)
      else do
        let first ← index buf 0
        if ¬ isRespType first then
          match ← parseInline buf with
          | (some frame, rest) => .ok (some frame, rest)
          | (none, rest) =>
              if rest.length = buf.length then .ok (none, rest) else parseLoop fuel rest
        else
          match parseFrame buf (maxNestingDepth + 2) 0 0 with
          | .ok (frame, n) =>
              if maxBufferedFrameBytes < n then
                fail (.protocol
                  s!"frame length {n} exceeds buffered limit {maxBufferedFrameBytes}")
              else do
                let rest ← advance buf n
                .ok (some frame, rest)
          | .error (.error .incomplete) => .ok (none, buf)
          | .error e => .error e

def parse (buf : Bytes) : Run (Option Frame × Bytes) := parseLoop (buf.length + 1) buf

end MiniRedis.IndexedParser
