import MiniRedis.Wire

/-!
# The streaming RESP parser

A cursor over a buffer is represented by the bytes from its position on: every
decision of the source depends on these alone. A successful call returns the
value with the bytes that follow it. Nested arrays recurse on the levels that
are left below the nesting limit, so level `maxNestingDepth + 1` is depth 0.
-/
namespace MiniRedis.Parser
open Numeral Wire

def maxArrayLen : ℕ := 1024 * 1024
def maxNestingDepth : ℕ := 128
def maxLineLen : ℕ := 1024 * 1024

inductive Error where
  | incomplete
  | protocol (message : String)
deriving Repr, DecidableEq

def readU8 : Bytes → Except Error (UInt8 × Bytes)
  | [] => .error .incomplete
  | b :: c => .ok (b, c)

/-- The bytes before the first CR LF and the bytes after it. -/
def findCrlf : Bytes → Option (Bytes × Bytes)
  | [] => none
  | b :: c =>
      if b = 13 ∧ c.head? = some 10 then some ([], c.tail)
      else (findCrlf c).map fun p => (b :: p.1, p.2)

/-- The bytes before the first LF and the bytes after it. -/
def findLf : Bytes → Option (Bytes × Bytes)
  | [] => none
  | b :: c => if b = 10 then some ([], c) else (findLf c).map fun p => (b :: p.1, p.2)

def lineTooLong : Error := .protocol s!"line length exceeds limit {maxLineLen}"

def readLine (c : Bytes) : Except Error (Bytes × Bytes) :=
  match findCrlf c with
  | some line => .ok line
  | none => if maxLineLen < c.length then .error lineTooLong else .error .incomplete

def readLineString (c : Bytes) : Except Error (String × Bytes) := do
  let (line, c) ← readLine c
  match fromUtf8 line with
  | some s => .ok (s, c)
  | none => .error (.protocol "invalid utf8 in line")

def readLineInt (c : Bytes) : Except Error (Int64 × Bytes) := do
  let (line, c) ← readLine c
  match readI64 line with
  | some n => .ok (n, c)
  | none => .error (.protocol "invalid integer")

def parseBulk (c : Bytes) : Except Error (Frame × Bytes) := do
  let (len, c) ← readLineInt c
  if len.toInt = -1 then .ok (.null, c)
  else if len.toInt < 0 then .error (.protocol "negative bulk len")
  else
    let len := len.toInt.toNat
    if maxBulkLen < len then
      .error (.protocol s!"bulk length {len} exceeds limit {maxBulkLen}")
    else if ¬ (respBulkLen len).any (· ≤ maxBufferedFrameBytes) then
      .error (.protocol s!"bulk frame length exceeds buffered limit {maxBufferedFrameBytes}")
    else if c.length < len + 2 then .error .incomplete
    else
      let bytes := c.take len
      let (cr, c) ← readU8 (c.drop len)
      if cr ≠ 13 then .error (.protocol "missing CRLF after bulk")
      else
        let (lf, c) ← readU8 c
        if lf ≠ 10 then .error (.protocol "missing CRLF after bulk")
        else .ok (.bulk bytes, c)

/-- The loop of `parse_array` over the declared number of elements. -/
def parseItems (frame : Bytes → Except Error (Frame × Bytes)) :
    ℕ → Bytes → Except Error (List Frame × Bytes)
  | 0, c => .ok ([], c)
  | count + 1, c => do
      let (item, c) ← frame c
      let (items, c) ← parseItems frame count c
      .ok (item :: items, c)

def parseArray (frame : Bytes → Except Error (Frame × Bytes)) (c : Bytes) :
    Except Error (Frame × Bytes) := do
  let (count, c) ← readLineInt c
  if count.toInt = -1 then .ok (.nullArray, c)
  else if count.toInt < 0 then .error (.protocol "negative array len")
  else
    let count := count.toInt.toNat
    if maxArrayLen < count then
      .error (.protocol s!"array length {count} exceeds limit {maxArrayLen}")
    else
      let (items, c) ← parseItems frame count c
      .ok (.array items, c)

/-- The `{:02x}` form of a byte. -/
def hexByte (b : UInt8) : String :=
  String.ofList [Nat.digitChar (b.toNat / 16), Nat.digitChar (b.toNat % 16)]

def parseFrame : ℕ → Bytes → Except Error (Frame × Bytes)
  | 0, _ => .error (.protocol s!"array nesting depth exceeds limit {maxNestingDepth}")
  | levels + 1, c => do
      let (tag, c) ← readU8 c
      if tag = 43 then
        let (s, c) ← readLineString c
        .ok (.simple s, c)
      else if tag = 45 then
        let (s, c) ← readLineString c
        .ok (.error s, c)
      else if tag = 58 then
        let (n, c) ← readLineInt c
        .ok (.integer n, c)
      else if tag = 36 then parseBulk c
      else if tag = 42 then parseArray (parseFrame levels) c
      else .error (.protocol s!"invalid type byte: 0x{hexByte tag}")

/-! ## Inline commands -/

def isInlineSpace (b : UInt8) : Bool := b = 32 || b = 9

def hexValue (b : UInt8) : Option UInt8 :=
  if 48 ≤ b ∧ b ≤ 57 then some (b - 48)
  else if 97 ≤ b ∧ b ≤ 102 then some (b - 97 + 10)
  else if 65 ≤ b ∧ b ≤ 70 then some (b - 65 + 10)
  else none

def unterminatedEscape : Error :=
  .protocol "unterminated escape sequence in inline request"

/-- The byte of a one-letter escape; all but the quoted text's own letters stand for themselves. -/
def unescape (quote escaped : UInt8) : UInt8 :=
  if quote ≠ 34 then escaped
  else if escaped = 110 then 10
  else if escaped = 114 then 13
  else if escaped = 116 then 9
  else if escaped = 98 then 8
  else if escaped = 97 then 7
  else escaped

def readInlineQuoted (quote : UInt8) : Bytes → Bytes → Except Error (Bytes × Bytes)
  | [], _ => .error (.protocol "unbalanced quotes in inline request")
  | byte :: line, out =>
      if byte = quote then .ok (out, line)
      else if byte ≠ 92 then readInlineQuoted quote line (out ++ [byte])
      else match line with
        | [] => .error unterminatedEscape
        | escaped :: high :: low :: line =>
            if escaped = 120 ∧ quote = 34 then
              match hexValue high, hexValue low with
              | some h, some l => readInlineQuoted quote line (out ++ [h <<< 4 ||| l])
              | _, _ => readInlineQuoted quote (high :: low :: line) (out ++ [escaped])
            else readInlineQuoted quote (high :: low :: line) (out ++ [unescape quote escaped])
        | escaped :: line => readInlineQuoted quote line (out ++ [unescape quote escaped])

/-- One argument, up to a space outside quotes. Every turn takes a byte of the line. -/
def readInlineArg : ℕ → Bytes → Bytes → Except Error (Bytes × Bytes)
  | 0, line, arg => .ok (arg, line)
  | _ + 1, [], arg => .ok (arg, [])
  | fuel + 1, b :: line, arg =>
      if isInlineSpace b then .ok (arg, b :: line)
      else if b = 39 ∨ b = 34 then do
        let (arg, line) ← readInlineQuoted b line arg
        readInlineArg fuel line arg
      else if b = 92 then
        match line with
        | [] => .error unterminatedEscape
        | escaped :: line => readInlineArg fuel line (arg ++ [escaped])
      else readInlineArg fuel line (arg ++ [b])

def splitInlineArgsLoop : ℕ → Bytes → Except Error (List Bytes)
  | 0, _ => .ok []
  | fuel + 1, line =>
      match line.dropWhile isInlineSpace with
      | [] => .ok []
      | line => do
          let (arg, line) ← readInlineArg line.length line []
          let args ← splitInlineArgsLoop fuel line
          .ok (arg :: args)

def splitInlineArgs (line : Bytes) : Except Error (List Bytes) :=
  splitInlineArgsLoop (line.length + 1) line

def inlineFrame (line : Bytes) : Except Error (Option Frame) := do
  let args ← splitInlineArgs line
  if args.isEmpty then .ok none
  else .ok (some (.array (args.map .bulk)))

/-- `line` without one trailing CR. -/
def stripCr (line : Bytes) : Bytes := if line.getLast? = some 13 then line.dropLast else line

def parseInline (buf : Bytes) : Except Error (Option Frame × Bytes) :=
  match findLf buf with
  | none => if maxLineLen < buf.length then .error lineTooLong else .ok (none, buf)
  | some (line, rest) =>
      if maxLineLen < line.length then .error lineTooLong
      else do
        let frame ← inlineFrame (stripCr line)
        .ok (frame, rest)

def isRespType (byte : UInt8) : Bool :=
  byte = 43 || byte = 45 || byte = 58 || byte = 36 || byte = 42

/-- The loop of `parse`: it turns again only after a blank line, which is not empty. -/
def parseLoop : ℕ → Bytes → Except Error (Option Frame × Bytes)
  | 0, buf => .ok (none, buf)
  | _ + 1, [] => .ok (none, [])
  | fuel + 1, b :: buf =>
      if ¬ isRespType b then
        match parseInline (b :: buf) with
        | .error e => .error e
        | .ok (some frame, rest) => .ok (some frame, rest)
        | .ok (none, rest) =>
            if rest.length = (b :: buf).length then .ok (none, rest) else parseLoop fuel rest
      else
        match parseFrame (maxNestingDepth + 1) (b :: buf) with
        | .ok (frame, rest) =>
            let n := (b :: buf).length - rest.length
            if maxBufferedFrameBytes < n then
              .error (.protocol
                s!"frame length {n} exceeds buffered limit {maxBufferedFrameBytes}")
            else .ok (some frame, rest)
        | .error .incomplete => .ok (none, b :: buf)
        | .error e => .error e

def parse (buf : Bytes) : Except Error (Option Frame × Bytes) := parseLoop (buf.length + 1) buf

end MiniRedis.Parser
