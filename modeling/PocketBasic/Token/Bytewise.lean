import PocketBasic.Text.Bytes
import PocketBasic.Token.Basic

/-! Scanning bytes. A scanner that runs on the bytes of a text looks at them by index and cuts the
text at offsets. Both may fail: an index may be out of range, and an offset may fall inside of a
character. So each function here gives nothing when one of its accesses fails, and the loop gives
nothing when a turn does not advance. -/

namespace PocketBasic.Token.Bytewise

open Text (bytes byteLength slice?)

/-! ### Looking at bytes -/

/-- The second condition where the first holds. It is not looked at otherwise. -/
def andThen? (first : Bool) (second : Option Bool) : Option Bool :=
  if first then second else some false

def test? (p : Char → Bool) (bs : List UInt8) (i : Nat) : Option Bool :=
  andThen? (i < bs.length) (bs[i]?.map fun byte => p (Char.ofUInt8 byte))

def advance? (p : Char → Bool) (bs : List UInt8) (i : Nat) : Option Nat :=
  if i < bs.length then do
    let byte ← bs[i]?
    if p (Char.ofUInt8 byte) then advance? p bs (i + 1) else some i
  else some i
termination_by bs.length - i

def endOfLine? : List UInt8 → Nat → Option Nat :=
  advance? fun c => !isTerminator c

def endOfFraction? (bs : List UInt8) (i : Nat) : Option Nat := do
  if ← test? (· == '.') bs i then advance? Char.isDigit bs (i + 1) else some i

def endOfExponent? (bs : List UInt8) (i : Nat) : Option Nat := do
  if ← test? (· == 'E') bs i then
    let signed ← test? (fun c => c == '+' || c == '-') bs (i + 1)
    let j := if signed then i + 2 else i + 1
    if ← test? Char.isDigit bs j then advance? Char.isDigit bs j else some i
  else some i

def endOfNumber? (bs : List UInt8) (i : Nat) : Option Nat := do
  let i ← advance? Char.isDigit bs i
  let i ← endOfFraction? bs i
  endOfExponent? bs i

/-- The end of the string whose opening quote stands right before the index. -/
def endOfString? (bs : List UInt8) (i : Nat) : Option Nat :=
  if i < bs.length then do
    let byte ← bs[i]?
    if Char.ofUInt8 byte = '"' then some (i + 1)
    else if isTerminator (Char.ofUInt8 byte) then some i
    else endOfString? bs (i + 1)
  else some i
termination_by bs.length - i

def startsRem? (bs : List UInt8) (i : Nat) : Option Bool :=
  if i ≤ bs.length then some ((bytes remWord).isPrefixOf (bs.drop i)) else none

/-- The index of the first `REM` from `i` on that starts before `window`, or else the end. -/
def nextRem? (bs : List UInt8) (window i : Nat) : Option Nat :=
  if i < window then do
    if ← startsRem? bs i then some i else nextRem? bs window (i + 1)
  else some bs.length
termination_by window - i

/-- The length of the keyword at the index, if there is one. It is looked for in front of the next
`REM`. -/
def matchKeyword? (table : Keyword.Table) (text : List Char) (i : Nat) : Option (Option Nat) := do
  let window := min (byteLength text) (i + table.longestSpelling)
  let limit ← nextRem? (bytes text) window (i + 1)
  let front ← slice? text i limit
  return (table.longestMatch? front).map fun spelling => byteLength spelling.text

/-! ### The loop -/

structure Span where
  kind : Kind
  start : Nat
  stop : Nat
deriving DecidableEq, Repr

def Span.ofToken (token : Token) : Span :=
  ⟨token.kind, token.start, token.stop⟩

structure Turn where
  spans : List Span
  lineStart : Bool
  next : Nat
deriving DecidableEq, Repr

def Turn.one (kind : Kind) (start stop : Nat) : Turn :=
  ⟨[⟨kind, start, stop⟩], false, stop⟩

/-- A turn at a byte that starts a mark or a name, read as `c`. A byte that starts nothing is read
together with the other bytes of its character. -/
def markOrName? (text : List Char) (c : Char) (i : Nat) : Option Turn :=
  let next := (bytes text)[i + 1]?.map Char.ofUInt8
  match Symbol.ofChar? c with
  | some symbol =>
    match next.bind (Symbol.ofPair? c) with
    | some pair => some (.one (.symbol pair) i (i + 2))
    | none => some (.one (.symbol symbol) i (i + 1))
  | none =>
    if c.isAlpha then some (.one .identifier i (if next == some '$' then i + 2 else i + 1))
    else
      (slice? text i (byteLength text)).map fun rest =>
        .one .identifier i (i + rest.head?.elim 1 Char.utf8Size)

def turn? (table : Keyword.Table) (text : List Char) (lineStart : Bool) (i : Nat) :
    Option Turn := do
  let bs := bytes text
  let c := Char.ofUInt8 (← bs[i]?)
  if isTerminator c then
    let pair ← andThen? (c == '\r') (test? (· == '\n') bs (i + 1))
    let stop := if pair then i + 2 else i + 1
    return ⟨[⟨.newline, i, stop⟩], true, stop⟩
  else if c.isDigit && lineStart then
    return .one .lineNumber i (← advance? Char.isDigit bs i)
  else
    let fraction ← andThen? (c == '.') (test? Char.isDigit bs (i + 1))
    if c.isDigit || fraction then
      return .one .number i (← endOfNumber? bs i)
    else if c = '"' then
      return .one .string i (← endOfString? bs (i + 1))
    else if c = '\'' then
      return .one .comment i (← endOfLine? bs i)
    else if ← startsRem? bs i then
      let stop ← endOfLine? bs (i + 3)
      let comment := if i + 3 < stop then [⟨.comment, i + 3, stop⟩] else []
      return ⟨⟨.keyword, i, i + 3⟩ :: comment, false, stop⟩
    else
      match ← matchKeyword? table text i with
      | some length => return .one .keyword i (i + length)
      | none => markOrName? text c i

/-- The loop from an index on. Gives the spans and the index at which the loop ends. -/
def scanFrom? (table : Keyword.Table) (text : List Char) (lineStart : Bool) (i : Nat) :
    Option (List Span × Nat) :=
  if i < byteLength text then do
    let turn ← turn? table text lineStart i
    if i < turn.next then
      let (spans, stop) ← scanFrom? table text turn.lineStart turn.next
      return (turn.spans ++ spans, stop)
    else none
  else some ([], i)
termination_by byteLength text - i

def scan? (table : Keyword.Table) (text : List Char) : Option (List Span × Nat) :=
  scanFrom? table text true 0

/-! ### Tokens -/

/-- Where a span ends in the text that was folded: just after the last of its bytes. -/
def stopOf? (origin : List Nat) : Nat → Option Nat
  | 0 => none
  | stop + 1 => origin[stop]?.map (· + 1)

/-- The tokens of the spans of a folded text. They follow each other from `start` to `finish` in the
text that was folded. -/
def place? (folded : List Char) (origin : List Nat) (finish start : Nat) :
    List Span → Option (List Token)
  | [] => some []
  | span :: spans => do
    let stop ← if spans.isEmpty then some finish else stopOf? origin span.stop
    let text ← slice? folded span.start span.stop
    let tokens ← place? folded origin finish stop spans
    return ⟨⟨span.kind, text⟩, start, stop⟩ :: tokens

def tokenize? (table : Keyword.Table) (text : List Char) : Option (List Token) := do
  let marks := Folding.fold text
  let folded := Folding.text marks
  let (spans, _) ← scan? table folded
  let tokens ← place? folded (Folding.origin marks) (byteLength text) 0 spans
  return if tokens.isEmpty && text != [] then [⟨⟨.blank, text⟩, 0, byteLength text⟩] else tokens

end PocketBasic.Token.Bytewise
