import PocketBasic.Error

/-! Line endings: the three ways in which a listing marks the end of a line. -/

namespace PocketBasic

inductive LineEnding where
  | crlf
  | cr
  | lf
deriving DecidableEq, Repr

namespace LineEnding

/-- The convention of the host, which runs Windows or another system. -/
def platform (windows : Bool) : LineEnding :=
  if windows then crlf else lf

def text : LineEnding → List Char
  | crlf => ['\r', '\n']
  | cr => ['\r']
  | lf => ['\n']

/-- The convention of a name. One of the names stands for that of the host. -/
def ofName (windows : Bool) (name : String) : Except Error LineEnding :=
  match name with
  | "crlf" => .ok crlf
  | "cr" => .ok cr
  | "lf" => .ok lf
  | "platform" => .ok (platform windows)
  | _ => .error (.unknownSelector name)

/-- The convention of a name on a host that does not run Windows. -/
def ofSelector (name : String) : Except Error LineEnding :=
  ofName false name

/-- The convention of the first terminator in a text. A carriage return that a line feed follows
is one terminator with it. -/
def detect? : List Char → Option LineEnding
  | [] => none
  | '\r' :: '\n' :: _ => some crlf
  | '\r' :: _ => some cr
  | '\n' :: _ => some lf
  | _ :: rest => detect? rest

end LineEnding

def isTerminator (c : Char) : Bool :=
  c == '\r' || c == '\n'

end PocketBasic
