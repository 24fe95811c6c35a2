import PocketBasic.Text.Decimal
import PocketBasic.Token.Basic

/-! Tokens in columns: offsets, kind and text of one token on each line. Colours may tell the kinds
apart. -/

namespace PocketBasic.Cli.Console

def alignRight (width : Nat) (text : List Char) : List Char :=
  List.replicate (width - text.length) ' ' ++ text

def alignLeft (width : Nat) (text : List Char) : List Char :=
  text ++ List.replicate (width - text.length) ' '

def attributes? : Token.Kind → Option String
  | .keyword => some "1;94"
  | .lineNumber => some "95"
  | .number => some "33"
  | .string => some "32"
  | .comment => some "90"
  | .newline | .blank => some "2"
  | .identifier | .symbol _ => none

def turnOn (attributes : String) : List Char :=
  ['\x1b', '['] ++ attributes.toList ++ ['m']

def turnOff : List Char :=
  ['\x1b', '[', '0', 'm']

/-- Turns the attributes on again after each sequence in a text that turns them off. -/
def reopen (on : List Char) : List Char → List Char
  | [] => []
  | '\x1b' :: '[' :: '0' :: 'm' :: rest => turnOff ++ on ++ reopen on rest
  | c :: rest => c :: reopen on rest

def paint (kind : Token.Kind) (text : List Char) : List Char :=
  match attributes? kind with
  | none => text
  | some attributes => turnOn attributes ++ reopen (turnOn attributes) text ++ turnOff

/-- How a character is shown between quotes. -/
def visible (c : Char) : List Char :=
  match c with
  | '\n' => ['\\', 'n']
  | '\r' => ['\\', 'r']
  | '\t' => ['\\', 't']
  | _ => [c]

/-- How the text of a token is shown. Terminators and blanks are made visible. -/
def shown (lexeme : Lexeme) : List Char :=
  match lexeme.kind with
  | .newline | .blank => '"' :: lexeme.text.flatMap visible ++ ['"']
  | _ => lexeme.text

def line (color : Bool) (token : Token) : List Char :=
  let text := shown token.toLexeme
  alignRight 6 (Text.decimal token.start) ++ [' '] ++
    alignRight 6 (Text.decimal token.stop) ++ [' ', ' '] ++
    alignLeft 12 token.kind.name.toList ++ [' '] ++
    (if color then paint token.kind text else text) ++ ['\n']

end PocketBasic.Cli.Console
