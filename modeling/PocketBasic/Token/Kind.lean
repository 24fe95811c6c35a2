/-! Kinds of tokens, and the marks that are tokens by themselves. -/

namespace PocketBasic

inductive Symbol where
  | plus
  | minus
  | multiply
  | divide
  | power
  | equal
  | less
  | greater
  | lessEqual
  | greaterEqual
  | notEqual
  | leftParen
  | rightParen
  | comma
  | semicolon
  | colon
  | hash
deriving DecidableEq, Repr

namespace Symbol

def ofPair? : Char → Char → Option Symbol
  | '<', '=' => some lessEqual
  | '<', '>' => some notEqual
  | '>', '=' => some greaterEqual
  | _, _ => none

def ofChar? : Char → Option Symbol
  | '+' => some plus
  | '-' => some minus
  | '*' => some multiply
  | '/' => some divide
  | '^' => some power
  | '=' => some equal
  | '<' => some less
  | '>' => some greater
  | '(' => some leftParen
  | ')' => some rightParen
  | ',' => some comma
  | ';' => some semicolon
  | ':' => some colon
  | '#' => some hash
  | _ => none

def name : Symbol → String
  | plus => "Plus"
  | minus => "Minus"
  | multiply => "Multiply"
  | divide => "Divide"
  | power => "Power"
  | equal => "Equal"
  | less => "Less"
  | greater => "Greater"
  | lessEqual => "LessEqual"
  | greaterEqual => "GreaterEqual"
  | notEqual => "NotEqual"
  | leftParen => "LeftParen"
  | rightParen => "RightParen"
  | comma => "Comma"
  | semicolon => "Semicolon"
  | colon => "Colon"
  | hash => "Hash"

end Symbol

inductive Token.Kind where
  | keyword
  | lineNumber
  | number
  | string
  /-- A variable, or a character that is nothing else. -/
  | identifier
  | comment
  | symbol (symbol : Symbol)
  | newline
  /-- The blanks of a text that holds nothing else. -/
  | blank
deriving DecidableEq, Repr

namespace Token.Kind

def name : Kind → String
  | keyword => "Keyword"
  | lineNumber => "LineNumber"
  | number => "Number"
  | string => "Str"
  | identifier => "Identifier"
  | comment => "Comment"
  | symbol s => s.name
  | newline => "Newline"
  | blank => "Whitespace"

/-- Whether the token compares its neighbours. A lone `=` does not count, because it may assign. -/
def isComparison : Kind → Bool
  | symbol .less | symbol .greater | symbol .lessEqual | symbol .greaterEqual
  | symbol .notEqual => true
  | _ => false

/-- Whether a comparison next to the token is set off from it. -/
def isOperand : Kind → Bool
  | identifier | keyword | string | number | symbol .rightParen => true
  | _ => false

end Token.Kind

end PocketBasic
