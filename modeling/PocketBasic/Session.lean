import PocketBasic.Listing.Canonical
import PocketBasic.Listing.Compact
import PocketBasic.Settings
import PocketBasic.Token.Basic

/-! Sessions: a text that is worked on step by step, with the settings and the line ending that
the steps use. -/

namespace PocketBasic

structure Session where
  text : List Char
  settings : Settings
  /-- The line ending of a text without a terminator. -/
  ending : LineEnding
deriving DecidableEq, Repr

namespace Session

inductive Step where
  | reformat
  | compact
  | fold
  | retokenize
  | append (text : List Char)
  | prepend (text : List Char)
  | convert (ending : LineEnding)
  | useEnding (ending : LineEnding)
  /-- Takes over settings together with their line ending. -/
  | useSettings (settings : Settings)
deriving DecidableEq, Repr

def start (text : List Char) (settings : Settings) : Session :=
  ⟨text, settings, settings.ending⟩

def program (session : Session) : Program :=
  .split session.text session.ending

def tokens (session : Session) : List Token :=
  Token.tokenize session.settings.table session.text

def step (session : Session) : Step → Session
  | .reformat =>
    { session with text := PocketBasic.reformat session.settings.table session.ending session.text }
  | .compact =>
    { session with text := PocketBasic.compact session.settings.table session.ending session.text }
  | .fold => { session with text := Folding.text (Folding.fold session.text) }
  | .retokenize => { session with text := session.tokens.flatMap fun token => token.text }
  | .append text => { session with text := session.text ++ text }
  | .prepend text => { session with text := text ++ session.text }
  | .convert ending => { session with text := { session.program with ending }.join }
  | .useEnding ending => { session with ending }
  | .useSettings settings => { session with settings, ending := settings.ending }

/-- The spellings that a step keeps as they were typed. -/
def keptBy (session : Session) : Step → List (List Char)
  | .reformat => keptSpellings session.settings.table session.text
  | _ => []

end Session

end PocketBasic
