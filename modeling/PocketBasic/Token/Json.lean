import PocketBasic.Json.Basic
import PocketBasic.Token.Basic

/-! Tokens as JSON. -/

namespace PocketBasic.Token

def toJson (token : Token) : Json :=
  .object [
    ("kind".toList, .string token.kind.name.toList),
    ("start".toList, .ofNat token.start),
    ("end".toList, .ofNat token.stop),
    ("text".toList, .string token.text)]

/-- Tokens as the one member of an object. -/
def streamJson (tokens : List Token) : Json :=
  .object [("tokens".toList, .array (tokens.map toJson))]

end PocketBasic.Token
