import EightBitAsm.Json.Reader
import EightBitAsm.Json.Value
import EightBitAsm.Tags

/-!
Tag sets as JSON: a string that holds the written form of the set.
-/

namespace EightBitAsm.Json

def readTags (text : String) : Except Failure Tags :=
  match skipSpace text.toList with
  | '"' :: cs => do
    let (content, rest) ← readString none cs
    match Tags.parse? (String.ofList content) with
    | none => .error .mismatched
    | some tags => finish tags rest
  | cs => .error (wrongKind cs)

def renderTags (tags : Tags) : String :=
  quote tags.render

end EightBitAsm.Json
