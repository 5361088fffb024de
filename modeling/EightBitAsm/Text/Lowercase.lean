/-!
Lower case of the ASCII letters. Every other character stays as it is.
-/

namespace EightBitAsm.Text

def lowerChars (cs : List Char) : List Char :=
  cs.map Char.toLower

def lowercase (text : String) : String :=
  String.ofList (lowerChars text.toList)

end EightBitAsm.Text
