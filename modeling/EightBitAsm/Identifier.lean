import EightBitAsm.Text.Numeral

/-!
Identifiers name labels and variables: ASCII letters, digits, `_` and `-`, with no digit in front.
An identifier is therefore never read as a number literal.
-/

namespace EightBitAsm

namespace Identifier

def isPart (c : Char) : Bool :=
  c.isAlphanum || c == '_' || c == '-'

def isValidChars : List Char → Bool
  | [] => false
  | c :: cs => !Text.isDigit c && (c :: cs).all isPart

def isValid (text : String) : Bool :=
  isValidChars text.toList

end Identifier

end EightBitAsm
