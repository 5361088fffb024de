import EightBitAsm.Text.Numeral

/-!
Number literals: decimal digits, `0x` with hexadecimal digits or `0b` with binary digits, no sign,
and a value below 2^32.
-/

namespace EightBitAsm

inductive LiteralFault where
  | malformed
  | tooLarge
  deriving DecidableEq, Repr

structure LiteralError where
  text : String
  fault : LiteralFault
  deriving DecidableEq, Repr

def LiteralError.message (e : LiteralError) : String :=
  match e.fault with
  | .malformed => "malformed number literal `" ++ e.text ++ "`"
  | .tooLarge => "number literal `" ++ e.text ++ "` is too large"

namespace Literal

/-- Reads digits from left to right onto the value so far. The first character that is no digit, or
the first digit that takes the value to 2^32, decides the failure. -/
def readDigits (radix : Nat) (value : Nat) : List Char → Except LiteralFault Nat
  | [] => .ok value
  | c :: cs => match Text.digitValue? radix c with
    | none => .error .malformed
    | some d =>
      let next := value * radix + d
      if next < UInt32.size then readDigits radix next cs else .error .tooLarge

def radixAndDigits : List Char → Nat × List Char
  | '0' :: 'x' :: ds => (16, ds)
  | '0' :: 'b' :: ds => (2, ds)
  | ds => (10, ds)

def readChars (cs : List Char) : Except LiteralFault Nat :=
  match radixAndDigits cs with
  | (_, []) => .error .malformed
  | (radix, ds) => readDigits radix 0 ds

def read (text : String) : Except LiteralError UInt32 :=
  match readChars text.toList with
  | .ok n => .ok (UInt32.ofNat n)
  | .error fault => .error ⟨text, fault⟩

end Literal

end EightBitAsm
