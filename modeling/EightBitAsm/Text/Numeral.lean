/-!
Digits and numerals: the value of a digit character, numbers in decimal and in lower-case
hexadecimal, and padding to a width.
-/

namespace EightBitAsm.Text

/-- The value of a digit in the given radix, letters standing for ten and up in either case. -/
def digitValue? (radix : Nat) (c : Char) : Option Nat :=
  let value? :=
    if '0' ≤ c ∧ c ≤ '9' then some (c.toNat - '0'.toNat)
    else if 'a' ≤ c ∧ c ≤ 'z' then some (c.toNat - 'a'.toNat + 10)
    else if 'A' ≤ c ∧ c ≤ 'Z' then some (c.toNat - 'A'.toNat + 10)
    else none
  value?.filter (· < radix)

def isDigit (c : Char) : Bool :=
  '0' ≤ c && c ≤ '9'

def padLeft (width : Nat) (fill : Char) (cs : List Char) : List Char :=
  List.replicate (width - cs.length) fill ++ cs

def padRight (width : Nat) (fill : Char) (cs : List Char) : List Char :=
  cs ++ List.replicate (width - cs.length) fill

def decimal (n : Nat) : String :=
  String.ofList (Nat.toDigits 10 n)

def hexDigits (width n : Nat) : List Char :=
  padLeft width '0' (Nat.toDigits 16 n)

def hex (width n : Nat) : String :=
  String.ofList (hexDigits width n)

def markedHex (width n : Nat) : String :=
  "0x" ++ hex width n

def decimalField (width n : Nat) : String :=
  String.ofList (padLeft width ' ' (Nat.toDigits 10 n))

end EightBitAsm.Text
