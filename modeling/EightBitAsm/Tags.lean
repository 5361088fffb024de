import EightBitAsm.Text.Blank
import EightBitAsm.Text.Numeral
import EightBitAsm.Text.Split

/-!
Tag sets: the bits of a high byte that select an operation. Six bits have names; the others may be
set as well and are then written as a number.
-/

namespace EightBitAsm

structure Tags where
  bits : UInt8
  deriving DecidableEq, Repr

namespace Tags

def empty : Tags := ⟨0⟩
def b2 : Tags := ⟨0x04⟩
def b3 : Tags := ⟨0x08⟩
def b4 : Tags := ⟨0x10⟩
def branch : Tags := ⟨0x20⟩
def control : Tags := ⟨0x40⟩
def cycle : Tags := ⟨0x80⟩

def union (s t : Tags) : Tags := ⟨s.bits ||| t.bits⟩

def isEmpty (s : Tags) : Bool := s.bits == 0

def contains (s t : Tags) : Bool := s.bits &&& t.bits == t.bits

def named : List (String × Tags) :=
  [("B2", b2), ("B3", b3), ("B4", b4), ("BRANCH", branch), ("CONTROL", control), ("CYCLE", cycle)]

def unnamed (s : Tags) : Tags :=
  ⟨named.foldl (fun bits t => bits &&& ~~~t.2.bits) s.bits⟩

/-- The names of the bits that are set, then the other bits as one number; empty for the empty
set. -/
def render (s : Tags) : String :=
  let names := (named.filter fun t => s.contains t.2).map (·.1)
  let others := if s.unnamed.isEmpty then [] else [Text.markedHex 1 s.unnamed.bits.toNat]
  Text.joinWith " | " (names ++ others)

/-- One or more digits, with at most one `+` in front, and a value that fits in a byte. -/
def readByte? (cs : List Char) : Option UInt8 :=
  let digits := match cs with
    | '+' :: ds => ds
    | ds => ds
  if digits.isEmpty then none
  else do
    let values ← digits.mapM (Text.digitValue? 16)
    let n := values.foldl (fun n d => 16 * n + d) 0
    if n < 256 then some (UInt8.ofNat n) else none

def readItem? : List Char → Option Tags
  | '0' :: 'x' :: ds => (readByte? ds).map Tags.mk
  | cs => named.lookup (String.ofList cs)

/-- Items joined by `|`, with blanks around each; an all-blank text is the empty set. -/
def parse? (text : String) : Option Tags :=
  let cs := text.toList
  if (Text.trim cs).isEmpty then some empty
  else do
    let items ← (Text.pieces (· == '|') cs).mapM fun item => readItem? (Text.trim item)
    some (items.foldl union empty)

end Tags

end EightBitAsm
