import EightBitAsm.Tags

/-!
Instruction words: a high byte and a low byte. An address is packed bit by bit, the low eight bits
into the low byte and all further ones into the high byte, where bits from sixteen on fall on
positions already written.
-/

namespace EightBitAsm

/-- The byte with bit `i mod 8` set to `value`. -/
def withBit (byte : UInt8) (i : Nat) (value : Bool) : UInt8 :=
  if value then byte ||| (1 <<< UInt8.ofNat i) else byte &&& ~~~(1 <<< UInt8.ofNat i)

structure Word where
  high : UInt8
  low : UInt8
  deriving DecidableEq, Repr

namespace Word

def zero : Word := ⟨0, 0⟩

def placeBit (w : Word) (i : Nat) (value : Bool) : Word :=
  if i < 8 then { w with low := withBit w.low i value }
  else { w with high := withBit w.high (i % 8) value }

/-- Writes the low `bits` bits of an address onto the word, lowest first, at most 32 of them. -/
def pack (w : Word) (address : UInt32) (bits : Nat) : Word :=
  (List.range (min bits 32)).foldl (fun w i => w.placeBit i (address.toNat.testBit i)) w

def ofAddress (address : UInt32) (bits : Nat) : Word :=
  zero.pack address bits

def tag (w : Word) (tags : Tags) : Word :=
  { w with high := w.high ||| tags.bits }

/-- Puts the two low bits of a register number over bits 5 and 6 of the high byte. -/
def selectRegister (w : Word) (number : Nat) : Word :=
  { w with high := withBit (withBit w.high 5 (number.testBit 0)) 6 (number.testBit 1) }

end Word

end EightBitAsm
