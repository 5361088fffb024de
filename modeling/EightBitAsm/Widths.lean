/-!
Address widths: how many bits a variable's address and a label's address may take, and the largest
address that fits.
-/

namespace EightBitAsm

/-- The two spaces in which an operand may name an address: variables live in the short one, labels
in the far one. -/
inductive Domain where
  | short
  | far
  deriving DecidableEq, Repr

def Domain.noun : Domain → String
  | .short => "variable"
  | .far => "label"

structure Widths where
  shortBits : Nat := 8
  farBits : Nat := 10
  deriving DecidableEq, Repr, Inhabited

namespace Widths

/-- The largest address of a width. Addresses have at most 32 bits. -/
def maxAddress (bits : Nat) : Nat :=
  (1 <<< min bits 32) - 1

def max (w : Widths) : Domain → Nat
  | .short => maxAddress w.shortBits
  | .far => maxAddress w.farBits

/-- How many bytes a program may take: as many as there are far addresses. -/
def capacity (w : Widths) : Nat :=
  w.max .far + 1

end Widths

end EightBitAsm
