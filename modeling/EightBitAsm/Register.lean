import EightBitAsm.Text.Numeral

/-!
Register operands: `R` and one hexadecimal digit, `@` in front for indirect addressing, and a sign
on one side for a change before or after use.
-/

namespace EightBitAsm

inductive Addressing where
  | direct
  | indirect
  deriving DecidableEq, Repr

inductive Change where
  | unchanged
  | preIncrement
  | preDecrement
  | postIncrement
  | postDecrement
  deriving DecidableEq, Repr

structure RegisterOperand where
  number : Nat
  addressing : Addressing
  change : Change
  deriving DecidableEq, Repr

def Change.isChange (c : Change) : Bool :=
  c != .unchanged

namespace RegisterOperand

def isDirect (r : RegisterOperand) : Bool :=
  r.addressing == .direct

def leadingChange : List Char → Change × List Char
  | '+' :: cs => (.preIncrement, cs)
  | '-' :: cs => (.preDecrement, cs)
  | cs => (.unchanged, cs)

def leadingAddressing : List Char → Addressing × List Char
  | '@' :: cs => (.indirect, cs)
  | cs => (.direct, cs)

/-- The change of an operand with sign `lead` in front and the given text behind its digit. Only one
side may carry a sign. -/
def finalChange? (lead : Change) : List Char → Option Change
  | [] => some lead
  | ['+'] => if lead = .unchanged then some .postIncrement else none
  | ['-'] => if lead = .unchanged then some .postDecrement else none
  | _ => none

def ofChars? (cs : List Char) : Option RegisterOperand :=
  let (lead, cs) := leadingChange cs
  let (addressing, cs) := leadingAddressing cs
  match cs with
  | r :: d :: rest =>
    if r = 'R' ∨ r = 'r' then do
      let number ← Text.digitValue? 16 d
      let change ← finalChange? lead rest
      some { number, addressing, change }
    else none
  | _ => none

/-- Texts outside two to four bytes are refused before they are read. -/
def parse? (text : String) : Option RegisterOperand :=
  if 2 ≤ text.utf8ByteSize ∧ text.utf8ByteSize ≤ 4 then ofChars? text.toList else none

end RegisterOperand

end EightBitAsm
