import EightBitAsm.Literal
import EightBitAsm.Text.Uppercase
import EightBitAsm.Widths

/-!
What can be wrong with one instruction or one operand. A fault is the cause alone; a diagnostic adds
the line on which it was met.
-/

namespace EightBitAsm

inductive Fault where
  | operandCount (mnemonic : String) (expected : Nat)
  | notARegister
  | registerChange
  | registerIndirect
  | registerNumber
  | missingAddress
  | malformedAddress (error : LiteralError)
  | addressTooLarge (max : Nat)
  | undefinedSymbol (domain : Domain) (name : String)
  /-- The surroundings could not answer a look-up. -/
  | lookupFailed (reason : String)
  | unknownMnemonic (mnemonic : String)
  deriving DecidableEq, Repr

inductive FaultKind where
  | argumentCount
  | operandKind
  | operandConstraint
  | range
  | numberFormat
  | undefinedSymbol
  | unexpected
  | unknownMnemonic
  deriving DecidableEq, Repr

namespace Fault

def kind : Fault → FaultKind
  | operandCount .. => .argumentCount
  | notARegister => .operandKind
  | registerChange | registerIndirect | registerNumber => .operandConstraint
  | missingAddress | malformedAddress _ => .numberFormat
  | addressTooLarge _ => .range
  | undefinedSymbol .. => .undefinedSymbol
  | lookupFailed _ => .unexpected
  | unknownMnemonic _ => .unknownMnemonic

def operandCountText : Nat → String
  | 0 => "no operands"
  | 1 => "exactly 1 operand"
  | n => "exactly " ++ Text.decimal n ++ " operands"

def message : Fault → String
  | operandCount mnemonic expected =>
    Text.uppercase mnemonic ++ " takes " ++ operandCountText expected
  | notARegister => "first operand must be a register"
  | registerChange => "register increment/decrement is not allowed here"
  | registerIndirect => "indirect addressing is not allowed here"
  | registerNumber => "only registers R0-R3 are allowed here"
  | missingAddress => "missing address"
  | malformedAddress error => "invalid address `" ++ error.text ++ "`"
  | addressTooLarge max => "address must not exceed " ++ Text.decimal max
  | undefinedSymbol domain name => domain.noun ++ " `" ++ name ++ "` is not defined"
  | lookupFailed _ => "unexpected error while resolving symbol"
  | unknownMnemonic mnemonic => "unknown mnemonic `" ++ mnemonic ++ "`"

def cause? : Fault → Option String
  | malformedAddress error => some error.message
  | lookupFailed reason => some reason
  | _ => none

end Fault

structure Diagnostic where
  line : Nat
  fault : Fault
  deriving DecidableEq, Repr

def atLine (line : Nat) (text : String) : String :=
  "line " ++ Text.decimal line ++ ": " ++ text

def Diagnostic.message (d : Diagnostic) : String :=
  atLine d.line d.fault.message

end EightBitAsm
