import EightBitAsm.Diagnostic
import EightBitAsm.NameMap

/-!
The surroundings of an instruction: its line, the address widths, and the names in sight. An address
operand is a number literal if it starts with a digit and a name otherwise, so the two readings
never compete.
-/

namespace EightBitAsm

abbrev Symbols := NameMap UInt32

structure Scope where
  line : Nat
  widths : Widths
  /-- The address of a name, nothing if the name is not defined, or the reason why the question has
  no answer. -/
  find : Domain → String → Except String (Option UInt32)

inductive Target where
  | literal (address : UInt32)
  | symbol (domain : Domain) (name : String) (address : UInt32)
  deriving DecidableEq, Repr

def Target.address : Target → UInt32
  | literal address => address
  | symbol _ _ address => address

namespace Scope

def ofSymbols (line : Nat) (widths : Widths) (labels vars : Symbols) : Scope where
  line := line
  widths := widths
  find
    | .short, name => .ok (vars.find? name)
    | .far, name => .ok (labels.find? name)

def failing (line : Nat) (reason : String) : Scope where
  line := line
  widths := {}
  find _ _ := .error reason

def fail {α : Type} (scope : Scope) (fault : Fault) : Except Diagnostic α :=
  .error ⟨scope.line, fault⟩

def resolveLiteral (scope : Scope) (domain : Domain) (text : String) :
    Except Diagnostic Target :=
  match Literal.read text with
  | .ok address =>
    if address.toNat ≤ scope.widths.max domain then .ok (.literal address)
    else scope.fail (.addressTooLarge (scope.widths.max domain))
  | .error error => match error.fault with
    | .tooLarge => scope.fail (.addressTooLarge (scope.widths.max domain))
    | .malformed => scope.fail (.malformedAddress error)

def resolveSymbol (scope : Scope) (domain : Domain) (name : String) :
    Except Diagnostic Target :=
  match scope.find domain name with
  | .ok (some address) => .ok (.symbol domain name address)
  | .ok none => scope.fail (.undefinedSymbol domain name)
  | .error reason => scope.fail (.lookupFailed reason)

/-- The address that an operand stands for. The width bounds literals only: a name has whatever
address it was given. -/
def resolve (scope : Scope) (domain : Domain) (text : String) : Except Diagnostic Target :=
  match text.toList with
  | [] => scope.fail .missingAddress
  | c :: _ =>
    if Text.isDigit c then scope.resolveLiteral domain text
    else scope.resolveSymbol domain text

end Scope

end EightBitAsm
