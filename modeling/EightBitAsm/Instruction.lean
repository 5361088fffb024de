import EightBitAsm.Environment
import EightBitAsm.Register
import EightBitAsm.Result

/-!
Instructions: a mnemonic and the way its operands become bytes. Encoding looks at the operands from
left to right and emits nothing unless all of them are sound.
-/

namespace EightBitAsm

inductive Encoding where
  | implied (opcode : UInt8)
  | cycleJump
  /-- An address under a condition; the set includes the branch bit. -/
  | branch (condition : Tags)
  /-- An address under a tag; some leave the low byte out. -/
  | control (tag : Tags) (emitLow : Bool)
  deriving DecidableEq, Repr

inductive Family where
  | noOperand
  | cycle
  | branch
  | control
  deriving DecidableEq, Repr

def Family.name : Family → String
  | noOperand => "NoOperand"
  | cycle => "Cycle"
  | branch => "Branch"
  | control => "Control"

namespace Encoding

def family : Encoding → Family
  | implied _ => .noOperand
  | cycleJump => .cycle
  | branch _ => .branch
  | control .. => .control

end Encoding

structure Instruction where
  mnemonic : String
  encoding : Encoding
  deriving DecidableEq, Repr

structure Emission where
  instruction : Instruction
  target : Option Target
  bytes : List UInt8
  deriving DecidableEq, Repr

/-- What comes of an encoder that starts with an empty tape. -/
def Emission.collect (emitter : Emitter Tape Emission) (scope : Scope) :
    Except Diagnostic Emission :=
  match emitter ⟨scope, []⟩ with
  | .ok emission tape => .ok { emission with bytes := tape.bytes }
  | .error diagnostic _ => .error diagnostic

namespace Instruction

def cycleRegister (scope : Scope) (text : String) : Except Diagnostic Nat :=
  match RegisterOperand.parse? text with
  | none => scope.fail .notARegister
  | some r =>
    if r.change.isChange then scope.fail .registerChange
    else if !r.isDirect then scope.fail .registerIndirect
    else if r.number > 3 then scope.fail .registerNumber
    else .ok r.number

def addressWord (scope : Scope) (address : UInt32) (tags : Tags) : Word :=
  (Word.ofAddress address scope.widths.farBits).tag tags

def cycleWord (scope : Scope) (register : Nat) (address : UInt32) : Word :=
  ((Word.ofAddress address scope.widths.farBits).selectRegister register).tag .cycle

section Families

variable {σ : Type} (env : Environment σ) (i : Instruction)

def emitImplied (opcode : UInt8) : List String → Emitter σ Emission
  | [] => do
    -- The zero byte precedes the code, unlike in the families with an address.
    env.emit 0
    env.emit opcode
    return ⟨i, none, [0, opcode]⟩
  | _ => env.ask (·.fail (.operandCount i.mnemonic 0))

def emitCycle : List String → Emitter σ Emission
  | [register, address] => do
    let n ← env.ask (cycleRegister · register)
    let target ← env.ask (·.resolve .far address)
    let w ← env.ask fun scope => .ok (cycleWord scope n target.address)
    let bytes ← env.emitWord w true
    return ⟨i, some target, bytes⟩
  | _ => env.ask (·.fail (.operandCount i.mnemonic 2))

/-- Branches and controls: a tag over an address. -/
def emitTagged (tags : Tags) (emitLow : Bool) : List String → Emitter σ Emission
  | [address] => do
    let target ← env.ask (·.resolve .far address)
    let w ← env.ask fun scope => .ok (addressWord scope target.address tags)
    let bytes ← env.emitWord w emitLow
    return ⟨i, some target, bytes⟩
  | _ => env.ask (·.fail (.operandCount i.mnemonic 1))

def emit (operands : List String) : Emitter σ Emission :=
  match i.encoding with
  | .implied opcode => i.emitImplied env opcode operands
  | .cycleJump => i.emitCycle env operands
  | .branch condition => i.emitTagged env condition true operands
  | .control tag emitLow => i.emitTagged env tag emitLow operands

end Families

/-- The outcome of an instruction in a scope, with the bytes that reach the tape. -/
def encode (i : Instruction) (operands : List String) (scope : Scope) :
    Except Diagnostic Emission :=
  Emission.collect (i.emit .tape operands) scope

end Instruction

end EightBitAsm
