import EightBitAsm.Scope
import EightBitAsm.Word

/-!
Environments: what stands around an encoder. It finds its line, the address widths and the names in
a scope, and emits its bytes one at a time. Both go through the states of the environment, whatever
these are, and an error leaves the state as it was when the error arose.
-/

namespace EightBitAsm

structure Environment (σ : Type) where
  scope : σ → Scope
  emitByte : UInt8 → σ → σ

abbrev Emitter (σ α : Type) := EStateM Diagnostic σ α

namespace Environment

variable {σ α : Type} (env : Environment σ)

/-- The answer to a question about the present scope, which no answer changes. -/
def ask (question : Scope → Except Diagnostic α) : Emitter σ α := do
  match question (env.scope (← get)) with
  | .ok answer => return answer
  | .error diagnostic => throw diagnostic

def emit (byte : UInt8) : Emitter σ Unit :=
  modify (env.emitByte byte)

def emitWord (w : Word) (emitLow : Bool) : Emitter σ (List UInt8) := do
  env.emit w.high
  if emitLow then
    env.emit w.low
    return [w.high, w.low]
  else
    return [w.high]

end Environment

/-- The plainest state: a scope that stays, and the bytes so far. -/
structure Tape where
  scope : Scope
  bytes : List UInt8

def Environment.tape : Environment Tape where
  scope := Tape.scope
  emitByte byte tape := { tape with bytes := tape.bytes ++ [byte] }

end EightBitAsm
