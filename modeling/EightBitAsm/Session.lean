import EightBitAsm.MnemonicTable

/-!
Sessions: a line, address widths, two tables of names and a buffer of emitted bytes, changed one
step at a time.
-/

namespace EightBitAsm

structure Session where
  line : Nat
  widths : Widths
  labels : Symbols
  vars : Symbols
  bytes : List UInt8
  deriving DecidableEq, Repr

namespace Session

inductive Step where
  | setLine (line : Nat)
  | defineLabel (name : String) (address : UInt32)
  | defineVariable (name : String) (address : UInt32)
  | setWidths (widths : Widths)
  | emit (byte : UInt8)
  | encode (mnemonic : String) (operands : List String)
  | resolve (domain : Domain) (text : String)
  | lookup (mnemonic : String)
  | takeBytes
  | symbols
  deriving DecidableEq, Repr

inductive Reply where
  | done
  | encoded (result : Except Diagnostic Emission)
  | resolved (result : Except Diagnostic Target)
  | found (instruction : Option Instruction)
  | taken (bytes : List UInt8)
  | symbols (labels vars : Symbols)
  deriving Repr

def scope (s : Session) : Scope :=
  .ofSymbols s.line s.widths s.labels s.vars

def emitByte (byte : UInt8) (s : Session) : Session :=
  { s with bytes := s.bytes ++ [byte] }

def environment : Environment Session where
  scope := scope
  emitByte := emitByte

def encode (table : MnemonicTable) (s : Session) (mnemonic : String) (operands : List String) :
    Session × Except Diagnostic Emission :=
  match table.emit environment mnemonic operands s with
  | .ok emission next => (next, .ok emission)
  | .error diagnostic next => (next, .error diagnostic)

def takeBytes (s : Session) : List UInt8 × Session :=
  (s.bytes, { s with bytes := [] })

def apply (table : MnemonicTable) (s : Session) : Step → Session × Reply
  | .setLine line => ({ s with line }, .done)
  | .defineLabel name address => ({ s with labels := s.labels.insert name address }, .done)
  | .defineVariable name address =>
    ({ s with vars := s.vars.insert name address }, .done)
  | .setWidths widths => ({ s with widths }, .done)
  | .emit byte => (s.emitByte byte, .done)
  | .encode mnemonic operands =>
    let (next, result) := s.encode table mnemonic operands
    (next, .encoded result)
  | .resolve domain text => (s, .resolved (s.scope.resolve domain text))
  | .lookup mnemonic => (s, .found (table.lookup? mnemonic))
  | .takeBytes =>
    let (bytes, next) := s.takeBytes
    (next, .taken bytes)
  | .symbols => (s, .symbols s.labels s.vars)

def run (table : MnemonicTable) (s : Session) : List Step → List (Session × Reply)
  | [] => []
  | step :: steps =>
    let after := s.apply table step
    after :: after.1.run table steps

end Session

end EightBitAsm
