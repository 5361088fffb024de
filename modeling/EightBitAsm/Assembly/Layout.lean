import EightBitAsm.MnemonicTable
import EightBitAsm.Source.Line

/-!
Layout, the first pass over a program: the address of every label, the value of every variable and
the size of the whole. Labels may be used before they are defined, so an instruction is sized with
every label taken as zero; its size does not depend on them.
-/

namespace EightBitAsm

inductive AssembleError where
  | source (error : SourceError)
  | duplicateLabel (line : Nat) (name : String)
  | encoding (diagnostic : Diagnostic)
  | tooLarge (size capacity : Nat)
  deriving DecidableEq, Repr

namespace AssembleError

def message : AssembleError → String
  | source error => error.message
  | duplicateLabel line name => atLine line ("label `" ++ name ++ "` is already defined")
  | encoding diagnostic => diagnostic.message
  | tooLarge size capacity =>
    "program needs " ++ Text.decimal size ++ " bytes, memory holds " ++ Text.decimal capacity

/-- The line of an error. A program that is too large has none. -/
def line? : AssembleError → Option Nat
  | source error => some error.line
  | duplicateLabel line _ => some line
  | encoding diagnostic => some diagnostic.line
  | tooLarge .. => none

def cause? : AssembleError → Option String
  | encoding diagnostic => diagnostic.fault.cause?
  | _ => none

end AssembleError

def Scope.sizing (line : Nat) (widths : Widths) (vars : Symbols) : Scope where
  line := line
  widths := widths
  find
    | .short, name => .ok (vars.find? name)
    | .far, _ => .ok (some 0)

/-- The environment in which instructions are sized: it counts the bytes and keeps none. -/
structure Sizing where
  line : Nat
  widths : Widths
  vars : Symbols
  emitted : Nat

namespace Sizing

def scope (s : Sizing) : Scope :=
  .sizing s.line s.widths s.vars

def environment : Environment Sizing where
  scope := scope
  emitByte _ s := { s with emitted := s.emitted + 1 }

end Sizing

structure Layout where
  labels : Symbols
  vars : Symbols
  size : Nat
  deriving DecidableEq, Repr

namespace Layout

def empty : Layout := ⟨.empty, .empty, 0⟩

def scope (layout : Layout) (widths : Widths) (line : Line) : Scope :=
  .sizing line.number widths layout.vars

/-- A label gets the current size as its address, modulo 2^32. -/
def addLabel (layout : Layout) (line : Line) : Except AssembleError Layout :=
  match line.label with
  | none => .ok layout
  | some name =>
    if layout.labels.contains name then .error (.duplicateLabel line.number name)
    else .ok { layout with labels := layout.labels.insert name (UInt32.ofNat layout.size) }

/-- A declaration may use the variables declared before it, and an instruction adds its size. -/
def addStatement (table : MnemonicTable) (widths : Widths) (layout : Layout) (line : Line) :
    Except AssembleError Layout :=
  match line.statement with
  | none => .ok layout
  | some (.declaration name value) =>
    match (layout.scope widths line).resolve .short value with
    | .ok target => .ok { layout with vars := layout.vars.insert name target.address }
    | .error diagnostic => .error (.encoding diagnostic)
  | some (.instruction mnemonic operands) =>
    match table.emit Sizing.environment mnemonic operands
        ⟨line.number, widths, layout.vars, 0⟩ with
    | .ok _ sized => .ok { layout with size := layout.size + sized.emitted }
    | .error diagnostic _ => .error (.encoding diagnostic)

def addLine (table : MnemonicTable) (widths : Widths) (layout : Layout) (line : Line) :
    Except AssembleError Layout := do
  let labelled ← layout.addLabel line
  labelled.addStatement table widths line

def addLines (table : MnemonicTable) (widths : Widths) (layout : Layout) :
    List Line → Except AssembleError Layout
  | [] => .ok layout
  | line :: lines => do
    let next ← layout.addLine table widths line
    next.addLines table widths lines

def ofLines (table : MnemonicTable) (widths : Widths) (lines : List Line) :
    Except AssembleError Layout :=
  empty.addLines table widths lines

def checkSize (layout : Layout) (widths : Widths) : Except AssembleError Unit :=
  if layout.size ≤ widths.capacity then .ok ()
  else .error (.tooLarge layout.size widths.capacity)

end Layout

end EightBitAsm
