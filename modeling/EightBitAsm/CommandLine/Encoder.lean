import EightBitAsm.CommandLine.Config
import EightBitAsm.InstructionSet
import EightBitAsm.Session
import EightBitAsm.Text.Blank

/-!
The encoder's command line: one instruction, with labels given as options, printed as bytes.
-/

namespace EightBitAsm.CommandLine.Encoder

structure Request where
  config : Option String
  labels : List String
  mnemonic : String
  operands : List String
  deriving DecidableEq, Repr

def grammar : Grammar where
  options := [
    { name := "config", kind := .path },
    { name := "label", letter := some 'l', kind := .text, repeatable := true }]
  positional := [.text]
  further := some .text
  versioned := true

def readRequest (tokens : List String) : Except Stop Request := do
  let a ← grammar.read tokens
  match a.positional with
  | [] => .error .usage
  | mnemonic :: operands =>
    .ok { config := a.option? "config", labels := a.optionAll "label", mnemonic, operands }

def readLabel (definition : String) : Except Report (String × UInt32) :=
  match Text.cut? '=' definition.toList with
  | none => .error { message := "expected NAME=ADDR, got `" ++ definition ++ "`" }
  | some (name, address) => match Literal.read (String.ofList (Text.trim address)) with
    | .ok address => .ok (String.ofList (Text.trim name), address)
    | .error error => .error { message := error.message }

/-- Adds definitions in order; a later one of the same name wins. -/
def defineLabels (labels : Symbols) : List String → Except Report Symbols
  | [] => .ok labels
  | definition :: definitions => do
    let (name, address) ← readLabel definition
    defineLabels (labels.insert name address) definitions

def hexLine (bytes : List UInt8) : String :=
  Text.joinWith " " (bytes.map fun b => Text.hex 2 b.toNat) ++ "\n"

/-- The instruction counts as line one. -/
def Request.perform {m : Type → Type} [Monad m] (sys : System m) (request : Request) :
    Job m Unit := do
  let widths ← sys.readConfig request.config fun _ => id
  let labels ← liftExcept (defineLabels .empty request.labels)
  let session : Session := ⟨1, widths, labels, .empty, []⟩
  match session.encode InstructionSet.table request.mnemonic request.operands with
  | (session, .ok _) => sys.printText (hexLine session.bytes)
  | (_, .error d) => throw { message := d.message, causes := d.fault.cause?.toList }

def version : String := "vn8-rs 0.1.0"

def usage : String :=
  "usage: vn8-encode [--config FILE] [--label NAME=ADDR]... MNEMONIC [OPERAND]..."

def run {φ : Type} (fs : FileSystem φ) (tokens : List String) (files : φ) : Outcome φ :=
  match readRequest tokens with
  | .ok request => .ofJob (request.perform fs.system) files
  | .error stop => .stopped files version usage stop

end EightBitAsm.CommandLine.Encoder
