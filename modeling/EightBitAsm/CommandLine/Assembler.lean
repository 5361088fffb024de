import EightBitAsm.Assembly.Listing
import EightBitAsm.CommandLine.Config
import EightBitAsm.InstructionSet

/-!
The assembler's command line: build an image, print a listing, or print the mnemonics.
-/

namespace EightBitAsm.CommandLine.Assembler

inductive Format where
  | text
  | json
  deriving DecidableEq, Repr

inductive Command where
  | build (input output : String)
  | list (input : String) (format : Format) (labelsOut out : Option String)
  | mnemonics
  deriving DecidableEq, Repr

structure Request where
  config : Option String
  farBits : Option Nat
  shortBits : Option Nat
  command : Command
  deriving DecidableEq, Repr

/-! ### Reading the arguments -/

def grammar : Grammar where
  options := [
    { name := "config", kind := .path },
    { name := "far-bits", kind := .number },
    { name := "short-bits", kind := .number }]
  commands := ["build", "list", "mnemonics", "help"]
  versioned := true

def buildGrammar : Grammar where
  options := [{ name := "output", letter := some 'o', kind := .path }]
  positional := [.path]

def listGrammar : Grammar where
  options := [
    { name := "format", kind := .oneOf ["text", "json"] },
    { name := "labels-out", kind := .path },
    { name := "out", kind := .path }]
  positional := [.path]

def mnemonicsGrammar : Grammar where
  options := []

def readBuild (tokens : List String) : Except Stop Command := do
  let a ← buildGrammar.read tokens
  match a.positional, a.option? "output" with
  | [input], some output => .ok (.build input output)
  | _, _ => .error .usage

def readList (tokens : List String) : Except Stop Command := do
  let a ← listGrammar.read tokens
  let format := if a.option? "format" = some "json" then .json else .text
  match a.positional with
  | [input] => .ok (.list input format (a.option? "labels-out") (a.option? "out"))
  | _ => .error .usage

def readMnemonics (tokens : List String) : Except Stop Command := do
  let _ ← mnemonicsGrammar.read tokens
  return .mnemonics

/-- Help may be asked for one command, of which none has commands of its own. -/
def readHelp : List String → Stop
  | [] => .help
  | [name] => if grammar.commands.contains name then .help else .usage
  | _ => .usage

def readCommand (name : String) (tokens : List String) : Except Stop Command :=
  if name = "build" then readBuild tokens
  else if name = "list" then readList tokens
  else if name = "mnemonics" then readMnemonics tokens
  else .error (readHelp tokens)

def readRequest (tokens : List String) : Except Stop Request := do
  let a ← grammar.read tokens
  match a.command with
  | none => .error .usage
  | some (name, rest) =>
    let command ← readCommand name rest
    return {
      config := a.option? "config"
      farBits := (a.option? "far-bits").bind readNumber?
      shortBits := (a.option? "short-bits").bind readNumber?
      command }

/-! ### Carrying out a request -/

def assembleReport (input : String) (error : AssembleError) : Report :=
  Report.within input { message := error.message, causes := error.cause?.toList }

def rendered (assembly : Assembly) : Format → String
  | .text => assembly.render
  | .json => (Json.ofAssembly assembly).pretty 0

def labelsDocument (assembly : Assembly) : String :=
  (Json.ofLabels assembly.labelsByAddress).pretty 0

section Jobs

variable {m : Type → Type} [Monad m] (sys : System m)

def loadWidths (request : Request) : Job m Widths := do
  let base ← sys.readConfig request.config fun path => Report.within ("parsing " ++ path)
  let widths : Widths := {
    shortBits := request.shortBits.getD base.shortBits
    farBits := request.farBits.getD base.farBits }
  if widths.farBits ≤ 32 then return widths
  else throw { message := "far address width is limited to 32 bits" }

def assembleFile (widths : Widths) (input : String) : Job m Assembly := do
  let text ← sys.readText input
  match assemble InstructionSet.table widths text with
  | .ok assembly => return assembly
  | .error error => throw (assembleReport input error)

def writeImage (assembly : Assembly) (output : String) : Job m Unit := do
  sys.writeFile output assembly.bytes (Report.within ("writing " ++ output))
  sys.printText (Text.decimal assembly.bytes.length ++ " bytes -> " ++ output ++ "\n")

/-- The labels are written before the listing. A line feed ends a JSON document that is printed. -/
def writeListing (assembly : Assembly) (format : Format) (labelsOut out : Option String) :
    Job m Unit := do
  if let some path := labelsOut then
    sys.writeFile path (encodeText (labelsDocument assembly)) id
  match out with
  | some path => sys.writeFile path (encodeText (rendered assembly format)) id
  | none =>
    sys.printText (rendered assembly format)
    if format = .json then
      sys.printText "\n"

def printMnemonics (table : MnemonicTable) : List String → Job m Unit
  | [] => return ()
  | mnemonic :: mnemonics => do
    match table.lookup? mnemonic with
    | none => throw { message := "table lookup" }
    | some i =>
      sys.printText (String.ofList (Text.padRight 8 ' ' mnemonic.toList) ++ " " ++
        i.encoding.family.name ++ "\n")
      printMnemonics table mnemonics

def Request.perform (request : Request) : Job m Unit := do
  let widths ← loadWidths sys request
  match request.command with
  | .build input output => do
    let assembly ← assembleFile sys widths input
    writeImage sys assembly output
  | .list input format labelsOut out => do
    let assembly ← assembleFile sys widths input
    writeListing sys assembly format labelsOut out
  | .mnemonics => printMnemonics sys InstructionSet.table InstructionSet.table.mnemonics

end Jobs

def version : String := "vn8-asm 0.1.0"

def usage : String :=
  "usage: vn8-asm [--config FILE] [--far-bits N] [--short-bits N] COMMAND\n" ++
  "commands:\n" ++
  "  build INPUT --output FILE\n" ++
  "  list INPUT [--format text|json] [--labels-out FILE] [--out FILE]\n" ++
  "  mnemonics"

def run {φ : Type} (fs : FileSystem φ) (tokens : List String) (files : φ) : Outcome φ :=
  match readRequest tokens with
  | .ok request => .ofJob (request.perform fs.system) files
  | .error stop => .stopped files version usage stop

end EightBitAsm.CommandLine.Assembler
