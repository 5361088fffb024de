import EightBitAsm.CommandLine.Arguments
import EightBitAsm.CommandLine.Report

/-!
Systems: files and a place to print, as a program finds them. A job is a sequence of steps on a
system that ends with its first report; what its steps did before the report stays done. The same
job runs on the real system and on any model of one.
-/

namespace EightBitAsm.CommandLine

inductive FileFault where
  | notFound
  | notAFolder
  | isAFolder
  | nameTooLong
  | denied
  | notText
  | other (text : String)
  deriving DecidableEq, Repr

def FileFault.message : FileFault → String
  | notFound => "No such file or directory (os error 2)"
  | notAFolder => "Not a directory (os error 20)"
  | isAFolder => "Is a directory (os error 21)"
  | nameTooLong => "File name too long (os error 36)"
  | denied => "Permission denied (os error 13)"
  | notText => "stream did not contain valid UTF-8"
  | other text => text

def decodeText (content : List UInt8) : Except FileFault String :=
  match String.fromUTF8? ⟨content.toArray⟩ with
  | some text => .ok text
  | none => .error .notText

def encodeText (text : String) : List UInt8 :=
  text.toUTF8.data.toList

/-- Paths are given as texts, and files are read and written whole. -/
structure System (m : Type → Type) where
  read : String → m (Except FileFault (List UInt8))
  write : String → List UInt8 → m (Except FileFault Unit)
  print : String → m Unit

abbrev Job (m : Type → Type) (α : Type) := ExceptT Report m α

namespace System

variable {m : Type → Type} [Monad m] (sys : System m)

/-- Reads a file as text; the path is part of the message if that fails. -/
def readText (path : String) : Job m String := do
  match (← sys.read path).bind decodeText with
  | .ok text => return text
  | .error fault => throw { message := "reading " ++ path, causes := [fault.message] }

def writeFile (path : String) (content : List UInt8) (report : Report → Report) :
    Job m Unit := do
  match ← sys.write path content with
  | .ok () => return ()
  | .error fault => throw (report { message := fault.message })

def printText (text : String) : Job m Unit :=
  sys.print text

end System

inductive Exit where
  | success
  | failure
  | usage
  deriving DecidableEq, Repr

def Exit.code : Exit → Nat
  | success => 0
  | failure => 1
  | usage => 2

structure Outcome (φ : Type) where
  exit : Exit
  output : String
  errors : String
  files : φ
  deriving DecidableEq, Repr

def Outcome.stopped {φ : Type} (files : φ) (version usage : String) : Stop → Outcome φ
  | .version => ⟨.success, version ++ "\n", "", files⟩
  | .help => ⟨.success, usage ++ "\n", "", files⟩
  | .usage => ⟨.usage, "", usage ++ "\n", files⟩

/-- Files as states: what reading gives in a state, and the state that writing leaves, also where it
fails. -/
structure FileSystem (φ : Type) where
  read : φ → String → Except FileFault (List UInt8)
  write : φ → String → List UInt8 → Except FileFault Unit × φ
  /-- The empty path leads nowhere. -/
  read_empty : ∀ files, ∃ fault, read files "" = .error fault

structure Console (φ : Type) where
  files : φ
  output : String

namespace FileSystem

variable {φ : Type} (fs : FileSystem φ)

def system : System (StateM (Console φ)) where
  read path := do
    return fs.read (← get).files path
  write path content := do
    let (result, files) := fs.write (← get).files path content
    modify ({ · with files })
    return result
  print text := modify fun console => { console with output := console.output ++ text }

end FileSystem

def Outcome.ofJob {φ : Type} (job : Job (StateM (Console φ)) Unit) (files : φ) : Outcome φ :=
  match job.run ⟨files, ""⟩ with
  | (.ok (), console) => ⟨.success, console.output, "", console.files⟩
  | (.error report, console) => ⟨.failure, console.output, report.render, console.files⟩

end EightBitAsm.CommandLine
