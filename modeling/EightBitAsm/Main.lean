import EightBitAsm.CommandLine.Assembler
import EightBitAsm.CommandLine.Encoder

/-!
The two programs on the real file system. The first argument picks the program; the rest of the
command line is read by the pure part, and its job is carried out here.
-/

namespace EightBitAsm.CommandLine

/-- The number by which the system knows a fault. Some calls report it below zero. -/
def systemCode (code : UInt32) : UInt32 :=
  if code < 0x80000000 then code else 0 - code

def faultOfCode (code : UInt32) (error : IO.Error) : FileFault :=
  match (systemCode code).toNat with
  | 2 => .notFound
  | 13 => .denied
  | 20 => .notAFolder
  | 21 => .isAFolder
  | 36 => .nameTooLong
  | _ => .other error.toString

def faultOf (error : IO.Error) : FileFault :=
  match error with
  | .noFileOrDirectory _ code _ => faultOfCode code error
  | .permissionDenied _ code _ => faultOfCode code error
  | .inappropriateType _ code _ => faultOfCode code error
  | .invalidArgument _ code _ => faultOfCode code error
  | _ => .other error.toString

def realSystem : System IO where
  read path := do
    try
      let content ← IO.FS.readBinFile path
      return .ok content.data.toList
    catch error => return .error (faultOf error)
  write path content := do
    try
      IO.FS.writeBinFile path ⟨content.toArray⟩
      return .ok ()
    catch error => return .error (faultOf error)
  print := IO.print

def exitWith (exit : Exit) : UInt32 :=
  UInt32.ofNat exit.code

def finish (job : Job IO Unit) : IO UInt32 := do
  match ← job.run with
  | .ok () => return exitWith .success
  | .error report =>
    IO.eprint report.render
    return exitWith .failure

def stopWith (version usage : String) (stop : Stop) : IO UInt32 := do
  let outcome := Outcome.stopped () version usage stop
  IO.print outcome.output
  IO.eprint outcome.errors
  return exitWith outcome.exit

def runAssembler (tokens : List String) : IO UInt32 := do
  match Assembler.readRequest tokens with
  | .error stop => stopWith Assembler.version Assembler.usage stop
  | .ok request => finish (request.perform realSystem)

def runEncoder (tokens : List String) : IO UInt32 := do
  match Encoder.readRequest tokens with
  | .error stop => stopWith Encoder.version Encoder.usage stop
  | .ok request => finish (request.perform realSystem)

end EightBitAsm.CommandLine

def main (arguments : List String) : IO UInt32 := do
  match arguments with
  | "asm" :: tokens => EightBitAsm.CommandLine.runAssembler tokens
  | "encode" :: tokens => EightBitAsm.CommandLine.runEncoder tokens
  | _ =>
    IO.eprintln "usage: asm ARGUMENTS or encode ARGUMENTS"
    return 2
