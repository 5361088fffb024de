import EightBitAsm.CommandLine.System
import EightBitAsm.Json.Widths

/-!
Configuration files hold address widths as JSON.
-/

namespace EightBitAsm.CommandLine

def configMessage : Json.Failure → String
  | .malformed => "the configuration is not valid JSON"
  | .mismatched => "the configuration does not hold address widths"
  | .truncated => "the configuration ends too early"

/-- The widths in a configuration file, or the default ones without a file. The caller says how a
document that holds no widths is reported. -/
def System.readConfig {m : Type → Type} [Monad m] (sys : System m) (path : Option String)
    (report : String → Report → Report) : Job m Widths :=
  match path with
  | none => return {}
  | some path => do
    let text ← sys.readText path
    match Json.readWidths text with
    | .ok widths => return widths
    | .error failure => throw (report path { message := configMessage failure })

end EightBitAsm.CommandLine
