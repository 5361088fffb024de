import EightBitAsm.Text.Numeral
import EightBitAsm.Text.Split

/-!
Reports: how a failed run explains itself, from the outermost message down to the deepest cause.
-/

namespace EightBitAsm.CommandLine

structure Report where
  message : String
  causes : List String := []
  deriving DecidableEq, Repr

namespace Report

def within (context : String) (r : Report) : Report :=
  ⟨context, r.message :: r.causes⟩

/-- The lines of a text after the first start at the given margin. -/
def hang (margin : String) (text : String) : String :=
  Text.joinWith ("\n" ++ margin) ((Text.pieces (· == '\n') text.toList).map String.ofList)

/-- A single cause has no number. -/
def renderCauses : List String → List String
  | [cause] => ["    " ++ hang "    " cause]
  | causes => causes.mapIdx fun i cause =>
    Text.decimalField 5 i ++ ": " ++ hang "       " cause

def render (r : Report) : String :=
  if r.causes.isEmpty then "Error: " ++ r.message ++ "\n"
  else "Error: " ++ r.message ++ "\n\nCaused by:\n" ++
    Text.joinWith "\n" (renderCauses r.causes) ++ "\n"

end Report

end EightBitAsm.CommandLine
