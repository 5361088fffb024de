import EightBitAsm.Source.Line

/-!
Programs: the lines of a source text, numbered from one. The first line that cannot be read decides
the error.
-/

namespace EightBitAsm.Program

def parseLines (number : Nat) : List (List Char) → Except SourceError (List Line)
  | [] => .ok []
  | raw :: rest => do
    let line ← Line.parseChars number raw
    let lines ← parseLines (number + 1) rest
    return line :: lines

def parse (text : String) : Except SourceError (List Line) :=
  parseLines 1 (Text.lines text.toList)

end EightBitAsm.Program
