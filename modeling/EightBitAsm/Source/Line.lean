import EightBitAsm.Diagnostic
import EightBitAsm.Identifier
import EightBitAsm.Text.Blank
import EightBitAsm.Text.Lowercase
import EightBitAsm.Text.Split

/-!
Source lines: an optional label, then an instruction, a variable declaration or nothing, then a
comment after `;`.
-/

namespace EightBitAsm

inductive Statement where
  | instruction (mnemonic : String) (operands : List String)
  | declaration (name value : String)
  deriving DecidableEq, Repr

structure Line where
  number : Nat
  label : Option String
  statement : Option Statement
  /-- The line without its comment and without blanks around it. -/
  text : String
  deriving DecidableEq, Repr

inductive SourceFault where
  | badLabel (name : String)
  | badVariable (name : String)
  deriving DecidableEq, Repr

structure SourceError where
  line : Nat
  fault : SourceFault
  deriving DecidableEq, Repr

def SourceError.message (e : SourceError) : String :=
  atLine e.line <| match e.fault with
    | .badLabel name => "invalid label name `" ++ name ++ "`"
    | .badVariable name => "invalid variable name `" ++ name ++ "`"

namespace Statement

def isSeparator (c : Char) : Bool :=
  c == ',' || Text.isBlank c

/-- The first word, in ASCII lower case, is the mnemonic and the others are the operands. -/
def ofWords (cs : List Char) : Statement :=
  match Text.words isSeparator cs with
  | [] => .instruction "" []
  | w :: ws => .instruction (String.ofList (Text.lowerChars w)) (ws.map String.ofList)

def parse (cs : List Char) : Except SourceFault (Option Statement) :=
  if cs.isEmpty then .ok none
  else match Text.cut? '=' cs with
    | none => .ok (some (ofWords cs))
    | some (head, tail) =>
      let name := Text.trim head
      if Identifier.isValidChars name then
        .ok (some (.declaration (String.ofList name) (String.ofList (Text.trim tail))))
      else .error (.badVariable (String.ofList name))

end Statement

namespace Line

def code (raw : List Char) : List Char :=
  Text.trim (Text.upTo ';' raw)

def splitLabel (cs : List Char) : Except SourceFault (Option String × List Char) :=
  match Text.cut? ':' cs with
  | none => .ok (none, cs)
  | some (head, tail) =>
    let name := Text.trim head
    if Identifier.isValidChars name then .ok (some (String.ofList name), Text.trim tail)
    else .error (.badLabel (String.ofList name))

def parseCode (number : Nat) (cs : List Char) : Except SourceFault Line := do
  let (label, rest) ← splitLabel cs
  let statement ← Statement.parse rest
  return { number, label, statement, text := String.ofList cs }

def parseChars (number : Nat) (raw : List Char) : Except SourceError Line :=
  match parseCode number (code raw) with
  | .ok line => .ok line
  | .error fault => .error ⟨number, fault⟩

def parse (number : Nat) (raw : String) : Except SourceError Line :=
  parseChars number raw.toList

end Line

end EightBitAsm
