import EightBitAsm.Text.Numeral
import EightBitAsm.Text.Split

/-!
Arguments of a command line, read from left to right against a grammar of options, positional
arguments and commands. Every value is checked where it stands, so a wrong one is noticed before
anything that follows it.
-/

namespace EightBitAsm.CommandLine

inductive ValueKind where
  | path
  | number
  | text
  | oneOf (choices : List String)
  deriving DecidableEq, Repr

/-- Decimal digits behind at most one sign; only zero may be negative. -/
def readNumber? (text : String) : Option Nat :=
  let (negative, digits) := match text.toList with
    | '+' :: ds => (false, ds)
    | '-' :: ds => (true, ds)
    | ds => (false, ds)
  if digits.isEmpty || !digits.all Text.isDigit then none
  else
    let n := digits.foldl (fun n d => 10 * n + (d.toNat - '0'.toNat)) 0
    if n < UInt32.size && !(negative && n != 0) then some n else none

def ValueKind.accepts (kind : ValueKind) (value : String) : Bool :=
  match kind with
  | path => !value.isEmpty
  | number => (readNumber? value).isSome
  | text => true
  | oneOf choices => choices.contains value

structure OptionRule where
  name : String
  letter : Option Char := none
  kind : ValueKind
  repeatable : Bool := false
  deriving DecidableEq, Repr

structure Grammar where
  options : List OptionRule
  positional : List ValueKind := []
  further : Option ValueKind := none
  /-- Words that end these arguments and begin those of a command. -/
  commands : List String := []
  versioned : Bool := false
  deriving DecidableEq, Repr

inductive Stop where
  | usage
  | version
  | help
  deriving DecidableEq, Repr

structure Arguments where
  options : List (String × String) := []
  positional : List String := []
  command : Option (String × List String) := none
  deriving DecidableEq, Repr

namespace Arguments

def option? (a : Arguments) (name : String) : Option String :=
  a.options.lookup name

def optionAll (a : Arguments) (name : String) : List String :=
  (a.options.filter (·.1 = name)).map (·.2)

def addOption (a : Arguments) (rule : OptionRule) (value : String) : Except Stop Arguments :=
  if !rule.kind.accepts value then .error .usage
  else if (a.option? rule.name).isSome && !rule.repeatable then .error .usage
  else .ok { a with options := a.options ++ [(rule.name, value)] }

def addPositional (a : Arguments) (g : Grammar) (value : String) : Except Stop Arguments :=
  match (g.positional[a.positional.length]?).or g.further with
  | none => .error .usage
  | some kind =>
    if kind.accepts value then .ok { a with positional := a.positional ++ [value] }
    else .error .usage

end Arguments

inductive Token where
  | separator
  | long (name : String) (value : Option String)
  | short (letter : Char) (tail : List Char)
  | plain (text : String)
  deriving DecidableEq, Repr

/-- A dash alone is a plain token. -/
def Token.ofString (text : String) : Token :=
  match text.toList with
  | ['-', '-'] => .separator
  | '-' :: '-' :: cs => match Text.cut? '=' cs with
    | some (name, value) => .long (String.ofList name) (some (String.ofList value))
    | none => .long (String.ofList cs) none
  | '-' :: letter :: tail => .short letter tail
  | _ => .plain text

/-- What an option token asks for: a value for a rule, given in the token or in the next one, or an
end of reading. -/
inductive Asked where
  | value (rule : OptionRule) (attached : Option String)
  | stop (reason : Stop)
  deriving DecidableEq, Repr

def Grammar.askedLong (g : Grammar) (name : String) (value : Option String) : Asked :=
  match g.options.find? (·.name = name) with
  | some rule => .value rule value
  | none =>
    if value.isNone && name == "help" then .stop .help
    else if value.isNone && name == "version" && g.versioned then .stop .version
    else .stop .usage

/-- The text behind a letter is its value, without a `=` in front. -/
def attachedValue : List Char → Option String
  | [] => none
  | '=' :: cs => some (String.ofList cs)
  | cs => some (String.ofList cs)

def Grammar.askedShort (g : Grammar) (letter : Char) (tail : List Char) : Asked :=
  match g.options.find? (·.letter = some letter) with
  | some rule => .value rule (attachedValue tail)
  | none =>
    if letter == 'h' then .stop .help
    else if letter == 'V' && g.versioned then .stop .version
    else .stop .usage

def Grammar.asked? (g : Grammar) : Token → Option Asked
  | .long name value => some (g.askedLong name value)
  | .short letter tail => some (g.askedShort letter tail)
  | _ => none

namespace Arguments

def addPositionals (g : Grammar) (a : Arguments) : List String → Except Stop Arguments
  | [] => .ok a
  | token :: tokens => do
    let next ← a.addPositional g token
    next.addPositionals g tokens

/-- Reads tokens onto the arguments so far. The value of an option may be the next token only if
that one is plain. -/
def read (g : Grammar) (a : Arguments) : List String → Except Stop Arguments
  | [] => .ok a
  | token :: tokens => match Token.ofString token with
    | .separator => a.addPositionals g tokens
    | .plain text =>
      if g.commands.contains text then .ok { a with command := some (text, tokens) }
      else do
        let next ← a.addPositional g text
        next.read g tokens
    | other => match g.asked? other with
      | none => .error .usage
      | some (.stop reason) => .error reason
      | some (.value rule (some value)) => do
        let next ← a.addOption rule value
        next.read g tokens
      | some (.value rule none) => match tokens with
        | [] => .error .usage
        | value :: tokens => match Token.ofString value with
          | .plain value => do
            let next ← a.addOption rule value
            next.read g tokens
          | _ => .error .usage

end Arguments

def Grammar.read (g : Grammar) (tokens : List String) : Except Stop Arguments :=
  Arguments.read g {} tokens

end EightBitAsm.CommandLine
