import EightBitAsm.Json.Reader
import EightBitAsm.Widths

/-!
Address widths as JSON: a record with the fields `short_bits` and `far_bits`, or a list of up to two
numbers in that order. What is left out has its default; unknown fields are skipped; a known field
may stand only once.
-/

namespace EightBitAsm.Json

structure WidthFields where
  shortBits : Option Nat := none
  farBits : Option Nat := none
  deriving DecidableEq, Repr

def WidthFields.widths (f : WidthFields) : Widths where
  shortBits := f.shortBits.getD ({} : Widths).shortBits
  farBits := f.farBits.getD ({} : Widths).farBits

def shortName : String := "short_bits"

def farName : String := "far_bits"

def readColon (cs : List Char) : Except Failure (List Char) :=
  match skipSpace cs with
  | [] => .error .truncated
  | ':' :: rest => .ok rest
  | _ => .error .malformed

/-- Reads the value of a field. A repetition is refused before its value is looked at. -/
def readField (fields : WidthFields) (name : String) (cs : List Char) :
    Except Failure (WidthFields × List Char) :=
  if name = shortName then
    if fields.shortBits.isSome then .error .mismatched
    else do
      let (n, rest) ← readUnsigned (← readColon cs)
      return ({ fields with shortBits := some n }, rest)
  else if name = farName then
    if fields.farBits.isSome then .error .mismatched
    else do
      let (n, rest) ← readUnsigned (← readColon cs)
      return ({ fields with farBits := some n }, rest)
  else do
    let rest ← skip (← readColon cs)
    return (fields, rest)

/-- Reads members up to the end of the record, behind the opening quote of the first of their
names. -/
def readMembers : Nat → WidthFields → List Char → Except Failure (WidthFields × List Char)
  | 0, _, _ => .error .truncated
  | fuel + 1, fields, cs => do
    let (name, rest) ← readString none cs
    let (fields, rest) ← readField fields (String.ofList name) rest
    match skipSpace rest with
    | [] => .error .truncated
    | '\x7d' :: rest => .ok (fields, rest)
    | ',' :: rest => match skipSpace rest with
      | [] => .error .truncated
      | '"' :: rest => readMembers fuel fields rest
      | _ => .error .malformed
    | _ => .error .malformed

def readRecord (cs : List Char) : Except Failure (WidthFields × List Char) :=
  match skipSpace cs with
  | [] => .error .truncated
  | '\x7d' :: rest => .ok ({}, rest)
  | '"' :: rest => readMembers (rest.length + 1) {} rest
  | _ => .error .malformed

def readListEnd (fields : WidthFields) (cs : List Char) :
    Except Failure (WidthFields × List Char) :=
  match skipSpace cs with
  | [] => .error .truncated
  | ']' :: rest => .ok (fields, rest)
  | _ => .error .malformed

def readList (cs : List Char) : Except Failure (WidthFields × List Char) :=
  match skipSpace cs with
  | [] => .error .truncated
  | ']' :: rest => .ok ({}, rest)
  | first => do
    let (short, rest) ← readUnsigned first
    match skipSpace rest with
    | [] => .error .truncated
    | ',' :: rest => match skipSpace rest with
      | [] => .error .truncated
      | ']' :: _ => .error .malformed
      | second =>
        let (far, rest) ← readUnsigned second
        readListEnd ⟨some short, some far⟩ rest
    | rest => readListEnd ⟨some short, none⟩ rest

def readWidths (text : String) : Except Failure Widths := do
  let (fields, rest) ← match skipSpace text.toList with
    | '[' :: cs => readList cs
    | '\x7b' :: cs => readRecord cs
    | cs => .error (wrongKind cs)
  finish fields.widths rest

def renderWidths (w : Widths) : String :=
  "\x7b\"" ++ shortName ++ "\":" ++ Text.decimal w.shortBits ++ ",\"" ++ farName ++ "\":" ++
    Text.decimal w.farBits ++ "\x7d"

end EightBitAsm.Json
