import EightBitAsm.Text.Numeral

/-!
JSON documents as they are written: fields keep their order, and only what has to be escaped is
escaped.
-/

namespace EightBitAsm.Json

inductive Value where
  | number (n : Nat)
  | text (s : String)
  | list (items : List Value)
  | record (fields : List (String × Value))

def shortEscape? : Char → Option Char
  | '"' => some '"'
  | '\\' => some '\\'
  | '\x08' => some 'b'
  | '\x0c' => some 'f'
  | '\n' => some 'n'
  | '\r' => some 'r'
  | '\t' => some 't'
  | _ => none

def escapeChar (c : Char) : List Char :=
  match shortEscape? c with
  | some e => ['\\', e]
  | none =>
    if c.toNat < 0x20 then '\\' :: 'u' :: Text.hexDigits 4 c.toNat
    else [c]

def quote (s : String) : String :=
  String.ofList ('"' :: s.toList.flatMap escapeChar ++ ['"'])

def indent (depth : Nat) : String :=
  String.ofList (List.replicate (2 * depth) ' ')

namespace Value

mutual

/-- One entry to a line, indented by its depth; an empty list or record stays on its line. -/
def pretty (depth : Nat) : Value → String
  | number n => Text.decimal n
  | text s => quote s
  | list [] => "[]"
  | list (v :: vs) =>
    "[\n" ++ indent (depth + 1) ++ pretty (depth + 1) v ++ prettyItems (depth + 1) vs ++
      "\n" ++ indent depth ++ "]"
  | record [] => "\x7b\x7d"
  | record ((name, v) :: fields) =>
    "\x7b\n" ++ indent (depth + 1) ++ quote name ++ ": " ++ pretty (depth + 1) v ++
      prettyFields (depth + 1) fields ++ "\n" ++ indent depth ++ "\x7d"

def prettyItems (depth : Nat) : List Value → String
  | [] => ""
  | v :: vs => ",\n" ++ indent depth ++ pretty depth v ++ prettyItems depth vs

def prettyFields (depth : Nat) : List (String × Value) → String
  | [] => ""
  | (name, v) :: fields =>
    ",\n" ++ indent depth ++ quote name ++ ": " ++ pretty depth v ++ prettyFields depth fields

end

end Value

end EightBitAsm.Json
