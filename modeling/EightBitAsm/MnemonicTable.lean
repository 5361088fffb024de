import EightBitAsm.Instruction
import EightBitAsm.Text.Lowercase

/-!
Mnemonic tables: instructions merged from families, each mnemonic once. A look-up takes a mnemonic
as it is spelled, and failing that in ASCII lower case.
-/

namespace EightBitAsm

structure DuplicateMnemonic where
  mnemonic : String
  deriving DecidableEq, Repr

def DuplicateMnemonic.message (d : DuplicateMnemonic) : String :=
  "mnemonic `" ++ d.mnemonic ++ "` registered twice"

structure MnemonicTable where
  encodings : NameMap Encoding
  deriving DecidableEq, Repr

namespace MnemonicTable

def empty : MnemonicTable := ⟨.empty⟩

def insert (table : MnemonicTable) (i : Instruction) : Except DuplicateMnemonic MnemonicTable :=
  if table.encodings.contains i.mnemonic then .error ⟨i.mnemonic⟩
  else .ok ⟨table.encodings.insert i.mnemonic i.encoding⟩

/-- Adds instructions in order, up to the first whose mnemonic is taken. -/
def insertAll (table : MnemonicTable) : List Instruction → Except DuplicateMnemonic MnemonicTable
  | [] => .ok table
  | i :: is => match table.insert i with
    | .ok next => next.insertAll is
    | .error duplicate => .error duplicate

def ofFamilies (families : List (List Instruction)) : Except DuplicateMnemonic MnemonicTable :=
  empty.insertAll families.flatten

def size (table : MnemonicTable) : Nat :=
  table.encodings.size

def sortMnemonics (keys : List String) : List String :=
  keys.mergeSort (· ≤ ·)

def mnemonics (table : MnemonicTable) : List String :=
  sortMnemonics table.encodings.names

def lookupExact? (table : MnemonicTable) (mnemonic : String) : Option Instruction :=
  (table.encodings.find? mnemonic).map fun encoding => ⟨mnemonic, encoding⟩

def lookup? (table : MnemonicTable) (mnemonic : String) : Option Instruction :=
  (table.lookupExact? mnemonic).or (table.lookupExact? (Text.lowercase mnemonic))

def emit {σ : Type} (table : MnemonicTable) (env : Environment σ) (mnemonic : String)
    (operands : List String) : Emitter σ Emission :=
  match table.lookup? mnemonic with
  | some i => i.emit env operands
  | none => env.ask (·.fail (.unknownMnemonic mnemonic))

def encode (table : MnemonicTable) (mnemonic : String) (operands : List String)
    (scope : Scope) : Except Diagnostic Emission :=
  Emission.collect (table.emit .tape mnemonic operands) scope

end MnemonicTable

end EightBitAsm
