import EightBitAsm.Assembly.Image
import EightBitAsm.Json.Value

/-!
Listings: an assembly as text, with its bytes in columns and its names in two tables, or as JSON;
and the labels alone, by address.
-/

namespace EightBitAsm

/-- The bytes of a line, a blank behind each, filled up to the width of two of them. -/
def ListingLine.byteColumns (l : ListingLine) : String :=
  String.join (l.bytes.map fun b => Text.hex 2 b.toNat ++ " ") ++
    String.ofList (List.replicate (3 * (2 - min l.bytes.length 2)) ' ')

def ListingLine.render (l : ListingLine) : String :=
  Text.markedHex 4 l.address.toNat ++ ": " ++ l.byteColumns ++ "  " ++
    Text.decimalField 4 l.line ++ " | " ++ l.text ++ "\n"

/-- A table of names under a title, addresses with at least `width` digits; nothing at all without
names. -/
def Symbols.render (title : String) (width : Nat) (symbols : Symbols) : String :=
  if symbols.entries.isEmpty then ""
  else "\n" ++ title ++ ":\n" ++ String.join (symbols.entries.map fun (name, address) =>
    "  " ++ Text.markedHex width address.toNat ++ " " ++ name ++ "\n")

namespace Assembly

def render (a : Assembly) : String :=
  String.join (a.listing.map ListingLine.render) ++
    Symbols.render "Labels" 4 a.labels ++ Symbols.render "Variables" 2 a.vars

/-- The labels by address, and by name where addresses are equal. -/
def labelsByAddress (a : Assembly) : List (String × UInt32) :=
  a.labels.entries.mergeSort fun x y => x.2 ≤ y.2

end Assembly

namespace Json

def ofBytes (bytes : List UInt8) : Value :=
  .list (bytes.map fun b => .number b.toNat)

def ofSymbols (symbols : Symbols) : Value :=
  .record (symbols.entries.map fun (name, address) => (name, .number address.toNat))

def ofListingLine (l : ListingLine) : Value :=
  .record [
    ("line", .number l.line),
    ("addr", .number l.address.toNat),
    ("bytes", ofBytes l.bytes),
    ("text", .text l.text)]

def ofAssembly (a : Assembly) : Value :=
  .record [
    ("bytes", ofBytes a.bytes),
    ("listing", .list (a.listing.map ofListingLine)),
    ("labels", ofSymbols a.labels),
    ("variables", ofSymbols a.vars)]

def ofLabels (labels : List (String × UInt32)) : Value :=
  .list (labels.map fun (name, address) =>
    .record [("addr", .number address.toNat), ("name", .text name)])

end Json

end EightBitAsm
