import EightBitAsm.Assembly.Layout
import EightBitAsm.Session
import EightBitAsm.Source.Program

/-!
Images, the second pass: every instruction encoded with the labels and variables of the layout, into
one session whose buffer grows from line to line. What a line adds to the buffer is listed.
-/

namespace EightBitAsm

structure ListingLine where
  line : Nat
  address : UInt32
  bytes : List UInt8
  text : String
  deriving DecidableEq, Repr

structure Assembly where
  bytes : List UInt8
  listing : List ListingLine
  labels : Symbols
  vars : Symbols
  deriving DecidableEq, Repr

namespace Layout

def finalScope (layout : Layout) (widths : Widths) (line : Line) : Scope :=
  .ofSymbols line.number widths layout.labels layout.vars

def session (layout : Layout) (widths : Widths) : Session where
  line := 0
  widths := widths
  labels := layout.labels
  vars := layout.vars
  bytes := []

end Layout

namespace Assembly

/-- Encodes the instruction of a line behind the bytes so far and lists what it added to them. -/
def encodeLine (table : MnemonicTable) (session : Session) (listing : List ListingLine)
    (line : Line) : Except AssembleError (Session × List ListingLine) :=
  match line.statement with
  | some (.instruction mnemonic operands) =>
    let start := session.bytes.length
    match { session with line := line.number }.encode table mnemonic operands with
    | (next, .ok _) =>
      let bytes := next.bytes.drop start
      .ok (next, listing ++ [⟨line.number, UInt32.ofNat start, bytes, line.text⟩])
    | (_, .error diagnostic) => .error (.encoding diagnostic)
  | _ => .ok (session, listing)

def encodeLines (table : MnemonicTable) (session : Session) (listing : List ListingLine) :
    List Line → Except AssembleError (Session × List ListingLine)
  | [] => .ok (session, listing)
  | line :: lines => do
    let (session, listing) ← encodeLine table session listing line
    encodeLines table session listing lines

def ofLines (table : MnemonicTable) (widths : Widths) (lines : List Line) :
    Except AssembleError Assembly := do
  let layout ← Layout.ofLines table widths lines
  layout.checkSize widths
  let (session, listing) ← encodeLines table (layout.session widths) [] lines
  return {
    bytes := session.takeBytes.1
    listing
    labels := layout.labels
    vars := layout.vars }

end Assembly

def assemble (table : MnemonicTable) (widths : Widths) (text : String) :
    Except AssembleError Assembly :=
  match Program.parse text with
  | .ok lines => Assembly.ofLines table widths lines
  | .error error => .error (.source error)

end EightBitAsm
