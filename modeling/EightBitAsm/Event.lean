import EightBitAsm.Session
import EightBitAsm.Assembly.Image

/-!
Events: what a run reports on its way. Look-ups of names and emitted instructions report themselves
only when they succeed, so the events of a step follow from its result, and a run that fails has
reported everything before the failure.
-/

namespace EightBitAsm

inductive Event where
  | tableBuilt (count : Nat)
  | resolved (domain : Domain) (name : String) (address : UInt32)
  | emitted (family : Family) (mnemonic : String) (bytes : List UInt8)
  | laidOut (size labels : Nat)
  | assembled (bytes : Nat)
  deriving DecidableEq, Repr

inductive Level where
  | trace
  | debug
  | info
  deriving DecidableEq, Repr

namespace Event

def level : Event → Level
  | resolved .. => .trace
  | assembled _ => .info
  | _ => .debug

def message : Event → String
  | tableBuilt _ => "mnemonic table built"
  | resolved domain _ _ => "resolved " ++ domain.noun
  | emitted _ _ bytes =>
    Text.joinWith " " ("emitted" :: bytes.map fun b => Text.markedHex 2 b.toNat)
  | laidOut .. => "pass 1 done"
  | assembled _ => "assembled"

end Event

def Target.events : Target → List Event
  | literal _ => []
  | symbol domain name address => [.resolved domain name address]

def Emission.events (e : Emission) : List Event :=
  (e.target.elim [] Target.events) ++
    [.emitted e.instruction.encoding.family e.instruction.mnemonic e.bytes]

def MnemonicTable.events (table : MnemonicTable) : List Event :=
  [.tableBuilt table.size]

def Session.Reply.events : Reply → List Event
  | encoded (.ok emission) => emission.events
  | resolved (.ok target) => target.events
  | _ => []

namespace Layout

def statementEvents (table : MnemonicTable) (widths : Widths) (layout : Layout) (line : Line) :
    List Event :=
  match line.statement with
  | none => []
  | some (.declaration _ value) =>
    match (layout.scope widths line).resolve .short value with
    | .ok target => target.events
    | .error _ => []
  | some (.instruction mnemonic operands) =>
    match table.encode mnemonic operands (layout.scope widths line) with
    | .ok emission => emission.events
    | .error _ => []

/-- The events of the first pass, up to the first line that fails. -/
def linesEvents (table : MnemonicTable) (widths : Widths) (layout : Layout) :
    List Line → List Event
  | [] => []
  | line :: lines => match layout.addLine table widths line with
    | .error _ => []
    | .ok next =>
      layout.statementEvents table widths line ++ next.linesEvents table widths lines

def listingEvents (table : MnemonicTable) (widths : Widths) (layout : Layout) :
    List Line → List Event
  | [] => []
  | line :: lines => match line.statement with
    | some (.instruction mnemonic operands) =>
      match table.encode mnemonic operands (layout.finalScope widths line) with
      | .error _ => []
      | .ok emission => emission.events ++ layout.listingEvents table widths lines
    | _ => layout.listingEvents table widths lines

end Layout

def Assembly.linesEvents (table : MnemonicTable) (widths : Widths) (lines : List Line) :
    List Event :=
  let firstPass := Layout.empty.linesEvents table widths lines
  match Layout.ofLines table widths lines with
  | .error _ => firstPass
  | .ok layout => match layout.checkSize widths with
    | .error _ => firstPass
    | .ok () =>
      let secondPass := layout.listingEvents table widths lines
      let last := match Assembly.ofLines table widths lines with
        | .ok assembly => [Event.assembled assembly.bytes.length]
        | .error _ => []
      firstPass ++ .laidOut layout.size layout.labels.size :: secondPass ++ last

def assembleEvents (table : MnemonicTable) (widths : Widths) (text : String) : List Event :=
  match Program.parse text with
  | .ok lines => Assembly.linesEvents table widths lines
  | .error _ => []

end EightBitAsm
