import EightBitAsm.Assembly.Image
import Mathlib

/-! Encoders over an arbitrary environment. An encoder asks all its questions before it emits its
first byte, so an error finds the state untouched, and a success has emitted the bytes of its answer
and nothing else. What it answers depends on the scope alone: on a tape it can be computed. -/
namespace EightBitAsm

namespace Encoding

def operandCount : Encoding → Nat
  | implied _ => 0
  | cycleJump => 2
  | branch _ | control .. => 1

def size : Encoding → Nat
  | control _ false => 1
  | _ => 2

end Encoding

namespace Environment

variable {σ α β : Type} {env : Environment σ}

theorem bind_apply (x : Emitter σ α) (f : α → Emitter σ β) (s : σ) :
    (x >>= f) s = match x s with
      | .ok a t => f a t
      | .error d t => .error d t := by
  have hrun := EStateM.run_bind (s := s) x f
  simp only [EStateM.run] at hrun
  rw [hrun]
  cases x s <;> rfl

theorem ask_apply (question : Scope → Except Diagnostic α) (s : σ) :
    env.ask question s = match question (env.scope s) with
      | .ok a => .ok a s
      | .error d => .error d s := by
  have hget : (get : Emitter σ σ) s = .ok s s := rfl
  rw [ask, bind_apply, hget]
  cases hq : question (env.scope s) with
  | error d => simp only [hq]; rfl
  | ok a => simp only [hq]; rfl

def emitAll (env : Environment σ) (bytes : List UInt8) (s : σ) : σ :=
  bytes.foldl (fun s byte => env.emitByte byte s) s

/-- An encoder that makes up its mind before it emits: its outcome is told by the scope it starts
in, and the bytes of that outcome, or none, are all it adds. -/
def Whole (env : Environment σ) (x : Emitter σ Emission)
    (outcome : Scope → Except Diagnostic Emission) : Prop :=
  ∀ s, x s = match outcome (env.scope s) with
    | .ok e => .ok e (env.emitAll e.bytes s)
    | .error d => .error d s

theorem whole_fail (fault : Fault) : env.Whole (env.ask (·.fail fault)) (·.fail fault) := by
  intro s
  rw [ask_apply]
  rfl

theorem Whole.ask_bind {question : Scope → Except Diagnostic α} {f : α → Emitter σ Emission}
    {outcome : α → Scope → Except Diagnostic Emission} (h : ∀ a, env.Whole (f a) (outcome a)) :
    env.Whole (env.ask question >>= f) fun scope =>
      question scope >>= fun a => outcome a scope := by
  intro s
  rw [bind_apply, ask_apply]
  cases hq : question (env.scope s) with
  | error d => simp [hq]
  | ok a => simpa [hq] using h a s

theorem whole_emitWord (i : Instruction) (target : Option Target) (w : Word) (emitLow : Bool) :
    env.Whole (env.emitWord w emitLow >>= fun bytes => return ⟨i, target, bytes⟩)
      fun _ => .ok ⟨i, target, if emitLow then [w.high, w.low] else [w.high]⟩ := by
  intro s
  cases emitLow <;> rfl

theorem emitAll_tape (bytes : List UInt8) (t : Tape) :
    tape.emitAll bytes t = ⟨t.scope, t.bytes ++ bytes⟩ := by
  induction bytes generalizing t with
  | nil => simp [emitAll]
  | cons byte bytes ih =>
    have hrest := ih (tape.emitByte byte t)
    simp only [tape, List.append_assoc, List.singleton_append] at hrest
    exact hrest

theorem Whole.collect_eq {x : Emitter Tape Emission}
    {outcome : Scope → Except Diagnostic Emission} (h : tape.Whole x outcome) (scope : Scope) :
    Emission.collect x scope = outcome scope := by
  have hrun := h ⟨scope, []⟩
  unfold Emission.collect
  rw [hrun]
  change _ = outcome (tape.scope ⟨scope, []⟩)
  cases outcome (tape.scope ⟨scope, []⟩) with
  | error d => rfl
  | ok e => simp [emitAll_tape]

end Environment

namespace Instruction

/-- The outcome of an instruction without its way through the tape. -/
def outcome (i : Instruction) (operands : List String) (scope : Scope) :
    Except Diagnostic Emission :=
  match i.encoding, operands with
  | .implied opcode, [] => .ok ⟨i, none, [0, opcode]⟩
  | .cycleJump, [register, address] => do
    let n ← cycleRegister scope register
    let target ← scope.resolve .far address
    let w := cycleWord scope n target.address
    .ok ⟨i, some target, [w.high, w.low]⟩
  | .branch condition, [address] => do
    let target ← scope.resolve .far address
    let w := addressWord scope target.address condition
    .ok ⟨i, some target, [w.high, w.low]⟩
  | .control tag emitLow, [address] => do
    let target ← scope.resolve .far address
    let w := addressWord scope target.address tag
    .ok ⟨i, some target, if emitLow then [w.high, w.low] else [w.high]⟩
  | encoding, _ => scope.fail (.operandCount i.mnemonic encoding.operandCount)

section Families

variable {σ : Type} (env : Environment σ) (i : Instruction)

theorem whole_emitImplied (opcode : UInt8) :
    env.Whole (i.emitImplied env opcode []) fun _ => .ok ⟨i, none, [0, opcode]⟩ :=
  fun _ => rfl

theorem whole_emitCycle (register address : String) :
    env.Whole (i.emitCycle env [register, address]) fun scope => do
      let n ← cycleRegister scope register
      let target ← scope.resolve .far address
      let w ← Except.ok (cycleWord scope n target.address)
      return ⟨i, some target, [w.high, w.low]⟩ := by
  -- One step for each question; behind the first byte there are none left.
  refine Environment.Whole.ask_bind fun n => ?_
  refine Environment.Whole.ask_bind fun target => ?_
  refine Environment.Whole.ask_bind fun w => ?_
  exact Environment.whole_emitWord i (some target) w true

theorem whole_emitTagged (tags : Tags) (emitLow : Bool) (address : String) :
    env.Whole (i.emitTagged env tags emitLow [address]) fun scope => do
      let target ← scope.resolve .far address
      let w ← Except.ok (addressWord scope target.address tags)
      return ⟨i, some target, if emitLow then [w.high, w.low] else [w.high]⟩ := by
  refine Environment.Whole.ask_bind fun target => ?_
  refine Environment.Whole.ask_bind fun w => ?_
  exact Environment.whole_emitWord i (some target) w emitLow

theorem whole_emit_outcome (operands : List String) :
    env.Whole (i.emit env operands) (i.outcome operands) := by
  obtain ⟨mnemonic, encoding⟩ := i
  cases encoding with
  | implied opcode =>
    rcases operands with _ | ⟨extra, more⟩
    · exact whole_emitImplied env _ opcode
    · exact Environment.whole_fail _
  | cycleJump =>
    rcases operands with _ | ⟨register, _ | ⟨address, _ | ⟨extra, more⟩⟩⟩
    · exact Environment.whole_fail _
    · exact Environment.whole_fail _
    · exact whole_emitCycle env _ register address
    · exact Environment.whole_fail _
  | branch condition =>
    rcases operands with _ | ⟨address, _ | ⟨extra, more⟩⟩
    · exact Environment.whole_fail _
    · exact whole_emitTagged env _ condition true address
    · exact Environment.whole_fail _
  | control tag emitLow =>
    rcases operands with _ | ⟨address, _ | ⟨extra, more⟩⟩
    · exact Environment.whole_fail _
    · exact whole_emitTagged env _ tag emitLow address
    · exact Environment.whole_fail _

end Families

theorem encode_eq_outcome (i : Instruction) (operands : List String) (scope : Scope) :
    i.encode operands scope = i.outcome operands scope :=
  (whole_emit_outcome .tape i operands).collect_eq scope

theorem length_bytes_of_encode {i : Instruction} {operands : List String} {scope : Scope}
    {e : Emission} (h : i.encode operands scope = .ok e) : e.bytes.length = i.encoding.size := by
  rw [encode_eq_outcome] at h
  unfold outcome at h
  split at h
  · next hi =>
    cases h
    simp [hi, Encoding.size]
  · next hi =>
    obtain ⟨n, _, h⟩ := bind_eq_ok_iff.1 h
    obtain ⟨t, _, h⟩ := bind_eq_ok_iff.1 h
    cases h
    simp [hi, Encoding.size]
  · next hi =>
    obtain ⟨t, _, h⟩ := bind_eq_ok_iff.1 h
    cases h
    simp [hi, Encoding.size]
  · next emitLow _ hi =>
    obtain ⟨t, _, h⟩ := bind_eq_ok_iff.1 h
    cases h
    cases emitLow <;> simp [hi, Encoding.size]
  · cases h

/-- In every environment, an instruction that fails leaves the state as it is, and one that succeeds
emits the bytes it has on a tape. -/
theorem whole_emit {σ : Type} (env : Environment σ) (i : Instruction) (operands : List String) :
    env.Whole (i.emit env operands) (i.encode operands) := by
  rw [show i.encode operands = i.outcome operands from funext (i.encode_eq_outcome operands)]
  exact whole_emit_outcome env i operands

end Instruction

namespace MnemonicTable

theorem encode_eq (table : MnemonicTable) (mnemonic : String) (operands : List String)
    (scope : Scope) :
    table.encode mnemonic operands scope = match table.lookup? mnemonic with
      | some i => i.encode operands scope
      | none => scope.fail (.unknownMnemonic mnemonic) := by
  unfold encode emit
  cases table.lookup? mnemonic with
  | none => exact (Environment.whole_fail (.unknownMnemonic mnemonic)).collect_eq scope
  | some i => rfl

theorem whole_emit {σ : Type} (env : Environment σ) (table : MnemonicTable) (mnemonic : String)
    (operands : List String) :
    env.Whole (table.emit env mnemonic operands) (table.encode mnemonic operands) := by
  intro s
  rw [encode_eq, emit]
  cases table.lookup? mnemonic with
  | none => exact Environment.whole_fail _ s
  | some i => exact i.whole_emit env operands s

theorem length_bytes_of_encode {table : MnemonicTable} {mnemonic : String}
    {operands : List String} {scope : Scope} {e : Emission}
    (h : table.encode mnemonic operands scope = .ok e) :
    ∃ i, table.lookup? mnemonic = some i ∧ e.bytes.length = i.encoding.size := by
  rw [encode_eq] at h
  cases hi : table.lookup? mnemonic with
  | none => simp [hi, Scope.fail] at h
  | some i =>
    rw [hi] at h
    exact ⟨i, rfl, Instruction.length_bytes_of_encode h⟩

end MnemonicTable

theorem Session.emitAll_environment (bytes : List UInt8) (s : Session) :
    environment.emitAll bytes s = { s with bytes := s.bytes ++ bytes } := by
  induction bytes generalizing s with
  | nil => simp [Environment.emitAll]
  | cons byte bytes ih =>
    have hrest := ih (s.emitByte byte)
    simp only [emitByte, List.append_assoc, List.singleton_append] at hrest
    exact hrest

theorem Session.encode_eq (table : MnemonicTable) (s : Session) (mnemonic : String)
    (operands : List String) :
    s.encode table mnemonic operands = match table.encode mnemonic operands s.scope with
      | .ok e => ({ s with bytes := s.bytes ++ e.bytes }, .ok e)
      | .error d => (s, .error d) := by
  have hwhole := table.whole_emit environment mnemonic operands s
  rw [encode, hwhole]
  simp only [environment]
  cases table.encode mnemonic operands s.scope with
  | error d => rfl
  | ok e => simp [← emitAll_environment, environment]

theorem Sizing.emitAll_environment (bytes : List UInt8) (s : Sizing) :
    environment.emitAll bytes s = { s with emitted := s.emitted + bytes.length } := by
  induction bytes generalizing s with
  | nil => simp [Environment.emitAll]
  | cons byte bytes ih =>
    have hrest := ih { s with emitted := s.emitted + 1 }
    simp only [Nat.add_assoc, Nat.add_comm 1] at hrest
    exact hrest

/-- Sizing counts the bytes that the instruction has in the scope of the sizing. -/
theorem Layout.addStatement_eq (table : MnemonicTable) (widths : Widths) (layout : Layout)
    (line : Line) :
    layout.addStatement table widths line = match line.statement with
      | none => .ok layout
      | some (.declaration name value) =>
        match (layout.scope widths line).resolve .short value with
        | .ok target => .ok { layout with vars := layout.vars.insert name target.address }
        | .error d => .error (.encoding d)
      | some (.instruction mnemonic operands) =>
        match table.encode mnemonic operands (layout.scope widths line) with
        | .ok e => .ok { layout with size := layout.size + e.bytes.length }
        | .error d => .error (.encoding d) := by
  unfold addStatement
  cases line.statement with
  | none => rfl
  | some statement =>
    cases statement with
    | declaration name value => rfl
    | instruction mnemonic operands =>
      have hwhole := table.whole_emit Sizing.environment mnemonic operands
        ⟨line.number, widths, layout.vars, 0⟩
      have hscope : Sizing.environment.scope ⟨line.number, widths, layout.vars, 0⟩ =
          layout.scope widths line := rfl
      rw [hscope] at hwhole
      simp only [hwhole]
      cases table.encode mnemonic operands (layout.scope widths line) with
      | error d => rfl
      | ok e => simp [Sizing.emitAll_environment]

end EightBitAsm
