import EightBitAsm.Proofs.ByteSink
import EightBitAsm.Proofs.RegisterText

/-! Encoding as two steps. An instruction reads its operands into an operation, for which it needs
no names; the operation is then resolved in a scope and written as bytes. Scopes of one line and
one pair of widths can therefore differ in the address only. -/
namespace EightBitAsm

inductive Transfer where
  | cycle (register : Nat)
  | branch (condition : Tags)
  | control (tag : Tags) (emitLow : Bool)
  deriving DecidableEq, Repr

/-- An instruction with its operands read. The address is a text at first, then what the text
stands for, then a number. -/
inductive Operation (α : Type) where
  | implied (opcode : UInt8)
  | transfer (kind : Transfer) (address : α)
  deriving DecidableEq, Repr

def Text.startsWithDigit (text : String) : Bool :=
  text.toList.head?.any isDigit

namespace Encoding

def addressOperand? : Encoding → List String → Option String
  | implied _, _ => none
  | _, operands => operands.getLast?

end Encoding

namespace Transfer

def encoding : Transfer → Encoding
  | cycle _ => .cycleJump
  | branch condition => .branch condition
  | control tag emitLow => .control tag emitLow

def emitLow : Transfer → Bool
  | control _ emitLow => emitLow
  | _ => true

/-- The word of an address with the register number and the tag written over it. -/
def stamp (w : Word) : Transfer → Word
  | cycle register => (w.selectRegister register).tag .cycle
  | branch condition => w.tag condition
  | control tag _ => w.tag tag

theorem size_encoding (k : Transfer) : k.encoding.size = if k.emitLow then 2 else 1 := by
  cases k with
  | control tag emitLow => cases emitLow <;> rfl
  | _ => rfl

end Transfer

namespace Operation

variable {α β : Type}

def encoding : Operation α → Encoding
  | implied opcode => .implied opcode
  | transfer kind _ => kind.encoding

def address? : Operation α → Option α
  | implied _ => none
  | transfer _ address => some address

def map (f : α → β) : Operation α → Operation β
  | implied opcode => .implied opcode
  | transfer kind address => .transfer kind (f address)

def resolve (scope : Scope) : Operation String → Except Diagnostic (Operation Target)
  | implied opcode => .ok (.implied opcode)
  | transfer kind text => do
    let target ← scope.resolve .far text
    .ok (.transfer kind target)

def bytes (farBits : Nat) : Operation UInt32 → List UInt8
  | implied opcode => [0, opcode]
  | transfer kind address =>
    let w := kind.stamp (Word.ofAddress address farBits)
    if kind.emitLow then [w.high, w.low] else [w.high]

@[simp] theorem encoding_map (f : α → β) (o : Operation α) : (o.map f).encoding = o.encoding := by
  cases o <;> rfl

theorem length_bytes (farBits : Nat) (o : Operation UInt32) :
    (o.bytes farBits).length = o.encoding.size := by
  cases o with
  | implied opcode => rfl
  | transfer kind address =>
    simp only [bytes, encoding, Transfer.size_encoding]
    split <;> rfl

theorem resolve_eq_ok_iff {scope : Scope} {o : Operation String} {p : Operation Target} :
    o.resolve scope = .ok p ↔ (∃ opcode, o = .implied opcode ∧ p = .implied opcode) ∨
      ∃ kind text target, o = .transfer kind text ∧ scope.resolve .far text = .ok target ∧
        p = .transfer kind target := by
  cases o with
  | implied opcode => simp [resolve, eq_comm]
  | transfer kind text =>
    simp only [resolve, bind_eq_ok_iff]
    constructor
    · rintro ⟨target, ht, h⟩
      cases h
      exact Or.inr ⟨kind, text, target, rfl, ht, rfl⟩
    · rintro (⟨opcode, h, _⟩ | ⟨_, _, target, h, ht, rfl⟩)
      · cases h
      · cases h
        exact ⟨target, ht, rfl⟩

theorem resolve_eq_error_iff {scope : Scope} {o : Operation String} {d : Diagnostic} :
    o.resolve scope = .error d ↔
      ∃ text, o.address? = some text ∧ scope.resolve .far text = .error d := by
  cases o <;> simp [resolve, bind_eq_error_iff, address?]

theorem address?_of_resolve {scope : Scope} {o : Operation String} {p : Operation Target}
    (h : o.resolve scope = .ok p) {text : String} (ht : o.address? = some text) :
    ∃ target, scope.resolve .far text = .ok target ∧ p.address? = some target := by
  obtain ⟨opcode, rfl, rfl⟩ | ⟨kind, text', target, rfl, htarget, rfl⟩ := resolve_eq_ok_iff.1 h
  · cases ht
  · cases ht
    exact ⟨target, htarget, rfl⟩

theorem encoding_of_resolve {scope : Scope} {o : Operation String} {p : Operation Target}
    (h : o.resolve scope = .ok p) : p.encoding = o.encoding := by
  obtain ⟨opcode, rfl, rfl⟩ | ⟨kind, text, target, rfl, _, rfl⟩ := resolve_eq_ok_iff.1 h
  · rfl
  · rfl

end Operation

namespace Instruction

/-- Everything that can be said about the operands before the address is looked up. -/
def read (i : Instruction) (scope : Scope) (operands : List String) :
    Except Diagnostic (Operation String) :=
  match i.encoding, operands with
  | .implied opcode, [] => .ok (.implied opcode)
  | .cycleJump, [register, address] => do
    let n ← cycleRegister scope register
    .ok (.transfer (.cycle n) address)
  | .branch condition, [address] => .ok (.transfer (.branch condition) address)
  | .control tag emitLow, [address] => .ok (.transfer (.control tag emitLow) address)
  | encoding, _ => scope.fail (.operandCount i.mnemonic encoding.operandCount)

def emission (i : Instruction) (farBits : Nat) (p : Operation Target) : Emission :=
  ⟨i, p.address?, (p.map Target.address).bytes farBits⟩

theorem encode_eq_read_resolve (i : Instruction) (operands : List String) (scope : Scope) :
    i.encode operands scope = (i.read scope operands >>= fun o => o.resolve scope >>= fun p =>
      .ok (i.emission scope.widths.farBits p)) := by
  rw [encode_eq_outcome]
  rcases i with ⟨mnemonic, encoding⟩
  cases encoding with
  | implied opcode => cases operands <;> rfl
  | cycleJump =>
    rcases operands with _ | ⟨register, _ | ⟨address, _ | ⟨extra, more⟩⟩⟩
    · rfl
    · rfl
    · simp only [outcome, read]
      cases cycleRegister scope register with
      | error d => rfl
      | ok n =>
        simp only [ok_bind, Operation.resolve]
        cases scope.resolve .far address <;> rfl
    · rfl
  | branch condition =>
    rcases operands with _ | ⟨address, _ | ⟨extra, more⟩⟩
    · rfl
    · simp only [outcome, read, ok_bind, Operation.resolve]
      cases scope.resolve .far address <;> rfl
    · rfl
  | control tag emitLow =>
    rcases operands with _ | ⟨address, _ | ⟨extra, more⟩⟩
    · rfl
    · simp only [outcome, read, ok_bind, Operation.resolve]
      cases scope.resolve .far address <;> rfl
    · rfl

theorem cycleRegister_eq_of_line_eq {s t : Scope} (h : s.line = t.line) (text : String) :
    cycleRegister s text = cycleRegister t text := by
  simp [cycleRegister, Scope.fail, h]

theorem read_eq_of_line_eq {s t : Scope} (h : s.line = t.line) (i : Instruction)
    (operands : List String) : i.read s operands = i.read t operands := by
  simp [read, cycleRegister_eq_of_line_eq h, Scope.fail, h]

/-- What reading leaves: the code of an instruction without operands, or the kind of a transfer and
the last operand as its address. -/
theorem read_cases {i : Instruction} {scope : Scope} {operands : List String}
    {o : Operation String} (h : i.read scope operands = .ok o) :
    (∃ opcode, i.encoding = .implied opcode ∧ o = .implied opcode) ∨
    ∃ kind text, i.encoding = kind.encoding ∧ operands.getLast? = some text ∧
      o = .transfer kind text ∧ ∀ n, kind = .cycle n → n ≤ 3 := by
  unfold read at h
  split at h
  · next opcode hi =>
    cases h
    exact Or.inl ⟨opcode, hi, rfl⟩
  · next register address hi =>
    obtain ⟨n, hn, h⟩ := bind_eq_ok_iff.1 h
    cases h
    refine Or.inr ⟨.cycle n, address, hi, rfl, rfl, ?_⟩
    intro m hm
    cases hm
    exact (cycleRegister_eq_ok_iff.mp hn).1
  · next condition address hi =>
    cases h
    exact Or.inr ⟨.branch condition, address, hi, rfl, rfl, by simp⟩
  · next tag emitLow address hi =>
    cases h
    exact Or.inr ⟨.control tag emitLow, address, hi, rfl, rfl, by simp⟩
  · cases h

theorem encoding_of_read {i : Instruction} {scope : Scope} {operands : List String}
    {o : Operation String} (h : i.read scope operands = .ok o) : o.encoding = i.encoding := by
  obtain ⟨opcode, hi, rfl⟩ | ⟨kind, text, hi, _, rfl, _⟩ := read_cases h
  · exact hi.symm
  · exact hi.symm

theorem address?_of_read {i : Instruction} {scope : Scope} {operands : List String}
    {o : Operation String} (h : i.read scope operands = .ok o) :
    o.address? = i.encoding.addressOperand? operands := by
  obtain ⟨opcode, hi, rfl⟩ | ⟨kind, text, hi, ht, rfl, _⟩ := read_cases h
  · rw [hi]
    rfl
  · rw [hi]
    cases kind <;> exact ht.symm

end Instruction

namespace MnemonicTable

theorem encode_eq_ok_iff {table : MnemonicTable} {mnemonic : String} {operands : List String}
    {scope : Scope} {e : Emission} :
    table.encode mnemonic operands scope = .ok e ↔ ∃ i o p, table.lookup? mnemonic = some i ∧
      i.read scope operands = .ok o ∧ o.resolve scope = .ok p ∧
      i.emission scope.widths.farBits p = e := by
  rw [encode_eq]
  cases table.lookup? mnemonic with
  | none => simp [Scope.fail]
  | some i => simp [Instruction.encode_eq_read_resolve, bind_eq_ok_iff]

end MnemonicTable

namespace Scope

theorem resolve_eq_resolveLiteral (scope : Scope) (domain : Domain) {text : String}
    (hd : Text.startsWithDigit text = true) :
    scope.resolve domain text = scope.resolveLiteral domain text := by
  unfold Text.startsWithDigit at hd
  unfold resolve
  cases htext : text.toList with
  | nil => simp [htext] at hd
  | cons c cs =>
    have hc : Text.isDigit c = true := by simpa [htext] using hd
    simp [hc]

theorem resolve_eq_of_startsWithDigit (s t : Scope) (hl : s.line = t.line) (domain : Domain)
    (hmax : s.widths.max domain = t.widths.max domain) {text : String}
    (hd : Text.startsWithDigit text = true) : s.resolve domain text = t.resolve domain text := by
  rw [resolve_eq_resolveLiteral s domain hd, resolve_eq_resolveLiteral t domain hd]
  simp [resolveLiteral, fail, hl, hmax]

theorem resolve_eq_resolveSymbol (scope : Scope) (domain : Domain) {text : String}
    (hne : text ≠ "") (hd : Text.startsWithDigit text = false) :
    scope.resolve domain text = scope.resolveSymbol domain text := by
  unfold Text.startsWithDigit at hd
  unfold resolve
  cases htext : text.toList with
  | nil => exact absurd (by simpa using htext) hne
  | cons c cs =>
    have hc : Text.isDigit c = false := by simpa [htext] using hd
    simp [hc]

theorem ne_empty_of_resolve {scope : Scope} {domain : Domain} {text : String} {target : Target}
    (h : scope.resolve domain text = .ok target) : text ≠ "" := by
  rintro rfl
  cases h

end Scope

end EightBitAsm
