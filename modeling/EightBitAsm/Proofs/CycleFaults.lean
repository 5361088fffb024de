import EightBitAsm.Proofs.ByteSink
import EightBitAsm.Proofs.RegisterText

/-! What is wrong with a cycle jump. The number of operands is looked at first, then the register,
then the address; the register can be wrong in four ways, and the first of them is reported. As long
as the register is wrong, neither the address nor the names nor the widths make a difference. -/
namespace EightBitAsm

theorem Scope.line_of_resolve {scope : Scope} {domain : Domain} {text : String} {d : Diagnostic}
    (h : scope.resolve domain text = .error d) : d.line = scope.line := by
  unfold resolve resolveLiteral resolveSymbol fail at h
  split at h
  · cases h
    rfl
  · split at h
    · split at h
      · split at h
        · cases h
        · cases h
          rfl
      · split at h
        · cases h
          rfl
        · cases h
          rfl
    · split at h
      · cases h
      · cases h
        rfl
      · cases h
        rfl

namespace Instruction

inductive RegisterFault (text : String) : Fault → Prop where
  | notARegister (h : RegisterOperand.parse? text = none) : RegisterFault text .notARegister
  | change {r : RegisterOperand} (hr : RegisterOperand.parse? text = some r)
      (hsigned : RegisterOperand.Signed text.toList) : RegisterFault text .registerChange
  | indirect {r : RegisterOperand} (hr : RegisterOperand.parse? text = some r)
      (hsigned : ¬ RegisterOperand.Signed text.toList) (hat : '@' ∈ text.toList) :
      RegisterFault text .registerIndirect
  | number {r : RegisterOperand} (hr : RegisterOperand.parse? text = some r)
      (hsigned : ¬ RegisterOperand.Signed text.toList) (hat : '@' ∉ text.toList)
      (hnumber : 3 < r.number) : RegisterFault text .registerNumber

/-- What is wrong with the operands of a cycle jump. Each case excludes the ones before it. -/
inductive CycleFault (mnemonic : String) (scope : Scope) : List String → Diagnostic → Prop where
  | operandCount {operands : List String} (h : operands.length ≠ 2) :
      CycleFault mnemonic scope operands ⟨scope.line, .operandCount mnemonic 2⟩
  | register {register address : String} {fault : Fault} (h : RegisterFault register fault) :
      CycleFault mnemonic scope [register, address] ⟨scope.line, fault⟩
  | target {n : Nat} {register address : String} {d : Diagnostic} (h : PlainRegister n register)
      (hd : scope.resolve .far address = .error d) :
      CycleFault mnemonic scope [register, address] d

theorem registerFault_of_cycleRegister {scope : Scope} {text : String} {d : Diagnostic}
    (h : cycleRegister scope text = .error d) :
    ∃ fault, RegisterFault text fault ∧ d = ⟨scope.line, fault⟩ := by
  unfold cycleRegister at h
  split at h
  · next hr =>
    cases h
    exact ⟨_, .notARegister hr, rfl⟩
  · next r hr =>
    have hwritten := RegisterOperand.parse?_eq_some_iff.mp hr
    split at h
    · next hchange =>
      cases h
      exact ⟨_, .change hr (hwritten.isChange_iff.mp hchange), rfl⟩
    · next hchange =>
      have hsigned := mt hwritten.isChange_iff.mpr hchange
      split at h
      · next hdirect =>
        cases h
        have hat : '@' ∈ text.toList := by
          by_contra hat
          simp [hwritten.isDirect_iff.mpr hat] at hdirect
        exact ⟨_, .indirect hr hsigned hat, rfl⟩
      · next hdirect =>
        have hat : '@' ∉ text.toList := hwritten.isDirect_iff.mp (by simpa using hdirect)
        split at h
        · next hnumber =>
          cases h
          exact ⟨_, .number hr hsigned hat hnumber, rfl⟩
        · cases h

theorem RegisterFault.cycleRegister_eq {text : String} {fault : Fault}
    (h : RegisterFault text fault) (scope : Scope) :
    cycleRegister scope text = .error ⟨scope.line, fault⟩ := by
  cases h with
  | notARegister hr => simp [cycleRegister, hr, Scope.fail]
  | change hr hsigned =>
    have hchange := (RegisterOperand.parse?_eq_some_iff.mp hr).isChange_iff.mpr hsigned
    simp [cycleRegister, hr, hchange, Scope.fail]
  | indirect hr hsigned hat =>
    have hwritten := RegisterOperand.parse?_eq_some_iff.mp hr
    have hchange := mt hwritten.isChange_iff.mp hsigned
    have hdirect := mt hwritten.isDirect_iff.mp (not_not_intro hat)
    simp [cycleRegister, hr, hchange, hdirect, Scope.fail]
  | number hr hsigned hat hnumber =>
    have hwritten := RegisterOperand.parse?_eq_some_iff.mp hr
    have hchange := mt hwritten.isChange_iff.mp hsigned
    have hdirect := hwritten.isDirect_iff.mpr hat
    simp [cycleRegister, hr, hchange, hdirect, hnumber, Scope.fail]

theorem exists_registerFault {text : String} (h : ∀ n, ¬ PlainRegister n text) :
    ∃ fault, RegisterFault text fault := by
  let scope : Scope := .failing 0 ""
  cases hregister : cycleRegister scope text with
  | ok n => exact absurd (cycleRegister_eq_ok_iff.mp hregister) (h n)
  | error d =>
    obtain ⟨fault, hfault, _⟩ := registerFault_of_cycleRegister hregister
    exact ⟨fault, hfault⟩

section CycleJump

variable {i : Instruction} (hi : i.encoding = .cycleJump)

include hi

theorem encode_of_length_ne {operands : List String} (h : operands.length ≠ 2) (scope : Scope) :
    i.encode operands scope = .error ⟨scope.line, .operandCount i.mnemonic 2⟩ := by
  obtain ⟨mnemonic, encoding⟩ := i
  subst hi
  rcases operands with _ | ⟨register, _ | ⟨address, _ | ⟨extra, more⟩⟩⟩
  · rfl
  · rfl
  · exact absurd rfl h
  · rfl

theorem encode_of_registerFault {register : String} {fault : Fault}
    (h : RegisterFault register fault) (address : String) (scope : Scope) :
    i.encode [register, address] scope = .error ⟨scope.line, fault⟩ := by
  simp [encode_eq_outcome, outcome, hi, h.cycleRegister_eq scope]

theorem encode_eq_error_iff {operands : List String} {scope : Scope} {d : Diagnostic} :
    i.encode operands scope = .error d ↔ CycleFault i.mnemonic scope operands d := by
  constructor
  · intro h
    by_cases hcount : operands.length = 2
    · obtain ⟨register, address, rfl⟩ := List.length_eq_two.mp hcount
      simp only [encode_eq_outcome, outcome, hi] at h
      rcases bind_eq_error_iff.mp h with hregister | ⟨n, hn, h⟩
      · obtain ⟨fault, hfault, rfl⟩ := registerFault_of_cycleRegister hregister
        exact .register hfault
      · rcases bind_eq_error_iff.mp h with htarget | ⟨target, _, h⟩
        · exact .target (cycleRegister_eq_ok_iff.mp hn) htarget
        · cases h
    · rw [encode_of_length_ne hi hcount] at h
      cases h
      exact .operandCount hcount
  · intro h
    cases h with
    | operandCount hcount => exact encode_of_length_ne hi hcount scope
    | register hfault => exact encode_of_registerFault hi hfault _ scope
    | target hplain hd =>
      simp [encode_eq_outcome, outcome, hi, cycleRegister_eq_ok_iff.mpr hplain, hd]

theorem emit_eq_error_iff {σ : Type} {env : Environment σ} {operands : List String} {s t : σ}
    {d : Diagnostic} :
    i.emit env operands s = .error d t ↔
      CycleFault i.mnemonic (env.scope s) operands d ∧ t = s := by
  rw [i.whole_emit env operands s, ← encode_eq_error_iff hi]
  cases i.encode operands (env.scope s) with
  | error d' => simp [eq_comm]
  | ok e => simp

theorem emit_of_registerFault {σ : Type} (env : Environment σ) (s : σ) {register : String}
    {fault : Fault} (h : RegisterFault register fault) (address : String) :
    i.emit env [register, address] s = .error ⟨(env.scope s).line, fault⟩ s :=
  (emit_eq_error_iff hi).mpr ⟨.register h, rfl⟩

end CycleJump

theorem CycleFault.line_eq {mnemonic : String} {scope : Scope} {operands : List String}
    {d : Diagnostic} (h : CycleFault mnemonic scope operands d) : d.line = scope.line := by
  cases h with
  | operandCount => rfl
  | register => rfl
  | target _ hd => exact Scope.line_of_resolve hd

/-- In every environment a cycle jump fails with the first of its faults, on the line of the
environment, and leaves the state untouched. With a register that is not plain, the error is the
same in all environments of one line, whatever their names and widths, and for every address. -/
theorem cycleFault_decides {i : Instruction} (hi : i.encoding = .cycleJump) {σ : Type}
    (env : Environment σ) (operands : List String) (s : σ) :
    (∀ d t, i.emit env operands s = .error d t ↔
      CycleFault i.mnemonic (env.scope s) operands d ∧ t = s) ∧
    (∀ d, CycleFault i.mnemonic (env.scope s) operands d → d.line = (env.scope s).line) ∧
    (Fault.operandCount i.mnemonic 2).kind = .argumentCount ∧
    [Fault.notARegister, .registerChange, .registerIndirect, .registerNumber].map
        (fun fault => (fault.kind, fault.message)) =
      [(.operandKind, "first operand must be a register"),
        (.operandConstraint, "register increment/decrement is not allowed here"),
        (.operandConstraint, "indirect addressing is not allowed here"),
        (.operandConstraint, "only registers R0-R3 are allowed here")] ∧
    ∀ register, (∀ n, ¬ PlainRegister n register) → ∃ d : Diagnostic,
      ∀ {τ : Type} (other : Environment τ) (t : τ), (other.scope t).line = (env.scope s).line →
        ∀ address, i.emit other [register, address] t = .error d t := by
  refine ⟨fun d t => emit_eq_error_iff hi, fun d hd => hd.line_eq, rfl, rfl, ?_⟩
  intro register h
  obtain ⟨fault, hfault⟩ := exists_registerFault h
  refine ⟨⟨(env.scope s).line, fault⟩, ?_⟩
  intro τ other t hline address
  rw [emit_of_registerFault hi other t hfault address, hline]

/-- A register that is wrong in three ways: with an empty address where no look-up has an answer,
and with an address far too large where bytes were emitted before. -/
theorem cycleFault_decides_signed :
    emit .tape ⟨"djrnz", .cycleJump⟩ ["+@Rf", ""] ⟨.failing 7 "no table", [1, 2]⟩ =
      .error ⟨7, .registerChange⟩ ⟨.failing 7 "no table", [1, 2]⟩ ∧
    emit Sizing.environment ⟨"djrnz", .cycleJump⟩ ["+@Rf", "99999"] ⟨7, {}, .empty, 40⟩ =
      .error ⟨7, .registerChange⟩ ⟨7, {}, .empty, 40⟩ := by
  obtain ⟨hfault, -, -, -, hsame⟩ := cycleFault_decides (i := ⟨"djrnz", .cycleJump⟩) rfl .tape
    ["+@Rf", ""] ⟨.failing 7 "no table", [1, 2]⟩
  have hregister : ∀ n, ¬ PlainRegister n "+@Rf" := by
    intro n hn
    simpa using hn.2
  have hsigned : RegisterFault "+@Rf" .registerChange :=
    .change (r := ⟨15, .indirect, .preIncrement⟩) (by decide +kernel)
      (by simp [RegisterOperand.Signed])
  have hfirst := (hfault ⟨7, .registerChange⟩ _).mpr ⟨.register hsigned, rfl⟩
  obtain ⟨d, hd⟩ := hsame "+@Rf" hregister
  have hthere := hd .tape ⟨.failing 7 "no table", [1, 2]⟩ rfl ""
  cases hfirst.symm.trans hthere
  exact ⟨hfirst, hd Sizing.environment ⟨7, {}, .empty, 40⟩ rfl "99999"⟩

end Instruction

end EightBitAsm
