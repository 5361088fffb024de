import EightBitAsm.Proofs.Packing
import EightBitAsm.Proofs.RegisterText

/-! The code of an instruction, one case for each way of encoding. An instruction encodes exactly if
its operands have the form that the case asks for, whatever the scope, and its bytes are those of
the case: the word of the address with the tags, and perhaps a register number, written over it. -/
namespace EightBitAsm

def Encoding.tags : Encoding → Tags
  | implied _ => .empty
  | cycleJump => .cycle
  | branch condition => condition
  | control tag _ => tag

def Scope.word (scope : Scope) (target : Target) : Word :=
  Word.ofAddress target.address scope.widths.farBits

def CycleMarked (n : Nat) (high marked : UInt8) : Prop :=
  ∀ j, marked.toNat.testBit j =
    if j = 7 then true
    else if j = 5 then n.testBit 0
    else if j = 6 then n.testBit 1
    else high.toNat.testBit j

theorem CycleMarked.unique {n : Nat} {high a b : UInt8} (ha : CycleMarked n high a)
    (hb : CycleMarked n high b) : a = b := by
  apply byte_eq_of_testBit_eq
  intro j
  rw [ha j, hb j]

theorem Tags.testBit_cycle (j : Nat) : cycle.bits.toNat.testBit j = decide (j = 7) := by
  have hbits : cycle.bits.toNat = 2 ^ 7 := rfl
  rw [hbits, Nat.testBit_two_pow]
  simp [eq_comm]

theorem Word.cycleMarked_high (w : Word) (n : Nat) :
    CycleMarked n w.high ((w.selectRegister n).tag .cycle).high := by
  intro j
  simp only [tag, selectRegister, UInt8.toNat_or, Nat.testBit_or, Tags.testBit_cycle,
    testBit_withBit _ (show 6 < 8 by omega), testBit_withBit _ (show 5 < 8 by omega)]
  by_cases h7 : j = 7
  · simp [h7]
  · by_cases h5 : j = 5
    · simp [h5]
    · simp [h7, h5]

namespace Instruction

inductive Coded (scope : Scope) : Encoding → List String → List UInt8 → Prop where
  | implied (opcode : UInt8) : Coded scope (.implied opcode) [] [0, opcode]
  | cycleJump {n : Nat} {register address : String} {target : Target} {high : UInt8}
      (hregister : PlainRegister n register) (htarget : scope.resolve .far address = .ok target)
      (hhigh : CycleMarked n (scope.word target).high high) :
      Coded scope .cycleJump [register, address] [high, (scope.word target).low]
  | branch {condition : Tags} {address : String} {target : Target}
      (htarget : scope.resolve .far address = .ok target) :
      Coded scope (.branch condition) [address]
        [(scope.word target).high ||| condition.bits, (scope.word target).low]
  | control {tag : Tags} {address : String} {target : Target}
      (htarget : scope.resolve .far address = .ok target) :
      Coded scope (.control tag true) [address]
        [(scope.word target).high ||| tag.bits, (scope.word target).low]
  | shortControl {tag : Tags} {address : String} {target : Target}
      (htarget : scope.resolve .far address = .ok target) :
      Coded scope (.control tag false) [address] [(scope.word target).high ||| tag.bits]

variable {i : Instruction} {operands : List String} {scope : Scope}

theorem coded_of_encode {e : Emission} (h : i.encode operands scope = .ok e) :
    Coded scope i.encoding operands e.bytes := by
  rw [encode_eq_outcome] at h
  unfold outcome at h
  split at h
  · next opcode hi =>
    cases h
    rw [hi]
    exact .implied opcode
  · next register address hi =>
    obtain ⟨n, hn, h⟩ := bind_eq_ok_iff.mp h
    obtain ⟨target, htarget, h⟩ := bind_eq_ok_iff.mp h
    cases h
    rw [hi]
    exact .cycleJump (cycleRegister_eq_ok_iff.mp hn) htarget (Word.cycleMarked_high _ n)
  · next condition address hi =>
    obtain ⟨target, htarget, h⟩ := bind_eq_ok_iff.mp h
    cases h
    rw [hi]
    exact .branch htarget
  · next tag emitLow address hi =>
    obtain ⟨target, htarget, h⟩ := bind_eq_ok_iff.mp h
    cases h
    rw [hi]
    cases emitLow with
    | true => exact .control htarget
    | false => exact .shortControl htarget
  · cases h

theorem Coded.exists_encode {bytes : List UInt8} (h : Coded scope i.encoding operands bytes) :
    ∃ e, i.encode operands scope = .ok e ∧ e.bytes = bytes := by
  obtain ⟨mnemonic, encoding⟩ := i
  cases h with
  | implied opcode => exact ⟨_, rfl, rfl⟩
  | cycleJump hregister htarget hhigh =>
    have hnumber : cycleRegister scope _ = .ok _ := cycleRegister_eq_ok_iff.mpr hregister
    refine ⟨_, by simp [encode_eq_outcome, outcome, hnumber, htarget]; rfl, ?_⟩
    simp only [List.cons.injEq, and_true]
    exact ⟨(Word.cycleMarked_high _ _).unique hhigh, rfl⟩
  | branch htarget => exact ⟨_, by simp [encode_eq_outcome, outcome, htarget]; rfl, rfl⟩
  | control htarget => exact ⟨_, by simp [encode_eq_outcome, outcome, htarget]; rfl, rfl⟩
  | shortControl htarget => exact ⟨_, by simp [encode_eq_outcome, outcome, htarget]; rfl, rfl⟩

/-- No bit of an address clears a bit of a tag. -/
theorem Coded.testBit_high {bytes : List UInt8} (h : Coded scope i.encoding operands bytes)
    {high : UInt8} (hhigh : bytes.head? = some high) {j : Nat}
    (hj : i.encoding.tags.bits.toNat.testBit j = true) : high.toNat.testBit j = true := by
  obtain ⟨mnemonic, encoding⟩ := i
  cases h with
  | implied opcode => simp [Encoding.tags, Tags.empty] at hj
  | cycleJump _ _ hmarked =>
    have hseven : j = 7 := by
      rw [Encoding.tags, Tags.testBit_cycle] at hj
      exact of_decide_eq_true hj
    cases hhigh
    rw [hmarked j, if_pos hseven]
  | branch | control | shortControl =>
    cases hhigh
    rw [UInt8.toNat_or, Nat.testBit_or, Bool.or_eq_true]
    exact Or.inr hj

/-- An instruction encodes exactly if its operands are sound, whatever the scope and however wide
its addresses, and exactly to the bytes of its case. Tags and register numbers win over the bits of
the address. -/
theorem encode_iff_coded (i : Instruction) (operands : List String) (scope : Scope)
    (bytes : List UInt8) :
    ((∃ e, i.encode operands scope = .ok e ∧ e.bytes = bytes) ↔
      Coded scope i.encoding operands bytes) ∧
    (Coded scope i.encoding operands bytes → ∀ high, bytes.head? = some high →
      ∀ j, i.encoding.tags.bits.toNat.testBit j = true → high.toNat.testBit j = true) := by
  refine ⟨⟨?_, Coded.exists_encode⟩, ?_⟩
  · rintro ⟨e, he, rfl⟩
    exact coded_of_encode he
  · intro h high hhigh j hj
    exact h.testBit_high hhigh hj

/-- All address bits are set and no name can be looked up; register 2 and the cycle bit still
stand. -/
theorem encode_iff_coded_wide :
    Coded { Scope.failing 1 "no table" with widths := ⟨8, 32⟩ } .cycleJump ["r2", "0xFFFFFFFF"]
      [0b11011111, 0xFF] ∧
    (0b11011111 : UInt8).toNat.testBit 7 = true := by
  have h : ∃ e, encode ⟨"djrnz", .cycleJump⟩ ["r2", "0xFFFFFFFF"]
      { Scope.failing 1 "no table" with widths := ⟨8, 32⟩ } = .ok e ∧
      e.bytes = [0b11011111, 0xFF] :=
    ⟨⟨⟨"djrnz", .cycleJump⟩, some (.literal 0xFFFFFFFF), [0b11011111, 0xFF]⟩,
      by decide +kernel, rfl⟩
  obtain ⟨hiff, hwins⟩ := encode_iff_coded ⟨"djrnz", .cycleJump⟩ ["r2", "0xFFFFFFFF"]
    { Scope.failing 1 "no table" with widths := ⟨8, 32⟩ } [0b11011111, 0xFF]
  exact ⟨hiff.mp h, hwins (hiff.mp h) _ rfl 7 (by decide)⟩

end Instruction

end EightBitAsm
