import EightBitAsm.Word
import Mathlib

/-! The bits of a packed word. Every bit of an address has its place in one of the two bytes, and
from sixteen on the places are taken already. So each bit of a packed word is the last one written
onto it, or the old one where nothing is written. This determines the word, whatever the width. -/
namespace EightBitAsm

theorem testBit_one_shiftLeft {i : Nat} (hi : i < 8) (j : Nat) :
    ((1 : UInt8) <<< UInt8.ofNat i).toNat.testBit j = decide (j = i) := by
  have hval : ((1 : UInt8) <<< UInt8.ofNat i).toNat = 2 ^ i := by
    interval_cases i <;> rfl
  rw [hval, Nat.testBit_two_pow]
  simp [eq_comm]

theorem testBit_of_ge_eight (byte : UInt8) {j : Nat} (h : 8 ≤ j) :
    byte.toNat.testBit j = false := by
  apply Nat.testBit_lt_two_pow
  exact lt_of_lt_of_le byte.toNat_lt (Nat.pow_le_pow_right (by omega) h)

theorem testBit_complement (byte : UInt8) {j : Nat} (h : j < 8) :
    (~~~byte).toNat.testBit j = !byte.toNat.testBit j := by
  have hbits : ∀ b : UInt8, b.toNat.testBit j = b.toBitVec.getLsbD j := fun _ => rfl
  rw [hbits, hbits, UInt8.toBitVec_not, BitVec.getLsbD_not]
  simp [h]

theorem testBit_withBit (byte : UInt8) {i : Nat} (hi : i < 8) (value : Bool) (j : Nat) :
    (withBit byte i value).toNat.testBit j =
      if j = i then value else byte.toNat.testBit j := by
  have hmask := testBit_one_shiftLeft hi j
  cases value with
  | true =>
    simp only [withBit, if_true, UInt8.toNat_or, Nat.testBit_or, hmask]
    by_cases h : j = i <;> simp [h]
  | false =>
    by_cases hj : j < 8
    · simp only [withBit, Bool.false_eq_true, if_false, UInt8.toNat_and, Nat.testBit_and,
        testBit_complement _ hj, hmask]
      by_cases h : j = i <;> simp [h]
    · have hne : j ≠ i := by omega
      rw [if_neg hne, testBit_of_ge_eight _ (by omega), testBit_of_ge_eight _ (by omega)]

theorem byte_eq_of_testBit_eq {a b : UInt8} (h : ∀ j, a.toNat.testBit j = b.toNat.testBit j) :
    a = b :=
  UInt8.toNat_inj.mp (Nat.eq_of_testBit_eq h)

namespace Word

theorem testBit_low_placeBit (w : Word) (i : Nat) (value : Bool) {j : Nat} (hj : j < 8) :
    (w.placeBit i value).low.toNat.testBit j =
      if j = i then value else w.low.toNat.testBit j := by
  by_cases hi : i < 8
  · rw [placeBit, if_pos hi, testBit_withBit _ hi]
  · have hne : j ≠ i := by omega
    rw [placeBit, if_neg hi, if_neg hne]

theorem testBit_high_placeBit (w : Word) (i : Nat) (value : Bool) (j : Nat) :
    (w.placeBit i value).high.toNat.testBit j =
      if 8 ≤ i ∧ i % 8 = j then value else w.high.toNat.testBit j := by
  by_cases hi : i < 8
  · have hne : ¬ (8 ≤ i ∧ i % 8 = j) := by omega
    rw [placeBit, if_pos hi, if_neg hne]
  · have hge : 8 ≤ i := by omega
    rw [placeBit, if_neg hi, testBit_withBit _ (Nat.mod_lt i (by omega))]
    simp [hge, eq_comm]

/-- The bits of an address of `n` bits that fall on bit `j` of the high byte. -/
def ontoHigh (n j : Nat) : Set Nat :=
  {i | 8 ≤ i ∧ i < n ∧ i % 8 = j}

theorem isGreatest_ontoHigh_succ {n j : Nat} (h : 8 ≤ n ∧ n % 8 = j) :
    IsGreatest (ontoHigh (n + 1) j) n := by
  refine ⟨⟨h.1, by omega, h.2⟩, ?_⟩
  rintro i ⟨_, hi, _⟩
  omega

theorem ontoHigh_succ_of_not {n j : Nat} (h : ¬ (8 ≤ n ∧ n % 8 = j)) :
    ontoHigh (n + 1) j = ontoHigh n j := by
  ext i
  constructor
  · rintro ⟨hge, hlt, hmod⟩
    have hne : i ≠ n := by
      rintro rfl
      exact h ⟨hge, hmod⟩
    exact ⟨hge, by omega, hmod⟩
  · rintro ⟨hge, hlt, hmod⟩
    exact ⟨hge, by omega, hmod⟩

theorem exists_isGreatest_ontoHigh {n j : Nat} (h : ontoHigh n j ≠ ∅) :
    ∃ i, IsGreatest (ontoHigh n j) i := by
  have hbound : BddAbove (ontoHigh n j) := by
    use n
    rintro i ⟨_, hi, _⟩
    exact hi.le
  exact hbound.exists_isGreatest_of_nonempty (Set.nonempty_iff_ne_empty.mpr h)

/-- The word `packed` is `w` with the lowest `n` bits of an address written over it. -/
structure Packs (w : Word) (address : UInt32) (n : Nat) (packed : Word) : Prop where
  low : ∀ j < 8, packed.low.toNat.testBit j =
    if j < n then address.toNat.testBit j else w.low.toNat.testBit j
  /-- Of all the bits that fall on one place, the highest stays. -/
  high : ∀ j i, IsGreatest (ontoHigh n j) i →
    packed.high.toNat.testBit j = address.toNat.testBit i
  kept : ∀ j, ontoHigh n j = ∅ → packed.high.toNat.testBit j = w.high.toNat.testBit j

variable {w packed : Word} {address : UInt32} {n : Nat}

theorem packs_zero (w : Word) (address : UInt32) : Packs w address 0 w where
  low := by simp
  high := by
    rintro j i ⟨⟨_, hi, _⟩, _⟩
    omega
  kept := fun _ _ => rfl

theorem Packs.placeBit (h : Packs w address n packed) :
    Packs w address (n + 1) (packed.placeBit n (address.toNat.testBit n)) where
  low := by
    intro j hj
    rw [testBit_low_placeBit _ _ _ hj, h.low j hj]
    by_cases heq : j = n
    · simp [heq]
    · have hiff : j < n + 1 ↔ j < n := by omega
      simp [heq, hiff]
  high := by
    intro j i hi
    rw [testBit_high_placeBit]
    by_cases hn : 8 ≤ n ∧ n % 8 = j
    · rw [if_pos hn, hi.unique (isGreatest_ontoHigh_succ hn)]
    · rw [ontoHigh_succ_of_not hn] at hi
      rw [if_neg hn, h.high j i hi]
  kept := by
    intro j hj
    have hn : ¬ (8 ≤ n ∧ n % 8 = j) := by
      intro hn
      have hmem := (isGreatest_ontoHigh_succ hn).1
      rw [hj] at hmem
      exact hmem
    rw [ontoHigh_succ_of_not hn] at hj
    rw [testBit_high_placeBit, if_neg hn, h.kept j hj]

theorem packs_pack (w : Word) (address : UInt32) (bits : Nat) :
    Packs w address (min bits 32) (w.pack address bits) := by
  rw [pack]
  -- the induction is on the number of bits written so far; that there are at most 32 plays no part
  generalize min bits 32 = n
  induction n with
  | zero => exact packs_zero w address
  | succ n ih =>
    rw [List.range_succ, List.foldl_append]
    exact ih.placeBit

-- twenty bits: the last four take the places of the four from eight on
example : ofAddress 0xC5A33 20 = ⟨0x5C, 0x33⟩ := by decide

theorem Packs.unique {packed' : Word} (h : Packs w address n packed)
    (h' : Packs w address n packed') : packed = packed' := by
  have hlow : packed.low = packed'.low := by
    apply byte_eq_of_testBit_eq
    intro j
    by_cases hj : j < 8
    · rw [h.low j hj, h'.low j hj]
    · rw [testBit_of_ge_eight _ (by omega), testBit_of_ge_eight _ (by omega)]
  have hhigh : packed.high = packed'.high := by
    apply byte_eq_of_testBit_eq
    intro j
    by_cases hj : ontoHigh n j = ∅
    · rw [h.kept j hj, h'.kept j hj]
    · obtain ⟨i, hi⟩ := exists_isGreatest_ontoHigh hj
      rw [h.high j i hi, h'.high j i hi]
  exact congrArg₂ Word.mk hhigh hlow

theorem pack_eq_iff (w : Word) (address : UInt32) (bits : Nat) (packed : Word) :
    w.pack address bits = packed ↔ Packs w address (min bits 32) packed := by
  constructor
  · rintro rfl
    exact packs_pack w address bits
  · exact (packs_pack w address bits).unique

theorem Packs.overwrite {address' : UInt32} {packed' : Word} (h : Packs w address n packed)
    (h' : Packs packed address' n packed') : Packs w address' n packed' where
  low := by
    intro j hj
    rw [h'.low j hj, h.low j hj]
    by_cases hn : j < n <;> simp [hn]
  high := h'.high
  kept := by
    intro j hj
    rw [h'.kept j hj, h.kept j hj]

theorem pack_pack (w : Word) (address address' : UInt32) (bits : Nat) :
    (w.pack address bits).pack address' bits = w.pack address' bits := by
  symm
  apply (pack_eq_iff _ _ _ _).mpr
  exact (packs_pack w address bits).overwrite (packs_pack _ address' bits)

end Word

end EightBitAsm
