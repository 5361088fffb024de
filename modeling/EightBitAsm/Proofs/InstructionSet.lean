import EightBitAsm.InstructionSet
import EightBitAsm.Proofs.Packing

/-! The instructions of the processor as a code. A table holds exactly the instructions it was made
from, and each family of this one marks the high byte in a range of its own. -/
namespace EightBitAsm

namespace MnemonicTable

theorem insert_eq_ok {table next : MnemonicTable} {i : Instruction}
    (h : table.insert i = .ok next) :
    table.encodings.find? i.mnemonic = none ∧
      next.encodings = table.encodings.insert i.mnemonic i.encoding := by
  unfold insert at h
  split at h
  · cases h
  · next hfresh =>
    cases h
    refine ⟨?_, rfl⟩
    simpa [NameMap.contains] using hfresh

theorem find?_encodings_insertAll {table next : MnemonicTable} {is : List Instruction}
    (h : table.insertAll is = .ok next) {mnemonic : String} {encoding : Encoding} :
    next.encodings.find? mnemonic = some encoding ↔
      table.encodings.find? mnemonic = some encoding ∨ ⟨mnemonic, encoding⟩ ∈ is := by
  induction is generalizing table with
  | nil =>
    cases h
    simp
  | cons i is ih =>
    unfold insertAll at h
    split at h
    · next added hadded =>
      obtain ⟨hfresh, hinsert⟩ := insert_eq_ok hadded
      rw [ih h, hinsert, NameMap.find?_insert, List.mem_cons, ← or_assoc]
      rcases i with ⟨m, e⟩
      by_cases hm : mnemonic = m
      · subst hm
        simp [hfresh, eq_comm]
      · simp [hm]
    · cases h

theorem lookupExact?_eq_some_iff {families : List (List Instruction)} {table : MnemonicTable}
    (h : ofFamilies families = .ok table) {mnemonic : String} {i : Instruction} :
    table.lookupExact? mnemonic = some i ↔ i ∈ families.flatten ∧ i.mnemonic = mnemonic := by
  have hfind : ∀ encoding, table.encodings.find? mnemonic = some encoding ↔
      ⟨mnemonic, encoding⟩ ∈ families.flatten := by
    intro encoding
    rw [find?_encodings_insertAll h]
    simp [empty]
  rw [lookupExact?, Option.map_eq_some_iff]
  constructor
  · rintro ⟨encoding, hencoding, rfl⟩
    exact ⟨(hfind encoding).mp hencoding, rfl⟩
  · rintro ⟨hmem, rfl⟩
    exact ⟨i.encoding, (hfind i.encoding).mpr hmem, rfl⟩

theorem mem_of_lookup? {families : List (List Instruction)} {table : MnemonicTable}
    (h : ofFamilies families = .ok table) {mnemonic : String} {i : Instruction}
    (hi : table.lookup? mnemonic = some i) :
    i ∈ families.flatten ∧ (i.mnemonic = mnemonic ∨ i.mnemonic = Text.lowercase mnemonic) := by
  rcases Option.or_eq_some_iff.mp hi with hm | ⟨_, hm⟩
  · obtain ⟨hmem, heq⟩ := (lookupExact?_eq_some_iff h).mp hm
    exact ⟨hmem, Or.inl heq⟩
  · obtain ⟨hmem, heq⟩ := (lookupExact?_eq_some_iff h).mp hm
    exact ⟨hmem, Or.inr heq⟩

end MnemonicTable

theorem Tags.eq_of_toNat_bits_eq {s t : Tags} (h : s.bits.toNat = t.bits.toNat) : s = t := by
  have hbits : s.bits = t.bits := UInt8.toNat_inj.mp h
  rcases s with ⟨s⟩
  rcases t with ⟨t⟩
  exact congrArg Tags.mk hbits

/-- The marks of branches and of control instructions lie apart, keep clear of the two lowest
bits, and tell the one-byte form. -/
def Encoding.WellMarked : Encoding → Prop
  | implied _ | cycleJump => True
  | branch condition => condition.bits.toNat % 4 = 0 ∧ 32 ≤ condition.bits.toNat ∧
      condition.bits.toNat < 64
  | control tag emitLow => tag.bits.toNat % 4 = 0 ∧ 64 ≤ tag.bits.toNat ∧
      tag.bits.toNat < 128 ∧ (emitLow = false ↔ tag.bits.toNat = 72)

instance : (encoding : Encoding) → Decidable encoding.WellMarked
  | .implied _ | .cycleJump => inferInstanceAs (Decidable True)
  | .branch _ => inferInstanceAs (Decidable (_ ∧ _ ∧ _))
  | .control .. => inferInstanceAs (Decidable (_ ∧ _ ∧ _ ∧ (_ ↔ _)))

def Transfer.Legal (k : Transfer) : Prop :=
  k.encoding.WellMarked ∧ ∀ register, k = .cycle register → register ≤ 3

namespace InstructionSet

theorem wellMarked_of_mem : ∀ i ∈ families.flatten, i.encoding.WellMarked := by
  decide +kernel

/-- Three conditional branches share a code; every other encoding belongs to one mnemonic. -/
theorem mnemonic_of_encoding : ∀ i ∈ families.flatten, ∀ j ∈ families.flatten,
    i.encoding = j.encoding → i.mnemonic = j.mnemonic ∨
      i.mnemonic ∈ ["jno", "jc", "js"] ∧ j.mnemonic ∈ ["jno", "jc", "js"] := by
  decide +kernel

theorem wellMarked_of_lookup? {mnemonic : String} {i : Instruction}
    (h : table.lookup? mnemonic = some i) : i.encoding.WellMarked :=
  wellMarked_of_mem i (MnemonicTable.mem_of_lookup? ofFamilies_families h).1

end InstructionSet

namespace Transfer

variable {k l : Transfer}

theorem Legal.leavesAddress (h : k.Legal) : k.LeavesAddress := by
  cases k with
  | cycle register => exact h.2 register rfl
  | branch condition => exact h.1.1
  | control tag emitLow => exact h.1.1

theorem Legal.mark_pos (h : k.Legal) : 32 ≤ k.mark := by
  cases k with
  | cycle register => simp only [mark]; omega
  | branch condition => exact h.1.2.1
  | control tag emitLow => exact le_trans (by omega) h.1.2.1

theorem Legal.eq_of_mark_eq (hk : k.Legal) (hl : l.Legal) (h : k.mark = l.mark) : k = l := by
  obtain ⟨hk, -⟩ := hk
  obtain ⟨hl, -⟩ := hl
  -- Different families have marks in different ranges.
  cases k <;> cases l <;> simp only [encoding, Encoding.WellMarked, mark] at hk hl h <;>
    try omega
  case cycle.cycle m n =>
    have hmn : m = n := by omega
    rw [hmn]
  case branch.branch c d => rw [Tags.eq_of_toNat_bits_eq h]
  case control.control s a t b =>
    obtain rfl := Tags.eq_of_toNat_bits_eq h
    have hab : a = false ↔ b = false := hk.2.2.2.trans hl.2.2.2.symm
    cases a <;> cases b <;> simp_all

end Transfer

end EightBitAsm
