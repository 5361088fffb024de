import EightBitAsm.Proofs.AddressBits
import EightBitAsm.Proofs.Operation

/-! Words as numbers. Below sixteen the bits of an address have places of their own, so packing
replaces the word below the width and keeps it above, and a fresh word reads back as the address cut
to its width. With at most ten bits the tags of an instruction stand clear of the address. -/
namespace EightBitAsm

namespace Word

def toNat (w : Word) : Nat := w.high.toNat <<< 8 ||| w.low.toNat

theorem testBit_toNat (w : Word) (j : Nat) :
    w.toNat.testBit j =
      if j < 8 then w.low.toNat.testBit j else w.high.toNat.testBit (j - 8) := by
  rw [toNat, Nat.testBit_or, Nat.testBit_shiftLeft]
  by_cases hj : j < 8
  · have hge : ¬ 8 ≤ j := by omega
    simp [hj, hge]
  · have hge : 8 ≤ j := by omega
    simp [hj, hge, testBit_of_ge_eight w.low hge]

theorem toNat_eq (w : Word) : w.toNat = w.high.toNat * 256 + w.low.toNat := by
  have hlow : w.low.toNat < 2 ^ 8 := w.low.toNat_lt
  rw [toNat, ← Nat.shiftLeft_add_eq_or_of_lt hlow, Nat.shiftLeft_eq]

/-- Below sixteen every address bit has a place of its own. -/
theorem isGreatest_ontoHigh {n j : Nat} (hn : n ≤ 16) (hj : 8 ≤ j) (h : j < n) :
    IsGreatest (ontoHigh n (j - 8)) j := by
  refine ⟨⟨hj, h, by omega⟩, ?_⟩
  rintro i ⟨_, hi, hmod⟩
  omega

theorem ontoHigh_eq_empty {n j : Nat} (hn : n ≤ 16) (h : n ≤ j) : ontoHigh n (j - 8) = ∅ := by
  apply Set.eq_empty_of_forall_notMem
  rintro i ⟨_, hi, hmod⟩
  omega

theorem testBit_pack (w : Word) (address : UInt32) {bits : Nat} (h : bits ≤ 16) (j : Nat) :
    (w.pack address bits).toNat.testBit j =
      if j < bits then address.toNat.testBit j else w.toNat.testBit j := by
  have hpacks := packs_pack w address bits
  rw [show min bits 32 = bits by omega] at hpacks
  rw [testBit_toNat, testBit_toNat]
  by_cases hj : j < 8
  · rw [if_pos hj, if_pos hj, hpacks.low j hj]
  · rw [if_neg hj, if_neg hj]
    by_cases hlt : j < bits
    · rw [if_pos hlt, hpacks.high _ j (isGreatest_ontoHigh h (by omega) hlt)]
    · rw [if_neg hlt, hpacks.kept _ (ontoHigh_eq_empty h (by omega))]

theorem toNat_pack (w : Word) (address : UInt32) {bits : Nat} (h : bits ≤ 16) :
    (w.pack address bits).toNat = w.toNat >>> bits <<< bits + address.toNat % 2 ^ bits := by
  have hlt : address.toNat % 2 ^ bits < 2 ^ bits := Nat.mod_lt _ (by positivity)
  rw [Nat.shiftLeft_add_eq_or_of_lt hlt]
  apply Nat.eq_of_testBit_eq
  intro j
  rw [testBit_pack _ _ h, Nat.testBit_or, Nat.testBit_shiftLeft, Nat.testBit_shiftRight,
    Nat.testBit_mod_two_pow]
  by_cases hj : j < bits
  · have hge : ¬ bits ≤ j := by omega
    simp [hj, hge]
  · have hge : bits ≤ j := by omega
    simp [hj, hge]

theorem toNat_ofAddress (address : UInt32) {bits : Nat} (h : bits ≤ 16) :
    (ofAddress address bits).toNat = address.toNat % 2 ^ bits := by
  rw [ofAddress, toNat_pack _ _ h]
  simp [toNat, zero]

/-- At every width each bit of a packed word is the last address bit written onto it, or the old bit
where none is written. Up to sixteen bits the word as a number keeps what is above the width and has
the address below it, and a fresh one reads back as the address cut to the width. A second address
of the same width replaces the first, also where bits of one address meet. -/
theorem pack_exact (w : Word) (address address' : UInt32) (bits : Nat) :
    (∀ packed, w.pack address bits = packed ↔ Packs w address (min bits 32) packed) ∧
    (bits ≤ 16 →
      (w.pack address bits).toNat = w.toNat >>> bits <<< bits + address.toNat % 2 ^ bits ∧
      (ofAddress address bits).toNat = address.toNat % 2 ^ bits) ∧
    (w.pack address bits).pack address' bits = w.pack address' bits := by
  refine ⟨pack_eq_iff w address bits, ?_, pack_pack w address address' bits⟩
  intro h
  exact ⟨toNat_pack w address h, toNat_ofAddress address h⟩

/-- Eleven bits end inside the high byte: its lowest three bits are replaced, its marks stay, and
what the address has above goes nowhere. -/
theorem pack_exact_eleven_bits :
    Packs ⟨0xE5, 0x3C⟩ 0xFFFFFA81 11 ⟨0xE2, 0x81⟩ ∧
    toNat ⟨0xE2, 0x81⟩ = toNat ⟨0xE5, 0x3C⟩ >>> 11 <<< 11 + 0x281 ∧
    (ofAddress 0xFFFFFA81 11).toNat = 0x281 ∧
    pack ⟨0xE2, 0x81⟩ 0x70F 11 = ⟨0xE7, 0x0F⟩ := by
  have hpack : pack ⟨0xE5, 0x3C⟩ 0xFFFFFA81 11 = ⟨0xE2, 0x81⟩ := by decide
  obtain ⟨hexact, hnumber, htwice⟩ := pack_exact ⟨0xE5, 0x3C⟩ 0xFFFFFA81 0x70F 11
  obtain ⟨hword, hfresh⟩ := hnumber (by omega)
  rw [hpack] at hword htwice
  exact ⟨(hexact _).mp hpack, hword, hfresh, htwice.trans (by decide)⟩

theorem high_lt_four {w : Word} (h : w.toNat < 1024) : w.high.toNat < 4 := by
  rw [toNat_eq] at h
  omega

theorem toNat_tag {w : Word} {tags : Tags} (hw : w.toNat < 1024) (ht : tags.bits.toNat % 4 = 0) :
    (w.tag tags).toNat = tags.bits.toNat * 256 + w.toNat := by
  have hhigh : w.high.toNat < 2 ^ 2 := high_lt_four hw
  have hor : (w.high ||| tags.bits).toNat = tags.bits.toNat + w.high.toNat := by
    have hsplit : tags.bits.toNat = 2 ^ 2 * (tags.bits.toNat / 4) := by omega
    rw [UInt8.toNat_or, Nat.or_comm, hsplit, ← Nat.two_pow_add_eq_or_of_lt hhigh]
  rw [toNat_eq, toNat_eq, tag, hor]
  ring

theorem toNat_selectRegister {w : Word} {register : Nat} (hw : w.toNat < 1024)
    (hr : register ≤ 3) :
    ((w.selectRegister register).tag .cycle).toNat = (128 + 32 * register) * 256 + w.toNat := by
  have hhigh : w.high.toNat < 4 := high_lt_four hw
  have hbyte : (withBit (withBit w.high 5 (register.testBit 0)) 6 (register.testBit 1) |||
      Tags.cycle.bits).toNat = 128 + 32 * register + w.high.toNat := by
    have hcases : w.high = 0 ∨ w.high = 1 ∨ w.high = 2 ∨ w.high = 3 := by
      rw [← UInt8.toNat_inj, ← UInt8.toNat_inj, ← UInt8.toNat_inj, ← UInt8.toNat_inj]
      simp only [UInt8.reduceToNat]
      omega
    interval_cases register <;> rcases hcases with h | h | h | h <;> rw [h] <;> rfl
  rw [toNat_eq, toNat_eq, tag, selectRegister, hbyte]
  ring

end Word

namespace Transfer

def mark : Transfer → Nat
  | cycle register => 128 + 32 * register
  | branch condition => condition.bits.toNat
  | control tag _ => tag.bits.toNat

def LeavesAddress : Transfer → Prop
  | cycle register => register ≤ 3
  | branch condition => condition.bits.toNat % 4 = 0
  | control tag _ => tag.bits.toNat % 4 = 0

theorem toNat_stamp {k : Transfer} {w : Word} (hk : k.LeavesAddress) (hw : w.toNat < 1024) :
    (k.stamp w).toNat = k.mark * 256 + w.toNat := by
  cases k with
  | cycle register => exact Word.toNat_selectRegister hw hk
  | branch condition => exact Word.toNat_tag hw hk
  | control tag emitLow => exact Word.toNat_tag hw hk

theorem mark_mod_four {k : Transfer} (hk : k.LeavesAddress) : k.mark % 4 = 0 := by
  cases k with
  | cycle register => simp only [mark]; omega
  | branch condition => exact hk
  | control tag emitLow => exact hk

theorem toNat_stamp_ofAddress {k : Transfer} (hk : k.LeavesAddress) (address : UInt32)
    {bits : Nat} (h : bits ≤ 10) :
    (k.stamp (Word.ofAddress address bits)).toNat = k.mark * 256 + address.toNat % 2 ^ bits := by
  have hword := Word.toNat_ofAddress address (show bits ≤ 16 by omega)
  have hpow : 2 ^ bits ≤ 2 ^ 10 := Nat.pow_le_pow_right (by omega) h
  have hlt : address.toNat % 2 ^ bits < 1024 := lt_of_lt_of_le (Nat.mod_lt _ (by positivity)) hpow
  rw [toNat_stamp hk (by rw [hword]; exact hlt), hword]

end Transfer

end EightBitAsm
