import EightBitAsm.Proofs.Agreement
import EightBitAsm.Proofs.InstructionSet

/-! Jumps to labels. With at most ten far bits the two bytes of a jump give back the address of its
label cut to the width. Every label of a program that fits is cut to itself, except the one that
stands behind the last byte of a full memory. -/
namespace EightBitAsm

def Operation.Legal {α : Type} : Operation α → Prop
  | implied _ => True
  | transfer kind _ => kind.Legal

namespace Transfer

theorem two_pow_dvd_mark {k : Transfer} (h : k.LeavesAddress) {farBits : Nat} (hw : farBits ≤ 10) :
    2 ^ farBits ∣ k.mark * 256 := by
  have hpow : 2 ^ farBits ∣ 2 ^ 10 := pow_dvd_pow 2 hw
  have hmark : 2 ^ 10 ∣ k.mark * 256 := by
    have := mark_mod_four h
    omega
  exact hpow.trans hmark

theorem stamp_mod {k : Transfer} (h : k.LeavesAddress) (address : UInt32) {farBits : Nat}
    (hw : farBits ≤ 10) :
    (k.stamp (Word.ofAddress address farBits)).toNat % 2 ^ farBits =
      address.toNat % 2 ^ farBits := by
  rw [toNat_stamp_ofAddress h address hw, Nat.add_mod,
    Nat.mod_eq_zero_of_dvd (two_pow_dvd_mark h hw), Nat.zero_add, Nat.mod_mod, Nat.mod_mod]

end Transfer

namespace InstructionSet

def jumps : List String :=
  ["djrnz", "jnz", "jnc", "jns", "jno", "jz", "jc", "js", "jo", "jmp", "call"]

theorem all_jumps : ∀ mnemonic ∈ jumps, (table.lookup? mnemonic).all fun i =>
    i.encoding.size = 2 && i.encoding.family ≠ .noOperand := by
  decide +kernel

theorem legal_of_operation? {line : Line} {scope : Scope} {o : Operation UInt32}
    (h : line.operation? table scope = some o) : o.Legal := by
  obtain ⟨mnemonic, operands, i, r, p, hs, hi, hr, hp, rfl⟩ := Line.operation?_eq_some_iff.mp h
  have hmarked := wellMarked_of_lookup? hi
  obtain ⟨opcode, rfl, rfl⟩ | ⟨kind, text, target, rfl, _, rfl⟩ := Operation.resolve_eq_ok_iff.1 hp
  · trivial
  · obtain ⟨opcode, _, h⟩ | ⟨kind', text', hkind, _, h, hregister⟩ := Instruction.read_cases hr
    · cases h
    · cases h
      exact ⟨hkind ▸ hmarked, hregister⟩

theorem operation?_of_jump {line : Line} {scope : Scope} {o : Operation UInt32}
    {mnemonic name : String} {operands : List String}
    (hs : line.statement = some (.instruction mnemonic operands)) (hm : mnemonic ∈ jumps)
    (ht : operands.getLast? = some name) (hd : Text.startsWithDigit name = false)
    (h : line.operation? table scope = some o) :
    ∃ kind address, o = .transfer kind address ∧ kind.emitLow = true ∧
      scope.find .far name = .ok (some address) := by
  obtain ⟨m, ops, i, r, p, hs', hi, hr, hp, rfl⟩ := Line.operation?_eq_some_iff.mp h
  cases hs.symm.trans hs'
  have hjump := all_jumps mnemonic hm
  rw [hi, Option.all_some, Bool.and_eq_true, decide_eq_true_eq, decide_eq_true_eq] at hjump
  obtain ⟨hsize, hfamily⟩ := hjump
  obtain ⟨opcode, hopcode, rfl⟩ | ⟨kind, text, hkind, htext, rfl, _⟩ := Instruction.read_cases hr
  · rw [hopcode] at hfamily
    exact absurd rfl hfamily
  · cases ht.symm.trans htext
    rw [hkind, Transfer.size_encoding] at hsize
    obtain ⟨_, hr, _⟩ | ⟨_, _, target, hr, htarget, rfl⟩ := Operation.resolve_eq_ok_iff.1 hp
    · cases hr
    · cases hr
      refine ⟨kind, target.address, rfl, by simpa using hsize, ?_⟩
      rw [Scope.resolve_eq_resolveSymbol _ _ (Scope.ne_empty_of_resolve htarget) hd] at htarget
      unfold Scope.resolveSymbol at htarget
      split at htarget
      · next address hfind =>
        cases htarget
        exact hfind
      · cases htarget
      · cases htarget

end InstructionSet

namespace Widths

theorem max_far_eq {widths : Widths} (h : widths.farBits ≤ 10) :
    widths.max .far + 1 = 2 ^ widths.farBits := by
  have hcapacity := widths.capacity_eq
  rw [Nat.min_eq_left (by omega)] at hcapacity
  exact hcapacity

end Widths

/-- A jump to a label gives back the address of the label exactly if that is a far address. The only
other address a label can have is the one behind the last byte of a full memory, and then the jump
gives back zero. -/
theorem jump_reads_back_iff {widths : Widths} {text : String} {out : Assembly} {lines : List Line}
    {line : Line} {mnemonic name : String} {operands : List String} (hw : widths.farBits ≤ 10)
    (h : assemble InstructionSet.table widths text = .ok out)
    (hp : Program.parse text = .ok lines) (hline : line ∈ lines)
    (hs : line.statement = some (.instruction mnemonic operands))
    (hm : mnemonic ∈ InstructionSet.jumps) (ht : operands.getLast? = some name)
    (hd : Text.startsWithDigit name = false) :
    ∃ entry high low address, out.listing.filter (fun e => e.line = line.number) = [entry] ∧
      entry.bytes = [high, low] ∧ out.labels.find? name = some address ∧
      ((Word.mk high low).toNat % 2 ^ widths.farBits = address.toNat ↔
        address.toNat ≤ widths.max .far) ∧
      (address.toNat ≤ widths.max .far ∨
        address.toNat = widths.max .far + 1 ∧ out.bytes.length = widths.max .far + 1 ∧
          (Word.mk high low).toNat % 2 ^ widths.farBits = 0) := by
  obtain ⟨lines', hp', hbuilt⟩ := Assembly.built_of_assemble h
  cases hp.symm.trans hp'
  have hi : line.isInstruction = true := Line.isInstruction_iff.mpr ⟨_, _, hs⟩
  obtain ⟨entry, hentry, hlists⟩ :=
    hbuilt.entry_of_line (Program.pairwise_number_of_parse hp) hline hi
  obtain ⟨o, ho, hbytes⟩ := hlists.bytes
  have hlegal := InstructionSet.legal_of_operation? ho
  obtain ⟨kind, address, rfl, hlow, hfind⟩ := InstructionSet.operation?_of_jump hs hm ht hd ho
  let w := kind.stamp (Word.ofAddress address widths.farBits)
  have hmod : w.toNat % 2 ^ widths.farBits = address.toNat % 2 ^ widths.farBits :=
    Transfer.stamp_mod hlegal.leavesAddress address hw
  have hlabel : out.labels.find? name = some address := by
    rw [hbuilt.labels]
    exact Except.ok.inj hfind
  have hmax := Widths.max_far_eq hw
  refine ⟨entry, w.high, w.low, address, hentry, ?_, hlabel, ?_, ?_⟩
  · simp [hbytes, Operation.bytes, hlow, w]
  · change w.toNat % 2 ^ widths.farBits = address.toNat ↔ _
    rw [hmod, Nat.mod_eq_iff_lt (by positivity)]
    omega
  · have hle := hbuilt.label_le hlabel
    have hfits : Program.size InstructionSet.table lines ≤ widths.max .far + 1 := hbuilt.fits
    by_cases hfar : address.toNat ≤ widths.max .far
    · exact Or.inl hfar
    · have haddress : address.toNat = widths.max .far + 1 := by omega
      refine Or.inr ⟨haddress, by rw [hbuilt.length_bytes]; omega, ?_⟩
      change w.toNat % 2 ^ widths.farBits = 0
      rw [hmod, haddress, hmax, Nat.mod_self]

theorem cycle_jump_reads_back : ∃ out,
    assemble InstructionSet.table {} "nop\nloop: DJRNZ r3, loop\n" = .ok out ∧
    ∃ entry high low address, out.listing.filter (fun e => e.line = 2) = [entry] ∧
      entry.bytes = [high, low] ∧ out.labels.find? "loop" = some address ∧
      ((Word.mk high low).toNat % 2 ^ 10 = address.toNat ↔ address.toNat ≤ 1023) ∧
      (address.toNat ≤ 1023 ∨ address.toNat = 1024 ∧ out.bytes.length = 1024 ∧
        (Word.mk high low).toNat % 2 ^ 10 = 0) := by
  have h : assemble InstructionSet.table {} "nop\nloop: DJRNZ r3, loop\n" = .ok
      { bytes := [0, 1, 0xE0, 2]
        listing := [⟨1, 0, [0, 1], "nop"⟩, ⟨2, 2, [0xE0, 2], "loop: DJRNZ r3, loop"⟩]
        labels := ⟨[("loop", 2)], by decide⟩
        vars := .empty } := by
    decide +kernel
  have hp : Program.parse "nop\nloop: DJRNZ r3, loop\n" = .ok
      [⟨1, none, some (.instruction "nop" []), "nop"⟩,
        ⟨2, some "loop", some (.instruction "djrnz" ["r3", "loop"]), "loop: DJRNZ r3, loop"⟩] := by
    decide +kernel
  exact ⟨_, h, jump_reads_back_iff (by decide) h hp (List.mem_cons_of_mem _ List.mem_cons_self) rfl
    (by decide) rfl (by decide +kernel)⟩

/-- A jump to the end of a full memory goes to its start. -/
theorem jump_to_end_of_full_memory : ∃ out,
    assemble InstructionSet.table ⟨8, 1⟩ "jmp end\nend:\n" = .ok out ∧
    out.listing = [⟨1, 0, [0x40, 0], "jmp end"⟩] ∧ out.labels.find? "end" = some 2 ∧
    (Word.mk 0x40 0).toNat % 2 ^ 1 ≠ 2 := by
  have h : assemble InstructionSet.table ⟨8, 1⟩ "jmp end\nend:\n" = .ok
      { bytes := [0x40, 0]
        listing := [⟨1, 0, [0x40, 0], "jmp end"⟩]
        labels := ⟨[("end", 2)], by decide⟩
        vars := .empty } := by
    decide +kernel
  exact ⟨_, h, rfl, by decide +kernel, by decide⟩

end EightBitAsm
