import EightBitAsm.Proofs.Agreement
import EightBitAsm.Proofs.Packing
import EightBitAsm.Proofs.ScopeChange

/-! Wider address domains. Every limit that widths set only grows with them, and up to sixteen bits
the word of an address that fits is the same in all widths. So a program that assembles, with all
its labels in reach, assembles to the same image in every wider domain of up to sixteen far bits. -/
namespace EightBitAsm

namespace Word

theorem eq_of_toNat_eq {v w : Word} (h : v.toNat = w.toNat) : v = w := by
  rw [toNat_eq, toNat_eq] at h
  have hv := v.low.toNat_lt
  have hw := w.low.toNat_lt
  have hhigh : v.high = w.high := UInt8.toNat_inj.mp (by omega)
  have hlow : v.low = w.low := UInt8.toNat_inj.mp (by omega)
  exact congrArg₂ Word.mk hhigh hlow

theorem ofAddress_eq_of_lt {address : UInt32} {bits bits' : Nat} (h : address.toNat < 2 ^ bits)
    (hle : bits ≤ bits') (hbits : bits' ≤ 16) :
    ofAddress address bits = ofAddress address bits' := by
  have hlt : address.toNat < 2 ^ bits' := h.trans_le (Nat.pow_le_pow_right (by omega) hle)
  apply eq_of_toNat_eq
  rw [toNat_ofAddress address (hle.trans hbits), toNat_ofAddress address hbits,
    Nat.mod_eq_of_lt h, Nat.mod_eq_of_lt hlt]

end Word

namespace Widths

theorem maxAddress_eq (bits : Nat) : maxAddress bits = 2 ^ min bits 32 - 1 := by
  rw [maxAddress, Nat.one_shiftLeft]

theorem maxAddress_mono {bits bits' : Nat} (h : bits ≤ bits') :
    maxAddress bits ≤ maxAddress bits' := by
  have hpow : 2 ^ min bits 32 ≤ 2 ^ min bits' 32 := Nat.pow_le_pow_right (by omega) (by omega)
  rw [maxAddress_eq, maxAddress_eq]
  omega

theorem lt_of_le_maxAddress {n bits : Nat} (h : n ≤ maxAddress bits) : n < 2 ^ bits := by
  have hpos : 0 < 2 ^ min bits 32 := Nat.two_pow_pos _
  have hpow : 2 ^ min bits 32 ≤ 2 ^ bits := Nat.pow_le_pow_right (by omega) (by omega)
  rw [maxAddress_eq] at h
  omega

/-- The second widths take in the first, and still give every bit of a far address a place of its
own. -/
structure WidenedBy (v w : Widths) : Prop where
  short : v.shortBits ≤ w.shortBits
  far : v.farBits ≤ w.farBits
  sixteen : w.farBits ≤ 16

theorem WidenedBy.max_le {v w : Widths} (h : v.WidenedBy w) (domain : Domain) :
    v.max domain ≤ w.max domain := by
  cases domain with
  | short => exact maxAddress_mono h.short
  | far => exact maxAddress_mono h.far

end Widths

variable {table : MnemonicTable} {v w : Widths}

/-- Wider domains keep a target together with its word, as long as named addresses fit the narrow
one. -/
theorem Scope.carries_of_fits {s t : Scope} (hw : s.widths.WidenedBy t.widths)
    (hfind : ∀ name address, s.find .far name = .ok (some address) →
      t.find .far name = .ok (some address))
    (hfits : ∀ name address, s.find .far name = .ok (some address) →
      address.toNat < 2 ^ s.widths.farBits) : s.Carries t := by
  intro text target h
  refine ⟨resolve_of_le (hw.max_le .far) hfind h, ?_⟩
  have hlt : target.address.toNat < 2 ^ s.widths.farBits := by
    rcases resolve_eq_ok_iff.mp h with ⟨_, address, _, hle, rfl⟩ | ⟨_, _, address, hf, rfl⟩
    · exact Widths.lt_of_le_maxAddress hle
    · exact hfits text address hf
  exact Word.ofAddress_eq_of_lt hlt hw.far hw.sixteen

namespace Layout

theorem addStatement_of_widened (hw : v.WidenedBy w) {layout next : Layout} {line : Line}
    (h : layout.addStatement table v line = .ok next) :
    layout.addStatement table w line = .ok next := by
  rw [addStatement_eq] at h ⊢
  cases hs : line.statement with
  | none => simpa [hs] using h
  | some statement =>
    rw [hs] at h
    cases statement with
    | declaration name value =>
      cases hr : (layout.scope v line).resolve .short value with
      | error d => simp [hr] at h
      | ok target =>
        have hmax : (layout.scope v line).widths.max .short ≤
            (layout.scope w line).widths.max .short := hw.max_le .short
        have hr' := Scope.resolve_of_le hmax (fun _ _ hfind => hfind) hr
        simpa [hr, hr'] using h
    | instruction mnemonic operands =>
      -- The first pass knows every label as zero, which fits any width.
      have hcarries : (layout.scope v line).Carries (layout.scope w line) := by
        refine Scope.carries_of_fits hw (fun _ _ hfind => hfind) ?_
        intro name address hfind
        cases hfind
        exact Nat.two_pow_pos _
      cases he : table.encode mnemonic operands (layout.scope v line) with
      | error d => simp [he] at h
      | ok e =>
        have he' := MnemonicTable.encode_of_carries hcarries he
        simpa [he, he'] using h

theorem addLines_of_widened (hw : v.WidenedBy w) {layout next : Layout} {lines : List Line}
    (h : layout.addLines table v lines = .ok next) : layout.addLines table w lines = .ok next := by
  induction lines generalizing layout with
  | nil => exact h
  | cons line lines ih =>
    obtain ⟨added, hadded, h⟩ := bind_eq_ok_iff.mp h
    obtain ⟨labelled, hlabelled, hadded⟩ := bind_eq_ok_iff.mp hadded
    refine bind_eq_ok_iff.mpr ⟨added, ?_, ih h⟩
    exact bind_eq_ok_iff.mpr ⟨labelled, hlabelled, addStatement_of_widened hw hadded⟩

end Layout

namespace Assembly

theorem ofLines_of_widened (hw : v.WidenedBy w) {lines : List Line} {out : Assembly}
    (h : ofLines table v lines = .ok out)
    (hlabels : ∀ name address, out.labels.find? name = some address →
      address.toNat < 2 ^ v.farBits) : ofLines table w lines = .ok out := by
  rw [ofLines_eq] at h ⊢
  obtain ⟨layout, hlayout, h⟩ := bind_eq_ok_iff.mp h
  obtain ⟨_, hsize, h⟩ := bind_eq_ok_iff.mp h
  obtain ⟨listing, hlisting, h⟩ := bind_eq_ok_iff.mp h
  cases h
  have hsize' : layout.checkSize w = .ok () := by
    rw [Layout.checkSize_eq_ok_iff] at hsize ⊢
    exact hsize.trans (Nat.succ_le_succ (hw.max_le .far))
  have hscopes : ∀ line, (layout.finalScope v line).Carries (layout.finalScope w line) := by
    intro line
    refine Scope.carries_of_fits hw (fun _ _ hfind => hfind) ?_
    intro name address hfind
    exact hlabels name address (Except.ok.inj hfind)
  refine bind_eq_ok_iff.mpr ⟨layout, Layout.addLines_of_widened hw hlayout, ?_⟩
  refine bind_eq_ok_iff.mpr ⟨(), hsize', ?_⟩
  exact bind_eq_ok_iff.mpr ⟨listing, Layout.listingFrom_of_carries hscopes hlisting, rfl⟩

/-- Widening the domains, up to sixteen far bits, changes nothing in an assembly whose labels are
far addresses of the narrow one. -/
theorem assemble_of_widened {text : String} {out : Assembly} (hshort : v.shortBits ≤ w.shortBits)
    (hfar : v.farBits ≤ w.farBits) (hsixteen : w.farBits ≤ 16)
    (h : assemble table v text = .ok out)
    (hlabels : ∀ name address, out.labels.find? name = some address →
      address.toNat ≤ 2 ^ v.farBits - 1) : assemble table w text = .ok out := by
  unfold assemble at h ⊢
  cases hp : Program.parse text with
  | error e => simp [hp] at h
  | ok lines =>
    rw [hp] at h
    refine ofLines_of_widened ⟨hshort, hfar, hsixteen⟩ h ?_
    intro name address hfind
    have hpos : 0 < 2 ^ v.farBits := Nat.two_pow_pos _
    have hle := hlabels name address hfind
    omega

theorem assemble_of_widened_from_three_bits : ∃ out,
    assemble InstructionSet.table ⟨2, 3⟩ "v = 3\ntop: djrnz r2, end\nint 7\nend: jc top\n" =
      .ok out ∧
    out.bytes = [0xC0, 3, 0x48, 0x38, 0] ∧
    assemble InstructionSet.table ⟨40, 16⟩ "v = 3\ntop: djrnz r2, end\nint 7\nend: jc top\n" =
      .ok out := by
  have h : assemble InstructionSet.table ⟨2, 3⟩
      "v = 3\ntop: djrnz r2, end\nint 7\nend: jc top\n" = .ok
      { bytes := [0xC0, 3, 0x48, 0x38, 0]
        listing := [⟨2, 0, [0xC0, 3], "top: djrnz r2, end"⟩, ⟨3, 2, [0x48], "int 7"⟩,
          ⟨4, 3, [0x38, 0], "end: jc top"⟩]
        labels := ⟨[("end", 3), ("top", 0)], by decide⟩
        vars := ⟨[("v", 3)], by decide⟩ } := by
    decide +kernel
  refine ⟨_, h, rfl, assemble_of_widened (by decide) (by decide) (by decide) h ?_⟩
  intro name address hfind
  have hmem := NameMap.find?_eq_some_iff.mp hfind
  rcases List.mem_cons.mp hmem with heq | hmem
  · cases heq
    decide
  · cases List.mem_singleton.mp hmem
    decide

end Assembly

end EightBitAsm
