import EightBitAsm.Proofs.Image

/-! Encoding one instruction in two scopes. The line of a scope shows in errors only, and of the
names in sight only the labels count. So an instruction that encodes in one scope has the same code
in every other that gives its target the same address and the same word. -/
namespace EightBitAsm

namespace Scope

theorem resolve_eq_ok_iff {scope : Scope} {domain : Domain} {text : String} {target : Target} :
    scope.resolve domain text = .ok target ↔
      (Text.startsWithDigit text = true ∧ ∃ address, Literal.read text = .ok address ∧
        address.toNat ≤ scope.widths.max domain ∧ .literal address = target) ∨
      (Text.startsWithDigit text = false ∧ text ≠ "" ∧ ∃ address,
        scope.find domain text = .ok (some address) ∧ .symbol domain text address = target) := by
  cases hd : Text.startsWithDigit text with
  | true =>
    rw [resolve_eq_resolveLiteral scope domain hd, resolveLiteral]
    cases hread : Literal.read text with
    | error e => cases hfault : e.fault <;> simp [hfault, fail]
    | ok address =>
      by_cases hmax : address.toNat ≤ scope.widths.max domain <;> simp [hmax, fail]
  | false =>
    by_cases hne : text = ""
    · subst hne
      simp [resolve, fail]
    · rw [resolve_eq_resolveSymbol scope domain hne hd, resolveSymbol]
      cases hfind : scope.find domain text with
      | error reason => simp [fail]
      | ok found => cases found <;> simp [fail, hne]

theorem resolve_of_le {s t : Scope} {domain : Domain}
    (hmax : s.widths.max domain ≤ t.widths.max domain)
    (hfind : ∀ name address, s.find domain name = .ok (some address) →
      t.find domain name = .ok (some address)) {text : String} {target : Target}
    (h : s.resolve domain text = .ok target) : t.resolve domain text = .ok target := by
  rcases resolve_eq_ok_iff.mp h with ⟨hd, address, hread, hle, rfl⟩ | ⟨hd, hne, address, hf, rfl⟩
  · exact resolve_eq_ok_iff.mpr (Or.inl ⟨hd, address, hread, Nat.le_trans hle hmax, rfl⟩)
  · exact resolve_eq_ok_iff.mpr (Or.inr ⟨hd, hne, address, hfind text address hf, rfl⟩)

/-- Whatever an operand stands for in the first scope it stands for in the second, and there the
address has the same word. -/
def Carries (s t : Scope) : Prop :=
  ∀ text target, s.resolve .far text = .ok target → t.resolve .far text = .ok target ∧
    Word.ofAddress target.address s.widths.farBits = Word.ofAddress target.address t.widths.farBits

theorem carries_of_find {s t : Scope} (hbits : s.widths.farBits = t.widths.farBits)
    (hfind : ∀ name address, s.find .far name = .ok (some address) →
      t.find .far name = .ok (some address)) : s.Carries t := by
  intro text target h
  have hmax : s.widths.max .far ≤ t.widths.max .far := by simp [Widths.max, hbits]
  exact ⟨resolve_of_le hmax hfind h, by rw [hbits]⟩

theorem carries_ofSymbols {v w : Widths} (h : v.farBits = w.farBits) (line line' : Nat)
    (labels vars vars' : Symbols) :
    (ofSymbols line v labels vars).Carries (ofSymbols line' w labels vars') :=
  carries_of_find h fun _ _ hfind => hfind

end Scope

namespace Instruction

theorem cycleRegister_of_ok {s : Scope} {text : String} {n : Nat}
    (h : cycleRegister s text = .ok n) (t : Scope) : cycleRegister t text = .ok n := by
  rw [cycleRegister_eq_ok_iff] at h ⊢
  exact h

theorem read_of_ok {i : Instruction} {s : Scope} {operands : List String} {o : Operation String}
    (h : i.read s operands = .ok o) (t : Scope) : i.read t operands = .ok o := by
  unfold read at h ⊢
  split at h
  · exact h
  · obtain ⟨n, hn, h⟩ := bind_eq_ok_iff.mp h
    exact bind_eq_ok_iff.mpr ⟨n, cycleRegister_of_ok hn t, h⟩
  · exact h
  · exact h
  · cases h

end Instruction

namespace Operation

theorem resolve_of_carries {s t : Scope} (hst : s.Carries t) {o : Operation String}
    {p : Operation Target} (h : o.resolve s = .ok p) :
    o.resolve t = .ok p ∧ (p.map Target.address).bytes s.widths.farBits =
      (p.map Target.address).bytes t.widths.farBits := by
  rcases resolve_eq_ok_iff.mp h with ⟨opcode, rfl, rfl⟩ | ⟨kind, text, target, rfl, htarget, rfl⟩
  · exact ⟨rfl, rfl⟩
  · obtain ⟨htarget', hword⟩ := hst text target htarget
    refine ⟨resolve_eq_ok_iff.mpr (Or.inr ⟨kind, text, target, rfl, htarget', rfl⟩), ?_⟩
    simp only [map, bytes, hword]

end Operation

/-- An instruction keeps its code in every scope that carries its target over. -/
theorem MnemonicTable.encode_of_carries {table : MnemonicTable} {mnemonic : String}
    {operands : List String} {s t : Scope} (hst : s.Carries t) {e : Emission}
    (h : table.encode mnemonic operands s = .ok e) : table.encode mnemonic operands t = .ok e := by
  obtain ⟨i, o, p, hi, ho, hp, rfl⟩ := encode_eq_ok_iff.mp h
  obtain ⟨hp', hbytes⟩ := Operation.resolve_of_carries hst hp
  refine encode_eq_ok_iff.mpr ⟨i, o, p, hi, Instruction.read_of_ok ho t, hp', ?_⟩
  rw [Instruction.emission, Instruction.emission, hbytes]

theorem Layout.listingFrom_of_carries {table : MnemonicTable} {x y : Layout} {v w : Widths}
    (hscopes : ∀ line, (x.finalScope v line).Carries (y.finalScope w line)) {start : Nat}
    {lines : List Line} {listing : List ListingLine}
    (h : x.listingFrom table v start lines = .ok listing) :
    y.listingFrom table w start lines = .ok listing := by
  induction lines generalizing start listing with
  | nil => exact h
  | cons line lines ih =>
    rcases listingFrom_cons_eq_ok h with ⟨hi, h⟩ | ⟨mnemonic, operands, e, rest, hs, he, hrest, rfl⟩
    · rw [listingFrom_cons_of_not_isInstruction hi]
      exact ih h
    · have he' := MnemonicTable.encode_of_carries (hscopes line) he
      rw [listingFrom_cons_of_statement hs, he']
      exact bind_eq_ok_iff.mpr ⟨rest, ih hrest, rfl⟩

end EightBitAsm
