import EightBitAsm.Instruction
import EightBitAsm.Proofs.LiteralText

/-! How register operands are written. A text is read as an operand exactly if it is one of the
written forms of that operand, so that signs and `@` can be seen in the text itself; and the
registers that a cycle jump takes are the plain ones from R0 to R3. -/
namespace EightBitAsm

def Change.before : Change → List Char
  | preIncrement => ['+']
  | preDecrement => ['-']
  | _ => []

def Change.behind : Change → List Char
  | postIncrement => ['+']
  | postDecrement => ['-']
  | _ => []

def Addressing.mark : Addressing → List Char
  | direct => []
  | indirect => ['@']

namespace RegisterOperand

variable {r : RegisterOperand} {cs : List Char}

/-- The written forms of an operand, which differ in the case of their letters only. -/
def Written (r : RegisterOperand) (cs : List Char) : Prop :=
  ∃ letter digit, (letter = 'R' ∨ letter = 'r') ∧ Text.digitValue? 16 digit = some r.number ∧
    cs = r.change.before ++ r.addressing.mark ++ letter :: digit :: r.change.behind

theorem leadingChange_eq {lead : Change} {rest : List Char}
    (h : leadingChange cs = (lead, rest)) : cs = lead.before ++ rest ∧ lead.behind = [] := by
  unfold leadingChange at h
  split at h
  · cases h
    exact ⟨rfl, rfl⟩
  · cases h
    exact ⟨rfl, rfl⟩
  · cases h
    exact ⟨rfl, rfl⟩

theorem leadingAddressing_eq {addressing : Addressing} {rest : List Char}
    (h : leadingAddressing cs = (addressing, rest)) : cs = addressing.mark ++ rest := by
  unfold leadingAddressing at h
  split at h
  · cases h
    rfl
  · cases h
    rfl

theorem finalChange?_eq_some {lead change : Change} {rest : List Char} (hlead : lead.behind = [])
    (h : finalChange? lead rest = some change) :
    change.before = lead.before ∧ rest = change.behind := by
  unfold finalChange? at h
  split at h
  · cases h
    exact ⟨rfl, hlead.symm⟩
  · split at h
    · next hunchanged =>
      cases h
      exact ⟨by rw [hunchanged]; rfl, rfl⟩
    · cases h
  · split at h
    · next hunchanged =>
      cases h
      exact ⟨by rw [hunchanged]; rfl, rfl⟩
    · cases h
  · cases h

theorem written_of_ofChars? (h : ofChars? cs = some r) : Written r cs := by
  unfold ofChars? at h
  rcases hlead : leadingChange cs with ⟨lead, signless⟩
  rcases hmark : leadingAddressing signless with ⟨addressing, bare⟩
  obtain ⟨rfl, hbehind⟩ := leadingChange_eq hlead
  have hsignless := leadingAddressing_eq hmark
  simp only [hlead, hmark] at h
  split at h
  · next letter digit rest =>
    split at h
    · next hletter =>
      obtain ⟨number, hnumber, h⟩ := Option.bind_eq_some_iff.mp h
      obtain ⟨change, hchange, h⟩ := Option.bind_eq_some_iff.mp h
      cases h
      obtain ⟨hbefore, hrest⟩ := finalChange?_eq_some hbehind hchange
      exact ⟨letter, digit, hletter, hnumber, by simp [hbefore, hsignless, hrest]⟩
    · cases h
  · cases h

theorem Written.ofChars?_eq (h : Written r cs) : ofChars? cs = some r := by
  obtain ⟨number, addressing, change⟩ := r
  obtain ⟨letter, digit, hletter, hdigit, rfl⟩ := h
  rcases hletter with rfl | rfl <;> cases change <;> cases addressing <;>
    simp [ofChars?, Change.before, Change.behind, Addressing.mark, leadingChange,
      leadingAddressing, finalChange?, hdigit]

theorem utf8Len_of_ascii (h : ∀ c ∈ cs, c.toNat ≤ 126) : String.utf8Len cs = cs.length := by
  induction cs with
  | nil => rfl
  | cons c cs ih =>
    have hsize : c.utf8Size = 1 := by
      rw [Char.utf8Size_eq_one_iff, UInt32.le_iff_toNat_le]
      exact Nat.le_succ_of_le (h c List.mem_cons_self)
    rw [String.utf8Len_cons, ih fun d hd => h d (List.mem_cons_of_mem _ hd), hsize]
    rfl

theorem Written.ascii (h : Written r cs) : ∀ c ∈ cs, c.toNat ≤ 126 := by
  obtain ⟨number, addressing, change⟩ := r
  obtain ⟨letter, digit, hletter, hdigit, rfl⟩ := h
  have hascii := (Text.ascii_of_digitValue? hdigit).2
  rcases hletter with rfl | rfl <;> cases change <;> cases addressing <;>
    simp [Change.before, Change.behind, Addressing.mark, hascii]

/-- The bound on the bytes of a text refuses no written form. -/
theorem Written.utf8ByteSize {text : String} (h : Written r text.toList) :
    2 ≤ text.utf8ByteSize ∧ text.utf8ByteSize ≤ 4 := by
  have hsize : text.utf8ByteSize = text.toList.length := by
    rw [← utf8Len_of_ascii h.ascii, ← String.utf8ByteSize_ofList, String.ofList_toList]
  obtain ⟨number, addressing, change⟩ := r
  obtain ⟨letter, digit, -, -, htext⟩ := h
  rw [hsize, htext]
  cases change <;> cases addressing <;> simp [Change.before, Change.behind, Addressing.mark]

theorem parse?_eq_some_iff {text : String} : parse? text = some r ↔ Written r text.toList := by
  unfold parse?
  constructor
  · intro h
    split at h
    · exact written_of_ofChars? h
    · cases h
  · intro h
    rw [if_pos h.utf8ByteSize]
    exact h.ofChars?_eq

def Signed (cs : List Char) : Prop :=
  ∃ c, (c = '+' ∨ c = '-') ∧ (cs.head? = some c ∨ cs.getLast? = some c)

theorem Written.isChange_iff (h : Written r cs) : r.change.isChange = true ↔ Signed cs := by
  obtain ⟨number, addressing, change⟩ := r
  obtain ⟨letter, digit, hletter, hdigit, rfl⟩ := h
  have hplus : digit ≠ '+' := by
    rintro rfl
    cases hdigit
  have hminus : digit ≠ '-' := by
    rintro rfl
    cases hdigit
  rcases hletter with rfl | rfl <;> cases change <;> cases addressing <;>
    simp [Change.isChange, Signed, Change.before, Change.behind, Addressing.mark, hplus, hminus]

theorem Written.isDirect_iff (h : Written r cs) : r.isDirect = true ↔ '@' ∉ cs := by
  obtain ⟨number, addressing, change⟩ := r
  obtain ⟨letter, digit, hletter, hdigit, rfl⟩ := h
  have hdigit' : '@' ≠ digit := by
    rintro rfl
    cases hdigit
  rcases hletter with rfl | rfl <;> cases change <;> cases addressing <;>
    simp [isDirect, Change.before, Change.behind, Addressing.mark, hdigit']

end RegisterOperand

theorem Text.eq_digitChar_of_digitValue? {radix n : Nat} {c : Char} (hn : n < 10)
    (h : digitValue? radix c = some n) : c = Nat.digitChar n := by
  obtain ⟨-, ⟨hcode, -⟩ | ⟨hten, -⟩⟩ := code_of_digitValue? h
  · rw [← Char.ofNat_toNat c, hcode]
    interval_cases n <;> rfl
  · omega

namespace Instruction

/-- The texts of a register from R0 to R3 without a sign and without `@`. -/
def PlainRegister (n : Nat) (text : String) : Prop :=
  n ≤ 3 ∧ (text.toList = ['R', Nat.digitChar n] ∨ text.toList = ['r', Nat.digitChar n])

theorem plainRegister_of_parse? {text : String} {r : RegisterOperand}
    (hr : RegisterOperand.parse? text = some r) (hchange : r.change.isChange = false)
    (hdirect : r.isDirect = true) (hnumber : r.number ≤ 3) : PlainRegister r.number text := by
  obtain ⟨number, addressing, change⟩ := r
  obtain ⟨letter, digit, hletter, hdigit, htext⟩ := RegisterOperand.parse?_eq_some_iff.mp hr
  have hunchanged : change = .unchanged := by simpa [Change.isChange] using hchange
  have hdirect' : addressing = .direct := by simpa [RegisterOperand.isDirect] using hdirect
  subst hunchanged hdirect'
  have hchar := Text.eq_digitChar_of_digitValue? (Nat.lt_of_le_of_lt hnumber (by omega)) hdigit
  subst hchar
  refine ⟨hnumber, ?_⟩
  rcases hletter with rfl | rfl
  · exact Or.inl htext
  · exact Or.inr htext

theorem PlainRegister.parse?_eq {n : Nat} {text : String} (h : PlainRegister n text) :
    RegisterOperand.parse? text = some ⟨n, .direct, .unchanged⟩ := by
  obtain ⟨hn, htext⟩ := h
  have hdigit : Text.digitValue? 16 (Nat.digitChar n) = some n :=
    Text.Numeral.digitValue?_digitChar (by omega) (by omega)
  apply RegisterOperand.parse?_eq_some_iff.mpr
  rcases htext with htext | htext
  · exact ⟨'R', _, Or.inl rfl, hdigit, htext⟩
  · exact ⟨'r', _, Or.inr rfl, hdigit, htext⟩

theorem cycleRegister_eq_ok_iff {scope : Scope} {text : String} {n : Nat} :
    cycleRegister scope text = .ok n ↔ PlainRegister n text := by
  constructor
  · intro h
    unfold cycleRegister at h
    split at h
    · cases h
    · next r hr =>
      by_cases hchange : r.change.isChange = true
      · simp [hchange, Scope.fail] at h
      · by_cases hdirect : r.isDirect = true
        · by_cases hnumber : r.number > 3
          · simp [hchange, hdirect, hnumber, Scope.fail] at h
          · have hn : r.number = n := by simpa [hchange, hdirect, hnumber] using h
            rw [← hn]
            exact plainRegister_of_parse? hr (by simpa using hchange) hdirect (by omega)
        · simp [hchange, hdirect, Scope.fail] at h
  · intro h
    have hn : ¬ n > 3 := by
      have := h.1
      omega
    simp [cycleRegister, h.parse?_eq, Change.isChange, RegisterOperand.isDirect, hn]

end Instruction

end EightBitAsm
