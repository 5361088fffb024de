import EightBitAsm.Proofs.LiteralLanguage
import EightBitAsm.Proofs.RegisterText
import EightBitAsm.Proofs.TextParts

/-! The grammar of register operands. A body is `@`, if it is there, the letter and one hexadecimal
digit; an operand is a body with a sign on one side or on none. Reading accepts exactly this
grammar, and the operand that is read determines its text up to the case of the letters. -/
namespace EightBitAsm.RegisterOperand

inductive Body : List Char → Addressing → Nat → Prop where
  | direct {letter digit : Char} {n : Nat} (hl : letter = 'R' ∨ letter = 'r')
      (hd : Text.IsDigit 16 digit n) : Body [letter, digit] .direct n
  | indirect {letter digit : Char} {n : Nat} (hl : letter = 'R' ∨ letter = 'r')
      (hd : Text.IsDigit 16 digit n) : Body ['@', letter, digit] .indirect n

inductive Grammar : List Char → RegisterOperand → Prop where
  | unchanged {cs : List Char} {a : Addressing} {n : Nat} (h : Body cs a n) :
      Grammar cs ⟨n, a, .unchanged⟩
  | preIncrement {cs : List Char} {a : Addressing} {n : Nat} (h : Body cs a n) :
      Grammar ('+' :: cs) ⟨n, a, .preIncrement⟩
  | preDecrement {cs : List Char} {a : Addressing} {n : Nat} (h : Body cs a n) :
      Grammar ('-' :: cs) ⟨n, a, .preDecrement⟩
  | postIncrement {cs : List Char} {a : Addressing} {n : Nat} (h : Body cs a n) :
      Grammar (cs ++ ['+']) ⟨n, a, .postIncrement⟩
  | postDecrement {cs : List Char} {a : Addressing} {n : Nat} (h : Body cs a n) :
      Grammar (cs ++ ['-']) ⟨n, a, .postDecrement⟩

def canonical (r : RegisterOperand) : List Char :=
  r.change.before ++ r.addressing.mark ++ 'r' :: Nat.digitChar r.number :: r.change.behind

variable {r q : RegisterOperand} {cs ds : List Char}

theorem body_iff {a : Addressing} {n : Nat} : Body cs a n ↔
    ∃ letter digit, (letter = 'R' ∨ letter = 'r') ∧ Text.IsDigit 16 digit n ∧
      cs = a.mark ++ [letter, digit] := by
  constructor
  · intro h
    cases h with
    | direct hl hd => exact ⟨_, _, hl, hd, rfl⟩
    | indirect hl hd => exact ⟨_, _, hl, hd, rfl⟩
  · rintro ⟨letter, digit, hl, hd, rfl⟩
    cases a with
    | direct => exact .direct hl hd
    | indirect => exact .indirect hl hd

theorem written_iff : Written r cs ↔ ∃ body, Body body r.addressing r.number ∧
    cs = r.change.before ++ body ++ r.change.behind := by
  constructor
  · rintro ⟨letter, digit, hl, hd, rfl⟩
    rw [Text.digitValue?_eq_some_iff (Nat.le_refl 16)] at hd
    exact ⟨_, body_iff.mpr ⟨letter, digit, hl, hd, rfl⟩, by simp⟩
  · rintro ⟨body, hbody, rfl⟩
    obtain ⟨letter, digit, hl, hd, rfl⟩ := body_iff.mp hbody
    rw [← Text.digitValue?_eq_some_iff (Nat.le_refl 16)] at hd
    exact ⟨letter, digit, hl, hd, by simp⟩

theorem grammar_iff_written : Grammar cs r ↔ Written r cs := by
  rw [written_iff]
  constructor
  · intro h
    cases h with
    | unchanged h => exact ⟨_, h, by simp [Change.before, Change.behind]⟩
    | preIncrement h => exact ⟨_, h, by simp [Change.before, Change.behind]⟩
    | preDecrement h => exact ⟨_, h, by simp [Change.before, Change.behind]⟩
    | postIncrement h => exact ⟨_, h, rfl⟩
    | postDecrement h => exact ⟨_, h, rfl⟩
  · obtain ⟨n, a, change⟩ := r
    rintro ⟨body, h, rfl⟩
    cases change with
    | unchanged => simpa [Change.before, Change.behind] using .unchanged h
    | preIncrement => simpa [Change.before, Change.behind] using .preIncrement h
    | preDecrement => simpa [Change.before, Change.behind] using .preDecrement h
    | postIncrement => exact .postIncrement h
    | postDecrement => exact .postDecrement h

theorem Written.number_lt (h : Written r cs) : r.number < 16 := by
  obtain ⟨letter, digit, -, hd, -⟩ := h
  exact (Text.code_of_digitValue? hd).1

theorem written_canonical (h : r.number < 16) : Written r r.canonical :=
  ⟨'r', Nat.digitChar r.number, Or.inr rfl,
    (Text.digitValue?_eq_some_iff (Nat.le_refl 16)).mpr ⟨h, Or.inl rfl⟩, rfl⟩

theorem Written.lowerChars_eq (h : Written r cs) : Text.lowerChars cs = r.canonical := by
  obtain ⟨n, a, change⟩ := r
  obtain ⟨letter, digit, hl, hd, rfl⟩ := h
  rw [Text.digitValue?_eq_some_iff (Nat.le_refl 16)] at hd
  have hletter : letter.toLower = 'r' := by
    rcases hl with rfl | rfl <;> decide
  have hdigits : ∀ d < 16, (Nat.digitChar d).toLower = Nat.digitChar d ∧
      (Nat.digitChar d).toUpper.toLower = Nat.digitChar d := by
    decide
  have hdigit : digit.toLower = Nat.digitChar n := by
    rcases hd.char with rfl | rfl
    · exact (hdigits n hd.lt).1
    · exact (hdigits n hd.lt).2
  cases change <;> cases a <;>
    simp [Text.lowerChars, canonical, Change.before, Change.behind, Addressing.mark, hletter,
      hdigit]

theorem Written.eq_iff (hr : Written r cs) (hq : Written q ds) :
    r = q ↔ Text.lowerChars cs = Text.lowerChars ds := by
  rw [hr.lowerChars_eq, hq.lowerChars_eq]
  constructor
  · rintro rfl
    rfl
  · intro h
    have hread := (written_canonical hr.number_lt).ofChars?_eq
    rw [h, (written_canonical hq.number_lt).ofChars?_eq] at hread
    exact (Option.some.inj hread).symm

/-- Reading accepts exactly the grammar. All of its texts are ASCII and pass the bound on their
bytes, every operand has a text, and the texts of an operand differ in the case of letters only. -/
theorem grammar_exact :
    (∀ text r, parse? text = some r ↔ Grammar text.toList r) ∧
    (∀ (text : String) (r : RegisterOperand), Grammar text.toList r →
      r.number ≤ 15 ∧ (r.addressing = .indirect ↔ '@' ∈ text.toList) ∧
      2 ≤ text.utf8ByteSize ∧ text.utf8ByteSize ≤ 4 ∧ ∀ c ∈ text.toList, c.toNat < 128) ∧
    (∀ r : RegisterOperand, r.number ≤ 15 → ∃ text, parse? text = some r) ∧
    ∀ s t r q, parse? s = some r → parse? t = some q → (r = q ↔ Text.SameButCase s t) := by
  refine ⟨?_, ?_, ?_, ?_⟩
  · intro text r
    rw [parse?_eq_some_iff, grammar_iff_written]
  · intro text r h
    rw [grammar_iff_written] at h
    refine ⟨Nat.le_of_lt_succ h.number_lt, ?_, h.utf8ByteSize.1, h.utf8ByteSize.2, ?_⟩
    · rw [← not_iff_not, ← h.isDirect_iff, isDirect]
      cases r.addressing <;> simp
    · intro c hc
      exact Nat.lt_of_le_of_lt (h.ascii c hc) (by decide)
  · intro r h
    refine ⟨String.ofList r.canonical, parse?_eq_some_iff.mpr ?_⟩
    rw [String.toList_ofList]
    exact written_canonical (Nat.lt_succ_of_le h)
  · intro s t r q hs ht
    rw [parse?_eq_some_iff] at hs ht
    rw [hs.eq_iff ht, ← Text.lowercase_eq_iff, Text.lowercase, Text.lowercase, String.ofList_inj]

/-- The longest form in two spellings. -/
theorem grammar_exact_indirect :
    parse? "-@Rb" = some ⟨11, .indirect, .preDecrement⟩ ∧
    Grammar "-@Rb".toList ⟨11, .indirect, .preDecrement⟩ ∧ "-@Rb".utf8ByteSize ≤ 4 ∧
    (∃ text, parse? text = some ⟨11, .indirect, .preDecrement⟩) ∧
    Text.SameButCase "-@Rb" "-@rB" := by
  obtain ⟨hgrammar, hform, hexists, hcase⟩ := grammar_exact
  have h : parse? "-@Rb" = some ⟨11, .indirect, .preDecrement⟩ := by decide +kernel
  have h' : parse? "-@rB" = some ⟨11, .indirect, .preDecrement⟩ := by decide +kernel
  have hrule := (hgrammar _ _).mp h
  exact ⟨h, hrule, (hform _ _ hrule).2.2.2.1, hexists ⟨11, .indirect, .preDecrement⟩ (by decide),
    (hcase _ _ _ _ h h').mp rfl⟩

end EightBitAsm.RegisterOperand
