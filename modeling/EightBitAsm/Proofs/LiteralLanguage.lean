import EightBitAsm.Literal
import EightBitAsm.Result
import Mathlib

/-! The language of number literals. Digits stand for a number by their places, in the radix that
the text announces. A text is read as a number exactly if its digits stand for one below 2^32;
digits that reach 2^32 are too large whatever follows them; and everything else is malformed. -/
namespace EightBitAsm

namespace Text

structure IsDigit (radix : Nat) (c : Char) (d : Nat) : Prop where
  lt : d < radix
  char : c = Nat.digitChar d ∨ c = (Nat.digitChar d).toUpper

def Positional (radix : Nat) (cs : List Char) (n : Nat) : Prop :=
  ∃ ds, List.Forall₂ (IsDigit radix) cs.reverse ds ∧ Nat.ofDigits radix ds = n

theorem code_of_digitValue? {radix d : Nat} {c : Char} (h : digitValue? radix c = some d) :
    d < radix ∧ (c.toNat = 48 + d ∧ d < 10 ∨
      10 ≤ d ∧ d < 36 ∧ (c.toNat = 87 + d ∨ c.toNat = 55 + d)) := by
  obtain ⟨hvalue, hlt⟩ := Option.filter_eq_some_iff.mp h
  refine ⟨by simpa using hlt, ?_⟩
  split at hvalue
  · next hc =>
    have hrange : 48 ≤ c.toNat ∧ c.toNat ≤ 57 := hc
    have hcode : c.toNat - 48 = d := Option.some.inj hvalue
    omega
  · split at hvalue
    · next hc =>
      have hrange : 97 ≤ c.toNat ∧ c.toNat ≤ 122 := hc
      have hcode : c.toNat - 97 + 10 = d := Option.some.inj hvalue
      omega
    · split at hvalue
      · next hc =>
        have hrange : 65 ≤ c.toNat ∧ c.toNat ≤ 90 := hc
        have hcode : c.toNat - 65 + 10 = d := Option.some.inj hvalue
        omega
      · cases hvalue

theorem digitValue?_of_lt {radix base d : Nat} {c : Char} (h : digitValue? base c = some d)
    (hd : d < radix) : digitValue? radix c = some d := by
  obtain ⟨hvalue, -⟩ := Option.filter_eq_some_iff.mp h
  exact Option.filter_eq_some_iff.mpr ⟨hvalue, by simpa using hd⟩

theorem digitValue?_eq_some_iff {radix d : Nat} {c : Char} (hradix : radix ≤ 16) :
    digitValue? radix c = some d ↔ IsDigit radix c d := by
  constructor
  · intro h
    obtain ⟨hd, hcode⟩ := code_of_digitValue? h
    have hdecimal : ∀ d < 10, Char.ofNat (48 + d) = Nat.digitChar d := by decide
    have hletter : ∀ d < 16, 10 ≤ d → Char.ofNat (87 + d) = Nat.digitChar d ∧
        Char.ofNat (55 + d) = (Nat.digitChar d).toUpper := by decide
    refine ⟨hd, ?_⟩
    rw [← Char.ofNat_toNat c]
    rcases hcode with ⟨hc, hten⟩ | ⟨hten, -, hc | hc⟩
    · exact Or.inl (hc ▸ hdecimal d hten)
    · exact Or.inl (hc ▸ (hletter d (by omega) hten).1)
    · exact Or.inr (hc ▸ (hletter d (by omega) hten).2)
  · rintro ⟨hd, hc⟩
    have hvalue : ∀ d < 16, digitValue? 16 (Nat.digitChar d) = some d ∧
        digitValue? 16 (Nat.digitChar d).toUpper = some d := by decide
    obtain ⟨hlower, hupper⟩ := hvalue d (by omega)
    rcases hc with rfl | rfl
    · exact digitValue?_of_lt hlower hd
    · exact digitValue?_of_lt hupper hd

theorem Positional.unique {radix m n : Nat} {cs : List Char} (hradix : radix ≤ 16)
    (h : Positional radix cs m) (h' : Positional radix cs n) : m = n := by
  obtain ⟨ds, hds, rfl⟩ := h
  obtain ⟨es, hes, rfl⟩ := h'
  have hunique : Relator.RightUnique (IsDigit radix) := by
    intro c d e hd he
    rw [← digitValue?_eq_some_iff hradix] at hd he
    exact Option.some.inj (hd.symm.trans he)
  rw [hunique.forall₂ hds hes]

theorem positional_nil {radix n : Nat} : Positional radix [] n ↔ n = 0 := by
  simp [Positional, eq_comm]

/-- A digit behind the others moves each of them up by one place. -/
theorem positional_concat {radix n : Nat} {cs : List Char} {c : Char} :
    Positional radix (cs ++ [c]) n ↔
      ∃ m d, Positional radix cs m ∧ IsDigit radix c d ∧ m * radix + d = n := by
  simp only [Positional, List.reverse_append, List.reverse_singleton, List.singleton_append,
    List.forall₂_cons_left_iff]
  constructor
  · rintro ⟨_, ⟨d, ds, hd, hds, rfl⟩, rfl⟩
    refine ⟨_, d, ⟨ds, hds, rfl⟩, hd, ?_⟩
    rw [Nat.ofDigits_cons, Nat.mul_comm, Nat.add_comm]
  · rintro ⟨_, d, ⟨ds, hds, rfl⟩, hd, rfl⟩
    refine ⟨d :: ds, ⟨d, ds, hd, hds, rfl⟩, ?_⟩
    rw [Nat.ofDigits_cons, Nat.mul_comm, Nat.add_comm]

end Text

namespace Literal

theorem readDigits_append (radix value : Nat) (cs ds : List Char) :
    readDigits radix value (cs ++ ds) =
      readDigits radix value cs >>= fun n => readDigits radix n ds := by
  induction cs generalizing value with
  | nil => rfl
  | cons c cs ih =>
    simp only [List.cons_append, readDigits]
    cases Text.digitValue? radix c with
    | none => rfl
    | some d =>
      simp only
      split
      · exact ih _
      · rfl

section Digits

variable {radix : Nat} (hradix : radix ≤ 16) {cs : List Char}

include hradix

theorem readDigits_concat_eq_ok_iff {c : Char} {n : Nat} :
    readDigits radix 0 (cs ++ [c]) = .ok n ↔ ∃ m d, readDigits radix 0 cs = .ok m ∧
      Text.IsDigit radix c d ∧ m * radix + d = n ∧ n < UInt32.size := by
  rw [readDigits_append, bind_eq_ok_iff]
  refine exists_congr fun m => ?_
  simp only [← Text.digitValue?_eq_some_iff hradix, exists_and_left, readDigits]
  refine and_congr_right fun _ => ?_
  cases Text.digitValue? radix c with
  | none => simp
  | some d =>
    by_cases hn : m * radix + d = n
    · subst hn
      by_cases hlt : m * radix + d < UInt32.size <;> simp [hlt]
    · dsimp only
      split <;> simp [hn]

theorem readDigits_concat_eq_tooLarge_iff {c : Char} :
    readDigits radix 0 (cs ++ [c]) = .error .tooLarge ↔
      readDigits radix 0 cs = .error .tooLarge ∨ ∃ m d, readDigits radix 0 cs = .ok m ∧
        Text.IsDigit radix c d ∧ UInt32.size ≤ m * radix + d := by
  rw [readDigits_append, bind_eq_error_iff]
  refine or_congr_right (exists_congr fun m => ?_)
  simp only [← Text.digitValue?_eq_some_iff hradix, exists_and_left, readDigits]
  refine and_congr_right fun _ => ?_
  cases Text.digitValue? radix c with
  | none => simp
  | some d =>
    by_cases hlt : m * radix + d < UInt32.size
    · simp [hlt]
    · simp [hlt, Nat.le_of_not_lt hlt]

variable (hpos : 0 < radix)

include hpos

theorem readDigits_eq_ok_iff {n : Nat} :
    readDigits radix 0 cs = .ok n ↔ Text.Positional radix cs n ∧ n < UInt32.size := by
  -- Over the digits from the back: the value so far is the number of the digits before.
  induction cs using List.reverseRecOn generalizing n with
  | nil =>
    constructor
    · intro h
      cases h
      exact ⟨Text.positional_nil.mpr rfl, by decide⟩
    · rintro ⟨hn, _⟩
      rw [Text.positional_nil.mp hn]
      rfl
  | append_singleton cs c ih =>
    rw [readDigits_concat_eq_ok_iff hradix, Text.positional_concat]
    constructor
    · rintro ⟨m, d, hm, hd, hn, hlt⟩
      exact ⟨⟨m, d, (ih.mp hm).1, hd, hn⟩, hlt⟩
    · rintro ⟨⟨m, d, hm, hd, hn⟩, hlt⟩
      -- No digit takes the value past the number of all digits, so none overflows.
      have hle : m ≤ m * radix := Nat.le_mul_of_pos_right m hpos
      exact ⟨m, d, ih.mpr ⟨hm, by omega⟩, hd, hn, hlt⟩

theorem readDigits_eq_tooLarge_iff :
    readDigits radix 0 cs = .error .tooLarge ↔
      ∃ first n, first <+: cs ∧ Text.Positional radix first n ∧ UInt32.size ≤ n := by
  induction cs using List.reverseRecOn with
  | nil => simp [readDigits, Text.positional_nil]
  | append_singleton cs c ih =>
    rw [readDigits_concat_eq_tooLarge_iff hradix, ih]
    constructor
    · rintro (⟨first, n, hfirst, hn, hle⟩ | ⟨m, d, hm, hd, hle⟩)
      · exact ⟨first, n, hfirst.trans (List.prefix_append cs [c]), hn, hle⟩
      · have hm := ((readDigits_eq_ok_iff hradix hpos).mp hm).1
        exact ⟨cs ++ [c], _, List.prefix_rfl, Text.positional_concat.mpr ⟨m, d, hm, hd, rfl⟩, hle⟩
    · rintro ⟨first, n, hfirst, hn, hle⟩
      rcases List.prefix_concat_iff.mp hfirst with rfl | hfirst
      · obtain ⟨m, d, hm, hd, rfl⟩ := Text.positional_concat.mp hn
        by_cases hlt : m < UInt32.size
        · exact Or.inr ⟨m, d, (readDigits_eq_ok_iff hradix hpos).mpr ⟨hm, hlt⟩, hd, hle⟩
        · exact Or.inl ⟨cs, m, List.prefix_rfl, hm, Nat.le_of_not_lt hlt⟩
      · exact Or.inl ⟨first, n, hfirst, hn, hle⟩

end Digits

inductive Radix where
  | decimal
  | hexadecimal
  | binary
  deriving DecidableEq, Repr

def Radix.base : Radix → Nat
  | decimal => 10
  | hexadecimal => 16
  | binary => 2

def Radix.mark : Radix → List Char
  | decimal => []
  | hexadecimal => ['0', 'x']
  | binary => ['0', 'b']

theorem Radix.base_pos (radix : Radix) : 0 < radix.base := by
  cases radix <;> decide

theorem Radix.base_le (radix : Radix) : radix.base ≤ 16 := by
  cases radix <;> decide

/-- The radix that a text announces by its first characters, and the digits that follow them. -/
inductive Announces : List Char → Radix → List Char → Prop where
  | hexadecimal (digits : List Char) : Announces ('0' :: 'x' :: digits) .hexadecimal digits
  | binary (digits : List Char) : Announces ('0' :: 'b' :: digits) .binary digits
  | decimal {digits : List Char} (hx : ¬ ['0', 'x'] <+: digits) (hb : ¬ ['0', 'b'] <+: digits) :
      Announces digits .decimal digits

theorem exists_announces (cs : List Char) : ∃ radix digits, Announces cs radix digits := by
  by_cases hx : ['0', 'x'] <+: cs
  · obtain ⟨digits, rfl⟩ := hx
    exact ⟨_, _, .hexadecimal digits⟩
  · by_cases hb : ['0', 'b'] <+: cs
    · obtain ⟨digits, rfl⟩ := hb
      exact ⟨_, _, .binary digits⟩
    · exact ⟨_, _, .decimal hx hb⟩

namespace Announces

variable {cs digits : List Char} {radix : Radix}

theorem radixAndDigits_eq (h : Announces cs radix digits) :
    radixAndDigits cs = (radix.base, digits) := by
  cases h with
  | hexadecimal => rfl
  | binary => rfl
  | decimal hx hb =>
    unfold radixAndDigits
    split
    · exact absurd ⟨_, rfl⟩ hx
    · exact absurd ⟨_, rfl⟩ hb
    · rfl

theorem unique (h : Announces cs radix digits) {radix' : Radix} {digits' : List Char}
    (h' : Announces cs radix' digits') : radix = radix' ∧ digits = digits' := by
  obtain ⟨hbase, hdigits⟩ := Prod.mk.inj (h.radixAndDigits_eq.symm.trans h'.radixAndDigits_eq)
  refine ⟨?_, hdigits⟩
  revert hbase
  cases radix <;> cases radix' <;> decide

theorem readChars_eq (h : Announces cs radix digits) :
    readChars cs = if digits = [] then .error .malformed else readDigits radix.base 0 digits := by
  rw [readChars, h.radixAndDigits_eq]
  cases digits <;> rfl

end Announces

def Denotes (text : String) (n : Nat) : Prop :=
  ∃ radix digits, Announces text.toList radix digits ∧ digits ≠ [] ∧
    Text.Positional radix.base digits n

theorem Denotes.unique {text : String} {m n : Nat} (h : Denotes text m) (h' : Denotes text n) :
    m = n := by
  obtain ⟨radix, digits, hannounced, -, hm⟩ := h
  obtain ⟨radix', digits', hannounced', -, hn⟩ := h'
  obtain ⟨rfl, rfl⟩ := hannounced.unique hannounced'
  exact hm.unique radix.base_le hn

/-- Digits that reach 2^32, whatever follows them. -/
def Overflows (text : String) : Prop :=
  ∃ radix digits first n, Announces text.toList radix digits ∧ first ≠ [] ∧ first <+: digits ∧
    Text.Positional radix.base first n ∧ 2 ^ 32 ≤ n

theorem readChars_eq_ok_iff {text : String} {n : Nat} :
    readChars text.toList = .ok n ↔ Denotes text n ∧ n < UInt32.size := by
  obtain ⟨radix, digits, h⟩ := exists_announces text.toList
  rw [h.readChars_eq]
  constructor
  · intro hread
    split at hread
    · cases hread
    · next hne =>
      obtain ⟨hn, hlt⟩ := (readDigits_eq_ok_iff radix.base_le radix.base_pos).mp hread
      exact ⟨⟨radix, digits, h, hne, hn⟩, hlt⟩
  · rintro ⟨⟨radix', digits', h', hne, hn⟩, hlt⟩
    obtain ⟨rfl, rfl⟩ := h.unique h'
    rw [if_neg hne]
    exact (readDigits_eq_ok_iff radix.base_le radix.base_pos).mpr ⟨hn, hlt⟩

theorem readChars_eq_tooLarge_iff {text : String} :
    readChars text.toList = .error .tooLarge ↔ Overflows text := by
  obtain ⟨radix, digits, h⟩ := exists_announces text.toList
  rw [h.readChars_eq]
  constructor
  · intro hread
    split at hread
    · cases hread
    · obtain ⟨first, n, hfirst, hn, hle⟩ :=
        (readDigits_eq_tooLarge_iff radix.base_le radix.base_pos).mp hread
      refine ⟨radix, digits, first, n, h, ?_, hfirst, hn, hle⟩
      rintro rfl
      rw [Text.positional_nil.mp hn] at hle
      cases hle
  · rintro ⟨radix', digits', first, n, h', hne, hfirst, hn, hle⟩
    obtain ⟨rfl, rfl⟩ := h.unique h'
    have hdigits : digits ≠ [] := by
      rintro rfl
      exact hne (List.prefix_nil.mp hfirst)
    rw [if_neg hdigits]
    exact (readDigits_eq_tooLarge_iff radix.base_le radix.base_pos).mpr ⟨first, n, hfirst, hn, hle⟩

theorem read_eq_ok_iff {text : String} {a : UInt32} :
    read text = .ok a ↔ Denotes text a.toNat := by
  have hchars : readChars text.toList = .ok a.toNat ↔ Denotes text a.toNat := by
    rw [readChars_eq_ok_iff]
    exact and_iff_left a.toNat_lt
  rw [← hchars, read]
  cases hread : readChars text.toList with
  | error fault => simp
  | ok n =>
    have hlt : n < UInt32.size := (readChars_eq_ok_iff.mp hread).2
    simp only [Except.ok.injEq]
    constructor
    · rintro rfl
      exact (UInt32.toNat_ofNat_of_lt' hlt).symm
    · rintro rfl
      exact UInt32.ofNat_toNat

theorem read_eq_error_iff {text : String} {e : LiteralError} :
    read text = .error e ↔ e.text = text ∧ readChars text.toList = .error e.fault := by
  obtain ⟨text', fault⟩ := e
  rw [read]
  cases readChars text.toList with
  | ok n => simp
  | error fault' => simp [eq_comm]

theorem read_eq_tooLarge_iff {text : String} :
    read text = .error ⟨text, .tooLarge⟩ ↔ Overflows text := by
  simp [read_eq_error_iff, readChars_eq_tooLarge_iff]

theorem Denotes.read_ok_or_overflows {text : String} {n : Nat} (h : Denotes text n) :
    (∃ a : UInt32, a.toNat = n ∧ read text = .ok a) ∨ Overflows text := by
  by_cases hlt : n < 2 ^ 32
  · have ha : (UInt32.ofNat n).toNat = n := UInt32.toNat_ofNat_of_lt' hlt
    exact Or.inl ⟨UInt32.ofNat n, ha, read_eq_ok_iff.mpr (ha.symm ▸ h)⟩
  · obtain ⟨radix, digits, hannounced, hne, hdigits⟩ := h
    exact Or.inr ⟨radix, digits, digits, n, hannounced, hne, List.prefix_rfl, hdigits,
      Nat.le_of_not_lt hlt⟩

theorem read_eq_malformed_iff {text : String} :
    read text = .error ⟨text, .malformed⟩ ↔ (∀ n, ¬ Denotes text n) ∧ ¬ Overflows text := by
  constructor
  · intro h
    have hover : ¬ Overflows text := by
      intro hover
      cases h.symm.trans (read_eq_tooLarge_iff.mpr hover)
    refine ⟨?_, hover⟩
    intro n hn
    rcases hn.read_ok_or_overflows with ⟨a, -, ha⟩ | ho
    · cases h.symm.trans ha
    · exact hover ho
  · rintro ⟨hnone, hover⟩
    cases hread : read text with
    | ok a => exact absurd (read_eq_ok_iff.mp hread) (hnone _)
    | error e =>
      obtain ⟨htext, hchars⟩ := read_eq_error_iff.mp hread
      cases hfault : e.fault with
      | malformed => rw [← htext, ← hfault]
      | tooLarge =>
        rw [hfault] at hchars
        exact absurd (readChars_eq_tooLarge_iff.mp hchars) hover

/-- Every text is read in exactly one of three ways: as the number that its digits stand for, as too
large once the digits so far are, or else as malformed. -/
theorem read_trichotomy (text : String) :
    (∀ a : UInt32, read text = .ok a ↔ Denotes text a.toNat) ∧
    (read text = .error ⟨text, .tooLarge⟩ ↔ Overflows text) ∧
    (read text = .error ⟨text, .malformed⟩ ↔ (∀ n, ¬ Denotes text n) ∧ ¬ Overflows text) :=
  ⟨fun _ => read_eq_ok_iff, read_eq_tooLarge_iff, read_eq_malformed_iff⟩

-- The same stray character behind digits that are too large, and behind digits that are not.
example : read "4294967296z" = .error ⟨"4294967296z", .tooLarge⟩ ∧
    read "4294967295z" = .error ⟨"4294967295z", .malformed⟩ := by
  decide +kernel

end Literal

end EightBitAsm
