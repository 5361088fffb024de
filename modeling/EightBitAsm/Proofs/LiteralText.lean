import EightBitAsm.Proofs.LiteralLanguage
import EightBitAsm.Proofs.TextCuts

/-! How addresses are written. A numeral is one digit or a numeral with a digit behind it, and a
literal is a numeral in one of three radices behind the mark of the radix. Every spelling of an
address, canonical or not, is read back as that address, and no blank occurs in it. -/
namespace EightBitAsm

namespace Text

theorem ascii_of_digitValue? {radix : Nat} {c : Char} {d : Nat} (h : digitValue? radix c = some d) :
    33 ≤ c.toNat ∧ c.toNat ≤ 126 := by
  obtain ⟨-, hcode⟩ := code_of_digitValue? h
  omega

/-- A number in the digits of a radix, with any number of zeros in front. -/
inductive Numeral (radix : Nat) : List Char → Nat → Prop where
  | digit {c : Char} {d : Nat} (h : digitValue? radix c = some d) : Numeral radix [c] d
  | snoc {cs : List Char} {n : Nat} {c : Char} {d : Nat} (hn : Numeral radix cs n)
      (h : digitValue? radix c = some d) : Numeral radix (cs ++ [c]) (n * radix + d)

namespace Numeral

variable {radix n : Nat} {cs : List Char}

theorem ne_nil (h : Numeral radix cs n) : cs ≠ [] := by
  cases h <;> simp

theorem digitValue?_of_mem (h : Numeral radix cs n) {c : Char} (hc : c ∈ cs) :
    ∃ d, digitValue? radix c = some d := by
  induction h with
  | digit hd =>
    cases List.mem_singleton.mp hc
    exact ⟨_, hd⟩
  | snoc _ hd ih =>
    rcases List.mem_append.mp hc with hc | hc
    · exact ih hc
    · cases List.mem_singleton.mp hc
      exact ⟨_, hd⟩

theorem digitValue?_digitChar {d : Nat} (hd : d < radix) (hradix : radix ≤ 16) :
    digitValue? radix (Nat.digitChar d) = some d :=
  (digitValue?_eq_some_iff hradix).mpr ⟨hd, Or.inl rfl⟩

theorem positional (h : Numeral radix cs n) (hradix : radix ≤ 16) : Positional radix cs n := by
  induction h with
  | @digit c d hd =>
    have hd := (digitValue?_eq_some_iff hradix).mp hd
    exact (@positional_concat radix d [] c).mpr ⟨0, d, positional_nil.mpr rfl, hd, by simp⟩
  | snoc _ hd ih =>
    exact positional_concat.mpr ⟨_, _, ih, (digitValue?_eq_some_iff hradix).mp hd, rfl⟩

theorem toDigits (hradix : 1 < radix) (hle : radix ≤ 16) (n : Nat) :
    Numeral radix (Nat.toDigits radix n) n := by
  induction n using Nat.strongRecOn with
  | ind n ih =>
    rw [Nat.toDigits_eq_if hradix]
    split
    · next hlt => exact .digit (digitValue?_digitChar hlt hle)
    · next hge =>
      have hdiv : n / radix < n := Nat.div_lt_self (by omega) hradix
      have hlast := digitValue?_digitChar (Nat.mod_lt n (by omega)) hle
      have hn := Numeral.snoc (ih (n / radix) hdiv) hlast
      rwa [Nat.div_add_mod'] at hn

end Numeral

theorem hex_two (b : UInt8) :
    hex 2 b.toNat = String.ofList [Nat.digitChar (b.toNat / 16), Nat.digitChar (b.toNat % 16)] := by
  have hlt : b.toNat < 256 := b.toNat_lt
  have hdigits : hexDigits 2 b.toNat =
      [Nat.digitChar (b.toNat / 16), Nat.digitChar (b.toNat % 16)] := by
    rw [hexDigits, Nat.toDigits_eq_if (by omega)]
    split
    · next h =>
      rw [Nat.div_eq_of_lt h, Nat.mod_eq_of_lt h]
      rfl
    · rw [Nat.toDigits_of_lt_base (by omega)]
      rfl
  rw [hex, hdigits]

end Text

namespace Literal

def Spells (address : UInt32) (text : String) : Prop :=
  ∃ (radix : Radix) (digits : List Char), text.toList = radix.mark ++ digits ∧
    Text.Numeral radix.base digits address.toNat

def spell (radix : Radix) (address : UInt32) : String :=
  String.ofList (radix.mark ++ Nat.toDigits radix.base address.toNat)

theorem spells_spell (radix : Radix) (address : UInt32) :
    Spells address (spell radix address) := by
  have hbase : 1 < radix.base ∧ radix.base ≤ 16 := by cases radix <;> decide
  exact ⟨radix, _, String.toList_ofList, .toDigits hbase.1 hbase.2 address.toNat⟩

theorem announces_of_numeral {radix : Radix} {cs : List Char} {n : Nat}
    (h : Text.Numeral radix.base cs n) : Announces (radix.mark ++ cs) radix cs := by
  cases radix with
  | decimal =>
    -- The second character of a mark is no decimal digit.
    refine .decimal ?_ ?_
    · rintro ⟨rest, rfl⟩
      obtain ⟨d, hd⟩ := h.digitValue?_of_mem (c := 'x') (by simp)
      cases hd
    · rintro ⟨rest, rfl⟩
      obtain ⟨d, hd⟩ := h.digitValue?_of_mem (c := 'b') (by simp)
      cases hd
  | hexadecimal => exact .hexadecimal cs
  | binary => exact .binary cs

theorem read_of_spells {address : UInt32} {text : String} (h : Spells address text) :
    read text = .ok address := by
  obtain ⟨radix, digits, htext, hdigits⟩ := h
  refine read_eq_ok_iff.mpr ⟨radix, digits, ?_, hdigits.ne_nil, hdigits.positional radix.base_le⟩
  rw [htext]
  exact announces_of_numeral hdigits

theorem isBlank_of_spells {address : UInt32} {text : String} (h : Spells address text) :
    ∀ c ∈ text.toList, Text.isBlank c = false := by
  obtain ⟨radix, digits, htext, hdigits⟩ := h
  intro c hc
  rw [htext] at hc
  have hascii : 33 ≤ c.toNat ∧ c.toNat ≤ 126 := by
    rcases List.mem_append.mp hc with hc | hc
    · have hmark : ∀ c ∈ radix.mark, 33 ≤ c.toNat ∧ c.toNat ≤ 126 := by
        cases radix <;> simp [Radix.mark]
      exact hmark c hc
    · obtain ⟨d, hd⟩ := hdigits.digitValue?_of_mem hc
      exact Text.ascii_of_digitValue? hd
  exact Text.isBlank_of_ascii hascii.1 hascii.2

end Literal

end EightBitAsm
