import EightBitAsm.Proofs.CycleFaults
import EightBitAsm.Proofs.LabelNames
import EightBitAsm.Proofs.LiteralLanguage
import EightBitAsm.Proofs.Widening

/-! What an address operand stands for. The first character decides between two readings: a literal
is compared with the largest address of its domain and needs no names, a name is looked up in its
domain and no width bounds what is found. No text can be read both ways. -/
namespace EightBitAsm

def Widths.bits (w : Widths) : Domain → Nat
  | .short => w.shortBits
  | .far => w.farBits

theorem Widths.max_eq (w : Widths) (domain : Domain) :
    w.max domain = 2 ^ min (w.bits domain) 32 - 1 := by
  cases domain with
  | short => exact maxAddress_eq w.shortBits
  | far => exact maxAddress_eq w.farBits

theorem Text.IsDigit.isDigit_eq {c : Char} {d : Nat} (h : IsDigit 10 c d) : isDigit c = true := by
  have hchars : ∀ d < 10, isDigit (Nat.digitChar d) = true ∧
      isDigit (Nat.digitChar d).toUpper = true := by decide
  obtain ⟨hlower, hupper⟩ := hchars d h.lt
  rcases h.char with rfl | rfl
  · exact hlower
  · exact hupper

namespace Literal

/-- Every literal starts with a digit, also those that start with the mark of their radix. -/
theorem startsWithDigit_of_denotes {text : String} {n : Nat} (h : Denotes text n) :
    Text.startsWithDigit text = true := by
  obtain ⟨radix, digits, hannounced, hne, ds, hds, -⟩ := h
  unfold Text.startsWithDigit
  generalize text.toList = cs at hannounced
  cases hannounced with
  | hexadecimal => rfl
  | binary => rfl
  | decimal =>
    obtain ⟨c, rest, rfl⟩ := List.exists_cons_of_ne_nil hne
    have hmem : c ∈ (c :: rest).reverse := by simp
    have hflip : List.Forall₂ (flip (Text.IsDigit 10)) ds (c :: rest).reverse := hds.flip
    obtain ⟨d, -, hd⟩ := exists_left_of_forall₂ hflip hmem
    exact Text.IsDigit.isDigit_eq hd

end Literal

namespace Scope

inductive Resolves (scope : Scope) (domain : Domain) (text : String) :
    Except Diagnostic Target → Prop where
  | missing (h : text = "") : Resolves scope domain text (.error ⟨scope.line, .missingAddress⟩)
  | literal {a : UInt32} (hd : Text.startsWithDigit text = true)
      (hn : Literal.Denotes text a.toNat) (hle : a.toNat ≤ scope.widths.max domain) :
      Resolves scope domain text (.ok (.literal a))
  | tooLarge (hd : Text.startsWithDigit text = true)
      (h : (∃ n, Literal.Denotes text n ∧ scope.widths.max domain < n) ∨ Literal.Overflows text) :
      Resolves scope domain text
        (.error ⟨scope.line, .addressTooLarge (scope.widths.max domain)⟩)
  | malformed (hd : Text.startsWithDigit text = true) (hn : ∀ n, ¬ Literal.Denotes text n)
      (hover : ¬ Literal.Overflows text) :
      Resolves scope domain text (.error ⟨scope.line, .malformedAddress ⟨text, .malformed⟩⟩)
  | symbol {a : UInt32} (hne : text ≠ "") (hd : Text.startsWithDigit text = false)
      (hfind : scope.find domain text = .ok (some a)) :
      Resolves scope domain text (.ok (.symbol domain text a))
  | undefined (hne : text ≠ "") (hd : Text.startsWithDigit text = false)
      (hfind : scope.find domain text = .ok none) :
      Resolves scope domain text (.error ⟨scope.line, .undefinedSymbol domain text⟩)
  | unanswered {reason : String} (hne : text ≠ "") (hd : Text.startsWithDigit text = false)
      (hfind : scope.find domain text = .error reason) :
      Resolves scope domain text (.error ⟨scope.line, .lookupFailed reason⟩)

variable {scope : Scope} {domain : Domain} {text : String}

theorem resolves_resolveLiteral (hd : Text.startsWithDigit text = true) :
    Resolves scope domain text (scope.resolveLiteral domain text) := by
  rw [resolveLiteral]
  cases hread : Literal.read text with
  | ok a =>
    have hn := Literal.read_eq_ok_iff.mp hread
    by_cases hle : a.toNat ≤ scope.widths.max domain
    · simpa [hle] using .literal hd hn hle
    · simpa [hle] using .tooLarge hd (Or.inl ⟨_, hn, Nat.lt_of_not_le hle⟩)
  | error e =>
    obtain ⟨etext, fault⟩ := e
    obtain ⟨rfl, -⟩ := Literal.read_eq_error_iff.mp hread
    cases fault with
    | tooLarge => exact .tooLarge hd (Or.inr (Literal.read_eq_tooLarge_iff.mp hread))
    | malformed =>
      obtain ⟨hn, hover⟩ := Literal.read_eq_malformed_iff.mp hread
      exact .malformed hd hn hover

theorem resolves_resolveSymbol (hne : text ≠ "") (hd : Text.startsWithDigit text = false) :
    Resolves scope domain text (scope.resolveSymbol domain text) := by
  rw [resolveSymbol]
  rcases hfind : scope.find domain text with reason | _ | a
  · exact .unanswered hne hd hfind
  · exact .undefined hne hd hfind
  · exact .symbol hne hd hfind

theorem resolves_resolve (scope : Scope) (domain : Domain) (text : String) :
    Resolves scope domain text (scope.resolve domain text) := by
  by_cases hne : text = ""
  · subst hne
    exact .missing rfl
  · cases hd : Text.startsWithDigit text with
    | true =>
      rw [resolve_eq_resolveLiteral scope domain hd]
      exact resolves_resolveLiteral hd
    | false =>
      rw [resolve_eq_resolveSymbol scope domain hne hd]
      exact resolves_resolveSymbol hne hd

theorem Resolves.resolve_eq {result : Except Diagnostic Target}
    (h : Resolves scope domain text result) : scope.resolve domain text = result := by
  cases h with
  | missing h =>
    subst h
    rfl
  | literal hd hn hle =>
    exact resolve_eq_ok_iff.mpr (Or.inl ⟨hd, _, Literal.read_eq_ok_iff.mpr hn, hle, rfl⟩)
  | tooLarge hd h =>
    have hread : (∃ a, Literal.read text = .ok a ∧ scope.widths.max domain < a.toNat) ∨
        Literal.Overflows text := by
      rcases h with ⟨n, hn, hlt⟩ | hover
      · rcases hn.read_ok_or_overflows with ⟨a, rfl, ha⟩ | hover
        · exact Or.inl ⟨a, ha, hlt⟩
        · exact Or.inr hover
      · exact Or.inr hover
    rw [resolve_eq_resolveLiteral scope domain hd, resolveLiteral]
    rcases hread with ⟨a, ha, hlt⟩ | hover
    · simp [ha, Nat.not_le_of_lt hlt, fail]
    · rw [Literal.read_eq_tooLarge_iff.mpr hover]
      rfl
  | malformed hd hn hover =>
    have hread := Literal.read_eq_malformed_iff.mpr ⟨hn, hover⟩
    rw [resolve_eq_resolveLiteral scope domain hd, resolveLiteral, hread]
    rfl
  | symbol hne hd hfind => exact resolve_eq_ok_iff.mpr (Or.inr ⟨hd, hne, _, hfind, rfl⟩)
  | undefined hne hd hfind =>
    rw [resolve_eq_resolveSymbol scope domain hne hd, resolveSymbol, hfind]
    rfl
  | unanswered hne hd hfind =>
    rw [resolve_eq_resolveSymbol scope domain hne hd, resolveSymbol, hfind]
    rfl

theorem resolve_eq_of_find_eq {s t : Scope} (hl : s.line = t.line)
    (hfind : s.find domain text = t.find domain text) (hd : Text.startsWithDigit text = false) :
    s.resolve domain text = t.resolve domain text := by
  by_cases hne : text = ""
  · subst hne
    simp [resolve, fail, hl]
  · rw [resolve_eq_resolveSymbol s domain hne hd, resolve_eq_resolveSymbol t domain hne hd]
    simp [resolveSymbol, fail, hl, hfind]

/-- The address of an operand is exact. Every result has its one cause; a literal is read without
the names and up to the largest address of the domain, a name without the widths and in its own
domain alone; all errors carry the line of the scope; an identifier is never read as a number. -/
theorem resolve_exact (scope : Scope) (domain : Domain) (text : String) :
    (∀ result, scope.resolve domain text = result ↔ Resolves scope domain text result) ∧
    scope.widths.max domain = 2 ^ min (scope.widths.bits domain) 32 - 1 ∧
    (Text.startsWithDigit text = true → ∀ other : Scope, other.line = scope.line →
      other.widths.bits domain = scope.widths.bits domain →
      other.resolve domain text = scope.resolve domain text) ∧
    (Text.startsWithDigit text = false → ∀ other : Scope, other.line = scope.line →
      other.find domain text = scope.find domain text →
      other.resolve domain text = scope.resolve domain text) ∧
    (∀ d, scope.resolve domain text = .error d → d.line = scope.line) ∧
    (∀ (error : LiteralError) (max : Nat) (reason : String),
      [Fault.missingAddress, .malformedAddress error, .addressTooLarge max,
          .undefinedSymbol domain text, .lookupFailed reason].map
            (fun fault => (fault.kind, fault.cause?)) =
        [(.numberFormat, none), (.numberFormat, some error.message), (.range, none),
          (.undefinedSymbol, none), (.unexpected, some reason)]) ∧
    (Identifier.isValid text = true → (∀ n, ¬ Literal.Denotes text n) ∧
      ∀ target, scope.resolve domain text = .ok target ↔
        ∃ a, scope.find domain text = .ok (some a) ∧ .symbol domain text a = target) := by
  refine ⟨?_, scope.widths.max_eq domain, ?_, ?_, fun d => line_of_resolve, fun _ _ _ => rfl, ?_⟩
  · intro result
    constructor
    · rintro rfl
      exact resolves_resolve scope domain text
    · exact Resolves.resolve_eq
  · intro hd other hline hbits
    refine resolve_eq_of_startsWithDigit other scope hline domain ?_ hd
    rw [Widths.max_eq, Widths.max_eq, hbits]
  · intro hd other hline hfind
    exact resolve_eq_of_find_eq hline hfind hd
  · intro hvalid
    refine ⟨?_, fun target => resolve_eq_ok_of_isValid hvalid⟩
    intro n hn
    have hd := Literal.startsWithDigit_of_denotes hn
    rw [Identifier.startsWithDigit_of_isValid hvalid] at hd
    cases hd

/-- The first literal behind ten far bits, with and without names to look up; and an identifier that
looks like a hexadecimal number, which only the variables know. -/
theorem resolve_exact_boundary :
    Resolves (.failing 7 "no table") .far "0x400" (.error ⟨7, .addressTooLarge 1023⟩) ∧
    (ofSymbols 7 {} (.ofList [("beef", 5)]) .empty).resolve .far "0x400" =
      .error ⟨7, .addressTooLarge 1023⟩ ∧
    (ofSymbols 7 {} .empty (.ofList [("beef", 5)])).resolve .far "beef" =
      .error ⟨7, .undefinedSymbol .far "beef"⟩ ∧
    (∀ n, ¬ Literal.Denotes "beef" n) := by
  obtain ⟨hresult, -, hliteral, -⟩ := resolve_exact (.failing 7 "no table") .far "0x400"
  obtain ⟨-, -, -, hname, -, -, hvalid⟩ := resolve_exact (ofSymbols 7 {} .empty .empty) .far "beef"
  have h : (failing 7 "no table").resolve .far "0x400" = .error ⟨7, .addressTooLarge 1023⟩ := by
    decide +kernel
  have hundefined : (ofSymbols 7 {} .empty .empty).resolve .far "beef" =
      .error ⟨7, .undefinedSymbol .far "beef"⟩ := by
    decide +kernel
  refine ⟨(hresult _).mp h, ?_, ?_, (hvalid (by decide +kernel)).1⟩
  · exact (hliteral (by decide +kernel) (ofSymbols 7 {} (.ofList [("beef", 5)]) .empty) rfl
      rfl).trans h
  · exact (hname (by decide +kernel) (ofSymbols 7 {} .empty (.ofList [("beef", 5)])) rfl rfl).trans
      hundefined

end Scope

end EightBitAsm
