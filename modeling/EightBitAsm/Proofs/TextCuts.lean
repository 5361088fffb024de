import EightBitAsm.Proofs.Scan

/-! Where texts are cut: at a character, at the blanks around them, into lines. A line feed ends a
line and takes one carriage return before it along; what it takes is blank, so the code of the line
does not depend on it. A name holds no blank and no mark, so no cut goes through one. -/
namespace EightBitAsm

namespace Text

theorem cut?_append {c : Char} {cs : List Char} (h : c ∉ cs) (rest : List Char) :
    cut? c (cs ++ c :: rest) = some (cs, rest) := by
  induction cs with
  | nil => simp [cut?]
  | cons d ds ih =>
    obtain ⟨hd, hds⟩ := not_or.mp (mt List.mem_cons.mpr h)
    simp [cut?, Ne.symm hd, ih hds]

/-- Two texts that are equal up to a character, the first of its kind in both, are equal before it
and behind it. -/
theorem append_cons_inj {c : Char} {xs ys r s : List Char} (hx : c ∉ xs) (hy : c ∉ ys)
    (h : xs ++ c :: r = ys ++ c :: s) : xs = ys ∧ r = s := by
  have hcut := congrArg (cut? c) h
  rw [cut?_append hx, cut?_append hy] at hcut
  simpa using hcut

/-- Parts that all end at the same character are found again in front of whatever follows. -/
theorem exists_append_of_flatMap_end {c : Char} {xs ys : List (List Char)} {rest : List Char}
    (hx : ∀ l ∈ xs, c ∉ l) (hy : ∀ l ∈ ys, c ∉ l)
    (h : xs.flatMap (· ++ [c]) ++ rest = ys.flatMap (· ++ [c])) :
    ∃ zs, ys = xs ++ zs ∧ zs.flatMap (· ++ [c]) = rest := by
  induction xs generalizing ys with
  | nil => exact ⟨ys, rfl, h.symm⟩
  | cons x xs ih =>
    cases ys with
    | nil => simp at h
    | cons y ys =>
      simp only [List.flatMap_cons, List.append_assoc, List.singleton_append] at h
      obtain ⟨rfl, hrest⟩ :=
        append_cons_inj (hx x List.mem_cons_self) (hy y List.mem_cons_self) h
      obtain ⟨zs, rfl, hzs⟩ := ih (fun l hl => hx l (List.mem_cons_of_mem _ hl))
        (fun l hl => hy l (List.mem_cons_of_mem _ hl)) hrest
      exact ⟨zs, rfl, hzs⟩

theorem flatMap_end_inj {c : Char} {xs ys : List (List Char)} (hx : ∀ l ∈ xs, c ∉ l)
    (hy : ∀ l ∈ ys, c ∉ l) (h : xs.flatMap (· ++ [c]) = ys.flatMap (· ++ [c])) : xs = ys := by
  rw [← List.append_nil (xs.flatMap _)] at h
  obtain ⟨zs, rfl, hzs⟩ := exists_append_of_flatMap_end hx hy h
  cases zs with
  | nil => simp
  | cons z zs => simp at hzs

structure Trimmed (cs : List Char) : Prop where
  head : ∀ c ∈ cs.head?, isBlank c = false
  last : ∀ c ∈ cs.getLast?, isBlank c = false

theorem Trimmed.trim_eq {cs : List Char} (h : Trimmed cs) : trim cs = cs := by
  have hleft : trimLeft cs = cs := by
    cases cs with
    | nil => rfl
    | cons c cs => simp [trimLeft, h.head c rfl]
  have hright : trimRight cs = cs := by
    rcases List.eq_nil_or_concat cs with rfl | ⟨ds, c, rfl⟩
    · rfl
    · have hc : isBlank c = false := h.last c (by simp)
      simp [trimRight, hc]
  rw [trim, hleft, hright]

theorem trim_eq_self {cs : List Char} (h : ∀ c ∈ cs, isBlank c = false) : trim cs = cs := by
  apply Trimmed.trim_eq
  constructor
  · intro c hc
    exact h c (List.mem_of_mem_head? hc)
  · intro c hc
    exact h c (List.mem_of_mem_getLast? hc)

theorem trimRight_isPrefix (cs : List Char) : trimRight cs <+: cs :=
  List.rdropWhile_prefix isBlank cs

theorem trimmed_trim (cs : List Char) : Trimmed (trim cs) := by
  constructor
  · intro c hc
    -- What is cut off at the right leaves the first character as it is.
    obtain ⟨rest, hrest⟩ := trimRight_isPrefix (trimLeft cs)
    have hhead : (trimLeft cs).head? = some c := by
      rw [← hrest]
      exact List.mem_head?_append_of_mem_head? hc
    have hnot := List.head?_dropWhile_not isBlank cs
    rw [trimLeft] at hhead
    rwa [hhead] at hnot
  · intro c hc
    obtain ⟨hne, hlast⟩ := List.mem_getLast?_eq_getLast hc
    have hnot := List.rdropWhile_last_not isBlank (trimLeft cs) hne
    rw [Bool.not_eq_true] at hnot
    rw [hlast]
    exact hnot

theorem mem_of_mem_trim {cs : List Char} {c : Char} (h : c ∈ trim cs) : c ∈ cs :=
  (List.dropWhile_suffix isBlank).subset ((trimRight_isPrefix _).subset h)

theorem trim_eq_nil {cs : List Char} (h : ∀ c ∈ cs, isBlank c = true) : trim cs = [] := by
  rw [trim, trimLeft, List.dropWhile_eq_nil_iff.mpr h, trimRight_nil]

theorem isBlank_of_ascii {c : Char} (hlow : 33 ≤ c.toNat) (hhigh : c.toNat ≤ 126) :
    isBlank c = false := by
  simp only [isBlank, blankRanges, List.any_cons, List.any_nil, Bool.or_false, Bool.or_eq_false_iff,
    Bool.and_eq_false_iff, decide_eq_false_iff_not]
  omega

def dropReturn (cs : List Char) : List Char :=
  if cs.getLast? = some '\r' then cs.dropLast else cs

theorem lines_cons_of_ne {c : Char} {cs : List Char} (hc : c ≠ '\n')
    (hr : c = '\r' → cs.head? ≠ some '\n') :
    lines (c :: cs) = match lines cs with
      | [] => [[c]]
      | l :: ls => (c :: l) :: ls := by
  have hreturn : ∀ rest, c = '\r' → cs = '\n' :: rest → False := by
    intro rest h hcs
    exact hr h (by simp [hcs])
  exact lines.eq_4 c cs hc hreturn

theorem lines_of_newline_not_mem {cs : List Char} (h : '\n' ∉ cs) (hne : cs ≠ []) :
    lines cs = [cs] := by
  induction cs with
  | nil => exact absurd rfl hne
  | cons c cs ih =>
    obtain ⟨hc, hcs⟩ := not_or.mp (mt List.mem_cons.mpr h)
    have hhead : cs.head? ≠ some '\n' := fun hh => hcs (List.mem_of_mem_head? hh)
    rw [lines_cons_of_ne (Ne.symm hc) fun _ => hhead]
    cases cs with
    | nil => rfl
    | cons d ds => rw [ih hcs (List.cons_ne_nil d ds)]

theorem dropReturn_cons {c : Char} {cs : List Char} (h : c = '\r' → cs ≠ []) :
    dropReturn (c :: cs) = c :: dropReturn cs := by
  cases cs with
  | nil =>
    have hc : c ≠ '\r' := fun hc => h hc rfl
    simp [dropReturn, hc]
  | cons d ds =>
    simp only [dropReturn, List.getLast?_cons_cons, List.dropLast_cons_cons]
    split <;> rfl

theorem lines_append_newline {cs : List Char} (h : '\n' ∉ cs) (rest : List Char) :
    lines (cs ++ '\n' :: rest) = dropReturn cs :: lines rest := by
  induction cs with
  | nil => rfl
  | cons c cs ih =>
    obtain ⟨hc, hcs⟩ := not_or.mp (mt List.mem_cons.mpr h)
    -- Only a carriage return right before the line feed goes with it.
    by_cases hlone : c = '\r' ∧ cs = []
    · obtain ⟨rfl, rfl⟩ := hlone
      rfl
    · have hne : c = '\r' → cs ≠ [] := fun hr hnil => hlone ⟨hr, hnil⟩
      have hhead : c = '\r' → (cs ++ '\n' :: rest).head? ≠ some '\n' := by
        intro hr hh
        obtain ⟨d, ds, rfl⟩ := List.exists_cons_of_ne_nil (hne hr)
        exact hcs (List.mem_of_mem_head? hh)
      rw [List.cons_append, lines_cons_of_ne (Ne.symm hc) hhead, ih hcs, dropReturn_cons hne]

/-- Texts are taken apart line by line, down to a rest without a line feed. -/
@[elab_as_elim]
theorem induction_on_lines {motive : List Char → Prop} (last : ∀ cs, '\n' ∉ cs → motive cs)
    (line : ∀ l rest, '\n' ∉ l → motive rest → motive (l ++ '\n' :: rest)) (cs : List Char) :
    motive cs := by
  induction hn : cs.length using Nat.strongRecOn generalizing cs with
  | ind n ih =>
    by_cases hmem : '\n' ∈ cs
    · obtain ⟨l, rest, rfl, hl⟩ := List.eq_append_cons_of_mem hmem
      have hlt : rest.length < n := by
        rw [← hn, List.length_append, List.length_cons]
        omega
      exact line l rest hl (ih rest.length hlt rest rfl)
    · exact last cs hmem

/-- More text behind a line feed leaves the lines in front of it as they are, except that the last
one may lose a carriage return to the line feed. -/
theorem lines_append (cs rest : List Char) : ∃ first more,
    lines (cs ++ '\n' :: rest) = first ++ more ∧
      List.Forall₂ (fun l m => m = l ∨ m = dropReturn l) (lines cs) first := by
  induction cs using induction_on_lines with
  | last cs h =>
    by_cases hne : cs = []
    · subst hne
      exact ⟨[], _, rfl, .nil⟩
    · refine ⟨[dropReturn cs], lines rest, lines_append_newline h rest, ?_⟩
      rw [lines_of_newline_not_mem h hne]
      exact .cons (Or.inr rfl) .nil
  | line l ds hl ih =>
    obtain ⟨first, more, hlines, hsame⟩ := ih
    refine ⟨dropReturn l :: first, more, ?_, ?_⟩
    · rw [List.append_assoc, List.cons_append, lines_append_newline hl, hlines, List.cons_append]
    · rw [lines_append_newline hl]
      exact .cons (Or.inl rfl) hsame

theorem trim_append_blank (cs : List Char) {c : Char} (h : isBlank c = true) :
    trim (cs ++ [c]) = trim cs := by
  unfold trim trimLeft
  rw [List.dropWhile_append]
  split
  · next hempty =>
    have hnil : cs.dropWhile isBlank = [] := by simpa using hempty
    simp [hnil, h]
  · simp [trimRight, h]

end Text

namespace Line

theorem code_append_return (cs : List Char) : code (cs ++ ['\r']) = code cs := by
  unfold code Text.upTo
  rw [List.takeWhile_append]
  split
  · next hlength =>
    have hcs : cs.takeWhile (· ≠ ';') = cs := (List.takeWhile_prefix _).eq_of_length hlength
    rw [hcs]
    exact Text.trim_append_blank cs (by decide)
  · rfl

theorem code_dropReturn (cs : List Char) : code (Text.dropReturn cs) = code cs := by
  unfold Text.dropReturn
  split
  · next hlast =>
    have hsplit : cs.dropLast ++ ['\r'] = cs := List.dropLast_append_getLast? '\r' hlast
    conv_rhs => rw [← hsplit, code_append_return]
  · rfl

theorem mem_of_mem_code {raw : List Char} {c : Char} (h : c ∈ code raw) : c ∈ raw ∧ c ≠ ';' := by
  have htaken : c ∈ raw.takeWhile (· ≠ ';') := Text.mem_of_mem_trim h
  refine ⟨(List.takeWhile_prefix _).subset htaken, ?_⟩
  simpa using List.mem_takeWhile_imp htaken

theorem code_code (raw : List Char) : code (code raw) = code raw := by
  have hself : Text.upTo ';' (code raw) = code raw := by
    apply List.takeWhile_eq_self_iff.mpr
    intro c hc
    simpa using (mem_of_mem_code hc).2
  rw [code, hself]
  exact (Text.trimmed_trim _).trim_eq

theorem dropReturn_code (raw : List Char) : Text.dropReturn (code raw) = code raw := by
  apply if_neg
  intro hlast
  have hblank := (Text.trimmed_trim _).last '\r' hlast
  revert hblank
  decide

end Line

namespace Identifier

def NameChar (c : Char) : Prop :=
  ('A' ≤ c ∧ c ≤ 'Z') ∨ ('a' ≤ c ∧ c ≤ 'z') ∨ ('0' ≤ c ∧ c ≤ '9') ∨ c = '_' ∨ c = '-'

structure IsName (cs : List Char) : Prop where
  ne_nil : cs ≠ []
  chars : ∀ c ∈ cs, NameChar c
  head : ∀ c ∈ cs.head?, ¬ ('0' ≤ c ∧ c ≤ '9')

theorem isPart_iff {c : Char} : isPart c = true ↔ NameChar c := by
  simp only [isPart, NameChar, Char.isAlphanum, Char.isAlpha, Char.isUpper, Char.isLower,
    Char.isDigit, Bool.or_eq_true, Bool.and_eq_true, decide_eq_true_eq, beq_iff_eq, or_assoc]
  rfl

theorem isValidChars_iff {cs : List Char} : isValidChars cs = true ↔ IsName cs := by
  cases cs with
  | nil =>
    constructor
    · intro h
      cases h
    · intro h
      exact absurd rfl h.ne_nil
  | cons c cs =>
    simp only [isValidChars, Text.isDigit, Bool.and_eq_true, Bool.not_eq_true', List.all_eq_true,
      isPart_iff, ← Bool.not_eq_true, decide_eq_true_eq]
    constructor
    · rintro ⟨hhead, hchars⟩
      exact ⟨List.cons_ne_nil c cs, hchars, by simpa using hhead⟩
    · intro h
      exact ⟨h.head c rfl, h.chars⟩

theorem IsName.ascii {cs : List Char} (h : IsName cs) {c : Char} (hc : c ∈ cs) :
    33 ≤ c.toNat ∧ c.toNat ≤ 126 := by
  rcases h.chars c hc with hupper | hsmall | hdigit | rfl | rfl
  · have hrange : 65 ≤ c.toNat ∧ c.toNat ≤ 90 := hupper
    omega
  · have hrange : 97 ≤ c.toNat ∧ c.toNat ≤ 122 := hsmall
    omega
  · have hrange : 48 ≤ c.toNat ∧ c.toNat ≤ 57 := hdigit
    omega
  · decide
  · decide

theorem IsName.trim_eq {cs : List Char} (h : IsName cs) : Text.trim cs = cs := by
  apply Text.trim_eq_self
  intro c hc
  obtain ⟨hlow, hhigh⟩ := h.ascii hc
  exact Text.isBlank_of_ascii hlow hhigh

theorem IsName.not_mem {cs : List Char} (h : IsName cs) {c : Char} (hc : isPart c = false) :
    c ∉ cs := by
  intro hmem
  rw [isPart_iff.mpr (h.chars c hmem)] at hc
  cases hc

end Identifier

end EightBitAsm
