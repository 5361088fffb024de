import EightBitAsm.Proofs.LineGrammar

/-! The canonical text of a line. It reads back as the same label and the same statement, unless the
statement is an instruction without a mnemonic; this is what a line has that holds separators and no
words behind its label, and such an instruction prints as nothing. -/
namespace EightBitAsm

namespace Text

theorem Runs.mem {sep : Char → Bool} {cs : List Char} {ws : List (List Char)} (h : Runs sep cs ws) :
    ∀ w ∈ ws, w ≠ [] ∧ ∀ c ∈ w, c ∈ cs ∧ sep c = false := by
  induction h with
  | gap => simp
  | @run gap w rest ws _ hne hw _ _ ih =>
    intro v hv
    rcases List.mem_cons.mp hv with rfl | hv
    · exact ⟨hne, fun c hc => ⟨by simp [hc], hw c hc⟩⟩
    · obtain ⟨hvne, hvs⟩ := ih v hv
      refine ⟨hvne, fun c hc => ?_⟩
      obtain ⟨hmem, hsep⟩ := hvs c hc
      exact ⟨List.mem_append_right _ hmem, hsep⟩

theorem runs_joinWith {sep : Char → Bool} (hspace : sep ' ' = true) {ws : List (List Char)}
    (h : ∀ w ∈ ws, w ≠ [] ∧ ∀ c ∈ w, sep c = false) :
    Runs sep (joinWith " " (ws.map String.ofList)).toList ws := by
  induction ws with
  | nil => exact .gap (by simp [joinWith])
  | cons w ws ih =>
    obtain ⟨⟨hne, hw⟩, hws⟩ := List.forall_mem_cons.mp h
    cases ws with
    | nil =>
      have hrun := @Runs.run sep [] w [] [] (by simp) hne hw (by simp) (.gap (by simp))
      simpa [joinWith] using hrun
    | cons v vs =>
      have hrun := @Runs.run sep [] w _ _ (by simp) hne hw (by simpa using hspace)
        ((ih hws).cons_sep hspace)
      simpa [joinWith] using hrun

theorem mem_joinWith {ws : List String} {c : Char} (h : c ∈ (joinWith " " ws).toList) :
    c = ' ' ∨ ∃ w ∈ ws, c ∈ w.toList := by
  induction ws with
  | nil => simp [joinWith] at h
  | cons w ws ih =>
    cases ws with
    | nil => exact Or.inr ⟨w, List.mem_cons_self, h⟩
    | cons v vs =>
      simp only [joinWith, String.toList_append, List.mem_append] at h
      rcases h with (h | h) | h
      · exact Or.inr ⟨w, List.mem_cons_self, h⟩
      · exact Or.inl (by simpa using h)
      · rcases ih h with h | ⟨u, hu, h⟩
        · exact Or.inl h
        · exact Or.inr ⟨u, List.mem_cons_of_mem w hu, h⟩

theorem mem_or_small_of_lowers {w m : List Char} (h : List.Forall₂ Lowers w m) {d : Char}
    (hd : d ∈ m) : d ∈ w ∨ 97 ≤ d.toNat ∧ d.toNat ≤ 122 := by
  induction h with
  | nil => cases hd
  | @cons c d' w m hlowers _ ih =>
    rcases List.mem_cons.mp hd with rfl | hd
    · rw [Lowers] at hlowers
      split at hlowers
      · next hc =>
        have hrange : 65 ≤ c.toNat ∧ c.toNat ≤ 90 := hc
        exact Or.inr (by omega)
      · exact Or.inl (by simp [hlowers])
    · exact (ih hd).imp_left (List.mem_cons_of_mem c)

end Text

namespace Statement

def print : Statement → String
  | instruction mnemonic operands => Text.joinWith " " (mnemonic :: operands)
  | declaration name value => name ++ " = " ++ value

variable {rest w mnemonic : List Char} {ws : List (List Char)}

theorem isSeparator_of_small {c : Char} (h : 97 ≤ c.toNat ∧ c.toNat ≤ 122) :
    isSeparator c = false := by
  have hcomma : c ≠ ',' := by
    rintro rfl
    simp at h
  simp [isSeparator, hcomma, Text.isBlank_of_ascii (c := c) (by omega) (by omega)]

theorem words_lowered (hruns : Text.Runs isSeparator rest (w :: ws))
    (hlower : List.Forall₂ Text.Lowers w mnemonic) :
    ∀ v ∈ mnemonic :: ws, v ≠ [] ∧ ∀ c ∈ v, isSeparator c = false := by
  intro v hv
  rcases List.mem_cons.mp hv with rfl | hv
  · obtain ⟨hne, hw⟩ := hruns.mem w List.mem_cons_self
    constructor
    · rintro rfl
      cases hlower
      exact hne rfl
    · intro c hc
      rcases Text.mem_or_small_of_lowers hlower hc with hc | hc
      · exact (hw c hc).2
      · exact isSeparator_of_small hc
  · obtain ⟨hne, hv⟩ := hruns.mem v (List.mem_cons_of_mem w hv)
    exact ⟨hne, fun c hc => (hv c hc).2⟩

theorem mem_of_mem_words (hruns : Text.Runs isSeparator rest (w :: ws))
    (hlower : List.Forall₂ Text.Lowers w mnemonic) {c : Char} (hspace : c ≠ ' ')
    (hsmall : c.toNat < 97)
    (hc : c ∈ (Text.joinWith " " ((mnemonic :: ws).map String.ofList)).toList) : c ∈ rest := by
  rcases Text.mem_joinWith hc with hblank | ⟨_, hv, hcv⟩
  · exact absurd hblank hspace
  · obtain ⟨v, hmem, rfl⟩ := List.mem_map.mp hv
    rw [String.toList_ofList] at hcv
    rcases List.mem_cons.mp hmem with rfl | hmem
    · rcases Text.mem_or_small_of_lowers hlower hcv with hcw | hletter
      · exact ((hruns.mem w List.mem_cons_self).2 c hcw).1
      · omega
    · exact ((hruns.mem v (List.mem_cons_of_mem w hmem)).2 c hcv).1

theorem Stated.mem_of_mem_print {s : Statement} (h : Stated rest (some s)) {c : Char}
    (hspace : c ≠ ' ') (hsmall : c.toNat < 97) (hc : c ∈ s.print.toList) : c ∈ rest := by
  cases h with
  | @declaration name value hsides hname =>
    obtain ⟨before, behind, hcut, hleft, hright⟩ := hsides
    rw [hcut.eq, List.mem_append, List.mem_cons]
    simp only [Statement.print, String.toList_append, String.toList_ofList, List.mem_append] at hc
    rcases hc with (hc | hc) | hc
    · rw [← hleft.trim_eq] at hc
      exact Or.inl (Text.mem_of_mem_trim hc)
    · have hequals : c = '=' := by simpa [hspace] using hc
      exact Or.inr (Or.inl hequals)
    · rw [← hright.trim_eq] at hc
      exact Or.inr (Or.inr (Text.mem_of_mem_trim hc))
  | instruction hequals hruns hlower => exact mem_of_mem_words hruns hlower hspace hsmall hc
  | separators => simp [print, Text.joinWith] at hc

/-- A statement that is printed and read again is the same, if it has a mnemonic where it needs
one. -/
theorem Stated.print {s : Statement} (h : Stated rest (some s)) (hne : s ≠ .instruction "" []) :
    Stated (Text.trim s.print.toList) (some s) := by
  cases h with
  | @declaration name value hsides hname =>
    obtain ⟨before, behind, _, _, hright⟩ := hsides
    have hspace : Text.isBlank ' ' = true := by decide
    have hequals : '=' ∉ name ++ [' '] := by
      simpa using hname.not_mem (c := '=') (by decide)
    have hvalue : Text.trim ([' '] ++ value) = value := by
      rw [Text.trim_blanks_append (by simpa using hspace), hright.trimmed.trim_eq]
    have hread := Text.sides_trim (c := '=') (by decide) hequals ([' '] ++ value)
    rw [Text.trim_append_blank name hspace, hname.trim_eq, hvalue] at hread
    have htext : (Statement.declaration (String.ofList name) (String.ofList value)).print.toList =
        name ++ [' '] ++ '=' :: ([' '] ++ value) := by
      simp [Statement.print]
    rw [htext]
    exact .declaration hread hname
  | @instruction w mnemonic ws hequals hruns hlower =>
    rw [Statement.print, ← List.map_cons]
    have hwords := Text.runs_joinWith (by decide) (words_lowered hruns hlower)
    refine stated_trim_of_runs ?_ hwords (Text.lowers_again hlower)
    intro hmem
    exact hequals (mem_of_mem_words hruns hlower (by decide) (by decide) hmem)
  | separators => exact absurd rfl hne

theorem stated_empty_iff {operands : List String} :
    Stated rest (some (.instruction "" operands)) ↔
      operands = [] ∧ rest ≠ [] ∧ ∀ c ∈ rest, isSeparator c = true := by
  constructor
  · generalize hs : some (Statement.instruction "" operands) = s
    intro h
    cases h with
    | nothing => cases hs
    | declaration => cases hs
    | @instruction w mnemonic ws _ hruns hlower =>
      have hempty : "" = String.ofList mnemonic := by
        injection hs with hs
        injection hs
      rw [eq_comm, String.ofList_eq_empty_iff] at hempty
      exact absurd hempty ((words_lowered hruns hlower) mnemonic List.mem_cons_self).1
    | separators hrest _ hruns =>
      cases hs
      cases hruns with
      | gap hgap => exact ⟨rfl, hrest, hgap⟩
  · rintro ⟨rfl, hrest, hgap⟩
    refine .separators hrest (fun hmem => ?_) (.gap hgap)
    cases hgap '=' hmem

end Statement

namespace Line

open Statement (Stated)

def canonical (line : Line) : String :=
  line.label.elim "" (· ++ ":") ++ line.statement.elim "" Statement.print

def NoWords (raw : List Char) : Prop :=
  ∃ code label rest, CodeOf raw code ∧ Labelled code label rest ∧ rest ≠ [] ∧
    ∀ c ∈ rest, Statement.isSeparator c = true

variable {number : Nat} {raw code rest : List Char} {label : Option String}
  {statement : Option Statement}

theorem Labelled.mem {c : Char} (h : Labelled code label rest) (hc : c ∈ rest) : c ∈ code := by
  cases h with
  | without => exact hc
  | label hsides =>
    obtain ⟨before, behind, hcut, _, hright⟩ := hsides
    rw [← hright.trim_eq] at hc
    rw [hcut.eq]
    exact List.mem_append_right _ (List.mem_cons_of_mem _ (Text.mem_of_mem_trim hc))

theorem Labelled.labelText (h : Labelled code label rest) :
    LabelText (label.elim "" (· ++ ":")).toList label := by
  cases h with
  | without => exact .none
  | @label name _ _ hname =>
    have htext := @LabelText.label [] name [] (by simp) hname (by simp)
    simpa using htext

theorem layout_canonical (hcode : CodeOf raw code) (hlabel : Labelled code label rest)
    (hstatement : Stated rest statement) :
    Layout (label.elim "" (· ++ ":")).toList (statement.elim "" Statement.print).toList []
      label := by
  have hmem : ∀ c ∈ (statement.elim "" Statement.print).toList, c ≠ ' ' → c.toNat < 97 →
      c ∈ rest := by
    intro c hc hspace hsmall
    cases statement with
    | none => simp at hc
    | some s => exact hstatement.mem_of_mem_print hspace hsmall hc
  refine ⟨hlabel.labelText, ?_, ?_, by simp⟩
  · rintro rfl hcolon
    cases hlabel with
    | without hnot => exact hnot (hmem ':' hcolon (by decide) (by decide))
  · intro hsemicolon
    have hcode' := hlabel.mem (hmem ';' hsemicolon (by decide) (by decide))
    rw [← hcode.code_eq] at hcode'
    exact (mem_of_mem_code hcode').2 rfl

section Printed

variable {line : Line} (h : parseChars number raw = .ok line)
include h

theorem eq_nil_of_mnemonic_empty {operands : List String}
    (hs : line.statement = some (.instruction "" operands)) : operands = [] := by
  obtain ⟨_, _, _, _, hstated⟩ := exists_stated h
  rw [hs] at hstated
  exact (Statement.stated_empty_iff.mp hstated).1

theorem noWords_iff : NoWords raw ↔ line.statement = some (.instruction "" []) := by
  constructor
  · rintro ⟨code, label, rest, hcode, hlabel, hrest, hsep⟩
    have hread : Reads number raw (.ok ⟨number, label, some (.instruction "" []), _⟩) :=
      .line hcode hlabel (Statement.stated_empty_iff.mpr ⟨rfl, hrest, hsep⟩)
    cases h.symm.trans hread.parseChars_eq
    rfl
  · intro hs
    obtain ⟨code, rest, hcode, hlabel, hstated⟩ := exists_stated h
    rw [hs] at hstated
    obtain ⟨_, hrest, hsep⟩ := Statement.stated_empty_iff.mp hstated
    exact ⟨code, _, rest, hcode, hlabel, hrest, hsep⟩

/-- The canonical text keeps the label, whatever the printed statement is read as. -/
theorem parse_canonical_of_stated
    (hs : Stated (Text.trim (line.statement.elim "" Statement.print).toList) statement) :
    ∃ line', parse number line.canonical = .ok line' ∧ line'.label = line.label ∧
      line'.statement = statement := by
  obtain ⟨code, rest, hcode, hlabel, hstated⟩ := exists_stated h
  have hread := (layout_canonical hcode hlabel hstated).reads number hs
  rw [List.append_nil, ← String.toList_append] at hread
  exact ⟨_, hread.parseChars_eq, rfl, rfl⟩

theorem parse_canonical_of_ne (hs : line.statement ≠ some (.instruction "" [])) :
    ∃ line', parse number line.canonical = .ok line' ∧ line'.label = line.label ∧
      line'.statement = line.statement := by
  obtain ⟨_, _, _, _, hstated⟩ := exists_stated h
  apply parse_canonical_of_stated h
  cases hstatement : line.statement with
  | none => exact .nothing rfl
  | some s =>
    rw [hstatement] at hstated hs
    exact hstated.print fun hempty => hs (congrArg some hempty)

end Printed

/-- Printing undoes reading on every line that is read and has words where it needs them; exactly
the other lines are read as an instruction without a mnemonic, which is lost in printing. -/
theorem parse_canonical_unless_noWords {number : Nat} {raw : String} {line : Line}
    (h : parse number raw = .ok line) :
    ∃ line', parse number line.canonical = .ok line' ∧ line'.label = line.label ∧
      (¬ NoWords raw.toList → line'.statement = line.statement ∧
        ∀ mnemonic operands, line.statement = some (.instruction mnemonic operands) →
          mnemonic ≠ "") ∧
      (NoWords raw.toList → line.statement = some (.instruction "" []) ∧
        line'.statement = none) := by
  have hempty := noWords_iff h
  by_cases hwords : NoWords raw.toList
  · have hs := hempty.mp hwords
    have hnothing : Stated (Text.trim (line.statement.elim "" Statement.print).toList) none := by
      rw [hs]
      exact .nothing rfl
    obtain ⟨line', hparse, hlabel, hnone⟩ := parse_canonical_of_stated h hnothing
    exact ⟨line', hparse, hlabel, fun hnot => absurd hwords hnot, fun _ => ⟨hs, hnone⟩⟩
  · obtain ⟨line', hparse, hlabel, hsame⟩ := parse_canonical_of_ne h (mt hempty.mpr hwords)
    refine ⟨line', hparse, hlabel, fun _ => ⟨hsame, ?_⟩, fun hno => absurd hno hwords⟩
    rintro mnemonic operands hs rfl
    obtain rfl := eq_nil_of_mnemonic_empty h hs
    exact hwords (hempty.mpr hs)

theorem parse_canonical_unless_noWords_marks :
    parse 4 "top : V= x=1 : 2 ;" = .ok ⟨4, some "top", some (.declaration "V" "x=1 : 2"),
      "top : V= x=1 : 2"⟩ ∧
    ∃ line', parse 4 "top:V = x=1 : 2" = .ok line' ∧ line'.label = some "top" ∧
      line'.statement = some (.declaration "V" "x=1 : 2") := by
  have h : parse 4 "top : V= x=1 : 2 ;" = .ok ⟨4, some "top", some (.declaration "V" "x=1 : 2"),
      "top : V= x=1 : 2"⟩ := by decide +kernel
  obtain ⟨line', hparse, hlabel, hsame, hlost⟩ := parse_canonical_unless_noWords h
  have hwords : ¬ NoWords "top : V= x=1 : 2 ;".toList := by
    intro hno
    cases (hlost hno).1
  exact ⟨h, line', hparse, hlabel, (hsame hwords).1⟩

/-- A line with nothing but a comma holds an instruction without a mnemonic, which its canonical
text does not hold. -/
theorem parse_canonical_comma :
    parse 1 "," = .ok ⟨1, none, some (.instruction "" []), ","⟩ ∧
    (Line.mk 1 none (some (.instruction "" [])) ",").canonical = "" ∧
    parse 1 "" = .ok ⟨1, none, none, ""⟩ := by
  decide +kernel

end Line

end EightBitAsm
