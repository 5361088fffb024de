import EightBitAsm.Proofs.TextParts

/-! The grammar of a source line: its code, its label, its statement, and the two faults. The parser
gives a result exactly if the grammar does, so a line can be laid out in any way that the grammar
allows. -/
namespace EightBitAsm

open Identifier (IsName)

theorem Text.Sides.cut?_eq {c : Char} {cs left right : List Char} (h : Sides c cs left right) :
    ∃ before behind, cut? c cs = some (before, behind) ∧ trim before = left ∧
      trim behind = right := by
  obtain ⟨before, behind, hcut, hleft, hright⟩ := h
  exact ⟨before, behind, hcut.cut?_eq, hleft.trim_eq, hright.trim_eq⟩

namespace Statement

inductive Stated (rest : List Char) : Option Statement → Prop where
  | nothing (hrest : rest = []) : Stated rest none
  | declaration {name value : List Char} (hsides : Text.Sides '=' rest name value)
      (hname : IsName name) :
      Stated rest (some (.declaration (String.ofList name) (String.ofList value)))
  | instruction {w mnemonic : List Char} {ws : List (List Char)} (hequals : '=' ∉ rest)
      (hruns : Text.Runs isSeparator rest (w :: ws))
      (hlower : List.Forall₂ Text.Lowers w mnemonic) :
      Stated rest (some (.instruction (String.ofList mnemonic) (ws.map String.ofList)))
  | separators (hrest : rest ≠ []) (hequals : '=' ∉ rest)
      (hruns : Text.Runs isSeparator rest []) : Stated rest (some (.instruction "" []))

variable {rest name value : List Char}

theorem parse_of_sides (h : Text.Sides '=' rest name value) :
    parse rest = if Identifier.isValidChars name then
        .ok (some (.declaration (String.ofList name) (String.ofList value)))
      else .error (.badVariable (String.ofList name)) := by
  obtain ⟨before, behind, hcut, rfl, rfl⟩ := h.cut?_eq
  have hne : rest ≠ [] := by
    rintro rfl
    cases hcut
  rw [parse, if_neg (by simpa using hne), hcut]

theorem parse_of_ne (hrest : rest ≠ []) (hequals : '=' ∉ rest) :
    parse rest = .ok (some (ofWords rest)) := by
  rw [parse, if_neg (by simpa using hrest), Text.cut?_eq_none hequals]

theorem Stated.parse_eq {statement : Option Statement} (h : Stated rest statement) :
    parse rest = .ok statement := by
  cases h with
  | nothing hrest =>
    rw [hrest]
    rfl
  | declaration hsides hname =>
    rw [parse_of_sides hsides, if_pos (Identifier.isValidChars_iff.mpr hname)]
  | instruction hequals hruns hlower =>
    have hne : rest ≠ [] := by
      rintro rfl
      cases hruns.words_eq
    rw [parse_of_ne hne hequals, ofWords, hruns.words_eq]
    rw [← Text.lowerChars_eq_iff.mpr hlower]
  | separators hrest hequals hruns =>
    rw [parse_of_ne hrest hequals, ofWords, hruns.words_eq]

theorem exists_stated_or_bad (rest : List Char) :
    (∃ statement, Stated rest statement) ∨
      ∃ name value, Text.Sides '=' rest name value ∧ ¬ IsName name := by
  by_cases hequals : '=' ∈ rest
  · obtain ⟨name, value, hsides⟩ := Text.exists_sides hequals
    by_cases hname : IsName name
    · exact Or.inl ⟨_, .declaration hsides hname⟩
    · exact Or.inr ⟨name, value, hsides, hname⟩
  · by_cases hrest : rest = []
    · exact Or.inl ⟨none, .nothing hrest⟩
    · obtain ⟨ws, hruns⟩ := Text.exists_runs isSeparator rest
      cases ws with
      | nil => exact Or.inl ⟨_, .separators hrest hequals hruns⟩
      | cons w ws => exact Or.inl ⟨_, .instruction hequals hruns (Text.lowerChars_eq_iff.mp rfl)⟩

theorem Stated.isValid {name value : String}
    (h : Stated rest (some (.declaration name value))) : Identifier.isValid name = true := by
  cases h with
  | declaration _ hname =>
    rw [Identifier.isValid, String.toList_ofList]
    exact Identifier.isValidChars_iff.mpr hname

theorem Stated.lowercase_eq {mnemonic : String} {operands : List String}
    (h : Stated rest (some (.instruction mnemonic operands))) :
    Text.lowercase mnemonic = mnemonic := by
  cases h with
  | instruction _ _ hlower =>
    rw [Text.lowercase, String.toList_ofList,
      Text.lowerChars_eq_iff.mpr (Text.lowers_again hlower)]
  | separators => rfl

theorem stated_trim_of_runs {body w mnemonic : List Char} {ws : List (List Char)}
    (hequals : '=' ∉ body) (hruns : Text.Runs isSeparator body (w :: ws))
    (hlower : List.Forall₂ Text.Lowers w mnemonic) :
    Stated (Text.trim body)
      (some (.instruction (String.ofList mnemonic) (ws.map String.ofList))) := by
  refine .instruction (fun hmem => hequals (Text.mem_of_mem_trim hmem)) (hruns.trim ?_) hlower
  intro c hc
  simp [isSeparator, hc]

end Statement

namespace Line

open Statement (Stated)

def CodeOf (raw code : List Char) : Prop :=
  ∃ front, Text.Trims front code ∧
    (front = raw ∧ ';' ∉ raw ∨ ∃ comment, Text.CutAt ';' raw front comment)

inductive Labelled (code : List Char) : Option String → List Char → Prop where
  | without (hcolon : ':' ∉ code) : Labelled code none code
  | label {name rest : List Char} (hsides : Text.Sides ':' code name rest) (hname : IsName name) :
      Labelled code (some (String.ofList name)) rest

inductive Reads (number : Nat) (raw : List Char) : Except SourceError Line → Prop where
  | badLabel {code name rest : List Char} (hcode : CodeOf raw code)
      (hsides : Text.Sides ':' code name rest) (hname : ¬ IsName name) :
      Reads number raw (.error ⟨number, .badLabel (String.ofList name)⟩)
  | badVariable {code rest name value : List Char} {label : Option String}
      (hcode : CodeOf raw code) (hlabel : Labelled code label rest)
      (hsides : Text.Sides '=' rest name value) (hname : ¬ IsName name) :
      Reads number raw (.error ⟨number, .badVariable (String.ofList name)⟩)
  | line {code rest : List Char} {label : Option String} {statement : Option Statement}
      (hcode : CodeOf raw code) (hlabel : Labelled code label rest)
      (hstatement : Stated rest statement) :
      Reads number raw (.ok ⟨number, label, statement, String.ofList code⟩)

variable {number : Nat} {raw cs rest : List Char} {label : Option String}

theorem CodeOf.code_eq (h : CodeOf raw cs) : code raw = cs := by
  obtain ⟨front, htrims, ⟨rfl, hcomment⟩ | ⟨comment, hcut⟩⟩ := h
  · rw [code, Text.upTo_eq_self hcomment, htrims.trim_eq]
  · rw [code, hcut.upTo_eq, htrims.trim_eq]

theorem exists_codeOf (raw : List Char) : ∃ code, CodeOf raw code := by
  by_cases hcomment : ';' ∈ raw
  · obtain ⟨front, comment, hcut⟩ := Text.exists_cutAt hcomment
    exact ⟨_, front, Text.trims_trim front, Or.inr ⟨comment, hcut⟩⟩
  · exact ⟨_, raw, Text.trims_trim raw, Or.inl ⟨rfl, hcomment⟩⟩

theorem splitLabel_of_sides {name : List Char} (h : Text.Sides ':' cs name rest) :
    splitLabel cs = if Identifier.isValidChars name then .ok (some (String.ofList name), rest)
      else .error (.badLabel (String.ofList name)) := by
  obtain ⟨before, behind, hcut, rfl, rfl⟩ := h.cut?_eq
  rw [splitLabel, hcut]

theorem Labelled.splitLabel_eq (h : Labelled cs label rest) :
    splitLabel cs = .ok (label, rest) := by
  cases h with
  | without hcolon => rw [splitLabel, Text.cut?_eq_none hcolon]
  | label hsides hname =>
    rw [splitLabel_of_sides hsides, if_pos (Identifier.isValidChars_iff.mpr hname)]

theorem Labelled.isValid {name : String} (h : Labelled cs (some name) rest) :
    Identifier.isValid name = true := by
  cases h with
  | label _ hname =>
    rw [Identifier.isValid, String.toList_ofList]
    exact Identifier.isValidChars_iff.mpr hname

theorem Labelled.parseCode_eq (h : Labelled cs label rest) (number : Nat) :
    parseCode number cs = Statement.parse rest >>= fun statement =>
      .ok ⟨number, label, statement, String.ofList cs⟩ := by
  rw [parseCode, h.splitLabel_eq]
  rfl

theorem exists_labelled_or_bad (cs : List Char) :
    (∃ label rest, Labelled cs label rest) ∨
      ∃ name rest, Text.Sides ':' cs name rest ∧ ¬ IsName name := by
  by_cases hcolon : ':' ∈ cs
  · obtain ⟨name, rest, hsides⟩ := Text.exists_sides hcolon
    by_cases hname : IsName name
    · exact Or.inl ⟨_, rest, .label hsides hname⟩
    · exact Or.inr ⟨name, rest, hsides, hname⟩
  · exact Or.inl ⟨none, cs, .without hcolon⟩

theorem exists_reads (number : Nat) (raw : List Char) : ∃ result, Reads number raw result := by
  obtain ⟨code, hcode⟩ := exists_codeOf raw
  obtain ⟨label, rest, hlabel⟩ | ⟨name, rest, hsides, hname⟩ := exists_labelled_or_bad code
  · obtain ⟨statement, hstatement⟩ | ⟨name, value, hsides, hname⟩ :=
      Statement.exists_stated_or_bad rest
    · exact ⟨_, .line hcode hlabel hstatement⟩
    · exact ⟨_, .badVariable hcode hlabel hsides hname⟩
  · exact ⟨_, .badLabel hcode hsides hname⟩

theorem Reads.parseChars_eq {result : Except SourceError Line} (h : Reads number raw result) :
    parseChars number raw = result := by
  rw [parseChars]
  cases h with
  | badLabel hcode hsides hname =>
    rw [hcode.code_eq, parseCode, splitLabel_of_sides hsides,
      if_neg (mt Identifier.isValidChars_iff.mp hname)]
    rfl
  | badVariable hcode hlabel hsides hname =>
    rw [hcode.code_eq, hlabel.parseCode_eq, Statement.parse_of_sides hsides,
      if_neg (mt Identifier.isValidChars_iff.mp hname)]
    rfl
  | line hcode hlabel hstatement =>
    rw [hcode.code_eq, hlabel.parseCode_eq, hstatement.parse_eq]
    rfl

/-- The parser and the grammar agree: the cases of the grammar leave nothing out and exclude one
another. -/
theorem parseChars_eq_iff {result : Except SourceError Line} :
    parseChars number raw = result ↔ Reads number raw result := by
  constructor
  · rintro rfl
    obtain ⟨result, hresult⟩ := exists_reads number raw
    rwa [hresult.parseChars_eq]
  · exact Reads.parseChars_eq

theorem exists_stated {line : Line} (h : parseChars number raw = .ok line) :
    ∃ code rest, CodeOf raw code ∧ Labelled code line.label rest ∧
      Stated rest line.statement := by
  cases parseChars_eq_iff.mp h with
  | line hcode hlabel hstatement => exact ⟨_, _, hcode, hlabel, hstatement⟩

inductive LabelText : List Char → Option String → Prop where
  | none : LabelText [] none
  | label {left name right : List Char} (hleft : ∀ c ∈ left, Text.isBlank c = true)
      (hname : IsName name) (hright : ∀ c ∈ right, Text.isBlank c = true) :
      LabelText (left ++ name ++ right ++ [':']) (some (String.ofList name))

structure Layout (front body comment : List Char) (label : Option String) : Prop where
  front : LabelText front label
  colon : label = none → ':' ∉ body
  semicolon : ';' ∉ body
  comment : ∀ c ∈ comment.head?, c = ';'

/-- No mark is a part of a name or blank, so none stands in front of the `:` of a label. -/
theorem not_mem_around {c : Char} (hpart : Identifier.isPart c = false)
    (hblank : Text.isBlank c = false) {left name right : List Char}
    (hleft : ∀ c ∈ left, Text.isBlank c = true) (hname : IsName name)
    (hright : ∀ c ∈ right, Text.isBlank c = true) :
    c ∉ left ++ name ++ right := by
  intro hmem
  rcases List.mem_append.mp hmem with hmem | hmem
  · rcases List.mem_append.mp hmem with hmem | hmem
    · simp [hleft c hmem] at hblank
    · exact hname.not_mem hpart hmem
  · simp [hright c hmem] at hblank

theorem LabelText.semicolon_not_mem {front : List Char} (h : LabelText front label) :
    ';' ∉ front := by
  cases h with
  | none => exact List.not_mem_nil
  | label hleft hname hright =>
    intro hmem
    rcases List.mem_append.mp hmem with hmem | hmem
    · exact not_mem_around (by decide) (by decide) hleft hname hright hmem
    · simp at hmem

namespace Layout

variable {front body comment : List Char} (h : Layout front body comment label)
include h

theorem codeOf : CodeOf (front ++ body ++ comment) (Text.trim (front ++ body)) := by
  have hfree : ';' ∉ front ++ body := by
    intro hmem
    rcases List.mem_append.mp hmem with hmem | hmem
    · exact h.front.semicolon_not_mem hmem
    · exact h.semicolon hmem
  refine ⟨front ++ body, Text.trims_trim _, ?_⟩
  cases comment with
  | nil => exact Or.inl ⟨(List.append_nil _).symm, by rwa [List.append_nil]⟩
  | cons c rest =>
    obtain rfl : c = ';' := h.comment c rfl
    exact Or.inr ⟨rest, rfl, hfree⟩

theorem labelled : Labelled (Text.trim (front ++ body)) label (Text.trim body) := by
  cases h.front with
  | none =>
    refine .without fun hmem => ?_
    exact h.colon rfl (Text.mem_of_mem_trim hmem)
  | @label left name right hleft hname hright =>
    have htrim : Text.trim (left ++ name ++ right) = name := by
      rw [Text.trim_append_blanks hright, Text.trim_blanks_append hleft, hname.trim_eq]
    have hcolon := not_mem_around (c := ':') (by decide) (by decide) hleft hname hright
    have hsides := Text.sides_trim (c := ':') (by decide) hcolon body
    rw [htrim] at hsides
    rw [List.append_assoc, List.singleton_append]
    exact .label hsides hname

/-- The layout does not matter: label and body are read as if they stood alone. -/
theorem reads (number : Nat) {statement : Option Statement}
    (hstatement : Stated (Text.trim body) statement) :
    Reads number (front ++ body ++ comment)
      (.ok ⟨number, label, statement, String.ofList (Text.trim (front ++ body))⟩) :=
  .line h.codeOf h.labelled hstatement

end Layout

/-- Lines are read exactly as the grammar says. A label, words with any separators between and
around them, and a comment are therefore found again wherever the blanks stand. -/
theorem parse_exact (number : Nat) (raw : String) :
    (∀ result, parse number raw = result ↔ Reads number raw.toList result) ∧
    ∀ (front body comment w mnemonic : List Char) (ws : List (List Char)) (label : Option String),
      raw.toList = front ++ body ++ comment → Layout front body comment label → '=' ∉ body →
      Text.Runs Statement.isSeparator body (w :: ws) → List.Forall₂ Text.Lowers w mnemonic →
      parse number raw = .ok ⟨number, label,
        some (.instruction (String.ofList mnemonic) (ws.map String.ofList)),
        String.ofList (Text.trim (front ++ body))⟩ := by
  refine ⟨fun result => parseChars_eq_iff, ?_⟩
  intro front body comment w mnemonic ws label hraw hlayout hequals hruns hlower
  rw [parse, hraw]
  exact (hlayout.reads number (Statement.stated_trim_of_runs hequals hruns hlower)).parseChars_eq

/-- Blanks on both sides of the label, commas in a row, and a comment that looks like a
declaration. -/
theorem parse_exact_commas :
    Layout "  loop :".toList "\tDJRNZ ,R1,, loop".toList "; a = b: c".toList (some "loop") ∧
    parse 3 "  loop :\tDJRNZ ,R1,, loop; a = b: c" = .ok ⟨3, some "loop",
      some (.instruction "djrnz" ["R1", "loop"]), "loop :\tDJRNZ ,R1,, loop"⟩ := by
  have hname : IsName "loop".toList := Identifier.isValidChars_iff.mp (by decide)
  have hblank : Text.isBlank ' ' = true := by decide
  have hfront : LabelText "  loop :".toList (some "loop") :=
    @LabelText.label [' ', ' '] _ [' '] (by simp [hblank]) hname (by simp [hblank])
  have hlayout : Layout "  loop :".toList "\tDJRNZ ,R1,, loop".toList "; a = b: c".toList
      (some "loop") := ⟨hfront, by simp, by simp, by simp⟩
  have hruns : Text.Runs Statement.isSeparator "\tDJRNZ ,R1,, loop".toList
      ["DJRNZ".toList, "R1".toList, "loop".toList] := Text.words_eq_iff.mp (by decide)
  have hlower : List.Forall₂ Text.Lowers "DJRNZ".toList "djrnz".toList :=
    Text.lowerChars_eq_iff.mp (by decide)
  refine ⟨hlayout, ?_⟩
  exact (parse_exact 3 _).2 _ _ _ _ _ _ _ rfl hlayout (by decide) hruns hlower

end Line

namespace Program

variable {text : String} {lines : List Line} {line : Line}

theorem isValid_label_of_parse (h : parse text = .ok lines) (hline : line ∈ lines) {name : String}
    (hl : line.label = some name) : Identifier.isValid name = true := by
  obtain ⟨n, raw, hraw⟩ := exists_of_mem_parseLines h hline
  obtain ⟨_, _, _, hlabel, _⟩ := Line.exists_stated hraw
  rw [hl] at hlabel
  exact hlabel.isValid

theorem isValid_variable_of_parse (h : parse text = .ok lines) (hline : line ∈ lines)
    {name value : String} (hs : line.statement = some (.declaration name value)) :
    Identifier.isValid name = true := by
  obtain ⟨n, raw, hraw⟩ := exists_of_mem_parseLines h hline
  obtain ⟨_, _, _, _, hstated⟩ := Line.exists_stated hraw
  rw [hs] at hstated
  exact hstated.isValid

theorem lowercase_of_parse (h : parse text = .ok lines) (hline : line ∈ lines) {mnemonic : String}
    {operands : List String} (hs : line.statement = some (.instruction mnemonic operands)) :
    Text.lowercase mnemonic = mnemonic := by
  obtain ⟨n, raw, hraw⟩ := exists_of_mem_parseLines h hline
  obtain ⟨_, _, _, _, hstated⟩ := Line.exists_stated hraw
  rw [hs] at hstated
  exact hstated.lowercase_eq

end Program

end EightBitAsm
