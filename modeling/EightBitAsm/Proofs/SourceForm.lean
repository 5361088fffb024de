import EightBitAsm.InstructionSet
import EightBitAsm.Proofs.Renumbering
import EightBitAsm.Proofs.TextCuts

/-! The form of a source text. Comments, blank lines, indentation and the way lines end carry no
meaning: only the code of each line is read, and only its place among the lines is counted. -/
namespace EightBitAsm

namespace Text

def withReturns (cs : List Char) : List Char :=
  cs.flatMap fun c => if c = '\n' then ['\r', '\n'] else [c]

/-- A text that breaks off nowhere inside a line. -/
def WholeLines (cs : List Char) : Prop :=
  ∀ c ∈ cs.getLast?, c = '\n'

theorem mem_of_mem_dropReturn {cs : List Char} {c : Char} (h : c ∈ dropReturn cs) : c ∈ cs := by
  unfold dropReturn at h
  split at h
  · exact List.mem_of_mem_dropLast h
  · exact h

theorem newline_not_mem_of_mem_lines {cs l : List Char} (h : l ∈ lines cs) : '\n' ∉ l := by
  induction cs using induction_on_lines with
  | last cs hcs =>
    by_cases hne : cs = []
    · subst hne
      cases h
    · rw [lines_of_newline_not_mem hcs hne, List.mem_singleton] at h
      rwa [h]
  | line first rest hfirst ih =>
    rw [lines_append_newline hfirst] at h
    rcases List.mem_cons.mp h with rfl | h
    · intro hmem
      exact hfirst (mem_of_mem_dropReturn hmem)
    · exact ih h

theorem lines_flatMap_newline {ls : List (List Char)}
    (h : ∀ l ∈ ls, '\n' ∉ l ∧ dropReturn l = l) : lines (ls.flatMap (· ++ ['\n'])) = ls := by
  induction ls with
  | nil => rfl
  | cons l ls ih =>
    obtain ⟨hmem, hreturn⟩ := h l List.mem_cons_self
    rw [List.flatMap_cons, List.append_assoc, List.singleton_append, lines_append_newline hmem,
      hreturn, ih fun m hm => h m (List.mem_cons_of_mem _ hm)]

theorem withReturns_of_newline_not_mem {cs : List Char} (h : '\n' ∉ cs) : withReturns cs = cs := by
  induction cs with
  | nil => rfl
  | cons c cs ih =>
    obtain ⟨hc, hcs⟩ := not_or.mp (mt List.mem_cons.mpr h)
    rw [withReturns, List.flatMap_cons, if_neg (Ne.symm hc), List.singleton_append]
    exact congrArg _ (ih hcs)

theorem withReturns_append_newline {l : List Char} (h : '\n' ∉ l) (rest : List Char) :
    withReturns (l ++ '\n' :: rest) = (l ++ ['\r']) ++ '\n' :: withReturns rest := by
  have hl := withReturns_of_newline_not_mem h
  unfold withReturns at hl ⊢
  rw [List.flatMap_append, hl, List.flatMap_cons, if_pos rfl]
  simp

theorem WholeLines.of_append_newline {l rest : List Char} (h : WholeLines (l ++ '\n' :: rest)) :
    WholeLines rest := by
  intro c hc
  cases rest with
  | nil => cases hc
  | cons d ds =>
    apply h c
    rw [List.getLast?_append, List.getLast?_cons_cons, hc]
    rfl

theorem WholeLines.eq_nil {cs : List Char} (h : WholeLines cs) (hcs : '\n' ∉ cs) : cs = [] := by
  by_contra hne
  obtain ⟨c, hc⟩ := Option.ne_none_iff_exists'.mp (mt List.getLast?_eq_none_iff.mp hne)
  have hmem := List.mem_of_mem_getLast? hc
  rw [h c hc] at hmem
  exact hcs hmem

theorem WholeLines.lines_append {cs : List Char} (h : WholeLines cs) (rest : List Char) :
    lines (cs ++ rest) = lines cs ++ lines rest := by
  induction cs using induction_on_lines with
  | last cs hcs =>
    rw [h.eq_nil hcs]
    rfl
  | line l ds hl ih =>
    rw [List.append_assoc, List.cons_append, lines_append_newline hl, lines_append_newline hl,
      ih h.of_append_newline, List.cons_append]

theorem WholeLines.length_lines {cs : List Char} (h : WholeLines cs) :
    (lines cs).length = cs.count '\n' := by
  induction cs using induction_on_lines with
  | last cs hcs =>
    rw [h.eq_nil hcs]
    rfl
  | line l ds hl ih =>
    rw [lines_append_newline hl, List.length_cons, ih h.of_append_newline, List.count_append,
      List.count_eq_zero_of_not_mem hl, List.count_cons_self, Nat.zero_add]

end Text

namespace Line

def HoldsNothing (raw : List Char) : Prop :=
  ∃ blanks comment, raw = blanks ++ comment ∧ (∀ c ∈ blanks, Text.isBlank c = true) ∧
    (comment = [] ∨ comment.head? = some ';')

theorem HoldsNothing.code_eq_nil {raw : List Char} (h : HoldsNothing raw) : code raw = [] := by
  obtain ⟨blanks, comment, rfl, hblanks, hcomment⟩ := h
  have hbefore : ∀ c ∈ blanks, decide (c ≠ ';') = true := by
    intro c hc
    rw [decide_eq_true_eq]
    rintro rfl
    cases hblanks _ hc
  have hbehind : comment.takeWhile (· ≠ ';') = [] := by
    rcases hcomment with rfl | hhead
    · rfl
    · obtain ⟨rest, rfl⟩ := List.head?_eq_some_iff.mp hhead
      exact List.takeWhile_cons_of_neg (by simp)
  rw [code, Text.upTo, List.takeWhile_append_of_pos hbefore, hbehind, List.append_nil]
  exact Text.trim_eq_nil hblanks

end Line

namespace Program

def print (lines : List Line) : String :=
  String.join (lines.map fun line => line.text ++ "\n")

theorem texts_of_parseLines {number : Nat} {raws : List (List Char)} {lines : List Line}
    (h : parseLines number raws = .ok lines) :
    lines.map (fun line => line.text.toList) = raws.map Line.code := by
  induction raws generalizing number lines with
  | nil =>
    cases h
    rfl
  | cons raw raws ih =>
    obtain ⟨line, hline, h⟩ := bind_eq_ok_iff.mp h
    obtain ⟨rest, hrest, h⟩ := bind_eq_ok_iff.mp h
    cases h
    obtain ⟨_, _, _, _, _, rfl⟩ := Line.parseChars_eq_ok_iff.mp hline
    rw [List.map_cons, List.map_cons, ih hrest, String.toList_ofList]

theorem lines_print {text : String} {lines : List Line} (h : parse text = .ok lines) :
    Text.lines (print lines).toList = (Text.lines text.toList).map Line.code := by
  have hprint : (print lines).toList =
      ((Text.lines text.toList).map Line.code).flatMap (· ++ ['\n']) := by
    rw [← texts_of_parseLines h, print, String.toList_join, List.flatMap_map, List.flatMap_map]
    simp
  rw [hprint]
  apply Text.lines_flatMap_newline
  intro l hl
  obtain ⟨raw, hraw, rfl⟩ := List.mem_map.mp hl
  refine ⟨?_, Line.dropReturn_code raw⟩
  intro hmem
  exact Text.newline_not_mem_of_mem_lines hraw (Line.mem_of_mem_code hmem).1

theorem parse_print {text : String} {lines : List Line} (h : parse text = .ok lines) :
    parse (print lines) = .ok lines := by
  rw [parse, lines_print h, ← h, parse]
  apply parseLines_congr
  rw [List.forall₂_map_left_iff, List.forall₂_same]
  intro raw _
  exact Line.code_code raw

theorem forall₂_lines_withReturns (cs : List Char) :
    List.Forall₂ (fun x y => Line.code x = Line.code y) (Text.lines (Text.withReturns cs))
      (Text.lines cs) := by
  induction cs using Text.induction_on_lines with
  | last cs hcs =>
    rw [Text.withReturns_of_newline_not_mem hcs, List.forall₂_same]
    intro _ _
    rfl
  | line l rest hl ih =>
    have hl' : '\n' ∉ l ++ ['\r'] := by simpa using hl
    have hreturn : Text.dropReturn (l ++ ['\r']) = l := by simp [Text.dropReturn]
    rw [Text.withReturns_append_newline hl, Text.lines_append_newline hl',
      Text.lines_append_newline hl, hreturn]
    exact .cons (Line.code_dropReturn l).symm ih

theorem parse_withReturns (text : String) :
    parse (String.ofList (Text.withReturns text.toList)) = parse text := by
  rw [parse, parse, String.toList_ofList]
  exact parseLines_congr (forall₂_lines_withReturns text.toList) 1

end Program

namespace Assembly

variable {table : MnemonicTable} {widths : Widths}

theorem assemble_congr {text text' : String} (h : Program.parse text = Program.parse text') :
    assemble table widths text = assemble table widths text' := by
  rw [assemble, assemble, h]

theorem assemble_insert {before after blank : String} (hbefore : Text.WholeLines before.toList)
    (hblank : Line.HoldsNothing blank.toList) (hline : '\n' ∉ blank.toList) :
    assemble table widths (before ++ blank ++ "\n" ++ after) =
      mapBoth (AssembleError.renumber (Line.numberAfterInsert (before.toList.count '\n')))
        (renumber (Line.numberAfterInsert (before.toList.count '\n')))
        (assemble table widths (before ++ after)) := by
  have hlines : Text.lines (before ++ blank ++ "\n" ++ after).toList = Text.lines before.toList ++
      Text.dropReturn blank.toList :: Text.lines after.toList := by
    have htoList : (before ++ blank ++ "\n" ++ after).toList =
        before.toList ++ (blank.toList ++ '\n' :: after.toList) := by simp
    rw [htoList, hbefore.lines_append, Text.lines_append_newline hline]
  have hcode : Line.code (Text.dropReturn blank.toList) = [] := by
    rw [Line.code_dropReturn, hblank.code_eq_nil]
  unfold assemble Program.parse
  rw [hlines, String.toList_append, hbefore.lines_append, ← hbefore.length_lines]
  rcases Program.parseLines_insert hcode (Text.lines before.toList) (Text.lines after.toList) with
    ⟨e, he, he'⟩ | ⟨lines, more, line, hok, hl, hs, hok'⟩
  · rw [he, he']
    rfl
  · rw [hok, hok']
    simp only
    rw [ofLines_insert hl hs, ← List.map_append, ofLines_renumber]

/-- The form of a source text carries no meaning. A text that can be read may be replaced by the
code of its lines, one to a line; every line feed may get a carriage return, even in a text that
cannot be read; and a line of blanks or with a comment alone, put between two lines, only adds one
to the numbers of the lines behind it. -/
theorem form_is_immaterial (table : MnemonicTable) (widths : Widths) (text : String) :
    (∀ lines, Program.parse text = .ok lines →
      Program.parse (Program.print lines) = .ok lines ∧
      assemble table widths (Program.print lines) = assemble table widths text) ∧
    (Program.parse (String.ofList (Text.withReturns text.toList)) = Program.parse text ∧
      assemble table widths (String.ofList (Text.withReturns text.toList)) =
        assemble table widths text) ∧
    ∀ before after blank : String, text = before ++ after → Text.WholeLines before.toList →
      Line.HoldsNothing blank.toList → '\n' ∉ blank.toList →
      assemble table widths (before ++ blank ++ "\n" ++ after) =
        mapBoth (AssembleError.renumber (Line.numberAfterInsert (before.toList.count '\n')))
          (renumber (Line.numberAfterInsert (before.toList.count '\n')))
          (assemble table widths text) := by
  refine ⟨?_, ?_, ?_⟩
  · intro lines hp
    have hprint := Program.parse_print hp
    exact ⟨hprint, assemble_congr (hprint.trans hp.symm)⟩
  · have hreturns := Program.parse_withReturns text
    exact ⟨hreturns, assemble_congr hreturns⟩
  · rintro before after blank rfl hbefore hblank hline
    exact assemble_insert hbefore hblank hline

/-- A comment, an empty line and indentation taken away; carriage returns added, one of them to a
line that has one; and a wide blank with a comment put between two lines. -/
theorem form_is_immaterial_comments : ∃ out,
    assemble InstructionSet.table {} "nop\na: v = 3 ; start\r\n\n\tjmp a" = .ok out ∧
    out.listing = [⟨1, 0, [0, 1], "nop"⟩, ⟨4, 2, [0x40, 2], "jmp a"⟩] ∧
    assemble InstructionSet.table {} "nop\na: v = 3\n\njmp a\n" = .ok out ∧
    assemble InstructionSet.table {} "nop\r\na: v = 3 ; start\r\r\n\r\n\tjmp a" = .ok out ∧
    assemble InstructionSet.table {} "nop\na: v = 3 ; start\r\n \u2003; note\r\n\n\tjmp a" =
      .ok { out with listing := [⟨1, 0, [0, 1], "nop"⟩, ⟨5, 2, [0x40, 2], "jmp a"⟩] } := by
  have h : assemble InstructionSet.table {} "nop\na: v = 3 ; start\r\n\n\tjmp a" = .ok
      { bytes := [0, 1, 0x40, 2]
        listing := [⟨1, 0, [0, 1], "nop"⟩, ⟨4, 2, [0x40, 2], "jmp a"⟩]
        labels := ⟨[("a", 2)], by decide⟩
        vars := ⟨[("v", 3)], by decide⟩ } := by
    decide +kernel
  have hp : Program.parse "nop\na: v = 3 ; start\r\n\n\tjmp a" = .ok
      [⟨1, none, some (.instruction "nop" []), "nop"⟩,
        ⟨2, some "a", some (.declaration "v" "3"), "a: v = 3"⟩, ⟨3, none, none, ""⟩,
        ⟨4, none, some (.instruction "jmp" ["a"]), "jmp a"⟩] := by
    decide +kernel
  obtain ⟨hprint, ⟨_, hreturns⟩, hinsert⟩ :=
    form_is_immaterial InstructionSet.table {} "nop\na: v = 3 ; start\r\n\n\tjmp a"
  have hblank : Line.HoldsNothing " \u2003; note\r".toList :=
    ⟨[' ', '\u2003'], "; note\r".toList, by decide +kernel,
      by simp [Text.isBlank, Text.blankRanges], Or.inr (by decide +kernel)⟩
  have hinserted := hinsert "nop\na: v = 3 ; start\r\n" "\n\tjmp a" " \u2003; note\r"
    (by decide +kernel) (by simp [Text.WholeLines]) hblank (by decide +kernel)
  rw [h] at hreturns hinserted
  exact ⟨_, h, rfl, (hprint _ hp).2.trans h, hreturns, hinserted⟩

end Assembly

end EightBitAsm
