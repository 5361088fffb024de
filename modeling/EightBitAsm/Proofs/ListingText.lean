import EightBitAsm.Assembly.Listing
import EightBitAsm.Proofs.Agreement
import EightBitAsm.Proofs.LineGrammar
import EightBitAsm.Proofs.LiteralText
import EightBitAsm.Proofs.SourceForm

/-! The text of a listing read back. Every column of a row ends at a character that cannot occur in
it, whatever its width, and every row ends at its line feed; the kind of a row shows in its first
character. So the text determines the rows, the rows determine what they show, and nothing of an
assembly is lost. -/
namespace EightBitAsm

namespace Text

def positionalValue (radix : Nat) (cs : List Char) : Nat :=
  cs.foldl (fun value c => value * radix + (digitValue? radix c).getD 0) 0

theorem Numeral.positionalValue_eq {radix n : Nat} {cs : List Char} (h : Numeral radix cs n) :
    positionalValue radix cs = n := by
  induction h with
  | digit hd => simp [positionalValue, hd]
  | snoc _ hd ih =>
    rw [positionalValue] at ih
    rw [positionalValue, List.foldl_append, ih, List.foldl_cons, hd]
    rfl

section Padded

variable {radix : Nat} (hradix : 1 < radix) (hle : radix ≤ 16) {fill : Char}

include hradix hle

theorem positionalValue_padLeft (hfill : (digitValue? radix fill).getD 0 = 0) (width n : Nat) :
    positionalValue radix (padLeft width fill (Nat.toDigits radix n)) = n := by
  unfold padLeft
  induction width - (Nat.toDigits radix n).length with
  | zero => exact (Numeral.toDigits hradix hle n).positionalValue_eq
  | succ count ih =>
    rw [positionalValue] at ih
    rw [positionalValue, List.replicate_succ, List.cons_append, List.foldl_cons, hfill,
      Nat.zero_mul]
    exact ih

theorem padLeft_toDigits_inj (hfill : (digitValue? radix fill).getD 0 = 0) {width m n : Nat}
    (h : padLeft width fill (Nat.toDigits radix m) = padLeft width fill (Nat.toDigits radix n)) :
    m = n := by
  rw [← positionalValue_padLeft hradix hle hfill width m, h,
    positionalValue_padLeft hradix hle hfill]

theorem not_mem_padLeft_toDigits {c : Char} (hfill : c ≠ fill) (hc : digitValue? radix c = none)
    (width n : Nat) : c ∉ padLeft width fill (Nat.toDigits radix n) := by
  intro hmem
  rcases List.mem_append.mp hmem with hmem | hmem
  · exact hfill (List.eq_of_mem_replicate hmem)
  · obtain ⟨d, hd⟩ := (Numeral.toDigits hradix hle n).digitValue?_of_mem hmem
    cases hc.symm.trans hd

end Padded

theorem hexDigits_inj {width m n : Nat} (h : hexDigits width m = hexDigits width n) : m = n :=
  padLeft_toDigits_inj (by omega) (by omega) (by decide) h

theorem not_mem_hexDigits {c : Char} (hc : digitValue? 16 c = none) (width n : Nat) :
    c ∉ hexDigits width n := by
  refine not_mem_padLeft_toDigits (by omega) (by omega) ?_ hc width n
  rintro rfl
  cases hc

end Text

namespace ListingLine

def column (b : UInt8) : List Char :=
  [Nat.digitChar (b.toNat / 16), Nat.digitChar (b.toNat % 16), ' ']

def row (l : ListingLine) : List Char :=
  '0' :: 'x' :: (Text.hexDigits 4 l.address.toNat ++ ':' :: ' ' :: (l.bytes.flatMap column ++
    (List.replicate (3 * (2 - min l.bytes.length 2)) ' ' ++ ' ' :: ' ' ::
      (Text.padLeft 4 ' ' (Nat.toDigits 10 l.line) ++ ' ' :: '|' :: ' ' :: l.text.toList))))

theorem toList_render (l : ListingLine) : l.render.toList = l.row ++ ['\n'] := by
  have hbytes : l.byteColumns.toList = l.bytes.flatMap column ++
      List.replicate (3 * (2 - min l.bytes.length 2)) ' ' := by
    simp [byteColumns, String.toList_join, List.flatMap_map, Text.hex_two]
    rfl
  simp [render, row, hbytes, Text.markedHex, Text.hex, Text.decimalField]

theorem digitValue?_column (b : UInt8) :
    Text.digitValue? 16 (Nat.digitChar (b.toNat / 16)) = some (b.toNat / 16) ∧
      Text.digitValue? 16 (Nat.digitChar (b.toNat % 16)) = some (b.toNat % 16) := by
  have hlt : b.toNat < 256 := b.toNat_lt
  constructor
  · exact Text.Numeral.digitValue?_digitChar (by omega) (by omega)
  · exact Text.Numeral.digitValue?_digitChar (by omega) (by omega)

theorem column_inj {a b : UInt8} (h : column a = column b) : a = b := by
  simp only [column, List.cons.injEq, and_true] at h
  obtain ⟨ha, ha'⟩ := digitValue?_column a
  obtain ⟨hb, hb'⟩ := digitValue?_column b
  rw [h.1, hb] at ha
  rw [h.2, hb'] at ha'
  have hhigh : b.toNat / 16 = a.toNat / 16 := Option.some.inj ha
  have hlow : b.toNat % 16 = a.toNat % 16 := Option.some.inj ha'
  apply UInt8.toNat_inj.mp
  omega

theorem blank_not_head_column (b : UInt8) (r s : List Char) : ' ' :: r ≠ column b ++ s := by
  intro h
  have hdigit := (digitValue?_column b).1
  rw [← (List.cons.inj h).1] at hdigit
  cases hdigit

theorem newline_not_mem_column (b : UInt8) : '\n' ∉ column b := by
  obtain ⟨hhigh, hlow⟩ := digitValue?_column b
  intro h
  simp only [column, List.mem_cons, List.not_mem_nil, or_false] at h
  rcases h with h | h | h
  · rw [← h] at hhigh
    cases hhigh
  · rw [← h] at hlow
    cases hlow
  · cases h

theorem flatMap_column_inj {xs ys : List UInt8} {r s : List Char}
    (h : xs.flatMap column ++ ' ' :: r = ys.flatMap column ++ ' ' :: s) : xs = ys ∧ r = s := by
  induction xs generalizing ys with
  | nil =>
    cases ys with
    | nil => exact ⟨rfl, (List.cons.inj h).2⟩
    | cons y ys =>
      rw [List.flatMap_cons, List.append_assoc] at h
      exact absurd h (blank_not_head_column y _ _)
  | cons x xs ih =>
    cases ys with
    | nil =>
      rw [List.flatMap_cons, List.append_assoc] at h
      exact absurd h.symm (blank_not_head_column x _ _)
    | cons y ys =>
      rw [List.flatMap_cons, List.flatMap_cons, List.append_assoc, List.append_assoc] at h
      obtain ⟨hcolumn, hrest⟩ := List.append_inj h rfl
      obtain ⟨rfl, rfl⟩ := ih hrest
      exact ⟨by rw [column_inj hcolumn], rfl⟩

theorem replicate_append_blank (count : Nat) (cs : List Char) :
    List.replicate count ' ' ++ ' ' :: cs = ' ' :: (List.replicate count ' ' ++ cs) := by
  rw [List.append_cons, ← List.replicate_succ', List.replicate_succ, List.cons_append]

/-- Each column of a row ends where the next begins. -/
theorem row_injective : Function.Injective row := by
  intro l m h
  simp only [row, List.cons.injEq, true_and] at h
  obtain ⟨haddress, h⟩ := Text.append_cons_inj (Text.not_mem_hexDigits (by decide) 4 _)
    (Text.not_mem_hexDigits (by decide) 4 _) h
  simp only [replicate_append_blank, List.cons.injEq, true_and] at h
  obtain ⟨hbytes, h⟩ := flatMap_column_inj h
  rw [hbytes] at h
  have h := List.append_cancel_left (List.cons.inj h).2
  -- The blank in front of the bar belongs to the column before it.
  rw [List.append_cons, List.append_cons (Text.padLeft 4 ' ' (Nat.toDigits 10 m.line))] at h
  have hbar : ∀ n, '|' ∉ Text.padLeft 4 ' ' (Nat.toDigits 10 n) ++ [' '] := by
    intro n hmem
    rcases List.mem_append.mp hmem with hmem | hmem
    · exact Text.not_mem_padLeft_toDigits (by omega) (by omega) (by decide) (by decide) 4 n hmem
    · simp at hmem
  obtain ⟨hline, htext⟩ := Text.append_cons_inj (hbar _) (hbar _) h
  have hline := Text.padLeft_toDigits_inj (by omega) (by omega) (by decide)
    (List.append_cancel_right hline)
  obtain ⟨line, address, bytes, text⟩ := l
  obtain ⟨line', address', bytes', text'⟩ := m
  rw [mk.injEq]
  refine ⟨hline, UInt32.toNat_inj.mp (Text.hexDigits_inj haddress), hbytes, ?_⟩
  exact String.toList_inj.mp (List.cons.inj htext).2

theorem newline_not_mem_row {l : ListingLine} (h : '\n' ∉ l.text.toList) : '\n' ∉ l.row := by
  have haddress := Text.not_mem_hexDigits (c := '\n') (by decide) 4 l.address.toNat
  have hline : '\n' ∉ Text.padLeft 4 ' ' (Nat.toDigits 10 l.line) :=
    Text.not_mem_padLeft_toDigits (by omega) (by omega) (by decide) (by decide) 4 l.line
  have hbytes : '\n' ∉ l.bytes.flatMap column := by
    intro hmem
    obtain ⟨b, _, hb⟩ := List.mem_flatMap.mp hmem
    exact newline_not_mem_column b hb
  simp [row, haddress, hline, hbytes, h]

end ListingLine

namespace Symbols

def row (width : Nat) (entry : String × UInt32) : List Char :=
  ' ' :: ' ' :: '0' :: 'x' :: (Text.hexDigits width entry.2.toNat ++ ' ' :: entry.1.toList)

def heading (title : String) : List Char :=
  title.toList ++ [':']

def rows (title : String) (width : Nat) (symbols : Symbols) : List (List Char) :=
  if symbols.entries.isEmpty then [] else [] :: heading title :: symbols.entries.map (row width)

theorem toList_render (title : String) (width : Nat) (symbols : Symbols) :
    (render title width symbols).toList = (rows title width symbols).flatMap (· ++ ['\n']) := by
  unfold render rows
  split
  · rfl
  · simp [String.toList_join, List.flatMap_map, row, heading, Text.markedHex, Text.hex]

theorem row_injective (width : Nat) : Function.Injective (row width) := by
  intro e f h
  simp only [row, List.cons.injEq, true_and] at h
  obtain ⟨haddress, hname⟩ := Text.append_cons_inj (Text.not_mem_hexDigits (by decide) width _)
    (Text.not_mem_hexDigits (by decide) width _) h
  exact Prod.ext (String.toList_inj.mp hname) (UInt32.toNat_inj.mp (Text.hexDigits_inj haddress))

theorem mem_rows {title : String} {width : Nat} {symbols : Symbols} {r : List Char}
    (h : r ∈ rows title width symbols) :
    r = [] ∨ r = heading title ∨ ∃ entry ∈ symbols.entries, row width entry = r := by
  unfold rows at h
  split at h
  · cases h
  · simpa using h

theorem newline_not_mem_rows {title : String} {width : Nat} {symbols : Symbols}
    (htitle : '\n' ∉ heading title) (hnames : ∀ name ∈ symbols.names, '\n' ∉ name.toList)
    {r : List Char} (hr : r ∈ rows title width symbols) : '\n' ∉ r := by
  rcases mem_rows hr with rfl | rfl | ⟨entry, hentry, rfl⟩
  · simp
  · exact htitle
  · have haddress := Text.not_mem_hexDigits (c := '\n') (by decide) width entry.2.toNat
    have hname := hnames entry.1 (List.mem_map.mpr ⟨entry, hentry, rfl⟩)
    simp [row, haddress, hname]

def under (title : String) (rs : List (List Char)) : List (List Char) :=
  ((rs.dropWhile (· ≠ heading title)).drop 1).takeWhile (·.head? = some ' ')

theorem takeWhile_eq_nil {rs : List (List Char)} {c : Char} (h : ∀ r ∈ rs.head?, r = []) :
    rs.takeWhile (·.head? = some c) = [] := by
  cases rs with
  | nil => rfl
  | cons r rs =>
    rw [h r rfl]
    rfl

/-- A table is found by its heading, and ends where a row is not indented. -/
theorem under_rows {title : String} {before after : List (List Char)} (width : Nat)
    (symbols : Symbols) (hbefore : heading title ∉ before) (hafter : heading title ∉ after)
    (hhead : ∀ r ∈ after.head?, r = []) :
    under title (before ++ rows title width symbols ++ after) =
      symbols.entries.map (row width) := by
  have hskip : ∀ rs : List (List Char), heading title ∉ rs → ∀ r ∈ rs,
      decide (r ≠ heading title) = true := by
    intro rs hrs r hr
    rw [decide_eq_true_eq]
    rintro rfl
    exact hrs hr
  unfold under rows
  split
  · next hempty =>
    have hnone : symbols.entries = [] := by simpa using hempty
    rw [List.append_nil, List.dropWhile_eq_nil_iff.mpr (hskip _ (by simp [hbefore, hafter])), hnone]
    rfl
  · have hindented : ∀ r ∈ symbols.entries.map (row width), decide (r.head? = some ' ') = true := by
      intro r hr
      obtain ⟨entry, _, rfl⟩ := List.mem_map.mp hr
      rfl
    have hnil : heading title ≠ [] := by simp [heading]
    have hfound : (before ++ [] :: heading title :: symbols.entries.map (row width) ++
        after).dropWhile (· ≠ heading title) =
          heading title :: (symbols.entries.map (row width) ++ after) := by
      rw [List.append_assoc, List.dropWhile_append_of_pos (hskip before hbefore)]
      simp [hnil.symm]
    rw [hfound, List.drop_one, List.tail_cons, List.takeWhile_append_of_pos hindented,
      takeWhile_eq_nil hhead, List.append_nil]

theorem head?_rows_append (title : String) (width : Nat) (symbols : Symbols)
    {after : List (List Char)} (hafter : ∀ r ∈ after.head?, r = []) :
    ∀ r ∈ (rows title width symbols ++ after).head?, r = [] := by
  intro r hr
  unfold rows at hr
  split at hr
  · exact hafter r hr
  · cases hr
    rfl

theorem head?_rows (title : String) (width : Nat) (symbols : Symbols) :
    ∀ r ∈ (rows title width symbols).head?, r = [] := by
  have hrows := @head?_rows_append title width symbols [] (by simp)
  rwa [List.append_nil] at hrows

theorem heading_not_mem_rows {title other : String} (width : Nat) (symbols : Symbols)
    (hne : heading title ≠ heading other) (hhead : (heading title).head? ≠ some ' ') :
    heading title ∉ rows other width symbols := by
  intro hmem
  rcases mem_rows hmem with hnil | hother | ⟨entry, _, hentry⟩
  · simp [heading] at hnil
  · exact hne hother
  · rw [← hentry] at hhead
    exact hhead rfl

end Symbols

theorem Identifier.newline_not_mem {name : String} (h : isValid name = true) :
    '\n' ∉ name.toList := by
  exact (isValidChars_iff.mp h).not_mem (by decide)

namespace Program

variable {text : String} {lines : List Line}

theorem newline_not_mem_text (h : parse text = .ok lines) {line : Line} (hline : line ∈ lines) :
    '\n' ∉ line.text.toList := by
  have hmem : line.text.toList ∈ lines.map fun l => l.text.toList := List.mem_map_of_mem hline
  rw [texts_of_parseLines h] at hmem
  obtain ⟨raw, hraw, hcode⟩ := List.mem_map.mp hmem
  intro hnewline
  rw [← hcode] at hnewline
  exact Text.newline_not_mem_of_mem_lines hraw (Line.mem_of_mem_code hnewline).1

theorem mem_names_declare {widths : Widths} {vars : Symbols} {line : Line} {name : String}
    (h : name ∈ (declare widths vars line).names) :
    name ∈ vars.names ∨ ∃ value, line.statement = some (.declaration name value) := by
  unfold declare at h
  split at h
  · next hs =>
    split at h
    · rcases NameMap.mem_names_insert.mp h with rfl | h
      · exact .inr ⟨_, hs⟩
      · exact .inl h
    · exact .inl h
  · exact .inl h

theorem mem_names_vars {widths : Widths} {name : String} (h : name ∈ (vars widths lines).names) :
    ∃ line ∈ lines, ∃ value, line.statement = some (.declaration name value) := by
  -- Over the lines from the back, so that the last one is the step.
  induction lines using List.reverseRecOn with
  | nil => cases h
  | append_singleton lines line ih =>
    rw [vars, List.foldl_append] at h
    rcases mem_names_declare h with h | hs
    · obtain ⟨earlier, hmem, hs⟩ := ih h
      exact ⟨earlier, List.mem_append_left _ hmem, hs⟩
    · exact ⟨line, by simp, hs⟩

end Program

namespace Assembly

def rows (a : Assembly) : List (List Char) :=
  a.listing.map ListingLine.row ++ Symbols.rows "Labels" 4 a.labels ++
    Symbols.rows "Variables" 2 a.vars

theorem toList_render (a : Assembly) : a.render.toList = a.rows.flatMap (· ++ ['\n']) := by
  simp [render, rows, String.toList_join, List.flatMap_map, ListingLine.toList_render,
    Symbols.toList_render]

theorem heading_not_mem_listing {title : String} (h : (Symbols.heading title).head? ≠ some '0')
    (listing : List ListingLine) : Symbols.heading title ∉ listing.map ListingLine.row := by
  intro hmem
  obtain ⟨l, _, hl⟩ := List.mem_map.mp hmem
  rw [← hl] at h
  exact h rfl

/-- Rows of the listing start with a digit, and the row behind them is empty. -/
theorem takeWhile_rows (a : Assembly) :
    a.rows.takeWhile (·.head? = some '0') = a.listing.map ListingLine.row := by
  have hlisting : ∀ r ∈ a.listing.map ListingLine.row, decide (r.head? = some '0') = true := by
    intro r hr
    obtain ⟨l, _, rfl⟩ := List.mem_map.mp hr
    rfl
  have hnext := Symbols.head?_rows_append "Labels" 4 a.labels
    (Symbols.head?_rows "Variables" 2 a.vars)
  rw [rows, List.append_assoc, List.takeWhile_append_of_pos hlisting,
    Symbols.takeWhile_eq_nil hnext, List.append_nil]

theorem under_labels (a : Assembly) :
    Symbols.under "Labels" a.rows = a.labels.entries.map (Symbols.row 4) := by
  apply Symbols.under_rows
  · exact heading_not_mem_listing (by decide) a.listing
  · exact Symbols.heading_not_mem_rows 2 a.vars (by decide) (by decide)
  · exact Symbols.head?_rows "Variables" 2 a.vars

theorem under_variables (a : Assembly) :
    Symbols.under "Variables" a.rows = a.vars.entries.map (Symbols.row 2) := by
  have hbefore : Symbols.heading "Variables" ∉
      a.listing.map ListingLine.row ++ Symbols.rows "Labels" 4 a.labels := by
    rw [List.mem_append, not_or]
    exact ⟨heading_not_mem_listing (by decide) a.listing,
      Symbols.heading_not_mem_rows 4 a.labels (by decide) (by decide)⟩
  rw [rows, ← List.append_nil (_ ++ Symbols.rows "Variables" 2 a.vars)]
  exact Symbols.under_rows 2 a.vars hbefore (by simp) (by simp)

theorem eq_of_rows_eq {a b : Assembly} (h : a.rows = b.rows) :
    a.listing = b.listing ∧ a.labels = b.labels ∧ a.vars = b.vars := by
  have hlisting := takeWhile_rows a
  have hlabels := under_labels a
  have hvars := under_variables a
  rw [h, takeWhile_rows] at hlisting
  rw [h, under_labels] at hlabels
  rw [h, under_variables] at hvars
  refine ⟨?_, NameMap.eq_of_entries_eq ?_, NameMap.eq_of_entries_eq ?_⟩
  · exact List.map_injective_iff.mpr ListingLine.row_injective hlisting.symm
  · exact List.map_injective_iff.mpr (Symbols.row_injective 4) hlabels.symm
  · exact List.map_injective_iff.mpr (Symbols.row_injective 2) hvars.symm

/-- What a listing needs so that its lines are found again and all of it is told. -/
structure Legible (a : Assembly) : Prop where
  bytes : a.bytes = a.listing.flatMap (·.bytes)
  texts : ∀ l ∈ a.listing, '\n' ∉ l.text.toList
  labels : ∀ name ∈ a.labels.names, '\n' ∉ name.toList
  vars : ∀ name ∈ a.vars.names, '\n' ∉ name.toList

theorem Legible.newline_not_mem_rows {a : Assembly} (ha : a.Legible) : ∀ r ∈ a.rows, '\n' ∉ r := by
  intro r hr
  rw [rows, List.mem_append, List.mem_append] at hr
  rcases hr with (hr | hr) | hr
  · obtain ⟨l, hl, rfl⟩ := List.mem_map.mp hr
    exact ListingLine.newline_not_mem_row (ha.texts l hl)
  · exact Symbols.newline_not_mem_rows (by decide) ha.labels hr
  · exact Symbols.newline_not_mem_rows (by decide) ha.vars hr

theorem legible_of_assemble {table : MnemonicTable} {widths : Widths} {text : String}
    {a : Assembly} (h : assemble table widths text = .ok a) : a.Legible := by
  obtain ⟨lines, hp, hbuilt⟩ := built_of_assemble h
  refine ⟨hbuilt.bytes, ?_, ?_, ?_⟩
  · intro l hl
    obtain ⟨line, hline, hlists⟩ := exists_left_of_forall₂ hbuilt.lists hl
    rw [hlists.text]
    exact Program.newline_not_mem_text hp (List.mem_of_mem_filter hline)
  · intro name hname
    obtain ⟨line, hline, hl⟩ := hbuilt.mem_labels_iff.mp hname
    exact Identifier.newline_not_mem (Program.isValid_label_of_parse hp hline hl)
  · intro name hname
    rw [hbuilt.vars] at hname
    obtain ⟨line, hline, value, hs⟩ := Program.mem_names_vars hname
    exact Identifier.newline_not_mem (Program.isValid_variable_of_parse hp hline hs)

/-- The text of a listing tells all of it: its bytes, lines, addresses, labels and variables. -/
theorem eq_of_render_eq {table table' : MnemonicTable} {widths widths' : Widths}
    {text text' : String} {a b : Assembly} (ha : assemble table widths text = .ok a)
    (hb : assemble table' widths' text' = .ok b) (h : a.render = b.render) : a = b := by
  have ha := legible_of_assemble ha
  have hb := legible_of_assemble hb
  have hrows : a.rows.flatMap (· ++ ['\n']) = b.rows.flatMap (· ++ ['\n']) := by
    rw [← toList_render, ← toList_render, h]
  obtain ⟨hlisting, hlabels, hvars⟩ := eq_of_rows_eq
    (Text.flatMap_end_inj ha.newline_not_mem_rows hb.newline_not_mem_rows hrows)
  have hbytes : a.bytes = b.bytes := by rw [ha.bytes, hb.bytes, hlisting]
  cases a
  cases b
  simp_all

/-- Other comments, blanks and widths, and another spelling of the variable's value; one of the
instructions has one byte, and a label stands behind the last. -/
theorem eq_of_render_eq_spellings : ∃ a b,
    assemble InstructionSet.table {}
      "v = 0x1F ; room\ntop: int end ; leave\n\tdjrnz R3,end\nend:" = .ok a ∧
    assemble InstructionSet.table ⟨5, 9⟩
      "v=31\r\n top: int end\ndjrnz R3,end;\n\nend: ; last\n" = .ok b ∧
    a.render = b.render ∧ a = b ∧ a.bytes = [0x48, 0xe0, 3] ∧
    a.listing = [⟨2, 0, [0x48], "top: int end"⟩, ⟨3, 1, [0xe0, 3], "djrnz R3,end"⟩] ∧
    a.labels.entries = [("end", 3), ("top", 0)] ∧ a.vars.entries = [("v", 31)] := by
  have ha : assemble InstructionSet.table {}
      "v = 0x1F ; room\ntop: int end ; leave\n\tdjrnz R3,end\nend:" = .ok
        { bytes := [0x48, 0xe0, 3]
          listing := [⟨2, 0, [0x48], "top: int end"⟩, ⟨3, 1, [0xe0, 3], "djrnz R3,end"⟩]
          labels := ⟨[("end", 3), ("top", 0)], by decide⟩
          vars := ⟨[("v", 31)], by decide⟩ } := by
    decide +kernel
  have hb : assemble InstructionSet.table ⟨5, 9⟩
      "v=31\r\n top: int end\ndjrnz R3,end;\n\nend: ; last\n" = .ok
        { bytes := [0x48, 0xe0, 3]
          listing := [⟨2, 0, [0x48], "top: int end"⟩, ⟨3, 1, [0xe0, 3], "djrnz R3,end"⟩]
          labels := ⟨[("end", 3), ("top", 0)], by decide⟩
          vars := ⟨[("v", 31)], by decide⟩ } := by
    decide +kernel
  exact ⟨_, _, ha, hb, rfl, eq_of_render_eq ha hb rfl, rfl, rfl, rfl, rfl⟩

end Assembly

end EightBitAsm
