import EightBitAsm.Assembly.Layout
import EightBitAsm.Proofs.Operation
import EightBitAsm.Proofs.Scan

/-! The first pass in closed form. What it knows after some lines is a fold over them that cannot
fail, and its errors are the faults of single lines, each judged by the labels and variables of the
lines before it. -/
namespace EightBitAsm

def Line.isInstruction (line : Line) : Bool :=
  match line.statement with
  | some (.instruction ..) => true
  | _ => false

theorem Line.isInstruction_iff {line : Line} : line.isInstruction = true ↔
    ∃ mnemonic operands, line.statement = some (.instruction mnemonic operands) := by
  unfold isInstruction
  split
  · next mnemonic operands hs => simp [hs]
  · next h =>
    simp only [Bool.false_eq_true, false_iff]
    rintro ⟨mnemonic, operands, hs⟩
    exact h mnemonic operands hs

namespace Program

def labelNames (lines : List Line) : List String :=
  lines.filterMap Line.label

def lineSize (table : MnemonicTable) (line : Line) : Nat :=
  match line.statement with
  | some (.instruction mnemonic _) => (table.lookup? mnemonic).elim 0 fun i => i.encoding.size
  | _ => 0

def size (table : MnemonicTable) (lines : List Line) : Nat :=
  (lines.map (lineSize table)).sum

/-- The variables after one more line. A value that does not resolve declares nothing. -/
def declare (widths : Widths) (vars : Symbols) (line : Line) : Symbols :=
  match line.statement with
  | some (.declaration name value) =>
    match (Scope.sizing line.number widths vars).resolve .short value with
    | .ok target => vars.insert name target.address
    | .error _ => vars
  | _ => vars

def vars (widths : Widths) (lines : List Line) : Symbols :=
  lines.foldl (declare widths) .empty

/-- What is wrong with a line in the first pass. Its label is looked at before its statement. -/
inductive Misplaced (table : MnemonicTable) (widths : Widths) (before : List Line) (line : Line) :
    AssembleError → Prop where
  | label {name : String} (hl : line.label = some name) (hd : name ∈ labelNames before) :
      Misplaced table widths before line (.duplicateLabel line.number name)
  | declaration {name value : String} {d : Diagnostic}
      (hl : ∀ label, line.label = some label → label ∉ labelNames before)
      (hs : line.statement = some (.declaration name value))
      (hr : (Scope.sizing line.number widths (vars widths before)).resolve .short value =
        .error d) :
      Misplaced table widths before line (.encoding d)
  | instruction {mnemonic : String} {operands : List String} {d : Diagnostic}
      (hl : ∀ label, line.label = some label → label ∉ labelNames before)
      (hs : line.statement = some (.instruction mnemonic operands))
      (he : table.encode mnemonic operands
        (Scope.sizing line.number widths (vars widths before)) = .error d) :
      Misplaced table widths before line (.encoding d)

theorem mem_labelNames {lines : List Line} {name : String} :
    name ∈ labelNames lines ↔ ∃ line ∈ lines, line.label = some name :=
  List.mem_filterMap

theorem not_mem_labelNames_of_faultless {table : MnemonicTable} {widths : Widths}
    {before rest : List Line} (h : Faultless (Misplaced table widths) (before ++ rest))
    {name : String} (hname : name ∈ labelNames before) : name ∉ labelNames rest := by
  intro hmem
  obtain ⟨line, hline, hl⟩ := mem_labelNames.mp hmem
  obtain ⟨mid, tail, rfl⟩ := List.append_of_mem hline
  obtain ⟨first, hfirst, hf⟩ := mem_labelNames.mp hname
  have hbefore : name ∈ labelNames (before ++ mid) :=
    mem_labelNames.mpr ⟨first, List.mem_append_left _ hfirst, hf⟩
  exact h (before ++ mid) line tail _ (by simp) (.label hl hbefore)

@[simp] theorem size_nil (table : MnemonicTable) : size table [] = 0 := rfl

@[simp] theorem size_cons (table : MnemonicTable) (line : Line) (lines : List Line) :
    size table (line :: lines) = lineSize table line + size table lines := rfl

@[simp] theorem size_append (table : MnemonicTable) (lines rest : List Line) :
    size table (lines ++ rest) = size table lines + size table rest := by
  simp [size]

end Program

namespace Layout

variable {table : MnemonicTable} {widths : Widths}

def labelsWith (layout : Layout) (line : Line) : Symbols :=
  match line.label with
  | none => layout.labels
  | some name => layout.labels.insert name (UInt32.ofNat layout.size)

def extend (table : MnemonicTable) (widths : Widths) (layout : Layout) (line : Line) : Layout where
  labels := layout.labelsWith line
  vars := Program.declare widths layout.vars line
  size := layout.size + Program.lineSize table line

def after (table : MnemonicTable) (widths : Widths) (lines : List Line) : Layout :=
  lines.foldl (extend table widths) empty

theorem after_append (lines rest : List Line) :
    after table widths (lines ++ rest) =
      rest.foldl (extend table widths) (after table widths lines) := by
  simp [after]

theorem size_foldl_extend (layout : Layout) (lines : List Line) :
    (lines.foldl (extend table widths) layout).size = layout.size + Program.size table lines := by
  induction lines generalizing layout with
  | nil => rfl
  | cons line lines ih =>
    rw [List.foldl_cons, ih, Program.size_cons]
    simp only [extend]
    omega

@[simp] theorem size_after (lines : List Line) :
    (after table widths lines).size = Program.size table lines := by
  rw [after, size_foldl_extend]
  simp [empty]

theorem vars_foldl_extend (layout : Layout) (lines : List Line) :
    (lines.foldl (extend table widths) layout).vars =
      lines.foldl (Program.declare widths) layout.vars := by
  induction lines generalizing layout with
  | nil => rfl
  | cons line lines ih =>
    rw [List.foldl_cons, ih]
    rfl

@[simp] theorem vars_after (lines : List Line) :
    (after table widths lines).vars = Program.vars widths lines := by
  rw [after, vars_foldl_extend]
  rfl

theorem find?_labels_extend (layout : Layout) (line : Line) (name : String) :
    (layout.extend table widths line).labels.find? name =
      if line.label = some name then some (UInt32.ofNat layout.size)
      else layout.labels.find? name := by
  simp only [extend, labelsWith]
  cases line.label with
  | none => simp
  | some label => simp [NameMap.find?_insert, eq_comm]

theorem find?_labels_foldl_extend (layout : Layout) {lines : List Line} {name : String}
    (h : name ∉ Program.labelNames lines) :
    (lines.foldl (extend table widths) layout).labels.find? name = layout.labels.find? name := by
  induction lines generalizing layout with
  | nil => rfl
  | cons line lines ih =>
    simp only [Program.mem_labelNames, List.mem_cons, exists_eq_or_imp, not_or] at h ih
    rw [List.foldl_cons, ih _ h.2, find?_labels_extend, if_neg h.1]

theorem contains_labels_foldl_extend (layout : Layout) (lines : List Line) (name : String) :
    (lines.foldl (extend table widths) layout).labels.contains name = true ↔
      layout.labels.contains name = true ∨ name ∈ Program.labelNames lines := by
  induction lines generalizing layout with
  | nil => simp [Program.labelNames]
  | cons line lines ih =>
    rw [List.foldl_cons, ih, Program.mem_labelNames, Program.mem_labelNames]
    simp only [NameMap.contains, find?_labels_extend, List.mem_cons, exists_eq_or_imp]
    by_cases hl : line.label = some name <;> simp [hl]

theorem contains_labels_after (table : MnemonicTable) (widths : Widths) (lines : List Line)
    (name : String) :
    (after table widths lines).labels.contains name = true ↔ name ∈ Program.labelNames lines := by
  rw [after, contains_labels_foldl_extend]
  simp [empty, NameMap.contains]

theorem mem_labelNames_of_find? {lines : List Line} {name : String} {address : UInt32}
    (h : (after table widths lines).labels.find? name = some address) :
    name ∈ Program.labelNames lines := by
  rw [← contains_labels_after table widths, NameMap.contains, h]
  rfl

theorem addLabel_eq_ok_iff {layout labelled : Layout} {line : Line} :
    layout.addLabel line = .ok labelled ↔
      (∀ name, line.label = some name → layout.labels.contains name = false) ∧
      { layout with labels := layout.labelsWith line } = labelled := by
  unfold addLabel labelsWith
  cases line.label with
  | none => simp
  | some name => cases h : layout.labels.contains name <;> simp [h]

theorem addLabel_eq_error_iff {layout : Layout} {line : Line} {e : AssembleError} :
    layout.addLabel line = .error e ↔ ∃ name, line.label = some name ∧
      layout.labels.contains name = true ∧ .duplicateLabel line.number name = e := by
  unfold addLabel
  cases line.label with
  | none => simp
  | some name => cases h : layout.labels.contains name <;> simp [h]

theorem lineSize_of_encode {line : Line} {mnemonic : String} {operands : List String}
    {scope : Scope} {e : Emission} (hs : line.statement = some (.instruction mnemonic operands))
    (h : table.encode mnemonic operands scope = .ok e) :
    e.bytes.length = Program.lineSize table line := by
  obtain ⟨i, hi, hlength⟩ := MnemonicTable.length_bytes_of_encode h
  simp [Program.lineSize, hs, hi, hlength]

theorem addStatement_eq_ok {layout next : Layout} {line : Line}
    (h : layout.addStatement table widths line = .ok next) :
    next = { layout with
      vars := Program.declare widths layout.vars line
      size := layout.size + Program.lineSize table line } := by
  rw [addStatement_eq] at h
  split at h
  · next hs =>
    cases h
    simp [Program.declare, Program.lineSize, hs]
  · next name value hs =>
    split at h
    · next target ht =>
      cases h
      simp only [scope] at ht
      simp [Program.declare, Program.lineSize, hs, ht]
    · cases h
  · next mnemonic operands hs =>
    split at h
    · next e he =>
      cases h
      simp [Program.declare, hs, lineSize_of_encode hs he]
    · cases h

theorem addStatement_eq_error_iff {layout : Layout} {line : Line} {e : AssembleError} :
    layout.addStatement table widths line = .error e ↔
      (∃ name value d, line.statement = some (.declaration name value) ∧
        (layout.scope widths line).resolve .short value = .error d ∧ .encoding d = e) ∨
      ∃ mnemonic operands d, line.statement = some (.instruction mnemonic operands) ∧
        table.encode mnemonic operands (layout.scope widths line) = .error d ∧
        .encoding d = e := by
  rw [addStatement_eq]
  split
  · next hs => simp [hs]
  · next name value hs =>
    cases hr : (layout.scope widths line).resolve .short value <;> simp [hs, hr]
  · next mnemonic operands hs =>
    cases he : table.encode mnemonic operands (layout.scope widths line) <;>
      simp [hs, he]

theorem addLine_eq_ok {layout next : Layout} {line : Line}
    (h : layout.addLine table widths line = .ok next) : next = layout.extend table widths line := by
  obtain ⟨labelled, hl, h⟩ := bind_eq_ok_iff.1 h
  obtain ⟨_, rfl⟩ := addLabel_eq_ok_iff.1 hl
  rw [addStatement_eq_ok h]
  rfl

theorem addLine_after_eq_error_iff {before : List Line} {line : Line} {e : AssembleError} :
    (after table widths before).addLine table widths line = .error e ↔
      Program.Misplaced table widths before line e := by
  have hnames : ∀ name, (after table widths before).labels.contains name = false ↔
      name ∉ Program.labelNames before := by
    intro name
    rw [← contains_labels_after table widths, Bool.not_eq_true]
  have hscope : ∀ labels,
      Layout.scope { after table widths before with labels := labels } widths line =
        Scope.sizing line.number widths (Program.vars widths before) := by
    intro labels
    rw [scope, vars_after]
  constructor
  · intro h
    rcases bind_eq_error_iff.1 h with h | ⟨labelled, hl, h⟩
    · obtain ⟨name, hl, hd, rfl⟩ := addLabel_eq_error_iff.1 h
      exact .label hl ((contains_labels_after table widths before name).mp hd)
    · obtain ⟨hfresh, rfl⟩ := addLabel_eq_ok_iff.1 hl
      have hfresh' : ∀ name, line.label = some name → name ∉ Program.labelNames before :=
        fun name hname => (hnames name).mp (hfresh name hname)
      rw [addStatement_eq_error_iff, hscope] at h
      rcases h with ⟨name, value, d, hs, hr, rfl⟩ | ⟨mnemonic, operands, d, hs, he, rfl⟩
      · exact .declaration hfresh' hs hr
      · exact .instruction hfresh' hs he
  · intro h
    have hlabelled (hl : ∀ name, line.label = some name → name ∉ Program.labelNames before) :=
      addLabel_eq_ok_iff.2 ⟨fun name hname => (hnames name).mpr (hl name hname), rfl⟩
    apply bind_eq_error_iff.2
    cases h with
    | label hl hd =>
      have htaken := (contains_labels_after table widths before _).mpr hd
      exact Or.inl (addLabel_eq_error_iff.2 ⟨_, hl, htaken, rfl⟩)
    | declaration hl hs hr =>
      refine Or.inr ⟨_, hlabelled hl, ?_⟩
      rw [addStatement_eq_error_iff, hscope]
      exact Or.inl ⟨_, _, _, hs, hr, rfl⟩
    | instruction hl hs he =>
      refine Or.inr ⟨_, hlabelled hl, ?_⟩
      rw [addStatement_eq_error_iff, hscope]
      exact Or.inr ⟨_, _, _, hs, he, rfl⟩

theorem addLine_after_eq_ok {before : List Line} {line : Line} {next : Layout}
    (h : (after table widths before).addLine table widths line = .ok next) :
    next = after table widths (before ++ [line]) ∧
      ∀ e, ¬ Program.Misplaced table widths before line e := by
  refine ⟨by rw [addLine_eq_ok h, after_append]; rfl, ?_⟩
  intro e hm
  rw [addLine_after_eq_error_iff.mpr hm] at h
  cases h

/-- A run over more lines, generalised over the lines already placed. -/
theorem addLines_after (before lines : List Line) :
    (∀ e, (after table widths before).addLines table widths lines = .error e ↔
      FirstFault (fun b => Program.Misplaced table widths (before ++ b)) lines e) ∧
    ∀ layout, (after table widths before).addLines table widths lines = .ok layout ↔
      Faultless (fun b => Program.Misplaced table widths (before ++ b)) lines ∧
      after table widths (before ++ lines) = layout := by
  induction lines generalizing before with
  | nil => simp [addLines, not_firstFault_nil, faultless_nil]
  | cons line lines ih =>
    have hshift : (fun b => Program.Misplaced table widths (before ++ line :: b)) =
        fun b => Program.Misplaced table widths (before ++ [line] ++ b) := by
      simp
    simp only [addLines, firstFault_cons, faultless_cons, hshift, List.append_nil]
    cases hline : (after table widths before).addLine table widths line with
    | error d =>
      simp only [error_bind, ← addLine_after_eq_error_iff, hline]
      simp
    | ok next =>
      obtain ⟨rfl, hclean⟩ := addLine_after_eq_ok hline
      obtain ⟨herror, hok⟩ := ih (before ++ [line])
      simp [hclean, herror, hok]

/-- The first pass fails with the fault of the first misplaced line. -/
theorem ofLines_eq_error_iff {lines : List Line} {e : AssembleError} :
    ofLines table widths lines = .error e ↔
      FirstFault (Program.Misplaced table widths) lines e :=
  (addLines_after [] lines).1 e

theorem ofLines_eq_ok_iff {lines : List Line} {layout : Layout} :
    ofLines table widths lines = .ok layout ↔
      Faultless (Program.Misplaced table widths) lines ∧ after table widths lines = layout :=
  (addLines_after [] lines).2 layout

theorem checkSize_eq_error_iff {layout : Layout} {e : AssembleError} :
    layout.checkSize widths = .error e ↔
      widths.capacity < layout.size ∧ .tooLarge layout.size widths.capacity = e := by
  unfold checkSize
  by_cases h : layout.size ≤ widths.capacity
  · simp [h, Nat.not_lt.mpr h]
  · simp [h, Nat.not_le.mp h]

theorem checkSize_eq_ok_iff {layout : Layout} {u : Unit} :
    layout.checkSize widths = .ok u ↔ layout.size ≤ widths.capacity := by
  unfold checkSize
  by_cases h : layout.size ≤ widths.capacity <;> simp [h]

theorem find?_labels_after {lines before rest : List Line} {line : Line} {name : String}
    (hclean : Faultless (Program.Misplaced table widths) lines)
    (hlines : lines = before ++ line :: rest) (hl : line.label = some name) :
    (after table widths lines).labels.find? name =
      some (UInt32.ofNat (Program.size table before)) := by
  have hmem : name ∈ Program.labelNames (before ++ [line]) :=
    Program.mem_labelNames.mpr ⟨line, by simp, hl⟩
  have hrest : name ∉ Program.labelNames rest :=
    Program.not_mem_labelNames_of_faultless (by simpa [hlines] using hclean) hmem
  rw [hlines, after_append, List.foldl_cons, find?_labels_foldl_extend _ hrest,
    find?_labels_extend, if_pos hl, size_after]

end Layout

end EightBitAsm
