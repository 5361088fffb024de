import EightBitAsm.Proofs.Image

/-! Line numbers. They are shown in errors and in listings, and nothing is decided by them: with
other numbers a program ends the same way, and shows the other numbers. A line that holds nothing
changes nothing either. -/
namespace EightBitAsm

section Outcomes

variable {ε δ α β γ : Type}

/-- The outcome of a step with its error and its value carried over. -/
def mapBoth (f : ε → δ) (g : α → β) : Except ε α → Except δ β
  | .error e => .error (f e)
  | .ok a => .ok (g a)

theorem mapBoth_bind {f : ε → δ} {g : β → γ} {h : α → α} {x : Except ε α} {x' : Except δ α}
    {k : α → Except ε β} {k' : α → Except δ γ} (hx : x' = mapBoth f h x)
    (hk : ∀ a, k' (h a) = mapBoth f g (k a)) : x' >>= k' = mapBoth f g (x >>= k) := by
  cases x with
  | error e => rw [hx]; rfl
  | ok a =>
    rw [hx]
    exact hk a

end Outcomes

def Line.renumber (f : Nat → Nat) (line : Line) : Line :=
  { line with number := f line.number }

def Diagnostic.renumber (f : Nat → Nat) (d : Diagnostic) : Diagnostic :=
  { d with line := f d.line }

def SourceError.renumber (f : Nat → Nat) (e : SourceError) : SourceError :=
  { e with line := f e.line }

def AssembleError.renumber (f : Nat → Nat) : AssembleError → AssembleError
  | source error => .source (error.renumber f)
  | duplicateLabel line name => .duplicateLabel (f line) name
  | encoding diagnostic => .encoding (diagnostic.renumber f)
  | tooLarge size capacity => .tooLarge size capacity

def ListingLine.renumber (f : Nat → Nat) (l : ListingLine) : ListingLine :=
  { l with line := f l.line }

def Assembly.renumber (f : Nat → Nat) (a : Assembly) : Assembly :=
  { a with listing := a.listing.map (ListingLine.renumber f) }

variable {table : MnemonicTable} {widths : Widths} (f : Nat → Nat)

namespace Scope

def renumber (s : Scope) : Scope :=
  { s with line := f s.line }

theorem resolve_renumber (s : Scope) (domain : Domain) (text : String) :
    (s.renumber f).resolve domain text =
      mapBoth (Diagnostic.renumber f) id (s.resolve domain text) := by
  have hwidths : (s.renumber f).widths = s.widths := rfl
  have hfind : (s.renumber f).find = s.find := rfl
  unfold resolve
  split
  · rfl
  · split
    · rw [resolveLiteral, resolveLiteral, hwidths]
      split
      · split <;> rfl
      · split <;> rfl
    · rw [resolveSymbol, resolveSymbol, hfind]
      split <;> rfl

end Scope

theorem Instruction.cycleRegister_renumber (s : Scope) (text : String) :
    cycleRegister (s.renumber f) text =
      mapBoth (Diagnostic.renumber f) id (cycleRegister s text) := by
  unfold cycleRegister
  split
  · rfl
  · split
    · rfl
    · split
      · rfl
      · split <;> rfl

theorem Instruction.encode_renumber (i : Instruction) (operands : List String) (s : Scope) :
    i.encode operands (s.renumber f) =
      mapBoth (Diagnostic.renumber f) id (i.encode operands s) := by
  rw [encode_eq_outcome, encode_eq_outcome]
  unfold outcome
  split
  · rfl
  · refine mapBoth_bind (cycleRegister_renumber f s _) ?_
    intro n
    exact mapBoth_bind (Scope.resolve_renumber f s _ _) fun _ => rfl
  · exact mapBoth_bind (Scope.resolve_renumber f s _ _) fun _ => rfl
  · exact mapBoth_bind (Scope.resolve_renumber f s _ _) fun _ => rfl
  · rfl

theorem MnemonicTable.encode_renumber (mnemonic : String) (operands : List String) (s : Scope) :
    table.encode mnemonic operands (s.renumber f) =
      mapBoth (Diagnostic.renumber f) id (table.encode mnemonic operands s) := by
  rw [encode_eq, encode_eq]
  split
  · exact Instruction.encode_renumber f _ operands s
  · rfl

namespace Layout

theorem addLabel_renumber (layout : Layout) (line : Line) :
    layout.addLabel (line.renumber f) =
      mapBoth (AssembleError.renumber f) id (layout.addLabel line) := by
  have hlabel : (line.renumber f).label = line.label := rfl
  rw [addLabel, addLabel, hlabel]
  split
  · rfl
  · split <;> rfl

theorem addStatement_renumber (layout : Layout) (line : Line) :
    layout.addStatement table widths (line.renumber f) =
      mapBoth (AssembleError.renumber f) id (layout.addStatement table widths line) := by
  have hstatement : (line.renumber f).statement = line.statement := rfl
  have hscope : layout.scope widths (line.renumber f) = (layout.scope widths line).renumber f := rfl
  rw [addStatement_eq, addStatement_eq, hstatement, hscope]
  split
  · rfl
  · next name value _ =>
    rw [Scope.resolve_renumber]
    cases (layout.scope widths line).resolve .short value <;> rfl
  · next mnemonic operands _ =>
    rw [MnemonicTable.encode_renumber]
    cases table.encode mnemonic operands (layout.scope widths line) <;> rfl

theorem addLines_renumber (layout : Layout) (lines : List Line) :
    layout.addLines table widths (lines.map (Line.renumber f)) =
      mapBoth (AssembleError.renumber f) id (layout.addLines table widths lines) := by
  induction lines generalizing layout with
  | nil => rfl
  | cons line lines ih =>
    have hline : layout.addLine table widths (line.renumber f) =
        mapBoth (AssembleError.renumber f) id (layout.addLine table widths line) :=
      mapBoth_bind (addLabel_renumber f layout line) fun l => addStatement_renumber f l line
    exact mapBoth_bind hline ih

theorem listingFrom_renumber (layout : Layout) (start : Nat) (lines : List Line) :
    layout.listingFrom table widths start (lines.map (Line.renumber f)) =
      mapBoth (AssembleError.renumber f) (List.map (ListingLine.renumber f))
        (layout.listingFrom table widths start lines) := by
  induction lines generalizing start with
  | nil => rfl
  | cons line lines ih =>
    have hscope : layout.finalScope widths (line.renumber f) =
        (layout.finalScope widths line).renumber f := rfl
    have hstatement : (line.renumber f).statement = line.statement := rfl
    rw [List.map_cons, listingFrom, listingFrom, hstatement, hscope]
    split
    · next mnemonic operands _ =>
      rw [MnemonicTable.encode_renumber]
      cases table.encode mnemonic operands (layout.finalScope widths line) with
      | error d => rfl
      | ok e => exact mapBoth_bind (ih _) fun _ => rfl
    · exact ih start

end Layout

/-- Other line numbers in a program are other line numbers in its outcome. -/
theorem Assembly.ofLines_renumber (lines : List Line) :
    ofLines table widths (lines.map (Line.renumber f)) =
      mapBoth (AssembleError.renumber f) (renumber f) (ofLines table widths lines) := by
  rw [ofLines_eq, ofLines_eq]
  refine mapBoth_bind (Layout.addLines_renumber f .empty lines) ?_
  intro layout
  have hsize : layout.checkSize widths =
      mapBoth (AssembleError.renumber f) id (layout.checkSize widths) := by
    unfold Layout.checkSize
    split <;> rfl
  refine mapBoth_bind hsize ?_
  intro _
  refine mapBoth_bind (Layout.listingFrom_renumber f layout 0 lines) ?_
  intro listing
  have hbytes : (listing.map (ListingLine.renumber f)).flatMap (·.bytes) =
      listing.flatMap (·.bytes) := List.flatMap_map ..
  rw [hbytes]
  rfl

section Reading

variable {f}

theorem Line.parseChars_renumber {m n : Nat} (h : f n = m) (raw : List Char) :
    parseChars m raw = mapBoth (SourceError.renumber f) (renumber f) (parseChars n raw) := by
  subst h
  unfold parseChars parseCode
  cases splitLabel (code raw) with
  | error fault => rfl
  | ok split =>
    simp only [ok_bind]
    cases Statement.parse split.2 <;> rfl

theorem Program.parseLines_renumber {m n : Nat} {raws : List (List Char)}
    (h : ∀ i < raws.length, f (n + i) = m + i) :
    parseLines m raws =
      mapBoth (SourceError.renumber f) (List.map (Line.renumber f)) (parseLines n raws) := by
  induction raws generalizing m n with
  | nil => rfl
  | cons raw raws ih =>
    have hfirst : f n = m := h 0 (Nat.zero_lt_succ _)
    have hrest : ∀ i < raws.length, f (n + 1 + i) = m + 1 + i := by
      intro i hi
      have := h (i + 1) (Nat.succ_lt_succ hi)
      rwa [← Nat.add_assoc, Nat.add_right_comm, ← Nat.add_assoc, Nat.add_right_comm m] at this
    refine mapBoth_bind (Line.parseChars_renumber hfirst raw) ?_
    intro line
    exact mapBoth_bind (ih hrest) fun _ => rfl

end Reading

def Line.numberAfterInsert (n number : Nat) : Nat :=
  if number ≤ n then number else number + 1

theorem Program.parseLines_insert {raw : List Char} (hraw : Line.code raw = [])
    (xs ys : List (List Char)) :
    (∃ e, parseLines 1 (xs ++ ys) = .error e ∧ parseLines 1 (xs ++ raw :: ys) =
      .error (e.renumber (Line.numberAfterInsert xs.length))) ∨
    ∃ lines more line, parseLines 1 (xs ++ ys) = .ok (lines ++ more) ∧
      line.label = none ∧ line.statement = none ∧ parseLines 1 (xs ++ raw :: ys) =
        .ok (lines.map (Line.renumber (Line.numberAfterInsert xs.length)) ++
          line :: more.map (Line.renumber (Line.numberAfterInsert xs.length))) := by
  have hbefore : parseLines 1 xs = mapBoth (SourceError.renumber (Line.numberAfterInsert xs.length))
      (List.map (Line.renumber (Line.numberAfterInsert xs.length))) (parseLines 1 xs) := by
    apply parseLines_renumber
    intro i hi
    exact if_pos (by omega)
  have hbehind : parseLines (1 + xs.length + 1) ys =
      mapBoth (SourceError.renumber (Line.numberAfterInsert xs.length))
        (List.map (Line.renumber (Line.numberAfterInsert xs.length)))
        (parseLines (1 + xs.length) ys) := by
    apply parseLines_renumber
    intro i _
    rw [Line.numberAfterInsert, if_neg (by omega)]
    omega
  have hempty : ∀ n, Line.parseChars n raw = .ok ⟨n, none, none, ""⟩ := by
    intro n
    rw [Line.parseChars, hraw]
    rfl
  rw [parseLines_append, parseLines_append, parseLines, hempty, hbehind, ok_bind]
  cases hxs : parseLines 1 xs with
  | error e =>
    rw [hxs] at hbefore
    exact Or.inl ⟨e, rfl, hbefore⟩
  | ok lines =>
    rw [hxs] at hbefore
    cases parseLines (1 + xs.length) ys with
    | error e => exact Or.inl ⟨e, rfl, rfl⟩
    | ok more =>
      refine Or.inr ⟨lines, more, ⟨1 + xs.length, none, none, ""⟩, rfl, rfl, rfl, ?_⟩
      rw [← Except.ok.inj hbefore]
      rfl

section EmptyLine

variable {line : Line} (hl : line.label = none) (hs : line.statement = none)
include hl hs

theorem Layout.addLines_insert (layout : Layout) (before after : List Line) :
    layout.addLines table widths (before ++ line :: after) =
      layout.addLines table widths (before ++ after) := by
  induction before generalizing layout with
  | nil =>
    have hline : layout.addLine table widths line = .ok layout := by
      simp [addLine, addLabel, hl, addStatement, hs]
    rw [List.nil_append, List.nil_append, addLines, hline, ok_bind]
  | cons first before ih => simp only [List.cons_append, addLines, ih]

theorem Assembly.ofLines_insert (before after : List Line) :
    ofLines table widths (before ++ line :: after) = ofLines table widths (before ++ after) := by
  have hinstructions : Program.instructions (before ++ line :: after) =
      Program.instructions (before ++ after) := by
    simp [Program.instructions, Line.isInstruction, hs]
  have hlisting : ∀ layout : Layout, layout.listingFrom table widths 0 (before ++ line :: after) =
      layout.listingFrom table widths 0 (before ++ after) := by
    intro layout
    rw [← Layout.listingFrom_instructions, hinstructions, Layout.listingFrom_instructions]
  rw [ofLines_eq, ofLines_eq]
  unfold Layout.ofLines
  rw [Layout.addLines_insert hl hs]
  simp only [hlisting]

end EmptyLine

end EightBitAsm
