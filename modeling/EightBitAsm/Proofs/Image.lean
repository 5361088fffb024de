import EightBitAsm.Assembly.Image
import EightBitAsm.Proofs.Layout

/-! The second pass against the first. A line that could be sized can fail only for a name that is
no label; otherwise it takes exactly the bytes it was sized with, so that the listing, the image
and the labels agree. -/
namespace EightBitAsm

namespace Line

def operation? (table : MnemonicTable) (scope : Scope) (line : Line) :
    Option (Operation UInt32) :=
  match line.statement with
  | some (.instruction mnemonic operands) => do
    let i ← table.lookup? mnemonic
    let o ← (i.read scope operands).toOption
    let p ← (o.resolve scope).toOption
    some (p.map Target.address)
  | _ => none

theorem operation?_eq_some_iff {table : MnemonicTable} {scope : Scope} {line : Line}
    {o : Operation UInt32} :
    line.operation? table scope = some o ↔ ∃ mnemonic operands i r p,
      line.statement = some (.instruction mnemonic operands) ∧ table.lookup? mnemonic = some i ∧
      i.read scope operands = .ok r ∧ r.resolve scope = .ok p ∧ p.map Target.address = o := by
  unfold operation?
  split
  · next hs => simp [hs, toOption_eq_some_iff, Option.bind_eq_some_iff]
  · next h =>
    simp only [reduceCtorEq, false_iff]
    rintro ⟨mnemonic, operands, i, r, p, hs, _⟩
    exact h mnemonic operands hs

theorem instruction_of_operation? {table : MnemonicTable} {scope : Scope} {line : Line}
    {o : Operation UInt32} (h : line.operation? table scope = some o) :
    ∃ mnemonic operands i, line.statement = some (.instruction mnemonic operands) ∧
      table.lookup? mnemonic = some i ∧ o.encoding = i.encoding := by
  obtain ⟨mnemonic, operands, i, r, p, hs, hi, hr, hp, rfl⟩ := operation?_eq_some_iff.mp h
  refine ⟨mnemonic, operands, i, hs, hi, ?_⟩
  rw [Operation.encoding_map, Operation.encoding_of_resolve hp, Instruction.encoding_of_read hr]

end Line

def ListingLine.total (entries : List ListingLine) : Nat :=
  (entries.map fun l => l.bytes.length).sum

namespace Program

def instructions (lines : List Line) : List Line :=
  lines.filter Line.isInstruction

/-- An instruction that could be sized: all is well with it except, perhaps, the name of its
target. -/
def Sized (table : MnemonicTable) (widths : Widths) (line : Line) : Prop :=
  ∀ mnemonic operands, line.statement = some (.instruction mnemonic operands) →
    ∃ vars e, table.encode mnemonic operands (.sizing line.number widths vars) = .ok e

inductive Undefined (table : MnemonicTable) (labels : List String) (line : Line) :
    AssembleError → Prop where
  | target {mnemonic name : String} {operands : List String} {i : Instruction}
      (hs : line.statement = some (.instruction mnemonic operands))
      (hi : table.lookup? mnemonic = some i)
      (ht : i.encoding.addressOperand? operands = some name)
      (hd : Text.startsWithDigit name = false) (hl : name ∉ labels) :
      Undefined table labels line (.encoding ⟨line.number, .undefinedSymbol .far name⟩)

theorem sized_of_faultless {table : MnemonicTable} {widths : Widths} {lines : List Line}
    (h : Faultless (Misplaced table widths) lines) {line : Line} (hline : line ∈ lines) :
    Sized table widths line := by
  intro mnemonic operands hs
  obtain ⟨before, after, rfl⟩ := List.append_of_mem hline
  have hfresh : ∀ label, line.label = some label → label ∉ labelNames before := by
    intro label hl hd
    exact h before line after _ rfl (.label hl hd)
  cases he : table.encode mnemonic operands (.sizing line.number widths (vars widths before)) with
  | ok e => exact ⟨_, e, he⟩
  | error d => exact absurd (.instruction hfresh hs he) (h before line after _ rfl)

end Program

namespace MnemonicTable

variable {table : MnemonicTable} {mnemonic : String} {operands : List String}

theorem resolve_of_encode {s : Scope} {e : Emission} {i : Instruction} {text : String}
    (h : table.encode mnemonic operands s = .ok e) (hi : table.lookup? mnemonic = some i)
    (ht : i.encoding.addressOperand? operands = some text) :
    ∃ target, s.resolve .far text = .ok target := by
  obtain ⟨i', o, p, hi', ho, hp, _⟩ := encode_eq_ok_iff.1 h
  cases hi.symm.trans hi'
  obtain ⟨target, htarget, _⟩ :=
    Operation.address?_of_resolve hp ((Instruction.address?_of_read ho).trans ht)
  exact ⟨target, htarget⟩

/-- Where an instruction encodes in one scope, only its target can fail in another of the same
line. -/
theorem encode_eq_error_iff_of_ok {s : Scope} {e : Emission}
    (h : table.encode mnemonic operands s = .ok e) (t : Scope) (hl : s.line = t.line)
    {d : Diagnostic} :
    table.encode mnemonic operands t = .error d ↔ ∃ i text, table.lookup? mnemonic = some i ∧
      i.encoding.addressOperand? operands = some text ∧ t.resolve .far text = .error d := by
  obtain ⟨i, o, p, hi, ho, hp, _⟩ := encode_eq_ok_iff.1 h
  have ht : i.read t operands = .ok o := by rw [← Instruction.read_eq_of_line_eq hl, ho]
  have henc : table.encode mnemonic operands t = .error d ↔ o.resolve t = .error d := by
    simp [encode_eq, hi, Instruction.encode_eq_read_resolve, ht, bind_eq_error_iff]
  rw [henc, Operation.resolve_eq_error_iff, Instruction.address?_of_read ho, hi]
  simp

end MnemonicTable

namespace Layout

variable {table : MnemonicTable} {widths : Widths} {layout : Layout}

theorem resolve_finalScope_eq_error_iff {line : Line} {vars : Symbols} {text : String}
    {target : Target} (h : (Scope.sizing line.number widths vars).resolve .far text = .ok target)
    {d : Diagnostic} :
    (layout.finalScope widths line).resolve .far text = .error d ↔
      Text.startsWithDigit text = false ∧ layout.labels.find? text = none ∧
      d = ⟨line.number, .undefinedSymbol .far text⟩ := by
  cases hd : Text.startsWithDigit text with
  | true =>
    have hsame := Scope.resolve_eq_of_startsWithDigit (layout.finalScope widths line)
      (.sizing line.number widths vars) rfl .far rfl hd
    simp [hsame, h]
  | false =>
    rw [Scope.resolve_eq_resolveSymbol _ _ (Scope.ne_empty_of_resolve h) hd]
    cases hfind : layout.labels.find? text <;>
      simp [Scope.resolveSymbol, finalScope, Scope.ofSymbols, Scope.fail, hfind, eq_comm]

theorem encode_finalScope_eq_error_iff {labels : List String} {line : Line} {mnemonic : String}
    {operands : List String} (hlabels : ∀ name, layout.labels.find? name = none ↔ name ∉ labels)
    (hs : line.statement = some (.instruction mnemonic operands))
    (hsized : Program.Sized table widths line) {e : AssembleError} :
    (∃ d, table.encode mnemonic operands (layout.finalScope widths line) = .error d ∧
      .encoding d = e) ↔ Program.Undefined table labels line e := by
  obtain ⟨vars, emission, he⟩ := hsized mnemonic operands hs
  simp only [MnemonicTable.encode_eq_error_iff_of_ok he (layout.finalScope widths line) rfl]
  constructor
  · rintro ⟨d, ⟨i, text, hi, ht, hfinal⟩, rfl⟩
    obtain ⟨target, hsizing⟩ := MnemonicTable.resolve_of_encode he hi ht
    obtain ⟨hd, hfind, rfl⟩ := (resolve_finalScope_eq_error_iff hsizing).mp hfinal
    exact .target hs hi ht hd ((hlabels text).mp hfind)
  · intro h
    cases h with
    | @target m name ops i hs' hi ht hd hl =>
      cases hs.symm.trans hs'
      obtain ⟨target, hsizing⟩ := MnemonicTable.resolve_of_encode he hi ht
      exact ⟨_, ⟨i, name, hi, ht, (resolve_finalScope_eq_error_iff hsizing).mpr
        ⟨hd, (hlabels name).mpr hl, rfl⟩⟩, rfl⟩

def listingFrom (table : MnemonicTable) (widths : Widths) (layout : Layout) (start : Nat) :
    List Line → Except AssembleError (List ListingLine)
  | [] => .ok []
  | line :: lines => match line.statement with
    | some (.instruction mnemonic operands) =>
      match table.encode mnemonic operands (layout.finalScope widths line) with
      | .error diagnostic => .error (.encoding diagnostic)
      | .ok emission => do
        let rest ← listingFrom table widths layout (start + emission.bytes.length) lines
        return ⟨line.number, UInt32.ofNat start, emission.bytes, line.text⟩ :: rest
    | _ => listingFrom table widths layout start lines

theorem listingFrom_cons_of_not_isInstruction {line : Line} (h : line.isInstruction ≠ true)
    (start : Nat) (lines : List Line) :
    layout.listingFrom table widths start (line :: lines) =
      layout.listingFrom table widths start lines := by
  rw [listingFrom]
  split
  · next mnemonic operands hs => exact absurd (Line.isInstruction_iff.mpr ⟨_, _, hs⟩) h
  · rfl

theorem listingFrom_cons_of_statement {line : Line} {mnemonic : String} {operands : List String}
    (hs : line.statement = some (.instruction mnemonic operands)) (start : Nat)
    (lines : List Line) :
    layout.listingFrom table widths start (line :: lines) =
      match table.encode mnemonic operands (layout.finalScope widths line) with
      | .error d => .error (.encoding d)
      | .ok e => layout.listingFrom table widths (start + e.bytes.length) lines >>= fun rest =>
        .ok (⟨line.number, UInt32.ofNat start, e.bytes, line.text⟩ :: rest) := by
  rw [listingFrom]
  split
  · next hs' =>
    cases hs.symm.trans hs'
    rfl
  · next h => exact absurd hs (h mnemonic operands)

def Serves (layout : Layout) (widths : Widths) (s : Session) : Prop :=
  s.widths = widths ∧ s.labels = layout.labels ∧ s.vars = layout.vars

theorem serves_session (layout : Layout) (widths : Widths) :
    layout.Serves widths (layout.session widths) :=
  ⟨rfl, rfl, rfl⟩

theorem encodeLine_of_not_isInstruction {line : Line} (h : line.isInstruction ≠ true)
    (s : Session) (listing : List ListingLine) :
    Assembly.encodeLine table s listing line = .ok (s, listing) := by
  unfold Assembly.encodeLine
  split
  · next mnemonic operands hs => exact absurd (Line.isInstruction_iff.mpr ⟨_, _, hs⟩) h
  · rfl

theorem encodeLine_of_statement {s : Session} (hserves : layout.Serves widths s) {line : Line}
    {mnemonic : String} {operands : List String}
    (hs : line.statement = some (.instruction mnemonic operands)) (listing : List ListingLine) :
    Assembly.encodeLine table s listing line =
      match table.encode mnemonic operands (layout.finalScope widths line) with
      | .error d => .error (.encoding d)
      | .ok e => .ok ({ s with line := line.number, bytes := s.bytes ++ e.bytes },
          listing ++ [⟨line.number, UInt32.ofNat s.bytes.length, e.bytes, line.text⟩]) := by
  obtain ⟨hwidths, hlabels, hvars⟩ := hserves
  have hscope : Session.scope { s with line := line.number } = layout.finalScope widths line := by
    simp only [Session.scope, finalScope, hwidths, hlabels, hvars]
  simp only [Assembly.encodeLine, hs, Session.encode_eq, hscope]
  cases table.encode mnemonic operands (layout.finalScope widths line) with
  | error d => rfl
  | ok e => simp

/-- The growing buffer of the second pass holds the bytes of its listing one after the other. -/
theorem encodeLines_map {s : Session} (hserves : layout.Serves widths s)
    (listing : List ListingLine) (lines : List Line) :
    (Assembly.encodeLines table s listing lines).map (fun r => (r.1.bytes, r.2)) =
      (layout.listingFrom table widths s.bytes.length lines).map fun rest =>
        (s.bytes ++ rest.flatMap (·.bytes), listing ++ rest) := by
  -- Over the lines from the front: the length of the buffer so far is the address of the next line.
  induction lines generalizing s listing with
  | nil => simp [Assembly.encodeLines, listingFrom, Except.map]
  | cons line lines ih =>
    rw [Assembly.encodeLines]
    by_cases hi : line.isInstruction = true
    · obtain ⟨mnemonic, operands, hs⟩ := Line.isInstruction_iff.mp hi
      rw [encodeLine_of_statement hserves hs, listingFrom_cons_of_statement hs]
      cases table.encode mnemonic operands (layout.finalScope widths line) with
      | error d => rfl
      | ok e =>
        have hnext : layout.Serves widths
            { s with line := line.number, bytes := s.bytes ++ e.bytes } := hserves
        simp only [ok_bind, ih hnext, List.length_append]
        cases layout.listingFrom table widths (s.bytes.length + e.bytes.length) lines with
        | error d => rfl
        | ok rest => simp [Except.map]
    · rw [encodeLine_of_not_isInstruction hi, listingFrom_cons_of_not_isInstruction hi]
      exact ih hserves listing

theorem listingFrom_instructions (layout : Layout) (start : Nat) (lines : List Line) :
    layout.listingFrom table widths start (Program.instructions lines) =
      layout.listingFrom table widths start lines := by
  unfold Program.instructions
  induction lines generalizing start with
  | nil => rfl
  | cons line lines ih =>
    by_cases hi : line.isInstruction = true
    · obtain ⟨mnemonic, operands, hs⟩ := Line.isInstruction_iff.mp hi
      rw [List.filter_cons_of_pos hi, listingFrom_cons_of_statement hs,
        listingFrom_cons_of_statement hs]
      simp only [ih]
    · rw [List.filter_cons_of_neg hi, listingFrom_cons_of_not_isInstruction hi, ih]

/-- The second pass fails with the first undefined target, and only so. -/
theorem listingFrom_outcome {labels : List String}
    (hlabels : ∀ name, layout.labels.find? name = none ↔ name ∉ labels) {lines : List Line}
    (hsized : ∀ line ∈ lines, Program.Sized table widths line) (start : Nat) :
    (∀ e, layout.listingFrom table widths start lines = .error e ↔
      FirstFault (fun _ => Program.Undefined table labels) lines e) ∧
    ((∃ listing, layout.listingFrom table widths start lines = .ok listing) ↔
      Faultless (fun _ => Program.Undefined table labels) lines) := by
  induction lines generalizing start with
  | nil => simp [listingFrom, not_firstFault_nil, faultless_nil]
  | cons line lines ih =>
    have hrest : ∀ l ∈ lines, Program.Sized table widths l :=
      fun l hl => hsized l (List.mem_cons_of_mem _ hl)
    simp only [firstFault_cons, faultless_cons]
    by_cases hi : line.isInstruction = true
    · obtain ⟨mnemonic, operands, hs⟩ := Line.isInstruction_iff.mp hi
      -- The fault of the line becomes a failed encoding, so that both sides speak of `encode`.
      simp only [listingFrom_cons_of_statement hs,
        ← encode_finalScope_eq_error_iff hlabels hs (hsized line List.mem_cons_self)]
      cases he : table.encode mnemonic operands (layout.finalScope widths line) with
      | error d => simp
      | ok e =>
        obtain ⟨herror, hok⟩ := ih hrest (start + e.bytes.length)
        simp [bind_eq_error_iff, bind_eq_ok_iff, herror, ← hok]
    · have hnone : ∀ e, ¬ Program.Undefined table labels line e := by
        intro e h
        cases h with
        | target hs => exact hi (Line.isInstruction_iff.mpr ⟨_, _, hs⟩)
      simp only [listingFrom_cons_of_not_isInstruction hi]
      obtain ⟨herror, hok⟩ := ih hrest start
      simp [hnone, herror, ← hok]

structure Lists (table : MnemonicTable) (widths : Widths) (layout : Layout) (line : Line)
    (entry : ListingLine) : Prop where
  number : entry.line = line.number
  text : entry.text = line.text
  bytes : ∃ o, line.operation? table (layout.finalScope widths line) = some o ∧
    entry.bytes = o.bytes widths.farBits

theorem lists_of_encode {line : Line} {mnemonic : String} {operands : List String} {e : Emission}
    (hs : line.statement = some (.instruction mnemonic operands))
    (he : table.encode mnemonic operands (layout.finalScope widths line) = .ok e)
    (address : UInt32) :
    layout.Lists table widths line ⟨line.number, address, e.bytes, line.text⟩ := by
  obtain ⟨i, o, p, hi, ho, hp, rfl⟩ := MnemonicTable.encode_eq_ok_iff.1 he
  exact ⟨rfl, rfl, p.map Target.address,
    Line.operation?_eq_some_iff.mpr ⟨mnemonic, operands, i, o, p, hs, hi, ho, hp, rfl⟩, rfl⟩

theorem listingFrom_cons_eq_ok {start : Nat} {line : Line} {lines : List Line}
    {listing : List ListingLine}
    (h : layout.listingFrom table widths start (line :: lines) = .ok listing) :
    (line.isInstruction ≠ true ∧ layout.listingFrom table widths start lines = .ok listing) ∨
    ∃ mnemonic operands e rest, line.statement = some (.instruction mnemonic operands) ∧
      table.encode mnemonic operands (layout.finalScope widths line) = .ok e ∧
      layout.listingFrom table widths (start + e.bytes.length) lines = .ok rest ∧
      listing = ⟨line.number, UInt32.ofNat start, e.bytes, line.text⟩ :: rest := by
  by_cases hi : line.isInstruction = true
  · obtain ⟨mnemonic, operands, hs⟩ := Line.isInstruction_iff.mp hi
    rw [listingFrom_cons_of_statement hs] at h
    cases he : table.encode mnemonic operands (layout.finalScope widths line) with
    | error d => simp [he] at h
    | ok e =>
      rw [he] at h
      obtain ⟨rest, hrest, h⟩ := bind_eq_ok_iff.1 h
      cases h
      exact Or.inr ⟨mnemonic, operands, e, rest, hs, he, hrest, rfl⟩
  · rw [listingFrom_cons_of_not_isInstruction hi] at h
    exact Or.inl ⟨hi, h⟩

theorem lists_of_listingFrom {start : Nat} {lines : List Line} {listing : List ListingLine}
    (h : layout.listingFrom table widths start lines = .ok listing) :
    List.Forall₂ (layout.Lists table widths) (Program.instructions lines) listing := by
  induction lines generalizing start listing with
  | nil =>
    cases h
    exact .nil
  | cons line lines ih =>
    obtain ⟨hi, h⟩ | ⟨mnemonic, operands, e, rest, hs, he, hrest, rfl⟩ := listingFrom_cons_eq_ok h
    · rw [Program.instructions, List.filter_cons_of_neg hi]
      exact ih h
    · rw [Program.instructions,
        List.filter_cons_of_pos (Line.isInstruction_iff.mpr ⟨mnemonic, operands, hs⟩)]
      exact .cons (lists_of_encode hs he _) (ih hrest)

theorem address_of_listingFrom {start : Nat} {lines : List Line} {listing : List ListingLine}
    (h : layout.listingFrom table widths start lines = .ok listing)
    {before after : List ListingLine} {entry : ListingLine}
    (hx : listing = before ++ entry :: after) :
    entry.address = UInt32.ofNat (start + ListingLine.total before) := by
  induction lines generalizing start listing before with
  | nil =>
    cases h
    simp at hx
  | cons line lines ih =>
    obtain ⟨hi, h⟩ | ⟨mnemonic, operands, e, rest, hs, he, hrest, rfl⟩ := listingFrom_cons_eq_ok h
    · exact ih h hx
    · cases before with
      | nil =>
        obtain ⟨rfl, -⟩ := List.cons.inj hx
        simp [ListingLine.total]
      | cons first before =>
        obtain ⟨rfl, htail⟩ := List.cons.inj hx
        rw [ih hrest htail]
        simp [ListingLine.total, Nat.add_assoc]

theorem length_bytes_of_lists {line : Line} {entry : ListingLine}
    (h : layout.Lists table widths line entry) :
    ∃ mnemonic operands i, line.statement = some (.instruction mnemonic operands) ∧
      table.lookup? mnemonic = some i ∧ entry.bytes.length = i.encoding.size := by
  obtain ⟨_, _, o, ho, hb⟩ := h
  obtain ⟨mnemonic, operands, i, hs, hi, hencoding⟩ := Line.instruction_of_operation? ho
  exact ⟨mnemonic, operands, i, hs, hi, by rw [hb, Operation.length_bytes, hencoding]⟩

end Layout

namespace Assembly

/-- An assembly is a layout and a listing: the bytes in the buffer at the end are those of the
listing. -/
theorem ofLines_eq (table : MnemonicTable) (widths : Widths) (lines : List Line) :
    ofLines table widths lines = (do
      let layout ← Layout.ofLines table widths lines
      layout.checkSize widths
      let listing ← layout.listingFrom table widths 0 lines
      return {
        bytes := listing.flatMap (·.bytes)
        listing
        labels := layout.labels
        vars := layout.vars }) := by
  unfold ofLines
  cases Layout.ofLines table widths lines with
  | error e => rfl
  | ok layout =>
    simp only [ok_bind]
    cases layout.checkSize widths with
    | error e => rfl
    | ok u =>
      have hmap : (encodeLines table (layout.session widths) [] lines).map
            (fun r => (r.1.bytes, r.2)) =
          (layout.listingFrom table widths 0 lines).map fun rest =>
            (rest.flatMap (·.bytes), rest) :=
        Layout.encodeLines_map (layout.serves_session widths) [] lines
      exact bind_eq_of_map_eq hmap fun r =>
        .ok (Assembly.mk r.1 r.2 layout.labels layout.vars)

end Assembly

end EightBitAsm
