import EightBitAsm.Proofs.Agreement
import EightBitAsm.Proofs.ScopeChange

/-! Variables and the code. Both passes carry the variables along, but the address of a label
depends on mnemonics alone and a target is never a variable. So programs that differ in their
declarations only, and both assemble, have the same machine code. -/
namespace EightBitAsm

/-- Two lines that differ in a declaration at most. If one of them holds an instruction, they are
the same. -/
structure Line.SameInstruction (a b : Line) : Prop where
  number : b.number = a.number
  label : b.label = a.label
  instruction : a.isInstruction = true ∨ b.isInstruction = true →
    b.statement = a.statement ∧ b.text = a.text

variable {table : MnemonicTable} {widths : Widths} {lines lines' : List Line}

namespace Line.SameInstruction

variable {a b : Line}

theorem eq_of_isInstruction (h : SameInstruction a b)
    (hi : a.isInstruction = true ∨ b.isInstruction = true) : b = a := by
  obtain ⟨hs, ht⟩ := h.instruction hi
  have hn := h.number
  have hl := h.label
  cases a
  cases b
  simp_all

theorem isInstruction_eq (h : SameInstruction a b) : b.isInstruction = a.isInstruction := by
  by_cases hi : a.isInstruction = true ∨ b.isInstruction = true
  · rw [h.eq_of_isInstruction hi]
  · rw [not_or, Bool.not_eq_true, Bool.not_eq_true] at hi
    rw [hi.1, hi.2]

theorem lineSize_eq (h : SameInstruction a b) :
    Program.lineSize table b = Program.lineSize table a := by
  by_cases hi : a.isInstruction = true
  · rw [h.eq_of_isInstruction (Or.inl hi)]
  · have hi' : b.isInstruction ≠ true := by rwa [h.isInstruction_eq]
    rw [Program.lineSize_of_not_isInstruction hi, Program.lineSize_of_not_isInstruction hi']

end Line.SameInstruction

theorem Program.instructions_eq_of_forall₂ (h : List.Forall₂ Line.SameInstruction lines lines') :
    instructions lines' = instructions lines := by
  unfold instructions
  induction h with
  | nil => rfl
  | @cons a b lines lines' hab _ ih =>
    by_cases hi : a.isInstruction = true
    · rw [hab.eq_of_isInstruction (Or.inl hi), List.filter_cons_of_pos hi,
        List.filter_cons_of_pos hi, ih]
    · have hi' : b.isInstruction ≠ true := by rwa [hab.isInstruction_eq]
      rw [List.filter_cons_of_neg hi, List.filter_cons_of_neg hi', ih]

namespace Layout

variable {x y : Layout}

/-- The first pass over both programs, generalised over what is already laid out: the sizes have to
be followed along with the labels. -/
theorem labels_foldl_extend_eq (h : List.Forall₂ Line.SameInstruction lines lines')
    (hsize : y.size = x.size) (hlabels : y.labels = x.labels) :
    (lines'.foldl (extend table widths) y).labels =
      (lines.foldl (extend table widths) x).labels := by
  induction h generalizing x y with
  | nil => exact hlabels
  | @cons a b lines lines' hab _ ih =>
    rw [List.foldl_cons, List.foldl_cons]
    apply ih
    · rw [extend, extend, hsize, hab.lineSize_eq]
    · rw [extend, extend, labelsWith, labelsWith, hab.label, hlabels, hsize]

end Layout

namespace Assembly

/-- Declarations never influence the machine code: programs that differ in them only, and both
assemble, have the same bytes, listings and labels. -/
theorem code_eq_of_sameInstructions {text text' : String} {out out' : Assembly}
    (hp : Program.parse text = .ok lines) (hp' : Program.parse text' = .ok lines')
    (hlines : List.Forall₂ Line.SameInstruction lines lines')
    (h : assemble table widths text = .ok out) (h' : assemble table widths text' = .ok out') :
    out'.bytes = out.bytes ∧ out'.listing = out.listing ∧ out'.labels = out.labels := by
  obtain ⟨_, hparsed, hbuilt⟩ := built_of_assemble h
  cases hp.symm.trans hparsed
  obtain ⟨_, hparsed', hbuilt'⟩ := built_of_assemble h'
  cases hp'.symm.trans hparsed'
  have hlabels : (Layout.after table widths lines').labels =
      (Layout.after table widths lines).labels := Layout.labels_foldl_extend_eq hlines rfl rfl
  -- The labels are the same, so the variables do not matter to any instruction.
  have hscopes : ∀ line, ((Layout.after table widths lines').finalScope widths line).Carries
      ((Layout.after table widths lines).finalScope widths line) := by
    intro line
    rw [Layout.finalScope, Layout.finalScope, hlabels]
    exact Scope.carries_ofSymbols rfl _ _ _ _ _
  have hlisting : out'.listing = out.listing := by
    have hsame := Layout.listingFrom_of_carries hscopes hbuilt'.listing
    rw [← Layout.listingFrom_instructions, Program.instructions_eq_of_forall₂ hlines,
      Layout.listingFrom_instructions] at hsame
    exact Except.ok.inj (hsame.symm.trans hbuilt.listing)
  refine ⟨?_, hlisting, ?_⟩
  · rw [hbuilt'.bytes, hbuilt.bytes, hlisting]
  · rw [hbuilt'.labels, hbuilt.labels, hlabels]

theorem code_eq_of_sameInstructions_shadow : ∃ out out',
    assemble InstructionSet.table {} "nop\ntop = 9\ntop: top = top\njmp top ; again\n" = .ok out ∧
    assemble InstructionSet.table {} "nop\n\ntop: x = 0x1F\njmp top\n" = .ok out' ∧
    out.vars ≠ out'.vars ∧ out.bytes = [0, 1, 0x40, 2] ∧
    out'.bytes = out.bytes ∧ out'.listing = out.listing ∧ out'.labels = out.labels := by
  have h : assemble InstructionSet.table {} "nop\ntop = 9\ntop: top = top\njmp top ; again\n" = .ok
      { bytes := [0, 1, 0x40, 2]
        listing := [⟨1, 0, [0, 1], "nop"⟩, ⟨4, 2, [0x40, 2], "jmp top"⟩]
        labels := ⟨[("top", 2)], by decide⟩
        vars := ⟨[("top", 9)], by decide⟩ } := by
    decide +kernel
  have h' : assemble InstructionSet.table {} "nop\n\ntop: x = 0x1F\njmp top\n" = .ok
      { bytes := [0, 1, 0x40, 2]
        listing := [⟨1, 0, [0, 1], "nop"⟩, ⟨4, 2, [0x40, 2], "jmp top"⟩]
        labels := ⟨[("top", 2)], by decide⟩
        vars := ⟨[("x", 31)], by decide⟩ } := by
    decide +kernel
  have hp : Program.parse "nop\ntop = 9\ntop: top = top\njmp top ; again\n" = .ok
      [⟨1, none, some (.instruction "nop" []), "nop"⟩,
        ⟨2, none, some (.declaration "top" "9"), "top = 9"⟩,
        ⟨3, some "top", some (.declaration "top" "top"), "top: top = top"⟩,
        ⟨4, none, some (.instruction "jmp" ["top"]), "jmp top"⟩] := by
    decide +kernel
  have hp' : Program.parse "nop\n\ntop: x = 0x1F\njmp top\n" = .ok
      [⟨1, none, some (.instruction "nop" []), "nop"⟩, ⟨2, none, none, ""⟩,
        ⟨3, some "top", some (.declaration "x" "0x1F"), "top: x = 0x1F"⟩,
        ⟨4, none, some (.instruction "jmp" ["top"]), "jmp top"⟩] := by
    decide +kernel
  refine ⟨_, _, h, h', by decide +kernel, rfl, code_eq_of_sameInstructions hp hp' ?_ h h'⟩
  exact .cons ⟨rfl, rfl, fun _ => ⟨rfl, rfl⟩⟩ <| .cons ⟨rfl, rfl, by decide⟩ <|
    .cons ⟨rfl, rfl, by decide⟩ <| .cons ⟨rfl, rfl, fun _ => ⟨rfl, rfl⟩⟩ .nil

end Assembly

end EightBitAsm
