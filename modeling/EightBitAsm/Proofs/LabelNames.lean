import EightBitAsm.Proofs.LineGrammar
import EightBitAsm.Proofs.Retargeting

/-! What the name of a label means: its address and nothing else. A label that is a far address can
be written as a literal wherever it is a target, and labels can be renamed as long as different ones
stay different. Registers, variables and mnemonics of the same spelling are not concerned. -/
namespace EightBitAsm

namespace Identifier

theorem ne_empty_of_isValid {name : String} (h : isValid name = true) : name ≠ "" := by
  rintro rfl
  cases h

theorem startsWithDigit_of_isValid {name : String} (h : isValid name = true) :
    Text.startsWithDigit name = false := by
  unfold isValid isValidChars at h
  unfold Text.startsWithDigit
  split at h
  · cases h
  · next hname =>
    rw [Bool.and_eq_true, Bool.not_eq_true'] at h
    simpa [hname] using h.1

end Identifier

theorem Scope.resolve_eq_ok_of_isValid {scope : Scope} {domain : Domain} {name : String}
    (hname : Identifier.isValid name = true) {target : Target} :
    scope.resolve domain name = .ok target ↔ ∃ address,
      scope.find domain name = .ok (some address) ∧ .symbol domain name address = target := by
  simp [resolve_eq_ok_iff, Identifier.startsWithDigit_of_isValid hname,
    Identifier.ne_empty_of_isValid hname]

theorem Program.isValid_of_mem_labelNames {text : String} {lines : List Line}
    (hp : parse text = .ok lines) :
    ∀ name ∈ labelNames lines, Identifier.isValid name = true := by
  intro name hname
  obtain ⟨line, hline, hl⟩ := mem_labelNames.mp hname
  exact isValid_label_of_parse hp hline hl

theorem Symbols.eq_of_renamed_id {m n : Symbols} (h : Renamed id m n) : n = m := by
  apply NameMap.ext_find?
  intro name
  apply Option.ext
  intro address
  rw [h name address]
  simp

def Symbols.NameOrLiteral (labels : Symbols) (widths : Widths) (text text' : String) : Prop :=
  text' = text ∨ ∃ address, labels.find? text = some address ∧
    address.toNat ≤ widths.max .far ∧ Text.startsWithDigit text' = true ∧
    Literal.read text' = .ok address

def Program.NewName (rename : String → String) (lines : List Line) (text text' : String) : Prop :=
  text' = if text ∈ labelNames lines then rename text else text

variable {table : MnemonicTable} {widths : Widths}

namespace Scope

theorem sizing_translates_nameOrLiteral (labels : Symbols) (n : Nat) (vars : Symbols) :
    (sizing n widths vars).Translates (labels.NameOrLiteral widths) (fun _ _ => True)
      (sizing n widths vars) := by
  rintro text text' target (rfl | ⟨address, _, hle, hd, hread⟩) h
  · exact ⟨target, h, trivial⟩
  · exact ⟨.literal address, resolve_eq_ok_iff.mpr (Or.inl ⟨hd, address, hread, hle, rfl⟩), trivial⟩

theorem ofSymbols_translates_nameOrLiteral {labels : Symbols}
    (hvalid : ∀ name address, labels.find? name = some address → Identifier.isValid name = true)
    (n : Nat) (vars : Symbols) :
    (ofSymbols n widths labels vars).Translates (labels.NameOrLiteral widths) Eq
      (ofSymbols n widths labels vars) := by
  rintro text text' target (rfl | ⟨address, hfind, hle, hd, hread⟩) h
  · exact ⟨target, h, rfl⟩
  · obtain ⟨found, hfound, rfl⟩ := (resolve_eq_ok_of_isValid (hvalid text address hfind)).mp h
    have hsame : found = address := Option.some.inj ((Except.ok.inj hfound).symm.trans hfind)
    refine ⟨.literal address, ?_, hsame⟩
    exact resolve_eq_ok_iff.mpr (Or.inl ⟨hd, address, hread, hle, rfl⟩)

variable {rename : String → String} {lines : List Line}

theorem sizing_translates_newName
    (hvalid : ∀ name ∈ Program.labelNames lines, Identifier.isValid (rename name) = true) (n : Nat)
    (vars : Symbols) :
    (sizing n widths vars).Translates (Program.NewName rename lines) (fun _ _ => True)
      (sizing n widths vars) := by
  rintro text text' target hnew h
  by_cases hlabel : text ∈ Program.labelNames lines
  · rw [Program.NewName, if_pos hlabel] at hnew
    subst hnew
    refine ⟨.symbol .far (rename text) 0, ?_, trivial⟩
    exact (resolve_eq_ok_of_isValid (hvalid text hlabel)).mpr ⟨0, rfl, rfl⟩
  · rw [Program.NewName, if_neg hlabel] at hnew
    subst hnew
    exact ⟨target, h, trivial⟩

theorem ofSymbols_translates_newName {labels labels' : Symbols}
    (hlabels : ∀ name address, labels.find? name = some address → name ∈ Program.labelNames lines)
    (hold : ∀ name ∈ Program.labelNames lines, Identifier.isValid name = true)
    (hvalid : ∀ name ∈ Program.labelNames lines, Identifier.isValid (rename name) = true)
    (hrenamed : Symbols.Renamed rename labels labels') (n : Nat) (vars : Symbols) :
    (ofSymbols n widths labels vars).Translates (Program.NewName rename lines) Eq
      (ofSymbols n widths labels' vars) := by
  rintro text text' target hnew h
  by_cases hlabel : text ∈ Program.labelNames lines
  · rw [Program.NewName, if_pos hlabel] at hnew
    subst hnew
    obtain ⟨address, hfind, rfl⟩ := (resolve_eq_ok_of_isValid (hold text hlabel)).mp h
    have hfind' : labels'.find? (rename text) = some address :=
      (hrenamed _ address).mpr ⟨text, rfl, Except.ok.inj hfind⟩
    refine ⟨.symbol .far (rename text) address, ?_, rfl⟩
    exact (resolve_eq_ok_of_isValid (hvalid text hlabel)).mpr ⟨address, congrArg _ hfind', rfl⟩
  · rw [Program.NewName, if_neg hlabel] at hnew
    subst hnew
    -- A target that resolves and is no label is a literal.
    rcases resolve_eq_ok_iff.mp h with ⟨hd, address, hread, hle, rfl⟩ | ⟨_, _, address, hfind, _⟩
    · exact ⟨_, resolve_eq_ok_iff.mpr (Or.inl ⟨hd, address, hread, hle, rfl⟩), rfl⟩
    · exact absurd (hlabels _ address (Except.ok.inj hfind)) hlabel

end Scope

namespace Assembly

variable {text text' : String} {lines lines' : List Line} {out : Assembly}

theorem Built.mem_labelNames (h : Built table widths lines out) (name : String) (address : UInt32)
    (hfind : out.labels.find? name = some address) : name ∈ Program.labelNames lines := by
  rw [h.labels] at hfind
  exact Layout.mem_labelNames_of_find? hfind

theorem assemble_of_parse (hp : Program.parse text = .ok lines) :
    assemble table widths text = ofLines table widths lines := by
  rw [assemble, hp]

/-- A label and its address are interchangeable: a program in which any targets that are labels are
replaced by literals for their addresses assembles to the same image, with the same labels. -/
theorem assemble_of_literal_targets (h : assemble table widths text = .ok out)
    (hp : Program.parse text = .ok lines) (hp' : Program.parse text' = .ok lines')
    (hlines : List.Forall₂ (Line.Retargets table id (out.labels.NameOrLiteral widths))
      lines lines') :
    ∃ out', assemble table widths text' = .ok out' ∧ out.SameImage out' ∧
      out'.labels = out.labels := by
  rw [assemble_of_parse hp] at h
  rw [assemble_of_parse hp']
  have hbuilt := ofLines_eq_ok_iff.mp h
  have hvalid : ∀ name address, out.labels.find? name = some address →
      Identifier.isValid name = true := by
    intro name address hfind
    exact Program.isValid_of_mem_labelNames hp name (hbuilt.mem_labelNames name address hfind)
  have hfinal : ∀ labels, Symbols.Renamed id out.labels labels → ∀ n vars,
      (Scope.ofSymbols n widths out.labels vars).Translates (out.labels.NameOrLiteral widths) Eq
        (.ofSymbols n widths labels vars) := by
    intro labels hlabels n vars
    rw [Symbols.eq_of_renamed_id hlabels]
    exact Scope.ofSymbols_translates_nameOrLiteral hvalid n vars
  obtain ⟨out', hout', himage, hlabels⟩ := ofLines_of_retargets hlines (Set.injOn_id _)
    (Scope.sizing_translates_nameOrLiteral out.labels) hfinal h
  exact ⟨out', hout', himage, Symbols.eq_of_renamed_id hlabels⟩

theorem assemble_of_literal_targets_spellings : ∃ out out',
    assemble InstructionSet.table {}
      "a: djrnz R3, z\nint z\nnop\nnop\nnop\nnop\nz: jz a\njc z\n" = .ok out ∧
    assemble InstructionSet.table {}
      "a: djrnz R3, 0x00B\nint 0xb\nnop\nnop\nnop\nnop\nz: jz 0b000\njc z\n" = .ok out' ∧
    out.bytes = [0xE0, 11, 0x48, 0, 1, 0, 1, 0, 1, 0, 1, 0x30, 0, 0x38, 11] ∧
    out.SameImage out' ∧ out'.labels = out.labels := by
  have h : assemble InstructionSet.table {}
      "a: djrnz R3, z\nint z\nnop\nnop\nnop\nnop\nz: jz a\njc z\n" = .ok
      { bytes := [0xE0, 11, 0x48, 0, 1, 0, 1, 0, 1, 0, 1, 0x30, 0, 0x38, 11]
        listing := [⟨1, 0, [0xE0, 11], "a: djrnz R3, z"⟩, ⟨2, 2, [0x48], "int z"⟩,
          ⟨3, 3, [0, 1], "nop"⟩, ⟨4, 5, [0, 1], "nop"⟩, ⟨5, 7, [0, 1], "nop"⟩,
          ⟨6, 9, [0, 1], "nop"⟩, ⟨7, 11, [0x30, 0], "z: jz a"⟩, ⟨8, 13, [0x38, 11], "jc z"⟩]
        labels := ⟨[("a", 0), ("z", 11)], by decide⟩
        vars := .empty } := by
    decide +kernel
  have hp : Program.parse "a: djrnz R3, z\nint z\nnop\nnop\nnop\nnop\nz: jz a\njc z\n" = .ok
      [⟨1, some "a", some (.instruction "djrnz" ["R3", "z"]), "a: djrnz R3, z"⟩,
        ⟨2, none, some (.instruction "int" ["z"]), "int z"⟩,
        ⟨3, none, some (.instruction "nop" []), "nop"⟩,
        ⟨4, none, some (.instruction "nop" []), "nop"⟩,
        ⟨5, none, some (.instruction "nop" []), "nop"⟩,
        ⟨6, none, some (.instruction "nop" []), "nop"⟩,
        ⟨7, some "z", some (.instruction "jz" ["a"]), "z: jz a"⟩,
        ⟨8, none, some (.instruction "jc" ["z"]), "jc z"⟩] := by
    decide +kernel
  have hp' : Program.parse
      "a: djrnz R3, 0x00B\nint 0xb\nnop\nnop\nnop\nnop\nz: jz 0b000\njc z\n" = .ok
      [⟨1, some "a", some (.instruction "djrnz" ["R3", "0x00B"]), "a: djrnz R3, 0x00B"⟩,
        ⟨2, none, some (.instruction "int" ["0xb"]), "int 0xb"⟩,
        ⟨3, none, some (.instruction "nop" []), "nop"⟩,
        ⟨4, none, some (.instruction "nop" []), "nop"⟩,
        ⟨5, none, some (.instruction "nop" []), "nop"⟩,
        ⟨6, none, some (.instruction "nop" []), "nop"⟩,
        ⟨7, some "z", some (.instruction "jz" ["0b000"]), "z: jz 0b000"⟩,
        ⟨8, none, some (.instruction "jc" ["z"]), "jc z"⟩] := by
    decide +kernel
  obtain ⟨hcycle, hint, hnop, hz, hc⟩ :
      InstructionSet.table.target? "djrnz" ["R3", "z"] = some "z" ∧
      InstructionSet.table.target? "int" ["z"] = some "z" ∧
      InstructionSet.table.target? "nop" [] = none ∧
      InstructionSet.table.target? "jz" ["a"] = some "a" ∧
      InstructionSet.table.target? "jc" ["z"] = some "z" := by
    decide +kernel
  obtain ⟨out', hout', himage, hlabels⟩ := assemble_of_literal_targets h hp hp'
    (.cons ⟨rfl, rfl, .some (.target ["R3"] hcycle (Or.inr ⟨11, by decide +kernel⟩))⟩ <|
      .cons ⟨rfl, rfl, .some (.target [] hint (Or.inr ⟨11, by decide +kernel⟩))⟩ <|
      .cons ⟨rfl, rfl, .some (.targetless hnop)⟩ <| .cons ⟨rfl, rfl, .some (.targetless hnop)⟩ <|
      .cons ⟨rfl, rfl, .some (.targetless hnop)⟩ <| .cons ⟨rfl, rfl, .some (.targetless hnop)⟩ <|
      .cons ⟨rfl, rfl, .some (.target [] hz (Or.inr ⟨0, by decide +kernel⟩))⟩ <|
      .cons ⟨rfl, rfl, .some (.target [] hc (Or.inl rfl))⟩ .nil)
  exact ⟨_, out', h, hout', rfl, himage, hlabels⟩

/-- Names of labels carry no meaning: a program with its labels renamed, where they are defined and
where they are targets, assembles to the same image, and each label has its old address under its
new name. -/
theorem assemble_of_renamed_labels (rename : String → String)
    (h : assemble table widths text = .ok out) (hp : Program.parse text = .ok lines)
    (hp' : Program.parse text' = .ok lines')
    (hinj : Set.InjOn rename {name | name ∈ Program.labelNames lines})
    (hvalid : ∀ name ∈ Program.labelNames lines, Identifier.isValid (rename name) = true)
    (hlines : List.Forall₂ (Line.Retargets table rename (Program.NewName rename lines))
      lines lines') :
    ∃ out', assemble table widths text' = .ok out' ∧ out.SameImage out' ∧
      Symbols.Renamed rename out.labels out'.labels := by
  rw [assemble_of_parse hp] at h
  rw [assemble_of_parse hp']
  have hbuilt := ofLines_eq_ok_iff.mp h
  refine ofLines_of_retargets hlines hinj (Scope.sizing_translates_newName hvalid) ?_ h
  intro labels hrenamed n vars
  exact Scope.ofSymbols_translates_newName hbuilt.mem_labelNames
    (Program.isValid_of_mem_labelNames hp) hvalid hrenamed n vars

/-- Three labels change names in a circle. One is spelled like a register, one like a mnemonic and
one like a variable, and none of these follows. -/
theorem assemble_of_renamed_labels_circle : ∃ out out',
    assemble InstructionSet.table {} "v = 7\nR1: djrnz R1, v\njmp: jmp jmp\nv: call R1\nx = v\n" =
      .ok out ∧
    assemble InstructionSet.table {} "v = 7\njmp: djrnz R1, R1\nv: jmp v\nR1: call jmp\nx = v\n" =
      .ok out' ∧
    out.bytes = [0xA0, 4, 0x40, 2, 0x44, 0] ∧ out.SameImage out' ∧
    Symbols.Renamed (fun name => if name = "R1" then "jmp" else if name = "jmp" then "v" else "R1")
      out.labels out'.labels := by
  have h : assemble InstructionSet.table {}
      "v = 7\nR1: djrnz R1, v\njmp: jmp jmp\nv: call R1\nx = v\n" = .ok
      { bytes := [0xA0, 4, 0x40, 2, 0x44, 0]
        listing := [⟨2, 0, [0xA0, 4], "R1: djrnz R1, v"⟩, ⟨3, 2, [0x40, 2], "jmp: jmp jmp"⟩,
          ⟨4, 4, [0x44, 0], "v: call R1"⟩]
        labels := ⟨[("R1", 0), ("jmp", 2), ("v", 4)], by decide⟩
        vars := ⟨[("v", 7), ("x", 7)], by decide⟩ } := by
    decide +kernel
  have hp : Program.parse "v = 7\nR1: djrnz R1, v\njmp: jmp jmp\nv: call R1\nx = v\n" = .ok
      [⟨1, none, some (.declaration "v" "7"), "v = 7"⟩,
        ⟨2, some "R1", some (.instruction "djrnz" ["R1", "v"]), "R1: djrnz R1, v"⟩,
        ⟨3, some "jmp", some (.instruction "jmp" ["jmp"]), "jmp: jmp jmp"⟩,
        ⟨4, some "v", some (.instruction "call" ["R1"]), "v: call R1"⟩,
        ⟨5, none, some (.declaration "x" "v"), "x = v"⟩] := by
    decide +kernel
  have hp' : Program.parse "v = 7\njmp: djrnz R1, R1\nv: jmp v\nR1: call jmp\nx = v\n" = .ok
      [⟨1, none, some (.declaration "v" "7"), "v = 7"⟩,
        ⟨2, some "jmp", some (.instruction "djrnz" ["R1", "R1"]), "jmp: djrnz R1, R1"⟩,
        ⟨3, some "v", some (.instruction "jmp" ["v"]), "v: jmp v"⟩,
        ⟨4, some "R1", some (.instruction "call" ["jmp"]), "R1: call jmp"⟩,
        ⟨5, none, some (.declaration "x" "v"), "x = v"⟩] := by
    decide +kernel
  let rename : String → String := fun name =>
    if name = "R1" then "jmp" else if name = "jmp" then "v" else "R1"
  obtain ⟨hcycle, hjump, hcall⟩ :
      InstructionSet.table.target? "djrnz" ["R1", "v"] = some "v" ∧
      InstructionSet.table.target? "jmp" ["jmp"] = some "jmp" ∧
      InstructionSet.table.target? "call" ["R1"] = some "R1" := by
    decide +kernel
  obtain ⟨out', hout', himage, hlabels⟩ := assemble_of_renamed_labels rename h hp hp'
    (by simp [Set.InjOn, Program.labelNames, rename]) (by decide +kernel)
    (.cons ⟨rfl, rfl, .some (.declaration "v" "7")⟩ <|
      .cons ⟨rfl, rfl, .some (.target ["R1"] hcycle rfl)⟩ <|
      .cons ⟨rfl, rfl, .some (.target [] hjump rfl)⟩ <|
      .cons ⟨rfl, rfl, .some (.target [] hcall rfl)⟩ <|
      .cons ⟨rfl, rfl, .some (.declaration "x" "v")⟩ .nil)
  exact ⟨_, out', h, hout', rfl, himage, hlabels⟩

end Assembly

end EightBitAsm
