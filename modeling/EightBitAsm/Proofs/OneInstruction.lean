import EightBitAsm.CommandLine.Tree
import EightBitAsm.Proofs.Agreement
import EightBitAsm.Proofs.EncoderCommand
import EightBitAsm.Proofs.LineGrammar
import EightBitAsm.Proofs.ScopeChange

/-! Instructions one by one. What an instruction line of an assembled program becomes is what its
instruction becomes alone, in a session or on the command line of the encoder, given the labels and
the widths of the program. -/
namespace EightBitAsm

open CommandLine

namespace Layout

theorem encode_of_lists {table : MnemonicTable} {widths : Widths} {layout : Layout} {line : Line}
    {entry : ListingLine} (h : layout.Lists table widths line entry) {mnemonic : String}
    {operands : List String} (hs : line.statement = some (.instruction mnemonic operands)) :
    ∃ e, table.encode mnemonic operands (layout.finalScope widths line) = .ok e ∧
      e.bytes = entry.bytes := by
  obtain ⟨o, ho, hbytes⟩ := h.bytes
  obtain ⟨m, ops, i, r, p, hs', hi, hr, hp, rfl⟩ := Line.operation?_eq_some_iff.mp ho
  cases hs.symm.trans hs'
  refine ⟨i.emission widths.farBits p, ?_, hbytes.symm⟩
  exact MnemonicTable.encode_eq_ok_iff.mpr ⟨i, r, p, hi, hr, hp, rfl⟩

end Layout

namespace Assembly

/-- An instruction line of an assembled program, encoded alone. A session with the widths and the
labels of the program adds the bytes of the line to its buffer. The encoder, given the same widths
and every label with its address in some spelling, prints these bytes, two digits each. -/
theorem encoded_alone {widths : Widths} {text : String} {out : Assembly} {lines : List Line}
    {line : Line} {mnemonic : String} {operands : List String}
    (h : assemble InstructionSet.table widths text = .ok out)
    (hp : Program.parse text = .ok lines) (hline : line ∈ lines)
    (hs : line.statement = some (.instruction mnemonic operands)) :
    ∃ entry, out.listing.filter (fun e => e.line = line.number) = [entry] ∧
      (∀ s : Session, s.widths = widths → s.labels = out.labels → ∃ e,
        s.encode InstructionSet.table mnemonic operands =
          ({ s with bytes := s.bytes ++ entry.bytes }, .ok e)) ∧
      ∀ {φ : Type} (fs : FileSystem φ) (files : φ) (config : Option String)
        (spelling : String → String) (given : List (String × String)),
        fs.Configured files config widths →
        (∀ name address, out.labels.find? name = some address →
          Literal.Spells address (spelling name)) →
        given.Perm (Encoder.options config
          (out.labels.names.map fun name => name ++ "=" ++ spelling name)) →
        Encoder.run fs (given.map (fun o => optionToken o.1 o.2) ++ "--" :: mnemonic :: operands)
            files =
          { exit := .success
            output := Text.joinWith " " (entry.bytes.map fun b => String.ofList
              [Nat.digitChar (b.toNat / 16), Nat.digitChar (b.toNat % 16)]) ++ "\n"
            errors := ""
            files } := by
  obtain ⟨lines', hp', hbuilt⟩ := built_of_assemble h
  cases hp.symm.trans hp'
  have hi : line.isInstruction = true := Line.isInstruction_iff.mpr ⟨_, _, hs⟩
  obtain ⟨entry, hentry, hlists⟩ :=
    hbuilt.entry_of_line (Program.pairwise_number_of_parse hp) hline hi
  obtain ⟨e, he, hbytes⟩ := Layout.encode_of_lists hlists hs
  rw [Layout.finalScope, ← hbuilt.labels] at he
  -- The code is the same for every line and all variables.
  have hanywhere : ∀ n vars, InstructionSet.table.encode mnemonic operands
      (.ofSymbols n widths out.labels vars) = .ok e :=
    fun n vars => MnemonicTable.encode_of_carries (Scope.carries_ofSymbols rfl _ n _ _ vars) he
  refine ⟨entry, hentry, ?_, ?_⟩
  · rintro s rfl hlabels
    have hscope : InstructionSet.table.encode mnemonic operands s.scope = .ok e := by
      rw [Session.scope, hlabels]
      exact hanywhere s.line s.vars
    refine ⟨e, ?_⟩
    rw [Session.encode_eq, hscope, ← hbytes]
  · intro φ fs files config spelling given hconfig hspelling hgiven
    have hvalid : ∀ name ∈ out.labels.names, Identifier.isValid name = true := by
      intro name hname
      obtain ⟨l, hl, hlabel⟩ := hbuilt.mem_labels_iff.mp hname
      exact Program.isValid_label_of_parse hp hl hlabel
    have hrun := Encoder.run_eq_success hconfig hvalid hspelling hgiven (hanywhere 1 .empty)
    rw [hrun, Encoder.hexLine, hbytes]
    simp only [Text.hex_two]

/-- A branch to a label that looks like the end of the options, with widths from a file and labels
in three radices. -/
theorem encoded_alone_dashes : ∃ (tree : Tree) (files : Files) (out : Assembly),
    tree.fileSystem.Configured files (some "w.json") ⟨8, 12⟩ ∧
    assemble InstructionSet.table ⟨8, 12⟩ "nop\n--: int 0\nloop: djrnz R1, loop\nJC --\nend:\n" =
      .ok out ∧
    (∀ s : Session, s.widths = ⟨8, 12⟩ → s.labels = out.labels → ∃ e,
      s.encode InstructionSet.table "jc" ["--"] =
        ({ s with bytes := s.bytes ++ [0x38, 2] }, .ok e)) ∧
    Encoder.run tree.fileSystem ["--label=loop=0b11", "--config=w.json", "--label=--=2",
      "--label=end=0x7", "--", "jc", "--"] files = ⟨.success, "38 02\n", "", files⟩ := by
  let tree : Tree := { home := ["w"], isFolder := fun place => place.isEmpty || place = ["w"] }
  let files : Files := NameMap.ofList [("/w/w.json", encodeText "\x7b\"far_bits\": 12\x7d")]
  let spelling : String → String := fun name =>
    if name = "loop" then "0b11" else if name = "end" then "0x7" else "2"
  have h : assemble InstructionSet.table ⟨8, 12⟩
      "nop\n--: int 0\nloop: djrnz R1, loop\nJC --\nend:\n" = .ok
      { bytes := [0, 1, 0x48, 0xA0, 3, 0x38, 2]
        listing := [⟨1, 0, [0, 1], "nop"⟩, ⟨2, 2, [0x48], "--: int 0"⟩,
          ⟨3, 3, [0xA0, 3], "loop: djrnz R1, loop"⟩, ⟨4, 5, [0x38, 2], "JC --"⟩]
        labels := ⟨[("--", 2), ("end", 7), ("loop", 3)], by decide⟩
        vars := .empty } := by
    decide +kernel
  have hp : Program.parse "nop\n--: int 0\nloop: djrnz R1, loop\nJC --\nend:\n" = .ok
      [⟨1, none, some (.instruction "nop" []), "nop"⟩,
        ⟨2, some "--", some (.instruction "int" ["0"]), "--: int 0"⟩,
        ⟨3, some "loop", some (.instruction "djrnz" ["R1", "loop"]), "loop: djrnz R1, loop"⟩,
        ⟨4, none, some (.instruction "jc" ["--"]), "JC --"⟩, ⟨5, some "end", none, "end:"⟩] := by
    decide +kernel
  have hconfig : tree.fileSystem.Configured files (some "w.json") ⟨8, 12⟩ :=
    .file ⟨_, by decide +kernel, decodeText_encodeText "\x7b\"far_bits\": 12\x7d"⟩
      (by decide +kernel)
  obtain ⟨entry, hentry, hsession, hrun⟩ := encoded_alone h hp
    (List.mem_of_getElem? (i := 3) rfl) rfl
  have hbytes : entry = ⟨4, 5, [0x38, 2], "JC --"⟩ := (List.cons.inj hentry).1.symm
  subst hbytes
  refine ⟨tree, files, _, hconfig, h, hsession, ?_⟩
  refine hrun tree.fileSystem files (some "w.json") spelling
    [("label", "loop=0b11"), ("config", "w.json"), ("label", "--=2"), ("label", "end=0x7")]
    hconfig ?_ (by decide +kernel)
  intro name address hfind
  have hmem := NameMap.find?_eq_some_iff.mp hfind
  rcases List.mem_cons.mp hmem with heq | hmem
  · cases heq
    exact Literal.spells_spell .decimal 2
  · rcases List.mem_cons.mp hmem with heq | hmem
    · cases heq
      exact Literal.spells_spell .hexadecimal 7
    · cases List.mem_singleton.mp hmem
      exact Literal.spells_spell .binary 3

end Assembly

end EightBitAsm
