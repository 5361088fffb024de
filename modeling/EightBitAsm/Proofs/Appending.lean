import EightBitAsm.Proofs.Agreement
import EightBitAsm.Proofs.ScopeChange
import EightBitAsm.Proofs.TextCuts

/-! Source behind source. Lines added at the end of a program get the numbers after its own, cannot
define its labels again, and come behind its bytes. So where both the program and the longer one
assemble, the image, the listing and the labels of the first are the start of those of the
second. -/
namespace EightBitAsm

namespace Program

theorem parse_append {a b : String} {lines all : List Line} (ha : parse a = .ok lines)
    (hab : parse (a ++ "\n" ++ b) = .ok all) : ∃ more, all = lines ++ more := by
  obtain ⟨first, rest, htext, hsame⟩ := Text.lines_append a.toList b.toList
  -- The last line may have lost a carriage return, but not in its code.
  have hcode : List.Forall₂ (fun x y => Line.code x = Line.code y) (Text.lines a.toList) first := by
    refine hsame.imp fun x y hxy => ?_
    rcases hxy with rfl | rfl
    · rfl
    · exact (Line.code_dropReturn x).symm
  have htoList : (a ++ "\n" ++ b).toList = a.toList ++ '\n' :: b.toList := by simp
  rw [parse, htoList, htext, parseLines_append, ← parseLines_congr hcode] at hab
  obtain ⟨lines', hlines', hab⟩ := bind_eq_ok_iff.mp hab
  obtain ⟨more, _, hab⟩ := bind_eq_ok_iff.mp hab
  cases ha.symm.trans hlines'
  exact ⟨more, (Except.ok.inj hab).symm⟩

end Program

namespace Layout

variable {table : MnemonicTable} {widths : Widths}

theorem find?_labels_append {lines more : List Line}
    (hclean : Faultless (Program.Misplaced table widths) (lines ++ more)) {name : String}
    {address : UInt32} (h : (after table widths lines).labels.find? name = some address) :
    (after table widths (lines ++ more)).labels.find? name = some address := by
  have hmore := Program.not_mem_labelNames_of_faultless hclean (mem_labelNames_of_find? h)
  rw [after_append, find?_labels_foldl_extend _ hmore, h]

theorem listingFrom_append {layout : Layout} {start : Nat} {lines more : List Line}
    {listing : List ListingLine}
    (h : layout.listingFrom table widths start (lines ++ more) = .ok listing) :
    ∃ first, layout.listingFrom table widths start lines = .ok first ∧ first <+: listing := by
  induction lines generalizing start listing with
  | nil => exact ⟨[], rfl, List.nil_prefix⟩
  | cons line lines ih =>
    rw [List.cons_append] at h
    rcases listingFrom_cons_eq_ok h with ⟨hi, h⟩ | ⟨mnemonic, operands, e, rest, hs, he, hrest, rfl⟩
    · rw [listingFrom_cons_of_not_isInstruction hi]
      exact ih h
    · obtain ⟨first, hfirst, hprefix⟩ := ih hrest
      refine ⟨_ :: first, ?_, List.cons_prefix_cons.mpr ⟨rfl, hprefix⟩⟩
      rw [listingFrom_cons_of_statement hs, he]
      exact bind_eq_ok_iff.mpr ⟨first, hfirst, rfl⟩

end Layout

namespace Assembly

variable {table : MnemonicTable} {widths : Widths}

theorem Built.listing_prefix {lines more : List Line} {x y : Assembly}
    (hx : Built table widths lines x) (hy : Built table widths (lines ++ more) y) :
    x.listing <+: y.listing := by
  -- Every name that a line of the program uses is a label of its own, so no later one is taken.
  have hscopes : ∀ line, ((Layout.after table widths lines).finalScope widths line).Carries
      ((Layout.after table widths (lines ++ more)).finalScope widths line) := by
    intro line
    refine Scope.carries_of_find rfl ?_
    intro name address hfind
    have hlabel := Layout.find?_labels_append hy.faultless (Except.ok.inj hfind)
    exact congrArg Except.ok hlabel
  obtain ⟨first, hfirst, hprefix⟩ := Layout.listingFrom_append hy.listing
  have hsame := Layout.listingFrom_of_carries hscopes hx.listing
  cases hfirst.symm.trans hsame
  exact hprefix

/-- Appending source keeps what is assembled: the bytes and the listing stay in front, and the
labels keep their addresses. -/
theorem prefix_of_assemble_append {a b : String} {x y : Assembly}
    (hx : assemble table widths a = .ok x) (hy : assemble table widths (a ++ "\n" ++ b) = .ok y) :
    x.bytes <+: y.bytes ∧ x.listing <+: y.listing ∧
      ∀ name address, x.labels.find? name = some address →
        y.labels.find? name = some address := by
  obtain ⟨lines, hlines, hbx⟩ := built_of_assemble hx
  obtain ⟨all, hall, hby⟩ := built_of_assemble hy
  obtain ⟨more, rfl⟩ := Program.parse_append hlines hall
  have hlisting := hbx.listing_prefix hby
  refine ⟨?_, hlisting, ?_⟩
  · obtain ⟨later, hlater⟩ := hlisting
    rw [hbx.bytes, hby.bytes, ← hlater, List.flatMap_append]
    exact List.prefix_append _ _
  · intro name address hfind
    rw [hbx.labels] at hfind
    rw [hby.labels]
    exact Layout.find?_labels_append hby.faultless hfind

/-- A program that ends inside a comment with a carriage return, and one behind it that declares its
variable anew and jumps back into it. -/
theorem prefix_of_assemble_append_jump_back : ∃ x y,
    assemble InstructionSet.table {} "v = 1\nnop\ntop: jmp top ; again\r" = .ok x ∧
    assemble InstructionSet.table {}
      ("v = 1\nnop\ntop: jmp top ; again\r" ++ "\n" ++ "v = 2\njz top") = .ok y ∧
    y.bytes = [0, 1, 0x40, 2, 0x30, 2] ∧ x.bytes <+: y.bytes ∧ x.listing <+: y.listing ∧
      ∀ name address, x.labels.find? name = some address →
        y.labels.find? name = some address := by
  have hx : assemble InstructionSet.table {} "v = 1\nnop\ntop: jmp top ; again\r" = .ok
      { bytes := [0, 1, 0x40, 2]
        listing := [⟨2, 0, [0, 1], "nop"⟩, ⟨3, 2, [0x40, 2], "top: jmp top"⟩]
        labels := ⟨[("top", 2)], by decide⟩
        vars := ⟨[("v", 1)], by decide⟩ } := by
    decide +kernel
  have hy : assemble InstructionSet.table {}
      ("v = 1\nnop\ntop: jmp top ; again\r" ++ "\n" ++ "v = 2\njz top") = .ok
      { bytes := [0, 1, 0x40, 2, 0x30, 2]
        listing := [⟨2, 0, [0, 1], "nop"⟩, ⟨3, 2, [0x40, 2], "top: jmp top"⟩,
          ⟨5, 4, [0x30, 2], "jz top"⟩]
        labels := ⟨[("top", 2)], by decide⟩
        vars := ⟨[("v", 2)], by decide⟩ } := by
    decide +kernel
  exact ⟨_, _, hx, hy, rfl, prefix_of_assemble_append hx hy⟩

end Assembly

end EightBitAsm
