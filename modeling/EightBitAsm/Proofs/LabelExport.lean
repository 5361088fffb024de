import EightBitAsm.Assembly.Listing
import EightBitAsm.Proofs.Agreement
import EightBitAsm.Proofs.ByteOrder

/-! The labels by address. The labels are kept by name and sorted by address alone; the sort leaves
labels of one address as they stand, so that these come by name. The order is strict, and a list in
strict order is known from its members: where the labels were defined does not show. -/
namespace EightBitAsm

namespace Symbols

def Precedes (x y : String × UInt32) : Prop :=
  x.2 < y.2 ∨ x.2 = y.2 ∧ Text.bytes x.1 < Text.bytes y.1

variable {x y : String × UInt32} {es fs : List (String × UInt32)}

theorem Precedes.asymm (h : Precedes x y) : ¬ Precedes y x := by
  rintro (hlt | ⟨heq, hbytes⟩)
  · rcases h with h | ⟨h, -⟩
    · exact UInt32.lt_asymm h hlt
    · rw [h] at hlt
      exact UInt32.lt_irrefl _ hlt
  · rcases h with h | ⟨-, h⟩
    · rw [heq] at h
      exact UInt32.lt_irrefl _ h
    · exact List.lt_asymm h hbytes

theorem Precedes.ne (h : Precedes x y) : x ≠ y := by
  rintro rfl
  exact h.asymm h

theorem eq_of_mem_iff (hes : es.Pairwise Precedes) (hfs : fs.Pairwise Precedes)
    (h : ∀ e, e ∈ es ↔ e ∈ fs) : es = fs := by
  have hperm : es.Perm fs :=
    (List.perm_ext_iff_of_nodup (hes.imp Precedes.ne) (hfs.imp Precedes.ne)).mpr h
  refine hperm.eq_of_pairwise ?_ hes hfs
  intro x y _ _ hxy hyx
  exact absurd hyx hxy.asymm

/-- Entries that come by name are sorted by address and stay by name at each address. -/
theorem pairwise_mergeSort (h : es.Pairwise fun x y => x.1 < y.1) :
    (es.mergeSort fun x y => x.2 ≤ y.2).Pairwise Precedes := by
  have htrans : ∀ x y z : String × UInt32, decide (x.2 ≤ y.2) = true →
      decide (y.2 ≤ z.2) = true → decide (x.2 ≤ z.2) = true := by
    simp only [decide_eq_true_eq]
    intro x y z hxy hyz
    exact UInt32.le_trans hxy hyz
  have htotal : ∀ x y : String × UInt32, (decide (x.2 ≤ y.2) || decide (y.2 ≤ x.2)) = true := by
    simp only [Bool.or_eq_true, decide_eq_true_eq]
    intro x y
    exact UInt32.le_total x.2 y.2
  induction es with
  | nil => simp
  | cons e es ih =>
    obtain ⟨hnames, hes⟩ := List.pairwise_cons.mp h
    -- The first entry goes behind the smaller addresses and in front of all others, of which those
    -- with the same address have a larger name.
    obtain ⟨smaller, others, hsort, hrest, hsmaller⟩ := List.mergeSort_cons htrans htotal e es
    have hsorted := List.pairwise_mergeSort htrans htotal (e :: es)
    have htail := ih hes
    rw [hsort] at hsorted ⊢
    rw [hrest] at htail
    obtain ⟨-, hothers, -⟩ := List.pairwise_append.mp hsorted
    obtain ⟨hsmall, hlarge, hacross⟩ := List.pairwise_append.mp htail
    refine List.pairwise_append.mpr ⟨hsmall, List.pairwise_cons.mpr ⟨?_, hlarge⟩, ?_⟩
    · intro y hy
      have hle : e.2 ≤ y.2 := by simpa using (List.pairwise_cons.mp hothers).1 y hy
      have hmem : y ∈ es.mergeSort fun x y => x.2 ≤ y.2 := by
        rw [hrest]
        exact List.mem_append_right _ hy
      by_cases heq : e.2 = y.2
      · exact Or.inr ⟨heq, Text.lt_iff_bytes_lt.mp (hnames y (List.mem_mergeSort.mp hmem))⟩
      · exact Or.inl (UInt32.lt_of_le_of_ne hle heq)
    · intro x hx y hy
      rcases List.mem_cons.mp hy with rfl | hy
      · exact Or.inl (by simpa using hsmaller x hx)
      · exact hacross x hx y hy

end Symbols

namespace Assembly

variable {table : MnemonicTable} {widths : Widths} {lines : List Line} {out : Assembly}

theorem mem_labelsByAddress {name : String} {a : UInt32} :
    (name, a) ∈ out.labelsByAddress ↔ out.labels.find? name = some a := by
  rw [labelsByAddress, List.mem_mergeSort, NameMap.find?_eq_some_iff]

theorem nodup_labelsByAddress : (out.labelsByAddress.map Prod.fst).Nodup := by
  have hperm : out.labelsByAddress.Perm out.labels.entries := List.mergeSort_perm _ _
  rw [(hperm.map Prod.fst).nodup_iff, List.Nodup, List.pairwise_map]
  exact out.labels.pairwise_ne

theorem pairwise_labelsByAddress : out.labelsByAddress.Pairwise Symbols.Precedes :=
  Symbols.pairwise_mergeSort out.labels.sorted

structure Exported (table : MnemonicTable) (lines : List Line) (out : Assembly) : Prop where
  labels : ∀ name a, (name, a) ∈ out.labelsByAddress ↔ out.labels.find? name = some a
  defined : ∀ name a, (name, a) ∈ out.labelsByAddress ↔ Program.Defines table lines name a
  once : (out.labelsByAddress.map Prod.fst).Nodup
  ordered : out.labelsByAddress.Pairwise Symbols.Precedes

/-- The labels of every assembly come by address and then by name, and programs that define the same
labels at the same addresses have the same list of them, in whatever order they define them. -/
theorem exported_of_assemble {text : String} (h : assemble table widths text = .ok out) :
    ∃ lines, Program.parse text = .ok lines ∧ Exported table lines out ∧
      ∀ table' widths' text' lines' out', Program.parse text' = .ok lines' →
        assemble table' widths' text' = .ok out' →
        (∀ name a, Program.Defines table' lines' name a ↔ Program.Defines table lines name a) →
        out'.labelsByAddress = out.labelsByAddress := by
  obtain ⟨lines, hp, hbuilt⟩ := built_of_assemble h
  refine ⟨lines, hp, ⟨?_, ?_, nodup_labelsByAddress, pairwise_labelsByAddress⟩, ?_⟩
  · intro name a
    exact mem_labelsByAddress
  · intro name a
    rw [mem_labelsByAddress, hbuilt.find?_labels_iff]
  · intro table' widths' text' lines' out' hp' h' hsame
    obtain ⟨_, hparsed, hbuilt'⟩ := built_of_assemble h'
    cases hp'.symm.trans hparsed
    apply Symbols.eq_of_mem_iff pairwise_labelsByAddress pairwise_labelsByAddress
    rintro ⟨name, a⟩
    rw [mem_labelsByAddress, mem_labelsByAddress, hbuilt'.find?_labels_iff,
      hbuilt.find?_labels_iff, hsame]

/-- Labels that share an address, defined in both orders, and one that stands first by name and last
by address. -/
theorem exported_of_assemble_shared : ∃ out out',
    assemble InstructionSet.table {} "c:\nb: nop\na: nop\n" = .ok out ∧
    assemble InstructionSet.table {} "b:\nc: ret\na:\n" = .ok out' ∧
    out.labelsByAddress = [("b", 0), ("c", 0), ("a", 2)] ∧
    out'.labelsByAddress = out.labelsByAddress := by
  have h : assemble InstructionSet.table {} "c:\nb: nop\na: nop\n" = .ok
      { bytes := [0, 1, 0, 1]
        listing := [⟨2, 0, [0, 1], "b: nop"⟩, ⟨3, 2, [0, 1], "a: nop"⟩]
        labels := ⟨[("a", 2), ("b", 0), ("c", 0)], by decide⟩
        vars := .empty } := by
    decide +kernel
  have h' : assemble InstructionSet.table {} "b:\nc: ret\na:\n" = .ok
      { bytes := [0, 2]
        listing := [⟨2, 0, [0, 2], "c: ret"⟩]
        labels := ⟨[("a", 2), ("b", 0), ("c", 0)], by decide⟩
        vars := .empty } := by
    decide +kernel
  obtain ⟨lines, hp, hexported, hsame⟩ := exported_of_assemble h
  obtain ⟨_, hp', hbuilt'⟩ := built_of_assemble h'
  refine ⟨_, _, h, h', ?_, hsame _ _ _ _ _ hp' h' ?_⟩
  · simp [labelsByAddress, List.mergeSort, List.MergeSort.Internal.splitInTwo]
  · intro name a
    rw [← hbuilt'.find?_labels_iff, ← hexported.defined, hexported.labels]

end Assembly

end EightBitAsm
