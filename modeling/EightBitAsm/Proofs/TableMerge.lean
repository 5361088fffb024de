import EightBitAsm.Proofs.ByteOrder
import EightBitAsm.Proofs.InstructionSet
import EightBitAsm.Proofs.Scan
import EightBitAsm.Proofs.TextParts

/-! Merging families into one table. The instructions are added one after the other, and the first
whose mnemonic is taken ends the merge. Without such an instruction the table holds all of them and
nothing else, so that neither the order of the families nor the order inside them can be seen. -/
namespace EightBitAsm

namespace NameMap

variable {α : Type}

theorem insertEntry_perm {name : String} (value : α) {es : List (String × α)}
    (h : ∀ e ∈ es, e.1 ≠ name) : (insertEntry name value es).Perm ((name, value) :: es) := by
  induction es with
  | nil => exact .refl _
  | cons e es ih =>
    have hne : name ≠ e.1 := (h e List.mem_cons_self).symm
    rw [insertEntry, if_neg hne]
    split
    · exact .refl _
    · have hes := ih fun d hd => h d (List.mem_cons_of_mem e hd)
      exact (hes.cons e).trans (.swap (name, value) e es)

theorem entries_insert_perm {m : NameMap α} {name : String} (value : α)
    (h : m.find? name = none) :
    (m.insert name value).entries.Perm ((name, value) :: m.entries) := by
  apply insertEntry_perm
  rintro ⟨other, v⟩ he rfl
  rw [find?_eq_some_iff.mpr he] at h
  cases h

end NameMap

namespace MnemonicTable

def Taken (before : List Instruction) (i : Instruction) (d : DuplicateMnemonic) : Prop :=
  (∃ j ∈ before, j.mnemonic = i.mnemonic) ∧ d.mnemonic = i.mnemonic

def Repeats (ms : List String) : Prop :=
  ∃ p q, p < q ∧ q < ms.length ∧ ms[p]? = ms[q]?

def Rearranged (families families' : List (List Instruction)) : Prop :=
  ∃ between, families.Perm between ∧ List.Forall₂ List.Perm between families'

variable {table next : MnemonicTable} {is js : List Instruction}

theorem insert_eq_error_iff {i : Instruction} {d : DuplicateMnemonic} :
    table.insert i = .error d ↔
      table.encodings.contains i.mnemonic = true ∧ d.mnemonic = i.mnemonic := by
  unfold insert
  cases d
  by_cases h : table.encodings.contains i.mnemonic = true <;> simp [h, eq_comm]

def Names (table : MnemonicTable) (is : List Instruction) : Prop :=
  ∀ m, table.encodings.contains m = true ↔ ∃ i ∈ is, i.mnemonic = m

theorem Names.insert (h : table.Names is) {i : Instruction} (hi : table.insert i = .ok next) :
    next.Names (is ++ [i]) := by
  intro m
  obtain ⟨-, hnext⟩ := insert_eq_ok hi
  rw [hnext, ← NameMap.mem_names_iff, NameMap.mem_names_insert, NameMap.mem_names_iff, h m]
  constructor
  · rintro (rfl | ⟨j, hj, rfl⟩)
    · exact ⟨i, by simp, rfl⟩
    · exact ⟨j, by simp [hj], rfl⟩
  · rintro ⟨j, hj, rfl⟩
    rcases List.mem_append.mp hj with hj | hj
    · exact Or.inr ⟨j, hj, rfl⟩
    · rw [List.mem_singleton.mp hj]
      exact Or.inl rfl

/-- Adding instructions, generalised over those that the table was made from. -/
theorem insertAll_outcome {before : List Instruction} (h : table.Names before) :
    (∀ d, table.insertAll is = .error d ↔ FirstFault (fun b => Taken (before ++ b)) is d) ∧
    ((∃ next, table.insertAll is = .ok next) ↔ Faultless (fun b => Taken (before ++ b)) is) := by
  induction is generalizing table before with
  | nil => simp [insertAll, not_firstFault_nil, faultless_nil]
  | cons i is ih =>
    have hshift : (fun b => Taken (before ++ i :: b)) = fun b => Taken (before ++ [i] ++ b) := by
      simp
    have htaken : ∀ d, table.insert i = .error d ↔ Taken before i d := by
      intro d
      rw [insert_eq_error_iff, h, Taken]
    simp only [firstFault_cons, faultless_cons, hshift, List.append_nil, ← htaken, insertAll]
    cases hi : table.insert i with
    | error d => simp
    | ok next =>
      obtain ⟨herror, hok⟩ := ih (h.insert hi)
      simp [herror, hok]

theorem entries_insertAll_perm (h : table.insertAll is = .ok next) :
    next.encodings.entries.Perm
      (is.map (fun i => (i.mnemonic, i.encoding)) ++ table.encodings.entries) := by
  induction is generalizing table with
  | nil =>
    cases h
    exact .refl _
  | cons i is ih =>
    unfold insertAll at h
    split at h
    · next added hadded =>
      obtain ⟨hfresh, hinsert⟩ := insert_eq_ok hadded
      have hentries := NameMap.entries_insert_perm i.encoding hfresh
      rw [← hinsert] at hentries
      exact (ih h).trans ((hentries.append_left _).trans List.perm_middle)
    · cases h

theorem faultless_taken_iff : Faultless Taken is ↔ (is.map Instruction.mnemonic).Nodup := by
  induction is using List.reverseRecOn with
  | nil => simp [faultless_nil]
  | append_singleton is i ih =>
    have htaken : (∀ d, ¬ Taken is i d) ↔ i.mnemonic ∉ is.map Instruction.mnemonic := by
      constructor
      · intro h hmem
        obtain ⟨j, hj, heq⟩ := List.mem_map.mp hmem
        exact h ⟨i.mnemonic⟩ ⟨⟨j, hj, heq⟩, rfl⟩
      · rintro h d ⟨⟨j, hj, heq⟩, -⟩
        exact h (List.mem_map.mpr ⟨j, hj, heq⟩)
    rw [faultless_concat, ih, htaken, List.map_append, List.map_singleton,
      ← List.concat_eq_append, List.nodup_concat, and_comm]

theorem repeats_iff {ms : List String} : Repeats ms ↔ ¬ ms.Nodup := by
  rw [List.nodup_iff_getElem?_ne_getElem?]
  simp [Repeats]

theorem pairwise_sortMnemonics (keys : List String) :
    (sortMnemonics keys).Pairwise (· ≤ ·) := by
  have hsorted : (sortMnemonics keys).Pairwise fun m n => decide (m ≤ n) = true := by
    apply List.pairwise_mergeSort
    · intro a b c hab hbc
      exact decide_eq_true (le_trans (of_decide_eq_true hab) (of_decide_eq_true hbc))
    · intro a b
      simpa using le_total a b
  exact hsorted.imp of_decide_eq_true

/-- The order in which the mnemonics come does not outlast the sort. -/
theorem sortMnemonics_eq_of_perm {keys keys' : List String} (h : keys.Perm keys') :
    sortMnemonics keys = sortMnemonics keys' :=
  List.Perm.eq_of_pairwise (fun _ _ _ _ => le_antisymm) (pairwise_sortMnemonics keys)
    (pairwise_sortMnemonics keys')
    ((List.mergeSort_perm _ _).trans (h.trans (List.mergeSort_perm _ _).symm))

theorem Rearranged.flatten_perm {families families' : List (List Instruction)}
    (h : Rearranged families families') : families.flatten.Perm families'.flatten := by
  obtain ⟨between, hperm, hinside⟩ := h
  exact hperm.flatten.trans (List.Perm.flatten_congr hinside)

section Merged

variable {families : List (List Instruction)}

theorem names_empty : empty.Names [] := by
  intro m
  simp [empty, NameMap.contains]

theorem ofFamilies_eq_error_iff {d : DuplicateMnemonic} :
    ofFamilies families = .error d ↔ FirstFault Taken families.flatten d :=
  (insertAll_outcome names_empty).1 d

theorem ofFamilies_eq_ok_iff : (∃ table, ofFamilies families = .ok table) ↔
    (families.flatten.map Instruction.mnemonic).Nodup :=
  (insertAll_outcome names_empty).2.trans faultless_taken_iff

variable (h : ofFamilies families = .ok table)

include h

theorem entries_perm : table.encodings.entries.Perm
    (families.flatten.map fun i => (i.mnemonic, i.encoding)) := by
  have hentries := entries_insertAll_perm h
  rwa [empty, NameMap.empty, List.append_nil] at hentries

theorem mnemonics_perm : table.mnemonics.Perm (families.flatten.map Instruction.mnemonic) := by
  have hnames := (entries_perm h).map Prod.fst
  rw [List.map_map] at hnames
  exact (List.mergeSort_perm _ _).trans hnames

theorem ofFamilies_of_perm {families' : List (List Instruction)}
    (hperm : families.flatten.Perm families'.flatten) : ofFamilies families' = .ok table := by
  have hnodup := ofFamilies_eq_ok_iff.mp ⟨table, h⟩
  rw [(hperm.map Instruction.mnemonic).nodup_iff] at hnodup
  obtain ⟨table', h'⟩ := ofFamilies_eq_ok_iff.mpr hnodup
  have hentries : table'.encodings.entries.Perm table.encodings.entries :=
    (entries_perm h').trans (((hperm.map _).symm).trans (entries_perm h).symm)
  have heq : table'.encodings = table.encodings :=
    (NameMap.ofList_of_perm (.refl _)).symm.trans (NameMap.ofList_of_perm hentries)
  cases table'
  cases table
  cases heq
  exact h'

theorem lookup?_eq_some_iff {m : String} {i : Instruction} :
    table.lookup? m = some i ↔ i ∈ families.flatten ∧ (i.mnemonic = m ∨
      (∀ j ∈ families.flatten, j.mnemonic ≠ m) ∧
        List.Forall₂ Text.Lowers m.toList i.mnemonic.toList) := by
  have hnone : table.lookupExact? m = none ↔ ∀ j ∈ families.flatten, j.mnemonic ≠ m := by
    rw [Option.eq_none_iff_forall_ne_some]
    simp only [ne_eq, lookupExact?_eq_some_iff h, not_and]
  rw [lookup?, Option.or_eq_some_iff, hnone, lookupExact?_eq_some_iff h,
    lookupExact?_eq_some_iff h, ← Text.lowercase_eq_iff_lowers, @eq_comm _ (Text.lowercase m)]
  tauto

theorem lookup?_eq_lowercase
    (hsmall : ∀ i ∈ families.flatten, ∀ c ∈ i.mnemonic.toList, ¬ ('A' ≤ c ∧ c ≤ 'Z'))
    (m : String) : table.lookup? m = table.lookupExact? (Text.lowercase m) := by
  rw [lookup?]
  cases hm : table.lookupExact? m with
  | none => rfl
  | some i =>
    obtain ⟨hi, rfl⟩ := (lookupExact?_eq_some_iff h).mp hm
    rw [Text.lowercase_eq_self (hsmall i hi), hm]
    rfl

end Merged

theorem encode_ok_of_lookup?_eq {s t : String} (h : table.lookup? s = table.lookup? t)
    {operands : List String} {scope : Scope} {e : Emission}
    (hs : table.encode s operands scope = .ok e) : table.encode t operands scope = .ok e := by
  rw [encode_eq] at hs ⊢
  rw [← h]
  cases hi : table.lookup? s with
  | none => simp [hi, Scope.fail] at hs
  | some i => rwa [hi] at hs

structure Merges (is : List Instruction) (table : MnemonicTable) : Prop where
  size : table.size = is.length
  increasing : table.mnemonics.Pairwise fun m n => Text.bytes m < Text.bytes n
  mem_mnemonics : ∀ m, m ∈ table.mnemonics ↔ ∃ i ∈ is, i.mnemonic = m
  /-- In whatever order the map gives its keys, the sort makes the same list of them. -/
  sorted : ∀ keys, keys.Perm (is.map Instruction.mnemonic) → sortMnemonics keys = table.mnemonics
  /-- A mnemonic as it is spelled comes before its small letters. -/
  lookup : ∀ m i, table.lookup? m = some i ↔ i ∈ is ∧ (i.mnemonic = m ∨
    (∀ j ∈ is, j.mnemonic ≠ m) ∧ List.Forall₂ Text.Lowers m.toList i.mnemonic.toList)
  anyCase : (∀ i ∈ is, ∀ c ∈ i.mnemonic.toList, ¬ ('A' ≤ c ∧ c ≤ 'Z')) →
    ∀ s t, Text.SameButCase s t → table.lookup? s = table.lookup? t ∧
      ∀ operands scope e, table.encode s operands scope = .ok e ↔
        table.encode t operands scope = .ok e

theorem merges_of_ofFamilies {families : List (List Instruction)}
    (h : ofFamilies families = .ok table) : Merges families.flatten table := by
  refine ⟨?_, ?_, ?_, ?_, ?_, ?_⟩
  · rw [size, NameMap.size, (entries_perm h).length_eq, List.length_map]
  · have hnodup : table.mnemonics.Nodup :=
      (mnemonics_perm h).nodup_iff.mpr (ofFamilies_eq_ok_iff.mp ⟨table, h⟩)
    have hsorted := (pairwise_sortMnemonics table.encodings.names).and hnodup
    exact hsorted.imp fun hmn => Text.lt_iff_bytes_lt.mp (lt_of_le_of_ne hmn.1 hmn.2)
  · intro m
    rw [(mnemonics_perm h).mem_iff, List.mem_map]
  · intro keys hkeys
    exact sortMnemonics_eq_of_perm
      (hkeys.trans ((mnemonics_perm h).symm.trans (List.mergeSort_perm _ _)))
  · intro m i
    exact lookup?_eq_some_iff h
  · intro hsmall s t hst
    have hlookup : table.lookup? s = table.lookup? t := by
      rw [lookup?_eq_lowercase h hsmall, lookup?_eq_lowercase h hsmall,
        Text.lowercase_eq_iff.mpr hst]
    exact ⟨hlookup, fun operands scope e =>
      ⟨encode_ok_of_lookup?_eq hlookup, encode_ok_of_lookup?_eq hlookup.symm⟩⟩

/-- A merge of families fails exactly if a mnemonic occurs twice, with the first that occurred
before. Otherwise the table holds exactly the instructions of the families, and in whatever order
they are given the table is the same. -/
theorem ofFamilies_merges (families : List (List Instruction)) :
    (∀ d, ofFamilies families = .error d ↔ FirstFault Taken families.flatten d) ∧
    ((∃ d, ofFamilies families = .error d) ↔
      Repeats (families.flatten.map Instruction.mnemonic)) ∧
    (¬ Repeats (families.flatten.map Instruction.mnemonic) →
      ∃ table, ofFamilies families = .ok table ∧ Merges families.flatten table) ∧
    ∀ families', Rearranged families families' → ∀ table,
      ofFamilies families' = .ok table ↔ ofFamilies families = .ok table := by
  have hrepeats : ¬ Repeats (families.flatten.map Instruction.mnemonic) ↔
      ∃ table, ofFamilies families = .ok table := by
    rw [repeats_iff, not_not, ofFamilies_eq_ok_iff]
  refine ⟨fun d => ofFamilies_eq_error_iff, ?_, ?_, ?_⟩
  · rw [← not_iff_not, hrepeats]
    cases ofFamilies families <;> simp
  · intro h
    obtain ⟨table, htable⟩ := hrepeats.mp h
    exact ⟨table, htable, merges_of_ofFamilies htable⟩
  · intro families' h table
    exact ⟨fun h' => ofFamilies_of_perm h' h.flatten_perm.symm,
      fun h' => ofFamilies_of_perm h' h.flatten_perm⟩

theorem ofFamilies_merges_exchanged : ∃ table,
    ofFamilies [[⟨"é", .implied 3⟩, ⟨"nop", .implied 1⟩], [⟨"djrnz", .cycleJump⟩]] = .ok table ∧
    ofFamilies [[⟨"djrnz", .cycleJump⟩], [⟨"nop", .implied 1⟩, ⟨"é", .implied 3⟩]] = .ok table ∧
    table.size = 3 ∧ table.mnemonics = ["djrnz", "nop", "é"] ∧
    table.lookup? "Nop" = some ⟨"nop", .implied 1⟩ ∧
    table.lookup? "DJRNZ" = table.lookup? "Djrnz" := by
  obtain ⟨-, -, hmerge, hrearranged⟩ := ofFamilies_merges
    [[⟨"é", .implied 3⟩, ⟨"nop", .implied 1⟩], [⟨"djrnz", .cycleJump⟩]]
  obtain ⟨table, htable, hmerged⟩ := hmerge (by rw [repeats_iff]; decide +kernel)
  have hsorted : sortMnemonics ["djrnz", "nop", "é"] = ["djrnz", "nop", "é"] :=
    List.mergeSort_of_pairwise (by decide +kernel)
  refine ⟨table, htable, (hrearranged _ ?_ table).mpr htable, hmerged.size,
    (hmerged.sorted _ (by decide +kernel)).symm.trans hsorted,
    (hmerged.lookup _ _).mpr ⟨by simp, Or.inr ⟨by simp, ?_⟩⟩,
    (hmerged.anyCase (by simp) _ _ ?_).1⟩
  · exact ⟨_, .swap _ _ _, .cons (.refl _) (.cons (.swap _ _ _) .nil)⟩
  · exact Text.lowercase_eq_iff_lowers.mp (by decide +kernel)
  · exact Text.lowercase_eq_iff.mp (by decide +kernel)

-- The spelling of the table wins over its small letters, though both are in the table.
example : (ofFamilies [[⟨"nop", .implied 1⟩, ⟨"Nop", .implied 2⟩]]).toOption.map
    (fun table => (table.lookup? "Nop", table.lookup? "NOP")) =
      some (some ⟨"Nop", .implied 2⟩, some ⟨"nop", .implied 1⟩) := by
  decide +kernel

end MnemonicTable

end EightBitAsm
