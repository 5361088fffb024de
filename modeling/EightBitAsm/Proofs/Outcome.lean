import EightBitAsm.Proofs.Agreement

/-! How an assembly ends. The four stages are tried in order, and each has its own faults: lines
that cannot be read, lines that the first pass rejects, the size of the whole, and targets without
an address. The first stage with a fault decides, and in it the first line with a fault. -/
namespace EightBitAsm

namespace Layout

theorem listingFrom_after_outcome {table : MnemonicTable} {widths : Widths} {lines : List Line}
    (h : Faultless (Program.Misplaced table widths) lines) :
    (∀ e, (after table widths lines).listingFrom table widths 0 lines = .error e ↔
      FirstFault (fun _ => Program.Undefined table (Program.labelNames lines)) lines e) ∧
    ((∃ listing, (after table widths lines).listingFrom table widths 0 lines = .ok listing) ↔
      Faultless (fun _ => Program.Undefined table (Program.labelNames lines)) lines) := by
  refine listingFrom_outcome ?_ (fun line hline => Program.sized_of_faultless h hline) 0
  intro name
  rw [← contains_labels_after table widths lines name, NameMap.contains]
  simp

end Layout

namespace Assembly

variable {table : MnemonicTable} {widths : Widths} {lines : List Line}

theorem fails_after_layout (hclean : Faultless (Program.Misplaced table widths) lines)
    {e : AssembleError} {f : List ListingLine → Assembly} :
    ((Layout.after table widths lines).checkSize widths >>= fun _ =>
      (Layout.after table widths lines).listingFrom table widths 0 lines >>= fun listing =>
        pure (f listing)) = .error e ↔
      widths.capacity < Program.size table lines ∧
          .tooLarge (Program.size table lines) widths.capacity = e ∨
        Program.size table lines ≤ widths.capacity ∧
          FirstFault (fun _ => Program.Undefined table (Program.labelNames lines)) lines e := by
  have hlisting := (Layout.listingFrom_after_outcome hclean).1 e
  rw [bind_eq_error_iff, Layout.checkSize_eq_error_iff, Layout.size_after]
  refine or_congr_right ⟨?_, ?_⟩
  · rintro ⟨_, hsize, h⟩
    rw [Layout.checkSize_eq_ok_iff, Layout.size_after] at hsize
    rcases bind_eq_error_iff.1 h with h | ⟨listing, _, h⟩
    · exact ⟨hsize, hlisting.mp h⟩
    · cases h
  · rintro ⟨hsize, h⟩
    refine ⟨(), ?_, bind_eq_error_iff.2 (Or.inl (hlisting.mpr h))⟩
    rw [Layout.checkSize_eq_ok_iff, Layout.size_after]
    exact hsize

theorem ofLines_eq_error_iff {e : AssembleError} :
    ofLines table widths lines = .error e ↔
      FirstFault (Program.Misplaced table widths) lines e ∨
      Faultless (Program.Misplaced table widths) lines ∧
        (widths.capacity < Program.size table lines ∧
            .tooLarge (Program.size table lines) widths.capacity = e ∨
          Program.size table lines ≤ widths.capacity ∧
            FirstFault (fun _ => Program.Undefined table (Program.labelNames lines)) lines e) := by
  rw [ofLines_eq, bind_eq_error_iff, Layout.ofLines_eq_error_iff]
  refine or_congr_right ⟨?_, ?_⟩
  · rintro ⟨layout, hlayout, h⟩
    obtain ⟨hclean, rfl⟩ := Layout.ofLines_eq_ok_iff.mp hlayout
    exact ⟨hclean, (fails_after_layout hclean).mp h⟩
  · rintro ⟨hclean, h⟩
    exact ⟨_, Layout.ofLines_eq_ok_iff.mpr ⟨hclean, rfl⟩, (fails_after_layout hclean).mpr h⟩

theorem ofLines_ok_iff : (∃ out, ofLines table widths lines = .ok out) ↔
    Faultless (Program.Misplaced table widths) lines ∧
    Program.size table lines ≤ widths.capacity ∧
    Faultless (fun _ => Program.Undefined table (Program.labelNames lines)) lines := by
  simp only [ofLines_eq_ok_iff]
  constructor
  · rintro ⟨out, hbuilt⟩
    exact ⟨hbuilt.faultless, hbuilt.fits,
      (Layout.listingFrom_after_outcome hbuilt.faultless).2.mp ⟨_, hbuilt.listing⟩⟩
  · rintro ⟨hclean, hfits, hdefined⟩
    obtain ⟨listing, hlisting⟩ := (Layout.listingFrom_after_outcome hclean).2.mpr hdefined
    exact ⟨⟨listing.flatMap (·.bytes), listing, (Layout.after table widths lines).labels,
      Program.vars widths lines⟩, hclean, hfits, hlisting, rfl, rfl, rfl⟩

/-- Why a text does not assemble. Each case excludes the ones before it. -/
inductive Failure (table : MnemonicTable) (widths : Widths) (text : String) :
    AssembleError → Prop where
  | unreadable {e : SourceError} (h : FirstFault Line.Unreadable (Text.lines text.toList) e) :
      Failure table widths text (.source e)
  | misplaced {lines : List Line} {e : AssembleError} (hp : Program.parse text = .ok lines)
      (h : FirstFault (Program.Misplaced table widths) lines e) : Failure table widths text e
  | tooLarge {lines : List Line} (hp : Program.parse text = .ok lines)
      (hclean : Faultless (Program.Misplaced table widths) lines)
      (hsize : widths.max .far + 1 < Program.size table lines) :
      Failure table widths text (.tooLarge (Program.size table lines) (widths.max .far + 1))
  | undefined {lines : List Line} {e : AssembleError} (hp : Program.parse text = .ok lines)
      (hclean : Faultless (Program.Misplaced table widths) lines)
      (hsize : Program.size table lines ≤ widths.max .far + 1)
      (h : FirstFault (fun _ => Program.Undefined table (Program.labelNames lines)) lines e) :
      Failure table widths text e

/-- An assembly fails exactly for one of the four causes, and succeeds exactly if there is none. -/
theorem assemble_outcome (table : MnemonicTable) (widths : Widths) (text : String) :
    (∀ e, assemble table widths text = .error e ↔ Failure table widths text e) ∧
    ((∃ out, assemble table widths text = .ok out) ↔ ∃ lines,
      Program.parse text = .ok lines ∧ Faultless (Program.Misplaced table widths) lines ∧
      Program.size table lines ≤ widths.max .far + 1 ∧
      Faultless (fun _ => Program.Undefined table (Program.labelNames lines)) lines) := by
  unfold assemble
  cases hp : Program.parse text with
  | error d =>
    have hd := Program.parse_eq_error_iff.mp hp
    refine ⟨fun e => ⟨?_, ?_⟩, by simp⟩
    · intro h
      cases h
      exact .unreadable hd
    · intro h
      cases h with
      | unreadable h =>
        cases hp.symm.trans (Program.parse_eq_error_iff.mpr h)
        rfl
      | misplaced hp' | tooLarge hp' | undefined hp' => cases hp.symm.trans hp'
  | ok lines =>
    refine ⟨fun e => ofLines_eq_error_iff.trans ⟨?_, ?_⟩, ?_⟩
    · rintro (h | ⟨hclean, ⟨hsize, rfl⟩ | ⟨hsize, h⟩⟩)
      · exact .misplaced hp h
      · exact .tooLarge hp hclean hsize
      · exact .undefined hp hclean hsize h
    · intro h
      cases h with
      | unreadable h => cases hp.symm.trans (Program.parse_eq_error_iff.mpr h)
      | misplaced hp' h =>
        cases hp.symm.trans hp'
        exact Or.inl h
      | tooLarge hp' hclean hsize =>
        cases hp.symm.trans hp'
        exact Or.inr ⟨hclean, Or.inl ⟨hsize, rfl⟩⟩
      | undefined hp' hclean hsize h =>
        cases hp.symm.trans hp'
        exact Or.inr ⟨hclean, Or.inr ⟨hsize, h⟩⟩
    · rw [ofLines_ok_iff]
      constructor
      · intro h
        exact ⟨lines, rfl, h⟩
      · rintro ⟨_, hlines, h⟩
        cases hlines
        exact h

end Assembly

end EightBitAsm
