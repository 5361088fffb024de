import EightBitAsm.Proofs.TextCuts

/-! What the cuts of a text leave, said without the functions that make them: the two sides of the
first occurrence of a character, a text without the blanks around it, the maximal runs between
separators, and the same letters in lower case. -/
namespace EightBitAsm.Text

structure CutAt (c : Char) (cs before behind : List Char) : Prop where
  eq : cs = before ++ c :: behind
  first : c ∉ before

structure Trims (cs ds : List Char) : Prop where
  around : ∃ left right, cs = left ++ ds ++ right ∧ (∀ c ∈ left, isBlank c = true) ∧
    ∀ c ∈ right, isBlank c = true
  trimmed : Trimmed ds

def Sides (c : Char) (cs left right : List Char) : Prop :=
  ∃ before behind, CutAt c cs before behind ∧ Trims before left ∧ Trims behind right

/-- The maximal runs of characters that are no separators, in order. -/
inductive Runs (sep : Char → Bool) : List Char → List (List Char) → Prop where
  | gap {gap : List Char} (h : ∀ c ∈ gap, sep c = true) : Runs sep gap []
  | run {gap w rest : List Char} {ws : List (List Char)} (hgap : ∀ c ∈ gap, sep c = true)
      (hne : w ≠ []) (hw : ∀ c ∈ w, sep c = false) (hend : ∀ c ∈ rest.head?, sep c = true)
      (h : Runs sep rest ws) : Runs sep (gap ++ w ++ rest) (w :: ws)

/-- The second character is the first, made small if it is one of the ASCII capitals. -/
def Lowers (c d : Char) : Prop :=
  if 'A' ≤ c ∧ c ≤ 'Z' then d.toNat = c.toNat + 32 else d = c

def SameLetter (c d : Char) : Prop :=
  c = d ∨ Lowers c d ∨ Lowers d c

def SameButCase (s t : String) : Prop :=
  List.Forall₂ SameLetter s.toList t.toList

section Cuts

variable {c : Char} {cs : List Char}

theorem cut?_eq_none (h : c ∉ cs) : cut? c cs = none := by
  induction cs with
  | nil => rfl
  | cons d ds ih =>
    obtain ⟨hd, hds⟩ := not_or.mp (mt List.mem_cons.mpr h)
    simp [cut?, Ne.symm hd, ih hds]

theorem CutAt.cut?_eq {before behind : List Char} (h : CutAt c cs before behind) :
    cut? c cs = some (before, behind) := by
  rw [h.eq, cut?_append h.first]

theorem exists_cutAt (h : c ∈ cs) : ∃ before behind, CutAt c cs before behind := by
  obtain ⟨before, behind, hcs, hfirst⟩ := List.eq_append_cons_of_mem h
  exact ⟨before, behind, hcs, hfirst⟩

theorem upTo_eq_self (h : c ∉ cs) : upTo c cs = cs := by
  apply List.takeWhile_eq_self_iff.mpr
  intro d hd
  rw [decide_eq_true_eq]
  rintro rfl
  exact h hd

theorem CutAt.upTo_eq {before behind : List Char} (h : CutAt c cs before behind) :
    upTo c cs = before := by
  have hbefore := upTo_eq_self h.first
  rw [upTo, List.takeWhile_eq_self_iff] at hbefore
  rw [h.eq, upTo, List.takeWhile_append_of_pos hbefore]
  simp

end Cuts

section Blanks

variable {cs ds : List Char}

theorem trim_blanks_append {left : List Char} (h : ∀ c ∈ left, isBlank c = true)
    (cs : List Char) : trim (left ++ cs) = trim cs := by
  rw [trim, trimLeft, List.dropWhile_append_of_pos h]
  rfl

theorem trim_append_blanks {right : List Char} (h : ∀ c ∈ right, isBlank c = true)
    (cs : List Char) : trim (cs ++ right) = trim cs := by
  induction right generalizing cs with
  | nil => rw [List.append_nil]
  | cons c right ih =>
    rw [List.append_cons, ih (fun d hd => h d (List.mem_cons_of_mem c hd)),
      trim_append_blank cs (h c List.mem_cons_self)]

theorem Trims.trim_eq (h : Trims cs ds) : trim cs = ds := by
  obtain ⟨⟨left, right, rfl, hleft, hright⟩, htrimmed⟩ := h
  rw [trim_append_blanks hright, trim_blanks_append hleft, htrimmed.trim_eq]

theorem trims_trim (cs : List Char) : Trims cs (trim cs) := by
  refine ⟨⟨cs.takeWhile isBlank, (trimLeft cs).rtakeWhile isBlank, ?_, ?_, ?_⟩, trimmed_trim cs⟩
  · have hright : trim cs ++ (trimLeft cs).rtakeWhile isBlank = trimLeft cs :=
      List.rdropWhile_append_rtakeWhile
    rw [List.append_assoc, hright]
    exact List.takeWhile_append_dropWhile.symm
  · intro c hc
    exact List.mem_takeWhile_imp hc
  · intro c hc
    exact List.mem_rtakeWhile_imp hc

theorem exists_sides {c : Char} (h : c ∈ cs) : ∃ left right, Sides c cs left right := by
  obtain ⟨before, behind, hcut⟩ := exists_cutAt h
  exact ⟨_, _, before, behind, hcut, trims_trim before, trims_trim behind⟩

theorem trim_append_cons {c : Char} (hc : isBlank c = false) (before behind : List Char) :
    trim (before ++ c :: behind) = trimLeft before ++ c :: trimRight behind := by
  have hleft : trimLeft (before ++ c :: behind) = trimLeft before ++ c :: behind := by
    rw [trimLeft, List.dropWhile_append]
    split
    · next h =>
      have hnil : before.dropWhile isBlank = [] := by simpa using h
      simp [trimLeft, hnil, hc]
    · rfl
  have hright : ∀ cs, trimRight (cs ++ c :: behind) = cs ++ c :: trimRight behind := by
    intro cs
    rw [trimRight, trimRight, List.reverse_append, List.reverse_cons, List.append_assoc,
      List.dropWhile_append]
    split
    · next h =>
      have hnil : behind.reverse.dropWhile isBlank = [] := by simpa using h
      simp [hnil, hc]
    · simp
  rw [trim, hleft, hright]

theorem trim_trimLeft (cs : List Char) : trim (trimLeft cs) = trim cs := by
  rw [trim, trim, trimLeft, trimLeft, List.dropWhile_idempotent]

theorem trim_trimRight (cs : List Char) : trim (trimRight cs) = trim cs := by
  have hsplit : trimRight cs ++ cs.rtakeWhile isBlank = cs := List.rdropWhile_append_rtakeWhile
  conv_rhs => rw [← hsplit]
  exact (trim_append_blanks (fun c hc => List.mem_rtakeWhile_imp hc) _).symm

/-- Blanks around a text do not move its first `c`. -/
theorem sides_trim {c : Char} (hc : isBlank c = false) {before : List Char} (h : c ∉ before)
    (behind : List Char) :
    Sides c (trim (before ++ c :: behind)) (trim before) (trim behind) := by
  rw [trim_append_cons hc]
  refine ⟨_, _, ⟨rfl, ?_⟩, ?_, ?_⟩
  · intro hmem
    exact h ((List.dropWhile_suffix isBlank).subset hmem)
  · rw [← trim_trimLeft before]
    exact trims_trim _
  · rw [← trim_trimRight behind]
    exact trims_trim _

end Blanks

section Words

variable {sep : Char → Bool} {cs : List Char} {ws : List (List Char)}

theorem words_append_of_gap {gap : List Char} (h : ∀ c ∈ gap, sep c = true) (cs : List Char) :
    words sep (gap ++ cs) = words sep cs := by
  induction gap with
  | nil => rfl
  | cons c gap ih =>
    have hc : sep c = true := h c List.mem_cons_self
    rw [← ih fun d hd => h d (List.mem_cons_of_mem c hd)]
    simp [words, pieces, hc]

theorem pieces_of_run {w : List Char} (hw : ∀ c ∈ w, sep c = false) : pieces sep w = [w] := by
  induction w with
  | nil => rfl
  | cons c w ih =>
    have hc : sep c = false := hw c List.mem_cons_self
    simp [pieces, hc, ih fun d hd => hw d (List.mem_cons_of_mem c hd)]

theorem pieces_run_append {w : List Char} (hw : ∀ c ∈ w, sep c = false) {s : Char}
    (hs : sep s = true) (rest : List Char) :
    pieces sep (w ++ s :: rest) = w :: pieces sep rest := by
  induction w with
  | nil => simp [pieces, hs]
  | cons c w ih =>
    have hc : sep c = false := hw c List.mem_cons_self
    simp [pieces, hc, ih fun d hd => hw d (List.mem_cons_of_mem c hd)]

theorem words_run_append {w rest : List Char} (hne : w ≠ []) (hw : ∀ c ∈ w, sep c = false)
    (hend : ∀ c ∈ rest.head?, sep c = true) : words sep (w ++ rest) = w :: words sep rest := by
  cases rest with
  | nil => simp [words, pieces, pieces_of_run hw, hne]
  | cons s rest =>
    have hs : sep s = true := hend s rfl
    simp [words, pieces_run_append hw hs, pieces, hs, hne]

theorem Runs.words_eq (h : Runs sep cs ws) : words sep cs = ws := by
  induction h with
  | @gap gap h =>
    rw [← List.append_nil gap, words_append_of_gap h]
    rfl
  | run hgap hne hw hend _ ih =>
    rw [List.append_assoc, words_append_of_gap hgap, words_run_append hne hw hend, ih]

theorem Runs.cons_sep {c : Char} (hc : sep c = true) (h : Runs sep cs ws) :
    Runs sep (c :: cs) ws := by
  cases h with
  | gap h => exact .gap (by simpa [hc] using h)
  | @run gap w rest ws hgap hne hw hend h =>
    exact @Runs.run sep (c :: gap) w rest ws (by simpa [hc] using hgap) hne hw hend h

theorem exists_runs (sep : Char → Bool) (cs : List Char) : ∃ ws, Runs sep cs ws := by
  induction cs with
  | nil => exact ⟨[], .gap (by simp)⟩
  | cons c cs ih =>
    obtain ⟨ws, h⟩ := ih
    cases hc : sep c with
    | true => exact ⟨ws, h.cons_sep hc⟩
    | false =>
      -- The character starts a run of its own, or belongs to the run that the rest starts with.
      have hnew : (∀ d ∈ cs.head?, sep d = true) → ∃ ws, Runs sep (c :: cs) ws := by
        intro hend
        exact ⟨_, @Runs.run sep [] [c] cs ws (by simp) (by simp) (by simpa using hc) hend h⟩
      cases h with
      | gap hgap => exact hnew fun d hd => hgap d (List.mem_of_mem_head? hd)
      | @run gap w rest ws hgap hne hw hend h =>
        cases gap with
        | nil =>
          exact ⟨_, @Runs.run sep [] (c :: w) rest ws (by simp) (by simp)
            (by simpa [hc] using hw) hend h⟩
        | cons s gap =>
          apply hnew
          intro d hd
          cases hd
          exact hgap _ List.mem_cons_self

theorem Runs.append_gap (h : Runs sep cs ws) {gap : List Char} (hgap : ∀ c ∈ gap, sep c = true) :
    Runs sep (cs ++ gap) ws := by
  induction h with
  | gap hcs =>
    refine .gap fun c hc => ?_
    rcases List.mem_append.mp hc with hc | hc
    · exact hcs c hc
    · exact hgap c hc
  | @run lead w rest ws hlead hne hw hend _ ih =>
    rw [List.append_assoc]
    refine .run hlead hne hw ?_ ih
    intro c hc
    cases rest with
    | nil => exact hgap c (List.mem_of_mem_head? hc)
    | cons d ds => exact hend c hc

theorem words_eq_iff : words sep cs = ws ↔ Runs sep cs ws := by
  refine ⟨?_, Runs.words_eq⟩
  rintro rfl
  obtain ⟨ws, h⟩ := exists_runs sep cs
  rwa [h.words_eq]

/-- Blanks around a text do not change its runs, if blanks are separators. -/
theorem Runs.trim (hsep : ∀ c, isBlank c = true → sep c = true) (h : Runs sep cs ws) :
    Runs sep (trim cs) ws := by
  obtain ⟨left, right, hcs, hleft, hright⟩ := (trims_trim cs).around
  have hruns := (words_eq_iff.mp (rfl : words sep (Text.trim cs) = _)).append_gap
    fun c hc => hsep c (hright c hc)
  have hwords : words sep cs = words sep (Text.trim cs) := by
    conv_lhs => rw [hcs, List.append_assoc]
    rw [words_append_of_gap fun c hc => hsep c (hleft c hc), hruns.words_eq]
  exact words_eq_iff.mp (hwords.symm.trans h.words_eq)

end Words

theorem isUpper_iff {c : Char} : c.isUpper = true ↔ 'A' ≤ c ∧ c ≤ 'Z' := by
  rw [Char.isUpper, decide_eq_true_eq]
  rfl

theorem toNat_toLower_of_isUpper {c : Char} (h : c.isUpper = true) :
    c.toLower.toNat = c.toNat + 32 := by
  have hrange : 65 ≤ c.toNat ∧ c.toNat ≤ 90 := isUpper_iff.mp h
  have hvalid : (c.toNat + 32).isValidChar := Or.inl (by omega)
  rw [Char.toLower_eq_of_isUpper h, Char.toNat_ofNat, if_pos hvalid]

theorem lowers_iff {c d : Char} : Lowers c d ↔ c.toLower = d := by
  by_cases hc : 'A' ≤ c ∧ c ≤ 'Z'
  · rw [Lowers, if_pos hc, ← toNat_toLower_of_isUpper (isUpper_iff.mpr hc), Char.toNat_inj, eq_comm]
  · rw [Lowers, if_neg hc, Char.toLower_eq_of_not_isUpper (mt isUpper_iff.mp hc), eq_comm]

theorem lowerChars_eq_iff {cs ds : List Char} :
    lowerChars cs = ds ↔ List.Forall₂ Lowers cs ds := by
  have hlowers : List.Forall₂ Lowers cs ds ↔ List.Forall₂ (· = ·) (lowerChars cs) ds := by
    simp only [lowerChars, List.forall₂_map_left_iff, ← lowers_iff]
  rw [hlowers, List.forall₂_eq_eq_eq]

theorem lowers_again {cs ds : List Char} (h : List.Forall₂ Lowers cs ds) :
    List.Forall₂ Lowers ds ds := by
  rw [← lowerChars_eq_iff] at h ⊢
  rw [← h]
  simp [lowerChars]

theorem sameLetter_iff {c d : Char} : SameLetter c d ↔ c.toLower = d.toLower := by
  rw [SameLetter, lowers_iff, lowers_iff]
  constructor
  · rintro (rfl | rfl | rfl)
    · rfl
    · exact (Char.toLower_toLower_eq_toLower c).symm
    · exact Char.toLower_toLower_eq_toLower d
  · intro h
    by_cases hc : c.isUpper = true
    · by_cases hd : d.isUpper = true
      · left
        have hcode := congrArg Char.toNat h
        rw [toNat_toLower_of_isUpper hc, toNat_toLower_of_isUpper hd] at hcode
        exact Char.toNat_inj.mp (by omega)
      · rw [Char.toLower_eq_of_not_isUpper hd] at h
        exact Or.inr (Or.inl h)
    · rw [Char.toLower_eq_of_not_isUpper hc] at h
      exact Or.inr (Or.inr h.symm)

theorem lowercase_eq_iff {s t : String} : lowercase s = lowercase t ↔ SameButCase s t := by
  rw [SameButCase, lowercase, lowercase, String.ofList_inj, lowerChars, lowerChars,
    ← List.forall₂_eq_eq_eq, List.forall₂_map_left_iff, List.forall₂_map_right_iff]
  exact ⟨fun h => h.imp fun _ _ => sameLetter_iff.mpr, fun h => h.imp fun _ _ => sameLetter_iff.mp⟩

theorem lowercase_eq_iff_lowers {s t : String} :
    lowercase s = t ↔ List.Forall₂ Lowers s.toList t.toList := by
  rw [← lowerChars_eq_iff, lowercase, ← String.toList_inj, String.toList_ofList]

theorem lowercase_eq_self {text : String} (h : ∀ c ∈ text.toList, ¬ ('A' ≤ c ∧ c ≤ 'Z')) :
    lowercase text = text := by
  rw [lowercase_eq_iff_lowers, List.forall₂_same]
  intro c hc
  rw [Lowers, if_neg (h c hc)]

end EightBitAsm.Text
