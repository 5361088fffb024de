import EightBitAsm.Result
import EightBitAsm.Source.Program
import Mathlib

/-! Scans that stop at the first fault. An item is judged by itself and by the items before it; the
error of a scan is the one of the first item with a fault. Reading a program is such a scan, and
its lines are numbered from one without gaps. -/
namespace EightBitAsm

section Scan

variable {α ε : Type}

/-- No item has a fault, each judged after the items before it. -/
def Faultless (fault : List α → α → ε → Prop) (items : List α) : Prop :=
  ∀ before item after e, items = before ++ item :: after → ¬ fault before item e

def FirstFault (fault : List α → α → ε → Prop) (items : List α) (e : ε) : Prop :=
  ∃ before item after, items = before ++ item :: after ∧ fault before item e ∧
    Faultless fault before

variable {fault : List α → α → ε → Prop}

theorem faultless_nil : Faultless fault [] := by
  intro before item after e h
  simp at h

theorem faultless_cons {item : α} {items : List α} :
    Faultless fault (item :: items) ↔
      (∀ e, ¬ fault [] item e) ∧ Faultless (fun before => fault (item :: before)) items := by
  constructor
  · intro h
    refine ⟨fun e => h [] item items e rfl, ?_⟩
    intro before x after e hx
    exact h (item :: before) x after e (by rw [hx]; rfl)
  · rintro ⟨hhead, htail⟩ before x after e hx
    cases before with
    | nil =>
      obtain ⟨rfl, rfl⟩ := List.cons.inj hx
      exact hhead e
    | cons b before =>
      obtain ⟨rfl, hrest⟩ := List.cons.inj hx
      exact htail before x after e hrest

theorem faultless_concat {item : α} {items : List α} :
    Faultless fault (items ++ [item]) ↔ Faultless fault items ∧ ∀ e, ¬ fault items item e := by
  constructor
  · intro h
    refine ⟨?_, fun e => h items item [] e rfl⟩
    intro before x after e hx
    exact h before x (after ++ [item]) e (by simp [hx])
  · rintro ⟨hitems, hlast⟩ before x after e hx
    rcases List.eq_nil_or_concat' after with rfl | ⟨after, y, rfl⟩
    · obtain ⟨rfl, hsame⟩ := List.append_inj' hx rfl
      cases hsame
      exact hlast e
    · rw [← List.cons_append, ← List.append_assoc] at hx
      exact hitems before x after e (List.append_inj' hx rfl).1

theorem not_firstFault_nil (e : ε) : ¬ FirstFault fault [] e := by
  rintro ⟨before, item, after, h, _⟩
  simp at h

/-- The first item decides if it has a fault, and otherwise the others do. -/
theorem firstFault_cons {item : α} {items : List α} {e : ε} :
    FirstFault fault (item :: items) e ↔ fault [] item e ∨
      (∀ d, ¬ fault [] item d) ∧ FirstFault (fun before => fault (item :: before)) items e := by
  constructor
  · rintro ⟨before, x, after, hx, hf, hb⟩
    cases before with
    | nil =>
      obtain ⟨rfl, rfl⟩ := List.cons.inj hx
      exact Or.inl hf
    | cons b before =>
      obtain ⟨rfl, hrest⟩ := List.cons.inj hx
      obtain ⟨hhead, htail⟩ := faultless_cons.mp hb
      exact Or.inr ⟨hhead, before, x, after, hrest, hf, htail⟩
  · rintro (hf | ⟨hhead, before, x, after, hx, hf, htail⟩)
    · exact ⟨[], item, items, rfl, hf, faultless_nil⟩
    · exact ⟨item :: before, x, after, by rw [hx]; rfl, hf, faultless_cons.mpr ⟨hhead, htail⟩⟩

end Scan

namespace Line

def Unreadable (before : List (List Char)) (raw : List Char) (e : SourceError) : Prop :=
  parseChars (before.length + 1) raw = .error e

theorem parseChars_eq_ok_iff {number : Nat} {raw : List Char} {line : Line} :
    parseChars number raw = .ok line ↔ ∃ label rest statement,
      splitLabel (code raw) = .ok (label, rest) ∧ Statement.parse rest = .ok statement ∧
      ⟨number, label, statement, String.ofList (code raw)⟩ = line := by
  have hcode : parseChars number raw = .ok line ↔ parseCode number (code raw) = .ok line := by
    unfold parseChars
    cases parseCode number (code raw) <;> simp
  simp [hcode, parseCode, bind_eq_ok_iff, pure, Except.pure]

theorem number_of_parseChars {number : Nat} {raw : List Char} {line : Line}
    (h : parseChars number raw = .ok line) : line.number = number := by
  obtain ⟨label, rest, statement, _, _, rfl⟩ := parseChars_eq_ok_iff.mp h
  rfl

end Line

namespace Program

theorem parseLines_eq_error_iff {number : Nat} {raws : List (List Char)} {e : SourceError} :
    parseLines number raws = .error e ↔
      FirstFault (fun before raw e => Line.parseChars (number + before.length) raw = .error e)
        raws e := by
  induction raws generalizing number with
  | nil => simp [parseLines, not_firstFault_nil]
  | cons raw raws ih =>
    have hshift : (fun (before : List (List Char)) x (d : SourceError) =>
          Line.parseChars (number + (raw :: before).length) x = .error d) =
        fun before x d => Line.parseChars (number + 1 + before.length) x = .error d := by
      funext before x d
      simp [Nat.add_assoc, Nat.add_comm 1]
    rw [firstFault_cons, hshift, ← ih]
    cases hraw : Line.parseChars number raw with
    | error d => simp [parseLines, hraw]
    | ok line => simp [parseLines, hraw, bind_eq_error_iff, pure, Except.pure]

theorem parse_eq_error_iff {text : String} {e : SourceError} :
    parse text = .error e ↔ FirstFault Line.Unreadable (Text.lines text.toList) e := by
  rw [parse, parseLines_eq_error_iff]
  simp only [Nat.add_comm 1]
  rfl

theorem exists_of_mem_parseLines {number : Nat} {raws : List (List Char)} {lines : List Line}
    (h : parseLines number raws = .ok lines) {line : Line} (hline : line ∈ lines) :
    ∃ n raw, Line.parseChars n raw = .ok line := by
  induction raws generalizing number lines with
  | nil =>
    cases h
    simp at hline
  | cons raw raws ih =>
    obtain ⟨first, hfirst, h⟩ := bind_eq_ok_iff.1 h
    obtain ⟨rest, hrest, h⟩ := bind_eq_ok_iff.1 h
    cases h
    rcases List.mem_cons.mp hline with rfl | hline
    · exact ⟨number, raw, hfirst⟩
    · exact ih hrest hline

/-- Only the code of a line is read. -/
theorem parseLines_congr {xs ys : List (List Char)}
    (h : List.Forall₂ (fun x y => Line.code x = Line.code y) xs ys) (number : Nat) :
    parseLines number xs = parseLines number ys := by
  induction h generalizing number with
  | nil => rfl
  | cons hcode _ ih => rw [parseLines, parseLines, Line.parseChars, Line.parseChars, hcode, ih]

theorem parseLines_append (number : Nat) (xs ys : List (List Char)) :
    parseLines number (xs ++ ys) = parseLines number xs >>= fun lines =>
      parseLines (number + xs.length) ys >>= fun more => .ok (lines ++ more) := by
  induction xs generalizing number with
  | nil =>
    rw [List.nil_append, List.length_nil, Nat.add_zero, parseLines, ok_bind]
    cases parseLines number ys <;> rfl
  | cons x xs ih =>
    rw [List.cons_append, parseLines, parseLines, ih, List.length_cons, Nat.add_right_comm,
      ← Nat.add_assoc]
    cases Line.parseChars number x with
    | error e => rfl
    | ok line =>
      cases parseLines (number + 1) xs with
      | error e => rfl
      | ok lines => cases parseLines (number + xs.length + 1) ys <;> rfl

theorem numbers_of_parseLines {number : Nat} {raws : List (List Char)} {lines : List Line}
    (h : parseLines number raws = .ok lines) :
    lines.map Line.number = List.range' number lines.length := by
  induction raws generalizing number lines with
  | nil =>
    cases h
    rfl
  | cons raw raws ih =>
    obtain ⟨line, hline, h⟩ := bind_eq_ok_iff.1 h
    obtain ⟨rest, hrest, h⟩ := bind_eq_ok_iff.1 h
    cases h
    simp [ih hrest, Line.number_of_parseChars hline, List.range'_succ]

theorem pairwise_number_of_parse {text : String} {lines : List Line}
    (h : parse text = .ok lines) : lines.Pairwise fun a b => a.number < b.number := by
  have hrange : (List.range' 1 lines.length).Pairwise (· < ·) := List.pairwise_lt_range'
  rw [← numbers_of_parseLines h, List.pairwise_map] at hrange
  exact hrange

end Program

end EightBitAsm
