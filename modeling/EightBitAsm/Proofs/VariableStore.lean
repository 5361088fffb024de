import EightBitAsm.Proofs.Resolution

/-! Variables as a store. The declarations of a program are executed in line order, each on the
store that the ones before it left; the variables of an assembly are the store at the end. Only
literals are compared with the width, and a name hands on what is already in the store, so that the
bound is kept from line to line. -/
namespace EightBitAsm

structure Declaration where
  name : String
  value : String
  deriving DecidableEq, Repr

def Line.declaration? (line : Line) : Option Declaration :=
  match line.statement with
  | some (.declaration name value) => some ⟨name, value⟩
  | _ => none

def Program.declarations (lines : List Line) : List Declaration :=
  lines.filterMap Line.declaration?

abbrev Store := String → Option Nat

def Symbols.store (vars : Symbols) : Store :=
  fun name => (vars.find? name).map UInt32.toNat

namespace Store

def empty : Store := fun _ => none

/-- The number that a declaration stores: that of a literal, or what a variable holds now. -/
inductive Evaluates (s : Store) (value : String) : Nat → Prop where
  | literal {n : Nat} (hd : Text.startsWithDigit value = true) (hn : Literal.Denotes value n) :
      Evaluates s value n
  | named {n : Nat} (hd : Text.startsWithDigit value = false) (hs : s value = some n) :
      Evaluates s value n

inductive Executes : Store → List Declaration → Store → Prop where
  | done (s : Store) : Executes s [] s
  | step {s t : Store} {d : Declaration} {ds : List Declaration} {n : Nat}
      (hn : Evaluates s d.value n) (h : Executes (Function.update s d.name (some n)) ds t) :
      Executes s (d :: ds) t

variable {s t u : Store} {ds es : List Declaration} {d : Declaration}

theorem Evaluates.unique {value : String} {m n : Nat} (h : Evaluates s value m)
    (h' : Evaluates s value n) : m = n := by
  cases h with
  | literal hd hm =>
    cases h' with
    | literal _ hn => exact hm.unique hn
    | named hd' _ => cases hd.symm.trans hd'
  | named hd hm =>
    cases h' with
    | literal hd' _ => cases hd.symm.trans hd'
    | named _ hn => exact Option.some.inj (hm.symm.trans hn)

theorem Executes.unique (h : Executes s ds t) (h' : Executes s ds u) : t = u := by
  induction h with
  | done s =>
    cases h'
    rfl
  | step hn _ ih =>
    cases h' with
    | step hn' h' =>
      cases hn.unique hn'
      exact ih h'

theorem executes_append :
    Executes s (ds ++ es) t ↔ ∃ r, Executes s ds r ∧ Executes r es t := by
  constructor
  · intro h
    induction ds generalizing s with
    | nil => exact ⟨s, .done s, h⟩
    | cons d ds ih =>
      cases h with
      | step hn h =>
        obtain ⟨r, hds, hes⟩ := ih h
        exact ⟨r, .step hn hds, hes⟩
  · rintro ⟨r, hds, hes⟩
    induction hds with
    | done s => exact hes
    | step hn _ ih => exact .step hn (ih hes)

theorem Executes.eq_of_not_declared (h : Executes s ds t) {name : String}
    (hname : ∀ d ∈ ds, d.name ≠ name) : t name = s name := by
  induction h with
  | done s => rfl
  | @step s t d ds n _ _ ih =>
    have hne : name ≠ d.name := (hname d List.mem_cons_self).symm
    rw [ih fun e he => hname e (List.mem_cons_of_mem d he), Function.update_of_ne hne]

theorem Executes.declared_of_some (h : Executes s ds t) {name : String} {n : Nat}
    (hname : t name = some n) : s name = some n ∨ ∃ d ∈ ds, d.name = name := by
  by_cases hd : ∃ d ∈ ds, d.name = name
  · exact Or.inr hd
  · rw [h.eq_of_not_declared fun d hmem heq => hd ⟨d, hmem, heq⟩] at hname
    exact Or.inl hname

/-- Every declaration was executed on the store of the ones before it, and what it stored remains
unless the name is declared again. -/
theorem Executes.at_declaration {before after : List Declaration}
    (h : Executes s (before ++ d :: after) t) :
    ∃ r n, Executes s before r ∧ Evaluates r d.value n ∧
      ((∀ e ∈ after, e.name ≠ d.name) → t d.name = some n) := by
  obtain ⟨r, hbefore, hrest⟩ := executes_append.mp h
  cases hrest with
  | @step _ _ _ _ n hn hafter =>
    refine ⟨r, n, hbefore, hn, fun hlast => ?_⟩
    rw [hafter.eq_of_not_declared hlast, Function.update_self]

end Store

namespace Symbols

theorem store_insert (vars : Symbols) (name : String) (a : UInt32) :
    store (vars.insert name a) = Function.update vars.store name (some a.toNat) := by
  funext other
  rw [store, NameMap.find?_insert]
  by_cases h : other = name
  · subst h
    simp
  · simp [h, store]

def Within (max : Nat) (vars : Symbols) : Prop :=
  ∀ name a, vars.find? name = some a → a.toNat ≤ max

theorem Within.insert {max : Nat} {vars : Symbols} (h : vars.Within max) (name : String)
    {a : UInt32} (ha : a.toNat ≤ max) : Within max (vars.insert name a) := by
  intro other b hb
  rw [NameMap.find?_insert] at hb
  by_cases hname : other = name
  · rw [if_pos hname] at hb
    cases hb
    exact ha
  · rw [if_neg hname] at hb
    exact h other b hb

end Symbols

namespace Program

variable {table : MnemonicTable} {widths : Widths} {vars : Symbols} {lines : List Line}
  {line : Line}

theorem evaluates_of_resolve {number : Nat} {value : String} {target : Target}
    (h : (Scope.sizing number widths vars).resolve .short value = .ok target) :
    Store.Evaluates vars.store value target.address.toNat := by
  rcases Scope.resolve_eq_ok_iff.mp h with ⟨hd, a, hread, -, rfl⟩ | ⟨hd, -, a, hfind, rfl⟩
  · exact .literal hd (Literal.read_eq_ok_iff.mp hread)
  · have hvar : vars.find? value = some a := Except.ok.inj hfind
    exact .named hd (by rw [Symbols.store, hvar]; rfl)

theorem le_of_resolve {number : Nat} {value : String} {target : Target}
    (hvars : vars.Within (widths.max .short))
    (h : (Scope.sizing number widths vars).resolve .short value = .ok target) :
    target.address.toNat ≤ widths.max .short := by
  rcases Scope.resolve_eq_ok_iff.mp h with ⟨-, a, -, hle, rfl⟩ | ⟨-, -, a, hfind, rfl⟩
  · exact hle
  · exact hvars value a (Except.ok.inj hfind)

theorem executes_declare {before : List Line}
    (hclean : ∀ e, ¬ Misplaced table widths before line e) :
    Store.Executes (Program.vars widths before).store (declarations [line])
      (declare widths (Program.vars widths before) line).store := by
  cases hs : line.statement with
  | none => simpa [declarations, Line.declaration?, declare, hs] using .done _
  | some statement =>
    cases statement with
    | instruction mnemonic operands =>
      simpa [declarations, Line.declaration?, declare, hs] using .done _
    | declaration name value =>
      have hfresh : ∀ label, line.label = some label → label ∉ labelNames before :=
        fun label hl hmem => hclean _ (.label hl hmem)
      cases hr : (Scope.sizing line.number widths (Program.vars widths before)).resolve .short
          value with
      | error d => exact absurd (.declaration hfresh hs hr) (hclean _)
      | ok target =>
        have hds : declarations [line] = [⟨name, value⟩] := by
          simp [declarations, Line.declaration?, hs]
        have hvars : declare widths (Program.vars widths before) line =
            (Program.vars widths before).insert name target.address := by
          simp [declare, hs, hr]
        rw [hds, hvars, Symbols.store_insert]
        exact .step (evaluates_of_resolve hr) (.done _)

theorem executes_vars (h : Faultless (Misplaced table widths) lines) :
    Store.Executes .empty (declarations lines) (Program.vars widths lines).store := by
  -- Over the lines from the back: the last line runs on the variables of the lines before it.
  induction lines using List.reverseRecOn with
  | nil => exact .done _
  | append_singleton lines line ih =>
    obtain ⟨hlines, hline⟩ := faultless_concat.mp h
    rw [declarations, List.filterMap_append, Program.vars, List.foldl_append]
    exact Store.executes_append.mpr ⟨_, ih hlines, executes_declare hline⟩

theorem within_declare (h : vars.Within (widths.max .short)) (line : Line) :
    (declare widths vars line).Within (widths.max .short) := by
  rw [declare]
  split
  · split
    · next hr => exact h.insert _ (le_of_resolve h hr)
    · exact h
  · exact h

theorem within_vars (widths : Widths) (lines : List Line) :
    (Program.vars widths lines).Within (widths.max .short) := by
  induction lines using List.reverseRecOn with
  | nil =>
    intro name a ha
    cases ha
  | append_singleton lines line ih =>
    rw [Program.vars, List.foldl_append]
    exact within_declare ih line

end Program

namespace Assembly

structure Sequential (widths : Widths) (ds : List Declaration) (vars : Symbols) : Prop where
  final : ∀ s, Store.Executes .empty ds s ↔ s = vars.store
  /-- The last declaration of a name decides, by the store of the declarations before it: a name
  declared again is overridden, and what was read from it before stays as it was. -/
  last : ∀ before d after, ds = before ++ d :: after → (∀ e ∈ after, e.name ≠ d.name) →
    ∃ s n, Store.Executes .empty before s ∧ s.Evaluates d.value n ∧ vars.store d.name = some n
  earlier : ∀ before d after, ds = before ++ d :: after →
    Text.startsWithDigit d.value = false → ∃ e ∈ before, e.name = d.value
  bounded : ∀ entry ∈ vars.entries, entry.2.toNat ≤ widths.max .short

/-- The variables of every assembly are the store that its declarations leave, and they stay in the
short domain. -/
theorem sequential_of_assemble {table : MnemonicTable} {widths : Widths} {text : String}
    {out : Assembly} (h : assemble table widths text = .ok out) :
    ∃ lines, Program.parse text = .ok lines ∧
      Sequential widths (Program.declarations lines) out.vars := by
  obtain ⟨lines, hp, hbuilt⟩ := built_of_assemble h
  have hrun := Program.executes_vars hbuilt.faultless
  rw [← hbuilt.vars] at hrun
  refine ⟨lines, hp, ?_, ?_, ?_, ?_⟩
  · intro s
    constructor
    · intro hs
      exact hs.unique hrun
    · rintro rfl
      exact hrun
  · intro before d after hds hlast
    rw [hds] at hrun
    obtain ⟨s, n, hbefore, hn, hvalue⟩ := hrun.at_declaration
    exact ⟨s, n, hbefore, hn, hvalue hlast⟩
  · intro before d after hds hd
    rw [hds] at hrun
    obtain ⟨s, n, hbefore, hn, -⟩ := hrun.at_declaration
    cases hn with
    | literal hd' _ => cases hd.symm.trans hd'
    | named _ hs =>
      rcases hbefore.declared_of_some hs with hempty | hdeclared
      · cases hempty
      · exact hdeclared
  · intro entry hentry
    rw [hbuilt.vars] at hentry
    exact Program.within_vars widths lines entry.1 entry.2 (NameMap.find?_eq_some_iff.mpr hentry)

/-- Aliases of a name that is declared twice more, once through itself. -/
theorem sequential_of_assemble_aliases : ∃ out,
    assemble InstructionSet.table {} "a = 255\nb = a\na = 0x10\nc = b\na = a\n" = .ok out ∧
    out.vars.entries = [("a", 16), ("b", 255), ("c", 255)] ∧ ∃ lines,
      Program.parse "a = 255\nb = a\na = 0x10\nc = b\na = a\n" = .ok lines ∧
      Program.declarations lines =
        [⟨"a", "255"⟩, ⟨"b", "a"⟩, ⟨"a", "0x10"⟩, ⟨"c", "b"⟩, ⟨"a", "a"⟩] ∧
      Sequential {} (Program.declarations lines) out.vars := by
  have h : assemble InstructionSet.table {} "a = 255\nb = a\na = 0x10\nc = b\na = a\n" = .ok
      { bytes := []
        listing := []
        labels := .empty
        vars := ⟨[("a", 16), ("b", 255), ("c", 255)], by decide⟩ } := by
    decide +kernel
  have hp : (Program.parse "a = 255\nb = a\na = 0x10\nc = b\na = a\n").toOption.map
      Program.declarations =
        some [⟨"a", "255"⟩, ⟨"b", "a"⟩, ⟨"a", "0x10"⟩, ⟨"c", "b"⟩, ⟨"a", "a"⟩] := by
    decide +kernel
  obtain ⟨lines, hlines, hsequential⟩ := sequential_of_assemble h
  rw [hlines] at hp
  exact ⟨_, h, rfl, lines, hlines, Option.some.inj hp, hsequential⟩

end Assembly

end EightBitAsm
