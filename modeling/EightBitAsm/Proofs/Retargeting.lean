import EightBitAsm.Proofs.Agreement
import EightBitAsm.Proofs.ScopeChange

/-! Programs that differ in their targets. Two programs run through both passes side by side: their
labels are named differently and their targets are written differently, but every target stands for
the same address. Then both have the same size, the same variables and the same image. -/
namespace EightBitAsm

def MnemonicTable.target? (table : MnemonicTable) (mnemonic : String) (operands : List String) :
    Option String :=
  (table.lookup? mnemonic).bind fun i => i.encoding.addressOperand? operands

inductive Statement.Retargets (table : MnemonicTable) (swap : String → String → Prop) :
    Statement → Statement → Prop where
  | declaration (name value : String) :
      Retargets table swap (.declaration name value) (.declaration name value)
  | targetless {mnemonic : String} {operands : List String}
      (h : table.target? mnemonic operands = none) :
      Retargets table swap (.instruction mnemonic operands) (.instruction mnemonic operands)
  | target {mnemonic : String} (leading : List String) {text text' : String}
      (h : table.target? mnemonic (leading ++ [text]) = some text) (hswap : swap text text') :
      Retargets table swap (.instruction mnemonic (leading ++ [text]))
        (.instruction mnemonic (leading ++ [text']))

/-- The second line is the first with its label renamed and its target exchanged. The texts of the
lines may be any. -/
structure Line.Retargets (table : MnemonicTable) (rename : String → String)
    (swap : String → String → Prop) (a b : Line) : Prop where
  number : b.number = a.number
  label : b.label = a.label.map rename
  statement : Option.Rel (Statement.Retargets table swap) a.statement b.statement

/-- Wherever a text resolves in the first scope, the text in its place resolves in the second, to a
related address. -/
def Scope.Translates (swap : String → String → Prop) (related : UInt32 → UInt32 → Prop)
    (s t : Scope) : Prop :=
  ∀ text text' target, swap text text' → s.resolve .far text = .ok target →
    ∃ target', t.resolve .far text' = .ok target' ∧ related target.address target'.address

def Symbols.Renamed (rename : String → String) (m n : Symbols) : Prop :=
  ∀ name address, n.find? name = some address ↔
    ∃ label, rename label = name ∧ m.find? label = some address

structure ListingLine.SamePlace (x y : ListingLine) : Prop where
  line : y.line = x.line
  address : y.address = x.address
  bytes : y.bytes = x.bytes

/-- Two assemblies of one image, which may differ in the names of labels and in the texts of the
listing. -/
structure Assembly.SameImage (a b : Assembly) : Prop where
  bytes : b.bytes = a.bytes
  vars : b.vars = a.vars
  listing : List.Forall₂ ListingLine.SamePlace a.listing b.listing

variable {table : MnemonicTable} {widths : Widths} {rename : String → String}
  {swap : String → String → Prop}

theorem Instruction.read_concat {i : Instruction} {s : Scope} {leading : List String}
    {text : String} {o : Operation String} (h : i.read s (leading ++ [text]) = .ok o) :
    ∃ kind, o = .transfer kind text ∧
      ∀ t text', i.read t (leading ++ [text']) = .ok (.transfer kind text') := by
  rcases i with ⟨mnemonic, encoding⟩
  cases encoding with
  | implied opcode => cases leading <;> cases h
  | cycleJump =>
    rcases leading with _ | ⟨register, _ | ⟨extra, more⟩⟩
    · cases h
    · obtain ⟨n, hn, h⟩ := bind_eq_ok_iff.mp h
      cases h
      refine ⟨.cycle n, rfl, ?_⟩
      intro t text'
      exact bind_eq_ok_iff.mpr ⟨n, cycleRegister_of_ok hn t, rfl⟩
    · cases more <;> cases h
  | branch condition =>
    rcases leading with _ | ⟨extra, more⟩
    · cases h
      exact ⟨.branch condition, rfl, fun _ _ => rfl⟩
    · cases more <;> cases h
  | control tag emitLow =>
    rcases leading with _ | ⟨extra, more⟩
    · cases h
      exact ⟨.control tag emitLow, rfl, fun _ _ => rfl⟩
    · cases more <;> cases h

namespace MnemonicTable

variable {mnemonic : String} {s : Scope} {e : Emission}

/-- An instruction with a target encodes with every other target that resolves, wherever that may
be, and as the same kind of transfer. -/
theorem encode_concat {leading : List String} {text : String}
    (h : table.encode mnemonic (leading ++ [text]) s = .ok e) :
    ∃ kind target, s.resolve .far text = .ok target ∧
      e.bytes = (Operation.transfer kind target.address).bytes s.widths.farBits ∧
      ∀ (t : Scope) text' target', t.resolve .far text' = .ok target' →
        ∃ e', table.encode mnemonic (leading ++ [text']) t = .ok e' ∧
          e'.bytes = (Operation.transfer kind target'.address).bytes t.widths.farBits := by
  obtain ⟨i, o, p, hi, ho, hp, rfl⟩ := encode_eq_ok_iff.mp h
  obtain ⟨kind, rfl, hread⟩ := Instruction.read_concat ho
  rcases Operation.resolve_eq_ok_iff.mp hp with ⟨_, ho, _⟩ | ⟨_, _, target, ho, htarget, rfl⟩
  · cases ho
  · cases ho
    refine ⟨kind, target, htarget, rfl, ?_⟩
    intro t text' target' htarget'
    refine ⟨i.emission t.widths.farBits (.transfer kind target'), ?_, rfl⟩
    have hp' : (Operation.transfer kind text').resolve t = .ok (.transfer kind target') :=
      Operation.resolve_eq_ok_iff.mpr (Or.inr ⟨kind, text', target', rfl, htarget', rfl⟩)
    exact encode_eq_ok_iff.mpr ⟨i, _, _, hi, hread t text', hp', rfl⟩

theorem encode_of_targetless {operands : List String} (ht : table.target? mnemonic operands = none)
    (h : table.encode mnemonic operands s = .ok e) (t : Scope) :
    table.encode mnemonic operands t = .ok e := by
  obtain ⟨i, o, p, hi, ho, hp, rfl⟩ := encode_eq_ok_iff.mp h
  have hnone : o.address? = none := by
    rw [Instruction.address?_of_read ho]
    simpa [target?, hi] using ht
  rcases Operation.resolve_eq_ok_iff.mp hp with ⟨opcode, rfl, rfl⟩ | ⟨_, _, _, rfl, _⟩
  · exact encode_eq_ok_iff.mpr ⟨i, _, _, hi, Instruction.read_of_ok ho t, rfl, rfl⟩
  · cases hnone

theorem encode_of_retargets {related : UInt32 → UInt32 → Prop} {mnemonic' : String}
    {operands operands' : List String} {t : Scope}
    (h : Statement.Retargets table swap (.instruction mnemonic operands)
      (.instruction mnemonic' operands'))
    (hst : s.Translates swap related t) (he : table.encode mnemonic operands s = .ok e) :
    ∃ e', table.encode mnemonic' operands' t = .ok e' ∧ (e'.bytes = e.bytes ∨
      ∃ kind a a', related a a' ∧ e.bytes = (Operation.transfer kind a).bytes s.widths.farBits ∧
        e'.bytes = (Operation.transfer kind a').bytes t.widths.farBits) := by
  cases h with
  | targetless ht => exact ⟨e, encode_of_targetless ht he t, Or.inl rfl⟩
  | target leading _ hswap =>
    obtain ⟨kind, target, htarget, hbytes, hother⟩ := encode_concat he
    obtain ⟨target', htarget', hrelated⟩ := hst _ _ target hswap htarget
    obtain ⟨e', he', hbytes'⟩ := hother t _ target' htarget'
    exact ⟨e', he', Or.inr ⟨kind, _, _, hrelated, hbytes, hbytes'⟩⟩

end MnemonicTable

theorem Line.Retargets.statement_cases {a b : Line} (h : a.Retargets table rename swap b) :
    (a.isInstruction ≠ true ∧ b.statement = a.statement) ∨
    ∃ mnemonic operands operands', a.statement = some (.instruction mnemonic operands) ∧
      b.statement = some (.instruction mnemonic operands') ∧
      Statement.Retargets table swap (.instruction mnemonic operands)
        (.instruction mnemonic operands') := by
  have hs := h.statement
  unfold isInstruction
  generalize a.statement = s at hs ⊢
  generalize b.statement = s' at hs ⊢
  cases hs with
  | none => exact Or.inl ⟨by simp, rfl⟩
  | some hs =>
    cases hs with
    | declaration name value => exact Or.inl ⟨by simp, rfl⟩
    | targetless ht => exact Or.inr ⟨_, _, _, rfl, rfl, .targetless ht⟩
    | target leading ht hswap => exact Or.inr ⟨_, _, _, rfl, rfl, .target leading ht hswap⟩

namespace Program

variable {a b : Line}

theorem lineSize_of_retargets (h : a.Retargets table rename swap b) :
    lineSize table b = lineSize table a := by
  unfold lineSize
  rcases h.statement_cases with ⟨_, hs⟩ | ⟨mnemonic, operands, operands', ha, hb, _⟩
  · rw [hs]
  · rw [ha, hb]

theorem declare_of_retargets (h : a.Retargets table rename swap b) (vars : Symbols) :
    declare widths vars b = declare widths vars a := by
  unfold declare
  rcases h.statement_cases with ⟨_, hs⟩ | ⟨mnemonic, operands, operands', ha, hb, _⟩
  · rw [hs, h.number]
  · rw [ha, hb]

end Program

theorem Symbols.Renamed.insert {names : Set String} (hinj : Set.InjOn rename names)
    {m n : Symbols} (h : Renamed rename m n)
    (hknown : ∀ label address, m.find? label = some address → label ∈ names)
    {label : String} (hlabel : label ∈ names) (value : UInt32) :
    Renamed rename (m.insert label value) (n.insert (rename label) value) := by
  intro name address
  rw [NameMap.find?_insert]
  constructor
  · intro hfind
    split at hfind
    · next heq => exact ⟨label, heq.symm, by rw [NameMap.find?_insert, if_pos rfl, hfind]⟩
    · next hne =>
      obtain ⟨other, rfl, hother⟩ := (h name address).mp hfind
      have hother_ne : other ≠ label := by
        rintro rfl
        exact hne rfl
      exact ⟨other, rfl, by rw [NameMap.find?_insert, if_neg hother_ne, hother]⟩
  · rintro ⟨other, rfl, hfind⟩
    rw [NameMap.find?_insert] at hfind
    split at hfind
    · next heq => rw [heq, if_pos rfl, hfind]
    · next hne =>
      have hrename : rename other ≠ rename label := by
        intro heq
        exact hne (hinj (hknown other address hfind) hlabel heq)
      rw [if_neg hrename]
      exact (h _ address).mpr ⟨other, rfl, hfind⟩

namespace Layout

variable {names : Set String} {x y x' : Layout} {a b : Line}

structure Renamed (names : Set String) (rename : String → String) (x y : Layout) : Prop where
  size : y.size = x.size
  vars : y.vars = x.vars
  labels : Symbols.Renamed rename x.labels y.labels
  known : ∀ label address, x.labels.find? label = some address → label ∈ names

theorem Renamed.addLabel (hinj : Set.InjOn rename names) (h : Renamed names rename x y)
    (hab : a.Retargets table rename swap b) (ha : ∀ label, a.label = some label → label ∈ names)
    (hx : x.addLabel a = .ok x') : ∃ y', y.addLabel b = .ok y' ∧ Renamed names rename x' y' := by
  obtain ⟨hfresh, rfl⟩ := addLabel_eq_ok_iff.mp hx
  have hlabel := hab.label
  cases hl : a.label with
  | none =>
    rw [hl] at hlabel
    refine ⟨y, by simp [Layout.addLabel, hlabel], ?_⟩
    simpa [labelsWith, hl] using h
  | some label =>
    rw [hl] at hlabel
    have hmem := ha label hl
    have hfresh' : y.labels.contains (rename label) = false := by
      by_contra htaken
      obtain ⟨address, hfind⟩ := Option.isSome_iff_exists.mp (Bool.not_eq_false _ ▸ htaken)
      obtain ⟨other, heq, hother⟩ := (h.labels _ address).mp hfind
      obtain rfl := hinj (h.known other address hother) hmem heq
      have := hfresh other hl
      simp [NameMap.contains, hother] at this
    refine ⟨_, addLabel_eq_ok_iff.mpr ⟨?_, rfl⟩, h.size, h.vars, ?_, ?_⟩
    · intro name hname
      cases hlabel.symm.trans hname
      exact hfresh'
    · simp only [labelsWith, hl, hlabel, Option.map_some, h.size]
      exact h.labels.insert hinj h.known hmem _
    · intro other address hfind
      simp only [labelsWith, hl, NameMap.find?_insert] at hfind
      split at hfind
      · next heq => exact heq ▸ hmem
      · exact h.known other address hfind

section FirstPass

variable (hsized : ∀ n vars, (Scope.sizing n widths vars).Translates swap (fun _ _ => True)
  (.sizing n widths vars))
include hsized

theorem addStatement_of_retargets (hvars : y.vars = x.vars) (hab : a.Retargets table rename swap b)
    (hx : x.addStatement table widths a = .ok x') :
    ∃ y', y.addStatement table widths b = .ok y' := by
  have hscope : y.scope widths b = x.scope widths a := by rw [scope, scope, hvars, hab.number]
  have hclean : ∀ d, x.addStatement table widths a ≠ .error d := by
    intro d hd
    cases hx.symm.trans hd
  cases hy : y.addStatement table widths b with
  | ok y' => exact ⟨y', rfl⟩
  | error d =>
    -- A fault of the second line would be one of the first.
    exfalso
    rw [addStatement_eq_error_iff, hscope] at hy
    rcases hab.statement_cases with ⟨_, hs⟩ | ⟨mnemonic, operands, operands', ha, hb, hs⟩
    · rw [hs] at hy
      exact hclean d (addStatement_eq_error_iff.mpr hy)
    · rcases hy with ⟨_, _, _, hb', _⟩ | ⟨_, _, d', hb', hfails, _⟩
      · cases hb.symm.trans hb'
      · cases hb.symm.trans hb'
        cases he : table.encode mnemonic operands (x.scope widths a) with
        | error d' =>
          exact hclean _ (addStatement_eq_error_iff.mpr (Or.inr ⟨_, _, d', ha, he, rfl⟩))
        | ok e =>
          obtain ⟨e', he', _⟩ := MnemonicTable.encode_of_retargets hs (hsized _ _) he
          cases he'.symm.trans hfails

variable (hinj : Set.InjOn rename names)
include hinj

theorem Renamed.addLine (h : Renamed names rename x y) (hab : a.Retargets table rename swap b)
    (ha : ∀ label, a.label = some label → label ∈ names)
    (hx : x.addLine table widths a = .ok x') :
    ∃ y', y.addLine table widths b = .ok y' ∧ Renamed names rename x' y' := by
  obtain ⟨xl, hxl, hx⟩ := bind_eq_ok_iff.mp hx
  obtain ⟨yl, hyl, hl⟩ := h.addLabel hinj hab ha hxl
  obtain ⟨y', hy⟩ := addStatement_of_retargets hsized hl.vars hab hx
  refine ⟨y', bind_eq_ok_iff.mpr ⟨yl, hyl, hy⟩, ?_⟩
  obtain rfl := addStatement_eq_ok hx
  obtain rfl := addStatement_eq_ok hy
  refine ⟨?_, ?_, hl.labels, hl.known⟩
  · simp only [hl.size, Program.lineSize_of_retargets hab]
  · simp only [hl.vars, Program.declare_of_retargets hab]

/-- The whole first pass, generalised over what is already laid out. -/
theorem Renamed.addLines {lines lines' : List Line}
    (hlines : List.Forall₂ (Line.Retargets table rename swap) lines lines')
    (hnames : ∀ label ∈ Program.labelNames lines, label ∈ names) (h : Renamed names rename x y)
    (hx : x.addLines table widths lines = .ok x') :
    ∃ y', y.addLines table widths lines' = .ok y' ∧ Renamed names rename x' y' := by
  induction hlines generalizing x y with
  | nil =>
    cases hx
    exact ⟨y, rfl, h⟩
  | @cons a b lines lines' hab _ ih =>
    obtain ⟨xn, hxn, hx⟩ := bind_eq_ok_iff.mp hx
    simp only [Program.mem_labelNames, List.mem_cons, exists_eq_or_imp] at hnames ih
    have ha : ∀ label, a.label = some label → label ∈ names :=
      fun label hl => hnames label (Or.inl hl)
    obtain ⟨yn, hyn, hn⟩ := h.addLine hsized hinj hab ha hxn
    obtain ⟨y', hy, h'⟩ := ih (fun label hl => hnames label (Or.inr hl)) hn hx
    exact ⟨y', bind_eq_ok_iff.mpr ⟨yn, hyn, hy⟩, h'⟩

end FirstPass

theorem listingFrom_of_retargets
    (hfinal : ∀ n, (Scope.ofSymbols n widths x.labels x.vars).Translates swap Eq
      (.ofSymbols n widths y.labels y.vars))
    {lines lines' : List Line}
    (hlines : List.Forall₂ (Line.Retargets table rename swap) lines lines')
    {start : Nat} {listing : List ListingLine}
    (hx : x.listingFrom table widths start lines = .ok listing) :
    ∃ listing', y.listingFrom table widths start lines' = .ok listing' ∧
      List.Forall₂ ListingLine.SamePlace listing listing' := by
  induction hlines generalizing start listing with
  | nil =>
    cases hx
    exact ⟨[], rfl, .nil⟩
  | @cons a b lines lines' hab _ ih =>
    rcases hab.statement_cases with ⟨hi, hs⟩ | ⟨mnemonic, operands, operands', ha, hb, hs⟩
    · have hi' : b.isInstruction ≠ true := by rwa [Line.isInstruction, hs]
      rw [listingFrom_cons_of_not_isInstruction hi] at hx
      rw [listingFrom_cons_of_not_isInstruction hi']
      exact ih hx
    · rcases listingFrom_cons_eq_ok hx with ⟨hi, _⟩ | ⟨_, _, e, rest, ha', he, hrest, rfl⟩
      · exact absurd (Line.isInstruction_iff.mpr ⟨mnemonic, operands, ha⟩) hi
      · cases ha.symm.trans ha'
        obtain ⟨e', he', hbytes⟩ := MnemonicTable.encode_of_retargets hs (hfinal a.number) he
        have hsame : e'.bytes = e.bytes := by
          rcases hbytes with hsame | ⟨kind, address, _, rfl, hbytes, hbytes'⟩
          · exact hsame
          · exact hbytes'.trans hbytes.symm
        obtain ⟨rest', hrest', hsames⟩ := ih hrest
        refine ⟨⟨b.number, UInt32.ofNat start, e'.bytes, b.text⟩ :: rest', ?_,
          .cons ⟨hab.number, rfl, hsame⟩ hsames⟩
        rw [listingFrom_cons_of_statement hb, finalScope, hab.number, he']
        exact bind_eq_ok_iff.mpr ⟨rest', by rw [hsame, hrest'], rfl⟩

end Layout

theorem ListingLine.flatMap_bytes_of_samePlace {listing listing' : List ListingLine}
    (h : List.Forall₂ SamePlace listing listing') :
    listing'.flatMap (·.bytes) = listing.flatMap (·.bytes) := by
  induction h with
  | nil => rfl
  | cons hplace _ ih => rw [List.flatMap_cons, List.flatMap_cons, hplace.bytes, ih]

theorem Assembly.ofLines_of_retargets {lines lines' : List Line} {out : Assembly}
    (hlines : List.Forall₂ (Line.Retargets table rename swap) lines lines')
    (hinj : Set.InjOn rename {name | name ∈ Program.labelNames lines})
    (hsized : ∀ n vars, (Scope.sizing n widths vars).Translates swap (fun _ _ => True)
      (.sizing n widths vars))
    (hfinal : ∀ labels, Symbols.Renamed rename out.labels labels → ∀ n vars,
      (Scope.ofSymbols n widths out.labels vars).Translates swap Eq
        (.ofSymbols n widths labels vars))
    (h : ofLines table widths lines = .ok out) :
    ∃ out', ofLines table widths lines' = .ok out' ∧ out.SameImage out' ∧
      Symbols.Renamed rename out.labels out'.labels := by
  rw [ofLines_eq] at h ⊢
  obtain ⟨x, hx, h⟩ := bind_eq_ok_iff.mp h
  obtain ⟨_, hsize, h⟩ := bind_eq_ok_iff.mp h
  obtain ⟨listing, hlisting, h⟩ := bind_eq_ok_iff.mp h
  cases h
  have hempty : Layout.Renamed {name | name ∈ Program.labelNames lines} rename .empty .empty := by
    refine ⟨rfl, rfl, ?_, ?_⟩
    · intro name address
      simp [Layout.empty]
    · intro label address hfind
      simp [Layout.empty] at hfind
  obtain ⟨y, hy, hxy⟩ := hempty.addLines hsized hinj hlines (fun _ hl => hl) hx
  have hsize' : y.checkSize widths = .ok () := by
    rw [Layout.checkSize_eq_ok_iff] at hsize ⊢
    rwa [hxy.size]
  obtain ⟨listing', hlisting', hsame⟩ := Layout.listingFrom_of_retargets
    (fun n => hxy.vars ▸ hfinal y.labels hxy.labels n y.vars) hlines hlisting
  have hbytes := ListingLine.flatMap_bytes_of_samePlace hsame
  refine ⟨⟨listing'.flatMap (·.bytes), listing', y.labels, y.vars⟩, ?_,
    ⟨hbytes, hxy.vars, hsame⟩, hxy.labels⟩
  refine bind_eq_ok_iff.mpr ⟨y, hy, ?_⟩
  refine bind_eq_ok_iff.mpr ⟨(), hsize', ?_⟩
  exact bind_eq_ok_iff.mpr ⟨listing', hlisting', rfl⟩

end EightBitAsm
