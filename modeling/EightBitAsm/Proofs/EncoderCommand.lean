import EightBitAsm.CommandLine.Encoder
import EightBitAsm.Proofs.ByteSink
import EightBitAsm.Proofs.JobRuns
import EightBitAsm.Proofs.LiteralText

/-! The command line of the encoder. Options with their values attached are read in any order, and
label definitions make up one table whatever their order and the spelling of their addresses. So a
run that is given widths and labels encodes its instruction among exactly these. -/
namespace EightBitAsm

namespace CommandLine

def optionToken (name value : String) : String :=
  "--" ++ name ++ "=" ++ value

theorem Token.ofString_optionToken {name : String} (h : '=' ∉ name.toList) (value : String) :
    Token.ofString (optionToken name value) = .long name (some value) := by
  have hchars : (optionToken name value).toList =
      '-' :: '-' :: (name.toList ++ '=' :: value.toList) := by
    simp [optionToken]
  obtain ⟨c, cs, hcs⟩ : ∃ c cs, name.toList ++ '=' :: value.toList = c :: cs :=
    List.exists_cons_of_ne_nil (by simp)
  unfold Token.ofString
  rw [hchars, hcs]
  simp only
  rw [← hcs, Text.cut?_append h]
  simp

/-- Options that a grammar takes one after the other: each has a rule that accepts its value, and
only a repeatable one comes twice. -/
def Grammar.Admits (g : Grammar) (given : List (String × String)) : Prop :=
  ∀ before name value after, given = before ++ (name, value) :: after →
    '=' ∉ name.toList ∧ ∃ rule, g.options.find? (·.name = name) = some rule ∧
      rule.kind.accepts value = true ∧ (rule.repeatable = true ∨ before.lookup name = none)

theorem Arguments.read_optionTokens {g : Grammar} {a : Arguments} {given : List (String × String)}
    (h : g.Admits (a.options ++ given)) (rest : List String) :
    a.read g (given.map (fun o => optionToken o.1 o.2) ++ rest) =
      Arguments.read g { a with options := a.options ++ given } rest := by
  induction given generalizing a with
  | nil => simp
  | cons o given ih =>
    obtain ⟨name, value⟩ := o
    obtain ⟨hname, rule, hrule, haccepts, hfresh⟩ := h a.options name value given rfl
    have hrulename : rule.name = name := by simpa using List.find?_some hrule
    have hadd : a.addOption rule value =
        .ok { a with options := a.options ++ [(name, value)] } := by
      rcases hfresh with hr | hr
      · simp [Arguments.addOption, haccepts, hr, hrulename]
      · simp [Arguments.addOption, Arguments.option?, haccepts, hr, hrulename]
    rw [List.map_cons, List.cons_append, Arguments.read, Token.ofString_optionToken hname]
    simp only [Grammar.asked?, Grammar.askedLong, hrule, hadd, ok_bind]
    rw [ih (by simpa using h)]
    simp

namespace Encoder

def options (config : Option String) (definitions : List String) : List (String × String) :=
  (config.map fun path => ("config", path)).toList ++ definitions.map fun d => ("label", d)

theorem addPositionals_grammar (a : Arguments) (tokens : List String) :
    a.addPositionals grammar tokens = .ok { a with positional := a.positional ++ tokens } := by
  induction tokens generalizing a with
  | nil => simp [Arguments.addPositionals]
  | cons token tokens ih =>
    have hkind : (grammar.positional[a.positional.length]?).or grammar.further = some .text := by
      cases a.positional.length <;> rfl
    have hadd : a.addPositional grammar token =
        .ok { a with positional := a.positional ++ [token] } := by
      simp [Arguments.addPositional, hkind, ValueKind.accepts]
    rw [Arguments.addPositionals, hadd, ok_bind, ih]
    simp

variable {given : List (String × String)} {config : Option String} {definitions : List String}

theorem readRequest_eq_ok (h : grammar.Admits given) (mnemonic : String) (operands : List String) :
    readRequest (given.map (fun o => optionToken o.1 o.2) ++ "--" :: mnemonic :: operands) = .ok
      { config := given.lookup "config"
        labels := (given.filter (·.1 = "label")).map (·.2)
        mnemonic
        operands } := by
  have hread : grammar.read
      (given.map (fun o => optionToken o.1 o.2) ++ "--" :: mnemonic :: operands) =
      .ok { options := given, positional := mnemonic :: operands } := by
    have htokens := Arguments.read_optionTokens (a := {}) h ("--" :: mnemonic :: operands)
    rw [Grammar.read, htokens, Arguments.read]
    have hseparator : Token.ofString "--" = .separator := rfl
    simp [hseparator, addPositionals_grammar]
  simp [readRequest, hread, Arguments.option?, Arguments.optionAll]

theorem filter_config_of_perm (h : given.Perm (options config definitions)) :
    given.filter (·.1 = "config") = (config.map fun path => ("config", path)).toList := by
  have hfilter := h.filter (fun o => decide (o.1 = "config"))
  have hoptions : (options config definitions).filter (fun o => decide (o.1 = "config")) =
      (config.map fun path => ("config", path)).toList := by
    cases config <;> simp [options, List.filter_map, Function.comp_def]
  rw [hoptions] at hfilter
  cases config with
  | none => exact List.perm_nil.mp hfilter
  | some path => exact List.perm_singleton.mp hfilter

theorem labels_perm (h : given.Perm (options config definitions)) :
    ((given.filter (·.1 = "label")).map (·.2)).Perm definitions := by
  have hfilter := (h.filter (fun o => decide (o.1 = "label"))).map (·.2)
  have hoptions :
      ((options config definitions).filter (fun o => decide (o.1 = "label"))).map (·.2) =
        definitions := by
    cases config <;> simp [options, List.filter_map, Function.comp_def]
  rwa [hoptions] at hfilter

theorem lookup_eq_head?_filter (name : String) (given : List (String × String)) :
    given.lookup name = (given.filter (·.1 = name)).head?.map (·.2) := by
  induction given with
  | nil => rfl
  | cons o given ih =>
    obtain ⟨key, value⟩ := o
    by_cases h : key = name
    · subst h
      simp
    · have hne : (name == key) = false := by simpa using Ne.symm h
      rw [List.lookup_cons, hne, List.filter_cons_of_neg (by simpa using h), ← ih]

theorem lookup_config_of_perm (h : given.Perm (options config definitions)) :
    given.lookup "config" = config := by
  rw [lookup_eq_head?_filter, filter_config_of_perm h]
  cases config <;> rfl

theorem admits_of_perm (h : given.Perm (options config definitions)) (hpath : config ≠ some "") :
    grammar.Admits given := by
  intro before name value after hgiven
  have hmem : (name, value) ∈ options config definitions :=
    h.mem_iff.mp (by rw [hgiven]; simp)
  rcases List.mem_append.mp hmem with hmem | hmem
  · obtain ⟨path, hconfig, heq⟩ :
        ∃ path, config = some path ∧ ("config", path) = (name, value) := by
      simpa using hmem
    cases heq
    have hne : value ≠ "" := fun hempty => hpath (by rw [hconfig, hempty])
    have haccepts : ValueKind.path.accepts value = true := by simpa [ValueKind.accepts] using hne
    refine ⟨by decide, { name := "config", kind := .path }, rfl, haccepts, Or.inr ?_⟩
    -- Another one in front would make two.
    have hlength := congrArg List.length (filter_config_of_perm h)
    rw [hgiven, hconfig, List.filter_append, List.filter_cons_of_pos (by simp)] at hlength
    have hbefore : before.filter (·.1 = "config") = [] := by
      apply List.eq_nil_of_length_eq_zero
      simp only [List.length_append, List.length_cons, Option.map_some, Option.toList_some,
        List.length_nil] at hlength
      omega
    rw [lookup_eq_head?_filter, hbefore]
    rfl
  · obtain ⟨d, _, heq⟩ := List.mem_map.mp hmem
    cases heq
    exact ⟨by decide, _, rfl, rfl, Or.inl rfl⟩

theorem readLabel_definition {name text : String} {address : UInt32}
    (hname : Identifier.isValid name = true) (htext : Literal.Spells address text) :
    readLabel (name ++ "=" ++ text) = .ok (name, address) := by
  have hvalid : Identifier.IsName name.toList := Identifier.isValidChars_iff.mp hname
  have hequals : '=' ∉ name.toList := hvalid.not_mem (by decide)
  have hchars : (name ++ "=" ++ text).toList = name.toList ++ '=' :: text.toList := by simp
  have htrim : Text.trim text.toList = text.toList :=
    Text.trim_eq_self (Literal.isBlank_of_spells htext)
  rw [readLabel, hchars, Text.cut?_append hequals]
  simp [hvalid.trim_eq, htrim, Literal.read_of_spells htext]

theorem defineLabels_eq_ok (h : ∀ d ∈ definitions, ∃ entry, readLabel d = .ok entry)
    (labels : Symbols) :
    defineLabels labels definitions = .ok
      ((definitions.filterMap fun d => (readLabel d).toOption).foldl
        (fun m e => m.insert e.1 e.2) labels) := by
  induction definitions generalizing labels with
  | nil => rfl
  | cons d definitions ih =>
    obtain ⟨⟨name, address⟩, hentry⟩ := h d List.mem_cons_self
    have hrest : ∀ d ∈ definitions, ∃ entry, readLabel d = .ok entry :=
      fun d hd => h d (List.mem_cons_of_mem _ hd)
    have hhead : (readLabel d).toOption = some (name, address) := by rw [hentry]; rfl
    rw [defineLabels, hentry, ok_bind, List.filterMap_cons, hhead]
    exact ih hrest _

/-- Definitions of all labels, in any order and spelling, define the labels. -/
theorem defineLabels_of_perm {labels : Symbols} {spelling : String → String}
    (hvalid : ∀ name ∈ labels.names, Identifier.isValid name = true)
    (hspelling : ∀ name address, labels.find? name = some address →
      Literal.Spells address (spelling name))
    (h : definitions.Perm (labels.names.map fun name => name ++ "=" ++ spelling name)) :
    defineLabels .empty definitions = .ok labels := by
  have hread : ∀ e ∈ labels.entries, readLabel (e.1 ++ "=" ++ spelling e.1) = .ok e := by
    intro e he
    refine readLabel_definition (hvalid e.1 (List.mem_map.mpr ⟨e, he, rfl⟩)) ?_
    exact hspelling e.1 e.2 (NameMap.find?_eq_some_iff.mpr he)
  have hreads : ∀ d ∈ definitions, ∃ entry, readLabel d = .ok entry := by
    intro d hd
    obtain ⟨name, hname, rfl⟩ := List.mem_map.mp (h.mem_iff.mp hd)
    obtain ⟨e, he, rfl⟩ := List.mem_map.mp hname
    exact ⟨e, hread e he⟩
  have hentries : (labels.names.map fun name => name ++ "=" ++ spelling name).filterMap
      (fun d => (readLabel d).toOption) = labels.entries := by
    rw [NameMap.names, List.map_map, List.filterMap_map]
    calc labels.entries.filterMap _ = labels.entries.filterMap some :=
          List.filterMap_congr fun e he => by
            simp [hread e he, Except.toOption]
      _ = labels.entries := List.filterMap_some
  have hperm := h.filterMap fun d => (readLabel d).toOption
  rw [hentries] at hperm
  rw [defineLabels_eq_ok hreads]
  exact congrArg Except.ok (NameMap.ofList_of_perm hperm)

theorem perform_eq_ok {φ : Type} {fs : FileSystem φ} {files : φ} {request : Request}
    {widths : Widths} {labels : Symbols} {e : Emission}
    (hconfig : fs.Configured files request.config widths)
    (hlabels : defineLabels .empty request.labels = .ok labels)
    (he : InstructionSet.table.encode request.mnemonic request.operands
      (.ofSymbols 1 widths labels .empty) = .ok e) :
    request.perform fs.system ⟨files, ""⟩ = (.ok (), ⟨files, hexLine e.bytes⟩) := by
  have hencode : (⟨1, widths, labels, .empty, []⟩ : Session).encode InstructionSet.table
      request.mnemonic request.operands = (⟨1, widths, labels, .empty, e.bytes⟩, .ok e) := by
    rw [Session.encode_eq, Session.scope, he]
    rfl
  have hlift : ∀ c, (liftExcept (.ok labels : Except Report Symbols) :
      Job (StateM (Console φ)) Symbols) c = (.ok labels, c) := fun _ => rfl
  rw [Request.perform, Job.bind_apply, (fs.reads_readConfig request.config _).of_result hconfig,
    hlabels]
  simp only [Job.bind_apply, hlift, hencode, FileSystem.printText_apply, String.empty_append]

theorem run_eq_success {φ : Type} {fs : FileSystem φ} {files : φ} {widths : Widths}
    {labels : Symbols} {spelling : String → String} {mnemonic : String} {operands : List String}
    {e : Emission} (hconfig : fs.Configured files config widths)
    (hvalid : ∀ name ∈ labels.names, Identifier.isValid name = true)
    (hspelling : ∀ name address, labels.find? name = some address →
      Literal.Spells address (spelling name))
    (hgiven : given.Perm
      (options config (labels.names.map fun name => name ++ "=" ++ spelling name)))
    (he : InstructionSet.table.encode mnemonic operands (.ofSymbols 1 widths labels .empty) =
      .ok e) :
    run fs (given.map (fun o => optionToken o.1 o.2) ++ "--" :: mnemonic :: operands) files =
      ⟨.success, hexLine e.bytes, "", files⟩ := by
  have hrequest := readRequest_eq_ok (admits_of_perm hgiven (fs.config_ne_empty hconfig)) mnemonic
    operands
  have hlabels := defineLabels_of_perm hvalid hspelling (labels_perm hgiven)
  rw [lookup_config_of_perm hgiven] at hrequest
  rw [run, hrequest]
  exact Outcome.ofJob_of_ok (perform_eq_ok hconfig hlabels he)

end Encoder

end CommandLine

end EightBitAsm
