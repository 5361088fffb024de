import EightBitAsm.CommandLine.Assembler
import EightBitAsm.Proofs.JobRuns
import EightBitAsm.Proofs.TreePaths

/-! What a run of the assembler does to files. Everything is read and checked before the first file
is written, so a run that stops early has changed nothing, and the image and the listing come from
the source as it was, whatever files they replace. -/
namespace EightBitAsm.CommandLine

namespace FileSystem

variable {φ : Type} (fs : FileSystem φ)

def WritesText (text : String) : Option String → φ → φ → Prop
  | none, before, after => after = before
  | some path, before, after => ∃ content, decodeText content = .ok text ∧
      fs.write before path content = (.ok (), after)

end FileSystem

namespace Assembler

variable {φ : Type} {fs : FileSystem φ} {files : φ} {request : Request} {input : String}

/-- Options go before the configuration. -/
def Request.override (request : Request) (base : Widths) : Widths where
  shortBits := request.shortBits.getD base.shortBits
  farBits := request.farBits.getD base.farBits

/-- What keeps a request from writing anything. -/
inductive Obstacle (fs : FileSystem φ) (files : φ) (request : Request) (input : String) : Prop where
  | config (h : ∀ base, ¬ fs.Configured files request.config base)
  | farWidth {base : Widths} (hb : fs.Configured files request.config base)
      (h : 32 < (request.override base).farBits)
  | input (h : ∀ text, ¬ fs.HoldsText files input text)
  | source {base : Widths} {text : String} {e : AssembleError}
      (hb : fs.Configured files request.config base) (ht : fs.HoldsText files input text)
      (h : assemble InstructionSet.table (request.override base) text = .error e)

def Yields (fs : FileSystem φ) (request : Request) (input : String) (files : φ)
    (assembly : Assembly) : Prop :=
  ∃ base text, fs.Configured files request.config base ∧ (request.override base).farBits ≤ 32 ∧
    fs.HoldsText files input text ∧
    assemble InstructionSet.table (request.override base) text = .ok assembly

theorem reads_loadWidths (request : Request) :
    Job.Reads (loadWidths fs.system request) fun files w =>
      ∃ base, fs.Configured files request.config base ∧
        (request.override base).farBits ≤ 32 ∧ request.override base = w := by
  refine (fs.reads_readConfig request.config _).bind
    (fun base _ w => (request.override base).farBits ≤ 32 ∧ request.override base = w) ?_
  intro base
  by_cases hfar : (request.override base).farBits ≤ 32
  · simp only [Request.override] at hfar
    simp only [Request.override, if_pos hfar]
    exact (Job.reads_pure _).congr fun _ _ => by simp [hfar]
  · simp only [Request.override] at hfar
    simp only [Request.override, if_neg hfar]
    exact (Job.reads_throw _).congr fun _ _ => by simp [hfar]

theorem reads_assembleFile (w : Widths) (input : String) :
    Job.Reads (assembleFile fs.system w input) fun files assembly =>
      ∃ text, fs.HoldsText files input text ∧
        assemble InstructionSet.table w text = .ok assembly := by
  refine (fs.reads_readText input).bind
    (fun text _ assembly => assemble InstructionSet.table w text = .ok assembly) ?_
  intro text
  cases assemble InstructionSet.table w text with
  | ok assembly => exact (Job.reads_pure assembly).congr fun _ _ => by simp
  | error e => exact (Job.reads_throw _).congr fun _ _ => by simp

theorem reads_assembly (request : Request) (input : String) :
    Job.Reads (loadWidths fs.system request >>= fun w => assembleFile fs.system w input)
      (Yields fs request input) := by
  refine ((reads_loadWidths request).bind _ fun w => reads_assembleFile w input).congr ?_
  intro files assembly
  constructor
  · rintro ⟨_, ⟨base, hbase, hfar, rfl⟩, text, htext, hassembly⟩
    exact ⟨base, text, hbase, hfar, htext, hassembly⟩
  · rintro ⟨base, text, hbase, hfar, htext, hassembly⟩
    exact ⟨_, ⟨base, hbase, hfar, rfl⟩, text, htext, hassembly⟩

theorem not_obstacle_of_yields {assembly : Assembly} (h : Yields fs request input files assembly) :
    ¬ Obstacle fs files request input := by
  obtain ⟨base, text, hbase, hfar, htext, hassembly⟩ := h
  have hconfig := fs.reads_readConfig request.config fun _ => id
  rintro (hnone | ⟨hb, hwide⟩ | hnone | ⟨hb, ht, herror⟩)
  · exact hnone base hbase
  · rw [hconfig.unique hb hbase] at hwide
    omega
  · exact hnone text htext
  · rw [hconfig.unique hb hbase, (fs.reads_readText input).unique ht htext, hassembly] at herror
    cases herror

theorem exists_yields (h : ¬ Obstacle fs files request input) :
    ∃ assembly, Yields fs request input files assembly := by
  by_cases hconfig : ∃ base, fs.Configured files request.config base
  swap
  · exact absurd (.config (not_exists.mp hconfig)) h
  obtain ⟨base, hbase⟩ := hconfig
  by_cases hfar : (request.override base).farBits ≤ 32
  swap
  · exact absurd (.farWidth hbase (by omega)) h
  by_cases hinput : ∃ text, fs.HoldsText files input text
  swap
  · exact absurd (.input (not_exists.mp hinput)) h
  obtain ⟨text, htext⟩ := hinput
  cases hassemble : assemble InstructionSet.table (request.override base) text with
  | error e => exact absurd (.source hbase htext hassemble) h
  | ok assembly => exact ⟨assembly, base, text, hbase, hfar, htext, hassemble⟩

/-! ### Writing -/

def Command.input? : Command → Option String
  | build input _ => some input
  | list input .. => some input
  | mnemonics => none

def Command.deliver (fs : FileSystem φ) (assembly : Assembly) :
    Command → Job (StateM (Console φ)) Unit
  | build _ output => writeImage fs.system assembly output
  | list _ format labelsOut out => writeListing fs.system assembly format labelsOut out
  | mnemonics => pure ()

theorem perform_eq (h : request.command.input? = some input) :
    request.perform fs.system =
      (loadWidths fs.system request >>= fun w => assembleFile fs.system w input) >>=
        request.command.deliver fs := by
  rw [bind_assoc, Request.perform]
  obtain ⟨config, farBits, shortBits, command⟩ := request
  cases command with
  | build => cases h; rfl
  | list => cases h; rfl
  | mnemonics => cases h

inductive Command.Writes (fs : FileSystem φ) (assembly : Assembly) : Command → φ → φ → Prop where
  | build {input output : String} {before after : φ}
      (h : fs.write before output assembly.bytes = (.ok (), after)) :
      Writes fs assembly (.build input output) before after
  | list {input : String} {format : Format} {labelsOut out : Option String}
      {before between after : φ}
      (hl : fs.WritesText (labelsDocument assembly) labelsOut before between)
      (ho : fs.WritesText (rendered assembly format) out between after) :
      Writes fs assembly (.list input format labelsOut out) before after

def Command.printed (assembly : Assembly) : Command → String
  | build _ output =>
    Text.decimal assembly.bytes.length ++ " bytes -> " ++ output ++ "\n"
  | list _ _ _ (some _) => ""
  | list _ format _ none => rendered assembly format ++ if format = .json then "\n" else ""
  | mnemonics => ""

theorem writeFile_of_writesText {text path : String} {before after : φ}
    (h : fs.WritesText text (some path) before after) (output : String) :
    fs.system.writeFile path (encodeText text) id ⟨before, output⟩ =
      (.ok (), ⟨after, output⟩) := by
  obtain ⟨content, hcontent, hwrite⟩ := h
  rw [FileSystem.writeFile_apply, ← decodeText_eq_ok_iff.mp hcontent, hwrite]

theorem writesText_of_writeFile {text path : String} {c d : Console φ}
    (h : fs.system.writeFile path (encodeText text) id c = (.ok (), d)) :
    fs.WritesText text (some path) c.files d.files := by
  rw [FileSystem.writeFile_apply] at h
  refine ⟨encodeText text, decodeText_encodeText text, ?_⟩
  split at h
  · next hwrite =>
    cases h
    exact hwrite
  · cases h

def showListing (fs : FileSystem φ) (assembly : Assembly) (format : Format) :
    Option String → Job (StateM (Console φ)) Unit
  | some path => fs.system.writeFile path (encodeText (rendered assembly format)) id
  | none => do
    fs.system.printText (rendered assembly format)
    if format = .json then
      fs.system.printText "\n"

theorem writeListing_none (assembly : Assembly) (format : Format) (out : Option String) :
    writeListing fs.system assembly format none out = showListing fs assembly format out := by
  cases out <;> rfl

theorem writeListing_some (assembly : Assembly) (format : Format) (path : String)
    (out : Option String) :
    writeListing fs.system assembly format (some path) out =
      fs.system.writeFile path (encodeText (labelsDocument assembly)) id >>= fun _ =>
        showListing fs assembly format out := by
  cases out <;> rfl

theorem showListing_of_writes {assembly : Assembly} {format : Format} {out : Option String}
    {before after : φ} (h : fs.WritesText (rendered assembly format) out before after)
    (input : String) (labelsOut : Option String) (output : String) :
    showListing fs assembly format out ⟨before, output⟩ =
      (.ok (), ⟨after, output ++ Command.printed assembly (.list input format labelsOut out)⟩) := by
  cases out with
  | some path =>
    rw [showListing, writeFile_of_writesText h]
    simp [Command.printed]
  | none =>
    cases h
    rw [showListing, Job.bind_apply, FileSystem.printText_apply]
    cases format with
    | text => simp [Command.printed]; rfl
    | json => simp [Command.printed, FileSystem.printText_apply, String.append_assoc]

theorem deliver_of_writes {command : Command} {assembly : Assembly} {before after : φ}
    (h : command.Writes fs assembly before after) (output : String) :
    command.deliver fs assembly ⟨before, output⟩ =
      (.ok (), ⟨after, output ++ command.printed assembly⟩) := by
  cases h with
  | build h =>
    rw [Command.deliver, writeImage, Job.bind_apply, FileSystem.writeFile_apply, h]
    rfl
  | @list input format labelsOut out _ between _ hl ho =>
    rw [Command.deliver]
    cases labelsOut with
    | none =>
      cases hl
      rw [writeListing_none]
      exact showListing_of_writes ho input none output
    | some path =>
      rw [writeListing_some, Job.bind_apply, writeFile_of_writesText hl]
      exact showListing_of_writes ho input (some path) output

theorem writes_of_showListing {assembly : Assembly} {format : Format} {out : Option String}
    {c d : Console φ} (h : showListing fs assembly format out c = (.ok (), d)) :
    ∃ after, fs.WritesText (rendered assembly format) out c.files after := by
  cases out with
  | none => exact ⟨_, rfl⟩
  | some path => exact ⟨_, writesText_of_writeFile h⟩

theorem writes_of_deliver {command : Command} (hinput : command.input? = some input)
    {assembly : Assembly} {c d : Console φ}
    (h : command.deliver fs assembly c = (.ok (), d)) :
    ∃ after, command.Writes fs assembly c.files after := by
  cases command with
  | build source output =>
    rw [Command.deliver, writeImage, Job.bind_apply, FileSystem.writeFile_apply] at h
    cases hwrite : fs.write c.files output assembly.bytes with
    | mk result after =>
      cases result with
      | ok => exact ⟨after, .build hwrite⟩
      | error fault =>
        rw [hwrite] at h
        cases h
  | list source format labelsOut out =>
    rw [Command.deliver] at h
    cases labelsOut with
    | none =>
      rw [writeListing_none] at h
      obtain ⟨after, ho⟩ := writes_of_showListing h
      exact ⟨after, .list rfl ho⟩
    | some path =>
      rw [writeListing_some, Job.bind_apply] at h
      split at h
      · next hlabels =>
        obtain ⟨after, ho⟩ := writes_of_showListing h
        exact ⟨after, .list (writesText_of_writeFile hlabels) ho⟩
      · cases h
  | mnemonics => cases hinput

/-! ### What is left behind -/

/-- What lies where after a command. The listing stays where the labels have the same place, and
what is elsewhere stays as it was. -/
def Command.Leaves {ι : Type} (places : Resolution fs ι) (assembly : Assembly) (before after : φ) :
    Command → Prop
  | build _ output =>
    places.content after (places.place output) = some assembly.bytes ∧
    ∀ i, i ≠ places.place output → places.content after i = places.content before i
  | list _ format labelsOut out =>
    (∀ path ∈ out, ∃ bytes, places.content after (places.place path) = some bytes ∧
      decodeText bytes = .ok (rendered assembly format)) ∧
    (∀ path ∈ labelsOut, (∀ other ∈ out, places.place path ≠ places.place other) →
      ∃ bytes, places.content after (places.place path) = some bytes ∧
        decodeText bytes = .ok (labelsDocument assembly)) ∧
    ∀ i, (∀ path ∈ labelsOut, i ≠ places.place path) → (∀ path ∈ out, i ≠ places.place path) →
      places.content after i = places.content before i
  | mnemonics => after = before

theorem content_of_writesText {ι : Type} (places : Resolution fs ι) {text : String}
    {path : Option String} {before after : φ} (h : fs.WritesText text path before after) :
    (∀ p ∈ path, ∃ bytes, places.content after (places.place p) = some bytes ∧
      decodeText bytes = .ok text) ∧
    ∀ i, (∀ p ∈ path, i ≠ places.place p) → places.content after i = places.content before i := by
  cases path with
  | none =>
    cases h
    simp
  | some path =>
    obtain ⟨content, hcontent, hwrite⟩ := h
    refine ⟨?_, ?_⟩
    · rintro p ⟨⟩
      exact ⟨content, places.content_of_write hwrite, hcontent⟩
    · intro i hi
      exact places.content_elsewhere hwrite i (hi path rfl)

theorem Command.Writes.leaves {ι : Type} (places : Resolution fs ι) {command : Command}
    {assembly : Assembly} {before after : φ} (h : command.Writes fs assembly before after) :
    command.Leaves places assembly before after := by
  cases h with
  | build h => exact ⟨places.content_of_write h, places.content_elsewhere h⟩
  | list hl ho =>
    obtain ⟨hlabels, hframe⟩ := content_of_writesText places hl
    obtain ⟨hlisting, hframe'⟩ := content_of_writesText places ho
    refine ⟨hlisting, ?_, ?_⟩
    · intro path hpath hother
      obtain ⟨bytes, hbytes, htext⟩ := hlabels path hpath
      exact ⟨bytes, (hframe' _ hother).trans hbytes, htext⟩
    · intro i hi hi'
      exact (hframe' i hi').trans (hframe i hi)

theorem rendered_json_ne_empty (assembly : Assembly) : rendered assembly .json ≠ "" := by
  simp [rendered, Json.ofAssembly, Json.Value.pretty]

theorem printed_list_eq_empty_iff {assembly : Assembly} {format : Format}
    {labelsOut out : Option String} :
    Command.printed assembly (.list input format labelsOut out) = "" ↔
      out.isSome = true ∨ rendered assembly format = "" := by
  cases out with
  | some path => simp [Command.printed]
  | none => cases format <;> simp [Command.printed, rendered_json_ne_empty]

theorem perform_of_yields (h : request.command.input? = some input) {assembly : Assembly}
    (hyields : Yields fs request input files assembly) :
    request.perform fs.system ⟨files, ""⟩ = request.command.deliver fs assembly ⟨files, ""⟩ := by
  rw [perform_eq h, Job.bind_apply, (reads_assembly request input).of_result hyields]

theorem perform_of_obstacle (h : request.command.input? = some input)
    (hobstacle : Obstacle fs files request input) :
    ∃ report, request.perform fs.system ⟨files, ""⟩ = (.error report, ⟨files, ""⟩) := by
  have hnone : ∀ assembly, ¬ Yields fs request input files assembly :=
    fun _ hyields => not_obstacle_of_yields hyields hobstacle
  obtain ⟨report, hreport⟩ :=
    (reads_assembly request input).of_no_result (c := ⟨files, ""⟩) hnone
  exact ⟨report, by rw [perform_eq h, Job.bind_apply, hreport]⟩

theorem run_eq {tokens : List String} (h : readRequest tokens = .ok request) (files : φ) :
    run fs tokens files = .ofJob (request.perform fs.system) files := by
  rw [run, h]

/-- What a command line does to files, whatever the file system. If something keeps it from writing,
it fails without output and the files are those before the run. Otherwise it succeeds exactly if its
writes do; then their places hold the image, the labels and the listing, all made from the source
before the run, and every other place holds what it held. -/
theorem run_files {tokens : List String} {request : Request} {input : String}
    (hrequest : readRequest tokens = .ok request) (hinput : request.command.input? = some input)
    {φ ι : Type} (fs : FileSystem φ) (places : Resolution fs ι) (files : φ) :
    (Obstacle fs files request input →
      (run fs tokens files).exit.code = 1 ∧ (run fs tokens files).output = "" ∧
        (run fs tokens files).files = files) ∧
    (¬ Obstacle fs files request input → ∃ assembly, Yields fs request input files assembly ∧
      (∃ source, places.content files (places.place input) = some source ∧
        ∀ text, fs.HoldsText files input text ↔ decodeText source = .ok text) ∧
      ((run fs tokens files).exit.code = 0 ↔
        ∃ after, request.command.Writes fs assembly files after) ∧
      ∀ after, request.command.Writes fs assembly files after →
        (run fs tokens files).files = after ∧
        request.command.Leaves places assembly files after ∧
        ∀ format labelsOut out, request.command = .list input format labelsOut out →
          ((run fs tokens files).output = "" ↔
            out.isSome = true ∨ rendered assembly format = "")) := by
  rw [run_eq hrequest]
  constructor
  · intro hobstacle
    obtain ⟨report, hreport⟩ := perform_of_obstacle hinput hobstacle
    rw [Outcome.ofJob_of_error hreport]
    exact ⟨rfl, rfl, rfl⟩
  · intro hclear
    obtain ⟨assembly, hyields⟩ := exists_yields hclear
    have hperform := perform_of_yields hinput hyields
    have hsource : ∃ source, places.content files (places.place input) = some source ∧
        ∀ text, fs.HoldsText files input text ↔ decodeText source = .ok text := by
      obtain ⟨_, _, _, _, ⟨source, hread, _⟩, _⟩ := hyields
      refine ⟨source, places.content_of_read hread, ?_⟩
      simp [FileSystem.HoldsText, hread]
    refine ⟨assembly, hyields, hsource, ⟨?_, ?_⟩, ?_⟩
    · intro hcode
      cases hdeliver : request.command.deliver fs assembly ⟨files, ""⟩ with
      | mk result c =>
        cases result with
        | ok => exact writes_of_deliver hinput hdeliver
        | error report =>
          -- Everything was read, so only a write can have failed.
          rw [Outcome.ofJob_of_error (hperform.trans hdeliver)] at hcode
          cases hcode
    · rintro ⟨after, hafter⟩
      rw [Outcome.ofJob_of_ok (hperform.trans (deliver_of_writes hafter ""))]
      rfl
    · intro after hafter
      rw [Outcome.ofJob_of_ok (hperform.trans (deliver_of_writes hafter ""))]
      refine ⟨rfl, hafter.leaves places, ?_⟩
      intro format labelsOut out hlist
      simpa [hlist] using printed_list_eq_empty_iff

/-- The labels replace the source, and the listing replaces the configuration over an absolute path
through an empty folder. -/
theorem run_files_replaced_sources : ∃ (tree : Tree) (files : Files) (request : Request)
    (outcome : Outcome Files),
    readRequest ["--config=w.json", "--short-bits", "4", "list", "in.asm", "--labels-out",
      "./in.asm", "--out=/w/sub/../w.json"] = .ok request ∧
    request.command.input? = some "in.asm" ∧
    ¬ Obstacle tree.fileSystem files request "in.asm" ∧
    run tree.fileSystem ["--config=w.json", "--short-bits", "4", "list", "in.asm", "--labels-out",
      "./in.asm", "--out=/w/sub/../w.json"] files = outcome ∧
    outcome.exit.code = 0 ∧ outcome.output = "" ∧
    (outcome.files.find? "/w/in.asm").map decodeText =
      some (.ok "[\n  \x7b\n    \"addr\": 2,\n    \"name\": \"a\"\n  \x7d\n]") ∧
    (outcome.files.find? "/w/w.json").map decodeText = some (.ok
      ("0x0000: 00 01      2 | nop\n0x0002: 40 02      3 | a: jmp a\n\n" ++
        "Labels:\n  0x0002 a\n\nVariables:\n  0x09 v\n")) ∧
    outcome.files.find? "/w/x" = some [1] := by
  let tree : Tree :=
    { home := ["w"]
      isFolder := fun place => place.isEmpty || place = ["w"] || place = ["w", "sub"] }
  let files : Files := NameMap.ofList [
    ("/w/in.asm", encodeText "v = 9\nnop\na: jmp a ; again\n"),
    ("/w/w.json", encodeText "\x7b\"far_bits\": 12\x7d"),
    ("/w/x", [1])]
  let request : Request := ⟨some "w.json", none, some 4,
    .list "in.asm" .text (some "./in.asm") (some "/w/sub/../w.json")⟩
  let source : Assembly :=
    { bytes := [0, 1, 0x40, 2]
      listing := [⟨2, 0, [0, 1], "nop"⟩, ⟨3, 2, [0x40, 2], "a: jmp a"⟩]
      labels := ⟨[("a", 2)], by decide⟩
      vars := ⟨[("v", 9)], by decide⟩ }
  let between : Files := NameMap.insert files "/w/in.asm" (encodeText (labelsDocument source))
  let after : Files := NameMap.insert between "/w/w.json" (encodeText (rendered source .text))
  have hrequest : readRequest ["--config=w.json", "--short-bits", "4", "list", "in.asm",
      "--labels-out", "./in.asm", "--out=/w/sub/../w.json"] = .ok request := by
    decide +kernel
  have hyields : Yields tree.fileSystem request "in.asm" files source := by
    refine ⟨⟨8, 12⟩, "v = 9\nnop\na: jmp a ; again\n", ?_, by decide, ?_, by decide +kernel⟩
    · exact .file ⟨_, by decide +kernel, decodeText_encodeText "\x7b\"far_bits\": 12\x7d"⟩
        (by decide +kernel)
    · exact ⟨_, by decide +kernel, decodeText_encodeText _⟩
  have hwrites : request.command.Writes tree.fileSystem source files after := by
    have hlabels : tree.fileSystem.WritesText (labelsDocument source) (some "./in.asm") files
        between :=
      ⟨_, decodeText_encodeText _, by decide +kernel⟩
    exact .list hlabels ⟨_, decodeText_encodeText _, by decide +kernel⟩
  have hclear := not_obstacle_of_yields hyields
  obtain ⟨assembly, hassembly, -, hexit, hfiles⟩ :=
    (run_files hrequest rfl tree.fileSystem tree.resolution files).2 hclear
  obtain rfl := (reads_assembly request "in.asm").unique hassembly hyields
  obtain ⟨hafter, ⟨hlisting, hlabels, hrest⟩, houtput⟩ := hfiles after hwrites
  have hin : tree.fileOf "./in.asm" = "/w/in.asm" := by decide +kernel
  have hout : tree.fileOf "/w/sub/../w.json" = "/w/w.json" := by decide +kernel
  simp only [Tree.place_resolution, Tree.content_resolution] at hlisting hlabels hrest
  obtain ⟨listing, hlisting, hlistingText⟩ := hlisting _ rfl
  obtain ⟨labels, hlabels, hlabelsText⟩ := hlabels _ rfl (by
    rintro _ ⟨⟩
    rw [hin, hout]
    decide)
  refine ⟨tree, files, request, _, hrequest, rfl, hclear, rfl, hexit.mpr ⟨after, hwrites⟩,
    (houtput _ _ _ rfl).mpr (.inl rfl), ?_, ?_, ?_⟩
  · have hdocument : labelsDocument source =
        "[\n  \x7b\n    \"addr\": 2,\n    \"name\": \"a\"\n  \x7d\n]" := by
      decide +kernel
    rw [hafter, ← hin, hlabels, Option.map_some, hlabelsText, hdocument]
  · rw [hafter, ← hout, hlisting, Option.map_some, hlistingText]
    decide +kernel
  · rw [hafter, hrest "/w/x"]
    · decide +kernel
    · rintro _ ⟨⟩
      rw [hin]
      decide
    · rintro _ ⟨⟩
      rw [hout]
      decide

end Assembler

end EightBitAsm.CommandLine
