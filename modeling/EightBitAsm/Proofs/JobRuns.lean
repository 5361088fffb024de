import EightBitAsm.CommandLine.Config
import EightBitAsm.Result
import Mathlib

/-! Jobs on a file system. A step that reads leaves everything as it is, so a job that only reads
has nothing but a result, which depends on the files alone; a write replaces the files by those that
the file system gives back, and a print adds to the output. -/
namespace EightBitAsm.CommandLine

theorem decodeText_encodeText (text : String) : decodeText (encodeText text) = .ok text := by
  have hbytes : (⟨(encodeText text).toArray⟩ : ByteArray) = text.toUTF8 := by
    simp [encodeText]
  have htext : String.fromUTF8? text.toUTF8 = some text := by
    have hvalid : text.toUTF8.IsValidUTF8 := text.isValidUTF8
    rw [String.fromUTF8?, dif_pos hvalid]
    rfl
  rw [decodeText, hbytes, htext]

/-- A text has one encoding. -/
theorem decodeText_eq_ok_iff {content : List UInt8} {text : String} :
    decodeText content = .ok text ↔ content = encodeText text := by
  constructor
  · intro h
    unfold decodeText String.fromUTF8? at h
    split at h
    · next heq =>
      split at heq
      · cases heq
        cases h
        simp [encodeText, String.fromUTF8]
      · cases heq
    · cases h
  · rintro rfl
    exact decodeText_encodeText text

namespace Job

variable {φ α β : Type}

theorem bind_apply (x : Job (StateM (Console φ)) α) (f : α → Job (StateM (Console φ)) β)
    (c : Console φ) :
    (x >>= f) c = match x c with
      | (.ok a, d) => f a d
      | (.error report, d) => (.error report, d) := by
  have hrun : (x >>= f) c = ExceptT.bindCont f (x c).1 (x c).2 := rfl
  rw [hrun]
  rcases x c with ⟨_ | _, d⟩ <;> rfl

/-- A job that changes nothing and succeeds with the results that the files allow. -/
def Reads (x : Job (StateM (Console φ)) α) (result : φ → α → Prop) : Prop :=
  ∀ c, ∃ r : Except Report α, x c = (r, c) ∧ ∀ a, r = .ok a ↔ result c.files a

theorem reads_pure (a : α) : Reads (pure a : Job (StateM (Console φ)) α) fun _ b => a = b :=
  fun _ => ⟨.ok a, rfl, fun _ => by simp⟩

theorem reads_throw (report : Report) :
    Reads (throw report : Job (StateM (Console φ)) α) fun _ _ => False :=
  fun _ => ⟨.error report, rfl, fun _ => by simp⟩

theorem Reads.bind {x : Job (StateM (Console φ)) α} {f : α → Job (StateM (Console φ)) β}
    {first : φ → α → Prop} (hx : Reads x first) (second : α → φ → β → Prop)
    (hf : ∀ a, Reads (f a) (second a)) :
    Reads (x >>= f) fun files b => ∃ a, first files a ∧ second a files b := by
  intro c
  obtain ⟨r, hr, hresult⟩ := hx c
  rw [bind_apply, hr]
  cases r with
  | error report =>
    refine ⟨.error report, rfl, ?_⟩
    intro b
    simp [← hresult]
  | ok a =>
    obtain ⟨r', hr', hresult'⟩ := hf a c
    refine ⟨r', hr', ?_⟩
    intro b
    simp [← hresult, hresult']

theorem Reads.congr {x : Job (StateM (Console φ)) α} {first second : φ → α → Prop}
    (hx : Reads x first) (h : ∀ files a, first files a ↔ second files a) : Reads x second := by
  intro c
  obtain ⟨r, hr, hresult⟩ := hx c
  exact ⟨r, hr, fun a => (hresult a).trans (h c.files a)⟩

theorem Reads.unique {x : Job (StateM (Console φ)) α} {result : φ → α → Prop}
    (hx : Reads x result) {files : φ} {a b : α} (ha : result files a) (hb : result files b) :
    a = b := by
  obtain ⟨r, _, hresult⟩ := hx ⟨files, ""⟩
  exact Except.ok.inj (((hresult a).mpr ha).symm.trans ((hresult b).mpr hb))

theorem Reads.of_result {x : Job (StateM (Console φ)) α} {result : φ → α → Prop}
    (hx : Reads x result) {c : Console φ} {a : α} (ha : result c.files a) : x c = (.ok a, c) := by
  obtain ⟨r, hr, hresult⟩ := hx c
  rw [hr, (hresult a).mpr ha]

theorem Reads.of_no_result {x : Job (StateM (Console φ)) α} {result : φ → α → Prop}
    (hx : Reads x result) {c : Console φ} (h : ∀ a, ¬ result c.files a) :
    ∃ report, x c = (.error report, c) := by
  obtain ⟨r, hr, hresult⟩ := hx c
  cases r with
  | error report => exact ⟨report, hr⟩
  | ok a => exact absurd ((hresult a).mp rfl) (h a)

end Job

namespace Outcome

variable {φ : Type} {job : Job (StateM (Console φ)) Unit} {files : φ} {c : Console φ}

theorem ofJob_of_ok (h : job ⟨files, ""⟩ = (.ok (), c)) :
    ofJob job files = ⟨.success, c.output, "", c.files⟩ := by
  rw [ofJob, ExceptT.run, h]

theorem ofJob_of_error {report : Report} (h : job ⟨files, ""⟩ = (.error report, c)) :
    ofJob job files = ⟨.failure, c.output, report.render, c.files⟩ := by
  rw [ofJob, ExceptT.run, h]

end Outcome

namespace FileSystem

variable {φ : Type} (fs : FileSystem φ)

def HoldsText (files : φ) (path text : String) : Prop :=
  ∃ content, fs.read files path = .ok content ∧ decodeText content = .ok text

inductive Configured (files : φ) : Option String → Widths → Prop where
  | default : Configured files none {}
  | file {path text : String} {widths : Widths} (ht : fs.HoldsText files path text)
      (hw : Json.readWidths text = .ok widths) : Configured files (some path) widths

theorem reads_read (path : String) :
    Job.Reads (fs.system.read path : Job (StateM (Console φ)) (Except FileFault (List UInt8)))
      fun files r => fs.read files path = r :=
  fun c => ⟨.ok (fs.read c.files path), rfl, fun _ => by simp⟩

theorem reads_readText (path : String) :
    Job.Reads (fs.system.readText path) fun files text => fs.HoldsText files path text := by
  refine ((fs.reads_read path).bind (fun r _ text => r.bind decodeText = .ok text) ?_).congr ?_
  · intro r
    cases r.bind decodeText with
    | ok text => exact (Job.reads_pure text).congr fun _ _ => by simp
    | error fault => exact (Job.reads_throw _).congr fun _ _ => by simp
  · intro files text
    simp only [exists_eq_left']
    exact bind_eq_ok_iff

theorem reads_readConfig (config : Option String) (report : String → Report → Report) :
    Job.Reads (fs.system.readConfig config report) fun files widths =>
      fs.Configured files config widths := by
  cases config with
  | none =>
    refine (Job.reads_pure _).congr fun files widths => ⟨?_, ?_⟩
    · rintro rfl
      exact .default
    · rintro ⟨⟩
      rfl
  | some path =>
    refine ((fs.reads_readText path).bind
      (fun text _ widths => Json.readWidths text = .ok widths) ?_).congr ?_
    · intro text
      cases Json.readWidths text with
      | ok widths => exact (Job.reads_pure widths).congr fun _ _ => by simp
      | error failure => exact (Job.reads_throw _).congr fun _ _ => by simp
    · intro files widths
      constructor
      · rintro ⟨text, ht, hw⟩
        exact .file ht hw
      · rintro ⟨⟩
        next text ht hw => exact ⟨text, ht, hw⟩

theorem config_ne_empty {files : φ} {config : Option String} {widths : Widths}
    (h : fs.Configured files config widths) : config ≠ some "" := by
  rintro rfl
  cases h with
  | file ht hw =>
    obtain ⟨content, hread, _⟩ := ht
    obtain ⟨fault, hfault⟩ := fs.read_empty files
    cases hfault.symm.trans hread

theorem writeFile_apply (path : String) (content : List UInt8) (report : Report → Report)
    (c : Console φ) :
    fs.system.writeFile path content report c = match fs.write c.files path content with
      | (.ok (), files) => (.ok (), { c with files })
      | (.error fault, files) =>
        (.error (report { message := fault.message }), { c with files }) := by
  have hwrite :
      (fs.system.write path content : Job (StateM (Console φ)) (Except FileFault Unit)) c =
        (.ok (fs.write c.files path content).1,
          { c with files := (fs.write c.files path content).2 }) := rfl
  rw [System.writeFile, Job.bind_apply, hwrite]
  rcases fs.write c.files path content with ⟨_ | _, files⟩ <;> rfl

theorem printText_apply (text : String) (c : Console φ) :
    fs.system.printText text c = (.ok (), { c with output := c.output ++ text }) := rfl

end FileSystem

end EightBitAsm.CommandLine
