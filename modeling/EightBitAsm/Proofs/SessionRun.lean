import EightBitAsm.InstructionSet
import EightBitAsm.Proofs.ScopeChange

/-! Sessions over whole runs. One step moves bytes in two ways only: it adds them at the end of the
buffer, or it hands the whole buffer out. So no byte is lost, doubled or moved past another in a run
of any length, and what an instruction adds is known from the labels and the far width. -/
namespace EightBitAsm

namespace MnemonicTable

def code? (table : MnemonicTable) (labels : Symbols) (farBits : Nat) (mnemonic : String)
    (operands : List String) : Option (List UInt8) :=
  match table.encode mnemonic operands (.ofSymbols 0 ⟨0, farBits⟩ labels .empty) with
  | .ok e => some e.bytes
  | .error _ => none

theorem code?_eq_some_iff {table : MnemonicTable} {labels : Symbols} {farBits : Nat}
    {mnemonic : String} {operands : List String} {bytes : List UInt8} {widths : Widths}
    (hbits : widths.farBits = farBits) (line : Nat) (vars : Symbols) :
    table.code? labels farBits mnemonic operands = some bytes ↔
      ∃ e, table.encode mnemonic operands (.ofSymbols line widths labels vars) = .ok e ∧
        e.bytes = bytes := by
  have hplain : table.code? labels farBits mnemonic operands = some bytes ↔
      ∃ e, table.encode mnemonic operands (.ofSymbols 0 ⟨0, farBits⟩ labels .empty) = .ok e ∧
        e.bytes = bytes := by
    unfold code?
    cases table.encode mnemonic operands (.ofSymbols 0 ⟨0, farBits⟩ labels .empty) <;> simp
  rw [hplain]
  constructor
  · rintro ⟨e, he, hb⟩
    exact ⟨e, encode_of_carries (Scope.carries_ofSymbols hbits.symm _ _ _ _ _) he, hb⟩
  · rintro ⟨e, he, hb⟩
    exact ⟨e, encode_of_carries (Scope.carries_ofSymbols hbits _ _ _ _ _) he, hb⟩

theorem length_bytes_cases {table : MnemonicTable} {mnemonic : String}
    {operands : List String} {scope : Scope} {e : Emission}
    (h : table.encode mnemonic operands scope = .ok e) :
    e.bytes.length = 1 ∨ e.bytes.length = 2 := by
  obtain ⟨i, _, hlength⟩ := length_bytes_of_encode h
  rw [hlength]
  unfold Encoding.size
  split
  · exact Or.inl rfl
  · exact Or.inr rfl

end MnemonicTable

namespace Session

variable {table : MnemonicTable}

def Reply.handedOut : Reply → List UInt8
  | .taken bytes => bytes
  | _ => []

def Step.emitted : Step → Reply → List UInt8
  | .emit byte, _ => [byte]
  | .encode .., .encoded (.ok e) => e.bytes
  | _, _ => []

def replies (table : MnemonicTable) (s : Session) (steps : List Step) : List Reply :=
  (s.run table steps).map (·.2)

def after (table : MnemonicTable) (s : Session) (steps : List Step) : Session :=
  ((s.run table steps).map (·.1)).getLastD s

@[simp] theorem replies_cons (s : Session) (step : Step) (steps : List Step) :
    s.replies table (step :: steps) =
      (s.apply table step).2 :: (s.apply table step).1.replies table steps := rfl

@[simp] theorem after_nil (s : Session) : s.after table [] = s := rfl

@[simp] theorem after_cons (s : Session) (step : Step) (steps : List Step) :
    s.after table (step :: steps) = (s.apply table step).1.after table steps := by
  simp only [after, run, List.map_cons, List.getLastD_cons]

/-- The instruction step of a session: all of its bytes or none, and nothing but bytes. -/
structure EncodesWhole (table : MnemonicTable) (s : Session) (mnemonic : String)
    (operands : List String) (next : Session) (result : Except Diagnostic Emission) : Prop where
  failed : ∀ d, result = .error d → next = s
  appended : ∀ e, result = .ok e → next = { s with bytes := s.bytes ++ e.bytes }
  length : ∀ e, result = .ok e → e.bytes.length = 1 ∨ e.bytes.length = 2
  /-- Whether there is a code, and which, depends on the labels and the far width only. -/
  code : ∀ bytes, table.code? s.labels s.widths.farBits mnemonic operands = some bytes ↔
    ∃ e, result = .ok e ∧ e.bytes = bytes

theorem encodesWhole (table : MnemonicTable) (s : Session) (mnemonic : String)
    (operands : List String) :
    EncodesWhole table s mnemonic operands (s.encode table mnemonic operands).1
      (s.encode table mnemonic operands).2 := by
  have hcode : ∀ bytes, table.code? s.labels s.widths.farBits mnemonic operands = some bytes ↔
      ∃ e, table.encode mnemonic operands s.scope = .ok e ∧ e.bytes = bytes :=
    fun _ => MnemonicTable.code?_eq_some_iff rfl s.line s.vars
  rw [encode_eq]
  cases he : table.encode mnemonic operands s.scope with
  | error d =>
    refine ⟨fun _ _ => rfl, by simp, by simp, ?_⟩
    intro bytes
    rw [hcode bytes, he]
  | ok e =>
    refine ⟨by simp, ?_, ?_, ?_⟩
    · intro e' h
      cases h
      rfl
    · intro e' h
      cases h
      exact MnemonicTable.length_bytes_cases he
    · intro bytes
      rw [hcode bytes, he]

theorem EncodesWhole.exists_bytes {s next : Session} {mnemonic : String} {operands : List String}
    {result : Except Diagnostic Emission} (h : EncodesWhole table s mnemonic operands next result) :
    ∃ bytes, next = { s with bytes := bytes } := by
  cases hresult : result with
  | error d => exact ⟨s.bytes, h.failed d hresult⟩
  | ok e => exact ⟨_, h.appended e hresult⟩

/-- One step keeps the account: what it hands out and leaves in the buffer is what was there
before, and then what it adds. -/
theorem handedOut_apply (table : MnemonicTable) (s : Session) (step : Step) :
    (s.apply table step).2.handedOut ++ (s.apply table step).1.bytes =
      s.bytes ++ step.emitted (s.apply table step).2 := by
  cases step with
  | encode mnemonic operands =>
    have hwhole := encodesWhole table s mnemonic operands
    simp only [apply]
    cases hresult : (s.encode table mnemonic operands).2 with
    | error d =>
      rw [hwhole.failed d hresult]
      simp [Reply.handedOut, Step.emitted]
    | ok e =>
      rw [hwhole.appended e hresult]
      simp [Reply.handedOut, Step.emitted]
  | _ => simp [apply, emitByte, takeBytes, Reply.handedOut, Step.emitted]

/-- What one step does. The line, the widths and the names have one kind of step each that sets
them, and only the taking of bytes hands any out. -/
structure Effect (table : MnemonicTable) (s : Session) (step : Step) (next : Session)
    (reply : Reply) : Prop where
  line : next.line = match step with
    | .setLine line => line
    | _ => s.line
  widths : next.widths = match step with
    | .setWidths widths => widths
    | _ => s.widths
  labels : ∀ name, next.labels.find? name = match step with
    | .defineLabel other address => if name = other then some address else s.labels.find? name
    | _ => s.labels.find? name
  vars : ∀ name, next.vars.find? name = match step with
    | .defineVariable other address => if name = other then some address else s.vars.find? name
    | _ => s.vars.find? name
  account : reply.handedOut ++ next.bytes = s.bytes ++ step.emitted reply
  taken : ∀ bytes, reply = .taken bytes ↔ step = .takeBytes ∧ bytes = s.bytes
  encoded : ∀ mnemonic operands, step = .encode mnemonic operands →
    ∃ result, reply = .encoded result ∧ EncodesWhole table s mnemonic operands next result
  resolved : ∀ domain text, step = .resolve domain text →
    reply = .resolved (s.scope.resolve domain text)
  found : ∀ mnemonic, step = .lookup mnemonic → reply = .found (table.lookup? mnemonic)

theorem effect_apply (table : MnemonicTable) (s : Session) (step : Step) :
    Effect table s step (s.apply table step).1 (s.apply table step).2 := by
  have haccount := handedOut_apply table s step
  cases step with
  | encode mnemonic operands =>
    have hwhole := encodesWhole table s mnemonic operands
    obtain ⟨bytes, hnext⟩ := hwhole.exists_bytes
    refine ⟨?_, ?_, ?_, ?_, haccount, by simp [apply], ?_, by simp, by simp⟩
    · simp [apply, hnext]
    · simp [apply, hnext]
    · simp [apply, hnext]
    · simp [apply, hnext]
    · intro m o h
      cases h
      exact ⟨_, rfl, hwhole⟩
  | _ =>
    refine ⟨?_, ?_, ?_, ?_, haccount, ?_, ?_, ?_, ?_⟩ <;>
      simp [apply, emitByte, takeBytes, NameMap.find?_insert, eq_comm]

theorem handedOut_run (table : MnemonicTable) (s : Session) (steps : List Step) :
    (s.replies table steps).flatMap Reply.handedOut ++ (s.after table steps).bytes =
      s.bytes ++ (List.zipWith Step.emitted steps (s.replies table steps)).flatten := by
  induction steps generalizing s with
  | nil => simp [replies, run]
  | cons step steps ih =>
    -- What the first step leaves in the buffer is what the rest of the run starts with.
    have hstep := handedOut_apply table s step
    have hrest := ih (s.apply table step).1
    simp only [replies_cons, after_cons, List.flatMap_cons, List.zipWith_cons_cons,
      List.flatten_cons, List.append_assoc]
    rw [hrest, ← List.append_assoc, hstep, List.append_assoc]

theorem getElem?_run (s : Session) (before rest : List Step) (step : Step) :
    (s.run table (before ++ step :: rest))[before.length]? =
      some ((s.after table before).apply table step) := by
  induction before generalizing s with
  | nil => rfl
  | cons first before ih =>
    simp only [List.cons_append, List.length_cons, run, List.getElem?_cons_succ, after_cons]
    exact ih (s.apply table first).1

/-- Every step of a run has its effect on the state that the steps before it leave. An instruction
adds its one or two bytes or changes nothing at all; and the bytes taken, with what is left at the
end, are the bytes at the start and then those added step by step. -/
theorem run_accounts (table : MnemonicTable) (s : Session) (steps : List Step) :
    (∀ before step rest, steps = before ++ step :: rest →
      ∃ next reply, (s.run table steps)[before.length]? = some (next, reply) ∧
        Effect table (s.after table before) step next reply) ∧
    (s.replies table steps).flatMap Reply.handedOut ++ (s.after table steps).bytes =
      s.bytes ++ (List.zipWith Step.emitted steps (s.replies table steps)).flatten := by
  refine ⟨?_, handedOut_run table s steps⟩
  intro before step rest hsteps
  refine ⟨_, _, ?_, effect_apply table (s.after table before) step⟩
  rw [hsteps, getElem?_run]

theorem run_accounts_moved_label :
    let s : Session := ⟨3, {}, .empty, .empty, [0xAA]⟩
    let steps : List Step := [.defineLabel "x" 0x105, .encode "jmp" ["x"], .encode "jmp" ["y"],
      .takeBytes, .defineLabel "x" 0x2FE, .emit 7, .encode "djrnz" ["r1", "x"]]
    (s.replies InstructionSet.table steps).flatMap Reply.handedOut = [0xAA, 0x41, 0x05] ∧
    (s.after InstructionSet.table steps).bytes = [7, 0xA2, 0xFE] ∧
    (List.zipWith Step.emitted steps (s.replies InstructionSet.table steps)).flatten =
      [0x41, 0x05, 7, 0xA2, 0xFE] ∧
    ∃ d, (s.run InstructionSet.table steps)[2]? =
      some (s.after InstructionSet.table (steps.take 2), .encoded (.error d)) := by
  intro s steps
  obtain ⟨heffect, haccount⟩ := run_accounts InstructionSet.table s steps
  have htaken : (s.replies InstructionSet.table steps).flatMap Reply.handedOut =
      [0xAA, 0x41, 0x05] := by
    decide +kernel
  have hleft : (s.after InstructionSet.table steps).bytes = [7, 0xA2, 0xFE] := by
    decide +kernel
  refine ⟨htaken, hleft, ?_, ?_⟩
  · rw [htaken, hleft, show [0xAA, 0x41, 0x05] ++ [7, 0xA2, 0xFE] =
      s.bytes ++ [0x41, 0x05, 7, 0xA2, 0xFE] from rfl] at haccount
    exact (List.append_cancel_left haccount).symm
  · obtain ⟨next, reply, hget, heff⟩ := heffect (steps.take 2) (.encode "jmp" ["y"]) _ rfl
    obtain ⟨result, rfl, hwhole⟩ := heff.encoded _ _ rfl
    cases result with
    | error d =>
      rw [hwhole.failed d rfl, show (steps.take 2).length = 2 from rfl] at hget
      exact ⟨d, hget⟩
    | ok e =>
      have hcode := (hwhole.code e.bytes).mpr ⟨e, rfl, rfl⟩
      have hnone : InstructionSet.table.code? (s.after InstructionSet.table (steps.take 2)).labels
          (s.after InstructionSet.table (steps.take 2)).widths.farBits "jmp" ["y"] = none := by
        decide +kernel
      cases hnone.symm.trans hcode

end Session

end EightBitAsm
