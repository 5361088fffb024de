import EightBitAsm.MnemonicTable

/-!
The instructions of the processor, family by family.
-/

namespace EightBitAsm.InstructionSet

def noOperand : List Instruction :=
  [("nop", 1), ("ret", 2), ("iret", 3), ("ei", 4), ("di", 5), ("rr", 6), ("rl", 7), ("rrc", 8),
   ("rlc", 9), ("hlt", 10), ("inca", 11), ("deca", 12), ("swapa", 13), ("daa", 14), ("dsa", 15),
   ("in", 17), ("out", 18), ("es", 19), ("movasr", 20), ("movsra", 21)].map
    fun (mnemonic, opcode) => ⟨mnemonic, .implied opcode⟩

def cycle : List Instruction :=
  [⟨"djrnz", .cycleJump⟩]

/-- Each condition comes with the branch bit. `jno`, `jc` and `js` share one code. -/
def branch : List Instruction :=
  [("jnz", Tags.empty), ("jnc", Tags.b2), ("jns", Tags.b3), ("jno", Tags.b3.union .b4),
   ("jz", Tags.b4), ("jc", Tags.b3.union .b4), ("js", Tags.b3.union .b4),
   ("jo", (Tags.b2.union .b3).union .b4)].map
    fun (mnemonic, condition) => ⟨mnemonic, .branch (condition.union .branch)⟩

def control : List Instruction :=
  [⟨"jmp", .control .control true⟩,
   ⟨"call", .control (Tags.control.union .b2) true⟩,
   ⟨"int", .control (Tags.control.union .b3) false⟩]

def families : List (List Instruction) :=
  [noOperand, cycle, branch, control]

/-- The table of all instructions. No mnemonic occurs twice, so it holds every one of them. -/
def table : MnemonicTable :=
  match MnemonicTable.ofFamilies families with
  | .ok table => table
  | .error _ => .empty

theorem ofFamilies_families : MnemonicTable.ofFamilies families = .ok table := by
  have h : (MnemonicTable.ofFamilies families).isOk = true := by decide +kernel
  unfold table
  split
  · assumption
  · next e => simp [e, Except.isOk, Except.toBool] at h

end EightBitAsm.InstructionSet
