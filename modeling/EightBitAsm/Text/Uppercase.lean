import EightBitAsm.Text.UppercaseTable

/-!
Upper case of a text by the full Unicode mappings, so that one letter may become several.
-/

namespace EightBitAsm.Text

def CaseRun.image? (run : CaseRun) (n : Nat) : Option Nat :=
  if run.first ≤ n ∧ n ≤ run.last ∧ (n - run.first) % run.step = 0 then
    some (n - run.first + run.target)
  else none

def upperChar (c : Char) : List Char :=
  match upperExpansions.lookup c.toNat with
  | some images => images.map Char.ofNat
  | none => match upperRuns.findSome? (·.image? c.toNat) with
    | some image => [Char.ofNat image]
    | none => [c]

def uppercase (s : String) : String :=
  String.ofList (s.toList.flatMap upperChar)

end EightBitAsm.Text
