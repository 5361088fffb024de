/-!
Results of steps that may fail, taken one after the other.
-/

namespace EightBitAsm

variable {ε α β γ δ : Type}

@[simp] theorem ok_bind (a : α) (f : α → Except ε β) : Except.ok a >>= f = f a := rfl

@[simp] theorem error_bind (e : ε) (f : α → Except ε β) : Except.error e >>= f = .error e := rfl

theorem bind_eq_ok_iff {x : Except ε α} {f : α → Except ε β} {b : β} :
    x >>= f = .ok b ↔ ∃ a, x = .ok a ∧ f a = .ok b := by
  cases x with
  | error e => simp
  | ok a => simp

theorem bind_eq_error_iff {x : Except ε α} {f : α → Except ε β} {e : ε} :
    x >>= f = .error e ↔ x = .error e ∨ ∃ a, x = .ok a ∧ f a = .error e := by
  cases x with
  | error e' => simp
  | ok a => simp

/-- Results that agree up to a view go on alike as long as only the view is used. -/
theorem bind_eq_of_map_eq {x : Except ε α} {y : Except ε β} {f : α → γ} {g : β → γ}
    (h : x.map f = y.map g) (k : γ → Except ε δ) :
    (x >>= fun a => k (f a)) = y >>= fun b => k (g b) := by
  cases x with
  | error e =>
    cases y with
    | error e' => simpa [Except.map] using h
    | ok b => simp [Except.map] at h
  | ok a =>
    cases y with
    | error e => simp [Except.map] at h
    | ok b => simp_all [Except.map]

theorem toOption_eq_some_iff {x : Except ε α} {a : α} : x.toOption = some a ↔ x = .ok a := by
  cases x <;> simp [Except.toOption]

end EightBitAsm
