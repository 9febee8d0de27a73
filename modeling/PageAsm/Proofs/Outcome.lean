import PageAsm.Diagnostic

/-!
# PageAsm.Proofs.Outcome

Taking successful computations apart: a chain of computations succeeds exactly
when each of its links does.  Everything that is proved about a successful scan
or emission starts from these equivalences.
-/

namespace PageAsm

namespace Outcome

variable {ε α β : Type}

theorem bind_eq_ok {x : Except ε α} {f : α → Except ε β} {b : β} :
    x >>= f = .ok b ↔ ∃ a, x = .ok a ∧ f a = .ok b := by
  cases x with
  | error e =>
      constructor
      · intro h; cases h
      · intro h
        obtain ⟨a, ha, -⟩ := h
        cases ha
  | ok a =>
      constructor
      · intro h; exact ⟨a, rfl, h⟩
      · intro h
        obtain ⟨a', ha, hb⟩ := h
        cases ha
        exact hb

theorem pure_eq_ok {a b : α} : (pure a : Except ε α) = .ok b ↔ a = b := by
  constructor
  · intro h; cases h; rfl
  · intro h; rw [h]; rfl

end Outcome

namespace Line

variable {ε α : Type}

@[simp] theorem fail_ne_ok {line : Line} {cause : Cause} {a : α} :
    (line.fail cause = .ok a) ↔ False := by
  simp [fail]

@[simp] theorem orFail_eq_ok {line : Line} {cause : ε → Cause} {x : Except ε α} {a : α} :
    line.orFail cause x = .ok a ↔ x = .ok a := by
  cases x <;> simp [orFail]

end Line

end PageAsm
