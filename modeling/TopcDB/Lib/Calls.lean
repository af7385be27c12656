import Mathlib.Logic.Basic

/-! # Calls that return

`Returns x Q` says that the call `x`, which may fault, returns a value with `Q`. The rules follow
the structure of the code. -/

namespace TopcDB.Lib.Calls

variable {ε α β : Type} {x : Except ε α} {P Q : α → Prop} {R : β → Prop}

/-- The call returns, with a value in `Q`. -/
def Returns (x : Except ε α) (Q : α → Prop) : Prop := ∃ a, x = .ok a ∧ Q a

theorem returns_ok {a : α} (h : Q a) : Returns (.ok a : Except ε α) Q := ⟨a, rfl, h⟩

theorem Returns.mono (h : Returns x P) (hpq : ∀ a, P a → Q a) : Returns x Q := by
  obtain ⟨a, ha, hp⟩ := h
  exact ⟨a, ha, hpq a hp⟩

variable {f : α → Except ε β}

theorem Returns.bind (h : Returns x P) (hf : ∀ a, P a → Returns (f a) R) : Returns (x >>= f) R := by
  obtain ⟨a, rfl, hp⟩ := h
  exact hf a hp

theorem returns_step {a : α} (hx : x = .ok a) (h : Returns (f a) R) : Returns (x >>= f) R := by
  rw [hx]; exact h

theorem Returns.map {f : α → β} (h : Returns x P) (hf : ∀ a, P a → R (f a)) :
    Returns (x.map f) R := by
  obtain ⟨a, rfl, hp⟩ := h
  exact ⟨f a, rfl, hf a hp⟩

theorem returns_ite {c : Prop} [Decidable c] {y : Except ε α} (hx : c → Returns x Q)
    (hy : ¬ c → Returns y Q) : Returns (if c then x else y) Q := by
  by_cases h : c
  · rw [if_pos h]; exact hx h
  · rw [if_neg h]; exact hy h

end TopcDB.Lib.Calls
