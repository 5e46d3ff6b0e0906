import Mathlib.Order.Lattice

/-! Computations that are given fuel: what they come to when there is enough of it. -/

namespace Foundation

universe u

/-- A computation that may fail, or run out of fuel. -/
abbrev Fueled (ε α : Type u) := ExceptT ε Option α

variable {ε : Type u} {α β : Type u}

/-- From some amount of fuel on the outcome is the given one. -/
def Settles (run : Nat → Fueled ε α) (outcome : Except ε α) : Prop :=
  ∃ bound, ∀ fuel, bound ≤ fuel → run fuel = ExceptT.mk (some outcome)

namespace Settles

variable {run run' : Nat → Fueled ε α} {outcome outcome' : Except ε α}

theorem const : Settles (fun _ => ExceptT.mk (some outcome)) outcome := ⟨0, fun _ _ => rfl⟩

theorem pure {a : α} : Settles (ε := ε) (fun _ => Pure.pure a) (.ok a) := const

theorem throw {e : ε} : Settles (α := α) (fun _ => MonadExcept.throw e) (.error e) := const

theorem unique (first : Settles run outcome) (second : Settles run outcome') : outcome = outcome' := by
  obtain ⟨n, first⟩ := first
  obtain ⟨m, second⟩ := second
  have same := (first (max n m) (Nat.le_max_left _ _)).symm.trans (second (max n m) (Nat.le_max_right _ _))
  exact Option.some.inj same

/-- One unit of fuel is spent on a call. -/
theorem succ (settles : Settles run' outcome) (step : ∀ fuel, run (fuel + 1) = run' fuel) :
    Settles run outcome := by
  obtain ⟨bound, settles⟩ := settles
  refine ⟨bound + 1, fun fuel enough => ?_⟩
  obtain ⟨fuel, rfl⟩ := Nat.exists_eq_add_one_of_ne_zero (Nat.ne_zero_of_lt enough)
  rw [step]
  exact settles fuel (Nat.le_of_succ_le_succ enough)

theorem bind (first : Settles run outcome) (next : Nat → α → Fueled ε β) (after : α → Except ε β)
    (rest : ∀ a, outcome = .ok a → Settles (next · a) (after a)) :
    Settles (fun fuel => run fuel >>= next fuel) (outcome >>= after) := by
  obtain ⟨bound, first⟩ := first
  cases outcome with
  | error e =>
      refine ⟨bound, fun fuel enough => ?_⟩
      change run fuel >>= next fuel = _
      rw [first fuel enough]
      rfl
  | ok a =>
      obtain ⟨bound', rest⟩ := rest a rfl
      refine ⟨max bound bound', fun fuel enough => ?_⟩
      change run fuel >>= next fuel = _
      rw [first fuel ((Nat.le_max_left _ _).trans enough)]
      exact rest fuel ((Nat.le_max_right _ _).trans enough)

end Settles

end Foundation
