import Mathlib.Logic.Basic

/-! Computations that may fail: what holds of their values and which errors they may end
in. -/

namespace Foundation

universe u v w

variable {ε : Type u} {α σ : Type v} {β : Type v}

/-- A value is `good`, and an error is one of those that may happen. -/
def Ends (good : α → Prop) (may : ε → Prop) : Except ε α → Prop
  | .ok a => good a
  | .error e => may e

namespace Ends

variable {good good' : α → Prop} {next : β → Prop} {may may' : ε → Prop}

theorem pure {a : α} (holds : good a) : Ends good may (Pure.pure a : Except ε α) := holds

theorem throw {e : ε} (allowed : may e) : Ends good may (MonadExcept.throw e : Except ε α) := allowed

theorem mono {r : Except ε α} (ends : Ends good may r) (weaker : ∀ a, r = .ok a → good a → good' a)
    (more : ∀ e, may e → may' e) : Ends good' may' r := by
  cases r with
  | ok a => exact weaker a rfl ends
  | error e => exact more e ends

theorem bind {r : Except ε α} {f : α → Except ε β} (first : Ends good may r)
    (rest : ∀ a, r = .ok a → good a → Ends next may (f a)) : Ends next may (r >>= f) := by
  cases r with
  | ok a => exact rest a rfl first
  | error e => exact first

theorem ite {c : Prop} [Decidable c] {r r' : Except ε α} (yes : c → Ends good may r)
    (no : ¬c → Ends good may r') : Ends good may (if c then r else r') := by
  split
  · next holds => exact yes holds
  · next fails => exact no fails

/-- The value, where there is one. -/
theorem value {r : Except ε α} {a : α} (ends : Ends good may r) (isOk : r = .ok a) : good a := by
  rw [isOk] at ends
  exact ends

/-- Where no error may happen there is a value. -/
theorem exists_ok {r : Except ε α} (ends : Ends good (fun _ : ε => False) r) :
    ∃ a, r = .ok a ∧ good a := by
  cases r with
  | ok a => exact ⟨a, rfl, ends⟩
  | error e => exact ends.elim

/-- A loop over a list; what holds before each round may depend on what is left of it. -/
theorem foldlM {ι : Type w} {step : σ → ι → Except ε σ} {inv : List ι → σ → Prop}
    (each : ∀ i rest s, inv (i :: rest) s → Ends (inv rest) may (step s i)) {l : List ι} {s : σ}
    (start : inv l s) : Ends (inv []) may (l.foldlM step s) := by
  induction l generalizing s with
  | nil => exact start
  | cons i l induction =>
      rw [List.foldlM_cons]
      exact (each i l s start).bind fun _ _ holds => induction holds

end Ends

/-- Two facts about one computation. -/
theorem Ends.and {r : Except ε α} {good good' : α → Prop} {may may' : ε → Prop}
    (first : Ends good may r) (second : Ends good' may' r) :
    Ends (fun a => good a ∧ good' a) (fun e => may e ∧ may' e) r := by
  cases r with
  | ok a => exact ⟨first, second⟩
  | error e => exact ⟨first, second⟩

end Foundation
