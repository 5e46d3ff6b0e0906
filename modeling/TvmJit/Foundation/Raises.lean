import Mathlib.Logic.Basic

/-! Computations with a state that stays as it is when they fail: what holds of the state
behind a value and of the state that an error leaves behind. -/

namespace Foundation

universe u

variable {ε σ α β ι : Type u}

theorem bind_of_ok {x : EStateM ε σ α} {f : α → EStateM ε σ β} {s s' : σ} {a : α} (run : x s = .ok a s') :
    (x >>= f) s = f a s' := by
  change EStateM.bind x f s = _
  rw [EStateM.bind, run]

theorem bind_of_error {x : EStateM ε σ α} {f : α → EStateM ε σ β} {s s' : σ} {e : ε}
    (run : x s = .error e s') : (x >>= f) s = .error e s' := by
  change EStateM.bind x f s = _
  rw [EStateM.bind, run]

/-- A value is `good` with the state behind it, and an error is `bad` with the state that it
leaves. -/
def Finishes (good : α → σ → Prop) (bad : ε → σ → Prop) (x : EStateM ε σ α) (s : σ) : Prop :=
  match x s with
  | .ok a s' => good a s'
  | .error e s' => bad e s'

namespace Finishes

variable {good good' : α → σ → Prop} {next : β → σ → Prop} {bad bad' : ε → σ → Prop} {s s' : σ}

theorem pure {a : α} (holds : good a s) : Finishes good bad (Pure.pure a) s := holds

theorem throw {e : ε} (holds : bad e s) : Finishes good bad (MonadExcept.throw e) s := holds

theorem of_ok {x : EStateM ε σ α} {a : α} (run : x s = .ok a s') (holds : good a s') :
    Finishes good bad x s := by
  rw [Finishes, run]
  exact holds

theorem of_error {x : EStateM ε σ α} {e : ε} (run : x s = .error e s') (holds : bad e s') :
    Finishes good bad x s := by
  rw [Finishes, run]
  exact holds

theorem left {x : EStateM ε σ α} {e : ε} (runs : Finishes good bad x s) (run : x s = .error e s') :
    bad e s' := by
  rwa [Finishes, run] at runs

theorem value {x : EStateM ε σ α} {a : α} (runs : Finishes good bad x s) (run : x s = .ok a s') :
    good a s' := by
  rwa [Finishes, run] at runs

theorem bind {x : EStateM ε σ α} {f : α → EStateM ε σ β} (first : Finishes good bad x s)
    (rest : ∀ a s', good a s' → Finishes next bad (f a) s') : Finishes next bad (x >>= f) s := by
  unfold Finishes at first
  cases run : x s with
  | ok a s' =>
      rw [run] at first
      rw [Finishes, bind_of_ok run]
      exact rest a s' first
  | error e s' =>
      rw [run] at first
      exact of_error (bind_of_error run) first

theorem mono {x : EStateM ε σ α} (runs : Finishes good bad x s) (weaker : ∀ a s', good a s' → good' a s')
    (more : ∀ e s', bad e s' → bad' e s') : Finishes good' bad' x s := by
  unfold Finishes at *
  split at runs
  · exact weaker _ _ runs
  · exact more _ _ runs

theorem ite {c : Prop} [Decidable c] {x y : EStateM ε σ α} (yes : c → Finishes good bad x s)
    (no : ¬c → Finishes good bad y s) : Finishes good bad (if c then x else y) s := by
  split
  · next holds => exact yes holds
  · next fails => exact no fails

/-- A loop keeps what each of its rounds does. -/
theorem forM {inv : List ι → σ → Prop} {f : ι → EStateM ε σ PUnit} {items : List ι}
    (each : ∀ i rest s, inv (i :: rest) s → Finishes (fun _ => inv rest) bad (f i) s) (start : inv items s) :
    Finishes (fun _ => inv []) bad (items.forM f) s := by
  induction items generalizing s with
  | nil => exact start
  | cons i items induction =>
      change Finishes _ _ (f i >>= fun _ => items.forM f) s
      exact (each i items s start).bind fun _ s' after => induction after

end Finishes

end Foundation
