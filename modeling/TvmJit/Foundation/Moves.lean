import TvmJit.Foundation.Outcome
import Mathlib.Logic.Relation

/-! Computations as sequences of steps. Once it is known which single steps a
computation is made of, whatever each step preserves holds of all of its runs. -/

namespace Foundation

open Relation

universe u

variable {ε σ α β : Type u} {step : σ → σ → Prop}

/-- Every run of `m`, also one that ends in an error, is a sequence of steps. -/
class Moves (step : σ → σ → Prop) (m : EStateM ε σ α) : Prop where
  run : ∀ s, ReflTransGen step s (finalState (m s))

theorem Moves.of_modify {change : σ → σ} (once : ∀ s, step s (change s)) :
    Moves step (modify change : EStateM ε σ PUnit) :=
  ⟨fun s => .single (once s)⟩

namespace Moves

@[grind ←] theorem pure (value : α) : Moves step (Pure.pure value : EStateM ε σ α) :=
  ⟨fun _ => .refl⟩

@[grind ←] theorem throw (e : ε) : Moves step (MonadExcept.throw e : EStateM ε σ α) :=
  ⟨fun _ => .refl⟩

@[grind ←] theorem get : Moves step (MonadState.get : EStateM ε σ σ) :=
  ⟨fun _ => .refl⟩

@[grind ←] theorem bind {m : EStateM ε σ α} {next : α → EStateM ε σ β} (first : Moves step m)
    (rest : ∀ value, Moves step (next value)) : Moves step (m >>= next) := by
  refine ⟨fun s => ?_⟩
  have moved := first.run s
  change ReflTransGen step s (finalState (EStateM.bind m next s))
  unfold EStateM.bind
  cases run : m s with
  | ok value s' =>
      rw [run] at moved
      exact moved.trans ((rest value).run s')
  | error e s' =>
      rw [run] at moved
      exact moved

@[grind ←] theorem forM {f : α → EStateM ε σ PUnit} (each : ∀ a, Moves step (f a)) (l : List α) :
    Moves step (l.forM f) := by
  induction l with
  | nil => exact pure _
  | cons a l induction => exact bind (each a) fun _ => induction

@[grind ←] theorem loop {out : ε} {body : α → EStateM ε σ (α ⊕ β)}
    (each : ∀ a, Moves step (body a)) (fuel : Nat) (a : α) :
    Moves step (loop out body fuel a) := by
  induction fuel generalizing a with
  | zero => exact throw out
  | succ fuel induction =>
      refine bind (each a) fun result => ?_
      cases result with
      | inl a => exact induction a
      | inr b => exact pure b

/-- What every step preserves, every run preserves. -/
theorem invariant {inv : σ → Prop} {m : EStateM ε σ α} (moves : Moves step m)
    (kept : ∀ s s', step s s' → inv s → inv s') {s : σ} (start : inv s) :
    inv (finalState (m s)) := by
  have reached := moves.run s
  generalize finalState (m s) = s' at reached ⊢
  induction reached with
  | refl => exact start
  | tail _ last induction => exact kept _ _ last induction

end Moves

end Foundation
