import TvmJit.Foundation.Moves

/-! Computations that cannot be told apart from the states of interest. A program
that takes a subprogram as an argument gives the same results with another one,
as long as the two agree where the program calls them. -/

namespace Foundation

universe u

variable {ε σ α β : Type u} {pre mid post inv : σ → Prop}

/-- From every state meeting `pre` the two computations have the same result, and
a result that is no error comes with a state meeting `post`. -/
class Agree (pre post : σ → Prop) (m m' : EStateM ε σ α) : Prop where
  run : ∀ s, pre s → m s = m' s ∧ ∀ value s', m s = .ok value s' → post s'

namespace Agree

@[grind ←] theorem pure (value : α) :
    Agree inv inv (Pure.pure value : EStateM ε σ α) (Pure.pure value) := by
  refine ⟨fun s holds => ⟨rfl, fun value' s' run => ?_⟩⟩
  cases run
  exact holds

@[grind ←] theorem throw (e : ε) :
    Agree pre post (MonadExcept.throw e : EStateM ε σ α) (MonadExcept.throw e) :=
  ⟨fun _ _ => ⟨rfl, fun _ _ run => nomatch run⟩⟩

@[grind ←] theorem get : Agree inv inv (MonadState.get : EStateM ε σ σ) MonadState.get := by
  refine ⟨fun s holds => ⟨rfl, fun value s' run => ?_⟩⟩
  cases run
  exact holds

theorem modify {change : σ → σ} (keeps : ∀ s, pre s → post (change s)) :
    Agree pre post (MonadState.modifyGet fun s => (⟨⟩, change s) : EStateM ε σ PUnit) (MonadState.modifyGet fun s => (⟨⟩, change s)) := by
  refine ⟨fun s holds => ⟨rfl, fun value s' run => ?_⟩⟩
  cases run
  exact keeps s holds

theorem bind {m m' : EStateM ε σ α} {next next' : α → EStateM ε σ β} (first : Agree pre mid m m')
    (rest : ∀ value, Agree mid post (next value) (next' value)) :
    Agree pre post (m >>= next) (m' >>= next') := by
  refine ⟨fun s holds => ?_⟩
  have ⟨same, after⟩ := first.run s holds
  change EStateM.bind m next s = EStateM.bind m' next' s ∧
    ∀ value s', EStateM.bind m next s = .ok value s' → post s'
  unfold EStateM.bind
  rw [← same]
  cases run : m s with
  | ok value s' => exact (rest value).run s' (after value s' run)
  | error e s' => exact ⟨rfl, fun _ _ impossible => nomatch impossible⟩

@[grind ←] theorem seq {m m' : EStateM ε σ α} {next next' : α → EStateM ε σ β}
    (first : Agree inv inv m m') (rest : ∀ value, Agree inv inv (next value) (next' value)) :
    Agree inv inv (m >>= next) (m' >>= next') :=
  bind first rest

theorem ite {c : Prop} [Decidable c] {m m' n n' : EStateM ε σ α} (yes : Agree pre post m m')
    (no : Agree pre post n n') : Agree pre post (if c then m else n) (if c then m' else n') := by
  split
  · exact yes
  · exact no

/-- A computation agrees with itself on what all its steps preserve. -/
theorem of_moves {step : σ → σ → Prop} {m : EStateM ε σ α} (moves : Moves step m)
    (kept : ∀ s s', step s s' → inv s → inv s') : Agree inv inv m m := by
  refine ⟨fun s holds => ⟨rfl, fun value s' run => ?_⟩⟩
  have reached := moves.invariant kept holds
  rw [run] at reached
  exact reached

@[grind ←] theorem loop {out : ε} {body body' : α → EStateM ε σ (α ⊕ β)}
    (each : ∀ a, Agree inv inv (body a) (body' a)) (fuel : Nat) (a : α) :
    Agree inv inv (loop out body fuel a) (Foundation.loop out body' fuel a) := by
  induction fuel generalizing a with
  | zero => exact throw out
  | succ fuel induction =>
      refine bind (each a) fun result => ?_
      cases result with
      | inl a => exact induction a
      | inr b => exact pure b

theorem eq {m m' : EStateM ε σ α} (agree : Agree pre post m m') {s : σ} (start : pre s) :
    m s = m' s :=
  (agree.run s start).1

end Agree

end Foundation
