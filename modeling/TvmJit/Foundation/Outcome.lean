import Mathlib.Logic.Basic

/-! Weakest preconditions of state-and-exception computations. `EStateM` keeps
the state when a computation stops with an error, so a statement about every
state a run passes through can also speak about runs that end early. -/

namespace Foundation

universe u

variable {ε σ α β : Type u}

/-- `m`, started in `s`, ends in a state meeting `post` when it returns, and
in one meeting `stop` when it raises an error. -/
def wp (m : EStateM ε σ α) (s : σ) (post : α → σ → Prop) (stop : ε → σ → Prop) : Prop :=
  match m s with
  | .ok value s' => post value s'
  | .error e s' => stop e s'

/-- Partial correctness: nothing is said about runs that raise an error. -/
def Ensures (m : EStateM ε σ α) (s : σ) (post : α → σ → Prop) : Prop :=
  wp m s post fun _ _ => True

theorem wp.mono {m : EStateM ε σ α} {s : σ} {post post' : α → σ → Prop}
    {stop stop' : ε → σ → Prop} (holds : wp m s post stop)
    (implies : ∀ value s', post value s' → post' value s')
    (impliesStop : ∀ e s', stop e s' → stop' e s') : wp m s post' stop' := by
  unfold wp at *
  cases run : m s with
  | ok value s' =>
      rw [run] at holds
      exact implies value s' holds
  | error e s' =>
      rw [run] at holds
      exact impliesStop e s' holds

@[simp] theorem wp_pure (value : α) (s : σ) (post : α → σ → Prop) (stop : ε → σ → Prop) :
    wp (pure value : EStateM ε σ α) s post stop ↔ post value s := Iff.rfl

@[simp] theorem wp_throw (e : ε) (s : σ) (post : α → σ → Prop) (stop : ε → σ → Prop) :
    wp (throw e : EStateM ε σ α) s post stop ↔ stop e s := Iff.rfl

@[simp] theorem wp_get (s : σ) (post : σ → σ → Prop) (stop : ε → σ → Prop) :
    wp (get : EStateM ε σ σ) s post stop ↔ post s s := Iff.rfl

@[simp] theorem wp_set (new s : σ) (post : PUnit → σ → Prop) (stop : ε → σ → Prop) :
    wp (set new : EStateM ε σ PUnit) s post stop ↔ post ⟨⟩ new := Iff.rfl

@[simp] theorem wp_modify (change : σ → σ) (s : σ) (post : PUnit → σ → Prop)
    (stop : ε → σ → Prop) :
    wp (modify change : EStateM ε σ PUnit) s post stop ↔ post ⟨⟩ (change s) := Iff.rfl

theorem wp_bind (m : EStateM ε σ α) (next : α → EStateM ε σ β) (s : σ)
    (post : β → σ → Prop) (stop : ε → σ → Prop) :
    wp (m >>= next) s post stop ↔
      wp m s (fun value s' => wp (next value) s' post stop) stop := by
  unfold wp
  change (match EStateM.bind m next s with | .ok _ _ => _ | .error _ _ => _) ↔ _
  unfold EStateM.bind
  cases m s <;> rfl

/-! ## Invariants -/

/-- `inv` holds after `m` when it held before, whether or not `m` returns. -/
def Preserves (inv : σ → Prop) (m : EStateM ε σ α) : Prop :=
  ∀ s, inv s → wp m s (fun _ => inv) (fun _ => inv)

namespace Preserves

variable {inv : σ → Prop}

@[grind ←] theorem pure (value : α) : Preserves inv (Pure.pure value : EStateM ε σ α) :=
  fun _ holds => holds

@[grind ←] theorem throw (e : ε) : Preserves inv (MonadExcept.throw e : EStateM ε σ α) :=
  fun _ holds => holds

@[grind ←] theorem get : Preserves inv (MonadState.get : EStateM ε σ σ) :=
  fun _ holds => holds

theorem modifyGet {change : σ → α × σ} (keeps : ∀ s, inv s → inv (change s).2) :
    Preserves inv (MonadStateOf.modifyGet change : EStateM ε σ α) := keeps

@[grind ←] theorem bind {m : EStateM ε σ α} {next : α → EStateM ε σ β} (first : Preserves inv m)
    (rest : ∀ value, Preserves inv (next value)) : Preserves inv (m >>= next) := by
  intro s holds
  rw [wp_bind]
  exact (first s holds).mono (fun value s' => rest value s') fun _ _ h => h

theorem ite {c : Prop} [Decidable c] {m n : EStateM ε σ α} (yes : Preserves inv m)
    (no : Preserves inv n) : Preserves inv (if c then m else n) := by
  split
  · exact yes
  · exact no

end Preserves

/-- The state a computation ends in, with or without an error. -/
def finalState : EStateM.Result ε σ α → σ
  | .ok _ s => s
  | .error _ s => s

theorem Preserves.finalState {inv : σ → Prop} {m : EStateM ε σ α} (keeps : Preserves inv m) {s : σ}
    (start : inv s) : inv (finalState (m s)) := by
  have holds := keeps s start
  unfold wp at holds
  cases run : m s <;> rw [run] at holds <;> exact holds

/-- `m` keeps `inv` and, when it returns, answers a value meeting `result`. -/
def Yields (inv : σ → Prop) (result : α → Prop) (m : EStateM ε σ α) : Prop :=
  ∀ s, inv s → wp m s (fun value s' => inv s' ∧ result value) (fun _ => inv)

namespace Yields

variable {inv : σ → Prop} {result : α → Prop}

theorem pure {value : α} (holds : result value) :
    Yields inv result (Pure.pure value : EStateM ε σ α) :=
  fun _ before => ⟨before, holds⟩

theorem preserves {m : EStateM ε σ α} (yields : Yields inv result m) : Preserves inv m :=
  fun s before => (yields s before).mono (fun _ _ h => h.1) fun _ _ h => h

theorem bind {m : EStateM ε σ α} {next : α → EStateM ε σ β} {result' : β → Prop}
    (first : Yields inv result m) (rest : ∀ value, result value → Yields inv result' (next value)) :
    Yields inv result' (m >>= next) := by
  intro s before
  rw [wp_bind]
  exact (first s before).mono (fun value s' h => rest value h.2 s' h.1) fun _ _ h => h

theorem after {m : EStateM ε σ α} {next : α → EStateM ε σ β} {result' : β → Prop}
    (first : Preserves inv m) (rest : ∀ value, Yields inv result' (next value)) :
    Yields inv result' (m >>= next) := by
  intro s before
  rw [wp_bind]
  exact (first s before).mono (fun value s' h => rest value s' h) fun _ _ h => h

theorem ite {c : Prop} [Decidable c] {m n : EStateM ε σ α} (yes : Yields inv result m)
    (no : Yields inv result n) : Yields inv result (if c then m else n) := by
  split
  · exact yes
  · exact no

end Yields

theorem Preserves.given {inv : σ → Prop} {result : α → Prop} {m : EStateM ε σ α} {next : α → EStateM ε σ β}
    (first : Yields inv result m) (rest : ∀ value, result value → Preserves inv (next value)) :
    Preserves inv (m >>= next) := by
  intro s before
  rw [wp_bind]
  exact (first s before).mono (fun value s' h => rest value h.2 s' h.1) fun _ _ h => h

/-- `m` answers a value meeting `result` when it returns. -/
def Answers (result : α → Prop) (m : EStateM ε σ α) : Prop :=
  ∀ s, Ensures m s fun value _ => result value

namespace Answers

variable {result : α → Prop}

theorem pure {value : α} (holds : result value) :
    Answers result (Pure.pure value : EStateM ε σ α) := fun _ => holds

theorem throw (e : ε) : Answers result (MonadExcept.throw e : EStateM ε σ α) := fun _ => trivial

theorem bind {m : EStateM ε σ α} {next : α → EStateM ε σ β} {result' : β → Prop}
    (first : Answers result m) (rest : ∀ value, result value → Answers result' (next value)) :
    Answers result' (m >>= next) := by
  intro s
  unfold Ensures
  rw [wp_bind]
  exact (first s).mono (fun value s' holds => rest value holds s') fun _ _ _ => trivial

theorem after {m : EStateM ε σ α} {next : α → EStateM ε σ β} {result' : β → Prop}
    (rest : ∀ value, Answers result' (next value)) : Answers result' (m >>= next) := by
  have anything : Answers (fun _ => True) m := by
    intro s
    unfold Ensures wp
    cases m s <;> trivial
  exact anything.bind fun value _ => rest value

theorem ite {c : Prop} [Decidable c] {m n : EStateM ε σ α} (yes : c → Answers result m)
    (no : ¬c → Answers result n) : Answers result (if c then m else n) := by
  split
  · next holds => exact yes holds
  · next fails => exact no fails

end Answers

/-! ## Loops -/

/-- Run `body` until it answers `inr`, at most `fuel` times; then raise `out`. -/
def loop (out : ε) (body : α → EStateM ε σ (α ⊕ β)) : Nat → α → EStateM ε σ β
  | 0, _ => throw out
  | fuel + 1, a => do
      match ← body a with
      | .inl a => loop out body fuel a
      | .inr b => pure b

/-- The loop rule: what `body` preserves holds when the loop ends. -/
theorem wp_loop {out : ε} {body : α → EStateM ε σ (α ⊕ β)} (inv : α → σ → Prop)
    {post : β → σ → Prop} {stop : ε → σ → Prop}
    (step : ∀ a s, inv a s →
      wp (body a) s (fun r s' => Sum.elim (inv · s') (post · s') r) stop)
    (outOk : ∀ a s, inv a s → stop out s) :
    ∀ fuel a s, inv a s → wp (loop out body fuel a) s post stop := by
  intro fuel
  induction fuel with
  | zero => exact fun a s holds => outOk a s holds
  | succ fuel induction =>
      intro a s holds
      rw [loop, wp_bind]
      refine (step a s holds).mono ?_ fun _ _ h => h
      rintro (a' | b) s' h
      · exact induction a' s' h
      · exact h

theorem Yields.loop {inv : σ → Prop} (before : α → Prop) {result : β → Prop} {out : ε}
    {body : α → EStateM ε σ (α ⊕ β)}
    (step : ∀ a, before a → Yields inv (Sum.elim before result) (body a)) (fuel : Nat) {a : α}
    (start : before a) : Yields inv result (loop out body fuel a) := by
  intro s holds
  refine wp_loop (fun a s => inv s ∧ before a) (fun a s h => ?_) (fun _ _ h => h.1)
    fuel a s ⟨holds, start⟩
  refine (step a h.2 s h.1).mono ?_ fun _ _ h => h
  rintro (a | b) s' h <;> exact h

@[grind ←] theorem Preserves.loop {inv : σ → Prop} {out : ε} {body : α → EStateM ε σ (α ⊕ β)}
    (step : ∀ a, Preserves inv (body a)) (fuel : Nat) (a : α) :
    Preserves inv (loop out body fuel a) := by
  intro s holds
  refine wp_loop (fun _ => inv) (fun a s holds => ?_) (fun _ _ h => h) fuel a s holds
  refine (step a s holds).mono ?_ fun _ _ h => h
  rintro (a | b) s' h <;> exact h

end Foundation
