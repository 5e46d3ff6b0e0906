import Mathlib.Logic.Basic
import TvmJit.Foundation.Raises

/-! Readers that take off their input what a writer has written. They have a state beside the input. -/

namespace Foundation

universe u

variable {S ε σ α β ι : Type u}

abbrev Reader (S ε σ α : Type u) := EStateM ε (List S × σ) α

namespace Reader

/-- A function of the input alone, which may miss something in it. -/
def ofInput (missing : ε) (f : List S → Option (α × List S)) : Reader S ε σ α := fun s =>
  match f s.1 with
  | some r => .ok r.1 (r.2, s.2)
  | none => .error missing s

/-- The next `n` symbols. -/
def take (missing : ε) (n : Nat) : Reader S ε σ (List S) :=
  ofInput missing fun input => if n ≤ input.length then some (input.take n, input.drop n) else none

/-- One value after the other. -/
def many (x : Reader S ε σ α) : Nat → Reader S ε σ (List α)
  | 0 => pure []
  | n + 1 => do
      let a ← x
      let rest ← many x n
      return a :: rest

end Reader

/-- The reader takes exactly the word off the input, whatever is behind it. -/
def Decodes (x : Reader S ε σ α) (word : List S) (s : σ) (a : α) (s' : σ) : Prop :=
  ∀ rest, x (word ++ rest, s) = .ok a (rest, s')

namespace Decodes

variable {x : Reader S ε σ α} {word word' : List S} {s s' s'' : σ} {a : α} {b : β} {missing : ε}

theorem pure : Decodes (Pure.pure a : Reader S ε σ α) [] s a s := fun _ => rfl

theorem bind {f : α → Reader S ε σ β} (first : Decodes x word s a s') (next : Decodes (f a) word' s' b s'') :
    Decodes (x >>= f) (word ++ word') s b s'' := by
  intro rest
  rw [List.append_assoc, bind_of_ok (first (word' ++ rest))]
  exact next rest

/-- The last step takes nothing off the input. -/
theorem bind_nil {f : α → Reader S ε σ β} (first : Decodes x word s a s') (next : Decodes (f a) [] s' b s'') :
    Decodes (x >>= f) word s b s'' := by
  have both := first.bind next
  rwa [List.append_nil] at both

/-- The first step takes nothing off the input. -/
theorem nil_bind {f : α → Reader S ε σ β} (first : Decodes x [] s a s') (next : Decodes (f a) word s' b s'') :
    Decodes (x >>= f) word s b s'' := first.bind next

theorem ofInput {f : List S → Option (α × List S)} (reads : ∀ rest, f (word ++ rest) = some (a, rest)) :
    Decodes (Reader.ofInput missing f) word s a s := by
  intro rest
  simp only [Reader.ofInput, reads]

theorem take (n : Nat) (length : word.length = n) : Decodes (Reader.take missing n) word s word s := by
  apply ofInput
  intro rest
  rw [if_pos (by simp [← length]), ← length, List.take_left, List.drop_left]

/-- Each of the items is read as its value. -/
theorem many {write : ι → List S} {value : ι → α} {items : List ι}
    (each : ∀ i ∈ items, Decodes x (write i) s (value i) s) :
    Decodes (Reader.many x items.length) (items.flatMap write) s (items.map value) s := by
  induction items with
  | nil => exact pure
  | cons i items induction =>
      rw [List.flatMap_cons]
      apply (each i List.mem_cons_self).bind
      exact (induction fun j member => each j (List.mem_cons_of_mem i member)).bind_nil pure

theorem ite {c : Prop} [Decidable c] {x y : Reader S ε σ α} (yes : c → Decodes x word s a s')
    (no : ¬c → Decodes y word s a s') : Decodes (if c then x else y) word s a s' := by
  split
  · next holds => exact yes holds
  · next fails => exact no fails

end Decodes

end Foundation
