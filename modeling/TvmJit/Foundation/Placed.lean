import Mathlib.Data.List.Basic
import Mathlib.Logic.Function.Basic
import Mathlib.Tactic.Common

/-! Lists that stand in a buffer, and buffers that lists are written to. -/

namespace Foundation

open Function

universe u

variable {α : Type u}

/-- The list stands in the buffer from a place on. -/
def Placed (buffer : Nat → α) (place : Nat) (list : List α) : Prop := ∀ i a, list[i]? = some a → buffer (place + i) = a

/-- The buffer after the list has been written to it from a place on. -/
def written (buffer : Nat → α) (place : Nat) : List α → Nat → α
  | [] => buffer
  | a :: list => written (update buffer place a) (place + 1) list

section

variable {buffer buffer' : Nat → α} {place : Nat} {list list' : List α} {a : α}

theorem placed_nil (buffer : Nat → α) (place : Nat) : Placed buffer place [] := nofun

theorem placed_cons : Placed buffer place (a :: list) ↔ buffer place = a ∧ Placed buffer (place + 1) list := by
  constructor
  · intro placed
    refine ⟨placed 0 a rfl, ?_⟩
    intro i b here
    rw [Nat.add_assoc, Nat.add_comm 1]
    exact placed (i + 1) b here
  · intro ⟨first, rest⟩ i b here
    cases i with
    | zero => exact first.trans (Option.some.inj here)
    | succ i =>
        rw [← Nat.add_assoc, Nat.add_right_comm]
        exact rest i b here

theorem placed_append : Placed buffer place (list ++ list') ↔
    Placed buffer place list ∧ Placed buffer (place + list.length) list' := by
  induction list generalizing place with
  | nil => exact ⟨fun placed => ⟨placed_nil buffer place, placed⟩, And.right⟩
  | cons a list induction =>
      rw [List.cons_append, placed_cons, placed_cons, induction, List.length_cons, Nat.add_right_comm, Nat.add_assoc,
        and_assoc]

/-- A list stays where nothing is written to its places. -/
theorem Placed.congr (placed : Placed buffer place list)
    (same : ∀ i, place ≤ i → i < place + list.length → buffer' i = buffer i) : Placed buffer' place list := by
  intro i a here
  have inside := (List.getElem?_eq_some_iff.mp here).1
  rw [same _ (Nat.le_add_right ..) (Nat.add_lt_add_left inside place)]
  exact placed i a here

theorem written_outside (buffer : Nat → α) (list : List α) {place i : Nat}
    (outside : i < place ∨ place + list.length ≤ i) : written buffer place list i = buffer i := by
  induction list generalizing buffer place with
  | nil => rfl
  | cons a list induction =>
      rw [List.length_cons] at outside
      have notHere : i ≠ place := by omega
      rw [written, induction _ (by omega), update_of_ne notHere]

theorem placed_written (buffer : Nat → α) (place : Nat) (list : List α) : Placed (written buffer place list) place list := by
  induction list generalizing buffer place with
  | nil => exact placed_nil buffer place
  | cons a list induction =>
      rw [placed_cons]
      refine ⟨?_, induction _ _⟩
      rw [written, written_outside _ _ (.inl (Nat.lt_succ_self place)), update_self]

theorem Placed.update (placed : Placed buffer place list) {i : Nat} (behind : place + list.length ≤ i) (a : α) :
    Placed (Function.update buffer i a) place list :=
  placed.congr fun _ _ high => update_of_ne (Nat.ne_of_lt (Nat.lt_of_lt_of_le high behind)) ..

theorem Placed.written (placed : Placed buffer place list) {place' : Nat}
    (apart : place + list.length ≤ place' ∨ place' + list'.length ≤ place) :
    Placed (Foundation.written buffer place' list') place list := by
  apply placed.congr
  intro i low high
  apply written_outside
  omega

/-- One place of a list is written to. -/
theorem Placed.set (placed : Placed buffer place (list ++ a :: list')) (b : α) :
    Placed (Function.update buffer (place + list.length) b) place (list ++ b :: list') := by
  have ⟨first, rest⟩ := placed_append.mp placed
  have ⟨_, behind⟩ := placed_cons.mp rest
  apply placed_append.mpr
  refine ⟨first.update (Nat.le_refl _) b, placed_cons.mpr ⟨update_self .., ?_⟩⟩
  exact behind.congr fun i low _ => update_of_ne (Nat.ne_of_gt low) ..

/-- What is read from the places of a list is the list. -/
theorem Placed.map_range' (placed : Placed buffer place list) : (List.range' place list.length).map buffer = list := by
  induction list generalizing place with
  | nil => rfl
  | cons a list induction =>
      have ⟨first, rest⟩ := placed_cons.mp placed
      rw [List.length_cons, List.range'_succ, List.map_cons, first, induction rest]

theorem written_append (buffer : Nat → α) (place : Nat) (list list' : List α) :
    written buffer place (list ++ list') = written (written buffer place list) (place + list.length) list' := by
  induction list generalizing buffer place with
  | nil => rfl
  | cons a list induction =>
      rw [List.cons_append, written, written, induction, List.length_cons, Nat.add_right_comm, Nat.add_assoc]

end

end Foundation
