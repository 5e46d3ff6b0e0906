import Mathlib.Data.List.Lex
import Mathlib.Data.List.Induction
import Mathlib.Tactic.Ring

/-! Numbers as digits in some base, the most significant one first. -/

namespace Foundation

/-- The number that digits stand for. -/
def numeral (base : Nat) (digits : List Nat) : Nat := digits.foldl (fun n digit => n * base + digit) 0

section

variable {base : Nat} {xs ys xs' ys' : List Nat}

@[simp] theorem numeral_nil : numeral base [] = 0 := rfl

@[simp] theorem numeral_concat (digit : Nat) : numeral base (xs ++ [digit]) = numeral base xs * base + digit := by
  rw [numeral, List.foldl_concat]
  rfl

theorem numeral_append (xs ys : List Nat) :
    numeral base (xs ++ ys) = numeral base xs * base ^ ys.length + numeral base ys := by
  induction ys using List.reverseRecOn with
  | nil => simp
  | append_singleton ys digit induction =>
      rw [← List.append_assoc, numeral_concat, numeral_concat, induction, List.length_append,
        List.length_singleton]
      ring

theorem numeral_cons (digit : Nat) : numeral base (digit :: xs) = digit * base ^ xs.length + numeral base xs := by
  have front : numeral base [digit] = digit := by simp [numeral]
  have parts : numeral base ([digit] ++ xs) = _ := numeral_append [digit] xs
  rwa [front] at parts

theorem numeral_lt (small : ∀ digit ∈ xs, digit < base) : numeral base xs < base ^ xs.length := by
  induction xs with
  | nil => exact Nat.one_pos
  | cons digit xs induction =>
      obtain ⟨first, rest⟩ := List.forall_mem_cons.mp small
      have below := induction rest
      rw [numeral_cons, List.length_cons, Nat.pow_succ']
      calc digit * base ^ xs.length + numeral base xs
          < digit * base ^ xs.length + base ^ xs.length := Nat.add_lt_add_left below _
        _ = (digit + 1) * base ^ xs.length := by ring
        _ ≤ base * base ^ xs.length := Nat.mul_le_mul_right _ first

/-- A leading digit that is not 0 tells the size from below. -/
theorem pow_le_numeral {digit : Nat} (some : digit ≠ 0) : base ^ xs.length ≤ numeral base (digit :: xs) := by
  rw [numeral_cons]
  exact Nat.le_add_right_of_le (Nat.le_mul_of_pos_left _ (Nat.pos_of_ne_zero some))

/-- The digits in front. -/
theorem numeral_div (small : ∀ digit ∈ ys, digit < base) :
    numeral base (xs ++ ys) / base ^ ys.length = numeral base xs := by
  have below := numeral_lt small
  rw [numeral_append, Nat.mul_comm, Nat.mul_add_div (by omega), Nat.div_eq_of_lt below, Nat.add_zero]

/-- As many digits are in the order of the numbers. -/
theorem numeral_lt_iff (length : xs.length = ys.length) (small : ∀ digit ∈ xs, digit < base)
    (small' : ∀ digit ∈ ys, digit < base) : numeral base xs < numeral base ys ↔ xs < ys := by
  induction xs generalizing ys with
  | nil =>
      obtain rfl := List.eq_nil_of_length_eq_zero length.symm
      simp
  | cons x xs induction =>
      cases ys with
      | nil => cases length
      | cons y ys =>
          have length : xs.length = ys.length := Nat.succ.inj length
          obtain ⟨-, small⟩ := List.forall_mem_cons.mp small
          obtain ⟨-, small'⟩ := List.forall_mem_cons.mp small'
          have below := numeral_lt small
          have below' := numeral_lt small'
          rw [numeral_cons, numeral_cons, List.cons_lt_cons_iff, ← induction length small small', length]
          rw [length] at below
          rcases Nat.lt_trichotomy x y with less | same | more
          · have step : (x + 1) * base ^ ys.length ≤ y * base ^ ys.length := Nat.mul_le_mul_right _ less
            rw [Nat.add_mul] at step
            exact iff_of_true (by omega) (.inl less)
          · subst same
            simp
          · have step : (y + 1) * base ^ ys.length ≤ x * base ^ ys.length := Nat.mul_le_mul_right _ more
            rw [Nat.add_mul] at step
            exact iff_of_false (by omega) (by omega)

theorem numeral_inj (length : xs.length = ys.length) (small : ∀ digit ∈ xs, digit < base)
    (small' : ∀ digit ∈ ys, digit < base) : numeral base xs = numeral base ys ↔ xs = ys := by
  constructor
  · intro same
    rcases lt_trichotomy xs ys with less | equal | more
    · rw [← numeral_lt_iff length small small'] at less
      omega
    · exact equal
    · rw [← numeral_lt_iff length.symm small' small] at more
      omega
  · rintro rfl
    rfl

end

/-! ## Order -/

/-- The sign of `r` is how the lists compare. -/
def Orders (r : Int) (xs ys : List Nat) : Prop :=
  r < 0 ∧ xs < ys ∨ r = 0 ∧ xs = ys ∨ 0 < r ∧ ys < xs

namespace Orders

variable {r : Int} {xs ys : List Nat}

theorem append_left (orders : Orders r xs ys) (front : List Nat) : Orders r (front ++ xs) (front ++ ys) := by
  rcases orders with ⟨sign, less⟩ | ⟨sign, rfl⟩ | ⟨sign, more⟩
  · exact .inl ⟨sign, List.append_left_lt less⟩
  · exact .inr (.inl ⟨sign, rfl⟩)
  · exact .inr (.inr ⟨sign, List.append_left_lt more⟩)

private theorem lt_append (length : xs.length = ys.length) (less : xs < ys) (xs' ys' : List Nat) :
    xs ++ xs' < ys ++ ys' := by
  induction xs generalizing ys with
  | nil =>
      obtain rfl := List.eq_nil_of_length_eq_zero length.symm
      cases less
  | cons x xs induction =>
      cases ys with
      | nil => cases length
      | cons y ys =>
          rw [List.cons_append, List.cons_append, List.cons_lt_cons_iff]
          rcases List.cons_lt_cons_iff.mp less with first | ⟨same, rest⟩
          · exact .inl first
          · exact .inr ⟨same, induction (Nat.succ.inj length) rest⟩

/-- Where the lists differ in front, the rest does not matter. -/
theorem append_right (orders : Orders r xs ys) (different : r ≠ 0) (length : xs.length = ys.length)
    (xs' ys' : List Nat) : Orders r (xs ++ xs') (ys ++ ys') := by
  rcases orders with ⟨sign, less⟩ | ⟨sign, -⟩ | ⟨sign, more⟩
  · exact .inl ⟨sign, lt_append length less xs' ys'⟩
  · exact absurd sign different
  · exact .inr (.inr ⟨sign, lt_append length.symm more ys' xs'⟩)

/-- Of a list and a longer one that it starts, it is the first. -/
theorem of_length {zs : List Nat} (length : xs.length = 0 ∨ ys.length = 0)
    (sign : r = xs.length - ys.length) : Orders r (zs ++ xs) (zs ++ ys) := by
  apply append_left
  cases xs with
  | nil =>
      cases ys with
      | nil => exact .inr (.inl ⟨sign, rfl⟩)
      | cons y ys =>
          rw [List.length_nil, List.length_cons] at sign
          exact .inl ⟨by omega, List.nil_lt_cons y ys⟩
  | cons x xs =>
      cases ys with
      | nil =>
          rw [List.length_nil, List.length_cons] at sign
          exact .inr (.inr ⟨by omega, List.nil_lt_cons x xs⟩)
      | cons y ys =>
          rcases length with none | none
          · cases none
          · cases none

theorem iffs (orders : Orders r xs ys) : (r < 0 ↔ xs < ys) ∧ (r = 0 ↔ xs = ys) ∧ (0 < r ↔ ys < xs) := by
  rcases orders with ⟨sign, less⟩ | ⟨sign, rfl⟩ | ⟨sign, more⟩
  · refine ⟨iff_of_true sign less, iff_of_false (by omega) (ne_of_lt less), ?_⟩
    exact iff_of_false (by omega) (lt_asymm less)
  · exact ⟨iff_of_false (by omega) (lt_irrefl xs), iff_of_true sign rfl,
      iff_of_false (by omega) (lt_irrefl xs)⟩
  · refine ⟨iff_of_false (by omega) (lt_asymm more), ?_, iff_of_true sign more⟩
    exact iff_of_false (by omega) (ne_of_gt more)

end Orders

end Foundation
