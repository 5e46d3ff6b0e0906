import Mathlib.Data.List.Basic
import Mathlib.Tactic.Common

/-! Code for a stack machine in postfix form, which may be executed in place: the operands are
put over the code that has been read. -/

namespace Foundation

universe u v

/-- Code that leaves one operand: a leaf, or the code of one or two operands and an operation. -/
inductive Postfix {α : Type u} (leaf : List α → Prop) (unary binary : α → Prop) : List α → Prop
  | leaf {code} : leaf code → Postfix leaf unary binary code
  | unary {code ins} : Postfix leaf unary binary code → unary ins → Postfix leaf unary binary (code ++ [ins])
  | binary {code code' ins} : Postfix leaf unary binary code → Postfix leaf unary binary code' → binary ins →
      Postfix leaf unary binary (code ++ (code' ++ [ins]))

/-- A number of steps. -/
def stepTimes {S : Type v} (step : S → Option S) : Nat → S → Option S
  | 0, s => some s
  | n + 1, s => (step s).bind (stepTimes step n)

section

variable {S : Type v} {step : S → Option S}

theorem stepTimes_add (n m : Nat) (s : S) : stepTimes step (n + m) s = (stepTimes step n s).bind (stepTimes step m) := by
  induction n generalizing s with
  | zero =>
      rw [Nat.zero_add]
      rfl
  | succ n induction =>
      rw [Nat.succ_add, stepTimes, stepTimes]
      cases step s with
      | none => rfl
      | some s' => exact induction s'

end

section

variable {S : Type v} {α : Type u} (step : S → Option S) (next sp : S → Nat) (cell : S → Nat → α) (good : S → Prop)

/-- The code stands in the cells from a place on. -/
def Stands (code : List α) (s : S) (place : Nat) : Prop := ∀ i ins, code[i]? = some ins → cell s (place + i) = ins

/-- Some code is executed, and leaves more operands. The code behind it stays. What is good is that there are operands
where the machine looks for them. -/
structure Executed (length more fewer : Nat) (s s' : S) : Prop where
  read : next s' = next s + length
  operands : sp s' + fewer = sp s + more
  room : sp s' ≤ next s'
  good : good s'
  cells : ∀ place, next s' ≤ place → cell s' place = cell s place

/-- How a machine executes leaves and operations that stand before the end of the code. -/
structure Executes (last : Nat) (leaf : List α → Prop) (unary binary : α → Prop) : Prop where
  leaf : ∀ code s, leaf code → Stands cell code s (next s) → next s + code.length ≤ last → sp s ≤ next s → good s →
    ∃ s', step s = some s' ∧ Executed next sp cell good code.length 1 0 s s'
  unary : ∀ ins s, unary ins → cell s (next s) = ins → next s < last → 1 ≤ sp s → sp s ≤ next s → good s →
    ∃ s', step s = some s' ∧ Executed next sp cell good 1 0 0 s s'
  binary : ∀ ins s, binary ins → cell s (next s) = ins → next s < last → 2 ≤ sp s → sp s ≤ next s → good s →
    ∃ s', step s = some s' ∧ Executed next sp cell good 1 0 1 s s'

end

section

variable {S : Type v} {α : Type u} {step : S → Option S} {next sp : S → Nat} {cell : S → Nat → α} {good : S → Prop}
  {leaf : List α → Prop} {unary binary : α → Prop} {last : Nat} {s s' : S}

theorem Stands.left {code code' : List α} {place : Nat} (stands : Stands cell (code ++ code') s place) :
    Stands cell code s place := by
  intro i ins here
  apply stands
  rw [List.getElem?_append_left (List.getElem?_eq_some_iff.mp here).1]
  exact here

theorem Stands.right {code code' : List α} {place : Nat} (stands : Stands cell (code ++ code') s place) :
    Stands cell code' s (place + code.length) := by
  intro i ins here
  rw [Nat.add_assoc]
  apply stands
  rw [List.getElem?_append_right (Nat.le_add_right ..), Nat.add_sub_cancel_left]
  exact here

theorem Stands.keep {code : List α} {length more fewer : Nat}
    (executed : Executed next sp cell good length more fewer s s') (stands : Stands cell code s (next s + length)) :
    Stands cell code s' (next s') := by
  intro i ins here
  rw [executed.cells _ (Nat.le_add_right ..), executed.read]
  exact stands i ins here

/-- Postfix code is executed in place and leaves one operand. -/
theorem Postfix.executed {code : List α} (ordered : Postfix leaf unary binary code)
    (executes : Executes step next sp cell good last leaf unary binary) (nonempty : ∀ code, leaf code → code ≠ [])
    (stands : Stands cell code s (next s)) (ends : next s + code.length ≤ last) (room : sp s ≤ next s)
    (isGood : good s) :
    ∃ n s', n ≤ code.length ∧ stepTimes step n s = some s' ∧ Executed next sp cell good code.length 1 0 s s' := by
  induction ordered generalizing s with
  | @leaf code isLeaf =>
      have ⟨s', isStep, executed⟩ := executes.leaf code s isLeaf stands ends room isGood
      have positive := List.length_pos_iff.mpr (nonempty code isLeaf)
      refine ⟨1, s', positive, ?_, executed⟩
      rw [stepTimes, isStep]
      rfl
  | @unary code ins _ isUnary induction =>
      rw [List.length_append, List.length_singleton] at ends
      have ⟨n, s₁, few, steps, first⟩ := induction stands.left (by omega) room isGood
      have here := (Stands.keep first stands.right) 0 ins rfl
      have next₁ := first.read
      have sp₁ := first.operands
      have ⟨s₂, isStep, second⟩ := executes.unary ins s₁ isUnary here (by omega) (by omega) first.room first.good
      refine ⟨n + 1, s₂, ?_, ?_, ?_⟩
      · rw [List.length_append]
        exact Nat.add_le_add_right few 1
      · rw [stepTimes_add, steps, Option.bind_some, stepTimes, isStep]
        rfl
      · have next₂ := second.read
        have sp₂ := second.operands
        exact {
          read := by
            rw [List.length_append, List.length_singleton]
            omega
          operands := by omega
          room := second.room
          good := second.good
          cells := fun place low => (second.cells place low).trans (first.cells place (by omega)) }
  | @binary code code' ins _ _ isBinary left right =>
      rw [List.length_append, List.length_append, List.length_singleton] at ends
      have ⟨n, s₁, few, steps, first⟩ := left stands.left (by omega) room isGood
      have next₁ := first.read
      have behind := Stands.keep first stands.right
      have ⟨m, s₂, few', steps', second⟩ := right behind.left (by omega) first.room first.good
      have next₂ := second.read
      have here := (Stands.keep second behind.right) 0 ins rfl
      have sp₁ := first.operands
      have sp₂ := second.operands
      have ⟨s₃, isStep, third⟩ := executes.binary ins s₂ isBinary here (by omega) (by omega) second.room second.good
      refine ⟨n + (m + 1), s₃, ?_, ?_, ?_⟩
      · rw [List.length_append, List.length_append]
        exact Nat.add_le_add few (Nat.add_le_add_right few' 1)
      · rw [stepTimes_add, steps, Option.bind_some, stepTimes_add, steps', Option.bind_some, stepTimes, isStep]
        rfl
      · have next₃ := third.read
        have sp₃ := third.operands
        exact {
          read := by
            rw [List.length_append, List.length_append, List.length_singleton]
            omega
          operands := by omega
          room := third.room
          good := third.good
          cells := fun place low =>
            (third.cells place low).trans ((second.cells place (by omega)).trans (first.cells place (by omega))) }

end

end Foundation
