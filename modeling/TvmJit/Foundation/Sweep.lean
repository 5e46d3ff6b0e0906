import Mathlib.Data.List.Nodup

/-! A cursor that goes over a row of places, from each full place to the next one, while
places may be filled and emptied. -/

namespace Foundation

universe u

/-- The first full place from `i` on, where there are `n` places. -/
def firstFull (full : Nat → Bool) (i n : Nat) : Option Nat := (List.range' i (n - i)).find? full

section

variable {full : Nat → Bool} {i j n : Nat}

theorem firstFull_some (found : firstFull full i n = some j) :
    i ≤ j ∧ j < n ∧ full j = true ∧ ∀ k, i ≤ k → k < j → full k = false := by
  have member := List.mem_range'_1.mp (List.mem_of_find?_eq_some found)
  refine ⟨member.1, by omega, List.find?_some found, fun k low high => ?_⟩
  obtain ⟨before, after, parts, none⟩ := (List.find?_eq_some_iff_append.mp found).2
  have split : k ∈ before := by
    have inside : k ∈ before ++ j :: after := by
      rw [← parts]
      exact List.mem_range'_1.mpr ⟨low, by omega⟩
    have sorted : (before ++ j :: after).Pairwise (· < ·) := parts ▸ List.pairwise_lt_range'
    rcases List.mem_append.mp inside with early | late
    · exact early
    · have later := (List.pairwise_append.mp sorted).2.1
      rcases List.mem_cons.mp late with rfl | late
      · exact absurd high (Nat.lt_irrefl _)
      · have := List.rel_of_pairwise_cons later late
        omega
  simpa using none k split

theorem firstFull_none (missed : firstFull full i n = none) :
    ∀ k, i ≤ k → k < n → full k = false := by
  intro k low high
  have none := List.find?_eq_none.mp missed k (List.mem_range'_1.mpr ⟨low, by omega⟩)
  simpa using none

theorem firstFull_past (full : Nat → Bool) (past : n ≤ i) : firstFull full i n = none := by
  rw [firstFull, Nat.sub_eq_zero_of_le past]
  rfl

/-- Empty places at the end are not found. -/
theorem firstFull_empty {full' : Nat → Bool} {m : Nat} (high : m ≤ n)
    (same : ∀ j, j < m → full' j = full j) (empty : ∀ j, m ≤ j → j < n → full' j = false) :
    firstFull full' i n = firstFull full i m := by
  cases found : firstFull full i m with
  | some j =>
      obtain ⟨ahead, inside, isFull, first⟩ := firstFull_some found
      cases found' : firstFull full' i n with
      | none =>
          have missed := firstFull_none found' j ahead (by omega)
          rw [same j inside, isFull] at missed
          cases missed
      | some j' =>
          obtain ⟨ahead', inside', isFull', first'⟩ := firstFull_some found'
          rcases Nat.lt_trichotomy j' j with before | rfl | after
          · have missed := first j' ahead' before
            rw [← same j' (by omega), isFull'] at missed
            cases missed
          · rfl
          · have missed := first' j ahead after
            rw [same j inside, isFull] at missed
            cases missed
  | none =>
      have missed := firstFull_none found
      cases found' : firstFull full' i n with
      | none => rfl
      | some j' =>
          obtain ⟨ahead', inside', isFull', -⟩ := firstFull_some found'
          rcases Nat.lt_or_ge j' m with before | after
          · rw [same j' before, missed j' ahead' before] at isFull'
            cases isFull'
          · rw [empty j' after inside'] at isFull'
            cases isFull'

end

/-- The cursor at `i` visits `places`, in states that follow each other, and is at `i'`
after that. -/
inductive Sweep {σ : Type u} (full : σ → Nat → Prop) : Nat → List σ → List Nat → Nat → Prop
  | stop {i : Nat} {s : σ} : Sweep full i [s] [] i
  | change {i i' : Nat} {s : σ} {states : List σ} {places : List Nat}
      (rest : Sweep full i states places i') : Sweep full i (s :: states) places i'
  | visit {i i' j : Nat} {s : σ} {states : List σ} {places : List Nat} (ahead : i ≤ j)
      (here : full s j) (first : ∀ k, i ≤ k → k < j → ¬full s k)
      (rest : Sweep full (j + 1) states places i') : Sweep full i (s :: states) (j :: places) i'

namespace Sweep

variable {σ : Type u} {full : σ → Nat → Prop} {i i' : Nat} {states : List σ} {places : List Nat}

theorem ahead (sweep : Sweep full i states places i') : i ≤ i' ∧ ∀ j ∈ places, i ≤ j ∧ j < i' := by
  induction sweep with
  | stop => exact ⟨Nat.le_refl _, nofun⟩
  | change _ induction => exact induction
  | @visit i i' j s states places ahead _ _ _ induction =>
      refine ⟨by omega, fun j' member => ?_⟩
      rcases List.mem_cons.mp member with rfl | later
      · omega
      · have := induction.2 j' later
        omega

/-- No place is visited twice. -/
theorem increasing (sweep : Sweep full i states places i') : places.Pairwise (· < ·) := by
  induction sweep with
  | stop => exact .nil
  | change _ induction => exact induction
  | visit _ _ _ rest induction =>
      exact .cons (fun j member => (rest.ahead.2 j member).1) induction

theorem length_le (sweep : Sweep full i states places i') : i + places.length ≤ i' := by
  induction sweep with
  | stop => exact Nat.le_refl _
  | change _ induction => exact induction
  | visit _ _ _ _ induction =>
      rw [List.length_cons]
      omega

/-- A place that is full all the time is not passed over. -/
theorem complete (sweep : Sweep full i states places i') {k : Nat} (low : i ≤ k) (passed : k < i')
    (always : ∀ s ∈ states, full s k) : k ∈ places := by
  induction sweep with
  | stop => omega
  | change _ induction =>
      exact induction low passed fun s member => always s (List.mem_cons_of_mem _ member)
  | @visit i i' j s states places _ _ first _ induction =>
      have fullHere := always s List.mem_cons_self
      rcases Nat.lt_trichotomy k j with before | rfl | after
      · exact absurd fullHere (first k low before)
      · exact List.mem_cons_self
      · exact List.mem_cons_of_mem _
          (induction after passed fun s member => always s (List.mem_cons_of_mem _ member))

end Sweep

end Foundation
