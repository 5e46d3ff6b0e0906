import Mathlib.Data.List.Pairwise
import Mathlib.Logic.Function.Basic

/-! Loops that copy the values of a map from places to other places, one after the other. -/

namespace Foundation

open Function

/-- The integers from one to another, upwards. -/
def upTo (first last : Int) : List Int := (List.range (last - first + 1).toNat).map fun k : Nat => first + k

/-- The integers from one to another, downwards. -/
def downTo (first last : Int) : List Int := (List.range (first - last + 1).toNat).map fun k : Nat => first - k

theorem mem_upTo {first last i : Int} : i ∈ upTo first last ↔ first ≤ i ∧ i ≤ last := by
  rw [upTo, List.mem_map]
  constructor
  · rintro ⟨k, member, rfl⟩
    have inside := List.mem_range.mp member
    omega
  · intro ⟨low, high⟩
    exact ⟨(i - first).toNat, List.mem_range.mpr (by omega), by omega⟩

theorem mem_downTo {first last i : Int} : i ∈ downTo first last ↔ last ≤ i ∧ i ≤ first := by
  rw [downTo, List.mem_map]
  constructor
  · rintro ⟨k, member, rfl⟩
    have inside := List.mem_range.mp member
    omega
  · intro ⟨low, high⟩
    exact ⟨(first - i).toNat, List.mem_range.mpr (by omega), by omega⟩

theorem upTo_pairwise (first last : Int) : (upTo first last).Pairwise (· < ·) := by
  apply List.pairwise_map.mpr
  apply List.pairwise_lt_range.imp
  intro a b below
  omega

theorem downTo_pairwise (first last : Int) : (downTo first last).Pairwise (· > ·) := by
  apply List.pairwise_map.mpr
  apply List.pairwise_lt_range.imp
  intro a b below
  omega

section

variable {ι K V : Type} [DecidableEq K] (src dst : ι → K)

/-- What is at one place is copied to another one. Nothing is the source when it is the map
itself. -/
def copyOne (source : Option (K → V)) (m : K → V) (i : ι) : K → V :=
  update m (dst i) ((source.getD m) (src i))

variable {src dst} {source : Option (K → V)} {m : K → V} {l : List ι}

/-- Other places stay. -/
theorem copies_other {k : K} (other : ∀ i ∈ l, k ≠ dst i) :
    l.foldl (copyOne src dst source) m k = m k := by
  induction l generalizing m with
  | nil => rfl
  | cons i rest induction =>
      have ⟨here, others⟩ := List.forall_mem_cons.mp other
      rw [List.foldl_cons, induction others, copyOne, update_of_ne here]

/-- All values arrive when no place is written to twice, and none before it is read. -/
theorem copies_moved (once : l.Pairwise fun i j => dst j ≠ dst i)
    (unread : source = none → l.Pairwise fun i j => src j ≠ dst i) :
    ∀ i ∈ l, l.foldl (copyOne src dst source) m (dst i) = (source.getD m) (src i) := by
  induction l generalizing m with
  | nil => exact fun i member => nomatch member
  | cons i rest induction =>
      have ⟨here, later⟩ := List.pairwise_cons.mp once
      have laterUnread := fun isNone => (List.pairwise_cons.mp (unread isNone)).2
      intro j member
      rcases List.mem_cons.mp member with rfl | member
      · rw [List.foldl_cons, copies_other fun j member => (here j member).symm, copyOne, update_self]
      · rw [List.foldl_cons, induction later laterUnread j member]
        cases source with
        | some other => rfl
        | none =>
            have first := (List.pairwise_cons.mp (unread rfl)).1 j member
            exact update_of_ne first _ _

end

end Foundation
