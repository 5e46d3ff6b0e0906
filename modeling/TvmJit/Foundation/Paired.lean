import Mathlib.Logic.Function.Basic
import Mathlib.Data.List.Basic

/-! Hash tables where a key has two places: its home, and the place behind it. A key that is behind
its home never has to go further, since only a key that is at its home makes room for another one. -/

namespace Foundation

open Function

universe u v

variable {κ : Type u} {τ : Type v}

/-- The keys are all at one of their places, and nothing else is in the table. -/
structure Paired (home : κ → Nat) (keys : List κ) (table : Nat → Option κ) : Prop where
  stored : ∀ k ∈ keys, table (home k) = some k ∨ table (home k + 1) = some k
  member : ∀ i k, table i = some k → k ∈ keys

namespace Paired

variable {home : κ → Nat} {keys : List κ} {table : Nat → Option κ} {k c : κ} {i : Nat}

theorem empty (home : κ → Nat) : Paired home [] fun _ => none := by
  constructor
  · simp
  · simp

/-- Putting something at a place that is free loses no key. -/
theorem put (paired : Paired home keys table) (free : table i = none) (isPlace : home k = i ∨ home k + 1 = i) :
    Paired home (k :: keys) (update table i (some k)) := by
  have kept (j : Nat) (k' : κ) (isKey : table j = some k') : update table i (some k) j = some k' := by
    have other : j ≠ i := by
      rintro rfl
      rw [free] at isKey
      cases isKey
    simp [other, isKey]
  constructor
  · intro k' member
    rcases List.mem_cons.mp member with rfl | member
    · rcases isPlace with rfl | rfl
      · simp
      · simp
    · exact (paired.stored k' member).imp (kept _ k') (kept _ k')
  · intro j k' isKey
    by_cases same : j = i
    · subst same
      simp at isKey
      simp [isKey]
    · simp [same] at isKey
      exact List.mem_cons_of_mem k (paired.member j k' isKey)

/-- A key that is at its home moves behind it and leaves its home to another one. -/
theorem move (paired : Paired home keys table) (isKey : table i = some c) (isHome : home c = i)
    (free : table (i + 1) = none) (isPlace : home k + 1 = i) :
    Paired home (k :: keys) (update (update table (i + 1) (some c)) i (some k)) := by
  have kept (j : Nat) (k' : κ) (other : k' ≠ c) (isKey' : table j = some k') :
      update (update table (i + 1) (some c)) i (some k) j = some k' := by
    have notHere : j ≠ i := by
      rintro rfl
      exact other (Option.some.inj (isKey'.symm.trans isKey))
    have notNext : j ≠ i + 1 := by
      rintro rfl
      rw [free] at isKey'
      cases isKey'
    simp [notHere, notNext, isKey']
  constructor
  · intro k' member
    rcases List.mem_cons.mp member with rfl | member
    · right
      simp [isPlace]
    · by_cases same : k' = c
      · right
        simp [same, isHome]
      · exact (paired.stored k' member).imp (kept _ k' same) (kept _ k' same)
  · intro j k' isKey'
    by_cases here : j = i
    · simp [here] at isKey'
      simp [isKey']
    · by_cases behind : j = i + 1
      · simp [behind] at isKey'
        subst isKey'
        exact List.mem_cons_of_mem k (paired.member i c isKey)
      · simp [here, behind] at isKey'
        exact List.mem_cons_of_mem k (paired.member j k' isKey')

/-- A key is found by its tag at the home that the tag has, or behind it, where tags tell keys apart. -/
theorem lookup {tag : κ → τ} {h : Nat} (paired : Paired home keys table) (member : k ∈ keys)
    (apart : ∀ k' ∈ keys, tag k' = tag k → k' = k) (isHome : home k = h) :
    table h = some k ∨ (∀ k', table h = some k' → tag k' ≠ tag k) ∧ table (h + 1) = some k := by
  have places := paired.stored k member
  rw [isHome] at places
  by_cases first : table h = some k
  · exact .inl first
  · right
    refine ⟨fun k' isKey same => ?_, places.resolve_left first⟩
    rw [apart k' (paired.member h k' isKey) same] at isKey
    exact first isKey

end Paired

end Foundation
