import Mathlib.Data.List.Nodup
import Mathlib.Data.List.Perm.Basic
import Mathlib.Data.Set.Basic
import Mathlib.Logic.Equiv.Basic

/-! Maps whose values have been put into another order on some of their places, and when an order
of values has been reached. -/

namespace Foundation

universe u v

variable {ι : Type u} {V : Type v}

/-! ## Rearranging -/

/-- One map has the values of another one, in another order on the places of a set. -/
def Rearranged (S : Set ι) (a b : ι → V) : Prop :=
  ∃ p : Equiv.Perm ι, (∀ i, i ∉ S → p i = i) ∧ b = a ∘ p

namespace Rearranged

variable {S T : Set ι} {a b c : ι → V}

theorem refl (S : Set ι) (a : ι → V) : Rearranged S a a := ⟨Equiv.refl ι, fun _ _ => rfl, rfl⟩

theorem trans (first : Rearranged S a b) (second : Rearranged S b c) : Rearranged S a c := by
  obtain ⟨p, fixed, rfl⟩ := first
  obtain ⟨q, fixed', rfl⟩ := second
  refine ⟨q.trans p, fun i outside => ?_, rfl⟩
  rw [Equiv.trans_apply, fixed' i outside, fixed i outside]

theorem mono (rearranged : Rearranged S a b) (subset : S ⊆ T) : Rearranged T a b := by
  obtain ⟨p, fixed, rfl⟩ := rearranged
  exact ⟨p, fun i outside => fixed i fun inside => outside (subset inside), rfl⟩

theorem swap [DecidableEq ι] {i j : ι} (first : i ∈ S) (second : j ∈ S) (a : ι → V) :
    Rearranged S a (a ∘ Equiv.swap i j) := by
  refine ⟨Equiv.swap i j, fun k outside => ?_, rfl⟩
  apply Equiv.swap_apply_of_ne_of_ne
  · exact fun same => outside (same ▸ first)
  · exact fun same => outside (same ▸ second)

theorem outside (rearranged : Rearranged S a b) {i : ι} (other : i ∉ S) : b i = a i := by
  obtain ⟨p, fixed, rfl⟩ := rearranged
  exact congrArg a (fixed i other)

/-- Each value was at one of the places before. -/
theorem origin (rearranged : Rearranged S a b) {i : ι} (inside : i ∈ S) : ∃ j ∈ S, b i = a j := by
  obtain ⟨p, fixed, rfl⟩ := rearranged
  refine ⟨p i, ?_, rfl⟩
  by_contra out
  have same := p.injective (fixed (p i) out)
  exact out (same.symm ▸ inside)

theorem all (rearranged : Rearranged S a b) {P : V → Prop} (holds : ∀ i ∈ S, P (a i)) : ∀ i ∈ S, P (b i) := by
  intro i inside
  obtain ⟨j, member, same⟩ := rearranged.origin inside
  rw [same]
  exact holds j member

/-- The values are the same ones as often as before. -/
theorem perm (rearranged : Rearranged S a b) {l : List ι} (nodup : l.Nodup) (places : ∀ i, i ∈ l ↔ i ∈ S) :
    (l.map b).Perm (l.map a) := by
  obtain ⟨p, fixed, rfl⟩ := rearranged
  rw [← List.map_map]
  apply List.Perm.map
  apply (List.perm_ext_iff_of_nodup (nodup.map p.injective) nodup).mpr
  intro i
  rw [List.mem_map, places i]
  constructor
  · rintro ⟨j, member, rfl⟩
    by_contra out
    have same := p.injective (fixed (p j) out)
    exact out (same.symm ▸ (places j).mp member)
  · intro inside
    refine ⟨p.symm i, (places _).mpr ?_, p.apply_symm_apply i⟩
    by_contra out
    have same := fixed _ out
    rw [p.apply_symm_apply] at same
    exact out (same ▸ inside)

end Rearranged

/-! ## Order -/

/-- A strict weak order of the values of a set. -/
structure StrictWeak (lt : V → V → Prop) (values : Set V) : Prop where
  irrefl : ∀ x ∈ values, ¬lt x x
  trans : ∀ x ∈ values, ∀ y ∈ values, ∀ z ∈ values, lt x y → lt y z → lt x z
  incomparable : ∀ x ∈ values, ∀ y ∈ values, ∀ z ∈ values,
    ¬lt x y → ¬lt y x → ¬lt y z → ¬lt z y → ¬lt x z ∧ ¬lt z x

namespace StrictWeak

variable {lt : V → V → Prop} {values : Set V} {x y z : V}

theorem asymm (weak : StrictWeak lt values) (inside : x ∈ values) (inside' : y ∈ values) (less : lt x y) :
    ¬lt y x :=
  fun more => weak.irrefl x inside (weak.trans x inside y inside' x inside less more)

/-- "Not above" is transitive. -/
theorem not_trans (weak : StrictWeak lt values) (first : x ∈ values) (second : y ∈ values) (third : z ∈ values)
    (notLess : ¬lt x y) (notLess' : ¬lt y z) : ¬lt x z := by
  intro less
  have notMore : ¬lt y x := fun more => notLess' (weak.trans y second x first z third more less)
  have notMore' : ¬lt z y := fun more => notLess (weak.trans x first z third y second less more)
  exact (weak.incomparable x first y second z third notLess notMore notLess' notMore').1 less

end StrictWeak

/-- No value from one place to another is below `p`. -/
def NoneBelow (lt : V → V → Prop) (p : V) (a : Int → V) (i j : Int) : Prop :=
  ∀ k, i ≤ k → k ≤ j → ¬lt (a k) p

/-- No value from one place to another is above `p`. -/
def NoneAbove (lt : V → V → Prop) (p : V) (a : Int → V) (i j : Int) : Prop :=
  ∀ k, i ≤ k → k ≤ j → ¬lt p (a k)

/-- No later value is below an earlier one. -/
def Ascending (lt : V → V → Prop) (a : Int → V) (l u : Int) : Prop :=
  ∀ i j, l ≤ i → i ≤ j → j ≤ u → ¬lt (a j) (a i)

section

variable {lt : V → V → Prop} {values : Set V} {a b : Int → V} {l u i j : Int}

/-- The places from one to another. -/
def stretch (l u : Int) : Set Int := fun k => l ≤ k ∧ k ≤ u

theorem NoneBelow.rearranged {p : V} (none : NoneBelow lt p a i j) (rearranged : Rearranged (stretch i j) a b) :
    NoneBelow lt p b i j := by
  intro k low high
  exact rearranged.all (P := fun v => ¬lt v p) (fun k' inside => none k' inside.1 inside.2) k ⟨low, high⟩

theorem NoneAbove.rearranged {p : V} (none : NoneAbove lt p a i j) (rearranged : Rearranged (stretch i j) a b) :
    NoneAbove lt p b i j := by
  intro k low high
  exact rearranged.all (P := fun v => ¬lt p v) (fun k' inside => none k' inside.1 inside.2) k ⟨low, high⟩

theorem Ascending.congr (ascending : Ascending lt a l u) (same : ∀ k, l ≤ k → k ≤ u → b k = a k) :
    Ascending lt b l u := by
  intro i j low le high
  rw [same i low (le.trans high), same j (low.trans le) high]
  exact ascending i j low le high

theorem Ascending.short (weak : StrictWeak lt values) (inside : ∀ k, l ≤ k → k ≤ u → a k ∈ values)
    (few : u ≤ l) : Ascending lt a l u := by
  intro i j low le high
  have same : i = j := by omega
  rw [same]
  exact weak.irrefl _ (inside j (low.trans le) high)

/-- No value is above the one at `k` in front of it, and none is below it behind it. -/
structure Divided (lt : V → V → Prop) (a : Int → V) (l k u : Int) : Prop where
  front : NoneAbove lt (a k) a l (k - 1)
  behind : NoneBelow lt (a k) a (k + 1) u

variable {k : Int}

theorem Divided.rearrangedFront (divided : Divided lt a l k u) (rearranged : Rearranged (stretch l (k - 1)) a b) :
    Divided lt b l k u := by
  have stays {i : Int} (least : k ≤ i) : b i = a i := by
    apply rearranged.outside
    rintro ⟨-, most⟩
    omega
  constructor
  · rw [stays le_rfl]
    exact divided.front.rearranged rearranged
  · intro i least most
    rw [stays le_rfl, stays (by omega)]
    exact divided.behind i least most

theorem Divided.rearrangedBehind (divided : Divided lt a l k u)
    (rearranged : Rearranged (stretch (k + 1) u) a b) : Divided lt b l k u := by
  have stays {i : Int} (most : i ≤ k) : b i = a i := by
    apply rearranged.outside
    rintro ⟨least, -⟩
    omega
  constructor
  · intro i least most
    rw [stays le_rfl, stays (by omega)]
    exact divided.front i least most
  · rw [stays le_rfl]
    exact divided.behind.rearranged rearranged

/-- Two ascending parts with a value between them. -/
theorem Divided.ascending (divided : Divided lt a l k u) (weak : StrictWeak lt values)
    (inside : ∀ i, l ≤ i → i ≤ u → a i ∈ values) (low : l ≤ k) (high : k ≤ u)
    (front : Ascending lt a l (k - 1)) (behind : Ascending lt a (k + 1) u) : Ascending lt a l u := by
  have toPivot (i : Int) (least : l ≤ i) (most : i ≤ k) : ¬lt (a k) (a i) := by
    rcases Int.lt_or_eq_of_le most with less | same
    · exact divided.front i least (by omega)
    · rw [same]
      exact weak.irrefl _ (inside k low high)
  have fromPivot (i : Int) (least : k ≤ i) (most : i ≤ u) : ¬lt (a i) (a k) := by
    rcases Int.lt_or_eq_of_le least with more | same
    · exact divided.behind i (by omega) most
    · rw [← same]
      exact weak.irrefl _ (inside k low high)
  intro i j least le most
  by_cases left : j < k
  · exact front i j least le (by omega)
  · by_cases right : k < i
    · exact behind i j (by omega) le most
    · exact weak.not_trans (inside j (by omega) most) (inside k low high) (inside i least (by omega))
        (fromPivot j (by omega) most) (toPivot i least (by omega))

end

end Foundation
