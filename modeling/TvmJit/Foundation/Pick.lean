import Mathlib.Order.Basic

/-! Taking one of two values by a comparison that leaves some values out of the order, and lets
different values have the same place in it. -/

namespace Foundation

universe u

variable {α : Type u}

/-- `before` compares the values that are ordered, and none of the others. -/
structure Compares (ordered : α → Prop) (before : α → α → Prop) : Prop where
  both : ∀ {a b}, before a b → ordered a ∧ ordered b
  irrefl : ∀ {a}, ¬before a a
  trans : ∀ {a b c}, before a b → before b c → before a c
  between : ∀ {a b c}, ordered b → before a c → before a b ∨ before b c

/-- Values that are not ordered are not told apart. -/
def Same (ordered : α → Prop) (a b : α) : Prop := a = b ∨ ¬ordered a ∧ ¬ordered b

/-- The right one of two values if it is before the left one. -/
def pick (before : α → α → Prop) [DecidableRel before] (x y : α) : α := if before y x then y else x

section

variable {ordered : α → Prop} {before behind : α → α → Prop} [DecidableRel before] [DecidableRel behind]
  {a b x y : α}

theorem pick_right (first : before y x) : pick before x y = y := if_pos first

theorem pick_left (notFirst : ¬before y x) : pick before x y = x := if_neg notFirst

theorem pick_self (x : α) : pick before x x = x := ite_self x

namespace Compares

variable (compares : Compares ordered before)

include compares

omit [DecidableRel before] in
theorem asymm (first : before a b) : ¬before b a :=
  fun second => compares.irrefl (compares.trans first second)

omit [DecidableRel before] in
theorem same_iff_of_before (first : before a b) : ¬Same ordered a b := by
  rintro (rfl | ⟨notOrdered, -⟩)
  · exact compares.irrefl first
  · exact notOrdered (compares.both first).1

/-! ## Taking one value twice -/

theorem pick_pick_left : pick before (pick before a b) a = pick before a b := by
  by_cases first : before b a
  · rw [pick_right first, pick_left (compares.asymm first)]
  · rw [pick_left first, pick_self]

omit compares in
theorem pick_pick_right : pick before (pick before a b) b = pick before a b := by
  by_cases first : before b a
  · rw [pick_right first, pick_self]
  · rw [pick_left first, pick_left first]

/-! ## The other order -/

variable (reversed : ∀ a b, behind a b ↔ before b a)

include reversed

omit compares in
theorem absorb_first : pick before (pick behind a b) a = a := by
  by_cases first : before a b
  · rw [pick_right ((reversed b a).mpr first), pick_right first]
  · rw [pick_left fun last => first ((reversed b a).mp last), pick_self]

theorem absorbed_first : pick before a (pick behind a b) = a := by
  by_cases first : before a b
  · rw [pick_right ((reversed b a).mpr first), pick_left (compares.asymm first)]
  · rw [pick_left fun last => first ((reversed b a).mp last), pick_self]

omit compares in
theorem absorbed_second : pick before b (pick behind a b) = b := by
  by_cases first : before a b
  · rw [pick_right ((reversed b a).mpr first), pick_self]
  · rw [pick_left fun last => first ((reversed b a).mp last), pick_left first]

omit compares in
/-- Absorption of the second value needs the two to be comparable. -/
theorem absorb_second_iff :
    Same ordered (pick before (pick behind a b) b) b ↔ Same ordered a b ∨ before a b ∨ before b a := by
  by_cases first : before a b
  · rw [pick_right ((reversed b a).mpr first), pick_self]
    exact iff_of_true (.inl rfl) (.inr (.inl first))
  · rw [pick_left fun last => first ((reversed b a).mp last)]
    by_cases second : before b a
    · rw [pick_right second]
      exact iff_of_true (.inl rfl) (.inr (.inr second))
    · rw [pick_left second]
      exact ⟨.inl, fun comparable => comparable.resolve_right fun either => either.elim first second⟩

omit reversed behind [DecidableRel behind]

/-! ## Order and grouping of operands -/

theorem comm_iff : Same ordered (pick before x y) (pick before y x) ↔ Same ordered x y ∨ before x y ∨ before y x := by
  by_cases first : before x y
  · rw [pick_right first, pick_left (compares.asymm first)]
    exact iff_of_true (.inl rfl) (.inr (.inl first))
  · rw [pick_left first]
    by_cases second : before y x
    · rw [pick_right second]
      exact iff_of_true (.inl rfl) (.inr (.inr second))
    · rw [pick_left second]
      exact ⟨.inl, fun comparable => comparable.resolve_right fun either => either.elim first second⟩

/-- A second value that is not before an ordered first one adds nothing. -/
theorem pick_pick_of_not_before (isOrdered : ordered a) (notFirst : ¬before b a) :
    pick before (pick before x a) b = pick before x a := by
  apply pick_left
  by_cases first : before a x
  · rw [pick_right first]
    exact notFirst
  · rw [pick_left first]
    exact fun second => (compares.between isOrdered second).elim notFirst first

theorem assoc_iff : Same ordered (pick before (pick before x a) b) (pick before x (pick before a b)) ↔
    ordered a ∨ ¬before b x := by
  by_cases isOrdered : ordered a
  · refine iff_of_true (.inl ?_) (.inl isOrdered)
    by_cases second : before b a
    · rw [pick_right second]
      by_cases first : before a x
      · rw [pick_right first, pick_right second, pick_right (compares.trans second first)]
      · rw [pick_left first]
    · rw [pick_left second, compares.pick_pick_of_not_before isOrdered second]
  · have notFirst : ¬before a x := fun first => isOrdered (compares.both first).1
    have notSecond : ¬before b a := fun second => isOrdered (compares.both second).2
    rw [pick_left notFirst, pick_left notSecond, pick_left notFirst, or_iff_right isOrdered]
    by_cases third : before b x
    · rw [pick_right third]
      exact iff_of_false (compares.same_iff_of_before third) (not_not_intro third)
    · rw [pick_left third]
      exact iff_of_true (.inl rfl) third

end Compares

end

end Foundation
