import TvmJit.Foundation.Padding

/-! Members of an aggregate one behind the other, or all at its start, in unbounded bits. -/

namespace TvmJit

open Foundation

/-- What the place of a member depends on. -/
structure Member where
  /-- Size in bits. -/
  width : Nat
  /-- Binary logarithm of the alignment in bytes. -/
  align : Nat
  /-- Whether it is a bitfield. -/
  bits : Bool
  /-- Binary logarithm of the size of its container in bits. -/
  container : Nat
  /-- Whether it always starts where its alignment is met. -/
  apart : Bool
  packed : Bool

namespace Member

variable (m : Member)

def Apart (pos : Nat) : Prop :=
  m.bits = false ∨ m.apart = true ∨
    (m.packed = false ∧ 2 ^ m.container < pos % 2 ^ (3 + m.align) + m.width)

instance (pos : Nat) : Decidable (m.Apart pos) := by
  unfold Apart
  infer_instance

/-- The bit a member starts at when the bits up to a position are taken. -/
def start (pos : Nat) : Nat := if m.Apart pos then padTo (3 + m.align) pos else pos

theorem le_start (pos : Nat) : pos ≤ m.start pos := by
  rw [start]
  split
  · exact le_padTo _ _
  · exact le_rfl

/-- A bitfield that does not fill its container. -/
def Stored (pos : Nat) : Prop :=
  m.bits = true ∧ ¬(m.width = 2 ^ m.container ∧ 2 ^ (3 + m.align) ∣ m.start pos)

instance (pos : Nat) : Decidable (m.Stored pos) := by
  unfold Stored
  infer_instance

theorem dvd_start {pos : Nat} (isRegular : m.bits = false) : 2 ^ (3 + m.align) ∣ m.start pos := by
  rw [start, if_pos (.inl isRegular)]
  exact dvd_padTo _ _

/-! Offsets that wrap around: a member does not see it. -/

section

variable {w : Nat} (wide : 3 + m.align ≤ w) (pos : Nat)
include wide

theorem apart_mod : m.Apart (pos % 2 ^ w) ↔ m.Apart pos := by
  rw [Apart, Apart, Nat.mod_mod_of_dvd _ (Nat.pow_dvd_pow 2 wide)]

theorem start_mod : m.start (pos % 2 ^ w) % 2 ^ w = m.start pos % 2 ^ w := by
  have apart := m.apart_mod wide pos
  rw [start, start]
  by_cases isApart : m.Apart pos
  · rw [if_pos isApart, if_pos (apart.mpr isApart)]
    exact padTo_mod wide pos
  · rw [if_neg isApart, if_neg fun isApart' => isApart (apart.mp isApart')]
    exact Nat.mod_mod _ _

/-- Whether a bitfield is stored as one can be told from its offset however that wraps. -/
theorem stored_congr {pos pos' : Nat} (same : m.start pos % 2 ^ w = m.start pos' % 2 ^ w) :
    m.Stored pos ↔ m.Stored pos' := by
  have divides := Nat.pow_dvd_pow 2 wide
  rw [Stored, Stored, Nat.dvd_iff_mod_eq_zero, Nat.dvd_iff_mod_eq_zero,
    ← Nat.mod_mod_of_dvd _ divides, same, Nat.mod_mod_of_dvd _ divides]

end

/-- The container of a bitfield meets its alignment. -/
theorem dvd_cut_start {pos : Nat} (aligned : m.apart = false → m.packed = true → m.align = 0)
    (bytes : 3 ≤ m.container) (width : m.bits = true → m.apart = false → 0 < m.width)
    (isBits : m.bits = true) :
    2 ^ (3 + m.align) ∣ cutTo m.container (m.start pos) := by
  by_cases atStart : m.Apart pos
  · rw [start, if_pos atStart]
    by_cases finer : 3 + m.align ≤ m.container
    · exact (Nat.pow_dvd_pow 2 finer).trans (dvd_cutTo _ _)
    · have near := Nat.mod_eq_zero_of_dvd (dvd_padTo (3 + m.align) pos)
      rw [cutTo_of_mod_lt (Nat.le_of_not_le finer) (by rw [near]; exact Nat.two_pow_pos _)]
      exact dvd_cutTo _ _
  · rw [start, if_neg atStart]
    rw [Apart, not_or, not_or] at atStart
    obtain ⟨-, notApart, unpacked⟩ := atStart
    have notApart := Bool.eq_false_of_not_eq_true notApart
    cases isPacked : m.packed with
    | true =>
        rw [aligned notApart isPacked]
        exact (Nat.pow_dvd_pow 2 bytes).trans (dvd_cutTo _ _)
    | false =>
        rw [isPacked] at unpacked
        have fits : pos % 2 ^ (3 + m.align) + m.width ≤ 2 ^ m.container :=
          Nat.le_of_not_lt fun crosses => unpacked ⟨rfl, crosses⟩
        by_cases finer : 3 + m.align ≤ m.container
        · exact (Nat.pow_dvd_pow 2 finer).trans (dvd_cutTo _ _)
        · have positive := width isBits notApart
          rw [cutTo_of_mod_lt (Nat.le_of_not_le finer) (by omega)]
          exact dvd_cutTo _ _

end Member

/-- The members with the bits they start at. -/
def placed (union : Bool) : Nat → List Member → List (Member × Nat)
  | _, [] => []
  | pos, m :: rest =>
      (m, pos) :: placed union (if union then pos else m.start pos + m.width) rest

/-- The bits of the aggregate without the padding behind, from a position and the greatest width
so far on. -/
def extent (union : Bool) : Nat → Nat → List Member → Nat
  | pos, most, [] => if union then most else pos
  | pos, most, m :: rest =>
      extent union (if union then pos else m.start pos + m.width) (max most m.width) rest

section

variable {pos most : Nat} {ms : List Member} {m : Member} {before : Nat}

theorem le_extent_struct : pos ≤ extent false pos most ms := by
  induction ms generalizing pos most with
  | nil => exact le_rfl
  | cons m rest induction =>
      exact ((m.le_start pos).trans (Nat.le_add_right _ _)).trans induction

/-- The widest member does not matter in a struct. -/
theorem extent_struct (most' : Nat) : extent false pos most ms = extent false pos most' ms := by
  induction ms generalizing pos most most' with
  | nil => rfl
  | cons m rest induction => exact induction _

theorem le_extent_union : most ≤ extent true pos most ms := by
  induction ms generalizing pos most with
  | nil => exact le_rfl
  | cons m rest induction => exact (le_max_left _ _).trans induction

/-- The members of a struct lie between the position and the extent. -/
theorem placed_struct (most : Nat) (member : (m, before) ∈ placed false pos ms) :
    pos ≤ before ∧ m.start before + m.width ≤ extent false pos most ms := by
  induction ms generalizing pos most with
  | nil => cases member
  | cons head rest induction =>
      rcases List.mem_cons.mp member with same | member
      · cases same
        exact ⟨le_rfl, le_extent_struct⟩
      · obtain ⟨behind, inside⟩ := induction _ member
        exact ⟨((head.le_start pos).trans (Nat.le_add_right _ _)).trans behind, inside⟩

/-- Each member of a struct ends before the later ones start. -/
theorem placed_pairwise : (placed false pos ms).Pairwise fun a b =>
    a.1.start a.2 + a.1.width ≤ b.1.start b.2 := by
  induction ms generalizing pos with
  | nil => exact .nil
  | cons head rest induction =>
      refine .cons (fun ⟨m, before⟩ member => ?_) induction
      exact (placed_struct 0 member).1.trans (m.le_start before)

theorem placed_union (most : Nat) (member : (m, before) ∈ placed true pos ms) :
    before = pos ∧ m.width ≤ extent true pos most ms := by
  induction ms generalizing pos most with
  | nil => cases member
  | cons head rest induction =>
      rcases List.mem_cons.mp member with same | member
      · cases same
        exact ⟨rfl, (le_max_right _ _).trans le_extent_union⟩
      · exact induction _ member

theorem start_zero (m : Member) : m.start 0 = 0 := by
  rw [Member.start]
  split
  · exact padTo_of_dvd (Nat.dvd_zero _)
  · rfl

end

/-- The greatest alignment. -/
def maxAlign (least : Nat) (ms : List Member) : Nat := ms.foldl (fun most m => max most m.align) least

theorem le_maxAlign {least : Nat} {ms : List Member} : least ≤ maxAlign least ms := by
  induction ms generalizing least with
  | nil => exact le_rfl
  | cons m rest induction => exact (le_max_left _ _).trans induction

/-- The size of the aggregate in bits. -/
def total (union : Bool) (least : Nat) (ms : List Member) : Nat :=
  padTo (3 + maxAlign least ms) (extent union 0 0 ms)

end TvmJit
