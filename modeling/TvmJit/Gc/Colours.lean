import Mathlib.Data.BitVec

/-! Strings' largest length, and colours of collectable objects. Only the two white bits tell
whether an object is dead. -/

namespace TvmJit

def LJ_MAX_STR : Nat := 0x7fffff00

def LJ_GC_WHITES : BitVec 8 := 0x03
def LJ_GC_BLACK : BitVec 8 := 0x04
def LJ_GC_COLORS : BitVec 8 := LJ_GC_WHITES ||| LJ_GC_BLACK
def LJ_GC_FIXED : BitVec 8 := 0x20

/-- The white bits of a colour. -/
def whites (colour : BitVec 8) : BitVec 8 := colour &&& LJ_GC_WHITES

theorem whites_and (x y : BitVec 8) : whites (x &&& y) = whites x &&& whites y := by
  ext i h
  simp only [whites, BitVec.getElem_and]
  cases x[i] <;> cases y[i] <;> simp

theorem whites_or (x y : BitVec 8) : whites (x ||| y) = whites x ||| whites y := by
  ext i h
  simp only [whites, BitVec.getElem_and, BitVec.getElem_or]
  cases x[i] <;> cases y[i] <;> simp

theorem whites_xor (x y : BitVec 8) : whites (x ^^^ y) = whites x ^^^ whites y := by
  ext i h
  simp only [whites, BitVec.getElem_and, BitVec.getElem_xor]
  cases x[i] <;> cases y[i] <;> simp

theorem whites_cases (x : BitVec 8) : whites x = 0 ∨ whites x = 1 ∨ whites x = 2 ∨ whites x = 3 := by
  have bound : (whites x).toNat ≤ 3 := by
    rw [whites, BitVec.toNat_and]
    exact Nat.and_le_right
  bv_omega

theorem whites_whites (x : BitVec 8) : whites (whites x) = whites x := by
  rw [whites, whites, BitVec.and_assoc, BitVec.and_self]

/-- What `isdead` tests. -/
theorem dead_bits (colour white : BitVec 8) : colour &&& (white ^^^ LJ_GC_WHITES) &&& LJ_GC_WHITES =
    whites colour &&& (whites white ^^^ 3) := by
  change whites (colour &&& (white ^^^ LJ_GC_WHITES)) = _
  rw [whites_and, whites_xor]
  rfl

/-- A colour with at most one white bit, which is not the other white. -/
structure Alive (currentwhite colour : BitVec 8) : Prop where
  oneWhite : whites colour ≠ 3
  notDead : whites colour &&& (whites currentwhite ^^^ 3) = 0

section

variable {white colour : BitVec 8}

theorem Alive.of_whites {other : BitVec 8} (alive : Alive white other)
    (same : whites colour = whites other) : Alive white colour :=
  ⟨same ▸ alive.oneWhite, same ▸ alive.notDead⟩

/-- The current white. -/
theorem Alive.current (isWhite : whites white = 1 ∨ whites white = 2)
    (same : whites colour = whites white) : Alive white colour := by
  rcases isWhite with isWhite | isWhite <;> constructor <;> rw [same, isWhite] <;> decide

/-- The other white is flipped. -/
theorem Alive.flip (isWhite : whites white = 1 ∨ whites white = 2) (oneWhite : whites colour ≠ 3)
    (dead : whites colour &&& (whites white ^^^ 3) ≠ 0) : Alive white (colour ^^^ LJ_GC_WHITES) := by
  have flipped : whites (colour ^^^ LJ_GC_WHITES) = whites colour ^^^ 3 := by
    rw [whites_xor]
    rfl
  rcases isWhite with isWhite | isWhite <;>
    rcases whites_cases colour with zero | one | two | three <;>
    constructor <;> simp_all

/-- What `makewhite` makes of a colour. -/
theorem Alive.makewhite (isWhite : whites white = 1 ∨ whites white = 2) (colour : BitVec 8) :
    Alive white ((colour &&& ~~~LJ_GC_COLORS) ||| (white &&& LJ_GC_WHITES)) := by
  refine .current isWhite ?_
  rw [whites_or, whites_and]
  have none : whites (~~~LJ_GC_COLORS) = 0#8 := rfl
  rw [none, BitVec.and_zero, BitVec.zero_or]
  exact whites_whites white

theorem Alive.black (alive : Alive white colour) : Alive white (colour ||| LJ_GC_BLACK) := by
  refine alive.of_whites ?_
  rw [whites_or]
  exact BitVec.or_zero

/-- What the sweep finds neither black nor of the current white is dead. -/
theorem dead_of_swept (isWhite : whites white = 1 ∨ whites white = 2)
    (swept : (colour ^^^ LJ_GC_WHITES) &&& (white ^^^ LJ_GC_WHITES) = 0) :
    whites colour &&& (whites white ^^^ 3) ≠ 0 := by
  have none := congrArg whites swept
  rw [whites_and, whites_xor, whites_xor] at none
  have three : whites LJ_GC_WHITES = 3 := rfl
  have zero : whites 0 = 0 := rfl
  rw [three, zero] at none
  rcases isWhite with isWhite | isWhite <;>
    rcases whites_cases colour with zero | one | two | three <;>
    simp_all

end

end TvmJit
