import TvmJit.Func.Upvalues

/-! Colours of upvalues. -/

namespace TvmJit

namespace UvState

variable {Thread TValue : Type} {S : UvState Thread TValue} {p : GCupval Thread TValue}

theorem isdead_iff : S.isdead p = true ↔ whites p.marked &&& (whites S.currentwhite ^^^ 3) ≠ 0 := by
  rw [isdead, otherwhite, dead_bits, bne_iff_ne]

theorem alive_iff (oneWhite : whites p.marked ≠ 3) :
    S.isdead p = false ↔ Alive S.currentwhite p.marked := by
  rw [← Bool.not_eq_true, isdead_iff, not_not]
  exact ⟨fun notDead => ⟨oneWhite, notDead⟩, Alive.notDead⟩

theorem alive_makewhite (isWhite : whites S.currentwhite = 1 ∨ whites S.currentwhite = 2)
    (marked : BitVec 8) : Alive S.currentwhite (S.makewhite marked) :=
  .makewhite isWhite marked

end UvState

end TvmJit
