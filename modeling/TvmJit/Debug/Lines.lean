import TvmJit.Debug.Record

/-! The line of an instruction, as `lj_debug.c` reads it. -/

namespace TvmJit

/-- The conversion of an unsigned 32 bit number to `BCLine`. -/
def bcLine (n : Nat) : BCLine := if n < 2147483648 then n else n - 4294967296

/-- `lj_debug_line`. -/
def ljDebugLine (pt : GCproto) (pc : BCPos) : BCLine :=
  let first := pt.firstline
  if pc ≤ pt.sizebc then
    if pc = pt.sizebc then first + pt.numline
    else if pc = 0 then first
    else if pt.numline < 256 then first + (pt.lineinfo.getD (pc - 1) 0 : Int)
    else if pt.numline < 65536 then first + (pt.lineinfo.getD (pc - 1) 0 : Int)
    else first + bcLine (pt.lineinfo.getD (pc - 1) 0)
  else 0

/-- The line fits the cell its function has for it. -/
def LineFits (first numline line : BCLine) : Prop :=
  if numline < 256 then 0 ≤ line - first ∧ line - first < 256
  else if numline < 65536 then 0 ≤ line - first ∧ line - first < 65536
  else -2147483648 ≤ line - first ∧ line - first < 2147483648

/-- `lj_debug_line` of the instruction whose line was recorded. -/
theorem ljDebugLine_recorded {pt : GCproto} (encoded : pt.Encoded) {i : Nat} {line : BCLine}
    (recorded : pt.record.lines[i]? = some line) :
    ljDebugLine pt (i + 1) = line ↔ LineFits pt.firstline pt.numline line := by
  have inside : i < pt.record.lines.length := by
    by_contra outside
    rw [List.getElem?_eq_none (by omega)] at recorded
    cases recorded
  have cell : pt.lineinfo.getD i 0 = encodeLine pt.firstline pt.numline line := by
    rw [encoded.lineinfo, List.getD_eq_getElem?_getD, List.getElem?_map, recorded]
    rfl
  have size := encoded.sizebc
  have low : i + 1 ≤ pt.sizebc := by omega
  have notLast : ¬i + 1 = pt.sizebc := by omega
  unfold ljDebugLine LineFits
  rw [if_pos low, if_neg notLast, if_neg (Nat.succ_ne_zero i), Nat.add_sub_cancel, cell]
  unfold encodeLine bcLine
  dsimp only
  split
  · lia
  · split
    · lia
    · split <;> lia

end TvmJit
