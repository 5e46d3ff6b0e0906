import TvmJit.Simulation.Ground
import TvmJit.Literals

/-! Registers, constants and the loading of a value to a register. -/

namespace TvmJit

open Foundation

variable [Lua]

/-! ## The register allocator -/

/-- The number of registers in use has changed, and no code. -/
structure Allot (ls : LexState) (S : BCPos → Prop) (js : List BCPos) (freereg : BCReg)
    (ls' : LexState) : Prop where
  move : Move ls.fs.code.pc ls S js ls' S js
  code : ls'.fs.code = ls.fs.code
  consts : ls'.fs.consts = ls.fs.consts
  freereg : ls'.fs.regs.freereg = freereg

section

variable {ls ls' : LexState} {S : BCPos → Prop} {js : List BCPos}

omit [Lua] in
theorem Ground.of_regs (ground : Ground ls S js) (code : ls'.fs.code = ls.fs.code)
    (nactvar : ls'.fs.regs.nactvar ≤ ls'.fs.regs.freereg)
    (freereg : ls'.fs.regs.freereg ≤ ls'.fs.regs.framesize)
    (framesize : ls'.fs.regs.framesize < LJ_MAX_SLOTS) : Ground ls' S js where
  pos := code ▸ ground.pos
  small := code ▸ ground.small
  here := code ▸ ground.here
  marked := code ▸ ground.marked
  allSettled := code ▸ ground.allSettled
  unsettled := ground.unsettled
  nils := code ▸ ground.nils
  nactvar := nactvar
  freereg := freereg
  framesize := framesize

theorem Allot.refl (ground : Ground ls S js) : Allot ls S js ls.fs.regs.freereg ls :=
  ⟨.refl ground le_rfl, rfl, rfl, rfl⟩

omit [Lua] in
theorem u32_small {n : Nat} (small : n < 4294967296) : u32 n = n := by
  unfold u32
  lia

theorem bcregReserve_spec (ground : Ground ls S js) :
    EmitSpec (bcregReserve 1) ls fun _ ls' => Allot ls S js (ls.fs.regs.freereg + 1) ls' := by
  have below : ls.fs.regs.freereg < 250 := ground.freereg.trans_lt ground.framesize
  have next : u32 ((ls.fs.regs.freereg : Int) + (1 : Nat)) = ls.fs.regs.freereg + 1 :=
    u32_small (n := ls.fs.regs.freereg + 1) (by lia)
  have nactvar := ground.nactvar
  -- Reserving within the frame.
  have reserve (regs : Regs) (same : regs.nactvar = ls.fs.regs.nactvar)
      (isFree : regs.freereg = ls.fs.regs.freereg + 1) (fits : regs.freereg ≤ regs.framesize)
      (framesize : regs.framesize < LJ_MAX_SLOTS) :
      Allot ls S js (ls.fs.regs.freereg + 1) (ls.setFs { ls.fs with regs := regs }) := by
    refine ⟨.of_code (ground.of_regs rfl ?_ fits framesize) rfl le_rfl
      ⟨rfl, rfl, rfl, rfl, rfl, same, fun _ member => member⟩, rfl, rfl, isFree⟩
    change regs.nactvar ≤ regs.freereg
    lia
  unfold bcregReserve bcregBump getFs
  rw [EmitSpec, wp_bind, wp_bind, wp_bind, wp_get, wp_pure]
  simp only [next]
  split
  · split
    · exact ⟨by simp, by simp⟩
    · next fits =>
        refine reserve _ rfl ?_ ?_ (Nat.lt_of_not_le fits)
        · exact next
        · exact next.le
  · next fits =>
      refine reserve _ rfl next ?_ ground.framesize
      exact next.le.trans (Nat.not_lt.mp fits)

theorem decFreereg_spec (ground : Ground ls S js) (temp : ls.fs.regs.nactvar < ls.fs.regs.freereg) :
    EmitSpec decFreereg ls fun _ ls' => Allot ls S js (ls.fs.regs.freereg - 1) ls' := by
  have below : ls.fs.regs.freereg < 250 := ground.freereg.trans_lt ground.framesize
  have prev : u32 ((ls.fs.regs.freereg : Int) - 1) = ls.fs.regs.freereg - 1 := by
    unfold u32
    lia
  have fits := ground.freereg
  have lowered (ls' : LexState) (code : ls'.fs.code = ls.fs.code) (consts : ls'.fs.consts = ls.fs.consts)
      (regs : ls'.fs.regs = { ls.fs.regs with freereg := ls.fs.regs.freereg - 1 })
      (emits : Emits ls ls') : Allot ls S js (ls.fs.regs.freereg - 1) ls' := by
    refine ⟨.of_code (ground.of_regs code ?_ ?_ ?_) code le_rfl emits, code, consts, by rw [regs]⟩
    · rw [regs]
      exact Nat.le_sub_one_of_lt temp
    · rw [regs]
      exact (Nat.sub_le _ _).trans fits
    · rw [regs]
      exact ground.framesize
  unfold decFreereg lowerFreereg getFs modifyRegs modifyFs luaAssert
  rw [EmitSpec, wp_bind, wp_bind, wp_get, wp_pure]
  simp only [prev]
  rw [wp_bind, wp_modify, wp_bind, wp_bind, wp_get, wp_pure, wp_modify]
  split
  · exact lowered _ rfl rfl rfl ⟨rfl, rfl, rfl, rfl, rfl, rfl, fun _ member => member⟩
  · exact lowered _ rfl rfl rfl ⟨rfl, rfl, rfl, rfl, rfl, rfl, fun _ member => member⟩

/-- Freeing the register on top, or that of a variable. -/
theorem bcregFree_spec (ground : Ground ls S js) {reg : BCReg}
    (isTop : ls.fs.regs.nactvar ≤ reg → ls.fs.regs.freereg = reg + 1) :
    EmitSpec (bcregFree reg) ls fun _ ls' =>
      Allot ls S js (if ls.fs.regs.nactvar ≤ reg then reg else ls.fs.regs.freereg) ls' := by
  unfold bcregFree
  rw [EmitSpec, wp_bind, wp_getFs]
  split
  · next isTemp =>
      have top := isTop isTemp
      rw [wp_bind]
      refine (decFreereg_spec ground (by lia)).mono fun _ ls₁ freed => ?_
      have isReg : ls₁.fs.regs.freereg = reg := by rw [freed.freereg, top]; rfl
      unfold luaAssert getFs
      rw [wp_bind, wp_bind, wp_get, wp_pure, wp_modify, if_pos (by simp [isReg])]
      have same : ls.fs.regs.freereg - 1 = reg := by rw [top]; rfl
      rwa [same] at freed
  · next isVar =>
      exact .refl ground

/-- The registers an operand holds above the variables. -/
def ExpDesc.temps (nactvar : BCReg) (e : ExpDesc) : Nat :=
  if e.k = .vnonreloc ∧ nactvar ≤ e.info then 1 else 0

theorem exprFreeUnordered_spec (ground : Ground ls S js) {e : ExpDesc}
    (inUse : ls.fs.regs.nactvar + e.temps ls.fs.regs.nactvar ≤ ls.fs.regs.freereg) :
    EmitSpec (exprFreeUnordered e) ls fun _ ls' =>
      Allot ls S js (ls.fs.regs.freereg - e.temps ls.fs.regs.nactvar) ls' := by
  unfold exprFreeUnordered
  rw [EmitSpec, wp_bind, wp_getFs]
  split
  · next isTemp =>
      have one : e.temps ls.fs.regs.nactvar = 1 := if_pos isTemp
      rw [one] at inUse ⊢
      exact decFreereg_spec ground inUse
  · next noTemp =>
      have none : e.temps ls.fs.regs.nactvar = 0 := if_neg noTemp
      rw [none]
      exact .refl ground

end

/-! ## Constants -/

/-- The constants of the finished prototype hold what the compiler put there. -/
structure KTable.Reads (K : KTable) (consts : Consts) : Prop where
  num : ∀ key idx, (key, idx) ∈ consts.kt → key.isNumber = true →
    K.num (idx % 65536) = some (.num key.number)
  str : ∀ s idx, (TabKey.obj (.str s), idx) ∈ consts.kt → K.str (idx % 65536) = some (.str s)

omit [Lua] in
theorem KTable.Reads.mono {K : KTable} {consts consts' : Consts} (reads : K.Reads consts')
    (grows : ∀ entry ∈ consts.kt, entry ∈ consts'.kt) : K.Reads consts where
  num key idx member := reads.num key idx (grows _ member)
  str s idx member := reads.str s idx (grows _ member)

section

variable {ls : LexState} {S : BCPos → Prop} {js : List BCPos}

/-- Only constants have been added. -/
structure ConstMove (ls : LexState) (S : BCPos → Prop) (js : List BCPos) (ls' : LexState) : Prop where
  move : Move ls.fs.code.pc ls S js ls' S js
  code : ls'.fs.code = ls.fs.code
  regs : ls'.fs.regs = ls.fs.regs

theorem ConstMove.of {ls' : LexState} (ground : Ground ls S js) (code : ls'.fs.code = ls.fs.code)
    (regs : ls'.fs.regs = ls.fs.regs) (emits : Emits ls ls') : ConstMove ls S js ls' :=
  ⟨.of_code (ground.of_regs code (regs ▸ ground.nactvar) (regs ▸ ground.freereg)
    (regs ▸ ground.framesize)) code le_rfl emits, code, regs⟩

theorem constNum_spec (ground : Ground ls S js) (e : ExpDesc) :
    EmitSpec (constNum e) ls fun slot ls' => ConstMove ls S js ls' ∧
      ∀ K : KTable, K.Reads ls'.fs.consts → K.num (slot % 65536) = some (.num e.nval.kept) := by
  have reads {ls' : LexState} {key : TabKey} {slot : Nat} (isKey : tabKey (.num e.nval) = .ok key)
      (member : (key, slot) ∈ ls'.fs.consts.kt) (K : KTable) (reads : K.Reads ls'.fs.consts) :
      K.num (slot % 65536) = some (.num e.nval.kept) := by
    rw [reads.num key slot member (tabKey_isNumber isKey), tabKey_number isKey]
  unfold constNum
  rw [EmitSpec, wp_bind]
  unfold liftKey
  cases isKey : tabKey (.num e.nval) with
  | error em => exact ⟨by simp, by simp⟩
  | ok key =>
      rw [wp_pure, wp_bind, wp_getFs]
      dsimp only
      cases found : ls.fs.consts.kt.lookup key with
      | some slot =>
          exact ⟨.of ground rfl rfl ⟨rfl, rfl, rfl, rfl, rfl, rfl, fun _ member => member⟩,
            reads isKey (mem_of_lookup found)⟩
      | none =>
          exact ⟨.of ground rfl rfl ⟨rfl, rfl, rfl, rfl, rfl, rfl, fun _ member => .tail _ member⟩,
            reads isKey (.head _)⟩

theorem constStr_spec (ground : Ground ls S js) (e : ExpDesc) :
    EmitSpec (constStr e) ls fun slot ls' => ConstMove ls S js ls' ∧
      ∀ K : KTable, K.Reads ls'.fs.consts → K.str (slot % 65536) = some (.str e.sval) := by
  unfold constStr constGc
  rw [EmitSpec, wp_bind, wp_getFs]
  dsimp only
  cases found : ls.fs.consts.kt.lookup (.obj (.str e.sval)) with
  | some slot =>
      exact ⟨.of ground rfl rfl ⟨rfl, rfl, rfl, rfl, rfl, rfl, fun _ member => member⟩,
        fun K reads => reads.str _ _ (mem_of_lookup found)⟩
  | none =>
      exact ⟨.of ground rfl rfl ⟨rfl, rfl, rfl, rfl, rfl, rfl, fun _ member => .tail _ member⟩,
        fun K reads => reads.str _ _ (.head _)⟩

end

/-! ## Changing the last instruction -/

section

variable {ls : LexState} {S : BCPos → Prop} {js : List BCPos}

/-- The state with its last instruction, which is no jump, changed. -/
theorem setLast_move (ground : Ground ls S js) {i : BCIns}
    (notJmp : (ls.fs.code.ins (ls.fs.code.pc - 1)).op ≠ .jmp) (fit : i.NilsFit) :
    Move ls.fs.code.pc ls S js (ls.setCode (ls.fs.code.setIns (ls.fs.code.pc - 1) i)) S js := by
  have pos := ground.pos
  have other (p : BCPos) (isJmp : (ls.fs.code.ins p).op = .jmp) :
      (ls.fs.code.setIns (ls.fs.code.pc - 1) i).ins p = ls.fs.code.ins p :=
    Code.setIns_ins_ne _ _ fun same => notJmp (same ▸ isJmp)
  have below (p : BCPos) (before : p < ls.fs.code.pc - 1) :
      (ls.fs.code.setIns (ls.fs.code.pc - 1) i).ins p = ls.fs.code.ins p :=
    Code.setIns_ins_ne _ _ before.ne
  refine ⟨⟨ground.pos, ground.small, ?_, ground.marked, fun p isSettled => ?_, ground.unsettled,
    fun _ => ?_, ground.nactvar, ground.freereg, ground.framesize⟩, ⟨le_rfl, fun p isSettled => ?_,
    fun j _ pending unsettled _ => ?_, fun j _ pending => ?_, fun p before _ _ => ?_, ?_⟩, le_rfl,
    fun _ member => .inl member, ⟨rfl, rfl, rfl, rfl, rfl, rfl, fun _ member => member⟩⟩
  · exact ground.here.of_eq le_rfl fun j member => other j (ground.here.pending j member).isJmp
  · have ⟨inside, isJmp, real⟩ := ground.allSettled p isSettled
    change _ ∧ ((ls.fs.code.setIns _ i).ins p).op = _ ∧ ((ls.fs.code.setIns _ i).ins p).a < _
    rw [other p isJmp]
    exact ⟨inside, isJmp, real⟩
  · change ((ls.fs.code.setIns _ i).ins (ls.fs.code.pc - 1)).NilsFit
    rw [Code.setIns_ins_self]
    exact fit
  · exact ⟨isSettled, other p (ground.allSettled p isSettled).2.1⟩
  · exact ⟨unsettled, other j pending.isJmp⟩
  · exact pending.of_eq le_rfl (other j pending.isJmp)
  · exact below p (Nat.lt_sub_of_add_lt before)
  · exact keepsFlow_of (fun p isSettled => ⟨isSettled, other p (ground.allSettled p isSettled).2.1⟩)
      fun p before => .inl (below p before)

end

end TvmJit
