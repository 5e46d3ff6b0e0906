import TvmJit.Simulation.Registers

/-! Descriptors of values that are not stored yet, and the code that stores them
to a register. -/

namespace TvmJit

open Foundation

variable [Lua]

/-! ## Descriptors -/

/-- The value of a constant descriptor. -/
def ExpDesc.constValue (e : ExpDesc) : Option LuaValue :=
  match e.k with
  | .vknil => some .nil
  | .vkfalse => some (.bool false)
  | .vktrue => some (.bool true)
  | .vkstr => some (.str e.sval)
  | .vknum => some (.num e.nval)
  | _ => none

/-- A number constant keeps its value when it is stored. -/
def ExpDesc.Exact (e : ExpDesc) : Prop := e.k = .vknum → e.nval ≠ Num.mzero

/-- The comparisons a jump descriptor stands for. -/
def BCOp.compares (op : BCOp) : Bool := op.code ≤ BCOp.isnep.code

/-- The instructions whose A operand is filled in later. -/
def BCOp.computes (op : BCOp) : Bool := op == .not || op == .unm || op.arith.isSome

/-- The value of the descriptor is the result of the comparison just emitted. -/
structure PendingTest (lo : BCPos) (c : Code) (S : BCPos → Prop) (js : List BCPos) (e : ExpDesc) :
    Prop where
  low : lo < e.info
  isLast : e.info + 1 = c.pc
  none : js = []
  pending : c.Pending e.info
  unsettled : ¬S e.info
  real : (c.ins (e.info - 1)).a < NO_REG
  compares : (c.ins (e.info - 1)).op.compares = true

/-- The value of the descriptor is the result of the instruction just emitted. -/
structure PendingValue (lo : BCPos) (c : Code) (js : List BCPos) (e : ExpDesc) : Prop where
  low : lo ≤ e.info
  isLast : e.info + 1 = c.pc
  none : js = []
  computes : (c.ins e.info).op.computes = true

/-- The descriptors the value of an expression has, the expression without calls
and without variables other than locals. `lo` is where its code starts. -/
def Kind (nactvar : BCReg) (lo : BCPos) (c : Code) (S : BCPos → Prop) (js : List BCPos)
    (e : ExpDesc) : Prop :=
  match e.k with
  | .vknil | .vkfalse | .vktrue | .vkstr | .vknum => True
  | .vlocal | .vnonreloc => e.info < nactvar
  | .vrelocable => PendingValue lo c js e
  | .vjmp => PendingTest lo c S js e
  | _ => False

/-- A run has come to where the value `v` of the descriptor is found. -/
def Base (K : KTable) (c : Code) (S : BCPos → Prop) (js : List BCPos) (start : Config) (e : ExpDesc)
    (R : RegFile) (v : LuaValue) : Prop :=
  match e.k with
  | .vlocal | .vnonreloc => Here K c S js start R ∧ R e.info = v
  | .vrelocable =>
      Reach K c.ins S start (e.info, R) ∧ valueOf K (c.ins e.info) R = some v
  | .vjmp =>
      Reach K c.ins S start (e.info - 1, R) ∧
        ∃ b, condOf K (c.ins (e.info - 1)) R = some b ∧ v = .bool b
  | _ => Here K c S js start R ∧ e.constValue = some v

/-- What `expr_discharge` makes of such a descriptor. -/
def ExpDesc.discharged (e : ExpDesc) : ExpDesc :=
  if e.k = .vlocal then { e with k := .vnonreloc } else e

section

variable {nactvar : BCReg} {lo : BCPos} {c : Code} {S : BCPos → Prop} {js : List BCPos} {e : ExpDesc}

omit [Lua] in
theorem Kind.exprDischarge (kind : Kind nactvar lo c S js e) : exprDischarge e = pure e.discharged := by
  unfold Kind at kind
  cases isK : e.k <;> simp [isK, TvmJit.exprDischarge, ExpDesc.discharged] at kind ⊢

omit [Lua] in
theorem Kind.discharged (kind : Kind nactvar lo c S js e) : Kind nactvar lo c S js e.discharged := by
  unfold ExpDesc.discharged
  split
  · next isLocal =>
      unfold Kind at kind ⊢
      simpa only [isLocal] using kind
  · exact kind

theorem Base.discharged {K : KTable} {start : Config} {R : RegFile} {v : LuaValue}
    (base : Base K c S js start e R v) : Base K c S js start e.discharged R v := by
  unfold ExpDesc.discharged
  split
  · next isLocal =>
      unfold Base at base ⊢
      simpa only [isLocal] using base
  · exact base

end

/-! ## Setting registers to nil -/

theorem Flow.of_kpri {K : KTable} {ins : BCPos → BCIns} {S : BCPos → Prop} {p q : BCPos} {R R' : RegFile}
    (flow : Flow K ins S (p, R) (q, R')) (isKpri : (ins p).op = .kpri) :
    R' = Function.update R (ins p).a (priValue (ins p).d) := by
  cases flow with
  | load real value =>
      simp only [valueOf, isKpri, Option.some.injEq] at value
      rw [value]
  | fill _ isKnil => simp [isKpri] at isKnil
  | skip _ cond => simp [condOf, isKpri] at cond
  | take _ cond => simp [condOf, isKpri] at cond
  | jump _ isJmp => simp [isKpri] at isJmp

theorem Flow.of_knil {K : KTable} {ins : BCPos → BCIns} {S : BCPos → Prop} {p q : BCPos} {R R' : RegFile}
    (flow : Flow K ins S (p, R) (q, R')) (isKnil : (ins p).op = .knil) : R' = nilled (ins p) R := by
  cases flow with
  | load _ value => exact absurd isKnil (valueOf_isValue value).2.1
  | fill => rfl
  | skip _ cond => exact absurd isKnil (condOf_isTest cond).2
  | take _ cond => exact absurd isKnil (condOf_isTest cond).2
  | jump _ isJmp => simp [isKnil] at isJmp

/-- Code has been emitted after which `reg` holds a value. -/
structure Loaded (ls : LexState) (S : BCPos → Prop) (js : List BCPos) (ls' : LexState)
    (S' : BCPos → Prop) (js' : List BCPos) : Prop where
  move : Move ls.fs.code.pc ls S js ls' S' js'
  regs : ls'.fs.regs = ls.fs.regs
  tidy : Tidy ls.fs.code ls'.fs.code

section

variable {ls : LexState} {S : BCPos → Prop} {js : List BCPos}

theorem Loaded.refl (ground : Ground ls S js) : Loaded ls S js ls S js :=
  ⟨.refl ground le_rfl, rfl, .refl _⟩

theorem Emitted.loaded {i : BCIns} {ls' : LexState} {S' : BCPos → Prop}
    (emitted : Emitted ls S js i ls' S') (plain : i.Plain) : Loaded ls S js ls' S' [] := by
  refine ⟨emitted.move, emitted.regs, .inl ?_⟩
  rw [emitted.pc, Nat.add_sub_cancel, emitted.ins]
  exact plain

/-- The last instruction sets more registers to nil than before. -/
theorem extend_nils (ground : Ground ls S js) {i : BCIns} (reg : BCReg)
    (after : ls.fs.code.lasttarget < ls.fs.code.pc)
    (sets : (ls.fs.code.ins (ls.fs.code.pc - 1)).setsNil) (isKnil : i.op = .knil)
    (smallA : i.a < LJ_MAX_SLOTS) (smallD : i.d < LJ_MAX_SLOTS)
    (extends_ : ∀ K R R', Flow K ls.fs.code.ins S (ls.fs.code.pc - 1, R) (ls.fs.code.pc, R') →
      nilled i R = Function.update R' reg .nil) :
    Loaded ls S js (ls.setCode (ls.fs.code.setIns (ls.fs.code.pc - 1) i)) S js ∧
      ∀ K start R, Here K ls.fs.code S js start R →
        Here K (ls.fs.code.setIns (ls.fs.code.pc - 1) i) S js start (Function.update R reg .nil) := by
  have pos := ground.pos
  have notJmp : (ls.fs.code.ins (ls.fs.code.pc - 1)).op ≠ .jmp := by
    rcases sets with ⟨isKpri, -⟩ | isKnil
    · simp [isKpri]
    · simp [isKnil]
  have move := setLast_move ground (i := i) notJmp
    ⟨fun isKpri => by simp [isKnil] at isKpri, fun _ => ⟨smallA, smallD⟩⟩
  have none : js = [] := by
    by_contra some
    exact absurd (ground.marked some) after.ne
  refine ⟨⟨move, rfl, .inl ?_⟩, fun K start R here => ?_⟩
  · change ((ls.fs.code.setIns _ i).ins (ls.fs.code.pc - 1)).Plain
    rw [Code.setIns_ins_self]
    exact BCIns.plain_of (by simp [isKnil]) (by simp [BCIns.copies, isKnil])
      (smallA.trans (by decide)).ne
  · subst none
    rcases here with ⟨-, last⟩ | ⟨_, member, _⟩
    · obtain ⟨R', reach, flow⟩ := last after sets
      have reach' := reach.keep move.frame.flow le_rfl
      have step : Flow K (ls.fs.code.setIns (ls.fs.code.pc - 1) i).ins S (ls.fs.code.pc - 1, R')
          (ls.fs.code.pc - 1 + 1, nilled ((ls.fs.code.setIns (ls.fs.code.pc - 1) i).ins
            (ls.fs.code.pc - 1)) R') := by
        refine .fill ?_ ?_
        · rw [Code.setIns_ins_self]
          exact (smallA.trans (by decide)).ne
        · rw [Code.setIns_ins_self]
          exact isKnil
      rw [Code.setIns_ins_self, extends_ K R' R flow, Nat.sub_add_cancel pos] at step
      exact .inl ⟨reach'.tail step, fun _ _ => ⟨R', reach', step⟩⟩
    · cases member

end

omit [Lua] in
theorem BCIns.ad_d_mod {op : BCOp} {a d : Nat} (small : a < 256) : (ad op a d).d = d % 65536 := by
  have noOverflow : a / 256 = 0 := Nat.div_eq_of_lt small
  simp only [ad, noOverflow, Nat.zero_or]

omit [Lua] in
theorem nilled_single {i : BCIns} {R : RegFile} {reg : BCReg} (isA : i.a = reg) (isD : i.d = reg) :
    nilled i R = Function.update R reg .nil := by
  funext r
  by_cases same : r = reg
  · subst same
    simp [nilled, isA, isD]
  · have outside : ¬(i.a ≤ r ∧ r ≤ i.d) := by lia
    simp [nilled, same, outside]

omit [Lua] in
/-- Setting one more register to nil, next to those of `i`. -/
theorem nilled_extend {i i' : BCIns} {R : RegFile} {reg : BCReg} (sameA : i'.a = i.a)
    (isD : i'.d = reg) (above : i.a ≤ reg) (next : reg ≤ i.d + 1) (beyond : i.d < reg) :
    nilled i' R = Function.update (nilled i R) reg .nil := by
  funext r
  simp only [nilled, sameA, isD, Function.update_apply]
  split_ifs <;> first | rfl | lia

omit [Lua] in
/-- Setting a register among those of `i` to nil changes nothing. -/
theorem nilled_idem {i : BCIns} {R : RegFile} {reg : BCReg} (above : i.a ≤ reg) (below : reg ≤ i.d) :
    nilled i R = Function.update (nilled i R) reg .nil := by
  have isNil : nilled i R reg = .nil := if_pos ⟨above, below⟩
  rw [← isNil, Function.update_eq_self]

/-- `bcemit_nil` for one register. -/
theorem bcemitNil_spec {ls : LexState} {S : BCPos → Prop} {js : List BCPos} (ground : Ground ls S js)
    {reg : BCReg} (isReg : reg < LJ_MAX_SLOTS) :
    EmitSpec (bcemitNil reg 1) ls fun _ ls' => ∃ S' js', Loaded ls S js ls' S' js' ∧
      ls'.fs.consts = ls.fs.consts ∧
      ∀ K start R, Here K ls.fs.code S js start R →
        Here K ls'.fs.code S' js' start (Function.update R reg .nil) := by
  have small : reg < 250 := isReg
  have pos := ground.pos
  -- Emit new instruction.
  have emit : EmitSpec (bcemitINS (.ad .kpri reg (constPri .vknil))) ls fun _ ls' =>
      ∃ S' js', Loaded ls S js ls' S' js' ∧ ls'.fs.consts = ls.fs.consts ∧
        ∀ K start R, Here K ls.fs.code S js start R →
          Here K ls'.fs.code S' js' start (Function.update R reg .nil) := by
    have isA : (BCIns.ad .kpri reg (constPri .vknil)).a = reg := BCIns.ad_a (by lia)
    have isD : (BCIns.ad .kpri reg (constPri .vknil)).d = 0 := BCIns.ad_d_mod (by lia)
    refine (bcemitINS_spec ground ⟨fun _ => .inl (by rw [isA]; exact isReg), fun h => by cases h⟩).mono ?_
    rintro pos' ls' ⟨-, S', emitted⟩
    have plain : (BCIns.ad .kpri reg (constPri .vknil)).Plain :=
      BCIns.plain_of nofun rfl (by rw [isA, NO_REG]; lia)
    refine ⟨S', [], emitted.loaded plain, emitted.consts, fun K start R here => ?_⟩
    have loads := emitted.load (v := .nil) (by rw [isA, NO_REG]; lia) here (by
      simp only [valueOf, BCIns.ad_op, isD]
      rfl)
    rwa [isA] at loads
  -- Try to merge with the previous instruction.
  have unchanged (holds : ∀ K R R', Flow K ls.fs.code.ins S (ls.fs.code.pc - 1, R) (ls.fs.code.pc, R') →
        R' = Function.update R' reg .nil)
      (after : ls.fs.code.lasttarget < ls.fs.code.pc)
      (sets : (ls.fs.code.ins (ls.fs.code.pc - 1)).setsNil) (K : KTable) (start : Config) (R : RegFile)
      (here : Here K ls.fs.code S js start R) :
      Here K ls.fs.code S js start (Function.update R reg .nil) := by
    have none : js = [] := by
      by_contra some
      exact absurd (ground.marked some) after.ne
    subst none
    rcases here with ⟨reach, last⟩ | ⟨_, member, _⟩
    · obtain ⟨R', -, flow⟩ := last after sets
      rw [← holds K R' R flow]
      exact .inl ⟨reach, last⟩
    · cases member
  unfold bcemitNil
  rw [EmitSpec, wp_bind, wp_getFs]
  simp only [if_true]
  split
  · next after =>
      have inside : ls.fs.code.pc - 1 < ls.fs.code.pc := Nat.sub_lt pos Nat.one_pos
      refine EmitSpec.bind (bcAt_emit inside) ?_
      rintro _ _ ⟨rfl, rfl⟩
      split
      · -- The register is set to nil already.
        next same =>
          obtain ⟨isKpri, isNil, rfl⟩ := same
          rw [if_neg (by simp)]
          refine ⟨S, js, .refl ground, rfl, unchanged (fun K R R' flow => ?_) after (.inl ⟨isKpri, isNil⟩)⟩
          have isValue : priValue (constPri .vknil) = .nil := rfl
          rw [flow.of_kpri isKpri, isNil, isValue, Function.update_idem]
      split
      · next isNext =>
          obtain ⟨isKpri, isNil, isReg'⟩ := isNext
          have sets : (ls.fs.code.ins (ls.fs.code.pc - 1)).setsNil := .inl ⟨isKpri, isNil⟩
          have isA : (BCIns.ad .knil (ls.fs.code.ins (ls.fs.code.pc - 1)).a reg).a =
              (ls.fs.code.ins (ls.fs.code.pc - 1)).a := BCIns.ad_a (by lia)
          have isD : (BCIns.ad .knil (ls.fs.code.ins (ls.fs.code.pc - 1)).a reg).d = reg :=
            BCIns.ad_d (by lia) (by lia)
          rw [← isReg']
          refine (setBc_emit inside).mono ?_
          rintro _ _ rfl
          obtain ⟨loaded, arrives⟩ := extend_nils ground reg after sets rfl
            (by rw [isA]; lia) (by rw [isD]; exact isReg) fun K R R' flow => by
              have first : nilled ⟨.knil, (ls.fs.code.ins (ls.fs.code.pc - 1)).a,
                  (ls.fs.code.ins (ls.fs.code.pc - 1)).a⟩ R = R' := by
                rw [nilled_single rfl rfl, flow.of_kpri isKpri, isNil]
                rfl
              rw [← first]
              exact nilled_extend isA isD (by lia) isReg'.le (by simp only; lia)
          exact ⟨S, js, loaded, rfl, arrives⟩
      split
      · next connects =>
          -- Connect both ranges.
          obtain ⟨isKnil, above, below⟩ := connects
          have sets : (ls.fs.code.ins (ls.fs.code.pc - 1)).setsNil := .inr isKnil
          split
          · next grows =>
              have isD : ((ls.fs.code.ins (ls.fs.code.pc - 1)).setD reg).d = reg :=
                Nat.mod_eq_of_lt (by lia)
              refine (setBc_emit inside).mono ?_
              rintro _ _ rfl
              obtain ⟨loaded, arrives⟩ := extend_nils ground reg
                (i := (ls.fs.code.ins (ls.fs.code.pc - 1)).setD reg) after sets isKnil
                ((ground.nils after).knil isKnil).1 (by rw [isD]; exact isReg) fun K R R' flow => by
                  rw [flow.of_knil isKnil]
                  exact nilled_extend rfl isD above below grows
              exact ⟨S, js, loaded, rfl, arrives⟩
          · next inRange =>
              refine ⟨S, js, .refl ground, rfl, unchanged (fun K R R' flow => ?_) after sets⟩
              rw [flow.of_knil isKnil]
              exact nilled_idem above (Nat.not_lt.mp inRange)
      · exact EmitSpec.bind emit fun _ _ h => h
  · exact EmitSpec.bind emit fun _ _ h => h

/-! ## Storing a value to a register -/

/-- The run arrives at the end of the code with the value in `reg`. -/
def Stores (ls : LexState) (S : BCPos → Prop) (js : List BCPos) (e : ExpDesc) (reg : BCReg)
    (ls' : LexState) (S' : BCPos → Prop) (js' : List BCPos) : Prop :=
  ∀ K : KTable, K.Reads ls'.fs.consts → ∀ start R v, Base K ls.fs.code S js start e R v →
    Here K ls'.fs.code S' js' start (Function.update R reg v)

section

variable {ls : LexState} {S : BCPos → Prop} {js : List BCPos} {e : ExpDesc} {reg : BCReg}

/-- One instruction has been emitted that loads the constant `e` to `reg`. The
register may be still open. -/
structure ConstLoad (ls : LexState) (S : BCPos → Prop) (js : List BCPos) (e : ExpDesc) (reg : BCReg)
    (ls' : LexState) (S' : BCPos → Prop) : Prop where
  move : Move ls.fs.code.pc ls S js ls' S' []
  regs : ls'.fs.regs = ls.fs.regs
  pc : ls'.fs.code.pc = ls.fs.code.pc + 1
  isA : (ls'.fs.code.ins ls.fs.code.pc).a = reg
  notUclo : (ls'.fs.code.ins ls.fs.code.pc).op ≠ .uclo
  noCopy : (ls'.fs.code.ins ls.fs.code.pc).copies = false
  unsettled : ¬S' ls.fs.code.pc
  arrive : ∀ K start R, Here K ls.fs.code S js start R →
    Reach K ls'.fs.code.ins S' start (ls.fs.code.pc, R)
  value : ∀ K : KTable, K.Reads ls'.fs.consts → ∀ R v, e.constValue = some v →
    valueOf K (ls'.fs.code.ins ls.fs.code.pc) R = some v

/-- An instruction that loads the constant is emitted. -/
theorem emit_constant (e : ExpDesc) (reg : BCReg) (ground : Ground ls S js) {i : BCIns} (isA : i.a = reg)
    (notUclo : i.op ≠ .uclo) (noCopy : i.copies = false) (fit : i.NilsFit) {ls₀ : LexState}
    (constMove : ConstMove ls₀ S js ls)
    (value : ∀ K : KTable, K.Reads ls.fs.consts → ∀ R v, e.constValue = some v → valueOf K i R = some v) :
    EmitSpec (bcemitINS i) ls fun _ ls' => ∃ S', ConstLoad ls₀ S js e reg ls' S' := by
  refine (bcemitINS_spec ground fit).mono ?_
  rintro _ ls' ⟨-, S', emitted⟩
  have samePc : ls.fs.code.pc = ls₀.fs.code.pc := by rw [constMove.code]
  have isIns := emitted.ins
  have pc := emitted.pc
  have unsettled := emitted.unsettled
  have arrive := emitted.arrive
  rw [samePc] at isIns pc unsettled arrive
  rw [constMove.code] at arrive
  exact ⟨S', constMove.move.trans (emitted.move.mono samePc.ge) le_rfl, emitted.regs.trans constMove.regs,
    pc, isIns ▸ isA, isIns ▸ notUclo, isIns ▸ noCopy, unsettled, arrive, fun K reads =>
      isIns ▸ value K (emitted.consts ▸ reads)⟩

/-- The constant has been stored to a register. -/
theorem ConstLoad.loaded {ls' : LexState} {S' : BCPos → Prop} (load : ConstLoad ls S js e reg ls' S')
    (isReg : reg < LJ_MAX_SLOTS) (isConst : ∀ K start R v, Base K ls.fs.code S js start e R v →
      Here K ls.fs.code S js start R ∧ e.constValue = some v) :
    Loaded ls S js ls' S' [] ∧ Stores ls S js e reg ls' S' [] := by
  have realReg : reg ≠ NO_REG := (isReg.trans (by decide)).ne
  have isLast : ls'.fs.code.pc - 1 = ls.fs.code.pc := by rw [load.pc]; rfl
  refine ⟨⟨load.move, load.regs, .inl ?_⟩, fun K reads start R v base => ?_⟩
  · rw [isLast]
    exact BCIns.plain_of load.notUclo load.noCopy (load.isA ▸ realReg)
  · obtain ⟨here, isValue⟩ := isConst K start R v base
    have reach := load.arrive K start R here
    have step : Flow K ls'.fs.code.ins S' (ls.fs.code.pc, R) (ls.fs.code.pc + 1, Function.update R reg v) :=
      .loads rfl load.isA realReg (load.value K reads R v isValue)
    rw [← load.pc] at step
    refine .inl ⟨reach.tail step, fun _ _ => ⟨R, ?_⟩⟩
    rw [isLast]
    exact ⟨reach, step⟩

/-- `expr_toreg_nobranch` for a constant other than nil. -/
theorem exprToregNobranch_const (ground : Ground ls S js)
    (isConst : e.k = .vkfalse ∨ e.k = .vktrue ∨ e.k = .vkstr ∨ e.k = .vknum) (exact_ : e.Exact)
    (usable : Usable reg) :
    EmitSpec (exprToregNobranch e reg) ls fun r ls' =>
      r = { e with info := reg, k := .vnonreloc } ∧ ∃ S', ConstLoad ls S js e reg ls' S' := by
  have small : reg < 256 := by
    rcases usable with rfl | isReg
    · decide
    · exact isReg.trans (by decide)
  have isA (op : BCOp) (d : Nat) : (BCIns.ad op reg d).a = reg := BCIns.ad_a small
  have isD (op : BCOp) (d : Nat) : (BCIns.ad op reg d).d = d % 65536 := BCIns.ad_d_mod small
  have primitive (d : Nat) : (BCIns.ad .kpri reg d).NilsFit :=
    ⟨fun _ => by rw [isA]; exact usable.symm, fun h => by cases h⟩
  have other (op : BCOp) (d : Nat) (noKpri : op ≠ .kpri) (noKnil : op ≠ .knil) :
      (BCIns.ad op reg d).NilsFit := .other noKpri noKnil
  have unmoved : ConstMove ls S js ls := .of ground rfl rfl (.refl ls)
  unfold exprToregNobranch
  have plain : exprDischarge e = pure e := by
    rcases isConst with isK | isK | isK | isK <;> simp [exprDischarge, isK]
  rw [plain]
  refine EmitSpec.bind (Q := fun r ls' => e = r ∧ ls = ls') ⟨rfl, rfl⟩ ?_
  rintro _ _ ⟨rfl, rfl⟩
  rcases isConst with isK | isK | isK | isK
  · -- VKFALSE
    simp only [isK]
    refine EmitSpec.bind (emit_constant e reg ground (isA _ _) (by simp) rfl
      (primitive _) unmoved ?_) fun _ _ h => ⟨rfl, h⟩
    intro K _ R v isValue
    simp only [ExpDesc.constValue, isK, Option.some.injEq] at isValue
    simp only [valueOf, BCIns.ad_op, isD, ← isValue]
    rfl
  · -- VKTRUE
    simp only [isK]
    refine EmitSpec.bind (emit_constant e reg ground (isA _ _) (by simp) rfl
      (primitive _) unmoved ?_) fun _ _ h => ⟨rfl, h⟩
    intro K _ R v isValue
    simp only [ExpDesc.constValue, isK, Option.some.injEq] at isValue
    simp only [valueOf, BCIns.ad_op, isD, ← isValue]
    rfl
  · -- VKSTR
    simp only [isK]
    refine EmitSpec.bind (constStr_spec ground e) ?_
    rintro idx ls₁ ⟨constMove, reads⟩
    refine EmitSpec.bind (emit_constant e reg constMove.move.ground (isA _ _) (by simp) rfl
      (other .kstr idx (by decide) (by decide)) constMove ?_) fun _ _ h => ⟨rfl, h⟩
    intro K consts R v isValue
    simp only [ExpDesc.constValue, isK, Option.some.injEq] at isValue
    simp only [valueOf, BCIns.ad_op, isD, ← isValue]
    exact reads K consts
  · -- VKNUM
    have keeps : e.nval.kept = e.nval := if_neg (exact_ isK)
    simp only [isK]
    split
    · next fits =>
        unfold recordUse modifyFs
        rw [EmitSpec, wp_bind, wp_modify]
        have noted : ConstMove ls S js { ls with fs := { ls.fs with
            uses := ⟨e.nval, .short (e.nval.num2int % 65536).toNat⟩ :: ls.fs.uses } } :=
          .of ground rfl rfl ⟨rfl, rfl, rfl, rfl, rfl, rfl, fun _ member => member⟩
        refine EmitSpec.bind (emit_constant e reg noted.move.ground (isA _ _)
          (by simp) rfl (other .kshort _ (by decide) (by decide)) noted ?_) fun _ _ h => ⟨rfl, h⟩
        intro K _ R v isValue
        have short : (e.nval.num2int % 65536).toNat % 65536 = (e.nval.num2int % 65536).toNat := by
          lia
        simp only [ExpDesc.constValue, isK, Option.some.injEq] at isValue
        simp only [valueOf, BCIns.ad_op, isD, short, short_signed fits.1, Num.ofInt_num2int fits.2,
          keeps, ← isValue]
    · refine EmitSpec.bind (constNum_spec ground e) ?_
      rintro idx ls₁ ⟨constMove, reads⟩
      refine EmitSpec.bind (emit_constant e reg constMove.move.ground (isA _ _)
        (by simp) rfl (other .knum idx (by decide) (by decide)) constMove ?_) fun _ _ h => ⟨rfl, h⟩
      intro K consts R v isValue
      simp only [ExpDesc.constValue, isK, Option.some.injEq] at isValue
      simp only [valueOf, BCIns.ad_op, isD, ← isValue]
      rw [← keeps]
      exact reads K consts

/-- The instruction just emitted is given the register for its result. -/
theorem load_pending (ground : Ground ls S js) {lo : BCPos} (isK : e.k = .vrelocable)
    (kind : PendingValue lo ls.fs.code js e) (isReg : reg < LJ_MAX_SLOTS) :
    Loaded ls S js
        (ls.setCode (ls.fs.code.setIns e.info ((ls.fs.code.ins e.info).setA reg))) S js ∧
      Stores ls S js e reg
        (ls.setCode (ls.fs.code.setIns e.info ((ls.fs.code.ins e.info).setA reg))) S js := by
  have small : reg < 250 := isReg
  have isInfo : ls.fs.code.pc - 1 = e.info := by rw [← kind.isLast]; rfl
  have computes := kind.computes
  have isOp (op : BCOp) (noValue : op.computes = false) : (ls.fs.code.ins e.info).op ≠ op := by
    rintro rfl
    rw [noValue] at computes
    cases computes
  have fit : ((ls.fs.code.ins e.info).setA reg).NilsFit := .other (isOp .kpri rfl) (isOp .knil rfl)
  have move := setLast_move ground (by rw [isInfo]; exact isOp .jmp rfl) fit
  rw [isInfo] at move
  have isA : ((ls.fs.code.ins e.info).setA reg).a = reg := Nat.mod_eq_of_lt (by lia)
  refine ⟨⟨move, rfl, .inl ?_⟩, fun K _ start R v base => ?_⟩
  · change ((ls.fs.code.setIns e.info _).ins (ls.fs.code.pc - 1)).Plain
    rw [isInfo, Code.setIns_ins_self]
    refine BCIns.plain_of (isOp .uclo rfl) ?_ (by rw [isA, NO_REG]; lia)
    simp only [BCIns.copies, BCIns.setA, Bool.or_eq_false_iff, beq_eq_false_iff_ne]
    exact ⟨isOp .istc rfl, isOp .isfc rfl⟩
  · simp only [Base, isK] at base
    obtain ⟨reach, value⟩ := base
    have reach' := reach.keep move.frame.flow isInfo.ge
    have step := Flow.loads (S := S) (Code.setIns_ins_self ls.fs.code e.info _) isA
      (isReg.trans (by decide)).ne value
    rw [kind.isLast] at step
    refine .inl ⟨reach'.tail step, fun _ _ => ⟨R, ?_, ?_⟩⟩
    · change Reach K (ls.fs.code.setIns e.info _).ins S start (ls.fs.code.pc - 1, R)
      rw [isInfo]
      exact reach'
    · change Flow K (ls.fs.code.setIns e.info _).ins S (ls.fs.code.pc - 1, R) _
      rw [isInfo]
      exact step

/-- The value of a local is copied, unless it is in the register already. -/
theorem move_local (ground : Ground ls S js) (isLocal : e.k = .vlocal ∨ e.k = .vnonreloc)
    (isVar : e.info < LJ_MAX_SLOTS) (isReg : reg < LJ_MAX_SLOTS) :
    EmitSpec (do
        if reg ≠ e.info then
          let _ ← bcemitINS (.ad .mov reg e.info)
        pure ({ e with k := .vnonreloc, info := reg } : ExpDesc)) ls fun r ls' =>
      r = { e with k := .vnonreloc, info := reg } ∧
        ∃ S' js', Loaded ls S js ls' S' js' ∧ Stores ls S js e reg ls' S' js' := by
  have small : reg < 250 := isReg
  have smallVar : e.info < 250 := isVar
  have isBase (K : KTable) (start : Config) (R : RegFile) (v : LuaValue)
      (base : Base K ls.fs.code S js start e R v) :
      Here K ls.fs.code S js start R ∧ R e.info = v := by
    rcases isLocal with isK | isK <;> simpa only [Base, isK] using base
  split
  · refine EmitSpec.bind (bcemitINS_spec ground (.other (by simp) (by simp))) ?_
    rintro _ ls' ⟨-, S', emitted⟩
    have isA : (BCIns.ad .mov reg e.info).a = reg := BCIns.ad_a (by lia)
    have isD : (BCIns.ad .mov reg e.info).d = e.info := BCIns.ad_d (by lia) (by lia)
    have plain : (BCIns.ad .mov reg e.info).Plain :=
      BCIns.plain_of nofun rfl (by rw [isA, NO_REG]; lia)
    refine ⟨rfl, S', [], emitted.loaded plain, fun K _ start R v base => ?_⟩
    obtain ⟨here, isValue⟩ := isBase K start R v base
    have loads := emitted.load (v := v) (by rw [isA, NO_REG]; lia) here (by
      simp only [valueOf, BCIns.ad_op, isD, isValue])
    rwa [isA] at loads
  · next same =>
      rw [not_not] at same
      refine ⟨rfl, S, js, .refl ground, fun K _ start R v base => ?_⟩
      obtain ⟨here, isValue⟩ := isBase K start R v base
      rw [same, ← isValue, Function.update_eq_self]
      exact here

/-- `expr_toreg_nobranch`, the value not being the one of a jump. -/
theorem exprToregNobranch_spec (ground : Ground ls S js) {nactvar : BCReg} {lo : BCPos}
    (kind : Kind nactvar lo ls.fs.code S js e) (noJump : e.k ≠ .vjmp) (exact_ : e.Exact)
    (isVar : nactvar ≤ LJ_MAX_SLOTS) (isReg : reg < LJ_MAX_SLOTS) :
    EmitSpec (exprToregNobranch e reg) ls fun r ls' =>
      r = { e.discharged with info := reg, k := .vnonreloc } ∧
        ∃ S' js', Loaded ls S js ls' S' js' ∧ Stores ls S js e reg ls' S' js' := by
  have fromConst (isConst : e.k = .vkfalse ∨ e.k = .vktrue ∨ e.k = .vkstr ∨ e.k = .vknum) :
      EmitSpec (exprToregNobranch e reg) ls fun r ls' =>
        r = { e.discharged with info := reg, k := .vnonreloc } ∧
          ∃ S' js', Loaded ls S js ls' S' js' ∧ Stores ls S js e reg ls' S' js' := by
    have same : e.discharged = e := if_neg (by rcases isConst with h | h | h | h <;> simp [h])
    rw [same]
    refine (exprToregNobranch_const ground isConst exact_ (.inr isReg)).mono ?_
    rintro r ls' ⟨rfl, S', load⟩
    refine ⟨rfl, S', [], load.loaded isReg fun K start R v base => ?_⟩
    rcases isConst with isK | isK | isK | isK <;> simpa only [Base, isK] using base
  cases isK : e.k
  case vkfalse => exact fromConst (.inl isK)
  case vktrue => exact fromConst (.inr (.inl isK))
  case vkstr => exact fromConst (.inr (.inr (.inl isK)))
  case vknum => exact fromConst (.inr (.inr (.inr isK)))
  all_goals
    unfold exprToregNobranch
    rw [kind.exprDischarge]
    refine EmitSpec.bind (Q := fun r ls' => r = e.discharged ∧ ls = ls') ⟨rfl, rfl⟩ ?_
    rintro _ _ ⟨rfl, rfl⟩
    simp only [Kind, isK] at kind
  case vknil =>
      have same : e.discharged = e := by simp [ExpDesc.discharged, isK]
      simp only [same, isK]
      refine EmitSpec.bind (bcemitNil_spec ground isReg) ?_
      rintro _ ls' ⟨S', js', loaded, -, arrives⟩
      refine ⟨rfl, S', js', loaded, fun K _ start R v base => ?_⟩
      simp only [Base, isK, ExpDesc.constValue, Option.some.injEq] at base
      obtain ⟨here, rfl⟩ := base
      exact arrives K start R here
  case vrelocable =>
      have same : e.discharged = e := by simp [ExpDesc.discharged, isK]
      have inside : e.info < ls.fs.code.pc := by rw [← kind.isLast]; exact Nat.lt_succ_self _
      simp only [same, isK]
      refine EmitSpec.bind (changeIns_spec inside) ?_
      rintro _ _ rfl
      exact ⟨rfl, S, js, load_pending ground isK kind isReg⟩
  case vnonreloc =>
      have same : e.discharged = e := by simp [ExpDesc.discharged, isK]
      simp only [same, isK]
      exact move_local ground (.inr isK) (kind.trans_le isVar) isReg
  case vlocal =>
      have same : e.discharged = { e with k := .vnonreloc } := by simp [ExpDesc.discharged, isK]
      simp only [same]
      exact move_local ground (.inl isK) (kind.trans_le isVar) isReg
  case vjmp => exact absurd isK noJump

end

end TvmJit
