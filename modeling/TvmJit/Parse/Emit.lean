import TvmJit.Parse.Jump

/-! The register allocator, the constants and the bytecode emitter for
expressions. -/

namespace TvmJit

def getFs : EmitM FuncState := do pure (← get).fs

def modifyFs (change : FuncState → FuncState) : EmitM Unit :=
  modify fun ls => { ls with fs := change ls.fs }

def modifyRegs (change : Regs → Regs) : EmitM Unit :=
  modifyFs fun fs => { fs with regs := change fs.regs }

def modifyFlags (change : ProtoFlags → ProtoFlags) : EmitM Unit :=
  modifyFs fun fs => { fs with flags := change fs.flags }

def setVar (idx : VarIndex) (change : VarInfo → VarInfo) : EmitM Unit :=
  modify fun ls => { ls with vstack := Function.update ls.vstack idx (change (ls.vstack idx)) }

def errSyntax (em : ErrMsg) : EmitM α := do
  let ls ← get
  throw (.lex em ls.linenumber (some ls.tok))

/-- `lj_lex_error(ls, 0, em, ...)`. -/
def errLex (em : ErrMsg) : EmitM α := do
  throw (.lex em (← get).linenumber none)

def errLimit (limit : Nat) (what : String) : EmitM α := do
  let ls ← get
  throw (ls.errLimit ls.fs limit what)

/-- `lua_assert`, for the checks of the register stack. -/
def luaAssert (site : AssertSite) (holds : Bool) : EmitM Unit :=
  modify fun ls => if holds then ls else { ls with failed := ls.failed ++ [site] }

/-! ## Management of constants -/

def liftKey (key : Except ErrMsg TabKey) : EmitM TabKey :=
  match key with
  | .ok key => pure key
  | .error em => throw (.msg em)

/-- Add an entry to the table of constants. -/
def addConst (key : TabKey) (slot : Nat) (nkn nkgc : Nat) : EmitM Unit :=
  modifyFs fun fs => { fs with consts := ⟨(key, slot) :: fs.consts.kt, nkn, nkgc⟩ }

/-- Keep a record of the operand a number has become. -/
def recordUse (literal : Num) (operand : NumOperand) : EmitM Unit :=
  modifyFs fun fs => { fs with uses := ⟨literal, operand⟩ :: fs.uses }

/-- Add a number constant. -/
def constNum (e : ExpDesc) : EmitM BCReg := do
  let key ← liftKey (tabKey (.num e.nval))
  let consts := (← getFs).consts
  match consts.kt.lookup key with
  | some slot =>
      recordUse e.nval (.slot slot)
      pure slot
  | none =>
      addConst key consts.nkn (consts.nkn + 1) consts.nkgc
      recordUse e.nval (.slot consts.nkn)
      pure consts.nkn

/-- Add a GC object constant. -/
def constGc (o : GCobj) : EmitM BCReg := do
  let consts := (← getFs).consts
  match consts.kt.lookup (.obj o) with
  | some slot => pure slot
  | none =>
      addConst (.obj o) consts.nkgc consts.nkn (consts.nkgc + 1)
      pure consts.nkgc

/-- Add a string constant. -/
def constStr (e : ExpDesc) : EmitM BCReg := constGc (.str e.sval)

/-- `const_gc(fs, obj2gco(cdataV(&e->u.nval)), LJ_TCDATA)`. Every cdata literal
is an object of its own. -/
def constCdata (e : ExpDesc) : EmitM BCReg := do
  constGc (.cdata e.cd (← getFs).consts.nkgc)

/-! ## Bytecode register allocator -/

/-- Lower `fs->freereg`. -/
def lowerFreereg (freereg : BCReg) : EmitM Unit := do
  modifyRegs fun regs => { regs with freereg := freereg }
  luaAssert .freereg ((← getFs).regs.nactvar ≤ freereg)

/-- `fs->freereg--`. -/
def decFreereg : EmitM Unit := do
  lowerFreereg (u32 ((← getFs).regs.freereg - 1))

/-- Bump frame size. -/
def bcregBump (n : BCReg) : EmitM Unit := do
  let regs := (← getFs).regs
  let sz := u32 (regs.freereg + n)
  if sz > regs.framesize then
    if sz ≥ LJ_MAX_SLOTS then errSyntax .xslots
    modifyRegs fun regs => { regs with framesize := sz }

/-- Reserve registers. -/
def bcregReserve (n : BCReg) : EmitM Unit := do
  bcregBump n
  modifyRegs fun regs => { regs with freereg := u32 (regs.freereg + n) }

/-- Free register. -/
def bcregFree (reg : BCReg) : EmitM Unit := do
  if reg ≥ (← getFs).regs.nactvar then
    decFreereg
    luaAssert .bcregFree (reg == (← getFs).regs.freereg)

/-- Free register for expression. -/
def exprFree (e : ExpDesc) : EmitM Unit := do
  if e.k = .vnonreloc then bcregFree e.info

/-- `if (e->k == VNONRELOC && e->u.s.info >= fs->nactvar) fs->freereg--`, used
where `expr_free` might free in the wrong order. -/
def exprFreeUnordered (e : ExpDesc) : EmitM Unit := do
  if e.k = .vnonreloc ∧ e.info ≥ (← getFs).regs.nactvar then decFreereg

/-! ## Bytecode emitter -/

def bcemitINS (ins : BCIns) : EmitM BCPos := do
  emitIns (← get).lastline ins

def bcemitABC (op : BCOp) (a b c : Nat) : EmitM BCPos := bcemitINS (.abc op a b c)

def bcemitAD (op : BCOp) (a d : Nat) : EmitM BCPos := bcemitINS (.ad op a d)

def bcemitAJ (op : BCOp) (a : Nat) (j : Int) : EmitM BCPos := bcemitINS (.aj op a j)

/-- Change `*bcptr(fs, e)`. -/
def changeIns (pc : BCPos) (change : BCIns → BCIns) : EmitM Unit := do
  let ins ← bcAt pc
  setBc pc (change ins)

/-! ## Bytecode emitter for expressions -/

/-- Discharge non-constant expression to any register. -/
def exprDischarge (e : ExpDesc) : EmitM ExpDesc := do
  match e.k with
  | .vupval => reloc (.ad .uget 0 e.info)
  | .vglobal => reloc (.ad .gget 0 (← constStr e))
  | .vindexed =>
      let rc := e.aux
      let ins ←
        if rc ≥ 0x80000000 then  -- (int32_t)rc < 0
          pure (BCIns.abc .tgets 0 e.info (0xffffffff - rc))
        else if rc > BCMAX_C then
          pure (BCIns.abc .tgetb 0 e.info (rc - (BCMAX_C + 1)))
        else do
          bcregFree rc
          pure (BCIns.abc .tgetv 0 e.info rc)
      bcregFree e.info
      reloc ins
  | .vcall => pure { e with info := e.aux, k := .vnonreloc }
  | .vlocal => pure { e with k := .vnonreloc }
  | _ => pure e
where
  reloc (ins : BCIns) : EmitM ExpDesc := do
    pure { e with info := ← bcemitINS ins, k := .vrelocable }

/-- Emit bytecode to set a range of registers to nil. -/
def bcemitNil (reg n : BCReg) : EmitM Unit := do
  let c := (← getFs).code
  let emit : EmitM Unit := do  -- Emit new instruction.
    let _ ← bcemitINS (if n = 1 then .ad .kpri reg (constPri .vknil) else .ad .knil reg (reg + n - 1))
  if c.pc > c.lasttarget then  -- No jumps to current position?
    let ip ← bcAt (c.pc - 1)
    let pfrom := ip.a
    -- Try to merge with the previous instruction.
    if ip.op = .kpri ∧ ip.d = constPri .vknil ∧ reg = pfrom then
      if n ≠ 1 then setBc (c.pc - 1) (.ad .knil reg (reg + n - 1))
    else if ip.op = .kpri ∧ ip.d = constPri .vknil ∧ reg = pfrom + 1 then
      setBc (c.pc - 1) (.ad .knil pfrom (pfrom + n))
    else if ip.op = .knil ∧ pfrom ≤ reg ∧ reg ≤ ip.d + 1 then  -- Connect both ranges.
      if reg + n - 1 > ip.d then setBc (c.pc - 1) (ip.setD (reg + n - 1))
    else emit
  else emit

/-- Discharge an expression to a specific register. Ignore branches. -/
def exprToregNobranch (e : ExpDesc) (reg : BCReg) : EmitM ExpDesc := do
  let e ← exprDischarge e
  let done : ExpDesc := { e with info := reg, k := .vnonreloc }
  match e.k with
  | .vkstr =>
      let _ ← bcemitINS (.ad .kstr reg (← constStr e))
      pure done
  | .vknum =>
      let k := e.nval.num2int
      if checki16 k ∧ e.nval.eq (.ofInt k) then
        recordUse e.nval (.short (k % 65536).toNat)
        let _ ← bcemitINS (.ad .kshort reg (k % 65536).toNat)
        pure done
      else
        let _ ← bcemitINS (.ad .knum reg (← constNum e))
        pure done
  | .vkcdata =>
      modifyFlags fun flags => { flags with ffi := true }
      let _ ← bcemitINS (.ad .kcdata reg (← constCdata e))
      pure done
  | .vrelocable =>
      changeIns e.info (·.setA reg)
      pure done
  | .vnonreloc =>
      if reg ≠ e.info then
        let _ ← bcemitINS (.ad .mov reg e.info)
      pure done
  | .vknil =>
      bcemitNil reg 1
      pure done
  | .vkfalse | .vktrue =>
      let _ ← bcemitINS (.ad .kpri reg (constPri e.k))
      pure done
  | _ => pure e  -- VVOID or VJMP

/-- Emit unconditional branch. -/
def bcemitJmp : EmitM BCPos := do
  let ls ← get
  emitJmp ls.lastline ls.fs.regs.freereg

/-- `jmp_novalue(fs, e->t) || jmp_novalue(fs, e->f)`. -/
def exprNovalue (e : ExpDesc) : EmitM Bool := do
  if ← jmpNovalue e.t then pure true else jmpNovalue e.f

/-- The `KPRI` pair of `expr_toreg` for jumps that produce no value: the
positions of its false and of its true instruction. -/
def exprBoolvalues (e : ExpDesc) (reg : BCReg) : EmitM (BCPos × BCPos) := do
  let jval ← if e.k = .vjmp then pure NO_JMP else bcemitJmp
  let jfalse ← bcemitAD .kpri reg (constPri .vkfalse)
  let _ ← bcemitAJ .jmp (← getFs).regs.freereg 1
  let jtrue ← bcemitAD .kpri reg (constPri .vktrue)
  jmpTohere jval
  pure (jfalse, jtrue)

/-- Discharge expression with branches. -/
def exprToregBranches (e : ExpDesc) (reg : BCReg) : EmitM Unit := do
  let (jfalse, jtrue) ←
    if ← exprNovalue e then exprBoolvalues e reg else pure (NO_JMP, NO_JMP)
  let jend := (← getFs).code.pc
  markTarget
  jmpPatchval e.f jend reg jfalse
  jmpPatchval e.t jend reg jtrue

/-- Discharge an expression to a specific register. -/
def exprToreg (e : ExpDesc) (reg : BCReg) : EmitM ExpDesc := do
  let e ← exprToregNobranch e reg
  let e ←
    if e.k = .vjmp then do  -- Add it to the true jump list.
      pure { e with t := ← jmpAppend e.t e.info }
    else pure e
  if e.hasjump then exprToregBranches e reg
  pure { e with f := NO_JMP, t := NO_JMP, info := reg, k := .vnonreloc }

/-- Discharge an expression to the next free register. -/
def exprTonextreg (e : ExpDesc) : EmitM ExpDesc := do
  let e ← exprDischarge e
  exprFree e
  bcregReserve 1
  exprToreg e (u32 ((← getFs).regs.freereg - 1))

/-- Discharge an expression to any register. -/
def exprToanyreg (e : ExpDesc) : EmitM ExpDesc := do
  let e ← exprDischarge e
  if e.k = .vnonreloc ∧ !e.hasjump then pure e  -- Already in a register.
  else if e.k = .vnonreloc ∧ e.info ≥ (← getFs).regs.nactvar then
    exprToreg e e.info  -- Discharge to temp. register.
  else exprTonextreg e  -- Discharge to next register.

/-- Partially discharge expression to a value. -/
def exprToval (e : ExpDesc) : EmitM ExpDesc := do
  if e.hasjump then exprToanyreg e else exprDischarge e

/-- `fs->ls->vstack[idx].info |= VSTACK_VAR_RW`. -/
def markRw (idx : VarIndex) : EmitM Unit := setVar idx fun v => { v with rw := true }

/-- Emit store for LHS expression. -/
def bcemitStore (var e : ExpDesc) : EmitM ExpDesc := do
  match var.k with
  | .vlocal =>
      markRw var.aux
      exprFree e
      exprToreg e var.info
  | .vupval =>
      markRw var.aux
      let e ← exprToval e
      if e.ispri then finish (.ad .usetp var.info (constPri e.k)) e
      else if e.k = .vkstr then finish (.ad .usets var.info (← constStr e)) e
      else if e.k = .vknum then finish (.ad .usetn var.info (← constNum e)) e
      else
        let e ← exprToanyreg e
        finish (.ad .usetv var.info e.info) e
  | .vglobal =>
      let e ← exprToanyreg e
      finish (.ad .gset e.info (← constStr var)) e
  | _ =>  -- VINDEXED
      let e ← exprToanyreg e
      let ra := e.info
      let rc := var.aux
      if rc ≥ 0x80000000 then finish (.abc .tsets ra var.info (0xffffffff - rc)) e
      else if rc > BCMAX_C then finish (.abc .tsetb ra var.info (rc - (BCMAX_C + 1))) e
      else
        -- Free late alloced key reg to avoid assert on free of value reg. The
        -- source does this inside the assertion itself.
        if !(e.k ≠ .vnonreloc ∨ ra < (← getFs).regs.nactvar ∨ rc < ra) then bcregFree rc
        finish (.abc .tsetv ra var.info rc) e
where
  finish (ins : BCIns) (e : ExpDesc) : EmitM ExpDesc := do
    let _ ← bcemitINS ins
    exprFree e
    pure e

/-- Emit method lookup expression. -/
def bcemitMethod (e key : ExpDesc) : EmitM ExpDesc := do
  let e ← exprToanyreg e
  let obj := e.info
  exprFree e
  let func := (← getFs).regs.freereg
  let _ ← bcemitAD .mov (func + 1) obj  -- Copy object to 1st argument.
  let idx ← constStr key
  if idx ≤ BCMAX_C then
    bcregReserve 2
    let _ ← bcemitABC .tgets func obj idx
  else
    bcregReserve 3
    let _ ← bcemitAD .kstr (func + 2) idx
    let _ ← bcemitABC .tgetv func obj (func + 2)
    decFreereg
  pure { e with info := func, k := .vnonreloc }

end TvmJit
