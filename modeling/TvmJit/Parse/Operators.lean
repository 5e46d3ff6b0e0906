import TvmJit.Parse.Emit

/-! The bytecode emitter for branches and for operators. -/

namespace TvmJit

/-! ## Branches -/

/-- Invert branch condition of bytecode instruction. -/
def invertcond (e : ExpDesc) : EmitM Unit :=
  changeIns (e.info - 1) fun ins => ins.setOp ins.op.flip

/-- Whether the value of `e` is the result of a pending `op` instruction. -/
def isPending (e : ExpDesc) (op : BCOp) : EmitM Bool := do
  if e.k = .vrelocable then pure ((← bcAt e.info).op == op) else pure false

/-- Emit a test that copies the tested value, and its jump. -/
def bcemitTest (e : ExpDesc) (cond : Bool) : EmitM BCPos := do
  let e ←
    if e.k ≠ .vnonreloc then do
      bcregReserve 1
      exprToregNobranch e (u32 ((← getFs).regs.freereg - 1))
    else pure e
  let _ ← bcemitAD (if cond then .istc else .isfc) NO_REG e.info
  let pc ← bcemitJmp
  exprFree e
  pure pc

/-- Emit conditional branch. -/
def bcemitBranch (e : ExpDesc) (cond : Bool) : EmitM BCPos := do
  if ← isPending e .not then
    changeIns e.info fun ins => .ad (if cond then .isf else .ist) 0 ins.d
    bcemitJmp
  else
    bcemitTest e cond

/-- The jump of a constant that always takes the branch. -/
def bcemitConstBranch (e : ExpDesc) : EmitM BCPos := do
  let _ ← exprToregNobranch e NO_REG
  bcemitJmp

/-- Emit branch on true condition. -/
def bcemitBranchT (e : ExpDesc) : EmitM ExpDesc := do
  let e ← exprDischarge e
  let pc ← match e.k with
    | .vkstr | .vknum | .vktrue => pure NO_JMP  -- Never jump.
    | .vjmp => do
        invertcond e
        pure e.info
    | .vkfalse | .vknil => bcemitConstBranch e
    | _ => bcemitBranch e false
  let f ← jmpAppend e.f pc
  jmpTohere e.t
  pure { e with f := f, t := NO_JMP }

/-- Emit branch on false condition. -/
def bcemitBranchF (e : ExpDesc) : EmitM ExpDesc := do
  let e ← exprDischarge e
  let pc ← match e.k with
    | .vknil | .vkfalse => pure NO_JMP  -- Never jump.
    | .vjmp => pure e.info
    | .vkstr | .vknum | .vktrue => bcemitConstBranch e
    | _ => bcemitBranch e true
  let t ← jmpAppend e.t pc
  jmpTohere e.f
  pure { e with t := t, f := NO_JMP }

/-! ## Operators -/

/-- Binary operators, in the order of the source. -/
inductive BinOpr
  | add | sub | mul | div | mod | pow
  | concat
  | ne | eq
  | lt | ge | le | gt
  | and | or
  deriving DecidableEq, Repr

/-- `op <= OPR_POW`, with the number `lj_vm_foldarith` knows the operator by. -/
def BinOpr.arith : BinOpr → Option ArithOp
  | .add => some .add
  | .sub => some .sub
  | .mul => some .mul
  | .div => some .div
  | .mod => some .mod
  | .pow => some .pow
  | _ => none

/-- `op - BC_ADDVV` for an arithmetic operator. -/
def ArithOp.code (opr : ArithOp) : Nat := opr.ctorIdx

/-- Try constant-folding of arithmetic operators. -/
def foldarith [Vm] (opr : ArithOp) (e1 e2 : ExpDesc) : Option ExpDesc :=
  if !e1.isnumkNojump || !e2.isnumkNojump then none
  else
    let n := Vm.foldarith opr e1.nval e2.nval
    if n.isNan || n.isMzero then none  -- Avoid NaN and -0 as consts.
    else some { e1 with nval := n }

/-- `opr - OPR_ADD + base`. -/
def ArithOp.op (opr : ArithOp) (base : BCOp) : BCOp := .ofCode (opr.code + base.code)

/-- A number constant that fits into the operand of the instruction. -/
def constOperand (e : ExpDesc) (max : Nat) : EmitM (Option BCReg) := do
  if e.isnumk then
    let idx ← constNum e
    pure (if idx ≤ max then some idx else none)
  else pure none

/-- An instruction on two operands: its opcode, the operands as discharged and
the fields B and C. -/
structure Binary where
  op : BCOp
  e1 : ExpDesc
  e2 : ExpDesc
  b : Nat
  c : Nat

/-- The operands of an arithmetic operator when the second one is no constant:
in registers, or the first one a constant. -/
def arithOperandsReg (opr : ArithOp) (e1 e2 : ExpDesc) : EmitM Binary := do
  let e2 ← exprToanyreg e2
  let e1 ← exprToval e1
  -- Avoid two consts to satisfy bytecode constraints.
  match ← constOperand e1 BCMAX_B with
  | some t => pure ⟨opr.op .addnv, e1, e2, e2.info, t⟩
  | none =>
      let e1 ← exprToanyreg e1
      pure ⟨opr.op .addvv, e1, e2, e1.info, e2.info⟩

/-- The operands of an arithmetic operator. -/
def arithOperands (opr : ArithOp) (e1 e2 : ExpDesc) : EmitM Binary := do
  if opr = .pow then
    let e2 ← exprToanyreg e2
    let e1 ← exprToanyreg e1
    pure ⟨.pow, e1, e2, e1.info, e2.info⟩
  else
    -- Must discharge 2nd operand first since VINDEXED might free regs.
    let e2 ← exprToval e2
    match ← constOperand e2 BCMAX_C with
    | some rc =>
        let e1 ← exprToanyreg (← exprToval e1)
        pure ⟨opr.op .addvn, e1, e2, e1.info, rc⟩
    | none => arithOperandsReg opr e1 e2

/-- Emit arithmetic operator, the operands not folded. -/
def bcemitArithOp (opr : ArithOp) (e1 e2 : ExpDesc) : EmitM ExpDesc := do
  let bin ← arithOperands opr e1 e2
  exprFreeUnordered bin.e1
  exprFreeUnordered bin.e2
  pure { bin.e1 with info := ← bcemitABC bin.op 0 bin.b bin.c, k := .vrelocable }

/-- Emit arithmetic operator. -/
def bcemitArith [Vm] (opr : ArithOp) (e1 e2 : ExpDesc) : EmitM ExpDesc :=
  match foldarith opr e1 e2 with
  | some e => pure e
  | none => bcemitArithOp opr e1 e2

/-- The comparison with `e2`, after the operands are discharged, and the jump
that becomes the value of `eret`. -/
def bcemitCompJmp (ins : BCIns) (e1 e2 eret : ExpDesc) : EmitM ExpDesc := do
  exprFreeUnordered e1
  exprFreeUnordered e2
  let _ ← bcemitINS ins
  pure { eret with info := ← bcemitJmp, k := .vjmp }

/-- `==` and `!=`, the constant operand (if any) second. -/
def bcemitCompEq (op : BCOp) (e1 e2 : ExpDesc) : EmitM (BCIns × ExpDesc × ExpDesc) := do
  let e1 ← exprToanyreg e1  -- First arg must be in a reg.
  let ra := e1.info
  let e2 ← exprToval e2
  match e2.k with
  | .vknil | .vkfalse | .vktrue =>
      pure (.ad (op.shift .iseqv .iseqp) ra (constPri e2.k), e1, e2)
  | .vkstr => pure (.ad (op.shift .iseqv .iseqs) ra (← constStr e2), e1, e2)
  | .vknum => pure (.ad (op.shift .iseqv .iseqn) ra (← constNum e2), e1, e2)
  | _ =>
      let e2 ← exprToanyreg e2
      pure (.ad op ra e2.info, e1, e2)

/-- The ordering comparisons, both operands in registers. -/
def bcemitCompOrd (op : BCOp) (e1 e2 : ExpDesc) : EmitM (BCIns × ExpDesc × ExpDesc) := do
  let e2 ← exprToanyreg e2
  let e1 ← exprToanyreg e1
  pure (.ad op e1.info e2.info, e1, e2)

/-- `opr - OPR_LT + BC_ISLT`. -/
def BinOpr.ordOp (opr : BinOpr) : BCOp :=
  .ofCode (opr.ctorIdx - BinOpr.lt.ctorIdx + BCOp.islt.code)

/-- Emit comparison operator. -/
def bcemitComp (opr : BinOpr) (e1 e2 : ExpDesc) : EmitM ExpDesc := do
  let e1 ← exprToval e1
  if opr = .eq ∨ opr = .ne then
    let op : BCOp := if opr = .eq then .iseqv else .isnev
    if e1.isk then  -- Need constant in 2nd arg.
      let (ins, e2, e1) ← bcemitCompEq op e2 e1
      bcemitCompJmp ins e2 e1 e1
    else
      let (ins, e1, e2) ← bcemitCompEq op e1 e2
      bcemitCompJmp ins e1 e2 e1
  else
    let op := opr.ordOp
    if (op.code - BCOp.islt.code) % 2 = 1 then  -- GT -> LT, GE -> LE
      let op := BCOp.ofCode (((op.code - BCOp.islt.code) ^^^ 3) + BCOp.islt.code)
      let e2 ← exprToval e2
      let (ins, e2, e1) ← bcemitCompOrd op e2 e1
      bcemitCompJmp ins e2 e1 e1
    else
      let (ins, e1, e2) ← bcemitCompOrd op e1 e2
      bcemitCompJmp ins e1 e2 e1

/-- Fixup left side of binary operator. -/
def bcemitBinopLeft (op : BinOpr) (e : ExpDesc) : EmitM ExpDesc := do
  match op with
  | .and => bcemitBranchT e
  | .or => bcemitBranchF e
  | .concat => exprTonextreg e
  | .eq | .ne => if !e.iskNojump then exprToanyreg e else pure e
  | _ => if !e.isnumkNojump then exprToanyreg e else pure e

/-- Emit concatenation. -/
def bcemitConcat (e1 e2 : ExpDesc) : EmitM ExpDesc := do
  let e2 ← exprToval e2
  if ← isPending e2 .cat then
    exprFree e1
    changeIns e2.info (·.setB e1.info)
    pure { e1 with info := e2.info, k := .vrelocable }
  else
    let e2 ← exprTonextreg e2
    exprFree e2
    exprFree e1
    pure { e1 with info := ← bcemitABC .cat 0 e1.info e2.info, k := .vrelocable }

/-- Emit binary operator. -/
def bcemitBinop [Vm] (op : BinOpr) (e1 e2 : ExpDesc) : EmitM ExpDesc := do
  match op.arith with
  | some opr => bcemitArith opr e1 e2
  | none =>
      match op with
      | .and =>
          let e2 ← exprDischarge e2
          pure { e2 with f := ← jmpAppend e2.f e1.f }
      | .or =>
          let e2 ← exprDischarge e2
          pure { e2 with t := ← jmpAppend e2.t e1.t }
      | .concat => bcemitConcat e1 e2
      | _ => bcemitComp op e1 e2

/-- `BC_NOT`: swap true and false lists and negate the value. -/
def bcemitNot (e : ExpDesc) : EmitM ExpDesc := do
  let e := { e with t := e.f, f := e.t }
  jmpDropval e.f
  jmpDropval e.t
  let e ← exprDischarge e
  match e.k with
  | .vknil | .vkfalse => pure { e with k := .vktrue }
  | .vktrue | .vkstr | .vknum | .vkcdata => pure { e with k := .vkfalse }
  | .vjmp =>
      invertcond e
      pure e
  | .vrelocable =>
      bcregReserve 1
      let reg := u32 ((← getFs).regs.freereg - 1)
      changeIns e.info (·.setA reg)
      finish { e with info := reg, k := .vnonreloc }
  | _ => finish e
where
  finish (e : ExpDesc) : EmitM ExpDesc := do
    exprFree e
    pure { e with info := ← bcemitAD .not 0 e.info, k := .vrelocable }

/-- In-place negation of a cdata literal. -/
def GCcdata.neg : GCcdata → GCcdata
  | .int64 value => .int64 (-value)
  | .uint64 value => .uint64 (-value)
  | .complex im => .complex im.flipSign

/-- `BC_UNM` and `BC_LEN`. -/
def bcemitUnmLen (op : BCOp) (e : ExpDesc) : EmitM ExpDesc := do
  if op = .unm ∧ !e.hasjump ∧ e.k = .vkcdata then
    pure { e with cd := e.cd.neg }
  else if op = .unm ∧ !e.hasjump ∧ e.isnumk ∧ !e.numiszero then  -- Avoid folding to -0.
    pure { e with nval := e.nval.flipSign }
  else
    let e ← exprToanyreg e
    exprFree e
    pure { e with info := ← bcemitAD op 0 e.info, k := .vrelocable }

/-- Emit unary operator. -/
def bcemitUnop (op : BCOp) (e : ExpDesc) : EmitM ExpDesc :=
  if op = .not then bcemitNot e else bcemitUnmLen op e

/-- Emit call. -/
def bcemitCall (e args : ExpDesc) : EmitM ExpDesc := do
  let line := (← get).linenumber
  let base := e.info  -- Base register for call.
  let ins ←
    if args.k = .vcall then
      pure (BCIns.abc .callm base 2 (u32 (args.aux - base - 1)))
    else do
      if args.k ≠ .vvoid then
        let _ ← exprTonextreg args
      pure (BCIns.abc .call base 2 (u32 ((← getFs).regs.freereg - base)))
  let pc ← bcemitINS ins
  setLine pc line
  lowerFreereg (base + 1)  -- Leave one result by default.
  pure { ExpDesc.init .vcall pc with aux := base }

end TvmJit
