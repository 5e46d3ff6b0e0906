import TvmJit.Parse.Statement
import TvmJit.Foundation.Moves

/-! The single steps a compilation is made of. Every function of the compiler is
a sequence of these, so that what each of them preserves holds in every state a
compilation reaches. -/

namespace TvmJit

open Foundation Relation

/-! ## Steps on the code of a function -/

inductive CodeStep : Code → Code → Prop
  | push (c : Code) (line : BCLine) (ins : BCIns) :
      CodeStep c { c with bcbase := Function.update c.bcbase c.pc ⟨ins, line⟩, pc := c.pc + 1 }
  | drop (c : Code) : CodeStep c { c with pc := c.pc - 1 }
  | put (c : Code) (pc : BCPos) (ins : BCIns) : CodeStep c (c.setIns pc ins)
  | line (c : Code) (pc : BCPos) (line : BCLine) :
      CodeStep c { c with bcbase := Function.update c.bcbase pc { c.bcbase pc with line := line } }
  | target (c : Code) : CodeStep c { c with lasttarget := c.pc }
  | jpc (c : Code) (list : BCPos) : CodeStep c { c with jpc := list }

abbrev CodeMoves (m : CodeM α) : Prop := Moves CodeStep m

@[grind ←] instance putIns_moves (pc : BCPos) (ins : BCIns) : CodeMoves (putIns pc ins) :=
  .of_modify fun c => .put c pc ins

@[grind ←] instance pushIns_moves (line : BCLine) (ins : BCIns) : CodeMoves (pushIns line ins) :=
  .of_modify fun c => .push c line ins

@[grind ←] instance dropIns_moves : CodeMoves dropIns := .of_modify .drop

@[grind ←] instance setLine_moves (pc : BCPos) (line : BCLine) : CodeMoves (setLine pc line) :=
  .of_modify fun c => .line c pc line

@[grind ←] instance markTarget_moves : CodeMoves markTarget := .of_modify .target

@[grind ←] instance setJpc_moves (list : BCPos) : CodeMoves (setJpc list) :=
  .of_modify fun c => .jpc c list

@[grind ←] instance bcAt_moves (pc : BCPos) : CodeMoves (bcAt pc) := by
  unfold bcAt; grind

@[grind ←] instance setBc_moves (pc : BCPos) (ins : BCIns) : CodeMoves (setBc pc ins) := by
  unfold setBc; grind

@[grind ←] instance jmpNext_moves (pc : BCPos) : CodeMoves (jmpNext pc) := by
  unfold jmpNext; grind

@[grind ←] instance jmpNovalueFrom_moves (fuel : Nat) (list : BCPos) :
    CodeMoves (jmpNovalueFrom fuel list) := by
  induction fuel generalizing list with
  | zero => exact .throw _
  | succ fuel induction => unfold jmpNovalueFrom; grind

@[grind ←] instance jmpNovalue_moves (list : BCPos) : CodeMoves (jmpNovalue list) := by
  unfold jmpNovalue; grind

@[grind ←] instance jmpPatchtestreg_moves (pc : BCPos) (reg : BCReg) :
    CodeMoves (jmpPatchtestreg pc reg) := by
  unfold jmpPatchtestreg; grind

@[grind ←] instance jmpDropvalFrom_moves (fuel : Nat) (list : BCPos) :
    CodeMoves (jmpDropvalFrom fuel list) := by
  induction fuel generalizing list with
  | zero => exact .throw _
  | succ fuel induction => unfold jmpDropvalFrom; grind

@[grind ←] instance jmpDropval_moves (list : BCPos) : CodeMoves (jmpDropval list) := by
  unfold jmpDropval; grind

@[grind ←] instance jmpPatchins_moves (pc dest : BCPos) : CodeMoves (jmpPatchins pc dest) := by
  unfold jmpPatchins; grind

@[grind ←] instance jmpLastFrom_moves (fuel : Nat) (list : BCPos) :
    CodeMoves (jmpLastFrom fuel list) := by
  induction fuel generalizing list with
  | zero => exact .throw _
  | succ fuel induction => unfold jmpLastFrom; grind

@[grind ←] instance jmpAppend_moves (l1 l2 : BCPos) : CodeMoves (jmpAppend l1 l2) := by
  unfold jmpAppend; grind

@[grind ←] instance jmpPatchvalFrom_moves (fuel : Nat) (list vtarget : BCPos) (reg : BCReg)
    (dtarget : BCPos) : CodeMoves (jmpPatchvalFrom fuel list vtarget reg dtarget) := by
  induction fuel generalizing list with
  | zero => exact .throw _
  | succ fuel induction => unfold jmpPatchvalFrom; grind

@[grind ←] instance jmpPatchval_moves (list vtarget : BCPos) (reg : BCReg) (dtarget : BCPos) :
    CodeMoves (jmpPatchval list vtarget reg dtarget) := by
  unfold jmpPatchval; grind

@[grind ←] instance jmpTohere_moves (list : BCPos) : CodeMoves (jmpTohere list) := by
  unfold jmpTohere; grind

@[grind ←] instance jmpPatch_moves (list target : BCPos) : CodeMoves (jmpPatch list target) := by
  unfold jmpPatch; grind

@[grind ←] instance emitIns_moves (line : BCLine) (ins : BCIns) : CodeMoves (emitIns line ins) := by
  unfold emitIns; grind

@[grind ←] instance emitJmp_moves (line : BCLine) (freereg : BCReg) :
    CodeMoves (emitJmp line freereg) := by
  unfold emitJmp; grind

/-! ## Steps of the compilation -/

/-- The operand is what the compiler puts for this number, given the constants. -/
def NumUse.Grounded (consts : Consts) (use : NumUse) : Prop :=
  let k := use.literal.num2int
  match use.operand with
  | .short d => checki16 k = true ∧ use.literal.eq (.ofInt k) = true ∧ d = (k % 65536).toNat
  | .slot idx => ∃ key, tabKey (.num use.literal) = .ok key ∧ (key, idx) ∈ consts.kt
  | .byte c => checku8 k = true ∧ use.literal.eq (.ofInt k) = true ∧ c = k.toNat
  | .key key => tabKey (.num use.literal) = .ok key
  | .value value => value = .num use.literal

def LexState.setFs (ls : LexState) (fs : FuncState) : LexState := { ls with fs := fs }

/-- A new constant: a number goes to the next number slot, an object to the next
object slot. -/
inductive NewConst (consts : Consts) : Consts → Prop
  | number {key : TabKey} (value : Num) (numeric : tabKey (.num value) = .ok key)
      (fresh : consts.kt.lookup key = none) :
      NewConst consts ⟨(key, consts.nkn) :: consts.kt, consts.nkn + 1, consts.nkgc⟩
  | object (o : GCobj) (fresh : consts.kt.lookup (.obj o) = none) :
      NewConst consts ⟨(.obj o, consts.nkgc) :: consts.kt, consts.nkn, consts.nkgc + 1⟩

/-- What looking up a variable may change in a function: its upvalues, and the
scopes marked for holding a captured variable. -/
def FuncState.Captures (fs fs' : FuncState) : Prop :=
  ∃ bl uvmap uvtmp, fs' = { fs with bl := bl, uvmap := uvmap, uvtmp := uvtmp }

inductive Step : LexState → LexState → Prop
  | token (ls : LexState) : Step ls ls.next
  | failed (ls : LexState) (site : AssertSite) :
      Step ls { ls with failed := ls.failed ++ [site] }
  | code {ls : LexState} {code : Code} (step : CodeStep ls.fs.code code) :
      Step ls (ls.setCode code)
  | regs (ls : LexState) (regs : Regs) : Step ls (ls.setFs { ls.fs with regs := regs })
  | flags (ls : LexState) (flags : ProtoFlags) : Step ls (ls.setFs { ls.fs with flags := flags })
  | scopes (ls : LexState) (bl : List FuncScope) : Step ls (ls.setFs { ls.fs with bl := bl })
  | numparams (ls : LexState) (n : Nat) : Step ls (ls.setFs { ls.fs with numparams := n })
  | varmap (ls : LexState) (varmap : Nat → VarIndex) :
      Step ls (ls.setFs { ls.fs with varmap := varmap })
  | const {ls : LexState} {consts : Consts} (new : NewConst ls.fs.consts consts) :
      Step ls (ls.setFs { ls.fs with consts := consts })
  | use {ls : LexState} {use : NumUse} (grounded : use.Grounded ls.fs.consts) :
      Step ls (ls.setFs { ls.fs with uses := use :: ls.fs.uses })
  | capture {ls : LexState} {fs : FuncState} {prev : List FuncState}
      (captures : ls.fs.Captures fs) (outer : List.Forall₂ FuncState.Captures ls.prev prev) :
      Step ls { ls with fs := fs, prev := prev }
  | var (ls : LexState) (idx : VarIndex) (v : VarInfo) :
      Step ls { ls with vstack := Function.update ls.vstack idx v }
  | vtop (ls : LexState) (vtop : VarIndex) : Step ls { ls with vtop := vtop }
  | linenumber (ls : LexState) (line : BCLine) : Step ls { ls with linenumber := line }
  | lastline (ls : LexState) (line : BCLine) : Step ls { ls with lastline := line }
  | chunkname (ls : LexState) (name : GCstr) : Step ls { ls with chunkname := name }
  | tabs (ls : LexState) (tabs : List GCtab) : Step ls { ls with tabs := tabs }
  | enter (ls : LexState) (line : BCLine) :
      Step ls { ls with
        prev := ls.fs :: ls.prev
        fs := .fresh ls.vtop (ls.fs.code.bcofs + ls.fs.code.pc) line }
  | finish (ls : LexState) (numline : BCLine) (small : ls.fs.consts.nkn ≤ BCMAX_D + 1) :
      Step ls (ls.popFunction (ls.toProto numline))

abbrev EmitMoves (m : EmitM α) : Prop := Moves Step m

@[grind ←] theorem lift_moves {m : CodeM α} (moves : CodeMoves m) :
    EmitMoves (liftM m : EmitM α) := by
  refine ⟨fun ls => ?_⟩
  have steps := moves.run ls.fs.code
  change ReflTransGen Step ls (finalState (inCode m ls))
  unfold inCode
  have lifted {c c' : Code} (steps : ReflTransGen CodeStep c c') :
      ReflTransGen Step (ls.setCode c) (ls.setCode c') := by
    induction steps with
    | refl => exact .refl
    | tail _ last induction => exact induction.tail (.code last)
  cases run : m ls.fs.code <;> rw [run] at steps <;> exact lifted steps

/-! ### Small steps -/

@[grind ←] instance getFs_moves : EmitMoves getFs := by unfold getFs; grind

@[grind ←] instance modifyRegs_moves (change : Regs → Regs) : EmitMoves (modifyRegs change) :=
  .of_modify fun ls => .regs ls (change ls.fs.regs)

@[grind ←] instance modifyFlags_moves (change : ProtoFlags → ProtoFlags) :
    EmitMoves (modifyFlags change) :=
  .of_modify fun ls => .flags ls (change ls.fs.flags)

@[grind ←] instance modifyScopes_moves (change : List FuncScope → List FuncScope) :
    EmitMoves (modifyScopes change) :=
  .of_modify fun ls => .scopes ls (change ls.fs.bl)

@[grind ←] instance setNumparams_moves (n : Nat) : EmitMoves (setNumparams n) :=
  .of_modify fun ls => .numparams ls n

@[grind ←] instance setVarmap_moves (i : Nat) (idx : VarIndex) : EmitMoves (setVarmap i idx) :=
  .of_modify fun ls => .varmap ls _

@[grind ←] instance setVar_moves (idx : VarIndex) (change : VarInfo → VarInfo) :
    EmitMoves (setVar idx change) :=
  .of_modify fun ls => .var ls idx (change (ls.vstack idx))

@[grind ←] instance setVtop_moves (vtop : VarIndex) : EmitMoves (setVtop vtop) :=
  .of_modify fun ls => .vtop ls vtop

@[grind ←] instance setLinenumber_moves (line : BCLine) : EmitMoves (setLinenumber line) :=
  .of_modify fun ls => .linenumber ls line

@[grind ←] instance setLastline_moves (line : BCLine) : EmitMoves (setLastline line) :=
  .of_modify fun ls => .lastline ls line

@[grind ←] instance setChunkname_moves (name : GCstr) : EmitMoves (setChunkname name) :=
  .of_modify fun ls => .chunkname ls name

@[grind ←] instance modifyTabs_moves (change : List GCtab → List GCtab) :
    EmitMoves (modifyTabs change) :=
  .of_modify fun ls => .tabs ls (change ls.tabs)

@[grind ←] instance lexNext_moves : EmitMoves lexNext := .of_modify .token

@[grind ←] instance fsInit_moves (line : BCLine) : EmitMoves (fsInit line) :=
  .of_modify fun ls => .enter ls line

@[grind ←] instance luaAssert_moves (site : AssertSite) (holds : Bool) :
    EmitMoves (luaAssert site holds) := by
  cases holds with
  | true => exact ⟨fun _ => .refl⟩
  | false => exact .of_modify fun ls => .failed ls site

@[grind ←] instance errSyntax_moves (em : ErrMsg) : EmitMoves (errSyntax em : EmitM α) := by
  unfold errSyntax; grind

@[grind ←] instance errLex_moves (em : ErrMsg) : EmitMoves (errLex em : EmitM α) := by
  unfold errLex; grind

@[grind ←] instance errLimit_moves (limit : Nat) (what : String) :
    EmitMoves (errLimit limit what : EmitM α) := by
  unfold errLimit; grind

/-! ### Constants -/

theorem recordUse_moves {literal : Num} {operand : NumOperand}
    (grounded : ∀ consts, NumUse.Grounded consts ⟨literal, operand⟩) :
    EmitMoves (recordUse literal operand) :=
  .of_modify fun ls => .use (grounded ls.fs.consts)

@[grind ←] theorem recordShort_moves {n : Num} (fits : checki16 n.num2int = true)
    (integer : n.eq (.ofInt n.num2int) = true) :
    EmitMoves (recordUse n (.short (n.num2int % 65536).toNat)) :=
  recordUse_moves fun _ => ⟨fits, integer, rfl⟩

@[grind ←] theorem recordByte_moves {n : Num} (fits : checku8 n.num2int = true)
    (integer : n.eq (.ofInt n.num2int) = true) :
    EmitMoves (recordUse n (.byte n.num2int.toNat)) :=
  recordUse_moves fun _ => ⟨fits, integer, rfl⟩

@[grind ←] theorem recordKey_moves {n : Num} {key : TabKey} (isKey : tabKey (.num n) = .ok key) :
    EmitMoves (recordUse n (.key key)) :=
  recordUse_moves fun _ => isKey

@[grind ←] instance recordValue_moves (n : Num) : EmitMoves (recordUse n (.value (.num n))) :=
  recordUse_moves fun _ => rfl

@[grind ←] instance liftKey_moves (key : Except ErrMsg TabKey) : EmitMoves (liftKey key) := by
  unfold liftKey; grind

@[grind ←] theorem liftKey_bind {key : Except ErrMsg TabKey} {next : TabKey → EmitM α}
    (rest : ∀ k, key = .ok k → EmitMoves (next k)) : EmitMoves (liftKey key >>= next) := by
  cases key with
  | ok k => exact rest k rfl
  | error em => exact ⟨fun _ => .refl⟩

theorem mem_of_lookup {kt : List (TabKey × Nat)} {key : TabKey} {slot : Nat}
    (found : kt.lookup key = some slot) : (key, slot) ∈ kt := by
  induction kt with
  | nil => cases found
  | cons entry kt induction =>
      obtain ⟨key', slot'⟩ := entry
      rw [List.lookup_cons] at found
      by_cases same : key = key'
      · simp_all
      · have different : (key == key') = false := by simpa using same
        rw [different] at found
        exact .tail _ (induction found)

@[grind ←] instance constNum_moves (e : ExpDesc) : EmitMoves (constNum e) := by
  refine liftKey_bind fun key isKey => ⟨fun ls => ?_⟩
  change ReflTransGen Step ls (finalState ((match ls.fs.consts.kt.lookup key with
    | some slot => do
        recordUse e.nval (.slot slot)
        pure slot
    | none => do
        addConst key ls.fs.consts.nkn (ls.fs.consts.nkn + 1) ls.fs.consts.nkgc
        recordUse e.nval (.slot ls.fs.consts.nkn)
        pure ls.fs.consts.nkn : EmitM BCReg) ls))
  cases found : ls.fs.consts.kt.lookup key with
  | some slot => exact .single (.use ⟨key, isKey, mem_of_lookup found⟩)
  | none =>
      exact .tail (.single (.const (.number e.nval isKey found))) (.use ⟨key, isKey, .head _⟩)

@[grind ←] instance constGc_moves (o : GCobj) : EmitMoves (constGc o) := by
  refine ⟨fun ls => ?_⟩
  change ReflTransGen Step ls (finalState ((match ls.fs.consts.kt.lookup (.obj o) with
    | some slot => pure slot
    | none => do
        addConst (.obj o) ls.fs.consts.nkgc ls.fs.consts.nkn (ls.fs.consts.nkgc + 1)
        pure ls.fs.consts.nkgc : EmitM BCReg) ls))
  cases found : ls.fs.consts.kt.lookup (.obj o) with
  | some slot => exact .refl
  | none => exact .single (.const (.object o found))

@[grind ←] instance constStr_moves (e : ExpDesc) : EmitMoves (constStr e) := by
  unfold constStr; grind

@[grind ←] instance constCdata_moves (e : ExpDesc) : EmitMoves (constCdata e) := by
  unfold constCdata; grind

/-! ### Registers and instructions -/

@[grind ←] instance lowerFreereg_moves (freereg : BCReg) : EmitMoves (lowerFreereg freereg) := by
  unfold lowerFreereg; grind

@[grind ←] instance decFreereg_moves : EmitMoves decFreereg := by
  unfold decFreereg; grind

@[grind ←] instance bcregBump_moves (n : BCReg) : EmitMoves (bcregBump n) := by
  unfold bcregBump; grind

@[grind ←] instance bcregReserve_moves (n : BCReg) : EmitMoves (bcregReserve n) := by
  unfold bcregReserve; grind

@[grind ←] instance bcregFree_moves (reg : BCReg) : EmitMoves (bcregFree reg) := by
  unfold bcregFree; grind

@[grind ←] instance exprFree_moves (e : ExpDesc) : EmitMoves (exprFree e) := by
  unfold exprFree; grind

@[grind ←] instance exprFreeUnordered_moves (e : ExpDesc) : EmitMoves (exprFreeUnordered e) := by
  unfold exprFreeUnordered; grind

@[grind ←] instance bcemitINS_moves (ins : BCIns) : EmitMoves (bcemitINS ins) := by
  unfold bcemitINS; grind

@[grind ←] instance bcemitABC_moves (op : BCOp) (a b c : Nat) : EmitMoves (bcemitABC op a b c) := by
  unfold bcemitABC; grind

@[grind ←] instance bcemitAD_moves (op : BCOp) (a d : Nat) : EmitMoves (bcemitAD op a d) := by
  unfold bcemitAD; grind

@[grind ←] instance bcemitAJ_moves (op : BCOp) (a : Nat) (j : Int) : EmitMoves (bcemitAJ op a j) := by
  unfold bcemitAJ; grind

@[grind ←] instance changeIns_moves (pc : BCPos) (change : BCIns → BCIns) : EmitMoves (changeIns pc change) := by
  unfold changeIns; grind

@[grind ←] instance exprDischarge_reloc_moves (e : ExpDesc) (ins : BCIns) :
    EmitMoves (exprDischarge.reloc e ins) := by
  unfold exprDischarge.reloc; grind

@[grind ←] instance exprDischarge_moves (e : ExpDesc) : EmitMoves (exprDischarge e) := by
  unfold exprDischarge; grind

@[grind ←] instance bcemitNil_moves (reg n : BCReg) : EmitMoves (bcemitNil reg n) := by
  unfold bcemitNil; grind

@[grind ←] instance exprToregNobranch_moves (e : ExpDesc) (reg : BCReg) : EmitMoves (exprToregNobranch e reg) := by
  unfold exprToregNobranch; grind

@[grind ←] instance bcemitJmp_moves : EmitMoves bcemitJmp := by
  unfold bcemitJmp; grind

@[grind ←] instance exprNovalue_moves (e : ExpDesc) : EmitMoves (exprNovalue e) := by
  unfold exprNovalue; grind

@[grind ←] instance exprBoolvalues_moves (e : ExpDesc) (reg : BCReg) : EmitMoves (exprBoolvalues e reg) := by
  unfold exprBoolvalues; grind

@[grind ←] instance exprToregBranches_moves (e : ExpDesc) (reg : BCReg) : EmitMoves (exprToregBranches e reg) := by
  unfold exprToregBranches; grind

@[grind ←] instance exprToreg_moves (e : ExpDesc) (reg : BCReg) : EmitMoves (exprToreg e reg) := by
  unfold exprToreg; grind

@[grind ←] instance exprTonextreg_moves (e : ExpDesc) : EmitMoves (exprTonextreg e) := by
  unfold exprTonextreg; grind

@[grind ←] instance exprToanyreg_moves (e : ExpDesc) : EmitMoves (exprToanyreg e) := by
  unfold exprToanyreg; grind

@[grind ←] instance exprToval_moves (e : ExpDesc) : EmitMoves (exprToval e) := by
  unfold exprToval; grind

@[grind ←] instance markRw_moves (idx : VarIndex) : EmitMoves (markRw idx) := by
  unfold markRw; grind

@[grind ←] instance bcemitStore_finish_moves (ins : BCIns) (e : ExpDesc) :
    EmitMoves (bcemitStore.finish ins e) := by
  unfold bcemitStore.finish; grind

@[grind ←] instance bcemitStore_moves (var e : ExpDesc) : EmitMoves (bcemitStore var e) := by
  unfold bcemitStore; grind

@[grind ←] instance bcemitMethod_moves (e key : ExpDesc) : EmitMoves (bcemitMethod e key) := by
  unfold bcemitMethod
  repeat' with_reducible refine .bind ?_ fun _ => ?_
  all_goals grind

/-! ### Branches and operators -/

@[grind ←] instance invertcond_moves (e : ExpDesc) : EmitMoves (invertcond e) := by
  unfold invertcond; grind

@[grind ←] instance isPending_moves (e : ExpDesc) (op : BCOp) : EmitMoves (isPending e op) := by
  unfold isPending; grind

@[grind ←] instance bcemitTest_moves (e : ExpDesc) (cond : Bool) :
    EmitMoves (bcemitTest e cond) := by
  unfold bcemitTest; grind

@[grind ←] instance bcemitBranch_moves (e : ExpDesc) (cond : Bool) :
    EmitMoves (bcemitBranch e cond) := by
  unfold bcemitBranch; grind

@[grind ←] instance bcemitConstBranch_moves (e : ExpDesc) : EmitMoves (bcemitConstBranch e) := by
  unfold bcemitConstBranch; grind

@[grind ←] instance bcemitBranchT_moves (e : ExpDesc) : EmitMoves (bcemitBranchT e) := by
  unfold bcemitBranchT; grind

@[grind ←] instance bcemitBranchF_moves (e : ExpDesc) : EmitMoves (bcemitBranchF e) := by
  unfold bcemitBranchF; grind

@[grind ←] instance constOperand_moves (e : ExpDesc) (max : Nat) :
    EmitMoves (constOperand e max) := by
  unfold constOperand; grind

@[grind ←] instance arithOperandsReg_moves (opr : ArithOp) (e1 e2 : ExpDesc) :
    EmitMoves (arithOperandsReg opr e1 e2) := by
  unfold arithOperandsReg; grind

@[grind ←] instance arithOperands_moves (opr : ArithOp) (e1 e2 : ExpDesc) :
    EmitMoves (arithOperands opr e1 e2) := by
  unfold arithOperands; grind

@[grind ←] instance bcemitArithOp_moves (opr : ArithOp) (e1 e2 : ExpDesc) :
    EmitMoves (bcemitArithOp opr e1 e2) := by
  unfold bcemitArithOp; grind

@[grind ←] instance bcemitArith_moves [Vm] (opr : ArithOp) (e1 e2 : ExpDesc) :
    EmitMoves (bcemitArith opr e1 e2) := by
  unfold bcemitArith; grind

@[grind ←] instance bcemitCompJmp_moves (ins : BCIns) (e1 e2 eret : ExpDesc) :
    EmitMoves (bcemitCompJmp ins e1 e2 eret) := by
  unfold bcemitCompJmp; grind

@[grind ←] instance bcemitCompEq_moves (op : BCOp) (e1 e2 : ExpDesc) :
    EmitMoves (bcemitCompEq op e1 e2) := by
  unfold bcemitCompEq; grind

@[grind ←] instance bcemitCompOrd_moves (op : BCOp) (e1 e2 : ExpDesc) :
    EmitMoves (bcemitCompOrd op e1 e2) := by
  unfold bcemitCompOrd; grind

@[grind ←] instance bcemitComp_moves (opr : BinOpr) (e1 e2 : ExpDesc) :
    EmitMoves (bcemitComp opr e1 e2) := by
  unfold bcemitComp
  repeat' with_reducible refine .bind ?_ fun _ => ?_
  all_goals grind

@[grind ←] instance bcemitBinopLeft_moves (op : BinOpr) (e : ExpDesc) :
    EmitMoves (bcemitBinopLeft op e) := by
  unfold bcemitBinopLeft; grind

@[grind ←] instance bcemitConcat_moves (e1 e2 : ExpDesc) : EmitMoves (bcemitConcat e1 e2) := by
  unfold bcemitConcat; grind

@[grind ←] instance bcemitBinop_moves [Vm] (op : BinOpr) (e1 e2 : ExpDesc) :
    EmitMoves (bcemitBinop op e1 e2) := by
  unfold bcemitBinop; grind

@[grind ←] instance bcemitNot_finish_moves (e : ExpDesc) : EmitMoves (bcemitNot.finish e) := by
  unfold bcemitNot.finish; grind

@[grind ←] instance bcemitNot_moves (e : ExpDesc) : EmitMoves (bcemitNot e) := by
  unfold bcemitNot; grind

@[grind ←] instance bcemitUnmLen_moves (op : BCOp) (e : ExpDesc) :
    EmitMoves (bcemitUnmLen op e) := by
  unfold bcemitUnmLen; grind

@[grind ←] instance bcemitUnop_moves (op : BCOp) (e : ExpDesc) : EmitMoves (bcemitUnop op e) := by
  unfold bcemitUnop; grind

@[grind ←] instance bcemitCall_moves (e args : ExpDesc) : EmitMoves (bcemitCall e args) := by
  unfold bcemitCall; grind

/-! ### Tokens, variables and scopes -/

@[grind ←] instance errToken_moves (tok : TokenKind) : EmitMoves (errToken tok : EmitM α) := by
  unfold errToken; grind

@[grind ←] instance lexOpt_moves (tok : Token) : EmitMoves (lexOpt tok) := by
  unfold lexOpt; grind

@[grind ←] instance lexCheck_moves (tok : Token) (kind : TokenKind) :
    EmitMoves (lexCheck tok kind) := by
  unfold lexCheck; grind

@[grind ←] instance lexStr_moves : EmitMoves lexStr := by
  unfold lexStr; grind

@[grind ←] instance checkVstack_moves : EmitMoves checkVstack := by
  unfold checkVstack; grind

@[grind ←] instance varNew_moves (n : BCReg) (name : VarName) (final : Bool) :
    EmitMoves (varNew n name final) := by
  unfold varNew; grind

@[grind ←] instance varAdd_moves (nvars : BCReg) : EmitMoves (varAdd nvars) := by
  induction nvars with
  | zero => exact .pure _
  | succ nvars induction => unfold varAdd; grind

@[grind ←] instance varRemoveFrom_moves (tolevel : BCReg) (nactvar : Nat) :
    EmitMoves (varRemove.varRemoveFrom tolevel nactvar) := by
  induction nactvar with
  | zero => exact .pure _
  | succ nactvar induction => unfold varRemove.varRemoveFrom; grind

@[grind ←] instance varRemove_moves (tolevel : BCReg) : EmitMoves (varRemove tolevel) := by
  unfold varRemove; grind

theorem FuncState.Captures.refl (fs : FuncState) : fs.Captures fs := ⟨_, _, _, rfl⟩

theorem varLookupUv_captures {ls : LexState} {fs fs' : FuncState} {vidx : VarIndex} {e : ExpDesc}
    {i : Nat} (found : ls.varLookupUv fs vidx e = .ok (fs', i)) : fs.Captures fs' := by
  simp only [LexState.varLookupUv] at found
  split at found
  · obtain ⟨rfl, rfl⟩ := found
    exact .refl fs
  · split at found
    · cases found
    · obtain ⟨rfl, rfl⟩ := found
      exact ⟨_, _, _, rfl⟩

theorem varUpvalue_captures {ls : LexState} {fs : FuncState} {prev : List FuncState}
    {outer found : Found} (captures : List.Forall₂ FuncState.Captures prev outer.1)
    (result : ls.varUpvalue fs outer = .ok found) :
    List.Forall₂ FuncState.Captures (fs :: prev) found.1 := by
  obtain ⟨prev', e, vidx⟩ := outer
  cases vidx with
  | none =>
      obtain rfl := Except.ok.inj result
      exact .cons (.refl fs) captures
  | some v =>
      simp only [LexState.varUpvalue] at result
      split at result
      · next upvalue =>
          obtain rfl := Except.ok.inj result
          exact .cons (varLookupUv_captures upvalue) captures
      · cases result

theorem varLookup_captures {ls : LexState} {name : GCstr} {fss : List FuncState} :
    ∀ {first : Bool} {found : Found},
      ls.varLookup_ name fss first = .ok found → List.Forall₂ FuncState.Captures fss found.1 := by
  induction fss with
  | nil =>
      rintro first found ⟨⟩
      exact .nil
  | cons fs prev induction =>
      intro first found result
      rw [LexState.varLookup_] at result
      split at result
      · obtain rfl := Except.ok.inj result
        refine .cons ?_ (List.forall₂_same.mpr fun fs _ => .refl fs)
        cases first with
        | true => exact .refl fs
        | false => exact ⟨_, _, _, rfl⟩
      · split at result
        · next found' => exact varUpvalue_captures (induction found') result
        · cases result

@[grind ←] instance varLookup_moves : EmitMoves varLookup := by
  refine .bind lexStr_moves fun name => ⟨fun ls => ?_⟩
  change ReflTransGen Step ls (finalState ((match ls.varLookup_ name (ls.fs :: ls.prev) true with
    | .ok (fs :: prev, e, _) => do
        setFunctions fs prev
        pure e
    | .ok ([], e, _) => pure e
    | .error err => throw err : EmitM ExpDesc) ls))
  cases result : ls.varLookup_ name (ls.fs :: ls.prev) true with
  | error err => exact .refl
  | ok found =>
      obtain ⟨fss, e, vidx⟩ := found
      cases varLookup_captures result with
      | cons inner outer => exact .single (.capture inner outer)

@[grind ←] instance golaNew_moves (name : VarName) (isgoto : Bool) (pc : BCPos) :
    EmitMoves (golaNew name isgoto pc) := by
  unfold golaNew; grind

@[grind ←] instance golaPatch_moves (vg vl : VarIndex) : EmitMoves (golaPatch vg vl) := by
  unfold golaPatch; grind

@[grind ←] instance golaClose_moves (vg : VarIndex) : EmitMoves (golaClose vg) := by
  unfold golaClose; grind

@[grind ←] instance golaResolveOne_moves (idx vg : VarIndex) :
    EmitMoves (golaResolveOne idx vg) := by
  unfold golaResolveOne; grind

@[grind ←] instance golaResolve_moves (bl : FuncScope) (idx : VarIndex) :
    EmitMoves (golaResolve bl idx) := by
  unfold golaResolve; grind

@[grind ←] instance golaBackward_moves (bl : FuncScope) (name : VarName) (v vg : VarIndex) :
    EmitMoves (golaBackward bl name v vg) := by
  unfold golaBackward; grind

@[grind ←] instance golaPropagate_moves (bl : FuncScope) (name : VarName) (v : VarIndex) :
    EmitMoves (golaPropagate bl name v) := by
  unfold golaPropagate; grind

@[grind ←] instance golaUndefined_moves (name : VarName) (v : VarInfo) :
    EmitMoves (golaUndefined name v) := by
  unfold golaUndefined; grind

@[grind ←] instance golaFixupOne_moves (bl : FuncScope) (ve v : VarIndex) :
    EmitMoves (golaFixupOne bl ve v) := by
  unfold golaFixupOne; grind

@[grind ←] instance golaFixup_moves (bl : FuncScope) : EmitMoves (golaFixup bl) := by
  unfold golaFixup; grind

@[grind ←] instance golaFindlabel_moves (name : GCstr) : EmitMoves (golaFindlabel name) := by
  unfold golaFindlabel; grind

@[grind ←] instance fscopeBegin_moves (loop : Bool) : EmitMoves (fscopeBegin loop) := by
  unfold fscopeBegin; grind

@[grind ←] instance markScope_moves (change : FuncScope → FuncScope) :
    EmitMoves (markScope change) := by
  unfold markScope; grind

@[grind ←] instance currentScope_moves : EmitMoves currentScope := by
  unfold currentScope; grind

@[grind ←] instance fscopeEnd_moves : EmitMoves fscopeEnd := by
  unfold fscopeEnd
  repeat' with_reducible refine .bind ?_ fun _ => ?_
  all_goals grind

/-! ### Functions -/

@[grind ←] instance fsFixupRetFrom_moves (n : Nat) (pc : BCPos) :
    EmitMoves (fsFixupRetFrom n pc) := by
  induction n generalizing pc with
  | zero => exact .pure _
  | succ n induction => unfold fsFixupRetFrom; grind

@[grind ←] instance fsEndsInRet_moves : CodeMoves fsEndsInRet := by
  unfold fsEndsInRet; grind

@[grind ←] instance fsFixupRet_moves : EmitMoves fsFixupRet := by
  unfold fsFixupRet
  repeat' with_reducible refine .bind ?_ fun _ => ?_
  all_goals grind

@[grind ←] instance fsFinish_moves (line : BCLine) : EmitMoves (fsFinish line) := by
  refine .bind getFs_moves fun fs => .bind fsFixupRet_moves fun _ => ⟨fun ls => ?_⟩
  change ReflTransGen Step ls (finalState ((do
    if ls.fs.consts.nkn > BCMAX_D + 1 then errLimit (BCMAX_D + 1) "constants"
    if ls.fs.consts.nkgc > BCMAX_D + 1 then errLimit (BCMAX_D + 1) "constants"
    set (ls.popFunction (ls.toProto (line - fs.linedefined)))
    pure (ls.toProto (line - fs.linedefined)) : EmitM GCproto) ls))
  by_cases manyNumbers : ls.fs.consts.nkn > BCMAX_D + 1
  · rw [if_pos manyNumbers]
    exact .refl
  · rw [if_neg manyNumbers]
    by_cases manyObjects : ls.fs.consts.nkgc > BCMAX_D + 1
    · rw [if_pos manyObjects]
      exact .refl
    · rw [if_neg manyObjects]
      exact .single (.finish ls _ (Nat.le_of_not_lt manyNumbers))

/-! ### Expressions and statements -/

@[grind ←] instance exprSpecial_moves (sp : SP) : EmitMoves (exprSpecial sp) := by
  unfold exprSpecial; grind

@[grind ←] instance exprToken_moves (tok : Token) : EmitMoves (exprToken tok) := by
  unfold exprToken; grind

@[grind ←] instance exprStr_moves : EmitMoves exprStr := by
  unfold exprStr; grind

@[grind ←] instance exprIndex_moves (t e : ExpDesc) : EmitMoves (exprIndex t e) := by
  unfold exprIndex; grind

@[grind ←] instance modifyTab_moves (id : Nat) (change : GCtab → GCtab) :
    EmitMoves (modifyTab id change) := by
  unfold modifyTab; grind

@[grind ←] instance templateTable_moves (freg : BCReg) (pc : BCPos) (ts : TableState) :
    EmitMoves (templateTable freg pc ts) := by
  unfold templateTable; grind

@[grind ←] instance exprTableStore_moves (ts : TableState) (key val : ExpDesc) :
    EmitMoves (exprTableStore ts key val) := by
  unfold exprTableStore; grind

theorem exprKvalue_num {e : ExpDesc} (isNum : e.isnumk = true) : exprKvalue e = .num e.nval := by
  have kind : e.k = .vknum := by simpa [ExpDesc.isnumk] using isNum
  unfold exprKvalue
  rw [kind]

@[grind ←] instance templateKey_moves (key : ExpDesc) : EmitMoves (templateKey key) := by
  refine liftKey_bind fun slot isKey => ?_
  by_cases isNum : key.isnumk = true
  · rw [exprKvalue_num isNum] at isKey
    grind
  · grind

@[grind ←] instance templateStore_moves (id : Nat) (slot : TabKey) (val : ExpDesc) :
    EmitMoves (templateStore id slot val) := by
  unfold templateStore
  by_cases isNum : val.isnumk = true
  · rw [exprKvalue_num isNum]
    grind
  · grind

@[grind ←] instance exprTableAdd_moves (freg : BCReg) (pc : BCPos) (ts : TableState) (key val : ExpDesc) :
    EmitMoves (exprTableAdd freg pc ts key val) := by
  unfold exprTableAdd; grind

@[grind ←] instance exprTableMulti_moves (freg : BCReg) (narr : Nat) :
    EmitMoves (exprTableMulti freg narr) := by
  unfold exprTableMulti; grind

@[grind ←] instance exprTableFinish_moves (pc : BCPos) (ts : TableState) :
    EmitMoves (exprTableFinish pc ts) := by
  unfold exprTableFinish; grind

@[grind ←] instance exprTableEnd_moves (freg : BCReg) (pc : BCPos) (ts : TableState) :
    EmitMoves (exprTableEnd freg pc ts) := by
  unfold exprTableEnd; grind

@[grind ←] instance genSetoneret_moves (e : ExpDesc) : EmitMoves (genSetoneret e) := by
  unfold genSetoneret; grind

@[grind ←] instance index4emulated_moves (libname fctname : GCstr) :
    EmitMoves (index4emulated libname fctname) := by
  unfold index4emulated; grind

@[grind ←] instance emulated_moves (fctname : GCstr) : EmitMoves (emulated fctname) := by
  unfold emulated; grind

@[grind ←] instance freeDownto_moves (base rc : BCReg) : EmitMoves (freeDownto base rc) := by
  induction rc with
  | zero => unfold freeDownto; grind
  | succ rc induction => unfold freeDownto; grind

@[grind ←] instance bcemitMconcat_moves (line : BCLine) (e1 e2 : ExpDesc) :
    EmitMoves (bcemitMconcat line e1 e2) := by
  unfold bcemitMconcat; grind

@[grind ←] instance assignHazard_moves (lh : List ExpDesc) (v : ExpDesc) :
    EmitMoves (assignHazard lh v) := by
  unfold assignHazard; grind

@[grind ←] instance assignAdjust_moves (nvars nexps : Nat) (e : ExpDesc) :
    EmitMoves (assignAdjust nvars nexps e) := by
  unfold assignAdjust; grind

@[grind ←] instance checkfinal_moves (v : ExpDesc) : EmitMoves (checkfinal v) := by
  unfold checkfinal; grind

@[grind ←] instance checkvar_moves (v : ExpDesc) : EmitMoves (checkvar v) := by
  unfold checkvar; grind

@[grind ←] instance checkVarnames_moves (nvars : Nat) : EmitMoves (checkVarnames nvars) := by
  unfold checkVarnames; grind

@[grind ←] instance storeTop_moves (lh : ExpDesc) : EmitMoves (storeTop lh) := by
  unfold storeTop; grind

@[grind ←] instance returnIns_moves (nret : Nat) (e : ExpDesc) : EmitMoves (returnIns nret e) := by
  unfold returnIns; grind

@[grind ←] instance emitReturn_moves (ins : BCIns) : EmitMoves (emitReturn ins) := by
  unfold emitReturn; grind

@[grind ←] instance parseBreak_moves : EmitMoves parseBreak := by
  unfold parseBreak; grind

@[grind ←] instance parseGoto_moves : EmitMoves parseGoto := by
  unfold parseGoto
  repeat' with_reducible refine .bind ?_ fun _ => ?_
  all_goals grind

@[grind ←] instance parseLabel_moves : EmitMoves parseLabel := by
  unfold parseLabel
  repeat' with_reducible refine .bind ?_ fun _ => ?_
  all_goals grind

@[grind ←] instance endStatement_moves (e : ExpDesc) : EmitMoves (endStatement e) := by
  unfold endStatement; grind

@[grind ←] instance newClosure_moves (pt : GCproto) : EmitMoves (newClosure pt) := by
  unfold newClosure; grind

@[grind ←] instance repeatExit_moves (condexit : BCPos) : EmitMoves (repeatExit condexit) := by
  unfold repeatExit; grind

@[grind ←] instance lineChunkname_moves : EmitMoves lineChunkname := by
  unfold lineChunkname; grind

@[grind ←] instance lineNumber_moves : EmitMoves lineNumber := by
  unfold lineNumber; grind

@[grind ←] instance parseLine_moves : EmitMoves parseLine := by
  unfold parseLine; grind

/-! ## Steps of the parser -/

inductive ParseStep : ParseState → ParseState → Prop
  | emit {s : ParseState} {ls : LexState} (step : Step s.ls ls) : ParseStep s { s with ls := ls }
  | consume (s : ParseState) (consumed : Consumed) :
      ParseStep s { s with log := consumed :: s.log }
  | level (s : ParseState) (level : Nat) : ParseStep s { s with ls := { s.ls with level := level } }

abbrev ParseMoves (m : ParseM α) : Prop := Moves ParseStep m

@[grind ←] theorem liftEmit_moves {m : EmitM α} (moves : EmitMoves m) :
    ParseMoves (liftM m : ParseM α) := by
  refine ⟨fun s => ?_⟩
  have steps := moves.run s.ls
  change ReflTransGen ParseStep s (finalState (inEmit m s))
  unfold inEmit
  have lifted {ls ls' : LexState} (steps : ReflTransGen Step ls ls') :
      ReflTransGen ParseStep { s with ls := ls } { s with ls := ls' } := by
    induction steps with
    | refl => exact .refl
    | tail _ last induction => exact induction.tail (.emit last)
  cases run : m s.ls <;> rw [run] at steps <;> exact lifted steps

@[grind ←] theorem liftCode_moves {m : CodeM α} (moves : CodeMoves m) :
    ParseMoves (liftM m : ParseM α) :=
  liftEmit_moves (lift_moves moves)

theorem synlevelBegin_run (ls : LexState) :
    synlevelBegin ls =
      if ls.level + 1 ≥ LJ_MAX_XLEVEL then errLex .xlevels { ls with level := ls.level + 1 }
      else .ok () { ls with level := ls.level + 1 } := by
  change (if ls.level + 1 ≥ LJ_MAX_XLEVEL then errLex .xlevels else pure () : EmitM Unit)
    { ls with level := ls.level + 1 } = _
  split <;> rfl

@[grind ←] instance synlevelBegin_moves : ParseMoves (liftM synlevelBegin : ParseM Unit) := by
  refine ⟨fun s => ?_⟩
  have ends : finalState (inEmit synlevelBegin s) =
      { s with ls := { s.ls with level := s.ls.level + 1 } } := by
    unfold inEmit
    rw [synlevelBegin_run]
    by_cases deep : s.ls.level + 1 ≥ LJ_MAX_XLEVEL
    · rw [if_pos deep]
      rfl
    · rw [if_neg deep]
      rfl
  change ReflTransGen ParseStep s (finalState (inEmit synlevelBegin s))
  rw [ends]
  exact .single (.level s (s.ls.level + 1))

@[grind ←] instance synlevelEnd_moves : ParseMoves (liftM synlevelEnd : ParseM Unit) :=
  ⟨fun s => .single (.level s (s.ls.level - 1))⟩

@[grind ←] theorem tokenLoop_moves {body : α → ParseM (α ⊕ β)}
    (each : ∀ a, ParseMoves (body a)) (a : α) : ParseMoves (tokenLoop body a) := by
  unfold tokenLoop; grind

@[grind ←] theorem untilRparen_moves {body : α → ParseM α} (each : ∀ a, ParseMoves (body a))
    (a : α) : ParseMoves (untilRparen body a) := by
  refine tokenLoop_moves (fun a => ?_) a
  grind

@[grind ←] instance Operand.use_moves (operand : Operand) : ParseMoves operand.use := by
  have noted : ParseMoves (modify fun s =>
      { s with log := ⟨operand.ahead, operand.written⟩ :: s.log } : ParseM Unit) :=
    .of_modify fun s => .consume s _
  refine .bind noted fun _ => ?_
  cases operand.slot with
  | some e => exact .pure e
  | none => exact .throw _

@[grind ←] instance mconcatLast_moves (ahead : List Token) (e2 : Option ExpDesc) :
    ParseMoves (mconcatLast ahead e2) := by
  unfold mconcatLast; grind

@[grind ←] instance varNames_moves (final : Bool) (nvars : Nat) :
    ParseMoves (varNames final nvars) := by
  unfold varNames; grind

@[grind ←] instance parseParams_moves : ParseMoves parseParams := by
  unfold parseParams
  repeat' with_reducible refine .bind ?_ fun _ => ?_
  all_goals grind

section Forms

variable {stmt : StmtParser} [inner : ∀ v, ParseMoves (stmt v)]

@[grind ←] instance expr_moves (v : Slot) : ParseMoves (expr stmt v) := by
  unfold expr; grind

@[grind ←] instance operand_moves (v : Slot) : ParseMoves (operand stmt v) := by
  unfold operand; grind

@[grind ←] instance exprUse_moves (v : Slot) : ParseMoves (exprUse stmt v) := by
  unfold exprUse; grind

@[grind ←] instance exprNext_moves : ParseMoves (exprNext stmt) := by
  unfold exprNext; grind

@[grind ←] instance exprCond_moves : ParseMoves (exprCond stmt) := by
  unfold exprCond; grind

@[grind ←] instance exprList_moves (v : Slot) : ParseMoves (exprList stmt v) := by
  unfold exprList; grind

@[grind ←] instance parseIndex_moves (v : Slot) : ParseMoves (parseIndex stmt v) := by
  unfold parseIndex
  repeat' with_reducible refine .bind ?_ fun _ => ?_
  all_goals grind

@[grind ←] instance exprTableItem_moves (ts : TableState) :
    ParseMoves (exprTableItem stmt ts) := by
  unfold exprTableItem
  repeat' with_reducible refine .bind ?_ fun _ => ?_
  all_goals grind

@[grind ←] instance exprTable_moves : ParseMoves (exprTable stmt) := by
  unfold exprTable
  repeat' with_reducible refine .bind ?_ fun _ => ?_
  all_goals grind

@[grind ←] instance parseArgs_moves : ParseMoves (parseArgs stmt) := by
  unfold parseArgs; grind

@[grind ←] instance parseUnop_moves (sp : SP) (v : Slot) : ParseMoves (parseUnop stmt sp v) := by
  unfold parseUnop; grind

@[grind ←] instance parseUnopBnotEmulated_moves : ParseMoves (parseUnopBnotEmulated stmt) := by
  unfold parseUnopBnotEmulated; grind

@[grind ←] instance parseBinop_moves [Vm] (sp : SP) (v : Slot) :
    ParseMoves (parseBinop stmt sp v) := by
  unfold parseBinop
  cases token2binop sp with
  | none => exact .throw _
  | some op =>
      repeat' with_reducible refine .bind ?_ fun _ => ?_
      all_goals grind

@[grind ←] instance parseBinopEmulated_moves (sp : SP) :
    ParseMoves (parseBinopEmulated stmt sp) := by
  unfold parseBinopEmulated
  repeat' with_reducible refine .bind ?_ fun _ => ?_
  all_goals grind

@[grind ←] instance mconcatOperands_moves : ParseMoves (mconcatOperands stmt) := by
  unfold mconcatOperands; grind

@[grind ←] instance parseMconcat_moves (v : Slot) : ParseMoves (parseMconcat stmt v) := by
  unfold parseMconcat
  repeat' with_reducible refine .bind ?_ fun _ => ?_
  all_goals grind

@[grind ←] instance parseCall_moves (v : Slot) : ParseMoves (parseCall stmt v) := by
  unfold parseCall; grind

@[grind ←] instance parseCallmeth_moves (v : Slot) : ParseMoves (parseCallmeth stmt v) := by
  unfold parseCallmeth
  repeat' with_reducible refine .bind ?_ fun _ => ?_
  all_goals grind

@[grind ←] instance parseAssignmentRhs_moves (lh : ExpDesc) (nvars : Nat) :
    ParseMoves (parseAssignmentRhs stmt lh nvars) := by
  unfold parseAssignmentRhs; grind

@[grind ←] instance parseLhs_moves (lh : List ExpDesc) : ParseMoves (parseLhs stmt lh) := by
  unfold parseLhs; grind

@[grind ←] instance parseAssignment_moves (fuel : Nat) (lh : ExpDesc) (prev : List ExpDesc)
    (nvars : Nat) : ParseMoves (parseAssignment_ stmt fuel lh prev nvars) := by
  induction fuel generalizing lh prev nvars with
  | zero => exact .throw _
  | succ fuel induction =>
      unfold parseAssignment_
      repeat' with_reducible refine .bind ?_ fun _ => ?_
      all_goals grind

@[grind ←] instance parseMassign_moves : ParseMoves (parseMassign stmt) := by
  unfold parseMassign; grind

@[grind ←] instance parseAssign_moves (v : Slot) : ParseMoves (parseAssign stmt v) := by
  unfold parseAssign
  repeat' with_reducible refine .bind ?_ fun _ => ?_
  all_goals grind

@[grind ←] instance parseMdefine_moves : ParseMoves (parseMdefine stmt) := by
  unfold parseMdefine
  repeat' with_reducible refine .bind ?_ fun _ => ?_
  all_goals grind

@[grind ←] instance parseDefine_moves : ParseMoves (parseDefine stmt) := by
  unfold parseDefine
  repeat' with_reducible refine .bind ?_ fun _ => ?_
  all_goals grind

@[grind ←] instance parseMlet_moves : ParseMoves (parseMlet stmt) := by
  unfold parseMlet
  repeat' with_reducible refine .bind ?_ fun _ => ?_
  all_goals grind

@[grind ←] instance parseLet_moves : ParseMoves (parseLet stmt) := by
  unfold parseLet; grind

@[grind ←] instance parseLetrec_moves : ParseMoves (parseLetrec stmt) := by
  unfold parseLetrec; grind

@[grind ←] instance parseReturn_moves : ParseMoves (parseReturn stmt) := by
  unfold parseReturn; grind

@[grind ←] instance parseChunk_moves : ParseMoves (parseChunk stmt) := by
  unfold parseChunk; grind

@[grind ←] instance parseBody_moves : ParseMoves (parseBody stmt) := by
  unfold parseBody
  repeat' with_reducible refine .bind ?_ fun _ => ?_
  all_goals grind

@[grind ←] instance parseLambda_moves : ParseMoves (parseLambda stmt) := by
  unfold parseLambda; grind

@[grind ←] instance parseBlock_moves : ParseMoves (parseBlock stmt) := by
  unfold parseBlock; grind

@[grind ←] instance parseDo_moves : ParseMoves (parseDo stmt) := by
  unfold parseDo; grind

@[grind ←] instance parseWhile_moves : ParseMoves (parseWhile stmt) := by
  unfold parseWhile
  repeat' with_reducible refine .bind ?_ fun _ => ?_
  all_goals grind

@[grind ←] instance repeatBody_moves : ParseMoves (repeatBody stmt) := by
  unfold repeatBody; grind

@[grind ←] instance parseRepeat_moves : ParseMoves (parseRepeat stmt) := by
  unfold parseRepeat
  repeat' with_reducible refine .bind ?_ fun _ => ?_
  all_goals grind

@[grind ←] instance parseLoop_moves : ParseMoves (parseLoop stmt) := by
  unfold parseLoop
  repeat' with_reducible refine .bind ?_ fun _ => ?_
  all_goals grind

@[grind ←] instance parseFor_moves : ParseMoves (parseFor stmt) := by
  unfold parseFor
  repeat' with_reducible refine .bind ?_ fun _ => ?_
  all_goals grind

@[grind ←] instance condArm_moves (escapelist : BCPos) : ParseMoves (condArm stmt escapelist) := by
  unfold condArm; grind

@[grind ←] instance condArms_moves : ParseMoves (condArms stmt) := by
  unfold condArms; grind

@[grind ←] instance parseCond_moves : ParseMoves (parseCond stmt) := by
  unfold parseCond; grind

@[grind ←] instance parseBranch_moves (v : Slot) : ParseMoves (parseBranch stmt v) := by
  unfold parseBranch; grind

@[grind ←] instance parseIf_moves : ParseMoves (parseIf stmt) := by
  unfold parseIf
  repeat' with_reducible refine .bind ?_ fun _ => ?_
  all_goals grind

@[grind ←] theorem noValue_moves {form : ParseM Unit} (moves : ParseMoves form) :
    ParseMoves (noValue form) := by
  unfold noValue; grind

@[grind ←] theorem oneResult_moves {form : ParseM (Option ExpDesc)} (moves : ParseMoves form) :
    ParseMoves (oneResult form) := by
  unfold oneResult; grind

theorem parseForm_moves [Vm] (sp : SP) (v : Slot) : ParseMoves (parseForm stmt sp v) := by
  unfold parseForm; grind

theorem stmtForm_moves [Vm] (v : Slot) : ParseMoves (stmtForm stmt v) := by
  unfold stmtForm
  have forms (sp : SP) : ParseMoves (parseForm stmt sp v) := parseForm_moves sp v
  grind

theorem parseMain_moves : ParseMoves (parseMain stmt) := by
  unfold parseMain
  repeat' with_reducible refine .bind ?_ fun _ => ?_
  all_goals grind

end Forms

instance parseStmt_moves [Vm] (depth : Nat) (v : Slot) : ParseMoves (parseStmt depth v) := by
  induction depth generalizing v with
  | zero => exact .throw _
  | succ depth induction => exact stmtForm_moves v

end TvmJit
