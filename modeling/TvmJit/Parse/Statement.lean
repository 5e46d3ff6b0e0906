import TvmJit.Parse.Expression

/-! Statements, and the entry point of the bytecode parser. -/

namespace TvmJit

variable (stmt : StmtParser)

/-! ## Assignments -/

/-- Whether `reg` is named by the descriptor of a table element. -/
def ExpDesc.mentions (lh : ExpDesc) (reg : BCReg) : Bool :=
  lh.k == .vindexed && (lh.info == reg || lh.aux == reg)

/-- The descriptor with `reg` renamed to `tmp`. -/
def ExpDesc.rename (lh : ExpDesc) (reg tmp : BCReg) : ExpDesc :=
  if lh.k = .vindexed then
    { lh with info := if lh.info = reg then tmp else lh.info,
              aux := if lh.aux = reg then tmp else lh.aux }
  else lh

/-- Eliminate write-after-read hazards for local variable assignment. -/
def assignHazard (lh : List ExpDesc) (v : ExpDesc) : EmitM (List ExpDesc) := do
  let reg := v.info  -- Check against this variable.
  let tmp := (← getFs).regs.freereg  -- Rename to this temp. register (if needed).
  if lh.any (·.mentions reg) then
    let _ ← bcemitAD .mov tmp reg  -- Rename conflicting variable.
    bcregReserve 1
  pure (lh.map (·.rename reg tmp))

/-- Adjust LHS/RHS of an assignment. -/
def assignAdjust (nvars nexps : Nat) (e : ExpDesc) : EmitM Unit := do
  let extra : Int := nvars - nexps
  if e.k = .vcall then
    let extra := (max (extra + 1) 0).toNat  -- Compensate for the VCALL itself.
    changeIns e.info (·.setB (extra + 1))  -- Fixup call results.
    if extra > 1 then bcregReserve (extra - 1)
  else
    if e.k ≠ .vvoid then
      let _ ← exprTonextreg e  -- Close last expression.
    if extra > 0 then  -- Leftover LHS are set to nil.
      let reg := (← getFs).regs.freereg
      bcregReserve extra.toNat
      bcemitNil reg extra.toNat
  if nexps > nvars then  -- Drop leftover regs.
    lowerFreereg (u32 ((← getFs).regs.freereg - (nexps - nvars)))

def checkfinal (v : ExpDesc) : EmitM Unit := do
  let ls ← get
  if v.k = .vlocal ∧ (ls.varGet ls.fs v.info).final then errSyntax .xfvar
  else if v.k = .vupval ∧ (ls.uvGet ls.fs v.info).final then errSyntax .xfupvar

/-- `VLOCAL <= v.k && v.k <= VINDEXED`. -/
def ExpDesc.isvar (v : ExpDesc) : Bool :=
  ExpKind.vlocal.code ≤ v.k.code && v.k.code ≤ ExpKind.vindexed.code

/-- Check that the descriptor is a variable that may be assigned. -/
def checkvar (v : ExpDesc) : EmitM Unit := do
  if !v.isvar then errSyntax .xsyntax_
  checkfinal v

/-- Store the value in the topmost register. -/
def storeTop (lh : ExpDesc) : EmitM Unit := do
  let e := ExpDesc.init .vnonreloc (u32 ((← getFs).regs.freereg - 1))
  let _ ← bcemitStore lh e

/-- Parse the right hand sides, and store the last of them. -/
def parseAssignmentRhs (lh : ExpDesc) (nvars : Nat) : ParseM Unit := do
  lexCheck .lparen .lparen
  let (nexps, last) ← exprList stmt none
  let e ← last.use
  if nexps = nvars then
    let _ ← bcemitStore lh (← genSetoneret e)
  else
    assignAdjust nvars nexps e
    storeTop lh

/-- Collect one more variable; `lh` are those before it, the latest first, and
are returned with conflicting registers renamed. -/
def parseLhs (lh : List ExpDesc) : ParseM (ExpDesc × List ExpDesc) := do
  let vl ← exprUse stmt none
  if vl.k = .vlocal then
    checkfinal vl
    pure (vl, ← assignHazard lh vl)
  else pure (vl, lh)

/-- `checklimit(ls->fs, ls->level + nvars, LJ_MAX_XLEVEL, "variable names")`. -/
def checkVarnames (nvars : Nat) : EmitM Unit := do
  if (← get).level + nvars ≥ LJ_MAX_XLEVEL then errLimit LJ_MAX_XLEVEL "variable names"

/-- Recursively parse assignment statement. The variables collected before `lh`
are in `prev`; they are returned with conflicting registers renamed. -/
def parseAssignment_ : Nat → ExpDesc → List ExpDesc → Nat → ParseM (List ExpDesc)
  | 0, _, _, _ => throw .outOfFuel
  | fuel + 1, lh, prev, nvars => do
      checkvar lh
      if ← lexOpt .rparen then  -- Parse RHS.
        parseAssignmentRhs stmt lh nvars
        pure prev
      else  -- Collect LHS list and recurse upwards.
        let (vl, lhs) ← parseLhs stmt (lh :: prev)
        checkVarnames nvars
        match ← parseAssignment_ fuel vl lhs (nvars + 1) with
        | [] => throw .stuck
        | lh :: prev =>  -- Assign RHS to LHS and recurse downwards.
            storeTop lh
            pure prev

/-- Parse 'massign' statement. -/
def parseMassign : ParseM Unit := do
  lexCheck .lparen .lparen
  let v ← exprUse stmt none
  let _ ← parseAssignment_ stmt ((← get).ls.rest.length + 2) v [] 1
  lexCheck .rparen .rparen

/-- Parse 'assign' statement. -/
def parseAssign (v : Slot) : ParseM (Option ExpDesc) := do
  let var ← exprUse stmt none
  checkvar var
  let e ← exprUse stmt v
  let e ← bcemitStore var (← genSetoneret e)
  lexCheck .rparen .rparen
  pure (some e)

/-- Declare the variables of a list that has been opened, with indices from
`nvars` on. -/
def varNames (final : Bool) (nvars : Nat) : ParseM Nat :=
  untilRparen (fun nvars => do
    varNew nvars (.str (← lexStr)) final
    pure (nvars + 1)) nvars

/-- Parse 'mdefine' statement. -/
def parseMdefine : ParseM Unit := do
  lexCheck .lparen .lparen
  let nvars ← varNames false 0
  if ← lexOpt .rparen then
    assignAdjust nvars 0 (.init .vvoid 0)
  else
    lexCheck .lparen .lparen
    let (nexps, last) ← exprList stmt none
    lexCheck .rparen .rparen
    assignAdjust nvars nexps (← last.use)
  varAdd nvars

/-- Parse 'define' statement. -/
def parseDefine : ParseM Unit := do
  varNew 0 (.str (← lexStr)) false
  if ← lexOpt .rparen then
    assignAdjust 1 0 (.init .vvoid 0)
  else
    let last ← operand stmt none
    lexCheck .rparen .rparen
    assignAdjust 1 1 (← last.use)
  varAdd 1

/-- Parse 'mlet' statement. -/
def parseMlet : ParseM Unit := do
  lexCheck .lparen .lparen
  let nvars ← varNames true 0
  lexCheck .lparen .lparen
  let (nexps, last) ← exprList stmt none
  lexCheck .rparen .rparen
  assignAdjust nvars nexps (← last.use)
  varAdd nvars

/-- Parse 'let' statement. -/
def parseLet : ParseM Unit := do
  varNew 0 (.str (← lexStr)) true
  let last ← operand stmt none
  lexCheck .rparen .rparen
  assignAdjust 1 1 (← last.use)
  varAdd 1

/-- Parse 'letrec' statement. The variable is active in its own value. -/
def parseLetrec : ParseM Unit := do
  varNew 0 (.str (← lexStr)) true
  varAdd 1
  let e ← exprUse stmt none
  assignAdjust 1 1 e
  lexCheck .rparen .rparen

/-! ## Control transfer statements -/

/-- The instruction `return` ends with, for a list of values. -/
def returnIns (nret : Nat) (e : ExpDesc) : EmitM BCIns := do
  let nactvar := (← getFs).regs.nactvar
  if e.k = .vcall then
    let ip ← bcAt e.info
    if nret = 1 ∧ ip.op ≠ .varg then  -- Tail call.
      dropIns
      pure (.ad (ip.op.shift .call .callt) ip.a ip.c)
    else  -- Append all results from a call.
      changeIns e.info (·.setB 0)
      pure (.ad .retm nactvar (u32 (e.aux - nactvar)))
  else if nret = 1 then  -- Can return the result from any register.
    pure (.ad .ret1 (← exprToanyreg e).info 2)
  else
    let _ ← exprTonextreg e  -- Force contiguous registers.
    pure (.ad .ret nactvar (nret + 1))

/-- Emit a return. -/
def emitReturn (ins : BCIns) : EmitM Unit := do
  if (← getFs).flags.child then
    let _ ← bcemitAJ .uclo 0 0  -- May need to close upvalues first.
  let _ ← bcemitINS ins

/-- Parse 'return' statement. -/
def parseReturn : ParseM Unit := do
  modifyFlags fun flags => { flags with hasReturn := true }
  let ins ←
    if ← lexOpt .rparen then pure (BCIns.ad .ret0 0 1)  -- Bare return.
    else do  -- Return with one or more values.
      let (nret, last) ← exprList stmt none
      returnIns nret (← last.use)
  emitReturn ins

/-- Parse 'break' statement. -/
def parseBreak : EmitM Unit := do
  markScope fun bl => { bl with brk := true }
  let _ ← golaNew .brk true (← bcemitJmp)
  lexCheck .rparen .rparen

/-- Parse 'goto' statement. -/
def parseGoto : EmitM Unit := do
  let name ← lexStr
  match ← golaFindlabel name with
  | some vl =>  -- Treat backwards goto within same scope like a loop.
      let _ ← bcemitAJ .loop ((← get).vstack vl).slot (-1)
  | none => pure ()
  markScope fun bl => { bl with gola := true }
  let _ ← golaNew (.str name) true (← bcemitJmp)
  lexCheck .rparen .rparen

/-- Parse label. -/
def parseLabel : EmitM Unit := do
  markTarget
  markScope fun bl => { bl with gola := true }
  let name ← lexStr
  if (← golaFindlabel name).isSome then errLex (.xldup name)
  let idx ← golaNew (.str name) false (← getFs).code.pc
  golaResolve (← currentScope) idx
  lexCheck .rparen .rparen

/-! ## Chunks and functions -/

def setLevel (level : Nat) : EmitM Unit := modify fun ls => { ls with level := level }

/-- Manage syntactic levels to avoid blowing up the stack. -/
def synlevelBegin : EmitM Unit := do
  setLevel ((← get).level + 1)
  if (← get).level ≥ LJ_MAX_XLEVEL then errLex .xlevels

def synlevelEnd : EmitM Unit := do
  setLevel ((← get).level - 1)

/-- What `parse_chunk` and `parse_repeat` do after each statement. -/
def endStatement (e : ExpDesc) : EmitM Unit := do
  if e.k = .vcall then changeIns e.info (·.setB 1)  -- No results.
  let regs := (← getFs).regs
  luaAssert .stmtEnd (regs.framesize ≥ regs.freereg && regs.freereg ≥ regs.nactvar)
  lowerFreereg regs.nactvar  -- Free registers after each stmt.

/-- A chunk is a list of statements. Each clears the descriptor first, so the
answer is `none` for an empty chunk only. -/
def parseChunk : ParseM (Option ExpDesc) :=
  tokenLoop (fun v => do
    if ← lexOpt .lparen then
      synlevelBegin
      let e := (← stmt (some .zeroed)).getD .zeroed
      endStatement e
      synlevelEnd
      pure (.inl (some e))
    else pure (.inr v)) none

/-- Parse function parameters. -/
def parseParams : ParseM Nat := do
  lexCheck .lparen .lparen
  let nparams ← tokenLoop (fun nparams => do
    match (← get).ls.tok with
    | .name _ =>
        let varname ← lexStr
        if reserved varname = some .vararg then
          modifyFlags fun flags => { flags with vararg := true }
          pure (.inr nparams)
        else
          varNew nparams (.str varname) false
          pure (.inl (nparams + 1))
    | _ => pure (.inr nparams)) 0
  varAdd nparams
  bcregReserve nparams
  lexCheck .rparen .rparen
  pure nparams

def setNumparams (n : Nat) : EmitM Unit := modifyFs fun fs => { fs with numparams := n }

/-- `ls->lastline = line`. -/
def setLastline (line : BCLine) : EmitM Unit := modify fun ls => { ls with lastline := line }

/-- Parse the parameters and the body of a function whose state has just been
set up. -/
def parseBody : ParseM GCproto := do
  fscopeBegin false
  let nparams ← parseParams
  setNumparams (nparams % 256)
  let _ ← bcemitAD .funcf 0 0  -- Placeholder.
  let _ ← parseChunk stmt
  let line := (← get).ls.linenumber
  setLastline line
  fsFinish line

/-- The parent of a prototype keeps closures in mind. -/
def ProtoFlags.addChild (flags : ProtoFlags) (ffi : Bool) : ProtoFlags :=
  { flags with
    ffi := flags.ffi || ffi
    fixupReturn := flags.fixupReturn || (!flags.child && flags.hasReturn)
    child := true }

/-- Store new prototype, the last one, in the constant array of the parent. -/
def newClosure (pt : GCproto) : EmitM ExpDesc := do
  let pc ← bcemitAD .fnew 0 (← constGc (.proto ((← get).protos.length - 1)))
  modifyFlags (·.addChild pt.flags.ffi)
  pure (.init .vrelocable pc)

/-- Parse 'lambda' statement. -/
def parseLambda : ParseM (Option ExpDesc) := do
  fsInit (← get).ls.linenumber
  let pt ← parseBody stmt
  let e ← newClosure pt
  lexCheck .rparen .rparen
  pure (some e)

/-! ## Blocks, loops and conditional statements -/

/-- Parse a block. -/
def parseBlock : ParseM Unit := do
  fscopeBegin false
  let _ ← parseChunk stmt
  lexCheck .rparen .rparen
  fscopeEnd

/-- Parse a 'do' statement. -/
def parseDo : ParseM (Option ExpDesc) := do
  fscopeBegin false
  let e ← parseChunk stmt
  lexCheck .rparen .rparen
  fscopeEnd
  pure e

/-- Parse 'while' statement. -/
def parseWhile : ParseM Unit := do
  markTarget
  let start := (← getFs).code.pc
  let condexit ← exprCond stmt
  fscopeBegin true
  let loop ← bcemitAD .loop (← getFs).regs.nactvar 0
  parseBlock stmt
  jmpPatch (← bcemitJmp) start
  fscopeEnd
  jmpTohere condexit
  jmpPatchins loop (← getFs).code.pc

/-- The statements of a 'repeat'; the last one is the condition. -/
def repeatBody : ParseM Operand :=
  tokenLoop (fun () => do
    synlevelBegin
    let last ← operand stmt (some .zeroed)
    endStatement (last.slot.getD .zeroed)
    synlevelEnd
    if ← lexOpt .rparen then pure (.inr last) else pure (.inl ())) ()

/-- Close the inner scope of a 'repeat' whose condition jumps to `condexit`
when false, and return the jump back. -/
def repeatExit (condexit : BCPos) : EmitM BCPos := do
  if !(← currentScope).upval then  -- No upvalues? Just end inner scope.
    fscopeEnd
    pure condexit
  else  -- Otherwise generate: cond: UCLO+JMP out, !cond: UCLO+JMP loop.
    markScope fun bl => { bl with brk := true }  -- Break from loop and close upvalues.
    let _ ← golaNew .brk true (← bcemitJmp)
    jmpTohere condexit
    fscopeEnd  -- End inner scope and close upvalues.
    bcemitJmp

/-- Parse 'repeat' statement. -/
def parseRepeat : ParseM Unit := do
  markTarget
  let loop := (← getFs).code.pc
  fscopeBegin true  -- Breakable loop scope.
  fscopeBegin false  -- Inner scope.
  let _ ← bcemitAD .loop (← getFs).regs.nactvar 0
  let e ← (← repeatBody stmt).use
  let e ← bcemitBranchT (if e.k = .vknil then { e with k := .vkfalse } else e)
  let condexit ← repeatExit e.f
  jmpPatch condexit loop  -- Jump backwards if !cond.
  jmpPatchins loop (← getFs).code.pc
  fscopeEnd  -- End loop scope.

/-- Parse 'loop' statement. -/
def parseLoop : ParseM Unit := do
  let line := (← get).ls.linenumber
  let base := (← getFs).regs.freereg
  fscopeBegin true
  -- Hidden control variables.
  varNew 0 .forIdx false
  varNew 1 .forStop false
  varNew 2 .forStep false
  -- Visible copy of index variable.
  varNew 3 (.str (← lexStr)) true
  exprNext stmt  -- initial value
  exprNext stmt  -- stop
  exprNext stmt  -- step
  varAdd 3
  let loop ← bcemitAJ .fori base (-1)
  fscopeBegin false  -- Scope for visible variables.
  varAdd 1
  bcregReserve 1
  parseBlock stmt
  fscopeEnd
  -- Perform loop inversion. Loop control instructions are at the end.
  let loopend ← bcemitAJ .forl base (-1)
  setLine loopend line  -- Fix line for control ins.
  jmpPatchins loopend (loop + 1)
  jmpPatchins loop (← getFs).code.pc
  fscopeEnd  -- Resolve break list.

/-- Parse 'for' statement. -/
def parseFor : ParseM Unit := do
  let line := (← get).ls.linenumber
  let base := (← getFs).regs.freereg + 3
  fscopeBegin true
  -- Hidden control variables.
  varNew 0 .forGen false
  varNew 1 .forState false
  varNew 2 .forCtl false
  -- Visible variables returned from iterator.
  lexCheck .lparen .lparen
  let nvars ← varNames true 3
  lexCheck .lparen .lparen
  let (nexps, last) ← exprList stmt none
  assignAdjust 3 nexps (← last.use)
  -- The iterator needs another 3 slots (func | state ctl).
  bcregBump 3
  varAdd 3
  let loop ← bcemitAJ .jmp base (-1)
  fscopeBegin false  -- Scope for visible variables.
  varAdd (nvars - 3)
  bcregReserve (nvars - 3)
  parseBlock stmt
  fscopeEnd
  -- Perform loop inversion. Loop control instructions are at the end.
  jmpPatchins loop (← getFs).code.pc
  let _ ← bcemitABC .iterc base (nvars - 3 + 1) 3
  let loopend ← bcemitAJ .iterl base (-1)
  setLine (loopend - 1) line  -- Fix line for control ins.
  setLine loopend line
  jmpPatchins loopend (loop + 1)
  fscopeEnd  -- Resolve break list.

/-- Parse an arm of 'cond' whose parenthesis has been opened. -/
def condArm (escapelist : BCPos) : ParseM BCPos := do
  let flist ← exprCond stmt
  parseBlock stmt
  let escapelist ←
    if (← get).ls.tok = .lparen then do jmpAppend escapelist (← bcemitJmp)
    else pure escapelist
  jmpTohere flist
  pure escapelist

/-- Parse the arms of 'cond' and return the list of the jumps behind it. -/
def condArms : ParseM BCPos :=
  tokenLoop (fun escapelist => do
    if ← lexOpt .lparen then pure (.inl (← condArm stmt escapelist))
    else pure (.inr escapelist)) NO_JMP

/-- Parse 'cond' statement. -/
def parseCond : ParseM Unit := do
  if (← get).ls.tok ≠ .lparen then errToken .lparen
  let escapelist ← condArms stmt
  jmpTohere escapelist
  lexCheck .rparen .rparen

/-- A branch of 'if': one statement in a scope of its own. -/
def parseBranch (v : Slot) : ParseM Slot := do
  fscopeBegin false
  let e ← stmt v
  fscopeEnd
  pure (e <|> v)

/-- Parse 'if' statement. -/
def parseIf : ParseM Unit := do
  let flist ← exprCond stmt
  lexCheck .lparen .lparen
  let e ← parseBranch stmt none
  let escapelist ←
    if ← lexOpt .lparen then do  -- Parse optional 'else' block.
      let escapelist ← jmpAppend NO_JMP (← bcemitJmp)
      jmpTohere flist
      let _ ← parseBranch stmt e
      pure escapelist
    else jmpAppend NO_JMP flist
  jmpTohere escapelist
  lexCheck .rparen .rparen

def setChunkname (s : GCstr) : EmitM Unit := modify fun ls => { ls with chunkname := s }

/-- The optional source name of 'line'. -/
def lineChunkname : EmitM Unit := do
  match (← get).tok with
  | .string s =>
      setChunkname s
      lexNext
  | _ => pure ()

/-- The optional line of 'line'. A cdata literal is not a number to the
conversion. -/
def lineNumber : EmitM Unit := do
  match (← get).tok with
  | .number n =>
      setLinenumber n.num2int
      lexNext
  | .cdata _ =>
      setLinenumber (-2147483648)
      lexNext
  | _ => pure ()

/-- Parse 'line' statement. -/
def parseLine : EmitM Unit := do
  lineChunkname
  lineNumber
  lexCheck .rparen .rparen

/-! ## Parse statements -/

/-- A form that produces no value. -/
def noValue (form : ParseM Unit) : ParseM (Option ExpDesc) := do
  form
  pure none

/-- A form cut down to one result. -/
def oneResult (form : ParseM (Option ExpDesc)) : ParseM (Option ExpDesc) := do
  match ← form with
  | some e => pure (some (← genSetoneret e))
  | none => pure none

/-- The forms, after their special name has been consumed. -/
def parseForm [Vm] (sp : SP) (v : Slot) : ParseM (Option ExpDesc) :=
  match sp with
  | .neg | .not | .len => parseUnop stmt sp v
  | .bnot => oneResult (parseUnopBnotEmulated stmt)
  | .add | .sub | .mul | .div | .mod | .pow | .concat
  | .eq | .lt | .le | .ne | .gt | .ge | .and | .or => parseBinop stmt sp v
  | .idiv | .band | .bor | .bxor | .shl | .shr => oneResult (parseBinopEmulated stmt sp)
  | .assign => parseAssign stmt v
  | .break_ => noValue parseBreak
  | .call => parseCall stmt v
  | .call1 => oneResult (parseCall stmt v)
  | .callmeth => parseCallmeth stmt v
  | .callmeth1 => oneResult (parseCallmeth stmt v)
  | .cond => noValue (parseCond stmt)
  | .do_ => parseDo stmt
  | .define => noValue (parseDefine stmt)
  | .for_ => noValue (parseFor stmt)
  | .goto => noValue parseGoto
  | .if_ => noValue (parseIf stmt)
  | .index => parseIndex stmt v
  | .label => noValue parseLabel
  | .lambda => parseLambda stmt
  | .let_ => noValue (parseLet stmt)
  | .letrec => noValue (parseLetrec stmt)
  | .line => do
      parseLine
      expr stmt v
  | .loop => noValue (parseLoop stmt)
  | .massign => noValue (parseMassign stmt)
  | .mconcat => parseMconcat stmt v
  | .mdefine => noValue (parseMdefine stmt)
  | .mlet => noValue (parseMlet stmt)
  | .repeat_ => noValue (parseRepeat stmt)
  | .return_ => noValue (parseReturn stmt)
  | .while_ => noValue (parseWhile stmt)
  | .vararg | .nil | .false_ | .true_ => pure none  -- They head no form.

theorem parseForm_binop [Vm] {sp : SP} {v : Slot} (isBinop : (token2binop sp).isSome = true) :
    parseForm stmt sp v = parseBinop stmt sp v := by
  cases sp <;> first | rfl | simp [token2binop] at isBinop

/-- The special name a form starts with. -/
def headOf : Token → Option SP
  | .name s => (reserved s).filter SP.headsForm
  | _ => none

/-- Parse a statement, given the parser for the statements inside it. -/
def stmtForm [Vm] (v : Slot) : ParseM (Option ExpDesc) := do
  match headOf (← get).ls.tok with
  | some sp =>
      lexNext
      parseForm stmt sp v
  | none => exprTable stmt

/-- Parse a statement. The bound is on the nesting of statements. -/
def parseStmt [Vm] : Nat → StmtParser
  | 0 => fun _ => throw .outOfFuel
  | depth + 1 => stmtForm (parseStmt depth)

/-! ## Entry point -/

/-- The state `lj_parse` starts the compilation with. -/
def LexState.start (chunkname : GCstr) (items : List LexItem) : LexState where
  tok := .eof
  rest := items
  linenumber := 1
  lastline := 1
  chunkname := chunkname
  vstack := fun _ => .empty
  vtop := 0
  level := 0
  fs := { FuncState.fresh 0 0 0 with flags := ⟨false, true, false, false, false⟩ }
  prev := []
  protos := []
  tabs := []
  failed := []

/-- Compile the main chunk, with the parser for its statements. -/
def parseMain : ParseM GCproto := do
  fscopeBegin false
  let _ ← bcemitAD .funcv 0 0  -- Placeholder.
  lexNext  -- Read-ahead first token.
  let _ ← parseChunk stmt
  if (← get).ls.tok ≠ .eof then errToken .eof
  fsFinish (← get).ls.linenumber

/-- Entry point of bytecode parser. A statement takes at least one token, so
the number of tokens bounds the nesting. -/
def ljParse [Vm] (chunkname : GCstr) (items : List LexItem) :
    EStateM.Result ParseError ParseState GCproto :=
  parseMain (parseStmt (items.length + 1)) ⟨.start chunkname items, []⟩

end TvmJit
