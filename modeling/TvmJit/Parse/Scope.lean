import TvmJit.Parse.Operators

/-! Lexer support, variables, gotos and labels, and scopes. -/

namespace TvmJit

/-! ## Lexer support -/

/-- The state once the next token has been read off the input. -/
def LexState.next (ls : LexState) : LexState :=
  match ls.rest with
  | [] => { ls with lastline := ls.linenumber, tok := .eof }
  | item :: rest =>
      { ls with lastline := ls.linenumber, linenumber := ls.linenumber + item.newlines,
                tok := item.tok, rest := rest }

/-- `lj_lex_next`. -/
def lexNext : EmitM Unit := modify LexState.next

def errToken (tok : TokenKind) : EmitM α := errSyntax (.xtoken tok)

/-- Check and consume optional token. -/
def lexOpt (tok : Token) : EmitM Bool := do
  if (← get).tok = tok then
    lexNext
    pure true
  else pure false

/-- Check and consume token. -/
def lexCheck (tok : Token) (kind : TokenKind) : EmitM Unit := do
  if (← get).tok ≠ tok then errToken kind
  lexNext

section

open Foundation

variable (ls : LexState) (stop : ParseError → LexState → Prop)

@[simp] theorem wp_lexNext (post : Unit → LexState → Prop) :
    wp lexNext ls post stop ↔ post () ls.next := Iff.rfl

theorem wp_lexOpt (tok : Token) (post : Bool → LexState → Prop) :
    wp (lexOpt tok) ls post stop ↔ if ls.tok = tok then post true ls.next else post false ls := by
  unfold lexOpt
  rw [wp_bind, wp_get]
  split <;> rfl

theorem wp_lexCheck (tok : Token) (kind : TokenKind) (post : Unit → LexState → Prop) :
    wp (lexCheck tok kind) ls post stop ↔
      if ls.tok = tok then post () ls.next
      else stop (.lex (.xtoken kind) ls.linenumber (some ls.tok)) ls := by
  unfold lexCheck
  rw [wp_bind, wp_get]
  by_cases found : ls.tok = tok
  · simp only [found, ne_eq, not_true, if_false, if_true]
    rfl
  · simp only [found, ne_eq, not_false_eq_true, if_true, if_false]
    rfl

end

/-- Check for string token. -/
def lexStr : EmitM GCstr := do
  match (← get).tok with
  | .name s =>
      lexNext
      pure s
  | _ => errToken .name

/-! ## Variable handling -/

/-- `ls->vtop = vtop`. -/
def setVtop (vtop : VarIndex) : EmitM Unit := modify fun ls => { ls with vtop := vtop }

/-- `fs->varmap[i] = idx`. -/
def setVarmap (i : Nat) (idx : VarIndex) : EmitM Unit :=
  modifyFs fun fs => { fs with varmap := Function.update fs.varmap i idx }

/-- `ls->linenumber = line`. -/
def setLinenumber (line : BCLine) : EmitM Unit :=
  modify fun ls => { ls with linenumber := line }

def modifyScopes (change : List FuncScope → List FuncScope) : EmitM Unit :=
  modifyFs fun fs => { fs with bl := change fs.bl }

/-- `var_get`. -/
def LexState.varGet (ls : LexState) (fs : FuncState) (i : BCReg) : VarInfo :=
  ls.vstack (fs.varmap i)

/-- `uv_get`. -/
def LexState.uvGet (ls : LexState) (fs : FuncState) (i : Nat) : VarInfo :=
  ls.vstack (fs.uvmap.getD i 0)

/-- The check of the variable stack in `var_new` and `gola_new`. -/
def checkVstack : EmitM Unit := do
  if (← get).vtop ≥ LJ_MAX_VSTACK then errLex (.xlimc LJ_MAX_VSTACK)

/-- Define a new local variable. -/
def varNew (n : BCReg) (name : VarName) (final : Bool) : EmitM Unit := do
  let vtop := (← get).vtop
  let nactvar := (← getFs).regs.nactvar
  if nactvar + n ≥ LJ_MAX_LOCVAR then errLimit LJ_MAX_LOCVAR "local variables"
  checkVstack
  setVar vtop fun v => { v with name := name, final := final }
  setVarmap (nactvar + n) vtop
  setVtop (vtop + 1)

/-- Add local variables. -/
def varAdd : BCReg → EmitM Unit
  | 0 => pure ()
  | nvars + 1 => do
      let fs ← getFs
      setVar (fs.varmap fs.regs.nactvar) fun v =>
        { v with startpc := fs.code.pc, slot := fs.regs.nactvar % 256, rw := false,
                 isgoto := false, islabel := false }
      modifyRegs fun regs => { regs with nactvar := regs.nactvar + 1 }
      varAdd nvars

/-- Remove local variables. -/
def varRemove (tolevel : BCReg) : EmitM Unit := do
  varRemoveFrom tolevel (← getFs).regs.nactvar
where
  varRemoveFrom (tolevel : BCReg) : Nat → EmitM Unit
    | 0 => pure ()
    | nactvar + 1 => do
        if nactvar + 1 > tolevel then
          modifyRegs fun regs => { regs with nactvar := nactvar }
          let fs ← getFs
          setVar (fs.varmap nactvar) fun v => { v with endpc := fs.code.pc }
          varRemoveFrom tolevel nactvar

/-- Lookup local variable name. -/
def LexState.varLookupLocal (ls : LexState) (fs : FuncState) (n : GCstr) : Option BCReg :=
  (List.range fs.regs.nactvar).reverse.find? fun i => (ls.varGet fs i).name == .str n

/-- Lookup or add upvalue index. -/
def LexState.varLookupUv (ls : LexState) (fs : FuncState) (vidx : VarIndex) (e : ExpDesc) :
    Except ParseError (FuncState × Nat) :=
  let n := fs.uvmap.length
  let i := fs.uvmap.idxOf vidx
  if i < n then .ok (fs, i)  -- Already exists.
  else if n ≥ LJ_MAX_UPVAL then .error (ls.errLimit fs LJ_MAX_UPVAL "upvalues")
  else
    let tmp := if e.k = .vlocal then vidx else LJ_MAX_VSTACK + e.info
    .ok ({ fs with uvmap := fs.uvmap ++ [vidx], uvtmp := fs.uvtmp ++ [tmp] }, n)

/-- Mark scope as having an upvalue: the innermost one not above `level`. -/
def fscopeUvmark (level : BCReg) : List FuncScope → List FuncScope
  | [] => []
  | bl :: prev =>
      if bl.nactvar > level then bl :: fscopeUvmark level prev
      else { bl with upval := true } :: prev

/-- A variable found by name: the functions searched, the innermost first, its
descriptor and its index on the variable stack, `none` for a global. -/
abbrev Found := List FuncState × ExpDesc × Option VarIndex

/-- A variable of an outer function becomes an upvalue of this one. -/
def LexState.varUpvalue (ls : LexState) (fs : FuncState) : Found → Except ParseError Found
  | (prev, e, none) => .ok (fs :: prev, e, none)
  | (prev, e, some v) =>
      match ls.varLookupUv fs v e with
      | .ok (fs, i) => .ok (fs :: prev, { e with info := i % 256, k := .vupval }, some v)
      | .error err => .error err

/-- Recursively lookup variables in enclosing functions. -/
def LexState.varLookup_ (ls : LexState) (name : GCstr) :
    List FuncState → Bool → Except ParseError Found
  | [], _ =>  -- Not found in any function, must be a global.
      .ok ([], { ExpDesc.init .vglobal 0 with sval := name }, none)
  | fs :: prev, first =>
      match ls.varLookupLocal fs name with
      | some reg =>  -- Local in this function?
          let fs := if first then fs else { fs with bl := fscopeUvmark reg fs.bl }
          .ok (fs :: prev, { ExpDesc.init .vlocal reg with aux := fs.varmap reg },
            some (fs.varmap reg))
      | none =>
          match ls.varLookup_ name prev false with  -- Var in outer func?
          | .ok outer => ls.varUpvalue fs outer
          | .error err => .error err

/-- `ls->fs = fs`, the functions around it being `prev`. -/
def setFunctions (fs : FuncState) (prev : List FuncState) : EmitM Unit :=
  modify fun ls => { ls with fs := fs, prev := prev }

/-- Lookup variable name. -/
def varLookup : EmitM ExpDesc := do
  let name ← lexStr
  let ls ← get
  match ls.varLookup_ name (ls.fs :: ls.prev) true with
  | .ok (fs :: prev, e, _) =>
      setFunctions fs prev
      pure e
  | .ok ([], e, _) => pure e
  | .error err => throw err

/-! ## Goto and label handling -/

/-- Add a new goto or label. -/
def golaNew (name : VarName) (isgoto : Bool) (pc : BCPos) : EmitM VarIndex := do
  let vtop := (← get).vtop
  checkVstack
  let nactvar := (← getFs).regs.nactvar
  setVar vtop fun v =>
    { v with name := name, startpc := pc, slot := nactvar % 256, rw := false,
             isgoto := isgoto, islabel := !isgoto }
  setVtop (vtop + 1)
  pure vtop

/-- Patch goto to jump to label. -/
def golaPatch (vg vl : VarIndex) : EmitM Unit := do
  let ls ← get
  let pc := (ls.vstack vg).startpc
  setVar vg fun v => { v with name := .null }  -- Invalidate pending goto.
  changeIns pc (·.setA (ls.vstack vl).slot)
  jmpPatch pc (ls.vstack vl).startpc

/-- Patch goto to close upvalues. -/
def golaClose (vg : VarIndex) : EmitM Unit := do
  let v := (← get).vstack vg
  let pc := v.startpc
  changeIns pc (·.setA v.slot)
  if (← bcAt pc).op = .jmp then
    let next ← jmpNext pc
    if next ≠ NO_JMP then jmpPatch next pc  -- Jump to UCLO.
    changeIns pc fun ins => (ins.setOp .uclo).setJ (-1)  -- Turn into UCLO.

/-- Resolve pending forward gotos for label, one entry of the variable stack. -/
def golaResolveOne (idx vg : VarIndex) : EmitM Unit := do
  let ls ← get
  let v := ls.vstack vg
  let vl := ls.vstack idx
  if v.name = vl.name ∧ v.isgoto then
    if v.slot < vl.slot then
      setLinenumber (ls.fs.code.bcbase v.startpc).line
      match v.name, (ls.varGet ls.fs v.slot).name with
      | .str name, .str var => errLex (.xgscope name var)
      | _, _ => throw .stuck
    golaPatch vg idx

/-- Resolve pending forward gotos for label. -/
def golaResolve (bl : FuncScope) (idx : VarIndex) : EmitM Unit :=
  (List.range' bl.vstart (idx - bl.vstart)).forM (golaResolveOne idx)

/-- Resolve pending backward gotos to the label `name`, now invalidated. -/
def golaBackward (bl : FuncScope) (name : VarName) (v vg : VarIndex) : EmitM Unit := do
  let ls ← get
  if (ls.vstack vg).name = name ∧ (ls.vstack vg).isgoto then
    if bl.upval ∧ (ls.vstack vg).slot > (ls.vstack v).slot then golaClose vg
    golaPatch vg v

/-- Propagate goto or break to outer scope. -/
def golaPropagate (bl : FuncScope) (name : VarName) (v : VarIndex) : EmitM Unit := do
  modifyScopes fun scopes =>
    match scopes with
    | [] => []
    | prev :: rest =>
        (if name = .brk then { prev with brk := true } else { prev with gola := true }) :: rest
  setVar v fun v => { v with slot := bl.nactvar }
  if bl.upval then golaClose v

/-- No outer scope: undefined goto label or no loop. -/
def golaUndefined (name : VarName) (v : VarInfo) : EmitM Unit := do
  setLinenumber ((← getFs).code.bcbase v.startpc).line
  match name with
  | .str name => errLex (.xlundef name)
  | .small _ => errLex .xbreak

/-- Fixup remaining gotos and labels for scope, one entry of the variable
stack. -/
def golaFixupOne (bl : FuncScope) (ve v : VarIndex) : EmitM Unit := do
  let ls ← get
  let name := (ls.vstack v).name
  if name ≠ .null then  -- Only consider remaining valid gotos/labels.
    if (ls.vstack v).islabel then
      setVar v fun v => { v with name := .null }  -- Invalidate label that goes out of scope.
      (List.range' (v + 1) (ve - (v + 1))).forM (golaBackward bl name v)
    else if (ls.vstack v).isgoto then
      if ls.fs.bl ≠ [] then golaPropagate bl name v
      else golaUndefined name (ls.vstack v)

/-- Fixup remaining gotos and labels for scope. -/
def golaFixup (bl : FuncScope) : EmitM Unit := do
  let ve := (← get).vtop
  (List.range' bl.vstart (ve - bl.vstart)).forM (golaFixupOne bl ve)

/-- Find existing label. -/
def golaFindlabel (name : GCstr) : EmitM (Option VarIndex) := do
  let ls ← get
  let vstart := (ls.fs.bl.head?.map FuncScope.vstart).getD 0
  pure <| (List.range' vstart (ls.vtop - vstart)).find? fun v =>
    (ls.vstack v).name == .str name && (ls.vstack v).islabel

/-! ## Scope handling -/

/-- Begin a scope. -/
def fscopeBegin (loop : Bool) : EmitM Unit := do
  let vtop := (← get).vtop
  let regs := (← getFs).regs
  modifyScopes (⟨vtop, regs.nactvar % 256, loop, false, false, false, false⟩ :: ·)
  luaAssert .fscopeBegin (regs.freereg == regs.nactvar)

/-- Change the flags of the current scope. -/
def markScope (change : FuncScope → FuncScope) : EmitM Unit :=
  modifyScopes fun scopes =>
    match scopes with
    | [] => []
    | bl :: prev => change bl :: prev

/-- The scope on top of the list of scopes. -/
def currentScope : EmitM FuncScope := do
  match (← getFs).bl with
  | bl :: _ => pure bl
  | [] => throw .stuck

/-- End a scope. -/
def fscopeEnd : EmitM Unit := do
  let bl ← currentScope
  modifyScopes List.tail
  varRemove bl.nactvar
  lowerFreereg (← getFs).regs.nactvar
  luaAssert .fscopeEnd (bl.nactvar == (← getFs).regs.nactvar)
  if bl.upval ∧ !bl.noclose then
    let _ ← bcemitAJ .uclo bl.nactvar 0
  if bl.brk ∧ !bl.loop then  -- Need the fixup step to propagate the breaks.
    golaFixup bl
  else
    if bl.brk then
      let idx ← golaNew .brk false (← getFs).code.pc
      setVtop idx  -- Drop break label immediately.
      golaResolve bl idx
    if bl.gola then golaFixup bl

end TvmJit
