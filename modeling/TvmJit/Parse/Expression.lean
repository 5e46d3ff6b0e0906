import TvmJit.Parse.Function

/-! Expressions. The functions of the parser call each other through
`parse_stmt`; here each takes the statement parser as an argument, and
`Parse.Statement` ties the knot. -/

namespace TvmJit

/-- A parser for `parse_stmt(ls, v)` or `expr(ls, v)`, given the contents of
`*v`. The answer is what the form wrote to `*v`, `none` when it wrote nothing. -/
abbrev StmtParser := Slot → ParseM (Option ExpDesc)

variable (stmt : StmtParser)

/-! ## Loops over the input -/

/-- A loop that takes at least one token each time round. -/
def tokenLoop (body : α → ParseM (α ⊕ β)) (a : α) : ParseM β := do
  Foundation.loop .outOfFuel body ((← get).ls.rest.length + 2) a

/-- `while (!lex_opt(ls, ')')) { body }`. -/
def untilRparen (body : α → ParseM α) (a : α) : ParseM α :=
  tokenLoop (fun a => do
    if ← lexOpt .rparen then pure (.inr a)
    else pure (.inl (← body a))) a

section

open Foundation

variable (inv : α → ParseState → Prop) {stop : ParseError → ParseState → Prop}

theorem wp_tokenLoop {body : α → ParseM (α ⊕ β)} {post : β → ParseState → Prop}
    (step : ∀ a s, inv a s → wp (body a) s (fun r s' => Sum.elim (inv · s') (post · s') r) stop)
    (out : ∀ a s, inv a s → stop .outOfFuel s) (a : α) (s : ParseState) (start : inv a s) :
    wp (tokenLoop body a) s post stop := by
  unfold tokenLoop
  rw [wp_bind, wp_get]
  exact wp_loop inv step out _ a s start

theorem wp_untilRparen {body : α → ParseM α} {post : α → ParseState → Prop}
    (step : ∀ a s, inv a s → s.ls.tok ≠ .rparen → wp (body a) s inv stop)
    (done : ∀ a s, inv a s → s.ls.tok = .rparen → post a { s with ls := s.ls.next })
    (out : ∀ a s, inv a s → stop .outOfFuel s) (a : α) (s : ParseState) (start : inv a s) :
    wp (untilRparen body a) s post stop := by
  refine wp_tokenLoop inv (fun a s holds => ?_) out a s start
  rw [wp_bind]
  change wp (inEmit (lexOpt .rparen)) s _ _
  rw [wp_inEmit, wp_lexOpt]
  split
  · next closed => exact done a s holds closed
  · next opened =>
      simp only [Bool.false_eq_true, if_false, wp_bind]
      exact step a s holds opened

end

/-! ## Descriptors -/

/-- An `ExpDesc` variable after `expr(ls, &v)` has returned: the tokens the
call started at, whether it wrote the variable, and what the variable holds. -/
structure Operand where
  ahead : List Token
  written : Bool
  slot : Slot

namespace Operand

/-- The first use of the descriptor. An uninitialised one has no contents. -/
def use (operand : Operand) : ParseM ExpDesc := do
  modify fun s => { s with log := ⟨operand.ahead, operand.written⟩ :: s.log }
  match operand.slot with
  | some e => pure e
  | none => throw .stuck

end Operand

/-! ## Primary expressions -/

/-- The special names that are values. -/
def exprSpecial : SP → EmitM ExpDesc
  | .vararg => do
      if !(← getFs).flags.vararg then errSyntax .xdots
      bcregReserve 1
      let fs ← getFs
      let base := u32 (fs.regs.freereg - 1)
      let pc ← bcemitABC .varg base 2 fs.numparams
      pure { ExpDesc.init .vcall pc with aux := base }
  | .nil => pure (.init .vknil 0)
  | .true_ => pure (.init .vktrue 0)
  | .false_ => pure (.init .vkfalse 0)
  | _ => errSyntax .xexpr

/-- An expression of one token. -/
def exprToken : Token → EmitM ExpDesc
  | .number n => do
      lexNext
      pure { ExpDesc.init .vknum 0 with nval := n }
  | .cdata cd => do
      lexNext
      pure { ExpDesc.init .vkcdata 0 with cd := cd }
  | .string s => do
      lexNext
      pure { ExpDesc.init .vkstr 0 with sval := s }
  | .name s =>
      match reserved s with
      | some sp => do
          lexNext
          exprSpecial sp
      | none => varLookup
  | _ => errSyntax .xexpr

/-- Parse expression. -/
def expr (v : Slot) : ParseM (Option ExpDesc) := do
  let tok := (← get).ls.tok
  if tok = .lparen then
    lexNext
    stmt v
  else
    pure (some (← exprToken tok))

/-- `expr(ls, &v)`, leaving the variable to be used later. -/
def operand (v : Slot) : ParseM Operand := do
  let ahead := (← get).ls.ahead
  let result ← expr stmt v
  pure ⟨ahead, result.isSome, result <|> v⟩

/-- `expr(ls, &v)` where the caller uses the variable next. -/
def exprUse (v : Slot) : ParseM ExpDesc := do
  (← operand stmt v).use

/-- Assign expression to the next register. -/
def exprNext : ParseM Unit := do
  let e ← exprUse stmt none
  let _ ← exprTonextreg e

/-- Parse conditional expression. -/
def exprCond : ParseM BCPos := do
  let v ← exprUse stmt none
  let v ← bcemitBranchT (if v.k = .vknil then { v with k := .vkfalse } else v)
  pure v.f

/-- Parse expression list. Last expression is left open. -/
def exprList (v : Slot) : ParseM (Nat × Operand) := do
  let first ← operand stmt v
  untilRparen (fun (n, last) => do
    let e ← exprTonextreg (← last.use)
    pure (n + 1, ← operand stmt (some e))) (1, first)

/-! ## Indexing and table constructors -/

/-- Return string expression. -/
def exprStr : EmitM ExpDesc := do
  pure { ExpDesc.init .vkstr 0 with sval := ← lexStr }

/-- Return index expression. -/
def exprIndex (t e : ExpDesc) : EmitM ExpDesc := do
  let k := e.nval.num2int
  if e.isnumk ∧ checku8 k ∧ e.nval.eq (.ofInt k) then
    recordUse e.nval (.byte k.toNat)
    pure (indexed (BCMAX_C + 1 + k.toNat))  -- 256..511: const byte key
  else
    let idx ← if e.isstrk then constStr e else pure (BCMAX_C + 1)
    if e.isstrk ∧ idx ≤ BCMAX_C then
      pure (indexed (0xffffffff - idx))  -- -256..-1: const string key
    else
      pure (indexed (← exprToanyreg e).info)  -- 0..255: register
where
  indexed (aux : Nat) : ExpDesc := { t with k := .vindexed, aux := aux }

/-- Get value of constant expression. -/
def exprKvalue (e : ExpDesc) : TValue :=
  match e.k with
  | .vknil => .nil
  | .vkfalse => .bool false
  | .vktrue => .bool true
  | .vkstr => .obj (.str e.sval)
  | _ => .num e.nval

/-- Parse 'index' statement. -/
def parseIndex (v : Slot) : ParseM (Option ExpDesc) := do
  let e ← exprToanyreg (← exprUse stmt v)
  let key ← exprToval (← exprUse stmt none)
  let e ← exprIndex e key
  lexCheck .rparen .rparen
  pure (some e)

/-- The locals of `expr_table`; `t` is the index of the template table. -/
structure TableState where
  e : ExpDesc
  t : Option Nat
  vcall : Bool
  needarr : Bool
  fixt : Bool
  narr : Nat
  nhash : Nat

/-- Parse the key of a table item, if there is one, and its value. -/
def exprTableItem (ts : TableState) : ParseM (TableState × ExpDesc × ExpDesc) := do
  let val ← operand stmt none
  if ← lexOpt .colon then
    let val ← val.use
    let key ← exprToval val
    let e ← if !key.isk then exprIndex ts.e key else pure ts.e
    let ts :=
      if key.isnumk && key.numiszero then { ts with e := e, needarr := true }
      else { ts with e := e, nhash := ts.nhash + 1 }
    let val ← exprUse stmt (some val)
    pure ({ ts with vcall := false }, key, val)
  else
    let key := { ExpDesc.init .vknum 0 with nval := .ofInt ts.narr }
    let val ← val.use
    pure ({ ts with narr := ts.narr + 1, needarr := true, vcall := true }, key, val)

def modifyTabs (change : List GCtab → List GCtab) : EmitM Unit :=
  modify fun ls => { ls with tabs := change ls.tabs }

def modifyTab (id : Nat) (change : GCtab → GCtab) : EmitM Unit :=
  modifyTabs (·.modify id change)

/-- Create template table on demand, replacing the `TNEW` at `pc`. -/
def templateTable (freg : BCReg) (pc : BCPos) (ts : TableState) : EmitM Nat := do
  match ts.t with
  | some id => pure id
  | none =>
      let id := (← get).tabs.length
      let tab := ⟨if ts.needarr then ts.narr else 0, hsize2hbits ts.nhash, []⟩
      modifyTabs (· ++ [tab])
      let kidx ← constGc (.tab id)
      setBc pc (.ad .tdup (u32 (freg - 1)) kidx)
      pure id

/-- Store a table item by an instruction. -/
def exprTableStore (ts : TableState) (key val : ExpDesc) : EmitM TableState := do
  let (ts, val) ←
    if val.k ≠ .vcall then pure ({ ts with vcall := false }, ← exprToanyreg val)
    else pure (ts, val)
  let e ← if key.isk then exprIndex ts.e key else pure ts.e
  let _ ← bcemitStore e val
  pure { ts with e := e }

/-- The slot of a constant key in a template table. -/
def templateKey (key : ExpDesc) : EmitM TabKey := do
  let slot ← liftKey (tabKey (exprKvalue key))
  if key.isnumk then recordUse key.nval (.key slot)
  pure slot

/-- Store a constant to a template table. -/
def templateStore (id : Nat) (slot : TabKey) (val : ExpDesc) : EmitM Unit := do
  if val.isnumk then recordUse val.nval (.value (exprKvalue val))
  modifyTab id (·.set slot (exprKvalue val))

/-- Put a table item into the template table or emit the store. -/
def exprTableAdd (freg : BCReg) (pc : BCPos) (ts : TableState) (key val : ExpDesc) :
    EmitM TableState := do
  if key.isk && key.k != .vknil && (key.k == .vkstr || val.iskNojump) then
    let id ← templateTable freg pc ts
    let ts := { ts with t := some id, vcall := false }
    let slot ← templateKey key
    if val.iskNojump then  -- Add const key/value to template table.
      templateStore id slot val
      pure ts
    else  -- Otherwise create dummy string key, with the table itself as value.
      modifyTab id (·.set slot (.obj (.tab id)))
      exprTableStore { ts with fixt := true } key val
  else
    exprTableStore ts key val

/-- The open call at the end of a table constructor stores all its results. -/
def exprTableMulti (freg : BCReg) (narr : Nat) : EmitM Unit := do
  if narr > 256 then dropIns
  -- Biased integer to avoid denormals.
  let nval : Num := 0x4330000000000000 + BitVec.ofNat 64 (u32 (narr - 1))
  let idx ← constNum { ExpDesc.init .vknum 0 with nval := nval }
  let pc := (← getFs).code.pc
  setBc (pc - 1) (.ad .tsetm freg idx)
  changeIns (pc - 2) (·.setB 0)

/-- `TNEW` gets its size hints, the template table its final shape. -/
def exprTableFinish (pc : BCPos) (ts : TableState) : EmitM Unit := do
  match ts.t with
  | none =>
      let narr := if !ts.needarr then 0 else if ts.narr < 3 then 3 else min ts.narr 0x7ff
      changeIns pc (·.setD (narr ||| (hsize2hbits ts.nhash <<< 11)))
  | some id =>
      if ts.needarr then modifyTab id fun tab => { tab with asize := max tab.asize ts.narr }
      if ts.fixt then  -- Fix value for dummy keys in template table.
        modifyTab id fun tab =>
          { tab with entries := tab.entries.map fun entry =>
              if entry.2 = .obj (.tab id) then (entry.1, .nil) else entry }

/-- What is left to do after the closing parenthesis of a table constructor. -/
def exprTableEnd (freg : BCReg) (pc : BCPos) (ts : TableState) : EmitM ExpDesc := do
  if ts.vcall then exprTableMulti freg ts.narr
  let e ←
    if pc + 1 = (← getFs).code.pc then do  -- Make expr relocable if possible.
      decFreereg
      pure { ts.e with info := pc, k := .vrelocable }
    else pure { ts.e with k := .vnonreloc }  -- May have been changed by expr_index.
  exprTableFinish pc ts
  pure e

/-- Parse table constructor expression. -/
def exprTable : ParseM (Option ExpDesc) := do
  let freg := (← getFs).regs.freereg
  let pc ← bcemitAD .tnew freg 0
  bcregReserve 1
  let e := ExpDesc.init .vnonreloc freg
  let freg := freg + 1
  let ts ← untilRparen (fun ts => do
    let (ts, key, val) ← exprTableItem stmt ts
    let ts ← exprTableAdd freg pc ts key val
    lowerFreereg freg
    pure ts) (⟨e, none, false, false, false, 1, 0⟩ : TableState)
  pure (some (← exprTableEnd freg pc ts))

/-! ## Operators and calls -/

/-- Leave one result of an open call (`gen_setoneret`). -/
def genSetoneret (e : ExpDesc) : EmitM ExpDesc := do
  if e.k = .vcall then
    if (← bcAt e.info).op = .varg then  -- Vararg assignment.
      decFreereg
      pure { e with k := .vrelocable }
    else  -- Base of call is not relocatable.
      pure { e with info := e.aux, k := .vnonreloc }
  else pure e

/-- Parse function argument list. -/
def parseArgs : ParseM ExpDesc := do
  if ← lexOpt .rparen then pure (.init .vvoid 0)
  else
    let (_, last) ← exprList stmt none
    let args ← last.use
    if args.k = .vcall then changeIns args.info (·.setB 0)  -- Pass on multiple results.
    pure args

/-- The opcode of a unary operator. -/
def unop : SP → BCOp
  | .not => .not
  | .neg => .unm
  | _ => .len

/-- Parse 'unop' statement. -/
def parseUnop (sp : SP) (v : Slot) : ParseM (Option ExpDesc) := do
  let e ← exprUse stmt v
  let e ← bcemitUnop (unop sp) e
  lexCheck .rparen .rparen
  pure (some e)

/-- The function `libname.fctname` of an emulated operator. -/
def index4emulated (libname fctname : GCstr) : EmitM ExpDesc := do
  let v ← exprToanyreg { ExpDesc.init .vglobal 0 with sval := libname }
  let key ← exprToval { ExpDesc.init .vkstr 0 with sval := fctname }
  exprIndex v key

/-- The function an emulated operator calls, in the next register. -/
def emulated (fctname : GCstr) : EmitM ExpDesc := do
  let e ← index4emulated (.ofString "tvm") fctname
  exprTonextreg (← exprDischarge e)

/-- Parse 'bnot' statement. -/
def parseUnopBnotEmulated : ParseM (Option ExpDesc) := do
  let e ← emulated (.ofString "bnot")
  let args ← operand stmt none
  lexCheck .rparen .rparen
  let e ← bcemitCall e (← args.use)
  pure (some e)

def token2binop : SP → Option BinOpr
  | .add => some .add
  | .sub => some .sub
  | .mul => some .mul
  | .div => some .div
  | .mod => some .mod
  | .pow => some .pow
  | .concat => some .concat
  | .ne => some .ne
  | .eq => some .eq
  | .lt => some .lt
  | .le => some .le
  | .gt => some .gt
  | .ge => some .ge
  | .and => some .and
  | .or => some .or
  | _ => none

/-- Parse 'binop' statement. -/
def parseBinop [Vm] (sp : SP) (v : Slot) : ParseM (Option ExpDesc) := do
  match token2binop sp with
  | none => throw .stuck
  | some op =>
      let e1 ← exprUse stmt v
      let e1 ← bcemitBinopLeft op e1
      let e2 ← exprUse stmt none
      let e ← bcemitBinop op e1 e2
      lexCheck .rparen .rparen
      pure (some e)

/-- The library function of an emulated binary operator. -/
def emulatedName : SP → String
  | .idiv => "idiv"
  | .band => "band"
  | .bor => "bor"
  | .bxor => "bxor"
  | .shl => "shl"
  | _ => "shr"

/-- Parse emulated 'binop' statement. -/
def parseBinopEmulated (sp : SP) : ParseM (Option ExpDesc) := do
  let e ← emulated (.ofString (emulatedName sp))
  let args ← exprTonextreg (← exprUse stmt none)
  let args ← operand stmt (some args)
  lexCheck .rparen .rparen
  let e ← bcemitCall e (← args.use)
  pure (some e)

/-- Free the registers from `rc` down to `base`. -/
def freeDownto (base : BCReg) : BCReg → EmitM Unit
  | 0 => if base = 0 then bcregFree 0 else pure ()
  | rc + 1 => do
      if rc + 1 ≥ base then
        bcregFree (rc + 1)
        freeDownto base rc

/-- The last operand of 'mconcat': `e2` is uninitialised until the second
operand has been read. -/
def mconcatLast (ahead : List Token) (e2 : Option ExpDesc) : ParseM ExpDesc :=
  match e2 with
  | some e2 => pure e2
  | none => Operand.use ⟨ahead, false, none⟩

/-- Concatenate the registers from the one of `e1` to the one of `e2`. -/
def bcemitMconcat (line : BCLine) (e1 e2 : ExpDesc) : EmitM ExpDesc := do
  freeDownto e1.info e2.info
  let pc ← bcemitABC .cat 0 e1.info e2.info
  setLine ((← getFs).code.pc - 1) line
  pure { e1 with info := pc, k := .vrelocable }

/-- Parse the operands of 'mconcat' after the first one. -/
def mconcatOperands : ParseM (Option ExpDesc) :=
  untilRparen (fun e2 => do
    pure (some (← exprTonextreg (← exprUse stmt e2)))) none

/-- Parse 'mconcat' statement. -/
def parseMconcat (v : Slot) : ParseM (Option ExpDesc) := do
  let line := (← get).ls.linenumber
  let e1 ← exprTonextreg (← exprUse stmt v)
  let ahead := (← get).ls.ahead
  let e2 ← mconcatOperands stmt
  let e2 ← mconcatLast ahead e2
  pure (some (← bcemitMconcat line e1 e2))

/-- Parse 'call' statement. -/
def parseCall (v : Slot) : ParseM (Option ExpDesc) := do
  let e ← exprUse stmt v
  let e ← exprTonextreg (← exprDischarge e)
  let args ← parseArgs stmt
  pure (some (← bcemitCall e args))

/-- Parse 'callmeth' statement. -/
def parseCallmeth (v : Slot) : ParseM (Option ExpDesc) := do
  let e ← exprUse stmt v
  let e ← exprDischarge e
  let key ← exprStr
  let e ← bcemitMethod e key
  let args ← parseArgs stmt
  pure (some (← bcemitCall e args))

end TvmJit
