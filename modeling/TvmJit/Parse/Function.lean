import TvmJit.Parse.Scope

/-! Function state management: starting a function and turning its state into a
prototype. -/

namespace TvmJit

/-- The state `fs_init` gives a function; `bcofs` is where its bytecode starts
in the shared stack. -/
def FuncState.fresh (vbase bcofs : Nat) (linedefined : BCLine) : FuncState where
  code :=
    { bcbase := fun _ => ⟨.ad .funcf 0 0, 0⟩, pc := 0, lasttarget := 0, jpc := NO_JMP, bcofs := bcofs }
  regs := { freereg := 0, nactvar := 0, framesize := 1 }
  consts := { kt := [], nkn := 0, nkgc := 0 }
  bl := []
  linedefined := linedefined
  vbase := vbase
  flags := ⟨false, false, false, false, false⟩
  numparams := 0
  varmap := fun _ => 0
  uvmap := []
  uvtmp := []
  uses := []

/-- Initialize a new FuncState. -/
def fsInit (linedefined : BCLine) : EmitM Unit :=
  modify fun ls =>
    { ls with
      prev := ls.fs :: ls.prev
      fs := .fresh ls.vtop (ls.fs.code.bcofs + ls.fs.code.pc) linedefined }

/-! ## Fixups -/

/-- Check if bytecode op returns. -/
def bcopisret (op : BCOp) : Bool :=
  op == .callmt || op == .callt || op == .retm || op == .ret || op == .ret0 || op == .ret1

/-- Fixup of the returns encoded before first function was created, from the
instruction at `pc` on, `n` of them. -/
def fsFixupRetFrom : Nat → BCPos → EmitM Unit
  | 0, _ => pure ()
  | n + 1, pc => do
      let ins ← bcAt pc
      if bcopisret ins.op then
        let line := ((← getFs).code.bcbase pc).line
        let offset ← bcemitINS ins  -- Copy original instruction.
        setLine offset line
        let offset := u32 (offset - (pc + 1) + BCBIAS_J)
        if offset > BCMAX_D then errSyntax .xfixup
        -- Replace with UCLO plus branch.
        setBc pc (.ad .uclo 0 offset)
        fsFixupRetFrom n (pc + 1)
      else if ins.op = .uclo then pure ()  -- We're done.
      else fsFixupRetFrom n (pc + 1)

/-- Whether the code ends in a return that no jump bypasses. -/
def fsEndsInRet : CodeM Bool := do
  let c ← get
  if c.pc ≤ c.lasttarget then pure false
  else pure (bcopisret (← bcAt (c.pc - 1)).op)

/-- Fixup return instruction for prototype. -/
def fsFixupRet : EmitM Unit := do
  let lastpc := (← getFs).code.pc
  if !(← fsEndsInRet) then
    if (← currentScope).upval then
      let _ ← bcemitAJ .uclo 0 0
    let _ ← bcemitAD .ret0 0 1  -- Need final return.
  markScope fun bl => { bl with noclose := true }  -- Handled above.
  fscopeEnd
  -- May need to fixup returns encoded before first function was created.
  if (← getFs).flags.fixupReturn then fsFixupRetFrom (lastpc - 1) 1

/-- Fixup bytecode for prototype. -/
def FuncState.fixupBc (fs : FuncState) : List BCIns :=
  .ad (if fs.flags.vararg then .funcv else .funcf) fs.regs.framesize 0 ::
    (List.range' 1 (fs.code.pc - 1)).map fs.code.ins

/-- Fixup constants for prototype: the numbers. -/
def Consts.fixupKn (consts : Consts) : List Num :=
  (List.range consts.nkn).map fun i =>
    ((consts.kt.find? fun entry => entry.2 == i &&
      match entry.1 with | .obj _ => false | _ => true).map fun entry => entry.1.number).getD 0

/-- Fixup constants for prototype: the objects. -/
def Consts.fixupKgc (consts : Consts) : List GCobj :=
  (List.range consts.nkgc).filterMap fun i =>
    consts.kt.findSome? fun entry =>
      match entry.1 with
      | .obj o => if entry.2 = i then some o else none
      | _ => none

def PROTO_UV_LOCAL : Nat := 0x8000
def PROTO_UV_IMMUTABLE : Nat := 0x4000

/-- Fixup upvalues for child prototype, step #2. -/
def fsFixupUv2 (vstack : Nat → VarInfo) (pt : GCproto) : GCproto :=
  { pt with uv := pt.uv.map fun vidx =>
      if vidx ≥ LJ_MAX_VSTACK then vidx - LJ_MAX_VSTACK
      else if (vstack vidx).rw then (vstack vidx).slot ||| PROTO_UV_LOCAL
      else (vstack vidx).slot ||| PROTO_UV_LOCAL ||| PROTO_UV_IMMUTABLE }

/-- Lineinfo for prototype: the line of each instruction after the header,
relative to the first line, cut to the width `numline` needs. -/
def FuncState.fixupLine (fs : FuncState) (numline : BCLine) : List Nat :=
  let width : Int := if numline < 256 then 256 else if numline < 65536 then 65536 else 4294967296
  (List.range' 1 (fs.code.pc - 1)).map fun pc =>
    (((fs.code.bcbase pc).line - fs.linedefined) % width).toNat

/-- `lj_strfmt_wuleb128`, of a 32 bit number. -/
def wuleb128 (v : Nat) : List UInt8 :=
  if v < 128 then [.ofNat v] else .ofNat (v % 128 + 128) :: wuleb128 (v / 128)
termination_by v

/-- Upvalue names for prototype. -/
def LexState.prepUvinfo (ls : LexState) : List UInt8 :=
  ls.fs.uvmap.flatMap fun vidx =>
    match (ls.vstack vidx).name with
    | .str s => s ++ [0]
    | .small _ => [0]

/-- Local variable names and compressed ranges for prototype, of the given
entries of the variable stack. -/
def varinfoFrom (vstack : Nat → VarInfo) : BCPos → List VarIndex → List UInt8
  | _, [] => [0]  -- Terminator for varinfo.
  | lastpc, idx :: rest =>
      let v := vstack idx
      if v.isgoto ∨ v.islabel then varinfoFrom vstack lastpc rest
      else
        (match v.name with | .str s => s ++ [0] | .small n => [UInt8.ofNat n]) ++
          wuleb128 (u32 (v.startpc - lastpc)) ++ wuleb128 (u32 (v.endpc - v.startpc)) ++
          varinfoFrom vstack v.startpc rest

def LexState.prepVar (ls : LexState) : List UInt8 :=
  varinfoFrom ls.vstack 0 (List.range' ls.fs.vbase (ls.vtop - ls.fs.vbase))

/-- The lines, upvalues and local variables of the current function. -/
def LexState.debugRecord (ls : LexState) : DebugRecord where
  lines := (List.range' 1 (ls.fs.code.pc - 1)).map fun pc => (ls.fs.code.bcbase pc).line
  uvnames := ls.fs.uvmap.map fun vidx =>
    match (ls.vstack vidx).name with
    | .str s => s
    | .small _ => []
  vars := (List.range' ls.fs.vbase (ls.vtop - ls.fs.vbase)).filterMap fun idx =>
    let v := ls.vstack idx
    if v.isgoto ∨ v.islabel then none
    else some ⟨v.name, v.slot, .ofNat 32 v.startpc, .ofNat 32 v.endpc⟩

/-- The prototypes the constants refer to get their upvalues fixed up. -/
def LexState.fixupChildren (ls : LexState) : List GCproto :=
  ls.protos.mapIdx fun id pt =>
    if ls.fs.consts.kt.any (·.1 == .obj (.proto id)) then fsFixupUv2 ls.vstack pt else pt

/-- The prototype of the current function, spanning `numline` lines. -/
def LexState.toProto (ls : LexState) (numline : BCLine) : GCproto :=
  let fs := ls.fs
  { flags := { fs.flags with hasReturn := false, fixupReturn := false }
    numparams := fs.numparams
    framesize := fs.regs.framesize
    chunkname := ls.chunkname
    bc := fs.fixupBc
    kn := fs.consts.fixupKn
    kgc := fs.consts.fixupKgc
    uv := fs.uvtmp
    firstline := fs.linedefined
    numline := numline
    lineinfo := fs.fixupLine numline
    uvinfo := ls.prepUvinfo
    varinfo := ls.prepVar
    uses := fs.uses
    record := ls.debugRecord }

/-- The state with the current function turned into a prototype. -/
def LexState.popFunction (ls : LexState) (pt : GCproto) : LexState :=
  { ls with
    protos := ls.fixupChildren ++ [pt]
    vtop := ls.fs.vbase  -- Reset variable stack.
    fs := ls.prev.headD ls.fs
    prev := ls.prev.tail }

/-- Finish a FuncState and return the new prototype, the last one of the state. -/
def fsFinish (line : BCLine) : EmitM GCproto := do
  let numline := line - (← getFs).linedefined
  fsFixupRet  -- Apply final fixups.
  let ls ← get
  if ls.fs.consts.nkn > BCMAX_D + 1 then errLimit (BCMAX_D + 1) "constants"
  if ls.fs.consts.nkgc > BCMAX_D + 1 then errLimit (BCMAX_D + 1) "constants"
  let pt := ls.toProto numline
  set (ls.popFunction pt)
  pure pt

end TvmJit
