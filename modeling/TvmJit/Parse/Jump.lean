import TvmJit.Parse.State

/-! Jump list handling and the emission of single instructions. A jump list is
threaded through the jump fields of its instructions; walking it is bounded by
the number of instructions, since a longer walk runs in a circle. -/

namespace TvmJit

def Code.ins (c : Code) (pc : BCPos) : BCIns := (c.bcbase pc).ins

def Code.setIns (c : Code) (pc : BCPos) (ins : BCIns) : Code :=
  { c with bcbase := Function.update c.bcbase pc { c.bcbase pc with ins := ins } }

/-- The element after `pc` in its jump list. -/
def Code.next (c : Code) (pc : BCPos) : BCPos :=
  let delta := (c.ins pc).j
  if delta = -1 then NO_JMP else u32 (pc + 1 + delta)

/-- Reading `fs->bcbase[pc].ins`. -/
def bcAt (pc : BCPos) : CodeM BCIns := do
  let c ← get
  if pc < c.pc then pure (c.ins pc) else throw .stuck

/-- Changing an instruction. -/
def putIns (pc : BCPos) (ins : BCIns) : CodeM Unit := modify (·.setIns pc ins)

/-- Adding an instruction at the end. -/
def pushIns (line : BCLine) (ins : BCIns) : CodeM Unit :=
  modify fun c =>
    { c with bcbase := Function.update c.bcbase c.pc ⟨ins, line⟩, pc := c.pc + 1 }

/-- `fs->pc--`. -/
def dropIns : CodeM Unit := modify fun c => { c with pc := c.pc - 1 }

/-- `fs->bcbase[pc].line = line`. -/
def setLine (pc : BCPos) (line : BCLine) : CodeM Unit :=
  modify fun c =>
    { c with bcbase := Function.update c.bcbase pc { c.bcbase pc with line := line } }

/-- `fs->lasttarget = fs->pc`. -/
def markTarget : CodeM Unit := modify fun c => { c with lasttarget := c.pc }

/-- `fs->jpc = list`. -/
def setJpc (list : BCPos) : CodeM Unit := modify fun c => { c with jpc := list }

/-- Writing `fs->bcbase[pc].ins`. -/
def setBc (pc : BCPos) (ins : BCIns) : CodeM Unit := do
  let c ← get
  if pc < c.pc then putIns pc ins else throw .stuck

def jmpNext (pc : BCPos) : CodeM BCPos := do
  let c ← get
  if pc < c.pc then pure (c.next pc) else throw .stuck

/-- The instruction a jump of a jump list is controlled by. -/
def testPos (pc : BCPos) : BCPos := if 1 ≤ pc then pc - 1 else pc

def jmpNovalueFrom : Nat → BCPos → CodeM Bool
  | 0, _ => throw .stuck
  | fuel + 1, list => do
      if list = NO_JMP then pure false
      else
        let p ← bcAt (testPos list)
        if !(p.op == .istc || p.op == .isfc || p.a == NO_REG) then pure true
        else jmpNovalueFrom fuel (← jmpNext list)

/-- Check if any of the instructions on the jump list produce no value. -/
def jmpNovalue (list : BCPos) : CodeM Bool := do
  jmpNovalueFrom ((← get).pc + 1) list

/-- Patch register of test instructions. -/
def jmpPatchtestreg (pc : BCPos) (reg : BCReg) : CodeM Bool := do
  let ilp := testPos pc
  let ins ← bcAt ilp
  if ins.op = .istc ∨ ins.op = .isfc then
    if reg ≠ NO_REG ∧ reg ≠ ins.d then
      setBc ilp (ins.setA reg)
    else  -- Nothing to store or already in the right register.
      setBc ilp ((ins.setOp (ins.op.shift .istc .ist)).setA 0)
    pure true
  else if ins.a = NO_REG then
    if reg = NO_REG then
      setBc ilp (.aj .jmp (← bcAt pc).a 0)
    else
      setBc ilp (ins.setA reg)
      let after ← bcAt (ilp + 1)
      if reg ≥ after.a then setBc (ilp + 1) (after.setA (reg + 1))
    pure true
  else
    pure false  -- Cannot patch other instructions.

def jmpDropvalFrom : Nat → BCPos → CodeM Unit
  | 0, _ => throw .stuck
  | fuel + 1, list => do
      if list ≠ NO_JMP then
        let _ ← jmpPatchtestreg list NO_REG
        jmpDropvalFrom fuel (← jmpNext list)

/-- Drop values for all instructions on jump list. -/
def jmpDropval (list : BCPos) : CodeM Unit := do
  jmpDropvalFrom ((← get).pc + 1) list

/-- Patch jump instruction to target. -/
def jmpPatchins (pc dest : BCPos) : CodeM Unit := do
  let jmp ← bcAt pc
  let offset := u32 (dest - (pc + 1) + BCBIAS_J)
  if offset > BCMAX_D then throw (.syn .xjump)
  setBc pc (jmp.setD offset)

/-- Find the last element of a jump list. -/
def jmpLastFrom : Nat → BCPos → CodeM BCPos
  | 0, _ => throw .stuck
  | fuel + 1, list => do
      let next ← jmpNext list
      if next = NO_JMP then pure list else jmpLastFrom fuel next

/-- Append to jump list. -/
def jmpAppend (l1 l2 : BCPos) : CodeM BCPos := do
  if l2 = NO_JMP then pure l1
  else if l1 = NO_JMP then pure l2
  else
    let list ← jmpLastFrom ((← get).pc + 1) l1
    jmpPatchins list l2
    pure l1

def jmpPatchvalFrom : Nat → BCPos → BCPos → BCReg → BCPos → CodeM Unit
  | 0, _, _, _, _ => throw .stuck
  | fuel + 1, list, vtarget, reg, dtarget => do
      if list ≠ NO_JMP then
        let next ← jmpNext list
        if ← jmpPatchtestreg list reg then
          jmpPatchins list vtarget  -- Jump to target with value.
        else
          jmpPatchins list dtarget  -- Jump to default target.
        jmpPatchvalFrom fuel next vtarget reg dtarget

/-- Patch jump list and preserve produced values. -/
def jmpPatchval (list vtarget : BCPos) (reg : BCReg) (dtarget : BCPos) : CodeM Unit := do
  jmpPatchvalFrom ((← get).pc + 1) list vtarget reg dtarget

/-- Jump to following instruction. Append to list of pending jumps. -/
def jmpTohere (list : BCPos) : CodeM Unit := do
  markTarget
  setJpc (← jmpAppend (← get).jpc list)

/-- Patch jump list to target. -/
def jmpPatch (list target : BCPos) : CodeM Unit := do
  if target = (← get).pc then jmpTohere list
  else jmpPatchval list target NO_REG target

/-- Emit bytecode instruction, attributed to a line. -/
def emitIns (line : BCLine) (ins : BCIns) : CodeM BCPos := do
  let pc := (← get).pc
  jmpPatchval (← get).jpc pc NO_REG pc
  setJpc NO_JMP
  if (← get).bcofs + pc ≥ LJ_MAX_BCINS then
    throw (.limit LJ_MAX_BCINS "bytecode instructions")
  pushIns line ins
  pure pc

/-- Emit unconditional branch. A `UCLO` just emitted becomes the branch. -/
def emitJmp (line : BCLine) (freereg : BCReg) : CodeM BCPos := do
  let c ← get
  let jpc := c.jpc
  let ip ← bcAt (c.pc - 1)
  setJpc NO_JMP
  let j ←
    if c.lasttarget ≤ c.pc - 1 ∧ ip.op = .uclo then do
      setBc (c.pc - 1) (ip.setJ (-1))
      markTarget
      pure (c.pc - 1)
    else
      emitIns line (.aj .jmp freereg (-1))
  jmpAppend j jpc

end TvmJit
