import Mathlib.Data.BitVec
import Mathlib.Tactic.Ring

/-! The stack of a thread and what `lj_state.c` and the collector do to its size. Pointers into it
are addresses that a change of the block leaves behind. -/

namespace TvmJit.Stack

/-- The width of pointers, and whether frames take two slots. -/
class StackTarget where
  width : Nat
  wide : 32 ≤ width
  LJ_FR2 : Bool

section

variable [StackTarget]

abbrev Ptr := BitVec StackTarget.width

abbrev MSize := BitVec 32

def LUA_MINSTACK : Nat := 20
def LJ_STACK_EXTRA : Nat := 5 + 2 * StackTarget.LJ_FR2.toNat
def LJ_STACK_MAX : Nat := 65500
def LJ_STACK_START : Nat := 2 * LUA_MINSTACK
def LJ_STACK_MAXEX : Nat := LJ_STACK_MAX + 1 + LJ_STACK_EXTRA

/-- A thread, and what of the global state has to do with its stack. -/
structure LuaState (V : Type) where
  stack : Ptr
  stacksize : MSize
  base : Ptr
  top : Ptr
  maxstack : Ptr
  /-- Where the values of the open upvalues are. -/
  openupval : List Ptr
  /-- The slots, from `stack` on. -/
  slots : Nat → V
  jit_base : Ptr
  /-- The thread is `cur_L`. -/
  isCurrent : Bool

/-- A block from `lj_mem_realloc`, with whatever is behind what was kept. -/
structure Block (V : Type) where
  st : Ptr
  rest : Nat → V

inductive StackError
  | errmem
  | errerr
  | stkov
  deriving DecidableEq

variable {V : Type} [Inhabited V]

namespace LuaState

/-- The bytes from the start of the stack. -/
def offset (L : LuaState V) (p : Ptr) : Ptr := p - L.stack

/-- The difference of pointers to slots. -/
def slot (L : LuaState V) (p : Ptr) : Int := (L.offset p).toInt / 8

/-- `resizestack`, with what `lj_mem_realloc` returns unless it throws. The default value is nil. -/
def resizestack (L : LuaState V) (n : MSize) (block : Option (Block V)) :
    LuaState V × Option StackError :=
  match block with
  | none => (L, some .errmem)
  | some block =>
      let oldst := L.stack
      let oldsize := L.stacksize
      let realsize := n + 1 + .ofNat 32 LJ_STACK_EXTRA
      let st := block.st
      let kept := min (oldsize * 8).toNat (realsize * 8).toNat / 8
      let delta := st - oldst
      let slots := fun i =>
        if oldsize.toNat ≤ i ∧ i < realsize.toNat then default  -- Clear new slots.
        else if i < kept then L.slots i
        else block.rest i
      -- The loop that clears counts `oldsize` up.
      let oldsize := if oldsize < realsize then realsize else oldsize
      ({ L with
          stack := st
          maxstack := st + .ofNat _ (8 * n.toNat)
          slots := slots
          stacksize := realsize
          jit_base :=
            if (L.jit_base - oldst).toNat < oldsize.toNat then L.jit_base + delta else L.jit_base
          base := L.base + delta
          top := L.top + delta
          openupval := L.openupval.map (· + delta) }, none)

/-- `lj_state_relimitstack`. -/
def relimitstack (L : LuaState V) (block : Option (Block V)) : LuaState V × Option StackError :=
  if L.stacksize.toNat > LJ_STACK_MAXEX ∧ L.slot L.top < LJ_STACK_MAX - 1 then
    L.resizestack (.ofNat 32 LJ_STACK_MAX) block
  else (L, none)

/-- `lj_state_shrinkstack`. -/
def shrinkstack (L : LuaState V) (used : MSize) (block : Option (Block V)) :
    LuaState V × Option StackError :=
  if L.stacksize.toNat > LJ_STACK_MAXEX then (L, none)
  else if (4 * used).toNat < L.stacksize.toNat ∧
      2 * (LJ_STACK_START + LJ_STACK_EXTRA) < L.stacksize.toNat ∧
      -- Don't shrink stack of live trace.
      (L.jit_base = 0 ∨ ¬L.isCurrent) then
    L.resizestack (L.stacksize >>> 1) block
  else (L, none)

/-- What `lj_state_growstack` asks for. -/
def growsize (stacksize need : MSize) : MSize :=
  let n := stacksize + need
  if n.toNat > LJ_STACK_MAX then n + .ofNat 32 (2 * LUA_MINSTACK)
  else if n < 2 * stacksize then
    let n := 2 * stacksize
    if n.toNat ≥ LJ_STACK_MAX then .ofNat 32 LJ_STACK_MAX else n
  else n

/-- `lj_state_growstack`. -/
def growstack (L : LuaState V) (need : MSize) (block : Option (Block V)) :
    LuaState V × Option StackError :=
  if L.stacksize.toNat > LJ_STACK_MAXEX then (L, some .errerr)
  else
    match L.resizestack (growsize L.stacksize need) block with
    | (L, some e) => (L, some e)
    | (L, none) => if L.stacksize.toNat > LJ_STACK_MAXEX then (L, some .stkov) else (L, none)

/-- `gc_traverse_frames`, with the slots of the frames and the frame sizes of Lua functions. -/
def gc_traverse_frames (L : LuaState V) (frames : List (Int × Option Nat)) : MSize :=
  let top := L.slot L.top - 1
  let top := frames.foldl (fun top (frame, framesize) =>
    let ftop := frame + (framesize.getD 0 : Nat)
    if ftop > top then ftop else top) top
  let top := top + 1  -- Correct bias of -1 (frame == base-1).
  let top := if top > L.slot L.maxstack then L.slot L.maxstack else top
  .ofInt 32 top

/-- `gc_traverse_thread`, without the marks. -/
def gc_traverse_thread (L : LuaState V) (atomic : Bool) (frames : List (Int × Option Nat))
    (block : Option (Block V)) : LuaState V × Option StackError :=
  let o : Int := max (1 + StackTarget.LJ_FR2.toNat) (L.slot L.top)
  let L :=
    if atomic then { L with
      slots := fun i => if o ≤ i ∧ i < L.stacksize.toNat then default else L.slots i }
    else L
  L.shrinkstack (L.gc_traverse_frames frames) block

end LuaState

/-- A call that may change the size of the stack. -/
inductive StackCall
  | grow (need : MSize)
  | shrink (used : MSize)
  | relimit
  | traverse (atomic : Bool) (frames : List (Int × Option Nat))

def StackCall.run (L : LuaState V) (block : Option (Block V)) : StackCall → LuaState V × Option StackError
  | grow need => L.growstack need block
  | shrink used => L.shrinkstack used block
  | relimit => L.relimitstack block
  | traverse atomic frames => L.gc_traverse_thread atomic frames block

end

end TvmJit.Stack
