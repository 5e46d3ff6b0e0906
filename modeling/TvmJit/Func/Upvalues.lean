import TvmJit.Foundation.Ring
import TvmJit.Gc.Colours

/-! Upvalues and closures of `lj_func.c`, with what the collector of `lj_gc.c` does to them. An
open upvalue is on the list of its thread, which is sorted by stack slots, and in the ring of
all open upvalues, which goes through `uvhead`. -/

namespace TvmJit

open Foundation Function

/-- Addresses of upvalues. -/
abbrev UvRef := Nat

/-- The address of `g->uvhead`; NULL is 0. -/
def uvhead : UvRef := 1

/-- Addresses of closures. -/
abbrev FnRef := Nat

/-! ## Objects -/

section

variable (Thread TValue : Type)

/-- What an upvalue points to: a slot of a stack, or the value it holds itself. -/
inductive UvVal
  | slot (L : Thread) (n : Nat)
  | own
  deriving DecidableEq

/-- The union in an upvalue: its value when it is closed, links of the ring when it is open. -/
inductive UvData
  | tv (value : TValue)
  | links (prev next : UvRef)

structure GCupval where
  nextgc : UvRef
  marked : BitVec 8
  closed : Bool
  immutable : Bool
  data : UvData TValue
  v : UvVal Thread
  dhash : BitVec 32

variable {Thread TValue}

namespace GCupval

def prev (p : GCupval Thread TValue) : UvRef :=
  match p.data with
  | .links prev _ => prev
  | .tv _ => 0

def next (p : GCupval Thread TValue) : UvRef :=
  match p.data with
  | .links _ next => next
  | .tv _ => 0

end GCupval

/-- A Lua closure; `pc` is the lower half of the address of its bytecode. -/
structure GCfuncL where
  pc : BitVec 32
  uvptr : List UvRef

variable (Thread TValue)

/-- Upvalues, closures and the parts of `global_State` and `lua_State` that concern them. -/
structure UvState where
  /-- The upvalues that are allocated. -/
  uv : UvRef → Option (GCupval Thread TValue)
  /-- The closures that the program can still reach. -/
  fn : FnRef → Option GCfuncL
  openupval : Thread → UvRef
  headPrev : UvRef
  headNext : UvRef
  stack : Thread → Nat → TValue
  root : UvRef
  currentwhite : BitVec 8
  /-- `g->gc.state` is `GCSpropagate` or `GCSatomic`. -/
  marking : Bool
  /-- The number of upvalues created so far, more than any list holds. -/
  created : Nat

end

namespace UvState

def PROTO_UV_LOCAL : BitVec 16 := 0x8000
def PROTO_UV_IMMUTABLE : BitVec 16 := 0x4000

variable {Thread TValue : Type} [DecidableEq Thread] [Inhabited TValue] (S : UvState Thread TValue)

/-! ## Fields -/

/-- The upvalue at an address. -/
def get (u : UvRef) : GCupval Thread TValue :=
  -- Only allocated upvalues are read.
  (S.uv u).getD ⟨0, 0, false, false, .links 0 0, .own, 0⟩

def set (u : UvRef) (p : GCupval Thread TValue) : UvState Thread TValue :=
  { S with uv := update S.uv u (some p) }

/-- The links of a thread's list of open upvalues. -/
def links (L : Thread) : Link UvRef → UvRef
  | none => S.openupval L
  | some u => (S.get u).nextgc

def setLink (L : Thread) (link : Link UvRef) (ref : UvRef) : UvState Thread TValue :=
  match link with
  | none => { S with openupval := update S.openupval L ref }
  | some u => S.set u { S.get u with nextgc := ref }

/-- The next fields of the ring. -/
def nexts : Link UvRef → UvRef
  | none => S.headNext
  | some u => (S.get u).next

/-- The previous fields of the ring. -/
def prevs : Link UvRef → UvRef
  | none => S.headPrev
  | some u => (S.get u).prev

def setNext (link : Link UvRef) (ref : UvRef) : UvState Thread TValue :=
  match link with
  | none => { S with headNext := ref }
  | some u => S.set u { S.get u with data := .links (S.get u).prev ref }

def setPrev (link : Link UvRef) (ref : UvRef) : UvState Thread TValue :=
  match link with
  | none => { S with headPrev := ref }
  | some u => S.set u { S.get u with data := .links ref (S.get u).next }

/-- The value an upvalue points to. -/
def value (u : UvRef) : TValue :=
  match (S.get u).v with
  | .slot L n => S.stack L n
  | .own =>
      match (S.get u).data with
      | .tv value => value
      | .links .. => default

/-! ## Colours -/

def otherwhite : BitVec 8 := S.currentwhite ^^^ LJ_GC_WHITES

def curwhite : BitVec 8 := S.currentwhite &&& LJ_GC_WHITES

def isdead (p : GCupval Thread TValue) : Bool := p.marked &&& S.otherwhite &&& LJ_GC_WHITES != 0

def makewhite (marked : BitVec 8) : BitVec 8 := (marked &&& ~~~LJ_GC_COLORS) ||| S.curwhite

/-! ## Upvalues -/

def unlinkuv (u : UvRef) : UvState Thread TValue :=
  let S := S.setPrev (placeLink uvhead (S.get u).next) (S.get u).prev
  S.setNext (placeLink uvhead (S.get u).prev) (S.get u).next

/-- The pointer of an upvalue is not below a slot of the stack. -/
def notBelow (u : UvRef) (L : Thread) (slot : Nat) : Bool :=
  match (S.get u).v with
  | .slot L' n => L' = L ∧ slot ≤ n
  | .own => false

/-- The allocator may put a new upvalue at the address. -/
def isFree (u : UvRef) : Bool := u ≠ 0 ∧ u ≠ uvhead ∧ (S.uv u).isNone

/-- A new open upvalue in front of what the link leads to. -/
def insertuv (L : Thread) (pp : Link UvRef) (slot : Nat) (new : UvRef) : UvState Thread TValue :=
  -- `immutable` and `dhash` are set by the caller.
  let S := S.set new
    ⟨S.links L pp, S.curwhite, false, false, .links uvhead S.headNext, .slot L slot, 0⟩
  let S := S.setLink L pp new
  let S := S.setPrev (placeLink uvhead (S.get new).next) new
  { S with headNext := new, created := S.created + 1 }

/-- Find existing open upvalue for a stack slot or create a new one, for which the allocator
returns the given address. -/
def func_finduv (L : Thread) (slot : Nat) (new : UvRef) : Option (UvState Thread TValue × UvRef) :=
  match follow (S.links L) (fun p => p ≠ 0 ∧ S.notBelow p L slot)
      (fun p => if (S.get p).v = .slot L slot then some () else none) (S.created + 1) none with
  | none => none
  | some (.hit _ p _) =>
      if S.isdead (S.get p) then
        some (S.set p { S.get p with marked := (S.get p).marked ^^^ LJ_GC_WHITES }, p)
      else some (S, p)
  | some (.ended pp) => if S.isFree new then some (S.insertuv L pp slot new, new) else none

/-- Create an empty and closed upvalue. -/
def func_emptyuv (new : UvRef) : Option (UvState Thread TValue) :=
  if S.isFree new then
    some { S.set new ⟨S.root, S.curwhite, true, false, .tv default, .own, 0⟩ with
      root := new, created := S.created + 1 }
  else none

/-- Copy the stack slot to the upvalue itself and point to the copy. -/
def lj_gc_closeuv (u : UvRef) : UvState Thread TValue :=
  let p := S.get u
  let marked :=
    if p.marked &&& LJ_GC_COLORS = 0 then
      -- A closed upvalue is never gray.
      if S.marking then p.marked ||| LJ_GC_BLACK else S.makewhite p.marked
    else p.marked
  { S.set u { p with data := .tv (S.value u), v := .own, closed := true, nextgc := S.root, marked }
    with root := u }

def lj_func_freeuv (u : UvRef) : UvState Thread TValue :=
  let S := if (S.get u).closed then S else S.unlinkuv u
  { S with uv := update S.uv u none }

/-- The first upvalue of the list is closed. -/
def closeFirst (L : Thread) : UvState Thread TValue :=
  let u := S.openupval L
  let S := S.setLink L none (S.get u).nextgc
  if S.isdead (S.get u) then S.lj_func_freeuv u else (S.unlinkuv u).lj_gc_closeuv u

def closeLoop (L : Thread) (level : Nat) : Nat → UvState Thread TValue → Option (UvState Thread TValue)
  | 0, _ => none
  | steps + 1, S =>
      if S.openupval L ≠ 0 ∧ S.notBelow (S.openupval L) L level then
        closeLoop L level steps (S.closeFirst L)
      else some S

/-- Close all open upvalues pointing to some stack level or above. -/
def lj_func_closeuv (L : Thread) (level : Nat) : Option (UvState Thread TValue) :=
  closeLoop L level (S.created + 1) S

/-! ## Closures -/

/-- One upvalue of a new closure. -/
def captureuv (L : Thread) (base : Nat) (parent : GCfuncL) (v : BitVec 16) (new : UvRef) :
    Option (UvState Thread TValue × UvRef) :=
  if v &&& PROTO_UV_LOCAL ≠ 0 then
    match S.func_finduv L (base + (v &&& 0xff).toNat) new with
    | none => none
    | some (S, u) =>
        let immutable : Bool := v &&& PROTO_UV_IMMUTABLE ≠ 0
        let dhash := parent.pc ^^^ (v.setWidth 32 <<< 24)
        some (S.set u { S.get u with immutable, dhash }, u)
  else
    match parent.uvptr[v.toNat]? with
    | none => none
    | some u => some (S, u)

/-- The upvalues of a new closure in turn, each with the address for a new one. -/
def captureuvs (L : Thread) (base : Nat) (parent : GCfuncL) :
    List (BitVec 16 × UvRef) → UvState Thread TValue → Option (UvState Thread TValue × List UvRef)
  | [], S => some (S, [])
  | (v, new) :: rest, S =>
      match S.captureuv L base parent v new with
      | none => none
      | some (S, u) =>
          match captureuvs L base parent rest S with
          | none => none
          | some (S, us) => some (S, u :: us)

/-- Create a new Lua function with inherited upvalues, at the given address. -/
def lj_func_newL_gc (L : Thread) (base : Nat) (parent : GCfuncL) (pc : BitVec 32)
    (uv : List (BitVec 16 × UvRef)) (fn : FnRef) : Option (UvState Thread TValue) :=
  match captureuvs L base parent uv S with
  | none => none
  | some (S, uvptr) => some { S with fn := update S.fn fn (some ⟨pc, uvptr⟩) }

/-- The upvalues of a new closure without a parent; `pt` is the lower half of the address of its
prototype. -/
def emptyuvs (pt : BitVec 32) :
    List (BitVec 16 × UvRef) → UvState Thread TValue → Option (UvState Thread TValue × List UvRef)
  | [], S => some (S, [])
  | (v, new) :: rest, S =>
      match S.func_emptyuv new with
      | none => none
      | some S =>
          let immutable : Bool := v &&& PROTO_UV_IMMUTABLE ≠ 0
          let dhash := pt ^^^ (v.setWidth 32 <<< 24)
          match emptyuvs pt rest (S.set new { S.get new with immutable, dhash }) with
          | none => none
          | some (S, us) => some (S, new :: us)

/-- Create a new Lua function with empty upvalues, at the given address. -/
def lj_func_newL_empty (pt pc : BitVec 32) (uv : List (BitVec 16 × UvRef)) (fn : FnRef) :
    Option (UvState Thread TValue) :=
  match emptyuvs pt uv S with
  | none => none
  | some (S, uvptr) => some { S with fn := update S.fn fn (some ⟨pc, uvptr⟩) }

/-! ## Stores -/

def storeSlot (L : Thread) (n : Nat) (value : TValue) : UvState Thread TValue :=
  { S with stack := update S.stack L (update (S.stack L) n value) }

/-- A store through an upvalue. -/
def storeuv (u : UvRef) (value : TValue) : UvState Thread TValue :=
  match (S.get u).v with
  | .slot L n => S.storeSlot L n value
  | .own => S.set u { S.get u with data := .tv value }

/-! ## Collection -/

/-- The sweep of a thread's list of open upvalues in `gc_sweep`. -/
def sweepLoop (L : Thread) : Nat → Link UvRef → UvState Thread TValue → Option (UvState Thread TValue)
  | 0, _, _ => none
  | steps + 1, p, S =>
      let o := S.links L p
      if o = 0 then some S
      else if ((S.get o).marked ^^^ LJ_GC_WHITES) &&& S.otherwhite ≠ 0 then
        sweepLoop L steps (some o) (S.set o { S.get o with marked := S.makewhite (S.get o).marked })
      else
        let nextgc := (S.get o).nextgc
        let S := S.setLink L p nextgc
        -- Adjust list anchor.
        let S := if o = S.root then { S with root := nextgc } else S
        sweepLoop L steps p (S.lj_func_freeuv o)

def gc_sweepuv (L : Thread) : Option (UvState Thread TValue) :=
  sweepLoop L (S.created + 1) none S

/-- The sweep of an upvalue that is on the list of all objects. -/
def gc_sweepclosed (u : UvRef) : UvState Thread TValue :=
  if ((S.get u).marked ^^^ LJ_GC_WHITES) &&& S.otherwhite ≠ 0 then
    S.set u { S.get u with marked := S.makewhite (S.get u).marked }
  else
    let S := if u = S.root then { S with root := (S.get u).nextgc } else S
    S.lj_func_freeuv u

/-- What other parts of the collector do to upvalues and closures: they change colours and the
current white, and closures get out of reach. -/
def recolour (marked : UvRef → BitVec 8) (currentwhite : BitVec 8) (marking : Bool)
    (reached : FnRef → Bool) : UvState Thread TValue :=
  { S with
    uv := fun u => (S.uv u).map fun p => { p with marked := marked u }
    fn := fun f => if reached f then S.fn f else none
    currentwhite, marking }

end UvState

end TvmJit
