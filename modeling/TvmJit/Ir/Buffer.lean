import TvmJit.Ir.Instructions
import TvmJit.Foundation.Walk

/-! The IR buffer of `lj_ir.c`. Instructions are added at the top and constants at the
bottom; both are chained by opcode through their `prev` fields, the newest one first. -/

namespace TvmJit

open Foundation Function

/-! ## The buffer -/

/-- One place of the buffer: an instruction, or the second slot of a 64-bit constant. -/
inductive IRSlot
  | ins (ir : IRIns)
  | tv (u64 : BitVec 64)

/-- The parts of `jit_State` the passes share: the IR of the current trace from `nk` to
`nins`, the heads of the chains and two of the optimisation flags. -/
structure JitState where
  ir : IRRef → IRSlot
  nins : IRRef
  nk : IRRef
  chain : IROp → IRRef1
  optCSE : Bool
  optDCE : Bool

namespace JitState

variable (J : JitState)

def IR (ref : IRRef) : IRIns :=
  match J.ir ref with
  | .ins ir => ir
  -- No pass reads the second slot of a constant as an instruction.
  | .tv _ => ⟨0, IRT_NIL, .nop, 0⟩

/-- The 64 bits in the second slot of a constant. -/
def TV (ref : IRRef) : BitVec 64 :=
  match J.ir ref with
  | .tv u64 => u64
  | .ins _ => 0

def setIR (ref : IRRef) (ir : IRIns) : JitState := { J with ir := update J.ir ref (.ins ir) }

def setTV (ref : IRRef) (u64 : BitVec 64) : JitState := { J with ir := update J.ir ref (.tv u64) }

def setChain (op : IROp) (ref : IRRef1) : JitState := { J with chain := update J.chain op ref }

/-- The links of the chain of an opcode: its head, and the `prev` fields. -/
def links (op : IROp) : Link IRRef → IRRef
  | none => (J.chain op).toNat
  | some ref => (J.IR ref).prev.toNat

/-- A store through a pointer to a link. -/
def setLink (op : IROp) (link : Link IRRef) (ref : IRRef1) : JitState :=
  match link with
  | none => J.setChain op ref
  | some place => J.setIR place { J.IR place with prev := ref }

end JitState

/-- A loop that passes more links than there are references has come back to one of them. -/
def chainSteps : Nat := 0x10001

/-! ## Emitting -/

section

variable (J : JitState) (fins : IRIns)

def lj_ir_emit : JitState × IRRef :=
  let ref := J.nins
  let op := fins.o
  ((({ J with nins := ref + 1 }).setIR ref { fins with prev := J.chain op }).setChain op (.of ref),
    ref)

/-- The search of a chain for an instruction with the same operands. -/
def searchCSE (lim : IRRef) : Option (Foundation.Found IRRef Unit) :=
  follow (J.links fins.o) (fun ref => lim < ref)
    (fun ref => if (J.IR ref).op12 = fins.op12 then some () else none) chainSteps none

def emitUnless (found : Foundation.Found IRRef Unit) : JitState × IRRef :=
  match found with
  | .hit _ ref _ => (J, ref)
  | .ended _ => lj_ir_emit J fins

def lj_opt_cse : Option (JitState × IRRef) :=
  if J.optCSE then
    (searchCSE J fins (max fins.op1.toNat fins.op2.toNat)).map (emitUnless J fins)
  else some (lj_ir_emit J fins)

def lj_opt_cselim (lim : IRRef) : Option (JitState × IRRef) :=
  (searchCSE J fins lim).map (emitUnless J fins)

end

/-! ## Interning of constants -/

/-- What the search for a constant compares: the 32 bits in place of the operands, the 64
bits in the second slot or, for a typed NULL, the type. -/
inductive KValue
  | bits (i : BitVec 32)
  | wide (u64 : BitVec 64)
  | type (t : IRType1)
  deriving DecidableEq

namespace KValue

/-- The number of slots of the constant. -/
def slots : KValue → Nat
  | wide _ => 2
  | bits _ | type _ => 1

/-- The 32 bits of its first slot. -/
def op12 : KValue → BitVec 32
  | bits i => i
  | wide _ | type _ => 0

end KValue

namespace JitState

variable (J : JitState)

/-- The constant has the value. -/
def holdsK (ref : IRRef) : KValue → Bool
  | .bits i => (J.IR ref).op12 = i
  | .wide u64 => J.TV (ref + 1) = u64
  | .type t => (J.IR ref).t = t

/-- A new constant below the others. -/
def addK (op : IROp) (t : IRType1) (value : KValue) : JitState × IRRef :=
  let ref := J.nk - value.slots
  let J := { J with nk := ref }
  let J := match value with
    | .wide u64 => J.setTV (ref + 1) u64
    | .bits _ | .type _ => J
  ((J.setIR ref ⟨value.op12, t, op, J.chain op⟩).setChain op (.of ref), ref)

/-- The common part of the interning functions. -/
def internK (op : IROp) (t : IRType1) (value : KValue) : Option (JitState × IRRef) :=
  (follow (J.links op) (· ≠ 0) (fun ref => if J.holdsK ref value then some () else none)
      chainSteps none).map fun found =>
    match found with
    | .hit _ ref _ => (J, ref)
    | .ended _ => J.addK op t value

end JitState

section

variable (J : JitState)

def lj_ir_kint (k : BitVec 32) : Option (JitState × IRRef) := J.internK .kint IRT_INT (.bits k)

/-- The opcode is `KNUM` or `KINT64`. -/
def lj_ir_k64 (op : IROp) (u64 : BitVec 64) : Option (JitState × IRRef) :=
  J.internK op (if op = .knum then IRT_NUM else IRT_I64) (.wide u64)

def lj_ir_knum_u64 (u64 : BitVec 64) : Option (JitState × IRRef) := lj_ir_k64 J .knum u64

def lj_ir_kint64 (u64 : BitVec 64) : Option (JitState × IRRef) := lj_ir_k64 J .kint64 u64

def lj_ir_knull (t : IRType1) : Option (JitState × IRRef) := J.internK .knull t (.type t)

def lj_ir_kslot (key slot : IRRef1) : Option (JitState × IRRef) :=
  J.internK .kslot IRT_P32 (.bits (IRREF2 key slot))

/-- A pointer as it is stored in the IR, with 64 bits when `LJ_GC64` is set. -/
abbrev GCRef (LJ_GC64 : Bool) : Type := BitVec (bif LJ_GC64 then 64 else 32)

/-- With `LJ_GC64` pointers stand in the second slot. -/
def KValue.ptr : (LJ_GC64 : Bool) → GCRef LJ_GC64 → KValue
  | false, ptr => .bits ptr
  | true, ptr => .wide ptr

variable (LJ_GC64 : Bool)

def IRT_PGC : IRType1 := if LJ_GC64 then IRT_P64 else IRT_P32

def lj_ir_kgc (o : GCRef LJ_GC64) (t : IRType1) : Option (JitState × IRRef) :=
  J.internK .kgc t (.ptr LJ_GC64 o)

/-- The opcode is `KPTR` or `KKPTR`. -/
def lj_ir_kptr_ (op : IROp) (ptr : GCRef LJ_GC64) : Option (JitState × IRRef) :=
  J.internK op (IRT_PGC LJ_GC64) (.ptr LJ_GC64 ptr)

end

/-! ## Rolling back -/

/-- The last instruction is taken off its chain. -/
def JitState.pop (J : JitState) : JitState :=
  let nins := J.nins - 1
  let ir := J.IR nins
  { J.setChain ir.o ir.prev with nins }

def lj_ir_rollback (J : JitState) (ref : IRRef) : JitState := JitState.pop^[J.nins - ref] J

/-! ## The start of a trace -/

/-- The state in which `lj_record_setup` leaves the buffer, whatever is left in it from an
earlier trace: the base instruction and the three primitive constants. -/
def lj_record_setup (LJ_GC64 : Bool) (ir : IRRef → IRSlot) (optCSE optDCE : Bool)
    (parent exitno : IRRef1) : JitState :=
  let J : JitState := ⟨ir, REF_BASE, REF_BASE, fun _ => 0, optCSE, optDCE⟩
  let J := (lj_ir_emit J ⟨IRREF2 parent exitno, IRT_PGC LJ_GC64, .base, 0⟩).1
  let J := [0, 1, 2].foldl (fun J i =>
    J.setIR (REF_NIL - i) ⟨0, IRT_NIL + BitVec.ofNat 8 i, .kpri, 0⟩) J
  { J with nk := REF_TRUE }

end TvmJit
