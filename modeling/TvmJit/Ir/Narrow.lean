import TvmJit.Ir.Buffer
import TvmJit.Ir.Fold
import TvmJit.Number
import TvmJit.Foundation.Binary
import TvmJit.Foundation.Postfix

/-! Narrowing of type conversions of `lj_opt_narrow.c`: a recursive collector that puts code for a
stack machine on a stack of fixed size, and the machine that emits IR from it. -/

namespace TvmJit.Narrow

open Foundation Function

/-! ## Modes of conversions -/

/-- `IRCONV_*`, with 32 bits. -/
abbrev IRMode := BitVec 32

def IRCONV_SRCMASK : IRMode := 0x001f
def IRCONV_MODEMASK : IRMode := 0x0fff
def IRCONV_CONVMASK : IRMode := 0xf000
def IRCONV_SEXT : IRMode := 0x0800
def IRCONV_TOBIT : IRMode := 0x0000
def IRCONV_ANY : IRMode := 0x1000
def IRCONV_INDEX : IRMode := 0x2000
def IRCONV_CHECK : IRMode := 0x3000

/-- Maximum backpropagation depth and maximum stack size. -/
def NARROW_MAX_BACKPROP : Nat := 100
def NARROW_MAX_STACK : Nat := 256

/-- A typed reference. -/
abbrev TRef := BitVec 32

def tref_ref (tr : TRef) : IRRef1 := tr.setWidth 16

/-! ## The stack -/

/-- The words of the stack: the code, and the operands of the machine. -/
inductive NarrowIns
  /-- Push ref. -/
  | ref (ref : IRRef1)
  /-- Push conversion of ref. -/
  | conv (ref : IRRef1)
  /-- Push sign-extension of ref. -/
  | sext
  /-- Push KINT ref. The next code holds an int32_t. -/
  | int
  | k (k : BitVec 32)
  /-- A regular opcode with its type, and the reference it comes from. -/
  | op (o : IROp) (t : IRType1) (ref : IRRef1)
  /-- An operand of the machine. -/
  | operand (tr : TRef)
  deriving DecidableEq

/-- The stack of the collector, the newest word first, and all words that have been written, with
their places. -/
structure NarrowConv where
  stack : List NarrowIns
  writes : List (Nat × NarrowIns)

namespace NarrowConv

variable (nc : NarrowConv)

def sp : Nat := nc.stack.length

/-- Maximum stack pointer minus redzone. -/
def maxsp : Nat := NARROW_MAX_STACK - 4

/-- `*nc->sp++ = ins`. -/
def push (ins : NarrowIns) : NarrowConv := ⟨ins :: nc.stack, (nc.sp, ins) :: nc.writes⟩

/-- `nc->sp = savesp`. -/
def backtrack (saved : NarrowConv) : NarrowConv := { nc with stack := saved.stack }

end NarrowConv

/-! ## The backpropagation cache -/

structure BPropEntry where
  key : IRRef1
  val : IRRef1
  mode : IRMode

/-- Lookup a reference in the backpropagation cache. Stronger checks are ok, too. -/
def narrow_bpc_get (bpropcache : List BPropEntry) (key : IRRef1) (mode : IRMode) : Option BPropEntry :=
  bpropcache.find? fun bp => bp.key = key ∧ bp.mode ≥ mode ∧ (bp.mode ^^^ mode) &&& IRCONV_MODEMASK = 0

/-! ## Collecting the code -/

/-- `(int64_t)n`, which is the most negative integer where the truncated value does not fit. -/
def num2int64 (n : Num) : Int :=
  let k : Int := if n.msb then -(n.truncAbs : Int) else n.truncAbs
  if n.expBits = 2047 then -2 ^ 63 else if -2 ^ 63 ≤ k ∧ k < 2 ^ 63 then k else -2 ^ 63

/-- The opcode without its overflow check. -/
def stripov : IROp → IROp
  | .addov => .add
  | .subov => .sub
  | .mulov => .mul
  | o => o

section

variable (J : JitState) (bpropcache : List BPropEntry) (fins : IRIns)

/-- `nc.mode`. For `TOBIT` it is used only in the backpropagation cache. -/
def convMode : IRMode := if fins.o = .tobit then IRCONV_TOBIT else fins.op2.setWidth 32

/-- `nc.t`. -/
def convType : IRType1 := fins.t &&& IRT_TYPE

/-- Backpropagate overflow stripping, as many levels as are left of the maximum depth. -/
def narrow_stripov_backprop : Nat → NarrowConv → IRRef1 → NarrowConv
  | left, nc, ref =>
      let ir := J.IR ref.toNat
      if ir.o = .addov ∨ ir.o = .subov ∨ ir.o = .mulov ∧ convMode fins &&& IRCONV_CONVMASK = IRCONV_ANY then
        match narrow_bpc_get bpropcache ref IRCONV_TOBIT with
        | some bp => nc.push (.ref bp.val)
        | none =>
            match left with
            | 0 => nc.push (.ref ref)
            | left + 1 =>
                if nc.sp < NarrowConv.maxsp then
                  let nc₁ := narrow_stripov_backprop left nc ir.op1
                  if nc₁.sp < NarrowConv.maxsp then
                    let nc₂ := narrow_stripov_backprop left nc₁ ir.op2
                    if nc₂.sp < NarrowConv.maxsp then nc₂.push (.op (stripov ir.o) IRT_INT ref)
                    -- Path too deep, need to backtrack.
                    else (nc₂.backtrack nc).push (.ref ref)
                  else (nc₁.backtrack nc).push (.ref ref)
                else nc.push (.ref ref)
      else nc.push (.ref ref)

/-- The words of a narrowed FP constant. -/
def narrowK (n : Num) : Option (BitVec 32) :=
  if convMode fins &&& IRCONV_CONVMASK = IRCONV_TOBIT then
    -- Allows a wider range of constants, if the constant doesn't lose precision, but always truncates.
    let k64 := num2int64 n
    if n.eq (.ofNat 64 (binary64.ofInt k64)) then some (.ofInt 32 k64) else none
  else
    -- Only if the constant is a small integer.
    let k := n.num2int
    if -32768 ≤ k ∧ k < 32768 ∧ n.eq (.ofInt k) then some (.ofInt 32 k) else none

/-- The search for an existing conversion of the reference. Stronger checks are ok, too. -/
def findConv (ref : IRRef1) : Option IRRef :=
  match follow (J.links fins.o) (fun cref => ref.toNat < cref)
      (fun cref =>
        let cr := J.IR cref
        if cr.op1 = ref ∧ (fins.o = .tobit ∨
            cr.op2.setWidth 32 &&& IRCONV_MODEMASK = convMode fins &&& IRCONV_MODEMASK ∧
              (irt_isguard fins.t → irt_isguard cr.t)) then some () else none) chainSteps none with
  | some (.hit _ cref _) => some cref
  | _ => none

/-- The search of the cache: the reference, and whether it is to be sign-extended. -/
def findCached (ref : IRRef1) (inner : Bool) : Option (IRRef1 × Bool) :=
  let mode := convMode fins
  -- Inner conversions need a stronger check.
  let mode := if mode &&& IRCONV_CONVMASK = IRCONV_INDEX ∧ inner then mode + (IRCONV_CHECK - IRCONV_INDEX) else mode
  match narrow_bpc_get bpropcache ref mode with
  | some bp => some (bp.val, false)
  | none =>
      if convType fins = IRT_I64 then
        -- Try sign-extending from an existing (checked) conversion to int.
        let mode := IRT_INT.setWidth 32 <<< 5 ||| IRT_NUM.setWidth 32 ||| IRCONV_INDEX
        (narrow_bpc_get bpropcache ref mode).map fun bp => (bp.val, true)
      else none

/-- Backpropagate narrowing conversion. Return number of needed conversions. -/
def narrow_conv_backprop : Nat → NarrowConv → IRRef1 → Nat × NarrowConv
  | left, nc, ref =>
      let ir := J.IR ref.toNat
      if nc.sp ≥ NarrowConv.maxsp then (10, nc)
      -- Check the easy cases first.
      else if ir.o = .conv ∧ ir.op2.setWidth 32 &&& IRCONV_SRCMASK = IRT_INT.setWidth 32 then
        let nc :=
          if convMode fins &&& IRCONV_CONVMASK ≤ IRCONV_ANY then
            narrow_stripov_backprop J bpropcache fins (left - 1) nc ir.op1
          else nc.push (.ref ir.op1)
        (0, if convType fins = IRT_I64 then nc.push .sext else nc)
      else if ir.o = .knum then
        match narrowK fins (J.TV (ref.toNat + 1)) with
        | some k => (0, (nc.push .int).push (.k k))
        | none => (10, nc)
      else
        -- Try to CSE the conversion.
        match findConv J fins ref with
        | some cref => (0, nc.push (.ref (.of cref)))
        | none =>
            -- Backpropagate across ADD/SUB.
            if ir.o = .add ∨ ir.o = .sub then
              match findCached bpropcache fins ref (left + 1 < NARROW_MAX_BACKPROP) with
              | some (val, false) => (0, nc.push (.ref val))
              | some (val, true) => (0, (nc.push (.ref val)).push .sext)
              | none =>
                  match left with
                  | 0 => (1, nc.push (.conv ref))
                  | left + 1 =>
                      let (count₁, nc₁) := narrow_conv_backprop left nc ir.op1
                      let (count₂, nc₂) := narrow_conv_backprop left nc₁ ir.op2
                      if count₁ + count₂ ≤ 1 then (count₁ + count₂, nc₂.push (.op ir.o (convType fins) ref))
                      -- Too many conversions, need to backtrack.
                      else (1, (nc₂.backtrack nc).push (.conv ref))
            else (1, nc.push (.conv ref))

end

/-! ## Emitting the conversions -/

/-- What the machine calls: the emitters with their folding, constants and the cache, which a state of the compiler
stands behind. -/
structure Emitter (σ : Type) where
  emitir : σ → IROp → IRType1 → TRef → BitVec 32 → σ × TRef
  emitir_raw : σ → IRIns → σ × TRef
  lj_ir_kint : σ → BitVec 32 → σ × TRef
  lj_ir_kint64 : σ → BitVec 64 → σ × TRef
  /-- The value of a constant. -/
  constant : σ → IRRef1 → Option (BitVec 32)
  narrow_bpc_set : σ → IRRef1 → IRRef1 → IRMode → σ

/-- The machine, on the stack that its code is in. -/
structure Machine (σ : Type) where
  J : σ
  stack : Nat → NarrowIns
  next : Nat
  sp : Nat
  guarded : Bool

/-- The opcode with an overflow check, if there is one. -/
def withov (guarded : Bool) (o : IROp) : IROp :=
  if guarded then
    match o with
    | .add => .addov
    | .sub => .subov
    | .mul => .mulov
    | o => o
  else o

section

variable {σ : Type} (emitter : Emitter σ) (fins : IRIns) (last : Nat)

/-- `*sp++ = tr`, which must not be over code that has not been read. -/
def Machine.push (m : Machine σ) (J : σ) (tr : TRef) : Option (Machine σ) :=
  if m.sp < m.next then some { m with J, stack := update m.stack m.sp (.operand tr), sp := m.sp + 1 } else none

/-- `sp[-1] = tr`. -/
def Machine.setTop (m : Machine σ) (J : σ) (tr : TRef) : Machine σ :=
  { m with J, stack := update m.stack (m.sp - 1) (.operand tr) }

/-- An operand that is read. -/
def Machine.operand (m : Machine σ) (place : Nat) : Option TRef :=
  match m.stack place with
  | .operand tr => some tr
  | _ => none

/-- One instruction. It fails where an assertion does, or where code is taken for an operand or an operand for code. -/
def emitStep (m : Machine σ) : Option (Machine σ) :=
  if m.next < last then
    let m' := { m with next := m.next + 1 }
    match m.stack m.next with
    | .ref ref => m'.push m.J (ref.setWidth 32)
    | .conv ref =>
        let (J, tr) := emitter.emitir_raw m.J { fins with op12 := IRREF2 ref fins.op2 }
        m'.push J tr
    | .sext => do
        if m.sp < 1 then none
        else
          let tr ← m.operand (m.sp - 1)
          let (J, tr) := emitter.emitir m.J .conv IRT_I64 tr (IRT_I64.setWidth 32 <<< 5 ||| IRT_INT.setWidth 32 ||| IRCONV_SEXT)
          return m'.setTop J tr
    | .int =>
        if m.next + 1 < last then
          match m.stack (m.next + 1) with
          | .k k =>
              let (J, tr) :=
                if convType fins = IRT_I64 then emitter.lj_ir_kint64 m.J (k.signExtend 64) else emitter.lj_ir_kint m.J k
              { m' with next := m.next + 2 }.push J tr
          | _ => none
        else none
    -- Pops two operands and pushes one result.
    | .op o t ref => do
        if m.sp < 2 then none
        else
          let m' := { m' with sp := m.sp - 1 }
          let left ← m.operand (m.sp - 2)
          let right ← m.operand (m.sp - 1)
          -- Omit some overflow checks for array indexing.
          let isIndex : Bool := convMode fins &&& IRCONV_CONVMASK = IRCONV_INDEX
          let omitted := isIndex && m'.next == last &&
            match emitter.constant m.J (tref_ref right) with
            | some i => decide (i + 0x40000000 < 0x80000000)
            | none => false
          let guarded := m.guarded && !omitted
          let mode := convMode fins + if isIndex ∧ ¬omitted then IRCONV_CHECK - IRCONV_INDEX else 0
          let (J, tr) := emitter.emitir m.J (withov guarded o) (if guarded then t ||| IRT_GUARD else t) left right
          -- Add to cache.
          let J := if ref ≠ 0 then emitter.narrow_bpc_set J ref (tref_ref tr) mode else J
          return { m' with guarded }.setTop J tr
    | .k _ | .operand _ => none
  else none

/-- The loop of `narrow_conv_emit`. -/
def emitLoop : Nat → Machine σ → Option (Machine σ)
  | 0, m => if m.next < last then none else some m
  | fuel + 1, m => if m.next < last then (emitStep emitter fins last m).bind (emitLoop fuel) else some m

/-- Emit the conversions collected during backpropagation. -/
def narrow_conv_emit (J : σ) (nc : NarrowConv) : Option (σ × TRef) := do
  let m ← emitLoop emitter fins nc.sp nc.sp
    { J, stack := fun i => nc.stack.reverse.getD i .sext, next := 0, sp := 0, guarded := irt_isguard fins.t }
  if m.sp = 1 then
    let tr ← m.operand 0
    return (m.J, tr)
  else none

end

end TvmJit.Narrow
