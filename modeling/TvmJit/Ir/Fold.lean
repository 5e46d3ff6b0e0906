import TvmJit.Number
import TvmJit.Ir.Buffer
import TvmJit.Foundation.Pick

/-! The rules of `lj_opt_fold.c` for MIN and MAX of instructions that are MIN or MAX, and the
minimum and maximum of numbers that they fold constants with. -/

namespace TvmJit

open Foundation

/-! ## Comparing numbers -/

namespace Num

/-- The place of a number that is not a NaN in the order. The two zeros have the same one. -/
def rank (n : Num) : Int := if n.msb then -((n.toNat % 2 ^ 63 : Nat) : Int) else (n.toNat % 2 ^ 63 : Nat)

/-- The C comparison `a < b` of two doubles. -/
def lt (a b : Num) : Bool := !a.isNan && !b.isNan && decide (a.rank < b.rank)

/-- Not a NaN. -/
def Ordered (n : Num) : Prop := n.isNan = false

theorem lt_iff {a b : Num} : a.lt b = true ↔ a.Ordered ∧ b.Ordered ∧ a.rank < b.rank := by
  unfold lt Ordered
  simp only [Bool.and_eq_true, Bool.not_eq_true', decide_eq_true_eq, and_assoc]

theorem compares_lt : Compares Ordered fun a b => a.lt b = true where
  both less := ⟨(lt_iff.mp less).1, (lt_iff.mp less).2.1⟩
  irrefl less := lt_irrefl _ (lt_iff.mp less).2.2
  trans first second := by
    have ⟨ordered, _, less⟩ := lt_iff.mp first
    have ⟨_, ordered', less'⟩ := lt_iff.mp second
    exact lt_iff.mpr ⟨ordered, ordered', less.trans less'⟩
  between {a b c} isOrdered less := by
    have ⟨ordered, ordered', less⟩ := lt_iff.mp less
    rcases lt_or_ge a.rank b.rank with low | high
    · exact .inl (lt_iff.mpr ⟨ordered, isOrdered, low⟩)
    · exact .inr (lt_iff.mpr ⟨isOrdered, ordered', high.trans_lt less⟩)

theorem compares_gt : Compares Ordered fun a b => b.lt a = true where
  both less := (compares_lt.both less).symm
  irrefl less := compares_lt.irrefl less
  trans first second := compares_lt.trans second first
  between isOrdered less := (compares_lt.between isOrdered less).symm

end Num

/-- `lj_vm_foldarith` for MIN, and for MAX as the other opcode. -/
def lj_vm_foldarith (x y : Num) (op : IROp) : Num :=
  if op = .min then (if y.lt x then y else x) else (if x.lt y then y else x)

/-- `kfold_intop` for MIN, and for MAX as the other opcode. -/
def kfold_intop (k1 k2 : BitVec 32) (op : IROp) : BitVec 32 :=
  if op = .min then (if k1.slt k2 then k1 else k2) else (if k2.slt k1 then k1 else k2)

/-! ## The rules -/

def IRT_TYPE : IRType1 := 0x1f
def IRT_ISPHI : IRType1 := 0x40

def irt_isnum (t : IRType1) : Bool := t &&& IRT_TYPE == IRT_NUM
def irt_isphi (t : IRType1) : Bool := t &&& IRT_ISPHI != 0

/-- What a rule returns. -/
inductive FoldResult
  /-- `NEXTFOLD`. -/
  | next
  /-- `LEFTFOLD`: the left operand. -/
  | left
  /-- `RIGHTFOLD`: the right operand. -/
  | right
  /-- `RETRYFOLD`, with the instruction that is folded instead. -/
  | retry (fins : IRIns) (J : JitState)

section

variable (J : JitState) (fins : IRIns)

def fleft : IRIns := J.IR fins.op1.toNat
def fright : IRIns := J.IR fins.op2.toNat

/-- `ir_knum(ir)->n` of the constant. -/
def knum (ref : IRRef1) : Num := J.TV (ref.toNat + 1)

/-- `(a o b) o a ==> a o b; (a o b) o b ==> a o b`. -/
def fold_reassoc_dup : FoldResult :=
  if fins.op2 = (fleft J fins).op1 ∨ fins.op2 = (fleft J fins).op2 then .left else .next

/-- `(x o k1) o k2 ==> x o (k1 o k2)`, or `x o k1` if that is the same. -/
def fold_reassoc_minmax_k : Option FoldResult :=
  let irk := J.IR (fleft J fins).op2.toNat
  if irk.o = .knum then
    let a := knum J (fleft J fins).op2
    let y := lj_vm_foldarith a (knum J fins.op2) fins.o
    if a.eq y then some .left
    else if irt_isphi (fleft J fins).t then some .next
    else (lj_ir_knum_u64 J y).map fun (J', k) =>
      .retry { fins with op12 := IRREF2 (fleft J fins).op1 (.of k) } J'
  else if irk.o = .kint then
    let a := irk.op12
    let y := kfold_intop a (fright J fins).op12 fins.o
    if a = y then some .left
    else if irt_isphi (fleft J fins).t then some .next
    else (lj_ir_kint J y).map fun (J', k) =>
      .retry { fins with op12 := IRREF2 (fleft J fins).op1 (.of k) } J'
  else some .next

/-- `(b o1 a) o2 b ==> b; (a o1 b) o2 b ==> b`. -/
def fold_reassoc_minmax_left : FoldResult :=
  if fins.op2 = (fleft J fins).op1 ∨ fins.op2 = (fleft J fins).op2 then .right else .next

/-- `a o2 (a o1 b) ==> a; a o2 (b o1 a) ==> a`. -/
def fold_reassoc_minmax_right : FoldResult :=
  if fins.op1 = (fright J fins).op1 ∨ fins.op1 = (fright J fins).op2 then .left else .next

def fold_comm_swap : FoldResult :=
  -- Move lower ref to the right.
  if fins.op1 < fins.op2 then .retry { fins with op12 := IRREF2 fins.op2 fins.op1 } J else .next

/-- `x o x ==> x`, and the lower reference to the right. -/
def fold_comm_dup : FoldResult := if fins.op1 = fins.op2 then .left else fold_comm_swap J fins

end

inductive FoldRule
  | reassoc_dup | reassoc_minmax_k | reassoc_minmax_left | reassoc_minmax_right | comm_dup
  deriving DecidableEq

namespace FoldRule

/-- The opcodes of the instruction and its operands in the rule's `LJFOLD` lines. -/
def keys : FoldRule → IROp → IROp → IROp → Bool
  | reassoc_dup, o, left, _ => o ∈ [.min, .max, .band, .bor] && left == o
  | reassoc_minmax_k, o, left, right => o ∈ [.min, .max] && left == o && right ∈ [.knum, .kint]
  | reassoc_minmax_left, o, left, _ => (o, left) ∈ [(.min, .max), (.max, .min)]
  | reassoc_minmax_right, o, _, right => (o, right) ∈ [(.min, .max), (.max, .min)]
  | comm_dup, o, _, _ => o ∈ [.band, .bor, .min, .max]

def run (J : JitState) (fins : IRIns) : FoldRule → Option FoldResult
  | reassoc_dup => some (fold_reassoc_dup J fins)
  | reassoc_minmax_k => fold_reassoc_minmax_k J fins
  | reassoc_minmax_left => some (fold_reassoc_minmax_left J fins)
  | reassoc_minmax_right => some (fold_reassoc_minmax_right J fins)
  | comm_dup => some (fold_comm_dup J fins)

end FoldRule

end TvmJit
