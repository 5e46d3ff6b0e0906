import TvmJit.Ir.Fold
import TvmJit.Ir.Runs

/-! What the rules for MIN and MAX of numbers do to values. -/

namespace TvmJit

open Foundation JitState

/-! ## Values -/

/-- MIN and MAX take the first number in this order, the left one if neither is first. -/
def Num.before (o : IROp) (a b : Num) : Prop := if o = .min then a.lt b = true else b.lt a = true

instance (o : IROp) : DecidableRel (Num.before o) := fun a b => by
  unfold Num.before
  infer_instance

/-- All NaNs are one value. -/
abbrev Num.Same (a b : Num) : Prop := Foundation.Same Num.Ordered a b

/-- The numbers are the same, or one is less than the other. A zero cannot be compared with the
other zero, nor a NaN with a number. -/
def Num.Comparable (a b : Num) : Prop := a.Same b ∨ a.lt b = true ∨ b.lt a = true

def IROp.isMinMax (o : IROp) : Prop := o = .min ∨ o = .max

namespace JitState

variable (J : JitState)

/-- The reference is to a constant or an instruction. -/
def Inside (ref : IRRef1) : Prop := J.nk ≤ ref.toNat ∧ ref.toNat < J.nins

/-- The reference is to a number. -/
structure Number (ref : IRRef1) : Prop where
  inside : J.Inside ref
  isnum : irt_isnum (J.IR ref.toNat).t = true

/-- Numbers are MIN and MAX of numbers, and integer constants are no numbers. -/
structure Typed : Prop where
  operands : ∀ ref, J.Number ref → (J.IR ref.toNat).o.isMinMax →
    J.Number (J.IR ref.toNat).op1 ∧ J.Number (J.IR ref.toNat).op2
  kint : ∀ ref, J.Number ref → (J.IR ref.toNat).o ≠ .kint

/-- The values of references are those of number constants and of MIN and MAX. -/
structure Numbers (value : IRRef1 → Num) : Prop where
  knum : ∀ ref, J.Inside ref → (J.IR ref.toNat).o = .knum → value ref = TvmJit.knum J ref
  minmax : ∀ ref, J.Number ref → (J.IR ref.toNat).o.isMinMax →
    value ref = lj_vm_foldarith (value (J.IR ref.toNat).op1) (value (J.IR ref.toNat).op2) (J.IR ref.toNat).o

end JitState

namespace FoldResult

/-- The state behind the rule. -/
def state (J : JitState) : FoldResult → JitState
  | retry _ J' => J'
  | next | left | right => J

/-- The value of what is returned for the instruction. -/
def value (fins : IRIns) (values : IRRef1 → Num) : FoldResult → Num
  | left => values fins.op1
  | right => values fins.op2
  | retry fins' _ => lj_vm_foldarith (values fins'.op1) (values fins'.op2) fins'.o
  | next => lj_vm_foldarith (values fins.op1) (values fins.op2) fins.o

end FoldResult

/-- When the rule keeps the value. -/
def FoldRule.Exact (J : JitState) (fins : IRIns) (values : IRRef1 → Num) : FoldRule → Prop
  | reassoc_dup | reassoc_minmax_right => True
  | reassoc_minmax_left => (values (fleft J fins).op1).Comparable (values fins.op2)
  | comm_dup => (values fins.op1).Comparable (values fins.op2)
  | reassoc_minmax_k => (values (fleft J fins).op2).Ordered ∨
      ¬Num.before fins.o (values fins.op2) (values (fleft J fins).op1)

/-! ## Picking numbers -/

section

variable {o o' : IROp} {a b x y : Num}

theorem compares_before (o : IROp) : Compares Num.Ordered (Num.before o) := by
  unfold Num.before
  split
  · exact Num.compares_lt
  · exact Num.compares_gt

theorem foldarith_eq_pick (o : IROp) (x y : Num) : lj_vm_foldarith x y o = pick (Num.before o) x y := by
  unfold lj_vm_foldarith pick Num.before
  split
  · rfl
  · rfl

theorem before_reversed (isMinMax : (o, o') ∈ [(IROp.min, IROp.max), (.max, .min)]) (a b : Num) :
    Num.before o' a b ↔ Num.before o b a := by
  rcases List.mem_cons.mp isMinMax with same | isLast
  · cases same
    rfl
  · cases List.mem_singleton.mp isLast
    rfl

theorem isMinMax_right (pair : (o, o') ∈ [(IROp.min, IROp.max), (.max, .min)]) : o'.isMinMax := by
  rcases List.mem_cons.mp pair with same | isLast
  · cases same
    exact .inr rfl
  · cases List.mem_singleton.mp isLast
    exact .inl rfl

theorem same_comm : a.Same b ↔ b.Same a := or_congr eq_comm and_comm

theorem comparable_iff (o : IROp) :
    a.Comparable b ↔ a.Same b ∨ Num.before o a b ∨ Num.before o b a := by
  unfold Num.Comparable Num.before
  split
  · rfl
  · rw [or_comm (a := b.lt a = true)]

end

/-! ## The rules -/

section

variable {J : JitState} {fins : IRIns} {values : IRRef1 → Num}

theorem value_fleft (numbers : J.Numbers values) (left : J.Number fins.op1) (isMinMax : (fleft J fins).o.isMinMax) :
    values fins.op1 = pick (Num.before (fleft J fins).o) (values (fleft J fins).op1) (values (fleft J fins).op2) := by
  rw [numbers.minmax _ left isMinMax, foldarith_eq_pick]
  rfl

theorem value_fright (numbers : J.Numbers values) (right : J.Number fins.op2)
    (isMinMax : (fright J fins).o.isMinMax) :
    values fins.op2 = pick (Num.before (fright J fins).o) (values (fright J fins).op1) (values (fright J fins).op2) := by
  rw [numbers.minmax _ right isMinMax, foldarith_eq_pick]
  rfl

theorem dup_keeps (numbers : J.Numbers values) (left : J.Number fins.op1) (isMinMax : fins.o.isMinMax)
    (again : (fleft J fins).o = fins.o) (dup : fins.op2 = (fleft J fins).op1 ∨ fins.op2 = (fleft J fins).op2) :
    (values fins.op1).Same (lj_vm_foldarith (values fins.op1) (values fins.op2) fins.o) := by
  have inner := value_fleft numbers left (again ▸ isMinMax)
  rw [again] at inner
  apply Or.inl
  rw [foldarith_eq_pick]
  rcases dup with first | second
  · rw [first, inner, (compares_before fins.o).pick_pick_left]
  · rw [second, inner, Compares.pick_pick_right]

theorem minmax_left_keeps_iff (numbers : J.Numbers values) (left : J.Number fins.op1)
    (pair : (fins.o, (fleft J fins).o) ∈ [(IROp.min, IROp.max), (.max, .min)])
    (dup : fins.op2 = (fleft J fins).op1 ∨ fins.op2 = (fleft J fins).op2) :
    (values fins.op2).Same (lj_vm_foldarith (values fins.op1) (values fins.op2) fins.o) ↔
      (values (fleft J fins).op1).Comparable (values fins.op2) := by
  have reversed := before_reversed pair
  have inner := value_fleft numbers left (isMinMax_right pair)
  rw [foldarith_eq_pick, inner, same_comm]
  rcases dup with first | second
  · rw [← first, Compares.absorb_first reversed]
    exact iff_of_true (.inl rfl) (.inl (.inl rfl))
  · rw [← second]
    exact (Compares.absorb_second_iff reversed).trans (comparable_iff fins.o).symm

theorem minmax_right_keeps (numbers : J.Numbers values) (right : J.Number fins.op2)
    (pair : (fins.o, (fright J fins).o) ∈ [(IROp.min, IROp.max), (.max, .min)])
    (dup : fins.op1 = (fright J fins).op1 ∨ fins.op1 = (fright J fins).op2) :
    (values fins.op1).Same (lj_vm_foldarith (values fins.op1) (values fins.op2) fins.o) := by
  have reversed := before_reversed pair
  have inner := value_fright numbers right (isMinMax_right pair)
  apply Or.inl
  rw [foldarith_eq_pick, inner]
  rcases dup with first | second
  · rw [← first, (compares_before fins.o).absorbed_first reversed]
  · rw [← second, Compares.absorbed_second reversed]

theorem swap_keeps_iff (x y : Num) (o : IROp) :
    (lj_vm_foldarith y x o).Same (lj_vm_foldarith x y o) ↔ x.Comparable y := by
  rw [foldarith_eq_pick, foldarith_eq_pick, same_comm]
  exact (compares_before o).comm_iff.trans (comparable_iff o).symm

/-- Constants are grouped with the right one in `y`. -/
theorem regroup_keeps_iff (x a b : Num) (o : IROp) :
    (lj_vm_foldarith x (lj_vm_foldarith a b o) o).Same (lj_vm_foldarith (lj_vm_foldarith x a o) b o) ↔
      a.Ordered ∨ ¬Num.before o b x := by
  rw [foldarith_eq_pick, foldarith_eq_pick, foldarith_eq_pick, foldarith_eq_pick, same_comm]
  exact (compares_before o).assoc_iff

theorem rank_of_isZero {n : Num} (zero : n.isZero = true) : n.rank = 0 := by
  rcases Num.isZero_iff.mp zero with rfl | rfl
  · rfl
  · rfl

/-- Numbers that compare equal have the same place. -/
theorem not_before_of_eq {a b : Num} (equal : a.eq b = true) (o : IROp) : ¬Num.before o b a := by
  have ⟨_, _, parts⟩ := Num.eq_true_iff.mp equal
  have same : a.rank = b.rank := by
    rcases parts with rfl | ⟨zero, zero'⟩
    · rfl
    · rw [rank_of_isZero zero, rank_of_isZero zero']
  unfold Num.before
  split
  · exact fun less => by
      have ⟨_, _, low⟩ := Num.lt_iff.mp less
      omega
  · exact fun less => by
      have ⟨_, _, low⟩ := Num.lt_iff.mp less
      omega

/-- The right constant does not matter if the left one is the result of both. -/
theorem drop_keeps {a b : Num} {o : IROp} (equal : a.eq (lj_vm_foldarith a b o) = true) (x : Num) :
    a.Ordered ∧ lj_vm_foldarith x a o = lj_vm_foldarith (lj_vm_foldarith x a o) b o := by
  have ordered : a.Ordered := (Num.eq_true_iff.mp equal).1
  have notFirst : ¬Num.before o b a := by
    intro first
    rw [foldarith_eq_pick, pick_right first] at equal
    exact not_before_of_eq equal o first
  refine ⟨ordered, ?_⟩
  rw [foldarith_eq_pick, foldarith_eq_pick, (compares_before o).pick_pick_of_not_before ordered notFirst]

end

/-! ## Folding constants -/

theorem getLsbD_IRREF2 (lo hi : IRRef1) (i : Nat) :
    (IRREF2 lo hi).getLsbD i = if i < 16 then lo.getLsbD i else hi.getLsbD (i - 16) := BitVec.getLsbD_append

theorem op1_IRREF2 (fins : IRIns) (lo hi : IRRef1) : IRIns.op1 { fins with op12 := IRREF2 lo hi } = lo := by
  apply BitVec.eq_of_getLsbD_eq
  intro i inside
  rw [IRIns.op1, BitVec.getLsbD_setWidth, getLsbD_IRREF2, if_pos inside, decide_eq_true inside, Bool.true_and]

theorem op2_IRREF2 (fins : IRIns) (lo hi : IRRef1) : IRIns.op2 { fins with op12 := IRREF2 lo hi } = hi := by
  apply BitVec.eq_of_getLsbD_eq
  intro i inside
  rw [IRIns.op2, BitVec.getLsbD_setWidth, BitVec.getLsbD_ushiftRight, getLsbD_IRREF2, if_neg (by omega),
    decide_eq_true inside, Bool.true_and, Nat.add_sub_cancel_left]

section

variable {J J' : JitState} {k : IRRef} {y : Num}

/-- The constant has the number, and the other references are what they were. -/
structure AddsNum (J : JitState) (y : Num) (J' : JitState) (ref : IRRef1) : Prop where
  inside : J'.Inside ref
  isKnum : (J'.IR ref.toNat).o = .knum
  num : knum J' ref = y
  keeps : ∀ r, J.Inside r → J'.Inside r ∧ J'.IR r.toNat = J.IR r.toNat ∧ knum J' r = knum J r

theorem knum_u64_adds (linked : J.Linked) (room : 2 < J.nk) :
    ∃ J' k, lj_ir_knum_u64 J y = some (J', k) ∧ AddsNum J y J' (.of k) := by
  have fits : (KValue.wide y).fits false .knum := rfl
  have const : IROp.knum.isConst = true := rfl
  have notPri : IROp.knum ≠ .kpri := nofun
  have wide (J : JitState) (ref : IRRef) : J.kvalue false .knum ref = .wide (J.TV (ref + 1)) := rfl
  have bias : REF_BIAS = 0x8000 := rfl
  have middle := linked.middle
  have top := linked.fits
  rcases internK_cases linked const notPri fits with ⟨ref, member, value, found⟩ | ⟨_, new⟩
  · have ⟨low, high, has⟩ := linked.mem_refs.mp member
    have same : (IRRef1.of ref).toNat = ref := toNat_of (by lia)
    refine ⟨J, ref, found, ?_, ?_, ?_, fun r inside => ⟨inside, rfl, rfl⟩⟩
    · rw [Inside, same]
      exact ⟨low, high⟩
    · rw [same]
      exact has_o has
    · rw [knum, same]
      rw [wide] at value
      exact KValue.wide.inj value
  · have same : (IRRef1.of (J.nk - 2)).toNat = J.nk - 2 := toNat_of (by lia)
    have value := kvalue_addK_new (J := J) (t := IRT_NUM) fits nofun
    have nk : (J.addK .knum IRT_NUM (.wide y)).1.nk = J.nk - 2 := nk_addK
    have nins : (J.addK .knum IRT_NUM (.wide y)).1.nins = J.nins := nins_addK
    have base := linked.base
    have two : (KValue.wide y).slots < J.nk := room
    have ir : (J.addK .knum IRT_NUM (.wide y)).1.ir (J.nk - 2) = _ := ir_addK (J.nk - 2)
    have old {r : IRRef} (low : J.nk ≤ r) : (J.addK .knum IRT_NUM (.wide y)).1.ir r = J.ir r := ir_addK_old two low
    have ref : (J.addK .knum IRT_NUM (.wide y)).2 = J.nk - 2 := rfl
    have isNew : lj_ir_knum_u64 J y = some (J.addK .knum IRT_NUM (.wide y)) := new
    generalize J.addK .knum IRT_NUM (.wide y) = result at isNew ref nk nins ir old value
    have ⟨J', k⟩ := result
    have isRef : k = J.nk - 2 := ref
    refine ⟨J', k, isNew, ?_, ?_, ?_, fun r inside => ⟨?_, ?_, ?_⟩⟩
    · rw [Inside, isRef, same, nk, nins]
      exact ⟨Nat.le_refl _, by lia⟩
    · have slots : J.nk - 2 = J.nk - (KValue.wide y).slots := rfl
      rw [isRef, same, IR, ir, if_pos slots]
    · rw [knum, isRef, same]
      exact KValue.wide.inj value
    · rw [Inside, nk, nins]
      exact ⟨(Nat.sub_le ..).trans inside.1, inside.2⟩
    · rw [IR, IR, old inside.1]
    · rw [knum, knum, TV, TV, old (inside.1.trans (Nat.le_succ _))]

theorem AddsNum.numbers {ref : IRRef1} {values : IRRef1 → Num} (adds : AddsNum J y J' ref)
    (numbers : J'.Numbers values) : J.Numbers values ∧ values ref = y := by
  have knums (r : IRRef1) (inside : J.Inside r) (isKnum : (J.IR r.toNat).o = .knum) : values r = knum J r := by
    have ⟨inside', ir, same⟩ := adds.keeps r inside
    rw [← same]
    exact numbers.knum r inside' (ir ▸ isKnum)
  refine ⟨⟨knums, fun r isNumber isMinMax => ?_⟩, (numbers.knum ref adds.inside adds.isKnum).trans adds.num⟩
  have ⟨inside', ir, _⟩ := adds.keeps r isNumber.inside
  have value := numbers.minmax r ⟨inside', ir ▸ isNumber.isnum⟩ (ir ▸ isMinMax)
  rw [ir] at value
  exact value

end

/-! ## All rules -/

section

variable {J : JitState} {fins : IRIns}

/-- The rule that folds constants. -/
theorem minmax_k_keeps_iff (linked : J.Linked) (room : 2 < J.nk) (typed : J.Typed) (isMinMax : fins.o.isMinMax)
    (left : J.Number fins.op1) (right : J.Number fins.op2) (again : (fleft J fins).o = fins.o)
    (isConst : (fright J fins).o = .knum ∨ (fright J fins).o = .kint) :
    ∃ result, fold_reassoc_minmax_k J fins = some result ∧
      (result ≠ .next → ∀ values, (result.state J).Numbers values →
        ((result.value fins values).Same (lj_vm_foldarith (values fins.op1) (values fins.op2) fins.o) ↔
          FoldRule.Exact J fins values .reassoc_minmax_k)) := by
  have ⟨_, second⟩ := typed.operands _ left (again ▸ isMinMax)
  have isKnum : (fright J fins).o = .knum := isConst.resolve_right (typed.kint _ right)
  unfold fold_reassoc_minmax_k
  dsimp only
  split
  · next isKnum' =>
      have spec (values : IRRef1 → Num) (numbers : J.Numbers values) :
          values fins.op1 = lj_vm_foldarith (values (fleft J fins).op1) (values (fleft J fins).op2) fins.o ∧
            values (fleft J fins).op2 = knum J (fleft J fins).op2 ∧ values fins.op2 = knum J fins.op2 := by
        have inner := numbers.minmax _ left (again ▸ isMinMax)
        exact ⟨by rw [inner, ← again]; rfl, numbers.knum _ second.inside isKnum', numbers.knum _ right.inside isKnum⟩
      split
      · next equal =>
          refine ⟨_, rfl, fun _ values numbers => ?_⟩
          have ⟨inner, k1, k2⟩ := spec values numbers
          have ⟨ordered, same⟩ := drop_keeps equal (values (fleft J fins).op1)
          refine iff_of_true (.inl ?_) (.inl (k1 ▸ ordered))
          change values fins.op1 = _
          rw [inner, k1, k2]
          exact same
      · split
        · exact ⟨_, rfl, fun notNext => absurd rfl notNext⟩
        · have ⟨J', k, interned, adds⟩ := knum_u64_adds linked room
            (y := lj_vm_foldarith (knum J (fleft J fins).op2) (knum J fins.op2) fins.o)
          rw [interned]
          refine ⟨_, rfl, fun _ values numbers => ?_⟩
          have ⟨before, isY⟩ := adds.numbers numbers
          have ⟨inner, k1, k2⟩ := spec values before
          change (lj_vm_foldarith (values _) (values _) fins.o).Same _ ↔ _
          rw [op1_IRREF2, op2_IRREF2, isY, inner, ← k1, ← k2]
          exact regroup_keeps_iff _ _ _ _
  · split
    · next isKint => exact absurd isKint (typed.kint _ second)
    · exact ⟨_, rfl, fun notNext => absurd rfl notNext⟩

/-- Each rule ends, and where it folds the value is kept exactly under the rule's condition. -/
theorem minmax_folds_iff {LJ_GC64 : Bool} {ir : IRRef → IRSlot} {optCSE optDCE : Bool} {parent exitno : IRRef1}
    (run : IRRun (fun J (act : IRAct LJ_GC64) => act.Fits J ∧ act.Safe J)
      (lj_record_setup LJ_GC64 ir optCSE optDCE parent exitno) J) (room : 2 < J.nk) (typed : J.Typed)
    (isMinMax : fins.o.isMinMax) (left : J.Number fins.op1) (right : J.Number fins.op2)
    {rule : FoldRule} (matched : rule.keys fins.o (fleft J fins).o (fright J fins).o = true) :
    ∃ result, rule.run J fins = some result ∧ (result ≠ .next → ∀ values, (result.state J).Numbers values →
      ((result.value fins values).Same (lj_vm_foldarith (values fins.op1) (values fins.op2) fins.o) ↔
        rule.Exact J fins values)) := by
  have ⟨linked, _⟩ := irRun_keeps linked_setup interned_setup run
  cases rule with
  | reassoc_dup =>
      have ⟨_, again⟩ := (Bool.and_eq_true _ _).mp matched
      refine ⟨_, rfl, ?_⟩
      unfold fold_reassoc_dup
      split
      · next dup =>
          exact fun _ values numbers =>
            iff_of_true (dup_keeps numbers left isMinMax (beq_iff_eq.mp again) dup) trivial
      · exact fun notNext => absurd rfl notNext
  | reassoc_minmax_k =>
      have ⟨front, const⟩ := (Bool.and_eq_true _ _).mp matched
      have ⟨_, again⟩ := (Bool.and_eq_true _ _).mp front
      have isConst : (fright J fins).o = .knum ∨ (fright J fins).o = .kint := by simpa using const
      exact minmax_k_keeps_iff linked room typed isMinMax left right (beq_iff_eq.mp again) isConst
  | reassoc_minmax_left =>
      refine ⟨_, rfl, ?_⟩
      unfold fold_reassoc_minmax_left
      split
      · next dup =>
          exact fun _ values numbers => minmax_left_keeps_iff numbers left (of_decide_eq_true matched) dup
      · exact fun notNext => absurd rfl notNext
  | reassoc_minmax_right =>
      refine ⟨_, rfl, ?_⟩
      unfold fold_reassoc_minmax_right
      split
      · next dup =>
          exact fun _ values numbers =>
            iff_of_true (minmax_right_keeps numbers right (of_decide_eq_true matched) dup) trivial
      · exact fun notNext => absurd rfl notNext
  | comm_dup =>
      refine ⟨_, rfl, ?_⟩
      unfold fold_comm_dup
      split
      · next same =>
          refine fun _ values numbers => iff_of_true (.inl ?_) (.inl (.inl (congrArg values same)))
          change values fins.op1 = _
          rw [← same, foldarith_eq_pick, pick_self]
      · unfold fold_comm_swap
        split
        · refine fun _ values numbers => ?_
          change (lj_vm_foldarith (values _) (values _) fins.o).Same _ ↔ _
          rw [op1_IRREF2, op2_IRREF2]
          exact swap_keeps_iff _ _ _
        · exact fun notNext => absurd rfl notNext

end

/-- `local b, a = …` with `math.max(a, b)`, where `b` and `a` are loaded in this order. -/
def maxTrace : JitState :=
  let loads := (lj_ir_emit (lj_ir_emit emptyTrace (sloadIns 1 IRT_NUM)).1 (sloadIns 2 IRT_NUM)).1
  (lj_ir_emit loads ⟨IRREF2 (.of (REF_FIRST + 1)) (.of REF_FIRST), IRT_NUM, .max, 0⟩).1

/-- `math.min(math.max(a, b), b)`. -/
def minIns : IRIns := ⟨IRREF2 (.of (REF_FIRST + 2)) (.of REF_FIRST), IRT_NUM, .min, 0⟩

theorem maxTrace_run : IRRun (fun J (act : IRAct false) => act.Fits J ∧ act.Safe J) emptyTrace maxTrace := by
  have fits (J : JitState) (fins : IRIns) (low : J.nins < 0x10000) :
      (IRAct.emit fins : IRAct false).Fits J ∧ (IRAct.emit fins : IRAct false).Safe J := ⟨low, trivial⟩
  exact ((IRRun.start.emit rfl (fits _ _ (by decide))).emit rfl (fits _ _ (by decide))).emit rfl (fits _ _ (by decide))

/-- The last instruction is the only one of its kind, and there are no constants. -/
theorem maxTrace_places {ref : IRRef1} (inside : maxTrace.Inside ref) :
    (maxTrace.IR ref.toNat).o ≠ .kint ∧ (maxTrace.IR ref.toNat).o ≠ .knum ∧
      ((maxTrace.IR ref.toNat).o.isMinMax → ref = .of (REF_FIRST + 2)) := by
  have each : ∀ n ∈ List.range' 0x7ffd 7, (maxTrace.IR n).o ≠ .kint ∧ (maxTrace.IR n).o ≠ .knum ∧
      ((maxTrace.IR n).o = .min ∨ (maxTrace.IR n).o = .max → n = 0x8003) := by
    decide
  have ⟨low, high⟩ := inside
  have nk : maxTrace.nk = 0x7ffd := rfl
  have nins : maxTrace.nins = 0x8004 := rfl
  rw [nk] at low
  rw [nins] at high
  have ⟨noInt, noNum, isLast⟩ := each ref.toNat (List.mem_range'_1.mpr ⟨low, by lia⟩)
  exact ⟨noInt, noNum, fun isMinMax => BitVec.eq_of_toNat_eq (isLast isMinMax)⟩

theorem maxTrace_number {ref : IRRef1} (known : ref = .of REF_FIRST ∨ ref = .of (REF_FIRST + 1) ∨ ref = .of (REF_FIRST + 2)) :
    maxTrace.Number ref := by
  rcases known with rfl | rfl | rfl
  · exact ⟨by unfold Inside; decide, by decide⟩
  · exact ⟨by unfold Inside; decide, by decide⟩
  · exact ⟨by unfold Inside; decide, by decide⟩

theorem maxTrace_typed : maxTrace.Typed where
  operands ref number isMinMax := by
    have isLast := (maxTrace_places number.inside).2.2 isMinMax
    have op1 : (maxTrace.IR ref.toNat).op1 = .of (REF_FIRST + 1) := by
      rw [isLast]
      decide
    have op2 : (maxTrace.IR ref.toNat).op2 = .of REF_FIRST := by
      rw [isLast]
      decide
    exact ⟨maxTrace_number (.inr (.inl op1)), maxTrace_number (.inl op2)⟩
  kint ref number := (maxTrace_places number.inside).1

/-- `a` is a NaN and `b` is 1. -/
def nanValues (ref : IRRef1) : Num := if ref = .of REF_FIRST then 0x3ff0000000000000 else 0x7ff8000000000000

theorem nanValues_numbers : maxTrace.Numbers nanValues where
  knum ref inside isKnum := absurd isKnum (maxTrace_places inside).2.1
  minmax ref number isMinMax := by
    rw [(maxTrace_places number.inside).2.2 isMinMax]
    decide

theorem minmax_folds_iff_max :
    ∃ result, FoldRule.run maxTrace minIns .reassoc_minmax_left = some result ∧
      (result ≠ .next → ∀ values, (result.state maxTrace).Numbers values →
        ((result.value minIns values).Same (lj_vm_foldarith (values minIns.op1) (values minIns.op2) minIns.o) ↔
          FoldRule.Exact maxTrace minIns values .reassoc_minmax_left)) := by
  have op1 : minIns.op1 = .of (REF_FIRST + 2) := by decide
  have op2 : minIns.op2 = .of REF_FIRST := by decide
  exact minmax_folds_iff maxTrace_run (by decide) maxTrace_typed (.inl rfl) (maxTrace_number (.inr (.inr op1)))
    (maxTrace_number (.inl op2)) (by decide)

/-- The greater of a NaN and 1, and the smaller of that and 1, is a NaN, but the result is 1. -/
theorem minmax_folds_change :
    ¬∀ (J : JitState) (fins : IRIns) (rule : FoldRule) (result : FoldResult) (values : IRRef1 → Num),
      IRRun (fun J (act : IRAct false) => act.Fits J ∧ act.Safe J) emptyTrace J → 2 < J.nk → J.Typed →
      fins.o.isMinMax → J.Number fins.op1 → J.Number fins.op2 →
      rule.keys fins.o (fleft J fins).o (fright J fins).o = true → rule.run J fins = some result →
      (result.state J).Numbers values →
      (result.value fins values).Same (lj_vm_foldarith (values fins.op1) (values fins.op2) fins.o) := by
  intro claim
  have op1 : minIns.op1 = .of (REF_FIRST + 2) := by decide
  have op2 : minIns.op2 = .of REF_FIRST := by decide
  have folded : FoldRule.run maxTrace minIns .reassoc_minmax_left = some .right := by
    have dup : minIns.op2 = (fleft maxTrace minIns).op1 ∨ minIns.op2 = (fleft maxTrace minIns).op2 := by
      decide
    exact congrArg some (if_pos dup)
  have same := claim maxTrace minIns .reassoc_minmax_left .right nanValues maxTrace_run (by decide)
    maxTrace_typed (.inl rfl) (maxTrace_number (.inr (.inr op1))) (maxTrace_number (.inl op2))
    (by decide) folded nanValues_numbers
  have isOne : FoldResult.value minIns nanValues .right = 0x3ff0000000000000 := by decide
  have isNan : lj_vm_foldarith (nanValues minIns.op1) (nanValues minIns.op2) minIns.o = 0x7ff8000000000000 := by
    decide
  rw [isOne, isNan] at same
  rcases same with equal | ⟨notOrdered, _⟩
  · exact absurd equal (by decide)
  · exact notOrdered (by unfold Num.Ordered; decide)

end TvmJit
