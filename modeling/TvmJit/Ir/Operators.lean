import TvmJit.Ir.Integers

/-! The code emitted for operators with integer operands computes the numbers of the interpreter. -/

namespace TvmJit.Arith

open Foundation

section

variable {libm : Libm} {lj_strscan_num : List UInt8 → Option Num} {operands : Operands} {α β : Type}

/-! ## Rules for emitted code -/

/-- The code gets to the results if no guard fails. `values` are those of the code before. -/
structure Computes (libm : Libm) (lj_strscan_num : List UInt8 → Option Num) (operands : Operands) (values : List Val)
    (emitted : Emit α) (Q : α → List Val → Prop) : Prop where
  run : ∀ a code, emitted values.length = some (a, code) →
    ∀ values', execute libm lj_strscan_num operands code values = some values' → Q a values'

theorem execute_append {code more : List Ins} {values : List Val} :
    execute libm lj_strscan_num operands (code ++ more) values =
      (execute libm lj_strscan_num operands code values).bind (execute libm lj_strscan_num operands more) := by
  induction code generalizing values with
  | nil => rfl
  | cons ins code ih =>
      rw [List.cons_append, execute, execute]
      cases valueOf libm lj_strscan_num (value operands values ins.op1) (value operands values ins.op2) ins with
      | none => rfl
      | some v => exact ih

theorem length_execute {code : List Ins} {values values' : List Val}
    (executed : execute libm lj_strscan_num operands code values = some values') :
    values'.length = values.length + code.length := by
  induction code generalizing values with
  | nil =>
      rw [execute, Option.some.injEq] at executed
      rw [executed]
      rfl
  | cons ins code ih =>
      rw [execute] at executed
      have ⟨v, _, rest⟩ := Option.bind_eq_some_iff.mp executed
      rw [ih rest, List.length_append, List.length_cons, List.length_cons, List.length_nil]
      omega

variable {values : List Val}

theorem computes_pure {a : α} {Q : α → List Val → Prop} (here : Q a values) :
    Computes libm lj_strscan_num operands values (pure a) Q := by
  constructor
  intro _ _ emitted values' executed
  cases emitted
  cases executed
  exact here

theorem computes_bind {first : Emit α} {next : α → Emit β} {Q : β → List Val → Prop}
    (computes : Computes libm lj_strscan_num operands values first fun a values' =>
      Computes libm lj_strscan_num operands values' (next a) Q) :
    Computes libm lj_strscan_num operands values (first >>= next) Q := by
  constructor
  intro b code emitted values'' executed
  simp only [bind] at emitted
  split at emitted
  · nomatch emitted
  · rename_i a new before
    split at emitted
    · nomatch emitted
    · rename_i b' more after
      cases emitted
      rw [execute_append] at executed
      have ⟨values', first', second⟩ := Option.bind_eq_some_iff.mp executed
      apply (computes.run a new before values' first').run b more _ values'' second
      rwa [length_execute first']

theorem computes_emit {o : IROp} {t : IRT} {op1 op2 : Ref} {x y : Val} {Q : TRef → List Val → Prop}
    (first : value operands values op1 = x) (second : value operands values op2 = y)
    (next : ∀ v, valueOf libm lj_strscan_num x y ⟨o, t, op1, op2⟩ = some v → Q ⟨.ins values.length, t⟩ (values ++ [v])) :
    Computes libm lj_strscan_num operands values (emit ⟨o, t, op1, op2⟩) Q := by
  constructor
  intro _ _ emitted values' executed
  cases emitted
  have ⟨v, computed, rest⟩ := Option.bind_eq_some_iff.mp executed
  cases rest
  rw [first, second] at computed
  exact next v computed

/-- FOLD leaves all but conversions alone. -/
theorem computes_emitir {o : IROp} {t : IRT} {op1 op2 : Ref} {x y : Val} {Q : TRef → List Val → Prop} (plain : o ≠ .conv)
    (first : value operands values op1 = x) (second : value operands values op2 = y)
    (next : ∀ v, valueOf libm lj_strscan_num x y ⟨o, t, op1, op2⟩ = some v → Q ⟨.ins values.length, t⟩ (values ++ [v])) :
    Computes libm lj_strscan_num operands values (emitir o t op1 op2) Q := by
  have emitted : emitir o t op1 op2 = emit ⟨o, t, op1, op2⟩ := by
    rw [emitir]
    intro k isConv
    exact absurd isConv plain
  rw [emitted]
  exact computes_emit first second next

/-- What the results satisfy holds of the value of the code. -/
theorem result_of_computes {emitted : Emit TRef} {P : Val → Prop} {v : Val}
    (computes : Computes libm lj_strscan_num operands [] emitted fun tr values => P (value operands values tr.ref))
    (isResult : result libm lj_strscan_num operands emitted = some v) : P v := by
  have ⟨⟨tr, code⟩, before, rest⟩ := Option.bind_eq_some_iff.mp isResult
  have ⟨values, executed, last⟩ := Option.bind_eq_some_iff.mp rest
  cases last
  exact computes.run tr code before values executed

/-! ## Operands -/

/-- The value of a reference, here and after more code. -/
def Holds (operands : Operands) (values : List Val) (ref : Ref) (v : Val) : Prop :=
  ∀ more, value operands (values ++ more) ref = v

/-- An operand that is an integer while recording and in this run. -/
structure IsInteger (operands : Operands) (tr : TRef) (i : BitVec 32) : Prop where
  type : tr.t = .int
  holds : Holds operands [] tr.ref (.int i)

theorem Holds.here {ref : Ref} {v : Val} (holds : Holds operands values ref v) : value operands values ref = v := by
  have now := holds []
  rwa [List.append_nil] at now

theorem Holds.append {ref : Ref} {v : Val} (holds : Holds operands values ref v) (more : List Val) :
    Holds operands (values ++ more) ref v := by
  intro last
  rw [List.append_assoc]
  exact holds (more ++ last)

theorem holds_last (v : Val) : Holds operands (values ++ [v]) (.ins values.length) v := by
  intro more
  rw [value, List.append_assoc, List.getD_append_right _ _ _ _ (Nat.le_refl _), Nat.sub_self]
  rfl

theorem IsInteger.everywhere {tr : TRef} {i : BitVec 32} (operand : IsInteger operands tr i) (values : List Val) :
    value operands values tr.ref = .int i := operand.holds values

theorem IsInteger.conv_str_tonum {tr : TRef} {i : BitVec 32} (operand : IsInteger operands tr i) (o : TValue) :
    conv_str_tonum lj_strscan_num tr o = pure (tr, o) := by
  simp [Arith.conv_str_tonum, operand.type]

theorem IsInteger.not_num {tr : TRef} {i : BitVec 32} (operand : IsInteger operands tr i) : tr.t ≠ .num := by
  rw [operand.type]
  exact nofun

/-- The number of an integer operand, which may be a constant. -/
theorem IsInteger.computes_conv {tr : TRef} {i : BitVec 32} (operand : IsInteger operands tr i) {Q : TRef → List Val → Prop}
    (next : ∀ ref more, Holds operands (values ++ more) ref (.num (Num.ofInt i.toInt)) →
      tref_isk ⟨ref, .num⟩ = tref_isk tr → Q ⟨ref, .num⟩ (values ++ more)) :
    Computes libm lj_strscan_num operands values (emitir .conv .num tr.ref (.lit IRCONV_NUM_INT)) Q := by
  have here := operand.everywhere values
  cases isRef : tr.ref with
  | knum n =>
      rw [isRef] at here
      nomatch here
  | kint k =>
      rw [isRef] at here
      cases here
      apply computes_pure
      have constant := next (.knum (Num.ofInt i.toInt)) [] (fun _ => rfl) (by rw [tref_isk, tref_isk, isRef])
      rwa [List.append_nil] at constant
  | _ =>
      have emitted : emitir .conv .num tr.ref (.lit IRCONV_NUM_INT) = emit ⟨.conv, .num, tr.ref, .lit IRCONV_NUM_INT⟩ := by
        rw [isRef]
        rfl
      have unused : value operands values (.lit IRCONV_NUM_INT) = .num 0 := rfl
      rw [isRef] at emitted here
      rw [emitted]
      apply computes_emit here unused
      intro v computed
      cases computed
      apply next _ _ (holds_last _)
      rw [tref_isk, tref_isk, isRef]

/-! ## Operators -/

variable {rb rc : TRef} {b c : BitVec 32} {vb vc : TValue}

theorem toInt_small (i : BitVec 32) : i.toInt.natAbs ≤ 2 ^ 31 := by
  have lower := BitVec.le_toInt i
  have upper := BitVec.toInt_lt (x := i)
  omega

theorem ofInt_small (i : BitVec 32) : i.toInt.natAbs < 2 ^ 53 := (toInt_small i).trans_lt (by decide)

theorem addov_number {t : IRT} {op1 op2 : Ref} {v : Val}
    (computed : valueOf libm lj_strscan_num (.int b) (.int c) ⟨.addov, t, op1, op2⟩ = some v) :
    v.number = addsd (Num.ofInt b.toInt) (Num.ofInt c.toInt) := by
  have few := toInt_small b
  have few' := toInt_small c
  change (if BitVec.saddOverflow b c then none else some (.int (b + c))) = some v at computed
  split_ifs at computed with overflow
  cases computed
  rw [Val.number, BitVec.toInt_add_of_not_saddOverflow overflow, addsd_ofInt (ofInt_small b) (ofInt_small c) (by omega)]

theorem subov_number {t : IRT} {op1 op2 : Ref} {v : Val}
    (computed : valueOf libm lj_strscan_num (.int b) (.int c) ⟨.subov, t, op1, op2⟩ = some v) :
    v.number = subsd (Num.ofInt b.toInt) (Num.ofInt c.toInt) := by
  have few := toInt_small b
  have few' := toInt_small c
  change (if BitVec.ssubOverflow b c then none else some (.int (b - c))) = some v at computed
  split_ifs at computed with overflow
  cases computed
  rw [Val.number, BitVec.toInt_sub_of_not_ssubOverflow overflow, subsd_ofInt (ofInt_small b) (ofInt_small c) (by omega)]

theorem computes_arith (left : IsInteger operands rb b) (right : IsInteger operands rc c) {op : ArithOp}
    (basic : op ≠ .mod ∧ op ≠ .pow) :
    Computes libm lj_strscan_num operands [] (lj_opt_narrow_arith libm lj_strscan_num rb rc vb vc op)
      fun tr values => (value operands values tr.ref).number =
        lj_vm_foldarith libm (Num.ofInt b.toInt) (Num.ofInt c.toInt) op := by
  rw [lj_opt_narrow_arith, left.conv_str_tonum, right.conv_str_tonum]
  apply computes_bind
  apply computes_pure
  apply computes_bind
  apply computes_pure
  dsimp only
  split
  · rename_i add
    rw [add.1]
    apply computes_emitir (by decide) (left.everywhere []) (right.everywhere [])
    intro v computed
    rw [(holds_last v).here]
    exact addov_number computed
  · split
    · rename_i sub
      rw [sub.1]
      apply computes_emitir (by decide) (left.everywhere []) (right.everywhere [])
      intro v computed
      rw [(holds_last v).here]
      exact subov_number computed
    · rw [if_pos left.not_num]
      apply computes_bind
      apply left.computes_conv
      intro ref more first _
      rw [if_pos right.not_num]
      apply computes_bind
      apply right.computes_conv
      intro ref' more' second _
      cases op with
      | mod => exact absurd rfl basic.1
      | pow => exact absurd rfl basic.2
      | _ =>
          apply computes_emitir (by decide) (first.append more').here second.here
          intro v computed
          rw [(holds_last v).here]
          cases computed
          rfl

theorem computes_unm (right : IsInteger operands rc c) (nonzero : c.toInt ≠ 0) :
    Computes libm lj_strscan_num operands [] (lj_opt_narrow_unm lj_strscan_num rc vc)
      fun tr values => (value operands values tr.ref).number = (Num.ofInt c.toInt).flipSign := by
  have negated : subsd (Num.ofInt (0 : BitVec 32).toInt) (Num.ofInt c.toInt) = (Num.ofInt c.toInt).flipSign := by
    have few := toInt_small c
    have zero : (0 : BitVec 32).toInt = 0 := rfl
    rw [zero, subsd_ofInt (by decide) (ofInt_small c) (by omega), flipSign_ofInt (ofInt_small c) nonzero, Int.zero_sub]
  rw [lj_opt_narrow_unm, right.conv_str_tonum]
  apply computes_bind
  apply computes_pure
  dsimp only
  rw [if_pos right.type]
  split
  · apply computes_emitir (by decide) rfl (right.everywhere [])
    intro v computed
    rw [(holds_last v).here, ← negated]
    exact subov_number computed
  · apply computes_bind
    apply right.computes_conv
    intro ref more number _
    apply computes_emitir (by decide) number.here rfl
    intro v computed
    rw [(holds_last v).here]
    cases computed
    rfl

theorem IsInteger.computes_tonum {tr : TRef} {i : BitVec 32} (operand : IsInteger operands tr i) {Q : TRef → List Val → Prop}
    (next : ∀ ref more, Holds operands (values ++ more) ref (.num (Num.ofInt i.toInt)) →
      tref_isk ⟨ref, .num⟩ = tref_isk tr → Q ⟨ref, .num⟩ (values ++ more)) :
    Computes libm lj_strscan_num operands values (lj_ir_tonum tr) Q := by
  rw [lj_ir_tonum, operand.type]
  exact operand.computes_conv next

theorem computes_mod (narrow : Bool) (left : IsInteger operands rb b) (right : IsInteger operands rc c) :
    Computes libm lj_strscan_num operands [] (lj_opt_narrow_mod lj_strscan_num narrow rb rc vb vc)
      fun tr values => (value operands values tr.ref).number =
        lj_vm_foldarith libm (Num.ofInt b.toInt) (Num.ofInt c.toInt) .mod := by
  rw [lj_opt_narrow_mod, left.conv_str_tonum, right.conv_str_tonum]
  apply computes_bind
  apply computes_pure
  apply computes_bind
  apply computes_pure
  dsimp only
  split
  · apply computes_bind
    apply computes_emitir (by decide) (right.everywhere []) rfl
    intro guard passed
    have nonzero : c.toInt ≠ 0 := by
      change (if c ≠ 0 then some (.int c) else none) = some guard at passed
      split_ifs at passed with isZero
      intro same
      exact isZero (BitVec.eq_of_toInt_eq same)
    apply computes_emitir (by decide) (left.everywhere _) (right.everywhere _)
    intro v computed
    rw [(holds_last v).here]
    cases computed
    rw [Val.number, Val.asInt, Val.asInt, toInt_lj_vm_modi b nonzero, lj_vm_foldarith,
      mod_ofInt (toInt_small b) (toInt_small c) nonzero]
  · apply computes_bind
    apply left.computes_tonum
    intro ref more first _
    apply computes_bind
    apply right.computes_tonum
    intro ref' more' second _
    apply computes_bind
    apply computes_emitir (by decide) (first.append more').here second.here
    intro quotient divided
    cases divided
    apply computes_bind
    apply computes_emitir (by decide) (holds_last _).here rfl
    intro whole floored
    cases floored
    apply computes_bind
    apply computes_emitir (by decide) (holds_last _).here ((second.append _).append _).here
    intro product multiplied
    cases multiplied
    apply computes_emitir (by decide) ((((first.append more').append _).append _).append _).here (holds_last _).here
    intro v computed
    rw [(holds_last v).here]
    cases computed
    rfl

/-- A positive constant. -/
theorem isPositiveK_number {ref : Ref} {i : Int} (small : i.natAbs < 2 ^ 53)
    (holds : Holds operands values ref (.num (Num.ofInt i))) :
    isPositiveK ⟨ref, .num⟩ = (tref_isk ⟨ref, .num⟩ && decide (0 ≤ i)) := by
  have here := holds.here
  cases ref with
  | knum n =>
      cases here
      have sign : isPositiveK ⟨.knum (Num.ofInt i), .num⟩ = !(Num.ofInt i).msb := rfl
      rw [sign, tref_isk, Bool.true_and]
      by_cases isZero : i = 0
      · rw [isZero]
        rfl
      · rw [(Num.fields_ofInt isZero small).2.2.2, ← decide_not, decide_eq_decide]
        exact Int.not_lt
  | kint k => nomatch here
  | _ => rfl

/-- The base is a positive constant and the exponent was bigger while recording. -/
def SplitBase (rb : TRef) (b : BitVec 32) (vc : TValue) : Prop :=
  tref_isk rb ∧ 0 ≤ b.toInt ∧ ¬(-65536 ≤ (numberVint vc).toInt ∧ (numberVint vc).toInt ≤ 65536)

instance : Decidable (SplitBase rb b vc) := inferInstanceAs (Decidable (_ ∧ _ ∧ _))

theorem splits_iff {ref : Ref} (holds : Holds operands values ref (.num (Num.ofInt b.toInt)))
    (constant : tref_isk ⟨ref, .num⟩ = tref_isk rb) : splits ⟨ref, .num⟩ vc = true ↔ SplitBase rb b vc := by
  rw [splits, isPositiveK_number (ofInt_small b) holds, constant, SplitBase]
  simp only [Bool.and_eq_true, decide_eq_true_eq, Bool.not_eq_true', Bool.and_eq_false_iff, decide_eq_false_iff_not,
    not_and_or, and_assoc]

/-- The emitted power of a narrowed exponent multiplies repeatedly. -/
theorem computes_powi {ref : Ref} (base : Holds operands values ref (.num (Num.ofInt b.toInt)))
    (right : IsInteger operands rc c) : Computes libm lj_strscan_num operands values
      (emitir .pow .num ref rc.ref) fun tr values =>
        (value operands values tr.ref).number = lj_vm_powi (Num.ofInt b.toInt) c := by
  apply computes_emitir (by decide) base.here (right.everywhere _)
  intro v computed
  rw [(holds_last v).here]
  cases computed
  rfl

theorem computes_pow (left : IsInteger operands rb b) (right : IsInteger operands rc c)
    (recorded : numisint (numberVnum vc) = true) (whole : ¬SplitBase rb b vc) :
    Computes libm lj_strscan_num operands [] (lj_opt_narrow_pow lj_strscan_num rb rc vb vc)
      fun tr values => (value operands values tr.ref).number = lj_vm_powi (Num.ofInt b.toInt) c := by
  rw [lj_opt_narrow_pow, left.conv_str_tonum, right.conv_str_tonum]
  apply computes_bind
  apply computes_pure
  apply computes_bind
  apply left.computes_tonum
  intro ref more base constant
  apply computes_bind
  apply computes_pure
  have kept : splits ⟨ref, .num⟩ vc = false := Bool.eq_false_iff.mpr fun split => whole ((splits_iff base constant).mp split)
  dsimp only
  rw [if_pos ⟨recorded, kept⟩, if_neg (not_not.mpr right.type)]
  apply computes_bind
  apply computes_pure
  split
  · -- The range guard does not change the result.
    apply computes_bind
    apply computes_emitir (by decide) (right.everywhere _) rfl
    intro moved added
    apply computes_bind
    apply computes_emitir (by decide) (holds_last _).here rfl
    intro guard passed
    exact computes_powi ((base.append _).append _) right
  · exact computes_powi base right

theorem ofInt_inj {i j : BitVec 32} (same : Num.ofInt i.toInt = Num.ofInt j.toInt) : i = j := by
  have number (k : BitVec 32) : (Num.ofInt k.toInt).num2int = k.toInt := Num.num2int_ofInt (BitVec.le_toInt k) (BitVec.toInt_lt (x := k))
  apply BitVec.eq_of_toInt_eq
  rw [← number i, same, number j]

/-- An integer is not one half. -/
theorem ofInt_ne_half (i : BitVec 32) : Num.ofInt i.toInt ≠ 0x3fe0000000000000 := by
  intro half
  have number : (Num.ofInt i.toInt).num2int = i.toInt := Num.num2int_ofInt (BitVec.le_toInt i) (BitVec.toInt_lt (x := i))
  have truncated : (0x3fe0000000000000 : Num).num2int = 0 := by decide
  rw [half, truncated] at number
  rw [← number] at half
  exact absurd half (by decide)

theorem Holds.constant {ref : Ref} {n : Num} (holds : Holds operands values ref (.num n))
    (constant : tref_isk ⟨ref, .num⟩ = true) : ref = .knum n := by
  have here := holds.here
  cases ref with
  | knum m =>
      cases here
      rfl
  | kint k => nomatch here
  | _ => nomatch constant

/-- The power that is split is that of a constant. -/
theorem computes_splitPow (left : IsInteger operands rb b) (right : IsInteger operands rc c) (big : SplitBase rb b vc) :
    Computes libm lj_strscan_num operands [] (lj_opt_narrow_pow lj_strscan_num rb rc vb vc)
      fun tr values => (value operands values tr.ref).number =
        if b = 1 then Num.ofInt 1
        else libm.exp2 (mulsd (libm.log2 (Num.ofInt b.toInt)) (Num.ofInt c.toInt)) := by
  rw [lj_opt_narrow_pow, left.conv_str_tonum, right.conv_str_tonum]
  apply computes_bind
  apply computes_pure
  apply computes_bind
  apply left.computes_tonum
  intro ref more base constant
  apply computes_bind
  apply computes_pure
  have split : splits ⟨ref, .num⟩ vc = true := (splits_iff base constant).mpr big
  dsimp only
  rw [if_neg fun both => Bool.false_ne_true (both.2.symm.trans split), splitPow, base.constant (constant.trans big.1)]
  split
  · rename_i one
    have same : Num.ofInt b.toInt = Num.ofInt (1 : BitVec 32).toInt := Ref.knum.inj one
    apply computes_pure
    rw [if_pos (ofInt_inj same)]
    exact same
  · rename_i other
    have different : b ≠ 1 := fun same => other (by rw [same]; rfl)
    rw [if_neg different]
    apply computes_bind
    apply right.computes_tonum
    intro ref' more' exponent _
    split
    · rename_i half
      dsimp only at half
      rw [half] at exponent
      exact absurd (Val.num.inj exponent.here).symm (ofInt_ne_half c)
    · apply computes_bind
      apply computes_emitir (by decide) rfl rfl
      intro logarithm taken
      cases taken
      apply computes_bind
      apply computes_emitir (by decide) (holds_last _).here (exponent.append _).here
      intro product multiplied
      cases multiplied
      apply computes_emitir (by decide) (holds_last _).here rfl
      intro v computed
      rw [(holds_last v).here]
      cases computed
      rfl

end

/-! ## The emitted code -/

variable {lj_strscan_num : List UInt8 → Option Num} {libm : Libm} {operands : Operands} {rb rc : TRef} {b c : BitVec 32}

/-- A C library whose powers of integers are the nearest ones. -/
def nearestLibm : Libm where
  pow x y := BitVec.ofNat 64 (binary64.whole false (x.num2int ^ y.num2int.toNat))
  sqrt x := x
  log2 x := x
  exp2 x := x

/-- The operands of the examples are those two references. -/
def leftInteger : TRef := ⟨.left, .int⟩

def rightInteger : TRef := ⟨.right, .int⟩

theorem nearestLibm_pow (i k : BitVec 32) (_ : 0 ≤ k.toInt) (small : (i.toInt ^ k.toInt.toNat).natAbs < 2 ^ 53) :
    nearestLibm.pow (Num.ofInt i.toInt) (Num.ofInt k.toInt) = Num.ofInt (i.toInt ^ k.toInt.toNat) := by
  have number (j : BitVec 32) : (Num.ofInt j.toInt).num2int = j.toInt :=
    Num.num2int_ofInt (BitVec.le_toInt j) (BitVec.toInt_lt (x := j))
  have power : nearestLibm.pow (Num.ofInt i.toInt) (Num.ofInt k.toInt) = BitVec.ofNat 64
    (binary64.whole false ((Num.ofInt i.toInt).num2int ^ (Num.ofInt k.toInt).num2int.toNat)) := rfl
  rw [power, number, number]
  exact ofNat_whole small fun _ => rfl

theorem isInteger_left (b c : BitVec 32) : IsInteger ⟨.int b, .int c⟩ leftInteger b := ⟨rfl, fun _ => rfl⟩

theorem isInteger_right (b c : BitVec 32) : IsInteger ⟨.int b, .int c⟩ rightInteger c := ⟨rfl, fun _ => rfl⟩

end TvmJit.Arith
