import TvmJit.Ffi.Climb

/-! When the evaluator of constant expressions gives the value that C gives. -/

namespace TvmJit

open Foundation Function

/-! ## Words and the integers they hold -/

namespace CIntType

variable {t : CIntType} {x y : Int}

theorem promoted_cases (t : CIntType) : t.promoted = int ∨ t.promoted = uint := by
  rw [promoted]
  split
  · exact .inr rfl
  · exact .inl rfl

theorem common_cases (t t' : CIntType) : t.common t' = int ∨ t.common t' = uint := by
  rw [common]
  split
  · exact .inr rfl
  · exact .inl rfl

theorem ofInt_read (t : CIntType) (w : BitVec 32) : BitVec.ofInt 32 (t.read w) = w := by
  rw [read]
  split
  · rw [BitVec.ofInt_natCast, BitVec.ofNat_toNat, BitVec.setWidth_eq]
  · exact BitVec.ofInt_toInt

/-- A type of four bytes. -/
def Wide (t : CIntType) : Prop := t = int ∨ t = uint

theorem Wide.read_ofInt (wide : t.Wide) (x : Int) : t.read (.ofInt 32 x) = t.convert x := by
  rcases wide with rfl | rfl
  · exact BitVec.toInt_ofInt x
  · change ((BitVec.ofInt 32 x).toNat : Int) = x % 2 ^ 32
    rw [BitVec.toNat_ofInt]
    exact Int.toNat_of_nonneg (Int.emod_nonneg _ (by decide))

theorem Wide.ofInt_convert (wide : t.Wide) (x : Int) :
    BitVec.ofInt 32 (t.convert x) = .ofInt 32 x := by
  rw [← wide.read_ofInt, CIntType.ofInt_read]

theorem Wide.convert_inRange (wide : t.Wide) (x : Int) : t.InRange (t.convert x) := by
  rw [InRange, ← wide.read_ofInt, wide.ofInt_convert, wide.read_ofInt]

theorem Wide.read_inRange (wide : t.Wide) (w : BitVec 32) : t.InRange (t.read w) := by
  rw [InRange, ← wide.read_ofInt, CIntType.ofInt_read]

theorem Wide.inRange_inj (wide : t.Wide) (left : t.InRange x) (right : t.InRange y) :
    BitVec.ofInt 32 x = .ofInt 32 y ↔ x = y := by
  refine ⟨fun same => ?_, fun same => same ▸ rfl⟩
  rw [← left, ← right, ← wide.read_ofInt, ← wide.read_ofInt, same]

/-- The values of a type are among those of the promoted type. -/
theorem InRange.promoted (inRange : t.InRange x) : t.promoted.InRange x := by
  obtain ⟨bytes, unsigned, size⟩ := t
  rcases size with rfl | rfl | rfl <;> cases unsigned
  · change x.bmod (2 ^ 8) = x at inRange
    change x.bmod (2 ^ 32) = x
    rw [Int.bmod] at inRange ⊢
    omega
  · change x % 2 ^ 8 = x at inRange
    change x.bmod (2 ^ 32) = x
    rw [Int.bmod]
    omega
  · change x.bmod (2 ^ 16) = x at inRange
    change x.bmod (2 ^ 32) = x
    rw [Int.bmod] at inRange ⊢
    omega
  · change x % 2 ^ 16 = x at inRange
    change x.bmod (2 ^ 32) = x
    rw [Int.bmod]
    omega
  · exact inRange
  · exact inRange

theorem InRange.int_bounds (inRange : int.InRange x) : -2 ^ 31 ≤ x ∧ x < 2 ^ 31 := by
  change x.bmod (2 ^ 32) = x at inRange
  rw [Int.bmod] at inRange
  omega

theorem InRange.uint_bounds (inRange : uint.InRange x) : 0 ≤ x ∧ x < 2 ^ 32 := by
  change x % 2 ^ 32 = x at inRange
  omega

theorem Wide.read_lt (wide : t.Wide) (a b : BitVec 32) :
    decide (t.read a < t.read b) = if !t.unsigned then a.slt b else a.ult b := by
  rcases wide with rfl | rfl
  · rfl
  · exact decide_eq_decide.mpr Int.ofNat_lt

theorem Wide.read_le (wide : t.Wide) (a b : BitVec 32) :
    decide (t.read a ≤ t.read b) = if !t.unsigned then a.sle b else a.ule b := by
  rcases wide with rfl | rfl
  · rfl
  · exact decide_eq_decide.mpr Int.ofNat_le

theorem Wide.read_inj (wide : t.Wide) (a b : BitVec 32) : t.read a = t.read b ↔ a = b := by
  rcases wide with rfl | rfl
  · exact BitVec.toInt_inj
  · exact Int.ofNat_inj.trans BitVec.toNat_inj

/-- The quotient of two words of the type. -/
theorem Wide.ofInt_tdiv (wide : t.Wide) (a b : BitVec 32)
    (inRange : t.InRange ((t.read a).tdiv (t.read b))) :
    BitVec.ofInt 32 ((t.read a).tdiv (t.read b)) = if !t.unsigned then a.sdiv b else a.udiv b := by
  apply (wide.read_inj _ _).mp
  rw [wide.read_ofInt, inRange]
  rcases wide with rfl | rfl
  · change a.toInt.tdiv b.toInt = (a.sdiv b).toInt
    rw [BitVec.toInt_sdiv]
    exact inRange.symm
  · change (a.toNat : Int).tdiv b.toNat = ((a.udiv b).toNat : Int)
    rw [BitVec.udiv_eq, BitVec.toNat_udiv]
    rfl

/-- A shift to the right. -/
theorem Wide.read_shift (wide : t.Wide) (a : BitVec 32) (n : Nat) :
    t.read (if !t.unsigned then a.sshiftRight n else a >>> n) = t.read a / 2 ^ n := by
  rcases wide with rfl | rfl
  · change (a.sshiftRight n).toInt = a.toInt / 2 ^ n
    rw [BitVec.toInt_sshiftRight, Int.shiftRight_eq_div_pow]
    norm_cast
  · change ((a >>> n).toNat : Int) = (a.toNat : Int) / 2 ^ n
    rw [BitVec.toNat_ushiftRight, Nat.shiftRight_eq_div_pow]
    norm_cast

theorem Wide.read_tmod (wide : t.Wide) (a b : BitVec 32) :
    t.read (if !t.unsigned then a.srem b else a.umod b) = (t.read a).tmod (t.read b) := by
  rcases wide with rfl | rfl
  · exact BitVec.toInt_srem a b
  · change ((a.umod b).toNat : Int) = (a.toNat : Int).tmod b.toNat
    rw [← Int.ofNat_tmod, BitVec.umod_eq, BitVec.toNat_umod]

/-- No value of a type is a multiple of the width. -/
theorem InRange.eq_zero (inRange : t.InRange x) : BitVec.ofInt 32 x = 0 ↔ x = 0 := by
  have wide : t.promoted.Wide := t.promoted_cases
  have zero : t.promoted.InRange 0 := by
    rcases wide with isInt | isUint
    · rw [isInt]
      rfl
    · rw [isUint]
      rfl
  exact wide.inRange_inj inRange.promoted zero

end CIntType

theorem ofInt_truth (b : Bool) : BitVec.ofInt 32 (truth b) = if b then 1 else 0 := by
  cases b <;> rfl

theorem truth_inRange (b : Bool) : CIntType.int.InRange (truth b) := by cases b <;> rfl

theorem ofInt_not (x : Int) : BitVec.ofInt 32 (-x - 1) = ~~~BitVec.ofInt 32 x := by
  rw [BitVec.not_eq_neg_add, Int.sub_eq_add_neg, BitVec.ofInt_add, BitVec.ofInt_neg,
    BitVec.sub_eq_add_neg, BitVec.ofInt_neg]
  rfl

theorem ofInt_shiftLeft (x : Int) (n : Nat) :
    BitVec.ofInt 32 (x * 2 ^ n) = BitVec.ofInt 32 x <<< n := by
  have power : BitVec.ofInt 32 (2 ^ n) = BitVec.twoPow 32 n := by
    apply BitVec.eq_of_toNat_eq
    rw [BitVec.toNat_twoPow, ← BitVec.toNat_ofNat, ← BitVec.ofInt_natCast]
    norm_cast
  rw [BitVec.ofInt_mul, power, BitVec.shiftLeft_eq_mul_twoPow]

/-- A shift count as a word. -/
theorem toNat_ofInt_count {y : Int} (count : 0 ≤ y ∧ y < 32) : (BitVec.ofInt 32 y).toNat = y.toNat := by
  rw [BitVec.toNat_ofInt, Int.emod_eq_of_lt count.1 (by omega)]

theorem ofInt_sub (x y : Int) : BitVec.ofInt 32 (x - y) = .ofInt 32 x - .ofInt 32 y := by
  rw [Int.sub_eq_add_neg, BitVec.ofInt_add, BitVec.ofInt_neg, BitVec.sub_eq_add_neg]

/-! ## Infix operators on words -/

namespace CBinop

/-- What an infix operator makes of two words that hold signed or unsigned integers. -/
def word (signed : Bool) (a b : BitVec 32) : CBinop → BitVec 32
  | oror => if a ≠ 0 || b ≠ 0 then 1 else 0
  | andand => if a ≠ 0 && b ≠ 0 then 1 else 0
  | bor => a ||| b
  | bxor => a ^^^ b
  | band => a &&& b
  | eq => if a = b then 1 else 0
  | ne => if a ≠ b then 1 else 0
  | lt => if (if signed then a.slt b else a.ult b) then 1 else 0
  | gt => if (if signed then b.slt a else b.ult a) then 1 else 0
  | le => if (if signed then a.sle b else a.ule b) then 1 else 0
  | ge => if (if signed then b.sle a else b.ule a) then 1 else 0
  | shl => a <<< b
  | shr => if signed then a.sshiftRight b.toNat else a >>> b
  | add => a + b
  | sub => a - b
  | mul => a * b
  | div => if signed then a.sdiv b else a.udiv b
  | mod => if signed then a.srem b else a.umod b

/-- Whether C takes the operands as signed integers. -/
def signedIn (left right : CIntType) : CBinop → Bool
  | shr => !left.promoted.unsigned
  | _ => !(left.common right).unsigned

/-- Whether the evaluator does. -/
def signedFor (left right : CTypeID) : CBinop → Bool
  | lt | gt | le | ge => left = CTID_INT32 && right = CTID_INT32
  | shr => left = CTID_INT32
  | div | mod => (if right > left then right else left) = CTID_INT32
  | _ => true

variable {tl tr : CIntType} {x y v : Int} {a b : BitVec 32} {op : CBinop}

/-- The value of an infix operator in C, as a word. -/
theorem ofInt_value (left : tl.InRange x) (right : tr.InRange y)
    (value : op.value (tl.common tr) tl.promoted x y = some v) :
    BitVec.ofInt 32 v = op.word (op.signedIn tl tr) (.ofInt 32 x) (.ofInt 32 y) := by
  have wide : (tl.common tr).Wide := tl.common_cases tr
  have wide' : tl.promoted.Wide := tl.promoted_cases
  cases op with
  | oror | andand =>
      obtain rfl := Option.some.inj value
      rw [ofInt_truth]
      simp only [word, ne_eq, left.eq_zero, right.eq_zero]
  | bor | bxor | band =>
      obtain rfl := Option.some.inj value
      exact CIntType.ofInt_read _ _
  | eq | ne =>
      obtain rfl := Option.some.inj value
      rw [ofInt_truth, ← wide.read_ofInt, ← wide.read_ofInt]
      simp [word, wide.read_inj]
  | lt | gt =>
      obtain rfl := Option.some.inj value
      rw [ofInt_truth, ← wide.read_ofInt, ← wide.read_ofInt]
      exact congrArg (if · then (1 : BitVec 32) else 0) (wide.read_lt _ _)
  | le | ge =>
      obtain rfl := Option.some.inj value
      rw [ofInt_truth, ← wide.read_ofInt, ← wide.read_ofInt]
      exact congrArg (if · then (1 : BitVec 32) else 0) (wide.read_le _ _)
  | shl =>
      rw [CBinop.value] at value
      split at value
      · next count =>
          obtain rfl := Option.some.inj value
          rw [wide'.ofInt_convert, ofInt_shiftLeft, ← toNat_ofInt_count count]
          rfl
      · cases value
  | shr =>
      rw [CBinop.value] at value
      split at value
      · next count =>
          obtain rfl := Option.some.inj value
          have isRead : tl.promoted.read (.ofInt 32 x) = x := (wide'.read_ofInt x).trans left.promoted
          have shifted := wide'.read_shift (.ofInt 32 x) y.toNat
          rw [isRead, ← toNat_ofInt_count count] at shifted
          rw [← toNat_ofInt_count count, ← shifted, CIntType.ofInt_read]
          rfl
      · cases value
  | add =>
      obtain rfl := Option.some.inj value
      rw [wide.ofInt_convert, BitVec.ofInt_add, wide.ofInt_convert, wide.ofInt_convert]
      rfl
  | sub =>
      obtain rfl := Option.some.inj value
      rw [wide.ofInt_convert, ofInt_sub, wide.ofInt_convert, wide.ofInt_convert]
      rfl
  | mul =>
      obtain rfl := Option.some.inj value
      rw [wide.ofInt_convert, BitVec.ofInt_mul, wide.ofInt_convert, wide.ofInt_convert]
      rfl
  | div =>
      rw [CBinop.value] at value
      split at value
      · cases value
      · next defined =>
          obtain rfl := Option.some.inj value
          rw [not_or, not_not, ← wide.read_ofInt x, ← wide.read_ofInt y] at defined
          rw [← wide.read_ofInt x, ← wide.read_ofInt y]
          exact wide.ofInt_tdiv _ _ defined.2
  | mod =>
      rw [CBinop.value] at value
      split at value
      · cases value
      · obtain rfl := Option.some.inj value
        rw [← wide.read_ofInt x, ← wide.read_ofInt y]
        rw [← wide.read_tmod, CIntType.ofInt_read]
        rfl

/-- The value of an infix operator lies in the type of the expression. -/
theorem value_inRange (left : tl.InRange x)
    (value : op.value (tl.common tr) tl.promoted x y = some v) :
    (match op with
      | .oror | .andand | .eq | .ne | .lt | .gt | .le | .ge => CIntType.int
      | .shl | .shr => tl.promoted
      | _ => tl.common tr).InRange v := by
  have wide : (tl.common tr).Wide := tl.common_cases tr
  have wide' : tl.promoted.Wide := tl.promoted_cases
  cases op with
  | oror | andand | eq | ne | lt | gt | le | ge =>
      obtain rfl := Option.some.inj value
      exact truth_inRange _
  | bor | bxor | band =>
      obtain rfl := Option.some.inj value
      exact wide.read_inRange _
  | add | sub | mul =>
      obtain rfl := Option.some.inj value
      exact wide.convert_inRange _
  | shl =>
      rw [CBinop.value] at value
      split at value
      · obtain rfl := Option.some.inj value
        exact wide'.convert_inRange _
      · cases value
  | shr =>
      rw [CBinop.value] at value
      split at value
      · obtain rfl := Option.some.inj value
        have isRead : tl.promoted.read (.ofInt 32 x) = x := (wide'.read_ofInt x).trans left.promoted
        rw [← isRead, ← wide'.read_shift]
        exact wide'.read_inRange _
      · cases value
  | div =>
      rw [CBinop.value] at value
      split at value
      · cases value
      · next defined =>
          obtain rfl := Option.some.inj value
          rw [not_or, not_not] at defined
          exact defined.2
  | mod =>
      rw [CBinop.value] at value
      split at value
      · cases value
      · obtain rfl := Option.some.inj value
        rw [← wide.read_ofInt x, ← wide.read_ofInt y, ← wide.read_tmod]
        exact wide.read_inRange _

variable {k k2 : CPValue}

/-- What the evaluator makes of two values where C gives a value. -/
theorem infix_word (value : op.value (tl.common tr) tl.promoted x y = some v)
    (right : k2.u32 = .ofInt 32 y) (left : k.u32 = .ofInt 32 x)
    (signed : (if k2.id > k.id then k2.id else k.id) = CTID_INT32 → (tl.common tr).unsigned = false) :
    k.infix_ k2 op =
      .ok ⟨op.word (op.signedFor k.id k2.id) k.u32 k2.u32, op.typeid k.id k2.id⟩ := by
  have wide : (tl.common tr).Wide := tl.common_cases tr
  have divided (nonzero : (tl.common tr).convert y ≠ 0)
      (inRange : (tl.common tr).InRange (((tl.common tr).convert x).tdiv ((tl.common tr).convert y)))
      (s u : BitVec 32 → BitVec 32 → BitVec 32) : k.divide k2 s u =
        .ok ⟨if (if k2.id > k.id then k2.id else k.id) = CTID_INT32 then s k.u32 k2.u32
          else u k.u32 k2.u32, if k2.id > k.id then k2.id else k.id⟩ := by
    rw [← wide.read_ofInt, ← right] at nonzero
    rw [← wide.read_ofInt, ← wide.read_ofInt, ← right, ← left] at inRange
    rw [CPValue.divide]
    refine if_neg ?_
    rw [Bool.or_eq_true, decide_eq_true_eq, Bool.and_eq_true, Bool.and_eq_true, decide_eq_true_eq,
      decide_eq_true_eq, decide_eq_true_eq, not_or]
    constructor
    · intro zero
      rw [zero] at nonzero
      rcases wide with isInt | isUint
      · rw [isInt] at nonzero
        exact nonzero rfl
      · rw [isUint] at nonzero
        exact nonzero rfl
    · rintro ⟨⟨isInt32, least⟩, minusOne⟩
      have notUnsigned := signed isInt32
      rcases wide with isInt | isUint
      · rw [isInt, least, minusOne] at inRange
        revert inRange
        decide
      · rw [isUint] at notUnsigned
        cases notUnsigned
  cases op with
  | div | mod =>
      rw [CBinop.value] at value
      split at value
      · cases value
      · next defined =>
          rw [not_or, not_not] at defined
          exact (divided defined.1 defined.2 _ _).trans (by simp [word, signedFor, typeid])
  | eq | ne => simp [CPValue.infix_, CPValue.ofBool, word, typeid]
  | shr => simp [CPValue.infix_, word, signedFor, typeid]
  | _ => rfl

end CBinop

namespace CIntType

theorem promoted_promoted (t : CIntType) : t.promoted.promoted = t.promoted := by
  rcases t.promoted_cases with isInt | isUint
  · rw [isInt]
    rfl
  · rw [isUint]
    rfl

theorem common_promoted (t t' : CIntType) : (t.common t').promoted = t.common t' := by
  rcases t.common_cases t' with isInt | isUint
  · rw [isInt]
    rfl
  · rw [isUint]
    rfl

theorem common_unsigned {t t' : CIntType} (unsigned : (t.common t').unsigned = true) :
    t.promoted.unsigned = true ∨ t'.promoted.unsigned = true := by
  rw [common] at unsigned
  split at unsigned
  · next either => exact either
  · cases unsigned

end CIntType

/-! ## Expressions -/

section

variable [CPState]

namespace CExpr

variable {e l r c a b s : CExpr} {v : Int} {depth : Nat} {k : CPValue}

/-- An operator or a sizeof to whose operands the evaluator gives the types that C gives, as far as
it matters for their values. -/
def Sound : CExpr → Prop
  | sizeofExpr e => sizeOf e.typeid = BitVec.ofNat 32 e.type.bytes
  | binary op l r => ∀ x y, l.value = some x → r.value = some y →
      op.word (op.signedFor l.typeid r.typeid) (.ofInt 32 x) (.ofInt 32 y) =
        op.word (op.signedIn l.type r.type) (.ofInt 32 x) (.ofInt 32 y)
  | _ => True

/-- The value of an expression lies in its type. -/
theorem inRange (value : e.value = some v) : e.type.InRange v := by
  induction e generalizing v with
  | integer w unsigned =>
      obtain rfl := Option.some.inj value
      cases unsigned
      · exact CIntType.Wide.read_inRange (.inl rfl) w
      · exact CIntType.Wide.read_inRange (.inr rfl) w
  | constant c =>
      obtain rfl := Option.some.inj value
      exact c.inRange
  | sizeofType name =>
      obtain rfl := Option.some.inj value
      exact CIntType.Wide.read_inRange (.inr rfl) name.size
  | sizeofExpr e induction =>
      obtain ⟨x, -, rfl⟩ := Option.map_eq_some_iff.mp value
      rcases e.type.size with size | size | size <;> rw [size] <;> rfl
  | unary op e induction =>
      obtain ⟨x, operand, rfl⟩ := Option.map_eq_some_iff.mp value
      have wide : e.type.promoted.Wide := e.type.promoted_cases
      cases op with
      | plus => exact (induction operand).promoted
      | neg | bnot => exact wide.convert_inRange _
      | lnot => exact truth_inRange _
  | binary op l r inductionl inductionr =>
      obtain ⟨x, left, value⟩ := Option.bind_eq_some_iff.mp value
      obtain ⟨y, right, value⟩ := Option.bind_eq_some_iff.mp value
      exact CBinop.value_inRange (inductionl left) value
  | cond c a b inductionc inductiona inductionb =>
      obtain ⟨z, -, value⟩ := Option.bind_eq_some_iff.mp value
      obtain ⟨x, -, value⟩ := Option.bind_eq_some_iff.mp value
      obtain ⟨y, -, value⟩ := Option.bind_eq_some_iff.mp value
      obtain rfl := Option.some.inj value
      exact CIntType.Wide.convert_inRange (a.type.common_cases b.type) _
  | paren e induction => exact induction value

omit [CPState] in
theorem lt_greater {x y z : CTypeID} (either : z < x ∨ z < y) : z < if y > x then y else x := by
  split
  · rcases either with less | less
    · bv_omega
    · exact less
  · rcases either with less | less
    · exact less
    · bv_omega

/-- The ID of an unsigned value is behind that of `int`. -/
theorem typeid_unsigned (predefined : CPState.Predefined) (e : CExpr)
    (unsigned : e.type.promoted.unsigned = true) : CTID_INT32 < e.typeid := by
  induction e with
  | integer w isUnsigned =>
      cases isUnsigned
      · cases unsigned
      · exact (by decide : CTID_INT32 < CTID_UINT32)
  | constant c =>
      by_contra below
      have isInt := predefined.below _ _ (BitVec.not_lt.mp below) c.isType
      change c.type.promoted.unsigned = true at unsigned
      rw [isInt] at unsigned
      cases unsigned
  | sizeofType name => exact (by decide : CTID_INT32 < CTID_UINT32)
  | sizeofExpr e induction => exact (by decide : CTID_INT32 < CTID_UINT32)
  | unary op e induction =>
      cases op with
      | lnot => cases unsigned
      | _ =>
          rw [type, CIntType.promoted_promoted] at unsigned
          · exact induction unsigned
          · exact nofun
  | binary op l r inductionl inductionr =>
      have either (unsigned : (l.type.common r.type).promoted.unsigned = true) :
          CTID_INT32 < if r.typeid > l.typeid then r.typeid else l.typeid := by
        rw [CIntType.common_promoted] at unsigned
        exact lt_greater ((CIntType.common_unsigned unsigned).imp inductionl inductionr)
      cases op with
      | oror | andand | eq | ne | lt | gt | le | ge => cases unsigned
      | shl | shr =>
          have unsigned : l.type.promoted.promoted.unsigned = true := unsigned
          rw [CIntType.promoted_promoted] at unsigned
          exact inductionl unsigned
      | _ => exact either unsigned
  | cond c a b inductionc inductiona inductionb =>
      have unsigned : (a.type.common b.type).promoted.unsigned = true := unsigned
      rw [CIntType.common_promoted] at unsigned
      have either := (CIntType.common_unsigned unsigned).imp inductiona inductionb
      exact lt_greater either.symm
  | paren e induction => exact induction unsigned

/-- The evaluator does not take a division of unsigned integers for one of signed ones. -/
theorem common_signed (predefined : CPState.Predefined)
    (isInt : (if r.typeid > l.typeid then r.typeid else l.typeid) = CTID_INT32) :
    (l.type.common r.type).unsigned = false := by
  rw [← Bool.not_eq_true]
  intro unsigned
  have behind := lt_greater ((CIntType.common_unsigned unsigned).imp (l.typeid_unsigned predefined)
    (r.typeid_unsigned predefined))
  rw [isInt] at behind
  exact BitVec.lt_irrefl _ behind

/-! ### Depth -/

omit [CPState] in
theorem enter_eq {body : Except CParseError CPValue} (shallow : depth + 1 ≤ CPARSE_MAX_DECLDEPTH) :
    nested depth body = body := if_neg (Nat.not_lt.mpr shallow)

theorem depth_pos (e : CExpr) : 0 < e.depth := by
  induction e with
  | integer _ _ | constant _ | sizeofType _ => exact Nat.zero_lt_one
  | sizeofExpr e _ => cases e <;> exact Nat.succ_pos _
  | unary _ _ _ | paren _ _ => exact Nat.succ_pos _
  | binary op l r inductionl inductionr => exact inductionl.trans_le (Nat.le_max_left _ _)
  | cond c a b inductionc inductiona inductionb => exact inductionc.trans_le (Nat.le_max_left _ _)

/-- Without parentheses the operand of `sizeof` is a unary expression. -/
theorem sizeof_plain (notParen : ∀ a, e = paren a → False) (depth : Nat) :
    e.inSizeof depth = e.evaluate (depth + 1) ∧ (sizeofExpr e).depth = e.depth + 1 := by
  cases e with
  | paren a => exact (notParen a rfl).elim
  | _ => exact ⟨rfl, rfl⟩

/-- A value is only returned from within the limit. -/
theorem evaluate_depth (value : e.evaluate depth = .ok k) :
    depth + e.depth ≤ CPARSE_MAX_DECLDEPTH := by
  induction depth, e using evaluate.induct generalizing k with
  | case1 depth w unsigned | case2 depth c | case3 depth name => exact (nested_ok value).1
  | case4 depth e induction =>
      obtain ⟨k', inner, -⟩ := map_ok (nested_ok value).2
      have deep := induction inner
      change depth + (e.depth + 1) ≤ _
      omega
  | case5 depth e notParen induction =>
      obtain ⟨plain, isDepth⟩ := sizeof_plain notParen depth
      rw [evaluate_sizeof, plain] at value
      obtain ⟨k', inner, -⟩ := map_ok (nested_ok value).2
      have deep := induction inner
      omega
  | case6 depth op e induction =>
      obtain ⟨k', inner, -⟩ := map_ok (nested_ok value).2
      have deep := induction inner
      change depth + (e.depth + 1) ≤ _
      omega
  | case7 depth op l r inductionl inductionr =>
      obtain ⟨k₁, left, value⟩ := bind_ok value
      obtain ⟨k₂, right, value⟩ := bind_ok value
      have deepl := inductionl left
      have deepr := inductionr right
      change depth + max l.depth r.depth ≤ _
      omega
  | case8 depth c a b inductionc inductiona inductionb =>
      obtain ⟨k₁, first, value⟩ := bind_ok value
      obtain ⟨k₂, left, value⟩ := bind_ok value
      obtain ⟨k₃, right, value⟩ := bind_ok value
      have deepc := inductionc first
      have deepa := inductiona left
      have deepb := inductionb right
      change depth + max c.depth (max a.depth b.depth) ≤ _
      omega
  | case9 depth e induction =>
      have deep := induction (nested_ok value).2
      change depth + (e.depth + 1) ≤ _
      omega

/-! ### Values -/

theorem self_mem_parts (e : CExpr) : e ∈ e.parts := by
  cases e <;> exact List.mem_cons_self

/-- The evaluator gives the value of C, if it takes the operands of each operator as C does. -/
theorem evaluate_value (predefined : CPState.Predefined) (value : e.value = some v)
    (sound : ∀ s ∈ e.parts, s.Sound) (shallow : depth + e.depth ≤ CPARSE_MAX_DECLDEPTH) :
    e.evaluate depth = .ok ⟨.ofInt 32 v, e.typeid⟩ := by
  induction depth, e using evaluate.induct generalizing v with
  | case1 depth w unsigned =>
      obtain rfl := Option.some.inj value
      rw [evaluate, enter_eq shallow]
      cases unsigned
      · simp [typeid]
      · simp [typeid]
  | case2 depth c =>
      obtain rfl := Option.some.inj value
      rw [evaluate, enter_eq shallow, CIntType.ofInt_read]
      rfl
  | case3 depth name =>
      obtain rfl := Option.some.inj value
      have isSize := CIntType.ofInt_read .uint name.size
      change BitVec.ofInt 32 (name.size.toNat : Int) = name.size at isSize
      rw [evaluate, enter_eq shallow, isSize]
      rfl
  | case4 depth e induction =>
      obtain ⟨x, inner, rfl⟩ := Option.map_eq_some_iff.mp value
      have shallow : depth + (e.depth + 1) ≤ CPARSE_MAX_DECLDEPTH := shallow
      have read := induction inner (fun s part => sound s (.tail _ (.tail _ part))) (by omega)
      have size : sizeOf e.typeid = BitVec.ofNat 32 e.type.bytes := sound _ (self_mem_parts _)
      rw [evaluate, enter_eq (by omega), read]
      change Except.ok (CPValue.mk (sizeOf e.typeid) CTID_UINT32) = _
      rw [size]
      rfl
  | case5 depth e notParen induction =>
      obtain ⟨plain, isDepth⟩ := sizeof_plain notParen depth
      rw [isDepth] at shallow
      obtain ⟨x, inner, rfl⟩ := Option.map_eq_some_iff.mp value
      have read := induction inner (fun s part => sound s (.tail _ part)) (by omega)
      have size : sizeOf e.typeid = BitVec.ofNat 32 e.type.bytes := sound _ (self_mem_parts _)
      rw [evaluate_sizeof, enter_eq (by omega), plain, read]
      change Except.ok (CPValue.mk (sizeOf e.typeid) CTID_UINT32) = _
      rw [size]
      rfl
  | case6 depth op e induction =>
      obtain ⟨x, operand, rfl⟩ := Option.map_eq_some_iff.mp value
      have shallow : depth + (e.depth + 1) ≤ CPARSE_MAX_DECLDEPTH := shallow
      have read := induction operand (fun s part => sound s (.tail _ part)) (by omega)
      have wide : e.type.promoted.Wide := e.type.promoted_cases
      rw [evaluate, enter_eq (by omega), read]
      cases op with
      | plus => rfl
      | neg =>
          rw [CUnop.value, wide.ofInt_convert, BitVec.ofInt_neg]
          rfl
      | bnot =>
          rw [CUnop.value, wide.ofInt_convert, ofInt_not]
          rfl
      | lnot =>
          rw [CUnop.value, ofInt_truth]
          simp only [(inRange operand).eq_zero.symm]
          rfl
  | case7 depth op l r inductionl inductionr =>
      obtain ⟨x, left, value⟩ := Option.bind_eq_some_iff.mp value
      obtain ⟨y, right, value⟩ := Option.bind_eq_some_iff.mp value
      have shallow : depth + max l.depth r.depth ≤ CPARSE_MAX_DECLDEPTH := shallow
      have readl := inductionl left
        (fun s part => sound s (.tail _ (List.mem_append_left _ part))) (by omega)
      have readr := inductionr right
        (fun s part => sound s (.tail _ (List.mem_append_right _ part))) (by omega)
      have same := sound _ (self_mem_parts _) x y left right
      rw [evaluate, readl, readr]
      refine (CBinop.infix_word value rfl rfl (common_signed predefined)).trans ?_
      rw [same, ← CBinop.ofInt_value (inRange left) (inRange right) value]
      rfl
  | case8 depth c a b inductionc inductiona inductionb =>
      obtain ⟨z, first, value⟩ := Option.bind_eq_some_iff.mp value
      obtain ⟨x, left, value⟩ := Option.bind_eq_some_iff.mp value
      obtain ⟨y, right, value⟩ := Option.bind_eq_some_iff.mp value
      obtain rfl := Option.some.inj value
      have shallow : depth + max c.depth (max a.depth b.depth) ≤ CPARSE_MAX_DECLDEPTH := shallow
      have readc := inductionc first (fun s part =>
        sound s (.tail _ (List.mem_append_left _ (List.mem_append_left _ part)))) (by omega)
      have reada := inductiona left (fun s part =>
        sound s (.tail _ (List.mem_append_left _ (List.mem_append_right _ part)))) (by omega)
      have readb := inductionb right
        (fun s part => sound s (.tail _ (List.mem_append_right _ part))) (by omega)
      rw [evaluate, readc, reada, readb, CIntType.Wide.ofInt_convert (a.type.common_cases b.type)]
      have zero := (inRange first).eq_zero
      change Except.ok (CPValue.mk (if BitVec.ofInt 32 z ≠ 0 then BitVec.ofInt 32 x
        else BitVec.ofInt 32 y) (cond c a b).typeid) = _
      by_cases isZero : z = 0
      · rw [if_neg (not_not.mpr (zero.mpr isZero)), if_neg (not_not.mpr isZero)]
      · rw [if_pos fun word => isZero (zero.mp word), if_pos isZero]
  | case9 depth e induction =>
      have shallow : depth + (e.depth + 1) ≤ CPARSE_MAX_DECLDEPTH := shallow
      rw [evaluate, enter_eq (by omega)]
      exact induction value (fun s part => sound s (.tail _ part)) (by omega)

/-- The evaluator gives an expression the value that C gives it. -/
def Right (depth : Nat) (e : CExpr) : Prop :=
  ∃ v k, e.value = some v ∧ e.evaluate depth = .ok k ∧ k.u32 = .ofInt 32 v

theorem inSizeof_id (value : e.inSizeof depth = .ok k) : k.id = e.typeid := by
  cases e with
  | paren a =>
      have same : k.id = a.typeid := evaluate_id (show a.evaluate (depth + 1) = .ok k from value)
      exact same
  | _ => exact evaluate_id value

/-- Where the values of all parts are right, the operands are taken as C does. -/
theorem sound_of_right (predefined : CPState.Predefined) (right : ∀ s ∈ e.parts, s.Right depth) :
    ∀ s ∈ e.parts, s.Sound := by
  have own := right e e.self_mem_parts
  induction e with
  | integer _ _ | constant _ | sizeofType _ =>
      exact fun s part => List.mem_singleton.mp part ▸ trivial
  | sizeofExpr e induction =>
      have inner := fun s part => right s (.tail _ part)
      refine List.forall_mem_cons.mpr ⟨?_, induction inner (inner e e.self_mem_parts)⟩
      obtain ⟨v, k, value, result, same⟩ := own
      obtain ⟨x, -, rfl⟩ := Option.map_eq_some_iff.mp value
      rw [evaluate_sizeof] at result
      obtain ⟨k', read, rfl⟩ := map_ok (nested_ok result).2
      rw [Sound, ← inSizeof_id read]
      exact same
  | unary op e induction | paren e induction =>
      have inner := fun s part => right s (.tail _ part)
      exact List.forall_mem_cons.mpr ⟨trivial, induction inner (inner e e.self_mem_parts)⟩
  | binary op l r inductionl inductionr =>
      have left := fun s part => right s (.tail _ (List.mem_append_left _ part))
      have right' := fun s part => right s (.tail _ (List.mem_append_right _ part))
      have rightl := left l l.self_mem_parts
      have rightr := right' r r.self_mem_parts
      refine List.forall_mem_cons.mpr ⟨fun x y isLeft isRight => ?_,
        List.forall_mem_append.mpr ⟨inductionl left rightl, inductionr right' rightr⟩⟩
      obtain ⟨v, k, value, result, same⟩ := own
      obtain ⟨x', k₁, isLeft', readl, samel⟩ := rightl
      obtain ⟨y', k₂, isRight', readr, samer⟩ := rightr
      obtain rfl := Option.some.inj (isLeft.symm.trans isLeft')
      obtain rfl := Option.some.inj (isRight.symm.trans isRight')
      have value : op.value (l.type.common r.type) l.type.promoted x y = some v := by
        rw [CExpr.value, isLeft, isRight] at value
        exact value
      have signed : (if k₂.id > k₁.id then k₂.id else k₁.id) = CTID_INT32 →
          (l.type.common r.type).unsigned = false := by
        rw [evaluate_id readl, evaluate_id readr]
        exact common_signed predefined
      rw [evaluate, readl, readr] at result
      obtain rfl := Except.ok.inj ((CBinop.infix_word value samer samel signed).symm.trans result)
      rw [← CBinop.ofInt_value (inRange isLeft) (inRange isRight) value, ← same, samel, samer,
        evaluate_id readl, evaluate_id readr]
  | cond c a b inductionc inductiona inductionb =>
      have rightc := fun s part =>
        right s (.tail _ (List.mem_append_left _ (List.mem_append_left _ part)))
      have righta := fun s part =>
        right s (.tail _ (List.mem_append_left _ (List.mem_append_right _ part)))
      have rightb := fun s part => right s (.tail _ (List.mem_append_right _ part))
      refine List.forall_mem_cons.mpr ⟨trivial, List.forall_mem_append.mpr
        ⟨List.forall_mem_append.mpr ⟨inductionc rightc (rightc c c.self_mem_parts),
          inductiona righta (righta a a.self_mem_parts)⟩,
          inductionb rightb (rightb b b.self_mem_parts)⟩⟩

/-- What an expression hands down to its parts. -/
structure PartOf (e s : CExpr) : Prop where
  derived : s.Derived
  value : ∃ v, s.value = some v
  depth : s.depth ≤ e.depth

theorem PartOf.mono {e' : CExpr} (part : PartOf e s) (le : e.depth ≤ e'.depth) : PartOf e' s :=
  ⟨part.derived, part.value, part.depth.trans le⟩

theorem depth_le_sizeof (e : CExpr) : e.depth ≤ (sizeofExpr e).depth := by
  cases e with
  | paren a => exact le_rfl
  | _ => exact Nat.le_succ _

theorem partOf (derived : e.Derived) (value : e.value = some v) : ∀ s ∈ e.parts, PartOf e s := by
  have own : PartOf e e := ⟨derived, ⟨v, value⟩, le_rfl⟩
  induction e generalizing v with
  | integer _ _ | constant _ | sizeofType _ =>
      exact fun s part => List.mem_singleton.mp part ▸ own
  | sizeofExpr e induction =>
      obtain ⟨x, inner, -⟩ := Option.map_eq_some_iff.mp value
      have parts := induction derived.2 inner ⟨derived.2, ⟨x, inner⟩, le_rfl⟩
      exact List.forall_mem_cons.mpr ⟨own, fun s part => (parts s part).mono e.depth_le_sizeof⟩
  | unary op e induction =>
      obtain ⟨x, inner, -⟩ := Option.map_eq_some_iff.mp value
      have parts := induction derived.2 inner ⟨derived.2, ⟨x, inner⟩, le_rfl⟩
      exact List.forall_mem_cons.mpr ⟨own, fun s part => (parts s part).mono (Nat.le_succ _)⟩
  | paren e induction =>
      have parts := induction derived value ⟨derived, ⟨v, value⟩, le_rfl⟩
      exact List.forall_mem_cons.mpr ⟨own, fun s part => (parts s part).mono (Nat.le_succ _)⟩
  | binary op l r inductionl inductionr =>
      obtain ⟨x, left, more⟩ := Option.bind_eq_some_iff.mp value
      obtain ⟨y, right, -⟩ := Option.bind_eq_some_iff.mp more
      obtain ⟨-, -, derivedl, derivedr⟩ := derived
      have partsl := inductionl derivedl left ⟨derivedl, ⟨x, left⟩, le_rfl⟩
      have partsr := inductionr derivedr right ⟨derivedr, ⟨y, right⟩, le_rfl⟩
      exact List.forall_mem_cons.mpr ⟨own, List.forall_mem_append.mpr
        ⟨fun s part => (partsl s part).mono (Nat.le_max_left _ _),
          fun s part => (partsr s part).mono (Nat.le_max_right _ _)⟩⟩
  | cond c a b inductionc inductiona inductionb =>
      obtain ⟨z, first, more⟩ := Option.bind_eq_some_iff.mp value
      obtain ⟨x, left, more⟩ := Option.bind_eq_some_iff.mp more
      obtain ⟨y, right, -⟩ := Option.bind_eq_some_iff.mp more
      obtain ⟨-, derivedc, deriveda, derivedb⟩ := derived
      have partsc := inductionc derivedc first ⟨derivedc, ⟨z, first⟩, le_rfl⟩
      have partsa := inductiona deriveda left ⟨deriveda, ⟨x, left⟩, le_rfl⟩
      have partsb := inductionb derivedb right ⟨derivedb, ⟨y, right⟩, le_rfl⟩
      have depth : (cond c a b).depth = max c.depth (max a.depth b.depth) := rfl
      exact List.forall_mem_cons.mpr ⟨own, List.forall_mem_append.mpr
        ⟨List.forall_mem_append.mpr ⟨fun s part => (partsc s part).mono (by omega),
          fun s part => (partsa s part).mono (by omega)⟩,
          fun s part => (partsb s part).mono (by omega)⟩⟩

theorem parts_trans {s' : CExpr} (part : s ∈ e.parts) (part' : s' ∈ s.parts) : s' ∈ e.parts := by
  induction e with
  | integer _ _ | constant _ | sizeofType _ => exact List.mem_singleton.mp part ▸ part'
  | sizeofExpr e induction | unary op e induction | paren e induction =>
      rcases List.mem_cons.mp part with rfl | part
      · exact part'
      · exact .tail _ (induction part)
  | binary op l r inductionl inductionr =>
      rcases List.mem_cons.mp part with rfl | part
      · exact part'
      · exact .tail _ (List.mem_append.mpr ((List.mem_append.mp part).imp inductionl inductionr))
  | cond c a b inductionc inductiona inductionb =>
      rcases List.mem_cons.mp part with rfl | part
      · exact part'
      · refine .tail _ (List.mem_append.mpr ((List.mem_append.mp part).imp (fun part => ?_) inductionb))
        exact List.mem_append.mpr ((List.mem_append.mp part).imp inductionc inductiona)

/-- The parser returns the value that C gives an expression, and leaves what follows it. -/
def Returned (depth : Nat) (e : CExpr) : Prop :=
  ∃ v id, e.value = some v ∧ ∀ rest, Closes 0 rest →
    Settles (fun fuel => cp_expr_sub fuel depth 0 (e.tokens ++ rest)) (.ok (⟨.ofInt 32 v, id⟩, rest))

theorem returned_iff (predefined : CPState.Predefined) (derived : e.Derived) :
    e.Returned depth ↔ e.Right depth := by
  have whole {rest : List CPToken} (closes : Closes 0 rest) :=
    (e.reads predefined derived).whole depth (Nat.zero_le _) closes (Nat.zero_le _)
  constructor
  · rintro ⟨v, id, value, settles⟩
    have ends : Closes 0 [] := trivial
    have same := (whole ends).unique (settles [] ends)
    cases result : e.evaluate depth with
    | error err =>
        rw [result] at same
        cases same
    | ok k =>
        rw [result] at same
        have isValue := congrArg Prod.fst (Except.ok.inj same)
        exact ⟨v, k, value, result, congrArg CPValue.u32 isValue⟩
  · rintro ⟨v, k, value, result, same⟩
    refine ⟨v, k.id, value, fun rest closes => ?_⟩
    have settles := whole closes
    rw [result] at settles
    rw [← same]
    exact settles

end CExpr

/-- The parser returns the values that C gives a constant expression and its parts just when they
are nested within the limit and it takes the operands of their operators as C does. -/
theorem constant_expression_iff (predefined : CPState.Predefined) {e : CExpr} {v : Int} {depth : Nat}
    (derived : e.Derived) (value : e.value = some v) :
    (∀ s ∈ e.parts, s.Returned depth) ↔
      depth + e.depth ≤ CPARSE_MAX_DECLDEPTH ∧ ∀ s ∈ e.parts, s.Sound := by
  have parts := CExpr.partOf derived value
  constructor
  · intro returned
    have right : ∀ s ∈ e.parts, s.Right depth := fun s part =>
      (CExpr.returned_iff predefined (parts s part).derived).mp (returned s part)
    obtain ⟨v, k, -, result, -⟩ := right e e.self_mem_parts
    exact ⟨CExpr.evaluate_depth result, CExpr.sound_of_right predefined right⟩
  · rintro ⟨shallow, sound⟩ s part
    obtain ⟨derived, ⟨v, value⟩, le⟩ := parts s part
    rw [CExpr.returned_iff predefined derived]
    have soundParts : ∀ s' ∈ s.parts, s'.Sound := fun s' part' => sound s' (CExpr.parts_trans part part')
    exact ⟨v, _, value, CExpr.evaluate_value predefined value soundParts (by omega), rfl⟩

omit [CPState] in
theorem constval_word (ctypeid : CTypeID) :
    ctype_cid (CTINFO CT_CONSTVAL (CTF_CONST ||| ctypeid.setWidth 32)) = ctypeid ∧
      ctype_type (CTINFO CT_CONSTVAL (CTF_CONST ||| ctypeid.setWidth 32)) = CT_CONSTVAL := by
  have below := ctypeid.isLt
  have flags : (CTF_CONST ||| ctypeid.setWidth 32).toNat = 2 ^ 25 + ctypeid.toNat := by
    have isConst : CTF_CONST.toNat = 1 <<< 25 := by decide
    rw [BitVec.toNat_or, BitVec.toNat_setWidth_of_le (by decide), isConst,
      ← Nat.shiftLeft_add_eq_or_of_lt (by omega)]
    rfl
  have number : (CT_CONSTVAL <<< 28).toNat = 11 * 2 ^ 28 := by decide
  have word : (CTINFO CT_CONSTVAL (CTF_CONST ||| ctypeid.setWidth 32)).toNat =
      11 * 2 ^ 28 + 2 ^ 25 + ctypeid.toNat := by
    rw [CTINFO, BitVec.toNat_add, number, flags]
    omega
  constructor
  · apply BitVec.eq_of_toNat_eq
    rw [cid_toNat, word]
    omega
  · apply BitVec.eq_of_toNat_eq
    rw [type_toNat, word]
    change _ = 11
    omega

/-- What `cp_decl_constinit` makes of the value of an initializer. -/
def CConstant.static (str : String) (id ctypeid : CTypeID) (t : CIntType) (u32 : BitVec 32)
    (isType : CPState.intType ctypeid = some t) : CConstant where
  str
  ct := ⟨CTINFO CT_CONSTVAL (CTF_CONST ||| ctypeid.setWidth 32),
    (CPState.tab ctypeid).constvalue u32, 0⟩
  id
  type := t
  isConstval := (constval_word ctypeid).2
  isType := by
    rw [(constval_word ctypeid).1]
    exact isType
  inRange := by
    rw [constvalue_read isType]
    exact t.convert_convert _

end

/-- The predefined types up to `unsigned int`, where `char` is signed. -/
def predefinedTypes : List CType :=
  [CTab.badType, ⟨CTINFO 4 (CTALIGN 0), CTSIZE_INVALID, 0⟩,
    ⟨CTINFO 4 (CTF_CONST ||| CTALIGN 0), CTSIZE_INVALID, 0⟩,
    ⟨CTINFO CT_NUM (CTF_BOOL ||| CTF_UNSIGNED ||| CTALIGN 0), 1, 0⟩,
    ⟨CTINFO CT_NUM (CTF_CONST ||| CTALIGN 0), 1, 0⟩, ⟨CTINFO CT_NUM (CTALIGN 0), 1, 0⟩,
    ⟨CTINFO CT_NUM (CTF_UNSIGNED ||| CTALIGN 0), 1, 0⟩, ⟨CTINFO CT_NUM (CTALIGN 1), 2, 0⟩,
    ⟨CTINFO CT_NUM (CTF_UNSIGNED ||| CTALIGN 1), 2, 0⟩, ⟨CTINFO CT_NUM (CTALIGN 2), 4, 0⟩,
    ⟨CTINFO CT_NUM (CTF_UNSIGNED ||| CTALIGN 2), 4, 0⟩]

/-- A parser that knows them, and `const int` by the ID 100. -/
abbrev sampleParser : CPState where
  tab id := if id = 100 then ⟨CTINFO CT_NUM (CTF_CONST ||| CTALIGN 2), 4, 0⟩
    else CTab.ofList predefinedTypes id
  cp_decl_abstract _ := .error .token
  lj_ctype_getfield _ _ := none
  pointerTo _ := 0

theorem sampleParser_predefined : @CPState.Predefined sampleParser := by
  refine @CPState.Predefined.mk sampleParser (by decide +kernel) (by decide +kernel)
    fun id t below isType => ?_
  have all : ∀ n : Fin 10, (@CPState.intType sampleParser (BitVec.ofNat 16 n)).all
      (fun t => decide (t.promoted = .int)) = true := by decide +kernel
  have small : id.toNat < 10 := Nat.lt_succ_of_le below
  have here := all ⟨id.toNat, small⟩
  rw [BitVec.ofNat_toNat, BitVec.setWidth_eq, isType] at here
  exact of_decide_eq_true here

/-- `static const int x = -1;` -/
def minusOne : @CConstant sampleParser :=
  @CConstant.static sampleParser "x" 101 100 .int (-1) (by decide +kernel)

/-- `x < 0` is 0 for the parser. -/
theorem negative_constant : ∃ (_ : CPState) (e : CExpr), CPState.Predefined ∧ e.Derived ∧
    e.value = some 1 ∧ e.depth ≤ CPARSE_MAX_DECLDEPTH ∧ ¬e.Returned 0 := by
  let e := @CExpr.binary sampleParser .lt (@CExpr.constant sampleParser minusOne)
    (@CExpr.integer sampleParser 0 false)
  have derived : @CExpr.Derived sampleParser e := ⟨by decide, by decide, trivial, trivial⟩
  refine ⟨sampleParser, e, sampleParser_predefined, derived, rfl, by decide, fun returned => ?_⟩
  obtain ⟨v, k, value, result, same⟩ :=
    (@CExpr.returned_iff sampleParser _ _ sampleParser_predefined derived).mp returned
  obtain rfl : 1 = v := Option.some.inj value
  obtain rfl : ⟨0, CTID_INT32⟩ = k := Except.ok.inj result
  exact absurd same (by decide)

/-- `1 < 2 * 3`. -/
theorem product_compared : ∃ (_ : CPState) (e : CExpr), e.value = some 1 ∧
    ∀ s ∈ e.parts, s.Returned 0 := by
  refine ⟨sampleParser, @CExpr.binary sampleParser .lt (@CExpr.integer sampleParser 1 false)
    (@CExpr.binary sampleParser .mul (@CExpr.integer sampleParser 2 false)
      (@CExpr.integer sampleParser 3 false)), rfl, ?_⟩
  refine (@constant_expression_iff sampleParser sampleParser_predefined _ 1 0 ?_ rfl).mpr ⟨?_, ?_⟩
  · exact ⟨by decide, by decide, trivial, by decide, by decide, trivial, trivial⟩
  · decide
  · refine List.forall_mem_cons.mpr ⟨fun x y _ _ => rfl, List.forall_mem_cons.mpr ⟨trivial, ?_⟩⟩
    exact List.forall_mem_cons.mpr ⟨fun x y _ _ => rfl, List.forall_mem_cons.mpr ⟨trivial,
      List.forall_mem_singleton.mpr trivial⟩⟩

end TvmJit
