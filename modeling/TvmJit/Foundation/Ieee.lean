import Mathlib.Algebra.Order.Ring.Int
import TvmJit.Foundation.Binary

/-! Arithmetic of binary formats. The operations have the word nearest to the exact result. -/

namespace Foundation

/-- The integer of a sign and a magnitude. -/
def signed (negative : Bool) (m : Nat) : Int := if negative then -(m : Int) else m

/-- The sign of an integer; a zero may have either. -/
def signOf (zero : Bool) (i : Int) : Bool := if i = 0 then zero else decide (i < 0)

namespace Format

variable (f : Format)

/-! ## Operations -/

/-- The word of all results that are no numbers. -/
def nan : Nat := f.infinity + f.unit / 2

/-- The word nearest to `i * 2 ^ e`. -/
def round (zero : Bool) (i : Int) (e : Int) : Nat := f.encode (signOf zero i) (f.magnitude i.natAbs e)

/-- The word of an integer. -/
def whole (zero : Bool) (i : Int) : Nat := f.round zero i 0

/-- The exponent that the significand of `m / m' * 2 ^ e` gets is that much over `e`. -/
def quotientShift (m m' : Nat) (e : Int) : Int :=
  let k := m'.log2 + 1
  f.shift (m * 2 ^ k / m') (e - k) - k

def quotientSignificand (m m' : Nat) (e : Int) : Nat :=
  nearest (m * 2 ^ (-f.quotientShift m m' e).toNat) (m' * 2 ^ (f.quotientShift m m' e).toNat)

/-- The word nearest to `m / m' * 2 ^ e`. -/
def quotient (m m' : Nat) (e : Int) : Nat :=
  if m = 0 ∨ m' = 0 then 0
  else min f.infinity ((e + f.quotientShift m m' e - f.emin).toNat * f.unit + f.quotientSignificand m m' e)

/-- The sum of `m * 2 ^ e` and `m' * 2 ^ e'` with their signs. -/
def sum (negative : Bool) (m : Nat) (e : Int) (negative' : Bool) (m' : Nat) (e' : Int) : Nat :=
  let least := min e e'
  f.round (negative && negative')
    (signed negative (m * 2 ^ (e - least).toNat) + signed negative' (m' * 2 ^ (e' - least).toNat)) least

def neg (a : Nat) : Nat := if a / f.signBit % 2 = 1 then a - f.signBit else a + f.signBit

def add (a b : Nat) : Nat :=
  match f.decode a, f.decode b with
  | .nan .., _ | _, .nan .. => f.nan
  | .infinite negative, .infinite negative' => if negative = negative' then f.encode negative f.infinity else f.nan
  | .infinite negative, .finite .. | .finite .., .infinite negative => f.encode negative f.infinity
  | .finite negative m e, .finite negative' m' e' => f.sum negative m e negative' m' e'

def sub (a b : Nat) : Nat := f.add a (f.neg b)

def mul (a b : Nat) : Nat :=
  match f.decode a, f.decode b with
  | .nan .., _ | _, .nan .. => f.nan
  | .infinite negative, .infinite negative' => f.encode (negative ^^ negative') f.infinity
  | .infinite negative, .finite negative' m _ | .finite negative m _, .infinite negative' =>
      if m = 0 then f.nan else f.encode (negative ^^ negative') f.infinity
  | .finite negative m e, .finite negative' m' e' => f.encode (negative ^^ negative') (f.magnitude (m * m') (e + e'))

def div (a b : Nat) : Nat :=
  match f.decode a, f.decode b with
  | .nan .., _ | _, .nan .. | .infinite _, .infinite _ => f.nan
  | .infinite negative, .finite negative' .. => f.encode (negative ^^ negative') f.infinity
  | .finite negative .., .infinite negative' => f.encode (negative ^^ negative') 0
  | .finite negative m e, .finite negative' m' e' =>
      if m' = 0 then if m = 0 then f.nan else f.encode (negative ^^ negative') f.infinity
      else f.encode (negative ^^ negative') (f.quotient m m' (e - e'))

/-- The greatest integer that is no greater than `m * 2 ^ e` with its sign. -/
def floorOf (negative : Bool) (m : Nat) (e : Int) : Int :=
  signed negative (m * 2 ^ e.toNat) / 2 ^ (-e).toNat

def floor (a : Nat) : Nat :=
  match f.decode a with
  | .nan .. => f.nan
  | .infinite _ => a
  | .finite negative m e => f.whole negative (floorOf negative m e)

end Format

/-! ## Signs -/

section

variable {zero : Bool} {i : Int}

theorem signed_natAbs (zero : Bool) (i : Int) : signed (signOf zero i) i.natAbs = i := by
  by_cases isZero : i = 0
  · subst isZero
    cases zero <;> rfl
  · rw [signOf, if_neg isZero, signed]
    by_cases low : i < 0
    · rw [if_pos (decide_eq_true low)]
      omega
    · rw [decide_eq_false low, if_neg Bool.false_ne_true]
      omega

theorem signOf_of_ne (nonzero : i ≠ 0) : signOf zero i = decide (i < 0) := if_neg nonzero

theorem signOf_scale {c : Int} (positive : 0 < c) : signOf zero (i * c) = signOf zero i := by
  by_cases isZero : i = 0
  · rw [isZero, Int.zero_mul]
  · rw [signOf_of_ne isZero, signOf_of_ne (mul_ne_zero isZero positive.ne'), decide_eq_decide]
    rw [mul_neg_iff]
    exact ⟨fun cases => cases.elim (fun both => absurd both.2 positive.not_gt) And.left, fun low => .inr ⟨low, positive⟩⟩

theorem signOf_neg (zero : Bool) (i : Int) : signOf (!zero) (-i) = !signOf zero i := by
  by_cases isZero : i = 0
  · subst isZero
    rfl
  · rw [signOf_of_ne isZero, signOf_of_ne (by omega), ← decide_not, decide_eq_decide]
    omega

theorem signOf_mul (zero zero' : Bool) (i j : Int) :
    signOf (signOf zero i ^^ signOf zero' j) (i * j) = (signOf zero i ^^ signOf zero' j) := by
  by_cases isZero : i * j = 0
  · rw [signOf, if_pos isZero]
  · have first : i ≠ 0 := left_ne_zero_of_mul isZero
    have second : j ≠ 0 := right_ne_zero_of_mul isZero
    rw [signOf_of_ne isZero, signOf_of_ne first, signOf_of_ne second]
    rcases lt_or_gt_of_ne first with low | high
    · rcases lt_or_gt_of_ne second with low' | high'
      · rw [decide_eq_true low, decide_eq_true low', decide_eq_false (mul_pos_of_neg_of_neg low low').not_gt]
        rfl
      · rw [decide_eq_true low, decide_eq_false high'.not_gt, decide_eq_true (mul_neg_of_neg_of_pos low high')]
        rfl
    · rcases lt_or_gt_of_ne second with low' | high'
      · rw [decide_eq_false high.not_gt, decide_eq_true low', decide_eq_true (mul_neg_of_pos_of_neg high low')]
        rfl
      · rw [decide_eq_false high.not_gt, decide_eq_false high'.not_gt, decide_eq_false (mul_pos high high').not_gt]
        rfl

/-- A division that rounds down. -/
theorem fdiv_eq_signed (zero zero' : Bool) (i : Int) {j : Int} (nonzero : j ≠ 0) :
    i.fdiv j = signed (signOf zero i ^^ signOf zero' j) i.natAbs / j.natAbs := by
  rcases lt_or_gt_of_ne nonzero with low | high
  · have abs : (j.natAbs : Int) = -j := by omega
    have sign := signed_natAbs (!zero) (-i)
    rw [signOf_neg, Int.natAbs_neg] at sign
    rw [abs, signOf_of_ne nonzero, decide_eq_true low, Bool.xor_true, sign, ← Int.neg_fdiv_neg]
    exact Int.fdiv_eq_ediv_of_nonneg _ (by omega)
  · have abs : (j.natAbs : Int) = j := by omega
    rw [abs, signOf_of_ne nonzero, decide_eq_false high.not_gt, Bool.xor_false, signed_natAbs]
    exact Int.fdiv_eq_ediv_of_nonneg _ high.le

/-- A division of either sign is known by its quotient, and by whether there is a remainder. -/
theorem signed_ediv_congr (negative : Bool) {a c a' c' : Nat} (positive : 0 < c) (positive' : 0 < c')
    (quotient : a / c = a' / c') (remainder : a % c = 0 ↔ a' % c' = 0) :
    signed negative a / (c : Int) = signed negative a' / (c' : Int) := by
  have divides : (c : Int) ∣ a ↔ (c' : Int) ∣ a' := by
    rw [Int.natCast_dvd_natCast, Int.natCast_dvd_natCast, Nat.dvd_iff_mod_eq_zero, Nat.dvd_iff_mod_eq_zero, remainder]
  have same : (a : Int) / c = (a' : Int) / c' := by
    rw [← Int.natCast_div, ← Int.natCast_div, quotient]
  cases negative with
  | false => exact same
  | true =>
      have sign : (c : Int).sign = 1 := Int.sign_eq_one_of_pos (Int.natCast_pos.mpr positive)
      have sign' : (c' : Int).sign = 1 := Int.sign_eq_one_of_pos (Int.natCast_pos.mpr positive')
      rw [signed, signed, if_pos rfl, if_pos rfl, Int.neg_ediv, Int.neg_ediv, same, sign, sign']
      congr 1
      exact if_congr divides rfl rfl

theorem signed_scale (negative : Bool) (m k : Nat) : signed negative (m * 2 ^ k) = signed negative m * 2 ^ k := by
  cases negative
  · rw [signed, signed, if_neg Bool.false_ne_true, if_neg Bool.false_ne_true]
    push_cast
    rfl
  · rw [signed, signed, if_pos rfl, if_pos rfl]
    push_cast
    ring

end

namespace Format

variable (f : Format)

/-! ## Scaling -/

theorem round_scale (zero : Bool) (i : Int) (k : Nat) (e : Int) :
    f.round zero (i * 2 ^ k) e = f.round zero i (e + k) := by
  have abs : (i * 2 ^ k).natAbs = i.natAbs * 2 ^ k := by
    rw [Int.natAbs_mul, Int.natAbs_pow]
    rfl
  have sign : signOf zero (i * 2 ^ k) = signOf zero i := signOf_scale (pow_pos (by decide) k)
  rw [round, round, abs, sign, magnitude_scale]

theorem sum_scale (negative negative' : Bool) (m k m' : Nat) (e e' : Int) :
    f.sum negative (m * 2 ^ k) e negative' m' e' = f.sum negative m (e + k) negative' m' e' := by
  have split : ∃ d : Nat, min (e + k) e' = min e e' + d := ⟨(min (e + k) e' - min e e').toNat, by omega⟩
  have ⟨d, more⟩ := split
  have left : k + (e - min e e').toNat = (e + k - min (e + k) e').toNat + d := by omega
  have right : (e' - min e e').toNat = (e' - min (e + k) e').toNat + d := by omega
  rw [sum, sum, more, ← round_scale, Int.add_mul, ← signed_scale, ← signed_scale, Nat.mul_assoc, ← Nat.pow_add, left, right, ← more,
    Nat.pow_add, Nat.pow_add, ← Nat.mul_assoc, ← Nat.mul_assoc]

theorem sum_comm (negative negative' : Bool) (m m' : Nat) (e e' : Int) :
    f.sum negative m e negative' m' e' = f.sum negative' m' e' negative m e := by
  rw [sum, sum, Bool.and_comm, Int.add_comm, min_comm]

theorem sum_whole (zero zero' : Bool) (i j : Int) :
    f.sum (signOf zero i) i.natAbs 0 (signOf zero' j) j.natAbs 0 = f.whole (signOf zero i && signOf zero' j) (i + j) := by
  rw [sum, whole]
  simp only [min_self, Int.sub_self, Int.toNat_zero, Nat.pow_zero, Nat.mul_one]
  rw [signed_natAbs, signed_natAbs]

/-- A common power of two cancels. -/
private theorem cancel_pow {α : Type*} {F : Nat → Nat → α} (shifted : ∀ x y k, F (x + k) (y + k) = F x y)
    {x y x' y' : Nat} (same : x + y' = x' + y) : F x y = F x' y' := by
  rcases le_total x x' with less | more
  · have first : x' = x + (x' - x) := by omega
    have second : y' = y + (x' - x) := by omega
    rw [first, second, shifted]
  · have first : x = x' + (x - x') := by omega
    have second : y = y' + (x - x') := by omega
    rw [first, second, shifted]

theorem floorOf_scale (negative : Bool) (m k : Nat) (e : Int) :
    floorOf negative (m * 2 ^ k) e = floorOf negative m (e + k) := by
  rw [floorOf, floorOf, Nat.mul_assoc, ← Nat.pow_add, signed_scale, signed_scale]
  apply cancel_pow (F := fun x y => signed negative m * 2 ^ x / 2 ^ y)
  · intro x y j
    rw [pow_add, pow_add, ← Int.mul_assoc]
    exact Int.mul_ediv_mul_of_pos_left _ _ (pow_pos (by decide) j)
  · omega

/-- The significand of a quotient depends on the difference of the exponents. -/
theorem nearest_shift (m m' : Nat) {x y x' y' : Nat} (same : x + y' = x' + y) :
    nearest (m * 2 ^ x) (m' * 2 ^ y) = nearest (m * 2 ^ x') (m' * 2 ^ y') := by
  apply cancel_pow (F := fun x y => nearest (m * 2 ^ x) (m' * 2 ^ y)) _ same
  intro x y k
  rw [Nat.pow_add, Nat.pow_add, ← Nat.mul_assoc, ← Nat.mul_assoc]
  exact nearest_scale _ _ (Nat.two_pow_pos k)

/-! ## Quotients -/

section

variable {m m' : Nat}

/-- The first bits of a quotient. -/
theorem quotient_leading (nonzero : m ≠ 0) (nonzero' : m' ≠ 0) :
    m' * 2 ^ (m * 2 ^ (m'.log2 + 1) / m').log2 ≤ m * 2 ^ (m'.log2 + 1) ∧
      m * 2 ^ (m'.log2 + 1) < m' * 2 ^ ((m * 2 ^ (m'.log2 + 1) / m').log2 + 1) := by
  have positive : 0 < m' := Nat.pos_of_ne_zero nonzero'
  have short : m' < 2 ^ (m'.log2 + 1) := Nat.lt_log2_self
  have many : m' ≤ m * 2 ^ (m'.log2 + 1) := short.le.trans (Nat.le_mul_of_pos_left _ (Nat.pos_of_ne_zero nonzero))
  have some : m * 2 ^ (m'.log2 + 1) / m' ≠ 0 := (Nat.div_pos many positive).ne'
  constructor
  · rw [Nat.mul_comm]
    exact (Nat.mul_le_mul_right _ (Nat.log2_self_le some)).trans (Nat.div_mul_le_self _ _)
  · rw [Nat.mul_comm m']
    exact (Nat.div_lt_iff_lt_mul positive).mp Nat.lt_log2_self

/-- A quotient has no more bits than its numerator. -/
theorem quotient_length (nonzero' : m' ≠ 0) {L : Nat} (low : m' * 2 ^ L ≤ m * 2 ^ (m'.log2 + 1)) : L ≤ m.log2 + 1 := by
  have powers : 2 ^ (m'.log2 + L) < 2 ^ (m.log2 + 1 + (m'.log2 + 1)) := by
    calc 2 ^ (m'.log2 + L) = 2 ^ m'.log2 * 2 ^ L := Nat.pow_add ..
      _ ≤ m' * 2 ^ L := Nat.mul_le_mul_right _ (Nat.log2_self_le nonzero')
      _ ≤ m * 2 ^ (m'.log2 + 1) := low
      _ < 2 ^ (m.log2 + 1) * 2 ^ (m'.log2 + 1) :=
        Nat.mul_lt_mul_of_pos_right Nat.lt_log2_self (Nat.two_pow_pos _)
      _ = 2 ^ (m.log2 + 1 + (m'.log2 + 1)) := (Nat.pow_add ..).symm
  have exponents := (Nat.pow_lt_pow_iff_right Nat.one_lt_two).mp powers
  omega

theorem quotient_log2 (nonzero' : m' ≠ 0) {L : Nat} (low : m' * 2 ^ L ≤ m * 2 ^ (m'.log2 + 1))
    (high : m * 2 ^ (m'.log2 + 1) < m' * 2 ^ (L + 1)) : (m * 2 ^ (m'.log2 + 1) / m').log2 = L := by
  have positive : 0 < m' := Nat.pos_of_ne_zero nonzero'
  have lower : 2 ^ L ≤ m * 2 ^ (m'.log2 + 1) / m' := by
    apply (Nat.le_div_iff_mul_le positive).mpr
    rwa [Nat.mul_comm]
  have upper : m * 2 ^ (m'.log2 + 1) / m' < 2 ^ (L + 1) := by
    apply (Nat.div_lt_iff_lt_mul positive).mpr
    rwa [Nat.mul_comm (2 ^ (L + 1))]
  have some : m * 2 ^ (m'.log2 + 1) / m' ≠ 0 := by
    have power := Nat.two_pow_pos L
    omega
  exact (Nat.log2_eq_iff some).mpr ⟨lower, upper⟩

theorem log2_scale (nonzero : m ≠ 0) (k : Nat) : (m * 2 ^ k).log2 = m.log2 + k := by
  apply (Nat.log2_eq_iff (Nat.mul_ne_zero nonzero (Nat.two_pow_pos k).ne')).mpr
  constructor
  · rw [Nat.pow_add]
    exact Nat.mul_le_mul_right _ (Nat.log2_self_le nonzero)
  · rw [Nat.add_right_comm, Nat.pow_add]
    exact Nat.mul_lt_mul_of_pos_right Nat.lt_log2_self (Nat.two_pow_pos k)

theorem quotientShift_eq (nonzero' : m' ≠ 0) {L : Nat} (low : m' * 2 ^ L ≤ m * 2 ^ (m'.log2 + 1))
    (high : m * 2 ^ (m'.log2 + 1) < m' * 2 ^ (L + 1)) (e : Int) :
    f.quotientShift m m' e = max (L - m'.log2 - f.prec : Int) (f.emin - e) := by
  rw [quotientShift, shift, quotient_log2 nonzero' low high]
  push_cast
  omega

theorem quotientShift_scale (nonzero : m ≠ 0) (nonzero' : m' ≠ 0) (a b : Nat) (e : Int) :
    f.quotientShift (m * 2 ^ a) (m' * 2 ^ b) e = f.quotientShift m m' (e + a - b) + a - b := by
  have ⟨low, high⟩ := quotient_leading nonzero nonzero'
  generalize (m * 2 ^ (m'.log2 + 1) / m').log2 = L at low high
  have power := Nat.two_pow_pos (a + b)
  have left (x : Nat) : m' * 2 ^ b * 2 ^ (x + a) = m' * 2 ^ x * 2 ^ (a + b) := by ring
  have right : m * 2 ^ a * 2 ^ ((m' * 2 ^ b).log2 + 1) = m * 2 ^ (m'.log2 + 1) * 2 ^ (a + b) := by
    rw [log2_scale nonzero']
    ring
  have low' : m' * 2 ^ b * 2 ^ (L + a) ≤ m * 2 ^ a * 2 ^ ((m' * 2 ^ b).log2 + 1) := by
    rw [left, right]
    exact Nat.mul_le_mul_right _ low
  have high' : m * 2 ^ a * 2 ^ ((m' * 2 ^ b).log2 + 1) < m' * 2 ^ b * 2 ^ (L + a + 1) := by
    rw [Nat.add_right_comm, left, right]
    exact Nat.mul_lt_mul_of_pos_right high power
  rw [f.quotientShift_eq nonzero' low high, f.quotientShift_eq
    (Nat.mul_ne_zero nonzero' (Nat.two_pow_pos b).ne') low' high', log2_scale nonzero']
  push_cast
  omega

/-- The word nearest to a quotient depends on the quotient alone. -/
theorem quotient_scale (m a m' b : Nat) (e : Int) :
    f.quotient (m * 2 ^ a) (m' * 2 ^ b) e = f.quotient m m' (e + a - b) := by
  have power (k : Nat) := (Nat.two_pow_pos k).ne'
  by_cases isZero : m = 0 ∨ m' = 0
  · have isZero' : m * 2 ^ a = 0 ∨ m' * 2 ^ b = 0 := isZero.imp (fun zero => by rw [zero, Nat.zero_mul])
      fun zero => by rw [zero, Nat.zero_mul]
    rw [quotient, quotient, if_pos isZero, if_pos isZero']
  · have ⟨nonzero, nonzero'⟩ := not_or.mp isZero
    have notZero : ¬(m * 2 ^ a = 0 ∨ m' * 2 ^ b = 0) :=
      not_or.mpr ⟨Nat.mul_ne_zero nonzero (power a), Nat.mul_ne_zero nonzero' (power b)⟩
    have shifted := f.quotientShift_scale nonzero nonzero' a b e
    have significand : f.quotientSignificand (m * 2 ^ a) (m' * 2 ^ b) e = f.quotientSignificand m m' (e + a - b) := by
      rw [quotientSignificand, quotientSignificand, Nat.mul_assoc, Nat.mul_assoc, ← Nat.pow_add, ← Nat.pow_add]
      apply nearest_shift
      omega
    have exponent : e + f.quotientShift (m * 2 ^ a) (m' * 2 ^ b) e = e + a - b + f.quotientShift m m' (e + a - b) := by
      omega
    rw [quotient, quotient, if_neg isZero, if_neg notZero, significand, exponent]

/-- The significand of a quotient fills its bits, except next to zero. -/
theorem quotientSignificand_bounds (nonzero : m ≠ 0) (nonzero' : m' ≠ 0) (e : Int) :
    f.quotientSignificand m m' e ≤ 2 ^ f.prec ∧
      (f.unit ≤ f.quotientSignificand m m' e ∨ e + f.quotientShift m m' e = f.emin) := by
  have precise := f.prec_le
  have ⟨low, high⟩ := quotient_leading nonzero nonzero'
  generalize (m * 2 ^ (m'.log2 + 1) / m').log2 = L at low high
  have shift_eq := f.quotientShift_eq nonzero' low high e
  have power := Nat.two_pow_pos (m'.log2 + 1)
  have positive : 0 < m' * 2 ^ (f.quotientShift m m' e).toNat :=
    Nat.mul_pos (Nat.pos_of_ne_zero nonzero') (Nat.two_pow_pos _)
  rw [quotientSignificand]
  generalize f.quotientShift m m' e = s at *
  constructor
  · have upper : m * 2 ^ (-s).toNat < 2 ^ f.prec * (m' * 2 ^ s.toNat) := by
      apply Nat.lt_of_mul_lt_mul_right (a := 2 ^ (m'.log2 + 1))
      calc m * 2 ^ (-s).toNat * 2 ^ (m'.log2 + 1) = m * 2 ^ (m'.log2 + 1) * 2 ^ (-s).toNat := by ring
        _ < m' * 2 ^ (L + 1) * 2 ^ (-s).toNat := Nat.mul_lt_mul_of_pos_right high (Nat.two_pow_pos _)
        _ = m' * 2 ^ (L + 1 + (-s).toNat) := by rw [Nat.mul_assoc, ← Nat.pow_add]
        _ ≤ m' * 2 ^ (f.prec + s.toNat + (m'.log2 + 1)) :=
          Nat.mul_le_mul_left _ (Nat.pow_le_pow_right Nat.two_pos (by omega))
        _ = 2 ^ f.prec * (m' * 2 ^ s.toNat) * 2 ^ (m'.log2 + 1) := by
          rw [Nat.pow_add, Nat.pow_add]
          ring
    have below := (Nat.div_lt_iff_lt_mul positive).mpr upper
    have rounded := nearest_le (m * 2 ^ (-s).toNat) (m' * 2 ^ s.toNat)
    omega
  · by_cases least : e + s = f.emin
    · exact .inr least
    · left
      have lower : 2 ^ (f.prec - 1) * (m' * 2 ^ s.toNat) ≤ m * 2 ^ (-s).toNat := by
        apply Nat.le_of_mul_le_mul_right _ power
        calc 2 ^ (f.prec - 1) * (m' * 2 ^ s.toNat) * 2 ^ (m'.log2 + 1)
            = m' * 2 ^ (f.prec - 1 + s.toNat + (m'.log2 + 1)) := by
              rw [Nat.pow_add, Nat.pow_add]
              ring
          _ = m' * 2 ^ L * 2 ^ (-s).toNat := by
              rw [Nat.mul_assoc, ← Nat.pow_add]
              congr 2
              omega
          _ ≤ m * 2 ^ (m'.log2 + 1) * 2 ^ (-s).toNat := Nat.mul_le_mul_right _ low
          _ = m * 2 ^ (-s).toNat * 2 ^ (m'.log2 + 1) := by ring
      exact ((Nat.le_div_iff_mul_le positive).mpr lower).trans (div_le_nearest _ _)

/-- The word nearest to a quotient stands for its rounding to the significand it gets. -/
theorem decode_quotient {e : Int} (negative : Bool) (nonzero : m ≠ 0) (nonzero' : m' ≠ 0)
    (room : m.log2 + 1 + e < f.emax) :
    ∃ M E, f.decode (f.encode negative (f.quotient m m' e)) = .finite negative M E ∧
      Datum.SameValue M E (f.quotientSignificand m m' e) (e + f.quotientShift m m' e) := by
  have wide := f.two_emax
  have least := f.two_le_emax
  obtain ⟨few, normal⟩ := f.quotientSignificand_bounds nonzero nonzero' e
  obtain ⟨low, high⟩ := quotient_leading nonzero nonzero'
  generalize (m * 2 ^ (m'.log2 + 1) / m').log2 = L at low high
  have shift_eq := f.quotientShift_eq nonzero' low high e
  have length := quotient_length nonzero' low
  let g := (e + f.quotientShift m m' e - f.emin).toNat
  have exponent : f.emin + g = e + f.quotientShift m m' e := by omega
  have room' : g + 2 < 2 ^ f.expBits - 1 := by
    simp only [g, emin] at *
    omega
  have below : g * f.unit + f.quotientSignificand m m' e < f.infinity := by
    calc g * f.unit + f.quotientSignificand m m' e ≤ (g + 2) * f.unit := by
          rw [Nat.add_mul, f.two_unit]
          omega
      _ < f.infinity := Nat.mul_lt_mul_of_pos_right room' f.unit_pos
  have word : f.quotient m m' e = g * f.unit + f.quotientSignificand m m' e := by
    rw [quotient, if_neg (not_or.mpr ⟨nonzero, nonzero'⟩), Nat.min_eq_right below.le]
  obtain ⟨M, E, parts, same⟩ := f.parts_of negative few (by omega) room'
  refine ⟨M, E, ?_, exponent ▸ same⟩
  rw [word, f.decode_encode negative (below.trans f.infinity_lt), parts]

/-- The rounding of a quotient is not more than one half away. -/
theorem nearest_error (n : Nat) {d : Nat} (positive : 0 < d) :
    2 * n ≤ 2 * (nearest n d * d) + d ∧ 2 * (nearest n d * d) ≤ 2 * n + d := by
  have division := Nat.div_add_mod n d
  have remainder := Nat.mod_lt n positive
  have next : (n / d + 1) * d = n / d * d + d := Nat.succ_mul ..
  rw [Nat.mul_comm] at division
  rw [nearest]
  split_ifs with below above
  · omega
  · rw [next]
    omega
  · rcases Nat.mod_two_eq_zero_or_one (n / d) with even | odd
    · rw [even, Nat.add_zero]
      omega
    · rw [odd, next]
      omega

/-- A rounding with many bits behind the point reaches no integer from another number. -/
theorem nearest_fraction {a c t : Nat} (positive : 0 < c) (fine : c < 2 ^ (t + 1)) :
    nearest (a * 2 ^ t) c / 2 ^ t = a / c ∧ (nearest (a * 2 ^ t) c % 2 ^ t = 0 ↔ a % c = 0) := by
  have unit := Nat.two_pow_pos t
  have division := Nat.div_add_mod a c
  have remainder := Nat.mod_lt a positive
  by_cases whole : a % c = 0
  · have same : nearest (a * 2 ^ t) c = a / c * 2 ^ t := by
      have multiple : a * 2 ^ t = a / c * 2 ^ t * c := by
        rw [Nat.mul_right_comm, Nat.div_mul_cancel (Nat.dvd_of_mod_eq_zero whole)]
      rw [multiple, nearest_mul _ positive]
    rw [same, Nat.mul_div_cancel _ unit, Nat.mul_mod_left]
    exact ⟨rfl, iff_of_true rfl whole⟩
  · have ⟨above, below⟩ := nearest_error (a * 2 ^ t) positive
    have scaled : a * 2 ^ t = a / c * 2 ^ t * c + a % c * 2 ^ t := by
      calc a * 2 ^ t = (c * (a / c) + a % c) * 2 ^ t := by rw [division]
        _ = a / c * 2 ^ t * c + a % c * 2 ^ t := by ring
    have least : 2 ^ t ≤ a % c * 2 ^ t := Nat.le_mul_of_pos_left _ (Nat.pos_of_ne_zero whole)
    have most : a % c * 2 ^ t + 2 ^ t ≤ c * 2 ^ t := by
      rw [← Nat.succ_mul]
      exact Nat.mul_le_mul_right _ remainder
    rw [Nat.pow_succ] at fine
    -- The rounding is between two multiples.
    have high : a / c * 2 ^ t < nearest (a * 2 ^ t) c := by
      apply Nat.lt_of_mul_lt_mul_right (a := c)
      omega
    have low : nearest (a * 2 ^ t) c < (a / c + 1) * 2 ^ t := by
      apply Nat.lt_of_mul_lt_mul_right (a := c)
      have next : (a / c + 1) * 2 ^ t * c = a / c * 2 ^ t * c + c * 2 ^ t := by ring
      omega
    have quotient : nearest (a * 2 ^ t) c / 2 ^ t = a / c :=
      Nat.div_eq_of_lt_le high.le low
    refine ⟨quotient, iff_of_false ?_ whole⟩
    intro divides
    have multiple := Nat.div_add_mod (nearest (a * 2 ^ t) c) (2 ^ t)
    rw [quotient, divides, Nat.mul_comm] at multiple
    omega

end

/-! ## Words -/

theorem nan_lt : f.nan < 2 * f.signBit := by
  have more := f.infinity_lt
  have unit := f.unit_pos
  have least := Nat.two_pow_pos f.expBits
  have next : f.infinity + f.unit = f.signBit := by
    rw [infinity, signBit, ← Nat.succ_mul]
    congr 1
    omega
  rw [nan]
  omega

theorem quotient_le (m m' : Nat) (e : Int) : f.quotient m m' e ≤ f.infinity := by
  rw [quotient]
  split
  · exact Nat.zero_le _
  · exact Nat.min_le_left _ _

theorem div_lt (a b : Nat) : f.div a b < 2 * f.signBit := by
  have infinite := f.infinity_lt
  have zero : 0 < f.signBit := by omega
  rw [div]
  split
  · exact f.nan_lt
  · exact f.nan_lt
  · exact f.nan_lt
  · exact f.encode_lt infinite
  · exact f.encode_lt zero
  · split_ifs
    · exact f.nan_lt
    · exact f.encode_lt infinite
    · exact f.encode_lt ((f.quotient_le _ _ _).trans_lt infinite)

/-! ## Integers -/

section

variable (wide : f.prec < f.emax) {i j : Int} {zero zero' : Bool}
include wide

/-- The word of an integer stands for it. -/
theorem decode_round (zero : Bool) (short : i.natAbs < 2 ^ f.prec) :
    ∃ m e, f.decode (f.whole zero i) = .finite (signOf zero i) m e ∧ Datum.SameValue m e i.natAbs 0 := by
  have precise := f.prec_le
  have few : i.natAbs.log2 + 1 ≤ f.prec := by
    rcases eq_or_ne i.natAbs 0 with none | some
    · rw [none, Nat.log2_zero]
      omega
    · exact (Nat.log2_lt some).mpr short
  apply f.decode_exact
  · omega
  · rw [shift, emin]
    omega

omit wide in
theorem neg_whole : f.neg (f.whole zero i) = f.whole (!zero) (-i) := by
  have fits : f.magnitude i.natAbs 0 < f.signBit := (f.magnitude_le _ _).trans_lt f.infinity_lt
  have positive : 0 < f.signBit := by omega
  rw [whole, whole, round, round, signOf_neg, Int.natAbs_neg, neg, encode, encode]
  cases signOf zero i with
  | false =>
      rw [if_neg Bool.false_ne_true, Nat.zero_add, Nat.div_eq_of_lt fits, if_neg (by decide), Nat.add_comm]
      rfl
  | true =>
      rw [if_pos rfl, Nat.add_div_left _ positive, Nat.div_eq_of_lt fits, if_pos rfl, Nat.add_sub_cancel_left]
      exact (Nat.zero_add _).symm

theorem add_whole (short : i.natAbs < 2 ^ f.prec) (short' : j.natAbs < 2 ^ f.prec) :
    f.add (f.whole zero i) (f.whole zero' j) = f.whole (signOf zero i && signOf zero' j) (i + j) := by
  have ⟨m, e, word, same⟩ := f.decode_round wide zero short
  have ⟨m', e', word', same'⟩ := f.decode_round wide zero' short'
  have left := same.lift (F := fun m e => f.sum (signOf zero i) m e (signOf zero' j) m' e') fun m k e => f.sum_scale ..
  have right := same'.lift (F := fun m' e' => f.sum (signOf zero i) i.natAbs 0 (signOf zero' j) m' e') fun m' k e' => by
    rw [sum_comm, sum_scale, sum_comm]
  rw [add, word, word']
  exact left.trans (right.trans (f.sum_whole zero zero' i j))

theorem sub_whole (short : i.natAbs < 2 ^ f.prec) (short' : j.natAbs < 2 ^ f.prec) :
    f.sub (f.whole zero i) (f.whole zero' j) = f.whole (signOf zero i && !signOf zero' j) (i - j) := by
  rw [sub, neg_whole, f.add_whole wide short (by rwa [Int.natAbs_neg]), signOf_neg, Int.sub_eq_add_neg]

theorem mul_whole (short : i.natAbs < 2 ^ f.prec) (short' : j.natAbs < 2 ^ f.prec) :
    f.mul (f.whole zero i) (f.whole zero' j) = f.whole (signOf zero i ^^ signOf zero' j) (i * j) := by
  have ⟨m, e, word, same⟩ := f.decode_round wide zero short
  have ⟨m', e', word', same'⟩ := f.decode_round wide zero' short'
  have left := same.lift (F := fun m e => f.magnitude (m * m') (e + e')) fun m k e => by
    rw [Nat.mul_right_comm, magnitude_scale, Int.add_right_comm]
  have right := same'.lift (F := fun m' e' => f.magnitude (i.natAbs * m') (0 + e')) fun m' k e' => by
    rw [← Nat.mul_assoc, magnitude_scale, Int.add_assoc]
  rw [mul, word, word']
  dsimp only at left right ⊢
  rw [left, right, whole, round, signOf_mul, Int.natAbs_mul]
  rfl

omit wide in
/-- A quotient of integers is rounded so near that it is on the same side of all integers. -/
theorem quotient_fine (wide : f.prec < f.emax) (nonzero : i ≠ 0) (short : i.natAbs ≤ 2 ^ (f.prec - 2)) (nonzero' : j ≠ 0)
    (short' : j.natAbs < 2 ^ f.prec) : f.quotientShift i.natAbs j.natAbs 0 ≤ 0 ∧
      j.natAbs < 2 ^ ((-f.quotientShift i.natAbs j.natAbs 0).toNat + 1) := by
  have precise := f.prec_le
  have some : i.natAbs ≠ 0 := Int.natAbs_ne_zero.mpr nonzero
  have some' : j.natAbs ≠ 0 := Int.natAbs_ne_zero.mpr nonzero'
  have unit : f.unit = 2 * 2 ^ (f.prec - 2) := by
    rw [Format.unit, ← Nat.pow_succ']
    congr 1
    omega
  have positive := Nat.two_pow_pos (f.prec - 2)
  have length : i.natAbs.log2 ≤ f.prec - 2 := by
    have below : i.natAbs < 2 ^ (f.prec - 2 + 1) := by
      rw [Nat.pow_succ]
      omega
    exact Nat.le_of_lt_succ ((Nat.log2_lt some).mpr below)
  obtain ⟨_, normal⟩ := f.quotientSignificand_bounds some some' 0
  have whole : f.quotientShift i.natAbs j.natAbs 0 ≤ 0 := by
    obtain ⟨low, high⟩ := quotient_leading some some'
    have shift_eq := f.quotientShift_eq some' low high 0
    have few := quotient_length some' low
    have emin : f.emin < 0 := by
      rw [Format.emin]
      omega
    omega
  refine ⟨whole, ?_⟩
  rcases normal with full | least
  · have up : (f.quotientShift i.natAbs j.natAbs 0).toNat = 0 := by omega
    obtain ⟨_, below⟩ := nearest_error (i.natAbs * 2 ^ (-f.quotientShift i.natAbs j.natAbs 0).toNat)
      (Nat.pos_of_ne_zero some')
    rw [quotientSignificand, up, Nat.pow_zero, Nat.mul_one, unit] at full
    generalize (-f.quotientShift i.natAbs j.natAbs 0).toNat = t at *
    generalize nearest (i.natAbs * 2 ^ t) j.natAbs = significand at *
    generalize 2 ^ (f.prec - 2) = p at *
    rw [Nat.pow_succ]
    have scaled : 2 * p * j.natAbs ≤ significand * j.natAbs := Nat.mul_le_mul_right _ full
    have bounded : i.natAbs * 2 ^ t ≤ p * 2 ^ t := Nat.mul_le_mul_right _ short
    have once : j.natAbs ≤ p * j.natAbs := Nat.le_mul_of_pos_left _ positive
    have cancelled : p * (3 * j.natAbs) ≤ p * (2 * 2 ^ t) := by
      have left : p * (3 * j.natAbs) = 3 * (p * j.natAbs) := by ring
      have right : p * (2 * 2 ^ t) = 2 * (p * 2 ^ t) := by ring
      rw [Nat.mul_assoc] at scaled
      omega
    have divided := Nat.le_of_mul_le_mul_left cancelled positive
    have more := Nat.pos_of_ne_zero some'
    omega
  · have more : 2 ^ f.prec ≤ 2 ^ ((-f.quotientShift i.natAbs j.natAbs 0).toNat + 1) := by
      apply Nat.pow_le_pow_right Nat.two_pos
      rw [emin] at least
      omega
    exact short'.trans_le more

/-- A quotient of integers and its floor. -/
theorem floor_div_whole (short : i.natAbs ≤ 2 ^ (f.prec - 2)) (short' : j.natAbs < 2 ^ f.prec) (nonzero' : j ≠ 0) :
    f.floor (f.div (f.whole zero i) (f.whole zero' j)) = f.whole (signOf zero i ^^ signOf zero' j) (i.fdiv j) := by
  have precise := f.prec_le
  have fewer : 2 ^ (f.prec - 2) < 2 ^ f.prec := Nat.pow_lt_pow_right Nat.one_lt_two (by omega)
  have ⟨m, e, word, same⟩ := f.decode_round wide zero (i := i) (by omega)
  have ⟨m', e', word', same'⟩ := f.decode_round wide zero' short'
  have some' : m' ≠ 0 := by
    intro isZero
    exact nonzero' (Int.natAbs_eq_zero.mp (same'.eq_zero isZero))
  have left := same.lift (F := fun m e => f.quotient m m' (e - e')) fun m k e => by
    have scaled := f.quotient_scale m k m' 0 (e - e')
    rw [Nat.pow_zero, Nat.mul_one] at scaled
    rw [scaled]
    congr 1
    omega
  have right := same'.lift (F := fun m' e' => f.quotient i.natAbs m' (0 - e')) fun m' k e' => by
    have scaled := f.quotient_scale i.natAbs 0 m' k (0 - e')
    rw [Nat.pow_zero, Nat.mul_one] at scaled
    rw [scaled]
    congr 1
    omega
  rw [div, word, word']
  dsimp only
  rw [if_neg some', left, right, floor]
  by_cases isZero : i = 0
  · have none : f.quotient i.natAbs j.natAbs (0 - 0) = f.magnitude 0 0 := by
      rw [isZero]
      rfl
    have floor_zero (negative : Bool) (e : Int) : floorOf negative 0 e = 0 := by
      rw [floorOf, Nat.zero_mul]
      cases negative <;> exact Int.zero_ediv _
    rw [none, f.decode_zero, isZero, Int.zero_fdiv]
    dsimp only
    rw [floor_zero]
  · have ⟨whole, fine⟩ := f.quotient_fine wide isZero short nonzero' short'
    have room : i.natAbs.log2 + 1 + (0 : Int) < f.emax := by
      have length : i.natAbs.log2 < f.prec := (Nat.log2_lt (Int.natAbs_ne_zero.mpr isZero)).mpr (by omega)
      omega
    have ⟨M, E, rounded, sameRounded⟩ := f.decode_quotient (signOf zero i ^^ signOf zero' j)
      (Int.natAbs_ne_zero.mpr isZero) (Int.natAbs_ne_zero.mpr nonzero') room
    have ⟨quotient, remainder⟩ := nearest_fraction (a := i.natAbs) (Int.natAbs_pos.mpr nonzero') fine
    rw [Int.sub_self, rounded]
    dsimp only
    rw [sameRounded.lift fun m k e => floorOf_scale _ m k e, fdiv_eq_signed zero zero' i nonzero', floorOf]
    have up : (f.quotientShift i.natAbs j.natAbs 0).toNat = 0 := by omega
    have significand : f.quotientSignificand i.natAbs j.natAbs 0 =
        nearest (i.natAbs * 2 ^ (-f.quotientShift i.natAbs j.natAbs 0).toNat) j.natAbs := by
      rw [quotientSignificand, up, Nat.pow_zero, Nat.mul_one]
    have power (t : Nat) : (2 : Int) ^ t = ((2 ^ t : Nat) : Int) := by
      push_cast
      rfl
    rw [Int.zero_add, up, Nat.pow_zero, Nat.mul_one, significand, power]
    congr 1
    exact signed_ediv_congr _ (Nat.two_pow_pos _) (Int.natAbs_pos.mpr nonzero') quotient remainder

end

end Format

end Foundation
