import TvmJit.Foundation.Rounding

/-! Binary floating-point formats: what a word stands for, the word nearest to a value, and
conversions between formats and from and to integers. -/

namespace Foundation

/-- What a word of a format stands for: the finite ones are `m * 2 ^ e`. -/
inductive Datum
  | nan (negative : Bool) (payload : Nat)
  | infinite (negative : Bool)
  | finite (negative : Bool) (m : Nat) (e : Int)
  deriving DecidableEq

namespace Datum

/-- The integer part of `m * 2 ^ e`. -/
def floor (m : Nat) (e : Int) : Nat := m * 2 ^ e.toNat / 2 ^ (-e).toNat

/-- The value, cut towards zero. -/
def toInt : Datum → Option Int
  | finite negative m e => some (if negative then -(floor m e : Int) else floor m e)
  | _ => none

def isZero : Datum → Bool
  | finite _ m _ => m == 0
  | _ => false

/-- `m * 2 ^ e` and `m' * 2 ^ e'` are the same number. -/
def SameValue (m : Nat) (e : Int) (m' : Nat) (e' : Int) : Prop :=
  ∃ k : Nat, m = m' * 2 ^ k ∧ e' = e + k ∨ m' = m * 2 ^ k ∧ e = e' + k

theorem SameValue.refl (m : Nat) (e : Int) : SameValue m e m e :=
  ⟨0, Or.inl ⟨by rw [Nat.pow_zero, Nat.mul_one], by simp⟩⟩

theorem SameValue.scale (m k : Nat) (e : Int) : SameValue (m * 2 ^ k) e m (e + k) :=
  ⟨k, Or.inl ⟨rfl, rfl⟩⟩

theorem SameValue.symm {m m' : Nat} {e e' : Int} (same : SameValue m e m' e') :
    SameValue m' e' m e := by
  obtain ⟨k, down | up⟩ := same
  · exact ⟨k, Or.inr down⟩
  · exact ⟨k, Or.inl up⟩

theorem SameValue.zero (e e' : Int) : SameValue 0 e 0 e' := by
  rcases le_total e e' with up | down
  · exact ⟨(e' - e).toNat, Or.inl ⟨(Nat.zero_mul _).symm, by omega⟩⟩
  · exact ⟨(e - e').toNat, Or.inr ⟨(Nat.zero_mul _).symm, by omega⟩⟩

theorem SameValue.eq_zero {m m' : Nat} {e e' : Int} (same : SameValue m e m' e') (zero : m = 0) : m' = 0 := by
  have ⟨k, cases⟩ := same
  have power := (Nat.two_pow_pos k).ne'
  rcases cases with ⟨down, _⟩ | ⟨up, _⟩
  · rw [zero] at down
    exact (Nat.mul_eq_zero.mp down.symm).resolve_right power
  · rw [up, zero, Nat.zero_mul]

private theorem SameValue.meet {m m' j k : Nat} {e e' : Int} (less : j ≤ k)
    (same : m * 2 ^ j = m' * 2 ^ k) (exponents : e - j = e' - k) : SameValue m e m' e' := by
  refine ⟨k - j, Or.inl ⟨?_, by omega⟩⟩
  apply Nat.mul_right_cancel (Nat.two_pow_pos j)
  rw [same, Nat.mul_assoc, ← Nat.pow_add, Nat.sub_add_cancel less]

private theorem SameValue.split {m j k : Nat} {e e' : Int} (less : j ≤ k)
    (exponents : e + k = e' + j) : SameValue (m * 2 ^ k) e (m * 2 ^ j) e' := by
  refine ⟨k - j, Or.inl ⟨?_, by omega⟩⟩
  rw [Nat.mul_assoc, ← Nat.pow_add, Nat.add_sub_cancel' less]

theorem SameValue.trans {m m' m'' : Nat} {e e' e'' : Int} (first : SameValue m e m' e')
    (second : SameValue m' e' m'' e'') : SameValue m e m'' e'' := by
  obtain ⟨k, ⟨rfl, rfl⟩ | ⟨rfl, rfl⟩⟩ := first <;> obtain ⟨j, ⟨h, h'⟩ | ⟨h, h'⟩⟩ := second
  · refine ⟨j + k, Or.inl ⟨?_, by omega⟩⟩
    rw [h, Nat.pow_add, Nat.mul_assoc]
  · rw [h]
    rcases le_total j k with less | more
    · exact SameValue.split less h'
    · exact (SameValue.split more h'.symm).symm
  · rcases le_total k j with less | more
    · exact SameValue.meet less h (by omega)
    · exact (SameValue.meet more h.symm (by omega)).symm
  · refine ⟨k + j, Or.inr ⟨?_, by omega⟩⟩
    rw [h, Nat.pow_add, Nat.mul_assoc]

/-- A function of `m` and `e` that does not notice a scaling is one of the value. -/
theorem SameValue.lift {α : Type*} {F : Nat → Int → α}
    (scaled : ∀ (m k : Nat) (e : Int), F (m * 2 ^ k) e = F m (e + k)) {m m' : Nat} {e e' : Int}
    (same : SameValue m e m' e') : F m e = F m' e' := by
  obtain ⟨k, ⟨rfl, rfl⟩ | ⟨rfl, rfl⟩⟩ := same
  · exact scaled m' k e
  · exact (scaled m k e').symm

theorem floor_scale (m k : Nat) (e : Int) : floor (m * 2 ^ k) e = floor m (e + k) := by
  rcases le_total 0 e with up | down
  · have left : (-e).toNat = 0 := by omega
    have right : (-(e + k)).toNat = 0 := by omega
    have sum : (e + k).toNat = k + e.toNat := by omega
    rw [floor, floor, left, right, sum, Nat.mul_assoc, ← Nat.pow_add]
  · rcases le_total 0 (e + k) with above | below
    · have left : e.toNat = 0 := by omega
      have right : (-(e + k)).toNat = 0 := by omega
      have sum : k = (e + k).toNat + (-e).toNat := by omega
      have power : 2 ^ k = 2 ^ (e + k).toNat * 2 ^ (-e).toNat := by rw [← Nat.pow_add, ← sum]
      rw [floor, floor, left, right, power, ← Nat.mul_assoc, Nat.pow_zero, Nat.mul_one,
        Nat.mul_div_cancel _ (Nat.two_pow_pos _), Nat.div_one]
    · have left : e.toNat = 0 := by omega
      have right : (e + k).toNat = 0 := by omega
      have sum : (-e).toNat = (-(e + k)).toNat + k := by omega
      rw [floor, floor, left, right, sum, Nat.pow_add, Nat.pow_zero, Nat.mul_one, Nat.mul_one,
        Nat.mul_div_mul_right _ _ (Nat.two_pow_pos k)]

theorem SameValue.floor_eq {m m' : Nat} {e e' : Int} (same : SameValue m e m' e') :
    floor m e = floor m' e' := same.lift floor_scale

theorem floor_whole (m : Nat) : floor m 0 = m := by
  simp [floor]

end Datum

/-- A binary format: the bits of a significand, the leading one included, and those of the
exponent. -/
structure Format where
  prec : Nat
  expBits : Nat
  prec_le : 2 ≤ prec
  expBits_le : 2 ≤ expBits

def binary32 : Format := ⟨24, 8, by decide, by decide⟩

def binary64 : Format := ⟨53, 11, by decide, by decide⟩

namespace Format

variable (f : Format)

/-- All finite numbers are below two to this. -/
def emax : Nat := 2 ^ (f.expBits - 1)

/-- The exponent of the least number. -/
def emin : Int := 3 - f.emax - f.prec

/-- The weight of the exponent field. -/
def unit : Nat := 2 ^ (f.prec - 1)

def infinity : Nat := (2 ^ f.expBits - 1) * f.unit

def signBit : Nat := 2 ^ f.expBits * f.unit

/-- The exponent that a significand of `m * 2 ^ e` gets is that much over `e`. -/
def shift (m : Nat) (e : Int) : Int := max (m.log2 + 1 - f.prec) (f.emin - e)

def significand (m : Nat) (e : Int) : Nat :=
  nearest (m * 2 ^ (-f.shift m e).toNat) (2 ^ (f.shift m e).toNat)

/-- The word nearest to `m * 2 ^ e`. A carry out of the significand goes into the exponent. -/
def magnitude (m : Nat) (e : Int) : Nat :=
  if m = 0 then 0
  else min f.infinity ((e + f.shift m e - f.emin).toNat * f.unit + f.significand m e)

def encode (negative : Bool) (magnitude : Nat) : Nat :=
  (if negative then f.signBit else 0) + magnitude

/-- What a word without its sign stands for. -/
def parts (negative : Bool) (magnitude : Nat) : Datum :=
  let exponent := magnitude / f.unit
  let fraction := magnitude % f.unit
  if exponent = 2 ^ f.expBits - 1 then
    if fraction = 0 then .infinite negative else .nan negative fraction
  else if exponent = 0 then .finite negative fraction f.emin
  else .finite negative (f.unit + fraction) (f.emin + exponent - 1)

def decode (word : Nat) : Datum := f.parts (word / f.signBit % 2 = 1) (word % f.signBit)

/-- The word nearest to an integer. -/
def ofInt (i : Int) : Nat := f.encode (i < 0) (f.magnitude i.natAbs 0)

/-- The word nearest to what a word of the format `g` stands for. A number that is none keeps
the upper bits of its payload and becomes a quiet one. -/
def convert (g : Format) (word : Nat) : Nat :=
  match g.decode word with
  | .nan negative payload =>
    f.encode negative (f.infinity + (payload * f.unit / g.unit ||| 2 ^ (f.prec - 2)))
  | .infinite negative => f.encode negative f.infinity
  | .finite negative m e => f.encode negative (f.magnitude m e)

/-! ## Rounding -/

theorem unit_pos : 0 < f.unit := Nat.two_pow_pos _

theorem two_unit : 2 * f.unit = 2 ^ f.prec := by
  have := f.prec_le
  rw [unit, ← Nat.pow_succ', Nat.succ_eq_add_one, Nat.sub_add_cancel (by omega)]

theorem two_emax : 2 * f.emax = 2 ^ f.expBits := by
  have := f.expBits_le
  rw [emax, ← Nat.pow_succ', Nat.succ_eq_add_one, Nat.sub_add_cancel (by omega)]

theorem two_le_emax : 2 ≤ f.emax := by
  have := f.expBits_le
  calc 2 = 2 ^ 1 := rfl
    _ ≤ f.emax := Nat.pow_le_pow_right Nat.two_pos (by omega)

theorem emin_le (m : Nat) (e : Int) : f.emin ≤ e + f.shift m e := by
  rw [shift]
  omega

theorem shift_scale {m : Nat} (nonzero : m ≠ 0) (k : Nat) (e : Int) :
    f.shift (m * 2 ^ k) e = f.shift m (e + k) + k := by
  have length : (m * 2 ^ k).log2 = m.log2 + k := by
    apply (Nat.log2_eq_iff (Nat.mul_ne_zero nonzero (Nat.two_pow_pos k).ne')).mpr
    have lower := Nat.log2_self_le nonzero
    have upper : m < 2 ^ (m.log2 + 1) := Nat.lt_log2_self
    have pos := Nat.two_pow_pos k
    constructor
    · rw [Nat.pow_add]
      exact Nat.mul_le_mul_right _ lower
    · rw [Nat.add_right_comm, Nat.pow_add]
      exact Nat.mul_lt_mul_of_pos_right upper pos
  rw [shift, shift, length]
  omega

theorem significand_scale {m : Nat} (nonzero : m ≠ 0) (k : Nat) (e : Int) :
    f.significand (m * 2 ^ k) e = f.significand m (e + k) := by
  rw [significand, significand, f.shift_scale nonzero]
  generalize f.shift m (e + k) = s
  rcases le_total 0 s with up | down
  · have none : (-s).toNat = 0 := by omega
    have none' : (-(s + k)).toNat = 0 := by omega
    have sum : (s + k).toNat = s.toNat + k := by omega
    rw [none, none', sum, Nat.pow_zero, Nat.mul_one, Nat.mul_one, Nat.pow_add]
    exact nearest_scale m _ (Nat.two_pow_pos k)
  · rcases le_total 0 (s + k) with above | below
    · have none : s.toNat = 0 := by omega
      have none' : (-(s + k)).toNat = 0 := by omega
      have sum : k = (-s).toNat + (s + k).toNat := by omega
      have power : m * 2 ^ k = m * 2 ^ (-s).toNat * 2 ^ (s + k).toNat := by
        rw [Nat.mul_assoc, ← Nat.pow_add, ← sum]
      rw [none, none', power, Nat.pow_zero, Nat.mul_one, nearest_mul _ (Nat.two_pow_pos _),
        nearest_one]
    · have none : s.toNat = 0 := by omega
      have none' : (s + k).toNat = 0 := by omega
      have sum : (-s).toNat = k + (-(s + k)).toNat := by omega
      rw [none, none', sum, Nat.pow_add, Nat.mul_assoc]

/-- The word nearest to a number depends on the number alone. -/
theorem magnitude_scale (m k : Nat) (e : Int) :
    f.magnitude (m * 2 ^ k) e = f.magnitude m (e + k) := by
  rcases eq_or_ne m 0 with rfl | nonzero
  · rw [Nat.zero_mul, magnitude, magnitude, if_pos rfl, if_pos rfl]
  · have nonzero' : m * 2 ^ k ≠ 0 := Nat.mul_ne_zero nonzero (Nat.two_pow_pos k).ne'
    have exponent : e + (f.shift m (e + k) + k) = e + k + f.shift m (e + k) := by ring
    rw [magnitude, magnitude, if_neg nonzero, if_neg nonzero', f.shift_scale nonzero,
      f.significand_scale nonzero, exponent]

/-- A significand fills its bits, except next to zero. -/
theorem significand_bounds {m : Nat} (nonzero : m ≠ 0) (e : Int) :
    f.significand m e ≤ 2 ^ f.prec ∧
      (f.unit ≤ f.significand m e ∨ e + f.shift m e = f.emin) := by
  have precise := f.prec_le
  have self : 2 ^ m.log2 ≤ m := Nat.log2_self_le nonzero
  have next : m < 2 ^ (m.log2 + 1) := Nat.lt_log2_self
  have cases : f.shift m e = m.log2 + 1 - f.prec ∧ f.emin - e ≤ f.shift m e ∨
      f.shift m e = f.emin - e ∧ (m.log2 + 1 - f.prec : Int) < f.shift m e := by
    rw [shift]
    omega
  rw [significand]
  rcases le_total 0 (f.shift m e) with up | down
  · have none : (-f.shift m e).toNat = 0 := by omega
    rw [none, Nat.pow_zero, Nat.mul_one]
    rcases cases with ⟨normal, -⟩ | ⟨least, low⟩
    · obtain ⟨lower, upper⟩ := nearest_bounds (k := (f.shift m e).toNat) nonzero (by omega)
      rw [show m.log2 - (f.shift m e).toNat = f.prec - 1 by omega] at lower
      rw [show m.log2 + 1 - (f.shift m e).toNat = f.prec by omega] at upper
      exact ⟨upper, Or.inl lower⟩
    · refine ⟨?_, Or.inr (by omega)⟩
      have small : m / 2 ^ (f.shift m e).toNat < 2 ^ (f.prec - 1) := by
        apply (Nat.div_lt_iff_lt_mul (Nat.two_pow_pos _)).mpr
        rw [← Nat.pow_add]
        apply Nat.lt_of_lt_of_le next
        apply Nat.pow_le_pow_right Nat.two_pos
        omega
      have rounded := nearest_le m (2 ^ (f.shift m e).toNat)
      have power : 2 ^ (f.prec - 1) ≤ 2 ^ f.prec := Nat.pow_le_pow_right Nat.two_pos (by omega)
      omega
  · have none : (f.shift m e).toNat = 0 := by omega
    rw [none, Nat.pow_zero, nearest_one]
    constructor
    · calc m * 2 ^ (-f.shift m e).toNat ≤ 2 ^ (m.log2 + 1) * 2 ^ (-f.shift m e).toNat :=
            Nat.mul_le_mul_right _ next.le
        _ ≤ 2 ^ f.prec := by
            rw [← Nat.pow_add]
            exact Nat.pow_le_pow_right Nat.two_pos (by omega)
    · rcases cases with ⟨normal, -⟩ | ⟨least, -⟩
      · left
        calc f.unit = 2 ^ m.log2 * 2 ^ (-f.shift m e).toNat := by
              rw [unit, ← Nat.pow_add]
              congr 1
              omega
          _ ≤ m * 2 ^ (-f.shift m e).toNat := Nat.mul_le_mul_right _ self
      · right
        omega

/-! ## Words and their values -/

theorem infinity_lt : f.infinity < f.signBit := by
  apply Nat.mul_lt_mul_of_pos_right _ f.unit_pos
  have := Nat.two_pow_pos f.expBits
  omega

theorem magnitude_le (m : Nat) (e : Int) : f.magnitude m e ≤ f.infinity := by
  rw [magnitude]
  split
  · exact Nat.zero_le _
  · exact Nat.min_le_left _ _

theorem decode_encode {magnitude : Nat} (negative : Bool) (fits : magnitude < f.signBit) :
    f.decode (f.encode negative magnitude) = f.parts negative magnitude := by
  have pos : 0 < f.signBit := by omega
  rw [decode, encode]
  cases negative
  · simp [Nat.div_eq_of_lt fits, Nat.mod_eq_of_lt fits]
  · simp [Nat.add_div_left _ pos, Nat.div_eq_of_lt fits, Nat.mod_eq_of_lt fits]

/-- A word that is put together from a significand and an exponent stands for both. -/
theorem parts_of {g sig : Nat} (negative : Bool) (few : sig ≤ 2 ^ f.prec)
    (normal : f.unit ≤ sig ∨ g = 0) (room : g + 2 < 2 ^ f.expBits - 1) :
    ∃ m e, f.parts negative (g * f.unit + sig) = .finite negative m e ∧
      Datum.SameValue m e sig (f.emin + g) := by
  have pos := f.unit_pos
  rw [← f.two_unit] at few
  rcases Nat.lt_or_ge sig f.unit with subnormal | full
  · obtain rfl : g = 0 := by omega
    have exponent : (0 * f.unit + sig) / f.unit = 0 := by
      rw [Nat.zero_mul, Nat.zero_add, Nat.div_eq_of_lt subnormal]
    have fraction : (0 * f.unit + sig) % f.unit = sig := by
      rw [Nat.zero_mul, Nat.zero_add, Nat.mod_eq_of_lt subnormal]
    refine ⟨sig, f.emin, ?_, ?_⟩
    · rw [parts]
      simp only [exponent, fraction]
      rw [if_neg (by omega)]
      rfl
    · simpa using Datum.SameValue.refl sig f.emin
  · obtain ⟨fraction, rfl⟩ := Nat.exists_eq_add_of_le full
    rcases Nat.lt_or_ge fraction f.unit with plain | carry
    · have sum : g * f.unit + (f.unit + fraction) = (g + 1) * f.unit + fraction := by ring
      refine ⟨f.unit + fraction, f.emin + (g + 1 : Nat) - 1, ?_, ?_⟩
      · rw [parts]
        simp only [sum, add_div_unit (g + 1) plain, add_mod_unit (g + 1) plain]
        rw [if_neg (by omega), if_neg (by omega)]
      · rw [show f.emin + (g + 1 : Nat) - 1 = f.emin + g by omega]
        exact Datum.SameValue.refl _ _
    · obtain rfl : fraction = f.unit := by omega
      have sum : g * f.unit + (f.unit + f.unit) = (g + 2) * f.unit + 0 := by ring
      refine ⟨f.unit, f.emin + (g + 2 : Nat) - 1, ?_, ?_⟩
      · rw [parts]
        simp only [sum, add_div_unit (g + 2) pos, add_mod_unit (g + 2) pos]
        rw [if_neg (by omega), if_neg (by omega), Nat.add_zero]
      · have double : f.unit + f.unit = f.unit * 2 ^ 1 := by ring
        have exponent : f.emin + (g + 2 : Nat) - 1 = f.emin + g + (1 : Nat) := by omega
        rw [double, exponent]
        exact (Datum.SameValue.scale f.unit 1 (f.emin + g)).symm

/-- The word nearest to a number stands for its rounding to the significand it gets. -/
theorem decode_magnitude {m : Nat} {e : Int} (negative : Bool) (nonzero : m ≠ 0)
    (room : m.log2 + 1 + e < f.emax) :
    ∃ m' e', f.decode (f.encode negative (f.magnitude m e)) = .finite negative m' e' ∧
      Datum.SameValue m' e' (f.significand m e) (e + f.shift m e) := by
  have low := f.emin_le m e
  have wide := f.two_emax
  have least := f.two_le_emax
  obtain ⟨few, normal⟩ := f.significand_bounds nonzero e
  let g := (e + f.shift m e - f.emin).toNat
  have exponent : f.emin + g = e + f.shift m e := by omega
  have high : g + 2 < 2 ^ f.expBits - 1 := by
    simp only [g, shift, emin]
    omega
  have below : g * f.unit + f.significand m e < f.infinity := by
    calc g * f.unit + f.significand m e ≤ (g + 2) * f.unit := by
          rw [Nat.add_mul, f.two_unit]
          omega
      _ < f.infinity := Nat.mul_lt_mul_of_pos_right high f.unit_pos
  have word : f.magnitude m e = g * f.unit + f.significand m e := by
    rw [magnitude, if_neg nonzero, Nat.min_eq_right below.le]
  have normalized : f.unit ≤ f.significand m e ∨ g = 0 := by omega
  obtain ⟨m', e', parts, same⟩ := f.parts_of negative few normalized high
  refine ⟨m', e', ?_, exponent ▸ same⟩
  rw [word, f.decode_encode negative (below.trans f.infinity_lt), parts]

theorem decode_zero (negative : Bool) (e : Int) :
    f.decode (f.encode negative (f.magnitude 0 e)) = .finite negative 0 f.emin := by
  have wide := f.two_emax
  have least := f.two_le_emax
  have pos : 0 < f.signBit := by
    have := f.infinity_lt
    omega
  rw [magnitude, if_pos rfl, f.decode_encode negative pos, parts]
  simp only [Nat.zero_div, Nat.zero_mod]
  rw [if_neg (by omega)]
  rfl

/-- The significand holds all bits of a number that does not lose any. -/
theorem significand_exact {m : Nat} {e : Int} (exact : f.shift m e ≤ 0) :
    Datum.SameValue (f.significand m e) (e + f.shift m e) m e := by
  have none : (f.shift m e).toNat = 0 := by omega
  refine ⟨(-f.shift m e).toNat, Or.inl ⟨?_, by omega⟩⟩
  rw [significand, none, Nat.pow_zero, nearest_one]

/-- A number that loses no bits is kept. -/
theorem decode_exact {m : Nat} {e : Int} (negative : Bool) (room : m.log2 + 1 + e < f.emax)
    (exact : f.shift m e ≤ 0) :
    ∃ m' e', f.decode (f.encode negative (f.magnitude m e)) = .finite negative m' e' ∧
      Datum.SameValue m' e' m e := by
  rcases eq_or_ne m 0 with rfl | nonzero
  · exact ⟨0, f.emin, f.decode_zero negative e, Datum.SameValue.zero _ _⟩
  · obtain ⟨m', e', word, same⟩ := f.decode_magnitude negative nonzero room
    exact ⟨m', e', word, same.trans (f.significand_exact exact)⟩

/-- An integer is rounded to the bits of a significand. -/
theorem significand_whole {m : Nat} :
    Datum.SameValue (f.significand m 0) (f.shift m 0) (roundTo f.prec m) 0 := by
  have least := f.two_le_emax
  have length : f.shift m 0 = m.log2 + 1 - f.prec := by
    rw [shift, emin]
    omega
  rcases le_total 0 (f.shift m 0) with up | down
  · have none : (-f.shift m 0).toNat = 0 := by omega
    have long : (f.shift m 0).toNat = excess f.prec m := by
      rw [excess]
      omega
    rw [significand, none, Nat.pow_zero, Nat.mul_one, roundTo, long]
    exact ⟨excess f.prec m, Or.inr ⟨rfl, by omega⟩⟩
  · rw [roundTo_of_short (by omega)]
    have exact := f.significand_exact (m := m) (e := 0) down
    rwa [Int.zero_add] at exact

theorem decode_whole {m : Nat} (negative : Bool) (room : m.log2 + 1 < f.emax) :
    ∃ m' e', f.decode (f.encode negative (f.magnitude m 0)) = .finite negative m' e' ∧
      Datum.SameValue m' e' (roundTo f.prec m) 0 := by
  rcases eq_or_ne m 0 with rfl | nonzero
  · refine ⟨0, f.emin, f.decode_zero negative 0, ?_⟩
    rw [roundTo_of_short (by have := f.prec_le; rw [Nat.log2_zero]; omega)]
    exact Datum.SameValue.zero _ _
  · obtain ⟨m', e', word, same⟩ := f.decode_magnitude (e := 0) negative nonzero (by omega)
    rw [Int.zero_add] at same
    exact ⟨m', e', word, same.trans f.significand_whole⟩

/-! ## Integers -/

/-- Rounding an integer to the bits of a significand does not change its word. -/
theorem magnitude_roundTo (m : Nat) : f.magnitude (roundTo f.prec m) 0 = f.magnitude m 0 := by
  have least := f.two_le_emax
  have precise := f.prec_le
  rcases Nat.lt_or_ge f.prec (m.log2 + 1) with long | short
  · have nonzero : m ≠ 0 := by
      rintro rfl
      rw [Nat.log2_zero] at long
      omega
    have shifted : f.shift m 0 = excess f.prec m := by
      rw [shift, emin, excess]
      omega
    have rounded : f.significand m 0 = nearest m (2 ^ excess f.prec m) := by
      have none : (-f.shift m 0).toNat = 0 := by omega
      rw [significand, none, Nat.pow_zero, Nat.mul_one, shifted, Int.toNat_natCast]
    obtain ⟨few, normal⟩ := f.significand_bounds nonzero 0
    have full : f.unit ≤ f.significand m 0 := by
      apply normal.resolve_right
      rw [shifted, emin]
      omega
    have pos := f.unit_pos
    have width := f.two_unit
    rw [roundTo, ← rounded, magnitude_scale, magnitude, magnitude, if_neg nonzero,
      if_neg (by omega)]
    congr 1
    rw [Int.zero_add, Int.zero_add, shifted]
    generalize f.significand m 0 = sig at *
    generalize excess f.prec m = k at *
    rcases Nat.lt_or_eq_of_le few with plain | carry
    · have length : sig.log2 + 1 = f.prec := by
        have log : sig.log2 = f.prec - 1 := by
          apply (Nat.log2_eq_iff (by omega)).mpr
          rw [Nat.sub_add_cancel (by omega)]
          exact ⟨full, plain⟩
        omega
      have kept : f.shift sig k = 0 := by
        rw [shift, emin]
        omega
      have same : f.significand sig k = sig := by
        rw [significand, kept]
        simp
      rw [kept, same, Int.add_zero]
    · subst carry
      have one : f.shift (2 ^ f.prec) k = 1 := by
        rw [shift, emin, Nat.log2_two_pow]
        omega
      have half : f.significand (2 ^ f.prec) k = f.unit := by
        rw [significand, one, ← f.two_unit, Nat.mul_comm 2]
        simpa using nearest_mul f.unit Nat.two_pos
      have exponent : (k + 1 - f.emin).toNat = (k - f.emin).toNat + 1 := by
        rw [emin]
        omega
      rw [one, half, exponent, ← f.two_unit]
      ring
  · rw [roundTo_of_short short]

/-- Integers get one word if they have one rounding. -/
theorem magnitude_eq_iff {m m' : Nat} (room : m.log2 + 1 < f.emax) (room' : m'.log2 + 1 < f.emax) :
    f.magnitude m 0 = f.magnitude m' 0 ↔ roundTo f.prec m = roundTo f.prec m' := by
  constructor
  · intro same
    obtain ⟨a, e, word, value⟩ := f.decode_whole (m := m) false room
    obtain ⟨a', e', word', value'⟩ := f.decode_whole (m := m') false room'
    rw [same, word', Datum.finite.injEq] at word
    obtain ⟨-, rfl, rfl⟩ := word
    rw [← Datum.floor_whole (roundTo f.prec m), ← value.floor_eq, value'.floor_eq,
      Datum.floor_whole]
  · intro same
    rw [← f.magnitude_roundTo, same, f.magnitude_roundTo]

theorem encode_inj {negative : Bool} {magnitude magnitude' : Nat} :
    f.encode negative magnitude = f.encode negative magnitude' ↔ magnitude = magnitude' := by
  rw [encode, encode]
  omega

theorem encode_lt {negative : Bool} {magnitude : Nat} (fits : magnitude < f.signBit) :
    f.encode negative magnitude < 2 * f.signBit := by
  rw [encode]
  split <;> omega

/-! ## Conversions -/

variable (g : Format)

/-- An integer that goes through another format is rounded to its significands first. -/
theorem convert_ofInt {i : Int} (room : i.natAbs.log2 + 1 < g.emax) :
    f.convert g (g.ofInt i) = f.encode (i < 0) (f.magnitude (roundTo g.prec i.natAbs) 0) := by
  obtain ⟨m, e, word, same⟩ := g.decode_whole (decide (i < 0)) room
  rw [convert, ofInt, word, ← same.lift f.magnitude_scale]

/-- The integer that a word stands for, if it stands for one. -/
theorem toInt_ofInt {i : Int} (room : i.natAbs.log2 + 1 < f.emax)
    (short : i.natAbs.log2 + 1 ≤ f.prec) : (f.decode (f.ofInt i)).toInt = some i := by
  obtain ⟨m, e, word, same⟩ := f.decode_whole (decide (i < 0)) room
  rw [roundTo_of_short short] at same
  rw [ofInt, word, Datum.toInt, same.floor_eq, Datum.floor_whole]
  congr 1
  by_cases negative : i < 0
  · simp only [negative, decide_true, if_true]
    omega
  · simp only [negative, decide_false]
    rw [if_neg (by simp)]
    omega

/-- The finite words of a format. -/
theorem decode_bounds {word m : Nat} {e : Int} {negative : Bool}
    (finite : f.decode word = .finite negative m e) :
    m < 2 ^ f.prec ∧ f.emin ≤ e ∧ e + f.prec ≤ f.emax := by
  have pos := f.unit_pos
  have wide := f.two_emax
  have least := f.two_le_emax
  have width := f.two_unit
  have fraction : word % f.signBit % f.unit < f.unit := Nat.mod_lt _ pos
  have exponent : word % f.signBit / f.unit < 2 ^ f.expBits := by
    apply (Nat.div_lt_iff_lt_mul pos).mpr
    apply Nat.mod_lt
    have := f.infinity_lt
    omega
  rw [decode, parts] at finite
  generalize word % f.signBit / f.unit = exp at *
  generalize word % f.signBit % f.unit = frac at *
  split at finite
  · split at finite <;> cases finite
  · split at finite
    · cases finite
      rw [emin]
      omega
    · cases finite
      rw [emin]
      omega

/-- A format that covers another one keeps all its numbers. -/
theorem convert_covers {word m : Nat} {e : Int} {negative : Bool} (precise : g.prec ≤ f.prec)
    (low : f.emin ≤ g.emin) (high : g.emax < f.emax)
    (finite : g.decode word = .finite negative m e) :
    ∃ m' e', f.decode (f.convert g word) = .finite negative m' e' ∧
      Datum.SameValue m' e' m e := by
  obtain ⟨few, above, below⟩ := g.decode_bounds finite
  have least := g.prec_le
  have length : m.log2 + 1 ≤ g.prec := by
    rcases eq_or_ne m 0 with rfl | nonzero
    · rw [Nat.log2_zero]
      omega
    · exact (Nat.log2_lt nonzero).mpr few
  rw [convert, finite]
  apply f.decode_exact negative
  · omega
  · rw [shift]
    omega

end Format

end Foundation
