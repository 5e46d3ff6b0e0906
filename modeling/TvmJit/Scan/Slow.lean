import TvmJit.Scan.Doubles

/-! The slow path for integers: a number of 19 digits or more is scaled down to 17 or 18 digits, the
first one of which is not 0, and its double is no 32 bit integer. -/

namespace TvmJit.Scan

open Function

/-- How many digits are in the buffer, which is full where it could be empty. -/
def count (lo hi : Index) : Nat := (lo - hi - 1).toNat + 1

/-- The first digit is not 0, and all digits of the integer part are in the buffer. -/
structure Digits.Leading (n : Digits) : Prop where
  first : n.xi n.hi ≠ 0
  enough : n.idig ≤ count n.lo n.hi

/-! ## One round -/

section

variable (xi : Index → UInt8) (hi lo : Index) (idig : Int)

/-- A step of the division that is not at the first digit. -/
theorem downLoop_step {i : Index} (cy : Nat) (behind : i ≠ hi) : downLoop xi hi lo i idig cy =
    if DNEXT i ≠ lo then
      downLoop (update xi i (.ofNat ((cy + (xi i).toNat) >>> 6))) hi lo (DNEXT i) idig
        (100 * (cy + (xi i).toNat &&& 0x3f))
    else
      (update xi i (.ofNat ((cy + (xi i).toNat) >>> 6)), hi, idig, 100 * (cy + (xi i).toNat &&& 0x3f)) := by
  have notFirst (small : Prop) : ¬(small ∧ i = hi) := fun both => behind both.2
  rw [downLoop]
  simp only [if_neg (notFirst _)]

/-- The division leaves what is in front of it. -/
theorem downLoop_behind {i : Index} (cy : Nat) (behind : (lo - i - 1).toNat < (hi - i).toNat) :
    (downLoop xi hi lo i idig cy).1 hi = xi hi ∧ (downLoop xi hi lo i idig cy).2.1 = hi ∧
      (downLoop xi hi lo i idig cy).2.2.1 = idig := by
  generalize isLeft : (lo - i - 1).toNat = left at behind
  have different : i ≠ hi := by
    intro same
    rw [same, BitVec.sub_self] at behind
    exact absurd behind (Nat.not_lt_zero _)
  rw [downLoop_step xi hi lo idig cy different]
  induction left generalizing xi i cy with
  | zero =>
      have last : DNEXT i = lo := by
        rw [DNEXT]
        bv_omega
      rw [if_neg (not_not.mpr last)]
      exact ⟨update_of_ne different.symm .., rfl, rfl⟩
  | succ left induction =>
      have more : DNEXT i ≠ lo := by
        rw [DNEXT]
        bv_omega
      have different' : DNEXT i ≠ hi := by
        rw [DNEXT]
        bv_omega
      rw [if_pos more, downLoop_step _ hi lo idig _ different']
      have later := induction (update xi i (.ofNat ((cy + (xi i).toNat) >>> 6))) (i := DNEXT i)
        (100 * (cy + (xi i).toNat &&& 0x3f)) (by rw [DNEXT]; bv_omega) (by rw [DNEXT]; bv_omega) different'
      rwa [update_of_ne different.symm] at later

/-- A first digit that is not 0 after the division stays the first one. -/
theorem downLoop_stays (cy : Nat) (some : UInt8.ofNat ((cy + (xi hi).toNat) >>> 6) ≠ 0) :
    (downLoop xi hi lo hi idig cy).1 hi = .ofNat ((cy + (xi hi).toNat) >>> 6) ∧
      (downLoop xi hi lo hi idig cy).2.1 = hi ∧ (downLoop xi hi lo hi idig cy).2.2.1 = idig := by
  have stays : update xi hi (.ofNat ((cy + (xi hi).toNat) >>> 6)) hi ≠ 0 := by rwa [update_self]
  rw [downLoop]
  simp only [stays, false_and, if_false]
  split
  · next more =>
      have ⟨same, isHi, isIdig⟩ := downLoop_behind (update xi hi (.ofNat ((cy + (xi hi).toNat) >>> 6))) hi lo idig
        (100 * (cy + (xi hi).toNat &&& 0x3f)) (i := DNEXT hi) (by rw [DNEXT] at *; bv_omega)
      exact ⟨by rw [same, update_self], isHi, isIdig⟩
  · exact ⟨update_self .., rfl, rfl⟩

/-- The division leaves a first digit that is not 0: the first one, which is small then, or the
second one. -/
theorem downLoop_first (first : xi hi ≠ 0) (more : hi + 1 ≠ lo) :
    let r := downLoop xi hi lo hi idig 0
    r.1 r.2.1 ≠ 0 ∧
      (r.2.1 = hi ∧ r.2.2.1 = idig ∧ 64 ≤ (xi hi).toNat ∧ (r.1 hi).toNat < 64 ∨ r.2.1 = hi + 1 ∧ r.2.2.1 = idig - 1) := by
  have bound := (xi hi).toNat_lt
  have notZero : (xi hi).toNat ≠ 0 := fun zero => first (UInt8.toNat_inj.mp zero)
  have byte {n : Nat} (small : n < 256) : (UInt8.ofNat n).toNat = n := UInt8.toNat_ofNat_of_lt' small
  rcases Nat.lt_or_ge (xi hi).toNat 64 with small | large
  · have zero : (0 + (xi hi).toNat) >>> 6 = 0 := by
      rw [Nat.shiftRight_eq_div_pow]
      omega
    have moves : update xi hi (.ofNat ((0 + (xi hi).toNat) >>> 6)) hi = 0 := by
      rw [update_self, zero]
      rfl
    have rest : 0 + (xi hi).toNat &&& 0x3f = (xi hi).toNat := by
      rw [Nat.zero_add, show 0x3f = 2 ^ 6 - 1 from rfl, Nat.and_two_pow_sub_one_eq_mod, Nat.mod_eq_of_lt small]
    have bound' := (update xi hi (.ofNat ((0 + (xi hi).toNat) >>> 6)) (DNEXT hi)).toNat_lt
    have some : UInt8.ofNat ((100 * (xi hi).toNat +
        (update xi hi (.ofNat ((0 + (xi hi).toNat) >>> 6)) (DNEXT hi)).toNat) >>> 6) ≠ 0 := by
      intro none
      have value := congrArg UInt8.toNat none
      rw [Nat.shiftRight_eq_div_pow, byte (by omega)] at value
      change _ = 0 at value
      omega
    have ⟨same, isHi, isIdig⟩ := downLoop_stays _ (DNEXT hi) lo (idig - 1) _ some
    have step : downLoop xi hi lo hi idig 0 =
        downLoop (update xi hi (.ofNat ((0 + (xi hi).toNat) >>> 6))) (DNEXT hi) lo (DNEXT hi) (idig - 1)
          (100 * (xi hi).toNat) := by
      rw [downLoop]
      simp only [moves, rest, and_self, if_true]
      exact if_pos more
    rw [step]
    dsimp only
    rw [isHi, same]
    exact ⟨some, .inr ⟨rfl, isIdig⟩⟩
  · have digit : (UInt8.ofNat ((0 + (xi hi).toNat) >>> 6)).toNat = (xi hi).toNat / 64 := by
      rw [Nat.zero_add, Nat.shiftRight_eq_div_pow, byte (by omega)]
    have some : UInt8.ofNat ((0 + (xi hi).toNat) >>> 6) ≠ 0 := by
      intro none
      rw [none] at digit
      change 0 = _ at digit
      omega
    have ⟨same, isHi, isIdig⟩ := downLoop_stays xi hi lo idig 0 some
    dsimp only
    rw [isHi, same, digit]
    exact ⟨some, .inl ⟨rfl, isIdig, large, by omega⟩⟩

end

/-- The digits of the carry are behind the others. -/
theorem carryLoop_behind (xi : Index → UInt8) (hi lo : Index) (cy : Nat) :
    (carryLoop xi hi lo cy).1 hi = xi hi ∧ count lo hi ≤ count (carryLoop xi hi lo cy).2 hi := by
  fun_induction carryLoop xi hi lo cy with
  | case1 xi cy some =>
      refine ⟨?_, Nat.le_refl _⟩
      apply update_of_ne
      rw [DPREV]
      bv_omega
  | case2 xi lo cy some room induction =>
      have ⟨same, more⟩ := induction
      constructor
      · rw [same, update_of_ne room]
      · apply Nat.le_trans _ more
        rw [count, count, DNEXT]
        bv_omega
  | case3 xi lo cy none => exact ⟨rfl, Nat.le_refl _⟩

/-- A round keeps a leading digit, and takes one digit of the integer part or makes the first one
small. -/
theorem scaleDown_leading {n : Digits} (leading : n.Leading) (long : 9 < n.idig) :
    (scaleDown n).Leading ∧ (scaleDown n).ex2 = n.ex2 + 6 ∧
      ((scaleDown n).idig = n.idig - 1 ∨
        (scaleDown n).idig = n.idig ∧ 64 ≤ (n.xi n.hi).toNat ∧ ((scaleDown n).xi (scaleDown n).hi).toNat < 64) := by
  have enough := leading.enough
  have more : n.hi + 1 ≠ n.lo := by
    intro same
    rw [count, ← same] at enough
    have one : (n.hi + 1 - n.hi - 1).toNat = 0 := by bv_omega
    omega
  have ⟨first, digits⟩ := downLoop_first n.xi n.hi n.lo n.idig leading.first more
  rw [scaleDown]
  dsimp only at *
  generalize downLoop n.xi n.hi n.lo n.hi n.idig 0 = r at first digits
  have ⟨xi, hi, idig, cy⟩ := r
  dsimp only at *
  have ⟨same, room⟩ := carryLoop_behind xi hi n.lo cy
  rcases digits with ⟨rfl, rfl, large, small⟩ | ⟨rfl, rfl⟩
  · refine ⟨⟨same.trans_ne first, ?_⟩, rfl, .inr ⟨rfl, large, (congrArg UInt8.toNat same).trans_lt small⟩⟩
    dsimp only
    omega
  · refine ⟨⟨same.trans_ne first, ?_⟩, rfl, .inl rfl⟩
    have less : count n.lo n.hi = count n.lo (n.hi + 1) + 1 := by
      rw [count, count]
      bv_omega
    dsimp only
    omega

/-! ## All rounds -/

/-- How many rounds there are at most. -/
def rounds (n : Digits) : Int := 2 * n.idig + if 64 ≤ (n.xi n.hi).toNat then 1 else 0

theorem scaleDownLoop_leading {n : Digits} (fuel : Nat) (leading : n.Leading) (long : 9 ≤ n.idig)
    (enough : rounds n ≤ fuel + 18) (small : 0 ≤ n.ex2) (up : 9 < n.idig ∨ 6 ≤ n.ex2) :
    (scaleDownLoop fuel n).Leading ∧ (scaleDownLoop fuel n).idig = 9 ∧ 6 ≤ (scaleDownLoop fuel n).ex2 := by
  induction fuel generalizing n with
  | zero =>
      rw [rounds] at enough
      have nine : n.idig = 9 := by
        split at enough <;> omega
      exact ⟨leading, nine, up.resolve_left (by omega)⟩
  | succ fuel induction =>
      rw [scaleDownLoop]
      split
      · next more =>
          have ⟨leading', ex2, digits⟩ := scaleDown_leading leading more
          apply induction leading' (by omega) _ (by omega) (by omega)
          rw [rounds] at *
          rcases digits with less | ⟨same, large, small⟩
          · split <;> split at enough <;> omega
          · rw [if_pos large] at enough
            rw [if_neg (by omega)]
            omega
      · exact ⟨leading, by omega, up.resolve_left (by omega)⟩

/-! ## The integer part -/

theorem hundreds_eq {x : BitVec 64} (idig : Nat) (room : x.toNat * 100 ^ idig < 2 ^ 64) :
    (hundreds x idig).toNat = x.toNat * 100 ^ idig := by
  induction idig generalizing x with
  | zero =>
      rw [hundreds, if_neg (by decide), Nat.pow_zero, Nat.mul_one]
  | succ idig induction =>
      have power : x.toNat * 100 ^ (idig + 1) = x.toNat * 100 * 100 ^ idig := by ring
      have pos : 0 < 100 ^ idig := Nat.pow_pos (by decide)
      have small : x.toNat * 100 < 2 ^ 64 :=
        (Nat.le_mul_of_pos_right (x.toNat * 100) pos).trans_lt (power ▸ room)
      have hundred : (100 : BitVec 64).toNat = 100 := rfl
      have value : (x * 100).toNat = x.toNat * 100 := by rw [BitVec.toNat_mul, hundred, Nat.mod_eq_of_lt small]
      have before : ((idig + 1 : Nat) : Int) - 1 = idig := by omega
      rw [hundreds, if_pos (by omega), before, induction (by rwa [value, ← power]), value, power]

/-- What is collected has the size of its first digit, with a digit for each that follows. -/
theorem collectLoop_size (xi : Index → UInt8) (lo : Index) {x : BitVec 64} (i : Index) {l u : Nat} (idig : Nat)
    (lower : l ≤ x.toNat) (upper : x.toNat + 3 ≤ u) (room : u * 100 ^ idig < 2 ^ 62) :
    let r := collectLoop xi lo x i (idig + 1 : Nat)
    l * 100 ^ idig ≤ (hundreds r.1 r.2.2).toNat ∧ (hundreds r.1 r.2.2).toNat < 2 ^ 62 ∧
      (r.2.1 ≠ lo → hundreds r.1 r.2.2 = r.1) := by
  have before (idig : Nat) : ((idig + 1 : Nat) : Int) - 1 = idig := by omega
  have exit (idig : Nat) {x : BitVec 64} {l u : Nat} (lower : l ≤ x.toNat) (upper : x.toNat + 3 ≤ u)
      (room : u * 100 ^ idig < 2 ^ 62) :
      l * 100 ^ idig ≤ (hundreds x idig).toNat ∧ (hundreds x idig).toNat < 2 ^ 62 := by
    have below : x.toNat * 100 ^ idig ≤ u * 100 ^ idig := Nat.mul_le_mul_right _ (by omega)
    rw [hundreds_eq idig (by omega)]
    exact ⟨Nat.mul_le_mul_right _ lower, by omega⟩
  induction idig generalizing x i l u with
  | zero =>
      have last : ¬(((0 + 1 : Nat) : Int) - 1 > 0 ∧ i ≠ lo) := fun both => absurd both.1 (by decide)
      rw [collectLoop, if_neg last, before]
      dsimp only
      have ⟨least, most⟩ := exit 0 lower upper room
      refine ⟨least, most, fun _ => ?_⟩
      rw [hundreds, if_neg (by decide)]
  | succ idig induction =>
      rw [collectLoop, before]
      split
      · have bound := (xi i).toNat_lt
        have power (n : Nat) : n * 100 ^ (idig + 1) = n * 100 * 100 ^ idig := by ring
        have pos : 0 < 100 ^ idig := Nat.pow_pos (by decide)
        have small : u * 100 < 2 ^ 62 :=
          (Nat.le_mul_of_pos_right (u * 100) pos).trans_lt (power u ▸ room)
        have hundred : (100 : BitVec 64).toNat = 100 := rfl
        have digit : ((xi i).toBitVec.setWidth 64).toNat = (xi i).toNat := by
          rw [BitVec.toNat_setWidth, UInt8.toNat_toBitVec]
          omega
        have value : (x * 100 + (xi i).toBitVec.setWidth 64).toNat = x.toNat * 100 + (xi i).toNat := by
          rw [BitVec.toNat_add, BitVec.toNat_mul, hundred, digit]
          omega
        rw [power l]
        exact induction (x := x * 100 + (xi i).toBitVec.setWidth 64) (DNEXT i) (l := l * 100) (u := u * 100) (by omega)
          (by omega) (by rwa [← power])
      · next last =>
          have ⟨least, most⟩ := exit (idig + 1) lower upper room
          have atEnd : i = lo := by
            by_contra more
            exact last ⟨by omega, more⟩
          exact ⟨least, most, fun more => absurd atEnd more⟩

theorem collect_large {n : Digits} (neg : Bool) (leading : n.Leading) (nine : n.idig = 9) (up : 6 ≤ n.ex2) :
    1076 ≤ (collect n neg).expBits := by
  have bound := (n.xi n.hi).toNat_lt
  have some : (n.xi n.hi).toNat ≠ 0 := fun zero => leading.first (UInt8.toNat_inj.mp zero)
  have digit : ((n.xi n.hi).toBitVec.setWidth 64).toNat = (n.xi n.hi).toNat := by
    rw [BitVec.toNat_setWidth, UInt8.toNat_toBitVec]
    omega
  have size := collectLoop_size n.xi n.lo (DNEXT n.hi) 8 (x := (n.xi n.hi).toBitVec.setWidth 64)
    (l := 1) (u := 258) (by omega) (by omega) (by decide)
  have isNine : ((8 + 1 : Nat) : Int) = n.idig := nine.symm
  rw [isNine] at size
  rw [collect]
  generalize collectLoop n.xi n.lo ((n.xi n.hi).toBitVec.setWidth 64) (DNEXT n.hi) n.idig = r at *
  have ⟨x, i, idig⟩ := r
  have ⟨least, most, whole⟩ := size
  dsimp only at *
  split
  · exact strscan_double_large neg (by omega) (by omega) (by omega)
  · next rest =>
      rw [whole rest] at least most
      have doubled : (x <<< 1).toNat = x.toNat * 2 := by
        rw [BitVec.toNat_shiftLeft, Nat.shiftLeft_eq]
        omega
      have rounded : (x <<< 1 ||| 1).toNat = x.toNat * 2 + 1 := by
        have one : (1 : BitVec 64).toNat = 1 := rfl
        have low := Nat.two_pow_add_eq_or_of_lt (i := 1) (b := 1) (by decide) x.toNat
        rw [BitVec.toNat_or, doubled, one, Nat.mul_comm]
        exact low.symm
      split
      · exact strscan_double_large neg (by omega) (by omega) (by omega)
      · exact strscan_double_large neg (by omega) (by omega) (by omega)

/-! ## The slow path -/

/-- The buffer with the digits of an integer. -/
def loaded (xi : GCstr) : Digits :=
  { xi := fun a => xi.getD a.toNat 0, hi := 0, lo := .ofNat 9 xi.length, idig := xi.length, ex2 := 0 }

theorem loaded_leading {xi : GCstr} (first : xi.headD 0 ≠ 0) (some : xi ≠ []) (short : xi.length < 512) :
    (loaded xi).Leading := by
  constructor
  · cases xi with
    | nil => exact absurd rfl some
    | cons d xi => exact first
  · have pos : 0 < xi.length := List.length_pos_iff.mpr some
    have value : (BitVec.ofNat 9 xi.length).toNat = xi.length := by
      rw [BitVec.toNat_ofNat]
      omega
    have isCount : count (.ofNat 9 xi.length) 0 = xi.length := by
      rw [count]
      bv_omega
    change (xi.length : Int) ≤ count (.ofNat 9 xi.length) 0
    omega

/-- A number of 311 digits or more. -/
theorem slowPath_infinite {xi : GCstr} {ex10 : Int} (neg : Bool) (long : 155 < xi.length) (up : 0 ≤ ex10) :
    1076 ≤ (slowPath xi ex10 neg).expBits := by
  have beyond : (xi.length + ex10 / 2 : Int) > 155 := by omega
  rw [slowPath]
  dsimp only
  rw [if_pos beyond]
  cases neg <;> decide

/-- A number of 19 digits or more, whose first digit is not 0. -/
theorem slowPath_large {xi : GCstr} (neg : Bool) (first : xi.headD 0 ≠ 0) (long : 10 ≤ xi.length) :
    1076 ≤ (slowPath xi 0 neg).expBits := by
  rcases Nat.lt_or_ge 155 xi.length with infinite | short
  · exact slowPath_infinite neg infinite (Int.le_refl 0)
  have some : xi ≠ [] := by
    rintro rfl
    cases long
  have same : (xi.length + 0 / 2 : Int) = xi.length := by omega
  rw [slowPath]
  dsimp only
  rw [same, if_neg (by omega), if_neg (by omega)]
  change 1076 ≤ (collect (scaleDownLoop 512 (scaleUpLoop 512 (loaded xi))) neg).expBits
  have isIdig : (loaded xi).idig = xi.length := rfl
  have few : ¬((loaded xi).idig < 9 ∧ (loaded xi).idig < DLEN (loaded xi).lo (loaded xi).hi) := by omega
  have enough : rounds (loaded xi) ≤ 512 + 18 := by
    rw [rounds]
    split <;> omega
  rw [scaleUpLoop, if_neg few]
  have ⟨leading, nine, up⟩ := scaleDownLoop_leading 512 (loaded_leading first some (by omega)) (by omega) enough
    (Int.le_refl 0) (.inl (by omega))
  exact collect_large neg leading nine up

end TvmJit.Scan
