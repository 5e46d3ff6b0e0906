import Mathlib.Data.Nat.Log
import Mathlib.Tactic.Ring

/-! Rounding of natural numbers to a number of significant bits, to the nearest one and to the
even one of two, and what rounding twice does to the result. -/

namespace Foundation

/-- `n / d`, rounded to the nearest number, halfway cases to the even one. -/
def nearest (n d : Nat) : Nat :=
  if 2 * (n % d) < d then n / d
  else if d < 2 * (n % d) then n / d + 1
  else n / d + n / d % 2

/-- The bits below the `p` leading ones. -/
def excess (p n : Nat) : Nat := n.log2 + 1 - p

/-- `n`, rounded to `p` significant bits. -/
def roundTo (p n : Nat) : Nat := nearest n (2 ^ excess p n) * 2 ^ excess p n

/-- `n` is next to the middle of two multiples of `d`, so near that rounding to multiples of `u`
moves it there, and on the side of the odd one of the two. -/
def Beside (n u d : Nat) : Prop :=
  2 * (n % d) ≠ d ∧ 2 * (n % d) ≤ d + u ∧ d ≤ 2 * (n % d) + u ∧
    (d < 2 * (n % d) ↔ n / d % 2 = 0)

/-- A number of more than `q` bits that rounding to `q` bits moves to the middle of two numbers
of `p` bits, from the side of the odd one. -/
def Straddles (p q n : Nat) : Prop :=
  q < n.log2 + 1 ∧ Beside n (2 ^ excess q n) (2 ^ excess p n)

instance (n u d : Nat) : Decidable (Beside n u d) :=
  inferInstanceAs (Decidable (_ ∧ _ ∧ _ ∧ _))

instance (p q n : Nat) : Decidable (Straddles p q n) := inferInstanceAs (Decidable (_ ∧ _))

/-! ## The nearest multiple -/

section

variable {n d : Nat}

@[simp] theorem nearest_one (n : Nat) : nearest n 1 = n := by
  simp [nearest, Nat.mod_one]

theorem div_le_nearest (n d : Nat) : n / d ≤ nearest n d := by
  unfold nearest
  split
  · rfl
  · split <;> omega

theorem nearest_le (n d : Nat) : nearest n d ≤ n / d + 1 := by
  unfold nearest
  split
  · omega
  · split <;> omega

theorem add_div_unit (a : Nat) {r : Nat} (small : r < d) : (a * d + r) / d = a := by
  rw [Nat.mul_comm, Nat.mul_add_div (by omega), Nat.div_eq_of_lt small, Nat.add_zero]

theorem add_mod_unit (a : Nat) {r : Nat} (small : r < d) : (a * d + r) % d = r := by
  rw [Nat.mul_add_mod_self_right, Nat.mod_eq_of_lt small]

/-- What is added to a multiple of the unit is rounded by itself, up to the parity of the
multiple. -/
theorem nearest_add (a : Nat) {r : Nat} (pos : 0 < d) (small : r ≤ d) :
    nearest (a * d + r) d =
      if 2 * r < d then a else if d < 2 * r then a + 1 else a + a % 2 := by
  rcases Nat.lt_or_eq_of_le small with less | rfl
  · rw [nearest, add_div_unit a less, add_mod_unit a less]
  · have next : a * r + r = (a + 1) * r := by ring
    rw [next, nearest, Nat.mul_mod_left, Nat.mul_div_left _ pos, if_pos (by omega),
      if_neg (by omega), if_pos (by omega)]

/-- A multiple is its own rounding. -/
theorem nearest_mul (a : Nat) (pos : 0 < d) : nearest (a * d) d = a := by
  have exact := nearest_add a pos (Nat.zero_le d)
  rwa [Nat.add_zero, Nat.mul_zero, if_pos pos] at exact

theorem nearest_scale (n d : Nat) {c : Nat} (pos : 0 < c) :
    nearest (n * c) (d * c) = nearest n d := by
  have rest : n * c % (d * c) = n % d * c := Nat.mul_mod_mul_right c n d
  have quotient : n * c / (d * c) = n / d := Nat.mul_div_mul_right n d pos
  have scaled (x y : Nat) : x * c < y * c ↔ x < y := Nat.mul_lt_mul_right pos
  simp only [nearest, rest, quotient, ← Nat.mul_assoc, scaled]

/-- Fine units within a coarse one, which is `4 * c` of them: the rounding goes to one of the two
around, and the middle of the coarse unit is an even one. -/
private theorem nearest_fine {a b t u c : Nat} (tSmall : t < u) :
    ∃ w, nearest (a * (4 * c * u) + (b * u + t)) u * u = a * (4 * c * u) + w ∧
      (w = b * u ∧ (2 * t < u ∨ 2 * t = u ∧ b % 2 = 0) ∨
        w = b * u + u ∧ (u < 2 * t ∨ 2 * t = u ∧ b % 2 = 1)) := by
  have parity : (a * (4 * c) + b) % 2 = b % 2 := by
    have twice : a * (4 * c) = 2 * (a * (2 * c)) := by ring
    omega
  rw [show a * (4 * c * u) + (b * u + t) = (a * (4 * c) + b) * u + t by ring,
    nearest_add _ (by omega) tSmall.le, parity]
  split
  · exact ⟨b * u, by ring, by omega⟩
  · split
    · exact ⟨b * u + u, by ring, by omega⟩
    · rcases Nat.mod_two_eq_zero_or_one b with even | odd
      · exact ⟨b * u, by rw [even]; ring, by omega⟩
      · exact ⟨b * u + u, by rw [odd]; ring, by omega⟩

/-- Where a fine unit is in a coarse one. -/
private theorem fine_position {b u c : Nat} (inside : b * u < 4 * (c * u)) :
    b * u + u ≤ 4 * (c * u) ∧
      (b * u + 2 * u ≤ 2 * (c * u) ∨ b * u + u = 2 * (c * u) ∧ b % 2 = 1 ∨
        b * u = 2 * (c * u) ∧ b % 2 = 0 ∨ 2 * (c * u) + u ≤ b * u) := by
  have below : b < 4 * c := by
    apply Nat.lt_of_mul_lt_mul_right (a := u)
    rwa [Nat.mul_assoc]
  have within : (b + 1) * u ≤ 4 * c * u := Nat.mul_le_mul_right u below
  rw [Nat.add_mul, Nat.mul_assoc 4] at within
  constructor
  · omega
  · rcases Nat.lt_or_ge b (2 * c) with low | high
    · rcases Nat.lt_or_ge (b + 1) (2 * c) with lower | last
      · have gap : (b + 2) * u ≤ 2 * c * u := Nat.mul_le_mul_right u lower
        rw [Nat.add_mul, Nat.mul_assoc 2] at gap
        omega
      · have middle : (b + 1) * u = 2 * c * u := by
          congr 1
          omega
        rw [Nat.add_mul, Nat.mul_assoc 2] at middle
        omega
    · rcases Nat.lt_or_eq_of_le high with higher | same
      · have gap : (2 * c + 1) * u ≤ b * u := Nat.mul_le_mul_right u higher
        rw [Nat.add_mul, Nat.mul_assoc 2] at gap
        omega
      · have middle : b * u = 2 * c * u := by rw [same]
        rw [Nat.mul_assoc 2] at middle
        omega

/-- Rounding to multiples of `u` first and to multiples of `d` then goes wrong only beside a
middle. -/
theorem nearest_twice {u c : Nat} (pos : 0 < u) (cPos : 0 < c) :
    nearest (nearest n u * u) (4 * c * u) = nearest n (4 * c * u) ↔
      ¬ Beside n u (4 * c * u) := by
  have coarse : 0 < 4 * c * u := by
    apply Nat.mul_pos _ pos
    omega
  have unit : u ≤ c * u := Nat.le_mul_of_pos_left u cPos
  -- `n` is `a` coarse units, `b` fine ones and `t`.
  obtain ⟨a, r, rSmall, rfl⟩ : ∃ a r, r < 4 * c * u ∧ a * (4 * c * u) + r = n :=
    ⟨n / (4 * c * u), n % (4 * c * u), Nat.mod_lt _ coarse, Nat.div_add_mod' n _⟩
  obtain ⟨b, t, tSmall, rfl⟩ : ∃ b t, t < u ∧ b * u + t = r :=
    ⟨r / u, r % u, Nat.mod_lt _ pos, Nat.div_add_mod' r _⟩
  obtain ⟨w, first, moved⟩ := nearest_fine (a := a) (b := b) (c := c) tSmall
  have assoc : 4 * c * u = 4 * (c * u) := Nat.mul_assoc 4 c u
  obtain ⟨inside, position⟩ := fine_position (b := b) (u := u) (c := c) (by omega)
  rw [first, nearest_add a coarse (by omega), nearest_add a coarse rSmall.le, Beside,
    add_mod_unit a rSmall, add_div_unit a rSmall, assoc]
  generalize c * u = p at *
  generalize b * u = q at *
  split_ifs <;> omega

end

/-! ## Significant bits -/

section

variable {p q n : Nat}

theorem roundTo_of_short (short : n.log2 + 1 ≤ p) : roundTo p n = n := by
  rw [roundTo, excess, Nat.sub_eq_zero_of_le short, Nat.pow_zero, nearest_one, Nat.mul_one]

/-- The bits of a number above its `k` last ones. -/
theorem leading_bits {k : Nat} (nonzero : n ≠ 0) (within : k ≤ n.log2) :
    2 ^ (n.log2 - k) ≤ n / 2 ^ k ∧ n / 2 ^ k < 2 ^ (n.log2 + 1 - k) := by
  have unit : 0 < 2 ^ k := Nat.two_pow_pos k
  have lower : 2 ^ (n.log2 - k) * 2 ^ k = 2 ^ n.log2 := by
    rw [← Nat.pow_add, Nat.sub_add_cancel within]
  have upper : 2 ^ (n.log2 + 1 - k) * 2 ^ k = 2 ^ (n.log2 + 1) := by
    rw [← Nat.pow_add, Nat.sub_add_cancel (by omega)]
  constructor
  · apply (Nat.le_div_iff_mul_le unit).mpr
    rw [lower]
    exact Nat.log2_self_le nonzero
  · apply (Nat.div_lt_iff_lt_mul unit).mpr
    rw [upper]
    exact Nat.lt_log2_self

/-- Rounding keeps the length, or carries into one more bit. -/
theorem nearest_bounds {k : Nat} (nonzero : n ≠ 0) (within : k ≤ n.log2) :
    2 ^ (n.log2 - k) ≤ nearest n (2 ^ k) ∧ nearest n (2 ^ k) ≤ 2 ^ (n.log2 + 1 - k) := by
  obtain ⟨lower, upper⟩ := leading_bits nonzero within
  have down := div_le_nearest n (2 ^ k)
  have up := nearest_le n (2 ^ k)
  omega

theorem roundTo_bounds (pos : 0 < q) (nonzero : n ≠ 0) :
    2 ^ n.log2 ≤ roundTo q n ∧ roundTo q n ≤ 2 ^ (n.log2 + 1) := by
  have within : excess q n ≤ n.log2 := by
    rw [excess]
    omega
  obtain ⟨lower, upper⟩ := nearest_bounds nonzero within
  constructor
  · calc 2 ^ n.log2 = 2 ^ (n.log2 - excess q n) * 2 ^ excess q n := by
          rw [← Nat.pow_add, Nat.sub_add_cancel within]
      _ ≤ roundTo q n := Nat.mul_le_mul_right _ lower
  · calc roundTo q n ≤ 2 ^ (n.log2 + 1 - excess q n) * 2 ^ excess q n :=
          Nat.mul_le_mul_right _ upper
      _ = 2 ^ (n.log2 + 1) := by
          rw [← Nat.pow_add, Nat.sub_add_cancel (by omega)]

/-- Rounding to fewer bits may use the unit of the number before the rounding to more. -/
theorem roundTo_roundTo_unit (pos : 0 < p) (finer : p ≤ q) (nonzero : n ≠ 0) :
    roundTo p (roundTo q n) =
      nearest (roundTo q n) (2 ^ excess p n) * 2 ^ excess p n := by
  obtain ⟨lower, upper⟩ := roundTo_bounds (q := q) (by omega) nonzero
  have some : roundTo q n ≠ 0 := by
    have := Nat.two_pow_pos n.log2
    omega
  rcases Nat.lt_or_eq_of_le upper with same | carried
  · have length : (roundTo q n).log2 = n.log2 := (Nat.log2_eq_iff some).mpr ⟨lower, same⟩
    rw [roundTo, excess, length, ← excess]
  · have multiple (k : Nat) (within : k ≤ n.log2 + 1) :
        nearest (2 ^ (n.log2 + 1)) (2 ^ k) * 2 ^ k = 2 ^ (n.log2 + 1) := by
      rw [← Nat.sub_add_cancel within, Nat.pow_add, nearest_mul _ (Nat.two_pow_pos k)]
    rw [carried, roundTo, multiple, multiple]
    · rw [excess]
      omega
    · rw [excess, Nat.log2_two_pow]
      omega

/-- Rounding to `q` bits before rounding to `p` bits goes wrong for the numbers that straddle a
middle, and for no others. -/
theorem roundTo_twice (pos : 0 < p) (finer : p + 2 ≤ q) :
    roundTo p (roundTo q n) = roundTo p n ↔ ¬ Straddles p q n := by
  rcases Nat.lt_or_ge q (n.log2 + 1) with long | short
  · have nonzero : n ≠ 0 := by
      rintro rfl
      rw [Nat.log2_zero] at long
      omega
    have apart : 2 ^ excess p n = 4 * 2 ^ (q - p - 2) * 2 ^ excess q n := by
      rw [show excess p n = 2 + (q - p - 2) + excess q n by simp only [excess]; omega, Nat.pow_add,
        Nat.pow_add]
    calc roundTo p (roundTo q n) = roundTo p n
        ↔ nearest (roundTo q n) (2 ^ excess p n) = nearest n (2 ^ excess p n) := by
          rw [roundTo_roundTo_unit pos (by omega) nonzero, roundTo.eq_1 p n]
          exact Nat.mul_left_inj (Nat.two_pow_pos _).ne'
      _ ↔ ¬ Beside n (2 ^ excess q n) (2 ^ excess p n) := by
          rw [apart, roundTo, nearest_twice (Nat.two_pow_pos _) (Nat.two_pow_pos _)]
      _ ↔ ¬ Straddles p q n := not_congr (and_iff_right long).symm
  · rw [roundTo_of_short short]
    exact iff_of_true rfl fun straddles => absurd straddles.1 (Nat.not_lt.mpr short)

end

end Foundation
