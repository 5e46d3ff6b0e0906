import TvmJit.Foundation.Bytes

/-! Words in a memory of bytes, with the least or the greatest byte first, and their bits. -/

namespace Foundation

abbrev Memory := Nat → UInt8

namespace Memory

variable (big : Bool) (n : Nat) (m : Memory) (a : Nat)

/-- The place of the `k`th of `n` bytes or bits, counted from the least one. -/
def place (n k : Nat) : Nat := if big then n - 1 - k else k

/-- A bit of the memory. The bits of a byte are counted the way the bytes of a word are. -/
def bit (k : Nat) : Bool := (m (k / 8)).toNat.testBit (place big 8 (k % 8))

/-- The word in `n` bytes at an address. -/
def load : Nat := word ((List.range n).map fun k => m (a + place big n k))

def store (w : Nat) : Memory := fun b =>
  if a ≤ b ∧ b < a + n then UInt8.ofNat (w / 256 ^ place big n (b - a)) else m b

/-- The `n` bytes at an address. -/
def bytes : List UInt8 := (List.range n).map fun k => m (a + k)

end Memory

/-! ## Bits of words -/

theorem testBit_word (bytes : List UInt8) (k : Nat) :
    (word bytes).testBit k = (bytes.getD (k / 8) 0).toNat.testBit (k % 8) := by
  induction bytes generalizing k with
  | nil => simp [word]
  | cons byte rest induction =>
      have small : byte.toNat < 2 ^ 8 := byte.toNat_lt
      rw [word, show 256 = 2 ^ 8 from rfl, Nat.add_comm, Nat.testBit_two_pow_mul_add _ small]
      split
      · next low => rw [Nat.div_eq_of_lt low, Nat.mod_eq_of_lt low, List.getD_cons_zero]
      · next high =>
          have next : k / 8 = (k - 8) / 8 + 1 := by omega
          have same : k % 8 = (k - 8) % 8 := by omega
          rw [induction, next, same, List.getD_cons_succ]

theorem testBit_ofNat (w k : Nat) (low : k < 8) : (UInt8.ofNat w).toNat.testBit k = w.testBit k := by
  rw [UInt8.toNat_ofNat', Nat.testBit_mod_two_pow, decide_eq_true low, Bool.true_and]

namespace Memory

variable {big : Bool} {n : Nat} {m m' : Memory} {a : Nat}

theorem place_lt {k : Nat} (inside : k < n) : place big n k < n := by
  rw [place]
  split <;> omega

theorem place_place {k : Nat} (inside : k < n) : place big n (place big n k) = k := by
  rw [place, place]
  split <;> omega

/-- The place of a bit of a word is the place of its byte and the place in it. -/
theorem place_bit {p : Nat} (inside : p < 8 * n) :
    (8 * a + place big (8 * n) p) / 8 = a + place big n (p / 8) ∧
      (8 * a + place big (8 * n) p) % 8 = place big 8 (p % 8) := by
  rw [place, place, place]
  split <;> omega

theorem load_lt : load big n m a < 2 ^ (8 * n) := by
  have small := word_lt ((List.range n).map fun k => m (a + place big n k))
  rw [List.length_map, List.length_range, show 256 = 2 ^ 8 from rfl, ← Nat.pow_mul] at small
  exact small

theorem load_testBit {p : Nat} (inside : p < 8 * n) :
    (load big n m a).testBit p = bit big m (8 * a + place big (8 * n) p) := by
  have below : p / 8 < n := Nat.div_lt_of_lt_mul inside
  have low : p % 8 < 8 := Nat.mod_lt _ (by decide)
  have ⟨isByte, isBit⟩ : (8 * a + place big (8 * n) p) / 8 = a + place big n (p / 8) ∧
      (8 * a + place big (8 * n) p) % 8 = place big 8 (p % 8) := place_bit inside
  rw [load, testBit_word, bit, isByte, isBit, place_place low, List.getD_eq_getElem?_getD,
    List.getElem?_map, List.getElem?_range below]
  rfl

/-- What a stored word leaves of the bits. -/
theorem store_bit (w k : Nat) : bit big (store big n m a w) k =
    if 8 * a ≤ k ∧ k < 8 * (a + n) then w.testBit (place big (8 * n) (k - 8 * a)) else bit big m k := by
  have bytes : a ≤ k / 8 ∧ k / 8 < a + n ↔ 8 * a ≤ k ∧ k < 8 * (a + n) := by omega
  rw [bit, store]
  by_cases inside : 8 * a ≤ k ∧ k < 8 * (a + n)
  · have low : k % 8 < 8 := Nat.mod_lt _ (by decide)
    rw [if_pos (bytes.mpr inside), if_pos inside, testBit_ofNat _ _ (place_lt low),
      show 256 = 2 ^ 8 from rfl, ← Nat.pow_mul, Nat.testBit_div_two_pow]
    congr 1
    rw [place, place, place]
    split <;> omega
  · rw [if_neg fun within => inside (bytes.mp within), if_neg inside]
    rfl

/-- Bytes are known by their bits. -/
theorem eq_of_bits (same : ∀ k, 8 * a ≤ k → k < 8 * (a + 1) → bit big m k = bit big m' k) :
    m a = m' a := by
  apply UInt8.toNat_inj.mp
  apply Nat.eq_of_testBit_eq
  intro k
  by_cases low : k < 8
  · have inside : place big 8 k < 8 := place_lt low
    have here := same (8 * a + place big 8 k) (by omega) (by omega)
    have inByte : (8 * a + place big 8 k) / 8 = a := by omega
    have inBit : (8 * a + place big 8 k) % 8 = place big 8 k := by omega
    rw [bit, bit, inByte, inBit, place_place low] at here
    exact here
  · have high (b : UInt8) : b.toNat.testBit k = false := by
      apply Nat.testBit_lt_two_pow
      have wide : 2 ^ 8 ≤ 2 ^ k := Nat.pow_le_pow_right (by decide) (Nat.le_of_not_lt low)
      exact b.toNat_lt.trans_le wide
    rw [high, high]

theorem bytes_eq (big : Bool) (same : ∀ k, 8 * a ≤ k → k < 8 * (a + n) → bit big m k = bit big m' k) :
    bytes n m a = bytes n m' a := by
  apply List.map_congr_left
  intro k member
  have inside := List.mem_range.mp member
  exact eq_of_bits fun j least most => same j (by omega) (by omega)

/-- The other way round. -/
theorem bits_eq (same : bytes n m a = bytes n m' a) {k : Nat} (least : 8 * a ≤ k)
    (most : k < 8 * (a + n)) : bit big m k = bit big m' k := by
  have here := List.map_inj_left.mp same (k / 8 - a) (List.mem_range.mpr (by omega))
  rw [show a + (k / 8 - a) = k / 8 by omega] at here
  rw [bit, bit, here]

end Memory

end Foundation
