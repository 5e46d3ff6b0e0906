import TvmJit.Str.Strings

/-! Comparing and hashing strings. Both depend on the bytes of a string alone. -/

namespace TvmJit

/-! ## Words -/

theorem toNat_word (a b c d : BitVec 8) :
    (a ++ b ++ c ++ d).toNat = a.toNat * 2 ^ 24 + b.toNat * 2 ^ 16 + c.toNat * 2 ^ 8 + d.toNat := by
  have bLt := b.isLt
  have cLt := c.isLt
  have dLt := d.isLt
  rw [BitVec.toNat_append, BitVec.toNat_append, BitVec.toNat_append,
    ← Nat.shiftLeft_add_eq_or_of_lt bLt, ← Nat.shiftLeft_add_eq_or_of_lt cLt,
    ← Nat.shiftLeft_add_eq_or_of_lt dLt]
  simp only [Nat.shiftLeft_eq]
  omega

section

variable [Target] {a b : Nat → BitVec 8} {len i n : Nat}

/-- The first bytes of a word, moved to where the others are lost. -/
def firstBytes (n : Nat) (v : BitVec 32) : BitVec 32 :=
  if Target.LJ_LE then v <<< (32 - 8 * n) else v >>> (32 - 8 * n)

theorem firstBytes_four (v : BitVec 32) : firstBytes 4 v = v := by
  rw [firstBytes]
  cases Target.LJ_LE <;> simp

theorem firstBytes_eq_zero (d : Nat → BitVec 8) (some : 0 < n) (few : n ≤ 4) :
    firstBytes n (lj_getu32 d 0) = 0 ↔ ∀ k < n, d k = 0 := by
  have small (k : Nat) := (d k).isLt
  have d0 := small 0
  have d1 := small 1
  have d2 := small 2
  have d3 := small 3
  obtain rfl | rfl | rfl | rfl : n = 1 ∨ n = 2 ∨ n = 3 ∨ n = 4 := by omega
  all_goals
    rw [firstBytes, lj_getu32]
    cases Target.LJ_LE <;>
      simp only [if_true, Bool.false_eq_true, if_false, BitVec.toNat_eq, BitVec.toNat_shiftLeft,
        BitVec.toNat_ushiftRight, Nat.shiftLeft_eq, Nat.shiftRight_eq_div_pow, toNat_word,
        Nat.forall_lt_succ_right, Nat.not_lt_zero, IsEmpty.forall_iff, implies_true, true_and,
        Nat.zero_add, BitVec.ofNat_eq_ofNat, BitVec.toNat_ofNat, Nat.reduceMul, Nat.reduceSub,
        Nat.reducePow, Nat.zero_mod] <;>
      omega

theorem getu32_xor (a b : Nat → BitVec 8) (i : Nat) :
    lj_getu32 a i ^^^ lj_getu32 b i = lj_getu32 (fun k => a (i + k) ^^^ b (i + k)) 0 := by
  have word (w x y z w' x' y' z' : BitVec 8) : (w ++ x ++ y ++ z) ^^^ (w' ++ x' ++ y' ++ z') =
      (w ^^^ w') ++ (x ^^^ x') ++ (y ^^^ y') ++ (z ^^^ z') := by
    rw [BitVec.xor_append, BitVec.xor_append, BitVec.xor_append]
  rw [lj_getu32, lj_getu32, lj_getu32]
  split <;> exact word ..

theorem firstBytes_xor (some : 0 < n) (few : n ≤ 4) :
    firstBytes n (lj_getu32 a i ^^^ lj_getu32 b i) = 0 ↔ ∀ k < n, a (i + k) = b (i + k) := by
  rw [getu32_xor, firstBytes_eq_zero _ some few]
  exact forall₂_congr fun k _ => BitVec.xor_eq_zero_iff

theorem getu32_eq_iff :
    lj_getu32 a i ^^^ lj_getu32 b i = 0 ↔ ∀ k < 4, a (i + k) = b (i + k) := by
  rw [← firstBytes_xor (by omega) (by omega), firstBytes_four]

theorem getu32_congr (same : ∀ k < 4, a (i + k) = b (i + k)) : lj_getu32 a i = lj_getu32 b i :=
  BitVec.xor_eq_zero_iff.mp (getu32_eq_iff.mpr same)

/-! ## Comparing -/

/-- The loop compares the bytes from `i` on. -/
theorem fastcmpLoop_eq_zero (inside : i < len) :
    fastcmpLoop a b len i = 0 ↔ ∀ j, i ≤ j → j < len → a j = b j := by
  have shifted (i n : Nat) :
      (∀ k < n, a (i + k) = b (i + k)) ↔ ∀ j, i ≤ j → j < i + n → a j = b j := by
    constructor
    · intro same j above below
      have := same (j - i) (by omega)
      rwa [Nat.add_sub_cancel' above] at this
    · exact fun same k below => same (i + k) (by omega) (by omega)
  fun_induction fastcmpLoop a b len i with
  | case1 i v differs few little =>
      have last : firstBytes (len - i) v = v <<< (32 - 8 * (len - i)) := if_pos little
      rw [← last, firstBytes_xor (by omega) (by omega), shifted, Nat.add_sub_cancel' (by omega)]
  | case2 i v differs few big =>
      have last : firstBytes (len - i) v = v >>> (32 - 8 * (len - i)) := if_neg big
      rw [← last, firstBytes_xor (by omega) (by omega), shifted, Nat.add_sub_cancel' (by omega)]
  | case3 i v differs many =>
      refine iff_of_false (by decide) fun same => differs ?_
      rw [getu32_eq_iff, shifted]
      exact fun j above below => same j above (by omega)
  | case4 i v equal more induction =>
      have word := (shifted i 4).mp (getu32_eq_iff.mp (not_not.mp equal))
      refine (induction more).trans ⟨fun same j above below => ?_, fun same j above below => same j (by omega) below⟩
      rcases Nat.lt_or_ge j (i + 4) with first | later
      · exact word j above first
      · exact same j later below
  | case5 i v equal last =>
      have word := (shifted i 4).mp (getu32_eq_iff.mp (not_not.mp equal))
      exact iff_of_true rfl fun j above below => word j above (by omega)

theorem str_fastcmp_eq_zero (some : 0 < len) : str_fastcmp a b len = 0 ↔ ∀ j < len, a j = b j := by
  rw [str_fastcmp, fastcmpLoop_eq_zero some]
  simp

theorem sameBytes_iff {str : CharPtr} (some : 0 < len) :
    sameBytes str b len = true ↔ ∀ j < len, str.byte j = b j := by
  rw [sameBytes]
  split
  · rw [decide_eq_true_iff, str_fastcmp_eq_zero some]
  · simp [memcmp]

/-! ## Hashing -/

theorem strHash_congr (same : ∀ j < len, a j = b j) (some : 0 < len) :
    strHash a len = strHash b len := by
  have word (i : Nat) (inside : i + 4 ≤ len) : lj_getu32 a i = lj_getu32 b i :=
    getu32_congr fun k below => same (i + k) (by omega)
  rw [strHash, strHash]
  split
  · rw [word 0 (by omega), word (len - 4) (by omega), word (len / 2 - 2) (by omega),
      word (len / 4 - 1) (by omega)]
  · rw [same 0 some, same (len - 1) (by omega), same (len / 2) (by omega)]

end

end TvmJit
