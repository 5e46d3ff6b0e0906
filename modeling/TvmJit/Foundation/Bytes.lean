import Mathlib.Tactic.Ring

/-! Integers as bytes in memory, the least significant one first. -/

namespace Foundation

/-- The number in some bytes. -/
def word : List UInt8 → Nat
  | [] => 0
  | byte :: bytes => byte.toNat + 256 * word bytes

/-- The `n` lowest bytes of a number. -/
def ofWord : (n : Nat) → Nat → List UInt8
  | 0, _ => []
  | n + 1, w => UInt8.ofNat w :: ofWord n (w / 256)

/-- The two's complement of an integer in `n` bytes. -/
def ofInteger (n : Nat) (i : Int) : List UInt8 := ofWord n (i % 256 ^ n).toNat

/-- The integer whose two's complement some bytes are. -/
def signedWord (bytes : List UInt8) : Int :=
  if 2 * word bytes < 256 ^ bytes.length then word bytes else word bytes - 256 ^ bytes.length

/-- The integer in some bytes, which may have a sign. -/
def integer (unsigned : Bool) (bytes : List UInt8) : Int :=
  if unsigned then word bytes else signedWord bytes

@[simp] theorem length_ofWord (n w : Nat) : (ofWord n w).length = n := by
  induction n generalizing w with
  | zero => rfl
  | succ n hypothesis => simp [ofWord, hypothesis]

theorem word_lt (bytes : List UInt8) : word bytes < 256 ^ bytes.length := by
  induction bytes with
  | nil => exact Nat.one_pos
  | cons byte bytes hypothesis =>
      have := byte.toNat_lt
      rw [word, List.length_cons, Nat.pow_succ]
      omega

theorem ofWord_word (bytes : List UInt8) : ofWord bytes.length (word bytes) = bytes := by
  induction bytes with
  | nil => rfl
  | cons byte bytes hypothesis =>
      have small := byte.toNat_lt
      rw [List.length_cons, ofWord, word, Nat.add_mul_div_left _ _ (by decide),
        Nat.div_eq_of_lt small, Nat.zero_add, hypothesis]
      congr 1
      apply UInt8.toNat_inj.mp
      simp

theorem word_ofWord (n w : Nat) : word (ofWord n w) = w % 256 ^ n := by
  induction n generalizing w with
  | zero => simp [ofWord, word, Nat.mod_one]
  | succ n hypothesis =>
      rw [ofWord, word, hypothesis, Nat.pow_succ', Nat.mod_mul]
      simp

/-- Only the bytes that are stored matter. -/
theorem ofWord_mod (n w : Nat) : ofWord n (w % 256 ^ n) = ofWord n w := by
  have again := ofWord_word (ofWord n w)
  rwa [length_ofWord, word_ofWord] at again

theorem ofWord_congr {n w w' : Nat} (same : w % 256 ^ n = w' % 256 ^ n) :
    ofWord n w = ofWord n w' := by
  rw [← ofWord_mod, same, ofWord_mod]

/-- Bytes are known by their number. -/
theorem eq_ofWord {bytes : List UInt8} {n w : Nat} (length : bytes.length = n)
    (same : word bytes = w % 256 ^ n) : bytes = ofWord n w := by
  rw [← ofWord_word bytes, length]
  apply ofWord_congr
  rw [same, Nat.mod_mod]

theorem word_append (bytes bytes' : List UInt8) :
    word (bytes ++ bytes') = word bytes + 256 ^ bytes.length * word bytes' := by
  induction bytes with
  | nil => simp [word]
  | cons byte bytes hypothesis =>
      rw [List.cons_append, word, word, hypothesis, List.length_cons]
      ring

theorem word_replicate (n : Nat) (byte : UInt8) :
    255 * word (List.replicate n byte) = byte.toNat * (256 ^ n - 1) := by
  induction n with
  | zero => simp [word]
  | succ n hypothesis =>
      have pos : 0 < 256 ^ n := Nat.pow_pos (by decide)
      obtain ⟨k, power⟩ := Nat.exists_eq_add_of_lt pos
      rw [List.replicate_succ, word, Nat.mul_add, Nat.mul_left_comm, hypothesis, Nat.pow_succ, power]
      have less : (0 + k + 1) * 256 - 1 = 256 * k + 255 := by omega
      rw [less, show 0 + k + 1 - 1 = k by omega]
      ring

/-- The lowest bytes. -/
theorem take_eq_ofWord {bytes : List UInt8} {n : Nat} (less : n ≤ bytes.length) :
    bytes.take n = ofWord n (word bytes) := by
  have length : (bytes.take n).length = n := by simp [less]
  apply eq_ofWord length
  have split := word_append (bytes.take n) (bytes.drop n)
  rw [List.take_append_drop, length] at split
  have small := word_lt (bytes.take n)
  rw [length] at small
  rw [split, Nat.add_mul_mod_self_left, Nat.mod_eq_of_lt small]

/-- The last byte has the sign. -/
theorem signedWord_neg_iff {bytes : List UInt8} {last : UInt8} (isLast : bytes.getLast? = some last) :
    256 ^ bytes.length ≤ 2 * word bytes ↔ 128 ≤ last.toNat := by
  obtain ⟨front, rfl⟩ := List.getLast?_eq_some_iff.mp isLast
  have low := word_lt front
  have single : word [last] = last.toNat := by simp [word]
  rw [word_append, List.length_append, List.length_singleton, Nat.pow_succ, single]
  generalize 256 ^ front.length = unit at *
  constructor
  · intro large
    by_contra small
    have : unit * last.toNat ≤ unit * 127 := Nat.mul_le_mul_left _ (by omega)
    omega
  · intro large
    have : unit * 128 ≤ unit * last.toNat := Nat.mul_le_mul_left _ large
    omega

end Foundation
