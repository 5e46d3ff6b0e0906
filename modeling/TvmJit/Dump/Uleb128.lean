import TvmJit.Token
import TvmJit.Foundation.Leb128
import Mathlib.Tactic.IntervalCases

/-! Numbers in bytecode dumps: ULEB128 values of 32 bits, and number constants whose low word
has a flag in front, which makes 33 bits. -/

namespace TvmJit

open Foundation

/-! ## Writing -/

/-- `lj_strfmt_wuleb128`: the bytes that are written. -/
def lj_strfmt_wuleb128 (v : BitVec 32) : GCstr :=
  if v ≥ 0x80 then .ofBitVec ((v &&& 0x7f ||| 0x80).setWidth 8) :: lj_strfmt_wuleb128 (v >>> 7)
  else [.ofBitVec (v.setWidth 8)]
termination_by v.toNat
decreasing_by
  rw [BitVec.toNat_ushiftRight, Nat.shiftRight_eq_div_pow]
  have large : 0x80 ≤ v.toNat := by assumption
  omega

/-- `p[-1] = …`. -/
def patchLast (bytes : GCstr) (patch : UInt8 → UInt8) : GCstr :=
  bytes.dropLast ++ (bytes.getLast?.map patch).toList

/-- The `save_int` case of `bcwrite_knum`. -/
def bcwriteInt (k : BitVec 32) : GCstr :=
  let p := lj_strfmt_wuleb128 (2 * k ||| k &&& 0x80000000)
  if k.toInt < 0 then
    patchLast p fun last => last &&& 7 ||| .ofBitVec ((k.sshiftRight 27 &&& 0x18#32).setWidth 8)
  else p

/-- The low word of a number in `bcwrite_knum`. -/
def bcwriteLo (lo : BitVec 32) : GCstr :=
  let p := lj_strfmt_wuleb128 (1 + (2 * lo ||| lo &&& 0x80000000))
  if lo ≥ 0x80000000 then
    patchLast p fun last => last &&& 7 ||| .ofBitVec ((lo >>> 27 &&& 0x18#32).setWidth 8)
  else p

/-- The size prefix of `bcwrite_proto`, for a number that is not 0. -/
def prefixSize (n : BitVec 32) : BitVec 32 := ((BitVec.ofNat 32 n.toNat.log2 + 8) * 9) >>> 6

/-! ## Reading -/

/-- The loop of the readers. A shift is by the lowest five bits of its count. -/
def ulebLoop : Int → BitVec 32 → GCstr → Option (BitVec 32 × GCstr)
  | _, _, [] => none
  | sh, v, b :: p =>
      let sh := sh + 7
      let v := v ||| (b &&& 0x7f).toBitVec.setWidth 32 <<< (sh % 32).toNat
      if b ≥ 0x80 then ulebLoop sh v p else some (v, p)

/-- `lj_buf_ruleb128`. -/
def lj_buf_ruleb128 : GCstr → Option (BitVec 32 × GCstr)
  | [] => none
  | b :: p =>
      let v := b.toBitVec.setWidth 32
      if v ≥ 0x80 then ulebLoop 0 (v &&& 0x7f) p else some (v, p)

/-- `bcread_uleb128_33`. -/
def bcread_uleb128_33 : GCstr → Option (BitVec 32 × GCstr)
  | [] => none
  | b :: p =>
      let v := (b >>> 1).toBitVec.setWidth 32
      if v ≥ 0x40 then ulebLoop (-1) (v &&& 0x3f) p else some (v, p)

/-! ## Number constants -/

/-- A number constant, which is an integer where it has the value of one. -/
inductive KNum
  | int (k : BitVec 32)
  | num (lo hi : BitVec 32)

def KNum.write : KNum → GCstr
  | .int k => bcwriteInt k
  | .num lo hi => bcwriteLo lo ++ lj_strfmt_wuleb128 hi

/-- `bcwrite_knum`: the bytes that are written. -/
def bcwrite_knum (constants : List KNum) : GCstr := constants.flatMap KNum.write

/-- `bcread_knum`. -/
def bcread_knum : Nat → GCstr → Option (List KNum × GCstr)
  | 0, p => some ([], p)
  | sizekn + 1, p => do
      let isnum := (← p.head?) &&& 1
      let (lo, p) ← bcread_uleb128_33 p
      if isnum ≠ 0 then do
        let (hi, p) ← lj_buf_ruleb128 p
        let (constants, p) ← bcread_knum sizekn p
        some (.num lo hi :: constants, p)
      else do
        let (constants, p) ← bcread_knum sizekn p
        some (.int lo :: constants, p)

/-! ## What is written -/

theorem toNat_and_mask (v : BitVec 32) {bits : Nat} (mask : BitVec 32) (isMask : mask.toNat = 2 ^ bits - 1) :
    (v &&& mask).toNat = v.toNat % 2 ^ bits := by
  rw [BitVec.toNat_and, isMask, Nat.and_two_pow_sub_one_eq_mod]

theorem wuleb128_eq_leb (v : BitVec 32) : lj_strfmt_wuleb128 v = leb v.toNat := by
  fun_induction lj_strfmt_wuleb128 v with
  | case1 v large induction =>
      have large : 128 ≤ v.toNat := large
      have group : (v &&& 0x7f ||| 0x80).toNat = v.toNat % 128 + 128 := by
        have high : (0x80 : BitVec 32).toNat = 2 ^ 7 * 1 := rfl
        rw [BitVec.toNat_or, toNat_and_mask v 0x7f (rfl : _ = 2 ^ 7 - 1), high, Nat.or_comm,
          ← Nat.two_pow_add_eq_or_of_lt (Nat.mod_lt _ (by decide))]
        exact Nat.add_comm _ _
      have byte : UInt8.ofBitVec ((v &&& 0x7f ||| 0x80).setWidth 8) = .ofNat (v.toNat % 128 + 128) := by
        apply UInt8.toNat_inj.mp
        rw [UInt8.toNat_ofBitVec, BitVec.toNat_setWidth, group, UInt8.toNat_ofNat']
      have rest : (v >>> 7).toNat = v.toNat / 128 := by
        rw [BitVec.toNat_ushiftRight, Nat.shiftRight_eq_div_pow]
      rw [leb_large large, byte, induction, rest]
  | case2 v small =>
      have small : ¬128 ≤ v.toNat := small
      rw [leb_small (by omega)]
      rfl

/-- The highest of 32 bits is set. -/
theorem or_high {x : Nat} (small : x < 2 ^ 32) : x ||| 2 ^ 31 = 2 ^ 31 + x % 2 ^ 31 := by
  have below : x % 2 ^ 31 < 2 ^ 31 := Nat.mod_lt _ (by decide)
  have set := Nat.two_pow_add_eq_or_of_lt below 1
  rw [Nat.mul_one] at set
  rcases Nat.lt_or_ge x (2 ^ 31) with less | more
  · rw [set, Nat.mod_eq_of_lt less, Nat.or_comm]
  · have isSet : x = 2 ^ 31 ||| x % 2 ^ 31 := by omega
    rw [set]
    nth_rewrite 1 [isSet]
    rw [Nat.or_comm, ← Nat.or_assoc, Nat.or_self]

/-- The lower 32 of 33 bits, with the highest of them set. -/
theorem toNat_flagged (k : BitVec 32) (high : 2 ^ 31 ≤ k.toNat) :
    (2 * k ||| k &&& 0x80000000).toNat = 2 ^ 31 + 2 * k.toNat % 2 ^ 31 := by
  have top : (k &&& 0x80000000).toNat = 2 ^ 31 := by
    have isHigh : (0x80000000 : BitVec 32).toNat = 2 ^ 31 := rfl
    have odd : k.toNat / 2 ^ 31 % 2 = 1 := by omega
    rw [BitVec.toNat_and, isHigh, Nat.and_two_pow, Nat.testBit_eq_decide_div_mod_eq, odd]
    rfl
  have double : (2 * k).toNat = 2 * k.toNat % 2 ^ 32 := BitVec.toNat_mul ..
  rw [BitVec.toNat_or, top, double, or_high (Nat.mod_lt _ (by decide)),
    Nat.mod_mod_of_dvd _ (by decide)]

theorem toNat_unflagged (k : BitVec 32) (low : k.toNat < 2 ^ 31) :
    (2 * k ||| k &&& 0x80000000).toNat = 2 * k.toNat := by
  have top : (k &&& 0x80000000).toNat = 0 := by
    have isHigh : (0x80000000 : BitVec 32).toNat = 2 ^ 31 := rfl
    have even : k.toNat / 2 ^ 31 % 2 = 0 := by omega
    rw [BitVec.toNat_and, isHigh, Nat.and_two_pow, Nat.testBit_eq_decide_div_mod_eq, even]
    rfl
  have double : (2 * k).toNat = 2 * k.toNat % 2 ^ 32 := BitVec.toNat_mul ..
  rw [BitVec.toNat_or, top, double, Nat.or_zero, Nat.mod_eq_of_lt (by omega)]

/-- The last byte with two more bits. -/
theorem patched_byte : ∀ a < 16, ∀ c < 32,
    UInt8.ofNat a &&& 7 ||| .ofNat (c &&& 0x18) = .ofNat (a % 8 + c / 8 * 8) := by
  decide +kernel

/-- Writing 33 bits as 32 bits and a patch of the last byte. -/
theorem patchLast_wuleb128 {v k : BitVec 32} {b : Nat} {patch : UInt8} (bit : b < 2) (high : 2 ^ 31 ≤ k.toNat)
    (written : v.toNat = 2 ^ 31 + 2 * k.toNat % 2 ^ 31 + b)
    (isPatch : patch = .ofNat (k.toNat / 2 ^ 27 &&& 0x18)) :
    patchLast (lj_strfmt_wuleb128 v) (fun last => last &&& 7 ||| patch) = leb (2 * k.toNat + b) := by
  have small := k.isLt
  have parts : leb v.toNat = groups 4 v.toNat ++ [.ofNat (v.toNat / 128 ^ 4)] := leb_eq_groups (by omega) (by omega)
  have parts' : leb (2 * k.toNat + b) = groups 4 (2 * k.toNat + b) ++ [.ofNat ((2 * k.toNat + b) / 128 ^ 4)] :=
    leb_eq_groups (by omega) (by omega)
  have front : groups 4 v.toNat = groups 4 (2 * k.toNat + b) := groups_congr (by omega)
  have last := patched_byte (v.toNat / 128 ^ 4) (by omega) (k.toNat / 2 ^ 27) (by omega)
  have bits : v.toNat / 128 ^ 4 % 8 + k.toNat / 2 ^ 27 / 8 * 8 = (2 * k.toNat + b) / 128 ^ 4 := by omega
  rw [wuleb128_eq_leb, patchLast, parts, parts', List.dropLast_concat, List.getLast?_concat, front,
    Option.map_some, Option.toList_some, isPatch, last, bits]

/-- The two bits that the patch adds. -/
theorem patch_bits (k : BitVec 32) :
    UInt8.ofBitVec ((k >>> 27 &&& 0x18#32).setWidth 8) = .ofNat (k.toNat / 2 ^ 27 &&& 0x18) := by
  apply UInt8.toNat_inj.mp
  rw [UInt8.toNat_ofBitVec, BitVec.toNat_setWidth, BitVec.toNat_and, BitVec.toNat_ushiftRight,
    Nat.shiftRight_eq_div_pow, UInt8.toNat_ofNat']
  rfl

/-- They are below the sign. -/
theorem sshiftRight_bits (k : BitVec 32) : k.sshiftRight 27 &&& 0x18#32 = k >>> 27 &&& 0x18#32 := by
  apply BitVec.eq_of_getLsbD_eq
  intro i inside
  rw [BitVec.getLsbD_and, BitVec.getLsbD_and, BitVec.getLsbD_sshiftRight, BitVec.getLsbD_ushiftRight]
  rcases Nat.lt_or_ge i 5 with bit | none
  · have here : 27 + i < 32 := by omega
    simp [here, Nat.not_le_of_lt inside]
  · have clear : (0x18#32).getLsbD i = false := by
      interval_cases i <;> rfl
    rw [clear, Bool.and_false, Bool.and_false]

/-- An integer is written with a 0 in front. -/
theorem bcwriteInt_eq_leb (k : BitVec 32) : bcwriteInt k = leb (2 * k.toNat) := by
  have sign : k.toInt < 0 ↔ 2 ^ 31 ≤ k.toNat := by
    rw [BitVec.toInt_neg_iff]
    omega
  unfold bcwriteInt
  split
  · next negative =>
      have high := sign.mp negative
      have patch : UInt8.ofBitVec ((k.sshiftRight 27 &&& 0x18#32).setWidth 8) = .ofNat (k.toNat / 2 ^ 27 &&& 0x18) := by
        rw [sshiftRight_bits, patch_bits]
      exact patchLast_wuleb128 (by decide : 0 < 2) high (toNat_flagged k high) patch
  · next positive =>
      have low : k.toNat < 2 ^ 31 := Nat.lt_of_not_le fun high => positive (sign.mpr high)
      rw [wuleb128_eq_leb, toNat_unflagged k low]

/-- The low word of a number is written with a 1 in front. -/
theorem bcwriteLo_eq_leb (lo : BitVec 32) : bcwriteLo lo = leb (2 * lo.toNat + 1) := by
  have plus (v : BitVec 32) (fits : v.toNat + 1 < 2 ^ 32) : (1 + v).toNat = v.toNat + 1 := by
    have one : (1 : BitVec 32).toNat = 1 := rfl
    rw [BitVec.toNat_add, one, Nat.add_comm, Nat.mod_eq_of_lt fits]
  unfold bcwriteLo
  split
  · next high =>
      have high : 2 ^ 31 ≤ lo.toNat := high
      have flagged := toNat_flagged lo high
      have written := plus (2 * lo ||| lo &&& 0x80000000) (by omega)
      rw [flagged] at written
      exact patchLast_wuleb128 (by decide : 1 < 2) high written (patch_bits lo)
  · next low =>
      have low : lo.toNat < 2 ^ 31 := Nat.lt_of_not_le low
      have unflagged := toNat_unflagged lo low
      rw [wuleb128_eq_leb, plus _ (by omega), unflagged]

/-! ## What is read -/

/-- The loop reads the groups of a number behind those that have been read. -/
theorem ulebLoop_leb {sh : Nat} {v : BitVec 32} {m : Nat} (rest : GCstr) (few : sh < 32)
    (below : v.toNat < 2 ^ sh) (fits : v.toNat + m * 2 ^ sh < 2 ^ 32) :
    ulebLoop (sh - 7) v (leb m ++ rest) = some (.ofNat 32 (v.toNat + m * 2 ^ sh), rest) := by
  induction m using Nat.strong_induction_on generalizing sh v with
  | _ m induction =>
      have isShift : (((sh : Int) - 7 + 7) % 32).toNat = sh := by omega
      have group (b : UInt8) {x : Nat} (byte : b.toNat % 128 = x) (inside : v.toNat + x * 2 ^ sh < 2 ^ 32) :
          (v ||| (b &&& 0x7f).toBitVec.setWidth 32 <<< (((sh : Int) - 7 + 7) % 32).toNat).toNat =
            v.toNat + x * 2 ^ sh := by
        have low : ((b &&& 0x7f).toBitVec.setWidth 32).toNat = x := by
          have mask : (0x7f : UInt8).toNat = 2 ^ 7 - 1 := rfl
          rw [BitVec.toNat_setWidth, UInt8.toNat_toBitVec, UInt8.toNat_and, mask,
            Nat.and_two_pow_sub_one_eq_mod]
          omega
        rw [isShift, BitVec.toNat_or, BitVec.toNat_shiftLeft, low, Nat.shiftLeft_eq,
          Nat.mod_eq_of_lt (by omega), Nat.or_comm, ← Nat.shiftLeft_eq,
          ← Nat.shiftLeft_add_eq_or_of_lt below, Nat.add_comm]
      rcases Nat.lt_or_ge m 128 with small | large
      · have isByte : (UInt8.ofNat m).toNat = m := by rw [UInt8.toNat_ofNat', Nat.mod_eq_of_lt (by omega)]
        have last : ¬UInt8.ofNat m ≥ 0x80 := by
          change ¬128 ≤ (UInt8.ofNat m).toNat
          omega
        rw [leb_small small, List.singleton_append, ulebLoop]
        rw [if_neg last]
        congr 2
        apply BitVec.eq_of_toNat_eq
        rw [group _ (by omega) fits, BitVec.toNat_ofNat, Nat.mod_eq_of_lt fits]
      · have isByte : (UInt8.ofNat (m % 128 + 128)).toNat = m % 128 + 128 := by
          rw [UInt8.toNat_ofNat', Nat.mod_eq_of_lt (by omega)]
        have more : UInt8.ofNat (m % 128 + 128) ≥ 0x80 := by
          change 128 ≤ (UInt8.ofNat (m % 128 + 128)).toNat
          omega
        have power : 2 ^ (sh + 7) = 2 ^ sh * 128 := Nat.pow_add ..
        have parts : m * 2 ^ sh = m % 128 * 2 ^ sh + m / 128 * 2 ^ (sh + 7) := by
          rw [power]
          nth_rewrite 1 [← Nat.mod_add_div m 128]
          ring
        have digit : (m % 128 + 1) * 2 ^ sh ≤ 128 * 2 ^ sh := Nat.mul_le_mul_right _ (by omega)
        rw [Nat.add_mul] at digit
        have room : 2 ^ (sh + 7) ≤ m / 128 * 2 ^ (sh + 7) := Nat.le_mul_of_pos_left _ (by omega)
        have few' : sh + 7 < 32 := (Nat.pow_lt_pow_iff_right (by decide : 1 < 2)).mp (by omega)
        have value := group (UInt8.ofNat (m % 128 + 128)) (x := m % 128) (by omega) (by omega)
        have next : ((sh + 7 : Nat) : Int) - 7 = (sh : Int) - 7 + 7 := by omega
        have behind := induction (m / 128) (by omega) few' (by rw [value]; omega) (by rw [value]; omega)
        rw [next, value, Nat.add_assoc, ← parts] at behind
        rw [leb_large large, List.cons_append, ulebLoop, if_pos more]
        exact behind

/-- The reader of 32 bits. -/
theorem ruleb128_leb {m : Nat} (fits : m < 2 ^ 32) (rest : GCstr) :
    lj_buf_ruleb128 (leb m ++ rest) = some (.ofNat 32 m, rest) := by
  rcases Nat.lt_or_ge m 128 with small | large
  · have low : ¬(UInt8.ofNat m).toBitVec.setWidth 32 ≥ (0x80 : BitVec 32) := by
      change ¬128 ≤ ((UInt8.ofNat m).toBitVec.setWidth 32).toNat
      rw [BitVec.toNat_setWidth, UInt8.toNat_toBitVec, UInt8.toNat_ofNat']
      omega
    have value : (UInt8.ofNat m).toBitVec.setWidth 32 = .ofNat 32 m := by
      apply BitVec.eq_of_toNat_eq
      rw [BitVec.toNat_setWidth, UInt8.toNat_toBitVec, UInt8.toNat_ofNat', BitVec.toNat_ofNat]
      omega
    rw [leb_small small, List.singleton_append, lj_buf_ruleb128, if_neg low, value]
  · have first : ((UInt8.ofNat (m % 128 + 128)).toBitVec.setWidth 32).toNat = m % 128 + 128 := by
      rw [BitVec.toNat_setWidth, UInt8.toNat_toBitVec, UInt8.toNat_ofNat']
      omega
    have more : (UInt8.ofNat (m % 128 + 128)).toBitVec.setWidth 32 ≥ (0x80 : BitVec 32) := by
      change 128 ≤ ((UInt8.ofNat (m % 128 + 128)).toBitVec.setWidth 32).toNat
      rw [first]
      exact Nat.le_add_left ..
    have value : ((UInt8.ofNat (m % 128 + 128)).toBitVec.setWidth 32 &&& 0x7f).toNat = m % 128 := by
      rw [toNat_and_mask _ 0x7f (rfl : _ = 2 ^ 7 - 1), first]
      omega
    have behind := ulebLoop_leb (m := m / 128) rest (by decide : 7 < 32) (by rw [value]; omega) (by rw [value]; omega)
    have whole : m % 128 + m / 128 * 2 ^ 7 = m := by omega
    rw [value, whole] at behind
    rw [leb_large large, List.cons_append, lj_buf_ruleb128, if_pos more]
    exact behind

/-- The reader of 33 bits. -/
theorem uleb128_33_leb {m : Nat} (fits : m < 2 ^ 33) (rest : GCstr) :
    bcread_uleb128_33 (leb m ++ rest) = some (.ofNat 32 (m / 2), rest) := by
  have isOne : (1 : UInt8).toNat % 8 = 1 := rfl
  rcases Nat.lt_or_ge m 128 with small | large
  · have first : ((UInt8.ofNat m >>> 1).toBitVec.setWidth 32).toNat = m / 2 := by
      rw [BitVec.toNat_setWidth, UInt8.toNat_toBitVec, UInt8.toNat_shiftRight, UInt8.toNat_ofNat',
        isOne, Nat.shiftRight_eq_div_pow]
      omega
    have low : ¬(UInt8.ofNat m >>> 1).toBitVec.setWidth 32 ≥ (0x40 : BitVec 32) := by
      change ¬64 ≤ ((UInt8.ofNat m >>> 1).toBitVec.setWidth 32).toNat
      rw [first]
      omega
    have value : (UInt8.ofNat m >>> 1).toBitVec.setWidth 32 = .ofNat 32 (m / 2) := by
      apply BitVec.eq_of_toNat_eq
      rw [first, BitVec.toNat_ofNat]
      omega
    rw [leb_small small, List.singleton_append, bcread_uleb128_33, if_neg low, value]
  · have first : ((UInt8.ofNat (m % 128 + 128) >>> 1).toBitVec.setWidth 32).toNat = m % 128 / 2 + 64 := by
      rw [BitVec.toNat_setWidth, UInt8.toNat_toBitVec, UInt8.toNat_shiftRight, UInt8.toNat_ofNat',
        isOne, Nat.shiftRight_eq_div_pow]
      omega
    have more : (UInt8.ofNat (m % 128 + 128) >>> 1).toBitVec.setWidth 32 ≥ (0x40 : BitVec 32) := by
      change 64 ≤ ((UInt8.ofNat (m % 128 + 128) >>> 1).toBitVec.setWidth 32).toNat
      rw [first]
      exact Nat.le_add_left ..
    have value : ((UInt8.ofNat (m % 128 + 128) >>> 1).toBitVec.setWidth 32 &&& 0x3f).toNat = m % 128 / 2 := by
      rw [toNat_and_mask _ 0x3f (rfl : _ = 2 ^ 6 - 1), first]
      omega
    have behind := ulebLoop_leb (m := m / 128) rest (by decide : 6 < 32) (by rw [value]; omega) (by rw [value]; omega)
    have whole : m % 128 / 2 + m / 128 * 2 ^ 6 = m / 2 := by omega
    rw [value, whole] at behind
    rw [leb_large large, List.cons_append, bcread_uleb128_33, if_pos more]
    exact behind

/-! ## Round trips -/

theorem ofNat_toNat_double (k : BitVec 32) (b : Nat) (bit : b < 2) :
    BitVec.ofNat 32 ((2 * k.toNat + b) / 2) = k := by
  have half : (2 * k.toNat + b) / 2 = k.toNat := by omega
  rw [half, BitVec.ofNat_toNat, BitVec.setWidth_eq]

theorem ruleb128_wuleb128 (v : BitVec 32) (rest : GCstr) :
    lj_buf_ruleb128 (lj_strfmt_wuleb128 v ++ rest) = some (v, rest) := by
  rw [wuleb128_eq_leb, ruleb128_leb v.isLt, BitVec.ofNat_toNat, BitVec.setWidth_eq]

/-- The lowest bit is in the first byte. -/
theorem head_leb (m : Nat) (rest : GCstr) :
    ∃ first, (leb m ++ rest).head? = some first ∧ first &&& 1 = .ofNat (m % 2) := by
  have bit (x : Nat) (same : x % 2 = m % 2) : UInt8.ofNat x &&& 1 = .ofNat (m % 2) := by
    have one : (1 : UInt8).toNat = 2 ^ 1 - 1 := rfl
    apply UInt8.toNat_inj.mp
    rw [UInt8.toNat_and, one, Nat.and_two_pow_sub_one_eq_mod, UInt8.toNat_ofNat', UInt8.toNat_ofNat']
    omega
  rcases Nat.lt_or_ge m 128 with small | large
  · exact ⟨.ofNat m, by rw [leb_small small]; rfl, bit m rfl⟩
  · exact ⟨.ofNat (m % 128 + 128), by rw [leb_large large]; rfl, bit _ (by omega)⟩

/-- It tells an integer from a number. -/
theorem head_bcwriteInt (k : BitVec 32) (rest : GCstr) :
    ∃ first, (bcwriteInt k ++ rest).head? = some first ∧ first &&& 1 = 0 := by
  have even : 2 * k.toNat % 2 = 0 := by omega
  have first := head_leb (2 * k.toNat) rest
  rw [even] at first
  rw [bcwriteInt_eq_leb]
  exact first

theorem head_bcwriteLo (lo : BitVec 32) (rest : GCstr) :
    ∃ first, (bcwriteLo lo ++ rest).head? = some first ∧ first &&& 1 = 1 := by
  have odd : (2 * lo.toNat + 1) % 2 = 1 := by omega
  have first := head_leb (2 * lo.toNat + 1) rest
  rw [odd] at first
  rw [bcwriteLo_eq_leb]
  exact first

theorem uleb128_33_bcwriteInt (k : BitVec 32) (rest : GCstr) :
    bcread_uleb128_33 (bcwriteInt k ++ rest) = some (k, rest) := by
  have small := k.isLt
  have double := ofNat_toNat_double k 0 (by decide)
  rw [Nat.add_zero] at double
  rw [bcwriteInt_eq_leb, uleb128_33_leb (by omega), double]

theorem uleb128_33_bcwriteLo (lo : BitVec 32) (rest : GCstr) :
    bcread_uleb128_33 (bcwriteLo lo ++ rest) = some (lo, rest) := by
  have small := lo.isLt
  rw [bcwriteLo_eq_leb, uleb128_33_leb (by omega), ofNat_toNat_double lo 1 (by decide)]

theorem knum_bcwrite (constants : List KNum) (rest : GCstr) :
    bcread_knum constants.length (bcwrite_knum constants ++ rest) = some (constants, rest) := by
  induction constants with
  | nil => rfl
  | cons constant constants induction =>
      rw [bcwrite_knum] at induction
      rw [bcwrite_knum, List.flatMap_cons, List.length_cons, bcread_knum, List.append_assoc]
      cases constant with
      | int k =>
          have ⟨first, head, clear⟩ := head_bcwriteInt k (constants.flatMap KNum.write ++ rest)
          have clear : ¬first &&& 1 ≠ 0 := fun set => set clear
          simp only [KNum.write, head, uleb128_33_bcwriteInt, if_neg clear, induction,
            Option.bind_eq_bind, Option.bind_some]
      | num lo hi =>
          have ⟨first, head, set⟩ :=
            head_bcwriteLo lo (lj_strfmt_wuleb128 hi ++ (constants.flatMap KNum.write ++ rest))
          have set : first &&& 1 ≠ 0 := by rw [set]; decide
          simp only [KNum.write, List.append_assoc, head, uleb128_33_bcwriteLo, if_pos set,
            ruleb128_wuleb128, induction, Option.bind_eq_bind, Option.bind_some]

theorem prefixSize_eq_length (n : BitVec 32) (some : n ≠ 0) :
    (prefixSize n).toNat = (lj_strfmt_wuleb128 n).length := by
  have isSome : n.toNat ≠ 0 := fun zero => some (BitVec.eq_of_toNat_eq zero)
  have few : n.toNat.log2 < 32 := (Nat.log2_lt isSome).mpr n.isLt
  rw [wuleb128_eq_leb, length_leb isSome]
  -- There are only 32 positions of the highest bit.
  have each : ∀ fls < 32, (((BitVec.ofNat 32 fls + 8) * 9) >>> 6).toNat = fls / 7 + 1 := by decide
  exact each _ few

/-! ## Streams -/

/-- A value in a dump, with the format that its reader expects. -/
inductive Coded
  | uleb128 (v : BitVec 32)
  | uleb128_33 (isnum : Bool) (k : BitVec 32)

def Coded.write : Coded → GCstr
  | .uleb128 v => lj_strfmt_wuleb128 v
  | .uleb128_33 false k => bcwriteInt k
  | .uleb128_33 true lo => bcwriteLo lo

def Coded.isWide : Coded → Bool
  | .uleb128 _ => false
  | .uleb128_33 _ _ => true

def Coded.read (isWide : Bool) (p : GCstr) : Option (Coded × GCstr) :=
  if isWide then do
    let first ← p.head?
    let (k, p) ← bcread_uleb128_33 p
    some (.uleb128_33 (first &&& 1 ≠ 0) k, p)
  else do
    let (v, p) ← lj_buf_ruleb128 p
    some (.uleb128 v, p)

def Coded.readAll : List Bool → GCstr → Option (List Coded × GCstr)
  | [], p => some ([], p)
  | isWide :: formats, p => do
      let (value, p) ← Coded.read isWide p
      let (values, p) ← Coded.readAll formats p
      some (value :: values, p)

theorem Coded.read_write (value : Coded) (rest : GCstr) :
    Coded.read value.isWide (value.write ++ rest) = some (value, rest) := by
  cases value with
  | uleb128 v => simp only [Coded.isWide, Coded.read, Coded.write, ruleb128_wuleb128, Bool.false_eq_true,
      if_false, Option.bind_eq_bind, Option.bind_some]
  | uleb128_33 isnum k =>
      cases isnum with
      | false =>
          have ⟨first, head, clear⟩ := head_bcwriteInt k rest
          have clear : ¬first &&& 1 ≠ 0 := fun set => set clear
          simp only [Coded.isWide, Coded.read, Coded.write, head, uleb128_33_bcwriteInt, if_true,
            Option.bind_eq_bind, Option.bind_some, decide_eq_false clear]
      | true =>
          have ⟨first, head, set⟩ := head_bcwriteLo k rest
          have set : first &&& 1 ≠ 0 := by rw [set]; decide
          simp only [Coded.isWide, Coded.read, Coded.write, head, uleb128_33_bcwriteLo, if_true,
            Option.bind_eq_bind, Option.bind_some, decide_eq_true set]

theorem Coded.readAll_write (values : List Coded) (rest : GCstr) :
    Coded.readAll (values.map Coded.isWide) (values.flatMap Coded.write ++ rest) = some (values, rest) := by
  induction values with
  | nil => rfl
  | cons value values induction =>
      rw [List.map_cons, List.flatMap_cons, List.append_assoc, Coded.readAll]
      simp only [Coded.read_write, induction, Option.bind_eq_bind, Option.bind_some]

/-- What is written is read back, with nothing lost and nothing of what is behind it read. -/
theorem uleb128_exact :
    (∀ (v : BitVec 32) (rest : GCstr), lj_buf_ruleb128 (lj_strfmt_wuleb128 v ++ rest) = some (v, rest)) ∧
      (∀ (k : BitVec 32) (rest : GCstr), bcread_uleb128_33 (bcwriteInt k ++ rest) = some (k, rest) ∧
        bcread_uleb128_33 (bcwriteLo k ++ rest) = some (k, rest) ∧
        (∃ first ∈ (bcwriteInt k).head?, first &&& 1 = 0) ∧ ∃ first ∈ (bcwriteLo k).head?, first &&& 1 = 1) ∧
      (∀ n : BitVec 32, n ≠ 0 → (prefixSize n).toNat = (lj_strfmt_wuleb128 n).length) ∧
      (∀ (constants : List KNum) (rest : GCstr),
        bcread_knum constants.length (bcwrite_knum constants ++ rest) = some (constants, rest)) ∧
      ∀ (values : List Coded) (rest : GCstr),
        Coded.readAll (values.map Coded.isWide) (values.flatMap Coded.write ++ rest) = some (values, rest) := by
  have wide (k : BitVec 32) (rest : GCstr) : bcread_uleb128_33 (bcwriteInt k ++ rest) = some (k, rest) ∧
      bcread_uleb128_33 (bcwriteLo k ++ rest) = some (k, rest) ∧
      (∃ first ∈ (bcwriteInt k).head?, first &&& 1 = 0) ∧ ∃ first ∈ (bcwriteLo k).head?, first &&& 1 = 1 := by
    have clear := head_bcwriteInt k []
    have set := head_bcwriteLo k []
    rw [List.append_nil] at clear set
    exact ⟨uleb128_33_bcwriteInt k rest, uleb128_33_bcwriteLo k rest, clear, set⟩
  exact ⟨ruleb128_wuleb128, wide, prefixSize_eq_length, knum_bcwrite, Coded.readAll_write⟩

/-- The largest size of two bytes, and the smallest value with its highest bit set. -/
theorem uleb128_exact_border :
    (prefixSize 0x3fff).toNat = (lj_strfmt_wuleb128 0x3fff).length ∧
      bcread_uleb128_33 (bcwriteLo 0x80000000 ++ [7]) = some (0x80000000, [7]) :=
  ⟨uleb128_exact.2.2.1 0x3fff (by decide), (uleb128_exact.2.1 0x80000000 [7]).2.1⟩

end TvmJit
