import TvmJit.Ffi.Layout
import TvmJit.Ffi.Placement

/-! One field in its place: the element that is stored says where the field is. -/

namespace TvmJit

open Foundation Function

/-! ## Bits of information words -/

theorem toNat_and_127 (x : BitVec 32) : (x &&& 127).toNat = x.toNat % 128 :=
  toNat_and_mask (k := 7) x (by decide)

/-- A mask does not see the bits it has none of. -/
theorem or_and_of_disjoint {x y mask : BitVec 32} (none : y &&& mask = 0) :
    (x ||| y) &&& mask = x &&& mask := by
  rw [BitVec.and_or_distrib_right, none]
  exact BitVec.or_zero

theorem toNat_shr (x : BitVec 32) (k : Nat) : (x >>> k).toNat = x.toNat / 2 ^ k := by
  rw [BitVec.toNat_ushiftRight, Nat.shiftRight_eq_div_pow]

section

variable (info : CTInfo)

theorem bitpos_toNat : (ctype_bitpos info).toNat = info.toNat % 128 := toNat_and_127 info

theorem bitbsz_toNat : (ctype_bitbsz info).toNat = info.toNat / 2 ^ 8 % 128 := by
  rw [ctype_bitbsz, toNat_and_127, toNat_shr]

theorem bitcsz_toNat : (ctype_bitcsz info).toNat = info.toNat / 2 ^ 16 % 128 := by
  rw [ctype_bitcsz, toNat_and_127, toNat_shr]

theorem cid_toNat : (ctype_cid info).toNat = info.toNat % 2 ^ 16 := BitVec.toNat_setWidth 16 info

theorem align_eq : ctype_align info = info.toNat / 2 ^ 16 % 16 := by
  have mask : ((info >>> 16) &&& CTMASK_ALIGN).toNat = (info >>> 16).toNat % 2 ^ 4 :=
    toNat_and_mask (k := 4) (info >>> 16) (by decide)
  rw [ctype_align, mask, toNat_shr]
  rfl

theorem align_le : ctype_align info ≤ 15 := by
  have small := Nat.mod_lt (info.toNat / 2 ^ 16) (show 16 > 0 by decide)
  rw [align_eq]
  omega

theorem type_toNat : (ctype_type info).toNat = info.toNat / 2 ^ 28 := toNat_shr info 28

end

/-- The flags of a bitfield are above its position and sizes. -/
theorem flags_toNat (info : CTInfo) :
    (info &&& (CTF_QUAL ||| CTF_UNSIGNED ||| CTF_BOOL)).toNat % 2 ^ 23 = 0 ∧
      (info &&& (CTF_QUAL ||| CTF_UNSIGNED ||| CTF_BOOL)).toNat < 2 ^ 28 := by
  have mask : (CTF_QUAL ||| CTF_UNSIGNED ||| CTF_BOOL : BitVec 32).toNat = 0x0b800000 := by decide
  rw [BitVec.toNat_and, mask]
  constructor
  · rw [Nat.and_mod_two_pow]
    exact Nat.and_zero _
  · exact Nat.and_le_right.trans_lt (by decide)

/-! ## Where an element says that its field is -/

namespace CType

variable [CTarget] (ct : CType)

/-- The first bit of a field. Bits are counted from the least one of a byte, or from the greatest
one on a big-endian machine. -/
def firstBit : Nat :=
  if ctype_isbitfield ct.info then
    8 * ct.size.toNat +
      if CTarget.LJ_BE then
        8 * (ctype_bitcsz ct.info).toNat - (ctype_bitpos ct.info).toNat - (ctype_bitbsz ct.info).toNat
      else (ctype_bitpos ct.info).toNat
  else 8 * ct.size.toNat

omit [CTarget]

/-- The number of bits of a field; those of a regular field come from its type. -/
def bitWidth (csz : Nat) : Nat :=
  if ctype_isbitfield ct.info then (ctype_bitbsz ct.info).toNat else csz

/-- The number of bytes that are read or written for a field. -/
def storage (csz : Nat) : Nat :=
  if ctype_isbitfield ct.info then (ctype_bitcsz ct.info).toNat else csz / 8

end CType

namespace FieldInfo

/-- What holds of a field before it is placed. -/
structure Sound (f : FieldInfo) : Prop where
  align : f.align ≤ 15
  bytes : f.csz.toNat % 8 = 0
  notBitfield : ctype_isbitfield f.ct.info = false
  container : f.regular = false → ∃ c, 3 ≤ c ∧ c ≤ 5 ∧ f.csz = BitVec.ofNat 32 (2 ^ c)
  narrow : f.regular = false → f.bsz ≤ f.csz
  packed : f.attr &&& CTFP_ALIGNED = 0 → f.packed = true → f.align = 0

def member (f : FieldInfo) : Member where
  width := if f.regular then f.csz.toNat else f.bsz.toNat
  align := f.align
  bits := !f.regular
  container := Nat.log 2 f.csz.toNat
  apart := f.bsz = 0 || f.attr &&& CTFP_ALIGNED ≠ 0
  packed := f.packed

section

variable {f : FieldInfo} {bofs : CTSize}

theorem shift_eq (k : Nat) : (8#32 <<< k) = BitVec.ofNat 32 (2 ^ (3 + k)) := by
  apply BitVec.eq_of_toNat_eq
  simp [Nat.shiftLeft_eq, Nat.pow_add]

theorem amask_eq (f : FieldInfo) : f.amask = BitVec.ofNat 32 (2 ^ (3 + f.align)) - 1#32 := by
  rw [amask, ← shift_eq]
  rfl

theorem Sound.pad_toNat (sound : f.Sound) (room : padTo (3 + f.align) bofs.toNat < 2 ^ 32) :
    (f.pad bofs).toNat = padTo (3 + f.align) bofs.toNat := by
  have small := sound.align
  rw [pad, amask_eq]
  exact toNat_pad_mask bofs (by omega) room

theorem Sound.and_amask (sound : f.Sound) (bofs : CTSize) :
    (bofs &&& f.amask).toNat = bofs.toNat % 2 ^ (3 + f.align) := by
  have small := sound.align
  rw [amask_eq]
  exact toNat_and_mask bofs (by omega)

theorem member_container {c : Nat} (power : f.csz = BitVec.ofNat 32 (2 ^ c)) (small : c ≤ 5) :
    f.csz.toNat = 2 ^ c ∧ f.member.container = c := by
  have size : f.csz.toNat = 2 ^ c := by
    rw [power, BitVec.toNat_ofNat]
    exact Nat.mod_eq_of_lt ((Nat.pow_le_pow_right (by decide) small).trans_lt (by decide))
  refine ⟨size, ?_⟩
  change Nat.log 2 f.csz.toNat = c
  rw [size, Nat.log_pow Nat.one_lt_two]

/-- Whether a bitfield is moved to where its alignment is met. -/
theorem Sound.apart_iff (sound : f.Sound) (isBits : f.regular = false) (bofs : CTSize) :
    (f.bsz = 0 || f.attr &&& CTFP_ALIGNED ≠ 0 ||
      (!f.packed && (bofs &&& f.amask) + f.bsz > f.csz)) = true ↔ f.member.Apart bofs.toNat := by
  obtain ⟨c, least, most, power⟩ := sound.container isBits
  obtain ⟨size, container⟩ := member_container power most
  have narrow : f.bsz.toNat ≤ 2 ^ c := size ▸ BitVec.le_def.mp (sound.narrow isBits)
  have small : 2 ^ c ≤ 2 ^ 5 := Nat.pow_le_pow_right (by decide) most
  have low : (bofs &&& f.amask).toNat < 2 ^ 18 := by
    rw [sound.and_amask]
    exact (Nat.mod_lt _ (Nat.two_pow_pos _)).trans_le
      (Nat.pow_le_pow_right (by decide) (Nat.add_le_add_left sound.align 3))
  have sum : ((bofs &&& f.amask) + f.bsz).toNat =
      bofs.toNat % 2 ^ (3 + f.align) + f.bsz.toNat := by
    rw [BitVec.toNat_add, Nat.mod_eq_of_lt (by omega), sound.and_amask]
  have crosses : (bofs &&& f.amask) + f.bsz > f.csz ↔
      2 ^ f.member.container < bofs.toNat % 2 ^ (3 + f.align) + f.bsz.toNat := by
    rw [gt_iff_lt, BitVec.lt_def, sum, size, container]
  have width : f.member.width = f.bsz.toNat := by
    change (if f.regular then _ else _) = _
    rw [isBits]
    rfl
  have bits : f.member.bits = true := by
    change (!f.regular) = true
    rw [isBits]
    rfl
  rw [Member.Apart, width, bits]
  change _ ↔ _ ∨ (f.bsz = 0 || f.attr &&& CTFP_ALIGNED ≠ 0 : Bool) = true ∨
    f.packed = false ∧ 2 ^ f.member.container < bofs.toNat % 2 ^ (3 + f.align) + f.bsz.toNat
  simp only [Bool.or_eq_true, Bool.and_eq_true, Bool.not_eq_true', decide_eq_true_eq, crosses]
  simp

/-! ## Bitfields -/

/-- The flags of the type that a bitfield keeps. -/
def flags (f : FieldInfo) : CTInfo := f.info &&& (CTF_QUAL ||| CTF_UNSIGNED ||| CTF_BOOL)

theorem flags_le (f : FieldInfo) : f.flags.toNat ≤ 0x0b800000 := by
  have mask : (CTF_QUAL ||| CTF_UNSIGNED ||| CTF_BOOL : BitVec 32).toNat = 0x0b800000 := by decide
  rw [flags, BitVec.toNat_and, mask]
  exact Nat.and_le_right

/-- The information word of a bitfield before its position is added. -/
theorem bitfield_base (f : FieldInfo) {c : Nat} (small : c ≤ 5) (size : f.csz.toNat = 2 ^ c)
    (narrow : f.bsz.toNat ≤ 2 ^ c) :
    (CTINFO CT_BITFIELD (f.flags + (f.csz <<< 13) + (f.bsz <<< 8))).toNat =
        10 * 2 ^ 28 + f.flags.toNat + 2 ^ c * 2 ^ 13 + f.bsz.toNat * 2 ^ 8 := by
  have atMost := f.flags_le
  have bound : 2 ^ c ≤ 2 ^ 5 := Nat.pow_le_pow_right (by decide) small
  have number : (CT_BITFIELD <<< 28).toNat = 10 * 2 ^ 28 := by decide
  rw [CTINFO, BitVec.toNat_add, number, BitVec.toNat_add, BitVec.toNat_add, BitVec.toNat_shiftLeft,
    BitVec.toNat_shiftLeft, Nat.shiftLeft_eq, Nat.shiftLeft_eq, size]
  omega

/-- What the element of a bitfield says. -/
structure Bits [CTarget] (ct : CType) (c start width : Nat) : Prop where
  isBitfield : ctype_isbitfield ct.info = true
  offset : 8 * ct.size.toNat = cutTo c start
  container : 8 * (ctype_bitcsz ct.info).toNat = 2 ^ c
  bitWidth : (ctype_bitbsz ct.info).toNat = width
  firstBit : ct.firstBit = start

theorem isbitfield_iff {info : CTInfo} :
    ctype_isbitfield info = true ↔ (ctype_type info).toNat = 10 := by
  rw [ctype_isbitfield, decide_eq_true_eq, ← BitVec.toNat_inj]
  rfl

theorem bitfield_offset [CTarget] {c : Nat} (least : 3 ≤ c) (most : c ≤ 5)
    (power : f.csz = BitVec.ofNat 32 (2 ^ c)) :
    8 * (f.bitfield bofs).size.toNat = cutTo c bofs.toNat := by
  have cut : (bofs &&& ~~~(f.csz - 1)).toNat = cutTo c bofs.toNat := by
    rw [power]
    exact toNat_and_not_mask bofs (by omega)
  have whole : 2 ^ 3 ∣ cutTo c bofs.toNat := (Nat.pow_dvd_pow 2 least).trans (dvd_cutTo _ _)
  change 8 * ((bofs &&& ~~~(f.csz - 1)) >>> 3).toNat = _
  rw [toNat_shr, cut]
  exact Nat.mul_div_cancel' whole

/-- The position stays in its own bits of the word. -/
theorem bitfield_word [CTarget] {c : Nat} (most : c ≤ 5) (power : f.csz = BitVec.ofNat 32 (2 ^ c))
    (narrow : f.bsz ≤ f.csz) (inside : CTarget.LJ_BE = true → bofs.toNat % 2 ^ c + f.bsz.toNat ≤ 2 ^ c) :
    (f.bitfield bofs).info.toNat =
      10 * 2 ^ 28 + f.flags.toNat + 2 ^ c * 2 ^ 13 + f.bsz.toNat * 2 ^ 8 +
        if CTarget.LJ_BE then 2 ^ c - bofs.toNat % 2 ^ c - f.bsz.toNat else bofs.toNat % 2 ^ c := by
  obtain ⟨size, -⟩ := member_container power most
  have narrow : f.bsz.toNat ≤ 2 ^ c := size ▸ BitVec.le_def.mp narrow
  have base := bitfield_base f most size narrow
  have atMost := f.flags_le
  have bound : 2 ^ c ≤ 2 ^ 5 := Nat.pow_le_pow_right (by decide) most
  have pos : (bofs &&& (f.csz - 1)).toNat = bofs.toNat % 2 ^ c := by
    rw [power]
    exact toNat_and_mask bofs (by omega)
  have near := Nat.mod_lt bofs.toNat (Nat.two_pow_pos c)
  let place := if CTarget.LJ_BE then f.csz - (bofs &&& (f.csz - 1)) - f.bsz else bofs &&& (f.csz - 1)
  have placed : place.toNat =
      if CTarget.LJ_BE then 2 ^ c - bofs.toNat % 2 ^ c - f.bsz.toNat else bofs.toNat % 2 ^ c := by
    change (if CTarget.LJ_BE then _ else _ : BitVec 32).toNat = _
    split
    · next big =>
        have fits := inside big
        rw [BitVec.toNat_sub_of_le, BitVec.toNat_sub_of_le, size, pos]
        · rw [BitVec.le_def, size, pos]
          exact near.le
        · rw [BitVec.le_def, BitVec.toNat_sub_of_le, size, pos]
          · omega
          · rw [BitVec.le_def, size, pos]
            exact near.le
    · exact pos
  have small : place.toNat < 128 := by
    rw [placed]
    split <;> omega
  rw [← placed]
  change (CTINFO CT_BITFIELD (f.flags + (f.csz <<< 13) + (f.bsz <<< 8)) + place).toNat = _
  rw [BitVec.toNat_add, base, Nat.mod_eq_of_lt (by omega)]

theorem bitfield_spec [CTarget] {c : Nat} (least : 3 ≤ c) (most : c ≤ 5)
    (power : f.csz = BitVec.ofNat 32 (2 ^ c)) (narrow : f.bsz ≤ f.csz)
    (inside : CTarget.LJ_BE = true → bofs.toNat % 2 ^ c + f.bsz.toNat ≤ 2 ^ c) :
    Bits (f.bitfield bofs) c bofs.toNat f.bsz.toNat := by
  have word := bitfield_word most power narrow inside
  obtain ⟨size, -⟩ := member_container power most
  have narrow : f.bsz.toNat ≤ 2 ^ c := size ▸ BitVec.le_def.mp narrow
  have ⟨low, _⟩ := flags_toNat f.info
  have atMost := f.flags_le
  change f.flags.toNat % 2 ^ 23 = 0 at low
  have bound : 2 ^ c ≤ 2 ^ 5 := Nat.pow_le_pow_right (by decide) most
  have near := Nat.mod_lt bofs.toNat (Nat.two_pow_pos c)
  have small : (if CTarget.LJ_BE then 2 ^ c - bofs.toNat % 2 ^ c - f.bsz.toNat
      else bofs.toNat % 2 ^ c) < 128 := by
    split <;> omega
  have bytes : 2 ^ c = 8 * 2 ^ (c - 3) := by
    rw [← Nat.pow_add 2 3 (c - 3), Nat.add_sub_cancel' least]
  have isBitfield : ctype_isbitfield (f.bitfield bofs).info = true := by
    rw [isbitfield_iff, type_toNat, word]
    omega
  have container : 8 * (ctype_bitcsz (f.bitfield bofs).info).toNat = 2 ^ c := by
    rw [bitcsz_toNat, word]
    omega
  have bitWidth : (ctype_bitbsz (f.bitfield bofs).info).toNat = f.bsz.toNat := by
    rw [bitbsz_toNat, word]
    omega
  have bitpos : (ctype_bitpos (f.bitfield bofs).info).toNat =
      if CTarget.LJ_BE then 2 ^ c - bofs.toNat % 2 ^ c - f.bsz.toNat else bofs.toNat % 2 ^ c := by
    rw [bitpos_toNat, word]
    omega
  have cuts := cutTo_add_mod c bofs.toNat
  refine ⟨isBitfield, bitfield_offset least most power, container, bitWidth, ?_⟩
  rw [CType.firstBit, if_pos isBitfield, bitfield_offset least most power, bitpos, bitWidth, container]
  split
  · next big =>
      have fits := inside big
      omega
  · exact cuts

/-- A bitfield keeps the flags of its type. -/
theorem bitfield_flag [CTarget] {c k : Nat} (most : c ≤ 5) (power : f.csz = BitVec.ofNat 32 (2 ^ c))
    (narrow : f.bsz ≤ f.csz) (inside : CTarget.LJ_BE = true → bofs.toNat % 2 ^ c + f.bsz.toNat ≤ 2 ^ c)
    (isFlag : (CTF_QUAL ||| CTF_UNSIGNED ||| CTF_BOOL).getLsbD (23 + k) = true) (few : k < 5) :
    (f.bitfield bofs).info.getLsbD (23 + k) = f.info.getLsbD (23 + k) := by
  have word := bitfield_word most power narrow inside
  obtain ⟨size, -⟩ := member_container power most
  have narrow : f.bsz.toNat ≤ 2 ^ c := size ▸ BitVec.le_def.mp narrow
  have ⟨low, _⟩ := flags_toNat f.info
  have atMost := f.flags_le
  change f.flags.toNat % 2 ^ 23 = 0 at low
  have bound : 2 ^ c ≤ 2 ^ 5 := Nat.pow_le_pow_right (by decide) most
  have near := Nat.mod_lt bofs.toNat (Nat.two_pow_pos c)
  have small : (if CTarget.LJ_BE then 2 ^ c - bofs.toNat % 2 ^ c - f.bsz.toNat
      else bofs.toNat % 2 ^ c) < 128 := by
    split <;> omega
  have high : (f.bitfield bofs).info.toNat / 2 ^ 23 = 2 ^ 5 * 10 + f.flags.toNat / 2 ^ 23 := by
    rw [word]
    omega
  have kept : f.flags.getLsbD (23 + k) = f.info.getLsbD (23 + k) := by
    rw [flags, BitVec.getLsbD_and, isFlag, Bool.and_true]
  rw [← kept, ← BitVec.testBit_toNat, ← BitVec.testBit_toNat, Nat.add_comm 23 k,
    ← Nat.testBit_div_two_pow, ← Nat.testBit_div_two_pow, high,
    Nat.testBit_two_pow_mul_add _ (by omega), if_pos few]

/-- On a big-endian machine a bitfield that crosses its container borrows from its width. -/
theorem crossed_word [CTarget] {c : Nat} (most : c ≤ 5) (power : f.csz = BitVec.ofNat 32 (2 ^ c))
    (narrow : f.bsz ≤ f.csz) (big : CTarget.LJ_BE = true)
    (crosses : 2 ^ c < bofs.toNat % 2 ^ c + f.bsz.toNat) :
    (f.bitfield bofs).info.toNat = 10 * 2 ^ 28 + f.flags.toNat + 2 ^ c * 2 ^ 13 + f.bsz.toNat * 2 ^ 8 +
      2 ^ c - bofs.toNat % 2 ^ c - f.bsz.toNat := by
  obtain ⟨size, -⟩ := member_container power most
  have narrow : f.bsz.toNat ≤ 2 ^ c := size ▸ BitVec.le_def.mp narrow
  have base := bitfield_base f most size narrow
  have atMost := f.flags_le
  have bound : 2 ^ c ≤ 2 ^ 5 := Nat.pow_le_pow_right (by decide) most
  have pos : (bofs &&& (f.csz - 1)).toNat = bofs.toNat % 2 ^ c := by
    rw [power]
    exact toNat_and_mask bofs (by omega)
  have near := Nat.mod_lt bofs.toNat (Nat.two_pow_pos c)
  change (CTINFO CT_BITFIELD (f.flags + (f.csz <<< 13) + (f.bsz <<< 8)) +
      (if CTarget.LJ_BE then f.csz - (bofs &&& (f.csz - 1)) - f.bsz else bofs &&& (f.csz - 1))).toNat = _
  rw [if_pos big, BitVec.toNat_add, base, BitVec.toNat_sub, BitVec.toNat_sub, size, pos]
  omega

theorem bitfield_crossed [CTarget] {c : Nat} (most : c ≤ 5)
    (power : f.csz = BitVec.ofNat 32 (2 ^ c)) (narrow : f.bsz ≤ f.csz) (big : CTarget.LJ_BE = true)
    (crosses : 2 ^ c < bofs.toNat % 2 ^ c + f.bsz.toNat) :
    (f.bitfield bofs).bitWidth f.csz.toNat ≠ f.bsz.toNat := by
  have word := crossed_word most power narrow big crosses
  have ⟨low, _⟩ := flags_toNat f.info
  have atMost := f.flags_le
  change f.flags.toNat % 2 ^ 23 = 0 at low
  obtain ⟨size, -⟩ := member_container power most
  have narrow : f.bsz.toNat ≤ 2 ^ c := size ▸ BitVec.le_def.mp narrow
  have bound : 2 ^ c ≤ 2 ^ 5 := Nat.pow_le_pow_right (by decide) most
  have near := Nat.mod_lt bofs.toNat (Nat.two_pow_pos c)
  have isBitfield : ctype_isbitfield (f.bitfield bofs).info = true := by
    rw [isbitfield_iff, type_toNat, word]
    omega
  rw [CType.bitWidth, if_pos isBitfield, bitbsz_toNat, word]
  omega

/-- The test of the accesses finds that out. -/
theorem crossed_test [CTarget] {c : Nat} (least : 3 ≤ c) (most : c ≤ 5)
    (power : f.csz = BitVec.ofNat 32 (2 ^ c)) (narrow : f.bsz ≤ f.csz) (big : CTarget.LJ_BE = true)
    (crosses : 2 ^ c < bofs.toNat % 2 ^ c + f.bsz.toNat) :
    ctype_isbitfield (f.bitfield bofs).info = true ∧
      8 * (ctype_bitcsz (f.bitfield bofs).info).toNat < (ctype_bitpos (f.bitfield bofs).info).toNat := by
  have word := crossed_word most power narrow big crosses
  have ⟨low, _⟩ := flags_toNat f.info
  have atMost := f.flags_le
  change f.flags.toNat % 2 ^ 23 = 0 at low
  obtain ⟨size, -⟩ := member_container power most
  have narrow : f.bsz.toNat ≤ 2 ^ c := size ▸ BitVec.le_def.mp narrow
  have bound : 2 ^ c ≤ 2 ^ 5 := Nat.pow_le_pow_right (by decide) most
  have near := Nat.mod_lt bofs.toNat (Nat.two_pow_pos c)
  have bytes : 2 ^ c = 8 * 2 ^ (c - 3) := by
    rw [← Nat.pow_add 2 3 (c - 3), Nat.add_sub_cancel' least]
  -- What the position borrows comes from the bits of the width.
  let lack := bofs.toNat % 2 ^ c + f.bsz.toNat - 2 ^ c
  let rest := f.bsz.toNat * 2 ^ 8 - lack
  have isLack : 1 ≤ lack ∧ lack ≤ 31 ∧ lack ≤ f.bsz.toNat := by omega
  have few : rest < 2 ^ 16 := by omega
  have parts : (f.bitfield bofs).info.toNat =
      2 ^ 23 * (320 + f.flags.toNat / 2 ^ 23) + 2 ^ 16 * 2 ^ (c - 3) + rest := by omega
  have pos : (f.bitfield bofs).info.toNat % 128 = 128 - lack := by omega
  have csz : (f.bitfield bofs).info.toNat / 2 ^ 16 % 128 = 2 ^ (c - 3) := by
    rw [parts]
    clear_value rest lack
    omega
  constructor
  · rw [isbitfield_iff, type_toNat, word]
    omega
  · rw [bitcsz_toNat, bitpos_toNat, pos, csz]
    omega

/-! ## The place of a field -/

theorem isField_iff {info : CTInfo} : ctype_isfield info = true ↔ (ctype_type info).toNat = 9 := by
  rw [ctype_isfield, decide_eq_true_eq, ← BitVec.toNat_inj]
  rfl

theorem isbitfield_field (cid : CTypeID) :
    ctype_isbitfield (CTINFO CT_FIELD (cid.setWidth 32)) = false := by
  have small := cid.isLt
  have number : (CT_FIELD <<< 28).toNat = 9 * 2 ^ 28 := by decide
  rw [← Bool.not_eq_true, isbitfield_iff, type_toNat, CTINFO, BitVec.toNat_add, number,
    BitVec.toNat_setWidth]
  omega

/-- What is stored for a field, and where the next one may start. -/
structure Put [CTarget] (f : FieldInfo) (bofs : CTSize) : Prop where
  start : (f.place bofs).2.1.toNat = f.member.start bofs.toNat
  width : (f.place bofs).2.2.toNat = f.member.width
  sib : (f.place bofs).1.sib = f.ct.sib
  regular : ¬f.member.Stored bofs.toNat → ctype_isbitfield (f.place bofs).1.info = false ∧
    8 * (f.place bofs).1.size.toNat = f.member.start bofs.toNat ∧ f.csz.toNat = f.member.width
  stored : f.member.Stored bofs.toNat → f.regular = false ∧
    (f.place bofs).1 = f.bitfield (f.place bofs).2.1

theorem bytes_of_aligned {bofs : CTSize} {k : Nat} (aligned : 2 ^ (3 + k) ∣ bofs.toNat) :
    8 * (bofs >>> 3).toNat = bofs.toNat := by
  rw [toNat_shr]
  exact Nat.mul_div_cancel' ((Nat.pow_dvd_pow 2 (Nat.le_add_right 3 k)).trans aligned)

theorem Sound.place_spec [CTarget] (sound : f.Sound) (room : f.member.start bofs.toNat < 2 ^ 32) :
    Put f bofs := by
  have width : f.member.width = if f.regular then f.csz.toNat else f.bsz.toNat := rfl
  have bits : f.member.bits = !f.regular := rfl
  cases isRegular : f.regular with
  | true =>
      rw [isRegular, if_pos rfl] at width
      rw [isRegular] at bits
      have isStart : f.member.start bofs.toNat = padTo (3 + f.align) bofs.toNat :=
        if_pos (.inl bits)
      have notStored : ¬f.member.Stored bofs.toNat := fun stored => by
        cases bits.symm.trans stored.1
      rw [isStart] at room
      have padded := sound.pad_toNat room
      have placed : f.place bofs = ({ f.ct with size := f.pad bofs >>> 3 }, f.pad bofs, f.csz) := by
        rw [place, if_pos isRegular]
      refine ⟨?_, ?_, ?_, fun _ => ⟨?_, ?_, width.symm⟩, fun stored => absurd stored notStored⟩ <;>
        rw [placed]
      · exact padded.trans isStart.symm
      · exact width.symm
      · exact sound.notBitfield
      · have aligned : 2 ^ (3 + f.align) ∣ (f.pad bofs).toNat := padded ▸ dvd_padTo _ _
        exact (bytes_of_aligned aligned).trans (padded.trans isStart.symm)
  | false =>
      rw [isRegular, if_neg Bool.false_ne_true] at width
      rw [isRegular] at bits
      obtain ⟨c, least, most, power⟩ := sound.container isRegular
      obtain ⟨size, container⟩ := member_container power most
      let moved := if f.bsz = 0 || f.attr &&& CTFP_ALIGNED ≠ 0 ||
          (!f.packed && (bofs &&& f.amask) + f.bsz > f.csz) then f.pad bofs else bofs
      have start : moved.toNat = f.member.start bofs.toNat := by
        rw [Member.start] at room ⊢
        have apart := sound.apart_iff isRegular bofs
        by_cases isApart : f.member.Apart bofs.toNat
        · rw [if_pos isApart] at room ⊢
          change (ite _ _ _ : CTSize).toNat = _
          rw [if_pos (apart.mpr isApart)]
          exact sound.pad_toNat room
        · rw [if_neg isApart]
          change (ite _ _ _ : CTSize).toNat = _
          rw [if_neg fun moves => isApart (apart.mp moves)]
      have whole : (f.bsz = f.csz && moved &&& f.amask = 0 : Bool) = true ↔
          ¬f.member.Stored bofs.toNat := by
        have aligned : moved &&& f.amask = 0 ↔ 2 ^ (3 + f.align) ∣ moved.toNat := by
          rw [← BitVec.toNat_inj, sound.and_amask, Nat.dvd_iff_mod_eq_zero]
          rfl
        have fills : f.bsz = f.csz ↔ f.bsz.toNat = 2 ^ c := by rw [← BitVec.toNat_inj, size]
        rw [Member.Stored, width, container, bits, ← start, Bool.and_eq_true, decide_eq_true_eq,
          decide_eq_true_eq, aligned, fills]
        simp [member]
      have placed : f.place bofs =
          if f.bsz = f.csz && moved &&& f.amask = 0 then
            ({ f.ct with info := CTINFO CT_FIELD ((ctype_cid f.ct.info).setWidth 32),
                         size := moved >>> 3 }, moved, f.bsz)
          else (f.bitfield moved, moved, f.bsz) := by
        rw [place, if_neg (by rw [isRegular]; exact Bool.false_ne_true)]
      by_cases stored : f.member.Stored bofs.toNat
      · rw [if_neg fun isWhole => whole.mp isWhole stored] at placed
        refine ⟨?_, ?_, ?_, fun notStored => absurd stored notStored, fun _ => ⟨isRegular, ?_⟩⟩ <;>
          rw [placed]
        · exact start
        · exact width.symm
        · rfl
      · have isWhole := whole.mpr stored
        rw [if_pos isWhole] at placed
        rw [Bool.and_eq_true, decide_eq_true_eq, decide_eq_true_eq] at isWhole
        have fills : f.csz.toNat = f.member.width := by rw [width, isWhole.1]
        refine ⟨?_, ?_, ?_, fun _ => ⟨?_, ?_, fills⟩, fun isStored => absurd isStored stored⟩ <;>
          rw [placed]
        · exact start
        · exact width.symm
        · exact isbitfield_field _
        · have zero := congrArg BitVec.toNat isWhole.2
          rw [sound.and_amask] at zero
          have aligned : 2 ^ (3 + f.align) ∣ moved.toNat := Nat.dvd_of_mod_eq_zero zero
          exact (bytes_of_aligned aligned).trans start

theorem place_sib [CTarget] (f : FieldInfo) (bofs : CTSize) : (f.place bofs).1.sib = f.ct.sib := by
  rw [place]
  split
  · rfl
  · dsimp only
    split <;> split <;> rfl

/-- A field whose offset wraps around is put at the start. -/
theorem Sound.place_wrapped [CTarget] (sound : f.Sound)
    (wraps : 2 ^ 32 ≤ f.member.start bofs.toNat) :
    f.place bofs = f.place 0 ∧ f.member.start bofs.toNat = 2 ^ 32 := by
  have small := sound.align
  have below := bofs.isLt
  have isApart : f.member.Apart bofs.toNat := by
    by_contra notApart
    rw [Member.start, if_neg notApart] at wraps
    omega
  have isPad : f.member.start bofs.toNat = padTo (3 + f.align) bofs.toNat := if_pos isApart
  rw [isPad] at wraps ⊢
  have most : padTo (3 + f.align) bofs.toNat ≤ 2 ^ 32 :=
    padTo_le below.le (Nat.pow_dvd_pow 2 (by omega))
  have here : f.pad bofs = 0 := by
    rw [pad, amask_eq]
    exact pad_mask_wrapped bofs (by omega) wraps
  have atStart : f.pad 0 = 0 := by
    have sum : (0 : CTSize) + f.amask = f.amask := BitVec.zero_add _
    rw [pad, sum]
    exact BitVec.and_not_self _
  refine ⟨?_, le_antisymm most wraps⟩
  rw [place, place]
  cases isRegular : f.regular with
  | true => rw [if_pos rfl, if_pos rfl, here, atStart]
  | false =>
      have moves := (sound.apart_iff isRegular bofs).mpr isApart
      rw [if_neg Bool.false_ne_true, if_neg Bool.false_ne_true, if_pos moves, here, atStart, ite_self]

/-- Where a field is put when the offset in front of it may have wrapped. -/
theorem Sound.place_at [CTarget] {pos : Nat} (sound : f.Sound) (isPos : bofs.toNat = pos % 2 ^ 32) :
    ∃ b : CTSize, f.place bofs = f.place b ∧
      f.member.start b.toNat = f.member.start pos % 2 ^ 32 ∧
      (f.member.Stored b.toNat ↔ f.member.Stored pos) := by
  have small := sound.align
  have wide : 3 + f.member.align ≤ 32 := by
    change 3 + f.align ≤ 32
    omega
  have mod := f.member.start_mod wide pos
  rw [← isPos] at mod
  by_cases room : f.member.start bofs.toNat < 2 ^ 32
  · refine ⟨bofs, rfl, ?_, f.member.stored_congr wide mod⟩
    rw [← mod, Nat.mod_eq_of_lt room]
  · have ⟨same, whole⟩ := sound.place_wrapped (Nat.not_lt.mp room)
    have zero : f.member.start (0 : CTSize).toNat = 0 := start_zero f.member
    have isZero : f.member.start (0 : CTSize).toNat = f.member.start pos % 2 ^ 32 := by
      rw [← mod, whole, zero, Nat.mod_self]
    refine ⟨0, same, isZero, f.member.stored_congr wide ?_⟩
    rw [isZero, Nat.mod_mod]

end

end FieldInfo

end TvmJit
