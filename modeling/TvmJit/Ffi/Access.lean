import Mathlib.Data.List.Pairwise
import TvmJit.Ffi.Bitfields
import TvmJit.Ffi.Struct

/-! The bitfields of a struct: what is written is read again, and the other fields stay. -/

namespace TvmJit

open Foundation Function

/-! ## Members in their places -/

/-- A member that can be accessed: a bitfield must not cross its container. -/
def Whole (p : Member × Nat) : Prop :=
  p.1.Stored p.2 → p.1.start p.2 % 2 ^ p.1.container + p.1.width ≤ 2 ^ p.1.container

instance (p : Member × Nat) : Decidable (Whole p) := by
  unfold Whole
  infer_instance

/-- Members that have no bits in common, unless neither is a bitfield. Offsets have 32 bits. -/
def Separate (p q : Member × Nat) : Prop :=
  Whole p → Whole q → p.1.Stored p.2 ∨ q.1.Stored q.2 → 0 < p.1.width → 0 < q.1.width →
    p.1.start p.2 % 2 ^ 32 + p.1.width ≤ q.1.start q.2 % 2 ^ 32 ∨
      q.1.start q.2 % 2 ^ 32 + q.1.width ≤ p.1.start p.2 % 2 ^ 32

instance (p q : Member × Nat) : Decidable (Separate p q) := by
  unfold Separate
  infer_instance

theorem Separate.symm {p q : Member × Nat} (separate : Separate p q) : Separate q p :=
  fun whole whole' stored positive positive' =>
    (separate whole' whole stored.symm positive' positive).symm

/-- Offsets that do not wrap keep the members of a struct apart. -/
theorem separate_of_room {least : Nat} {ms : List Member} (room : total false least ms < 2 ^ 32) :
    (placed false 0 ms).Pairwise Separate := by
  have ordered : (placed false 0 ms).Pairwise fun p q =>
      (p ∈ placed false 0 ms ∧ q ∈ placed false 0 ms) ∧ p.1.start p.2 + p.1.width ≤ q.1.start q.2 :=
    (List.pairwise_iff_forall_sublist.mpr fun sublist =>
      ⟨⟨sublist.subset (by simp), sublist.subset (by simp)⟩,
        List.pairwise_iff_forall_sublist.mp placed_pairwise sublist⟩)
  apply ordered.imp
  rintro p q ⟨⟨member, member'⟩, behind⟩ - - - - -
  have inside := placed_inside least member
  have inside' := placed_inside least member'
  rw [Nat.mod_eq_of_lt (by omega), Nat.mod_eq_of_lt (by omega)]
  exact .inl behind

/-! ## What the accesses see -/

/-- What the accesses test. -/
def CType.Uncrossed (ct : CType) : Prop :=
  (ctype_bitpos ct.info).toNat + (ctype_bitbsz ct.info).toNat ≤ 8 * (ctype_bitcsz ct.info).toNat

section

variable [CTarget] {T : CTab} {x : CTypeID × FieldInfo} {p : Member × Nat}

/-- A bitfield that crosses its container, or has no bits, is not read. -/
theorem tv_bf_failed {ct : CType} (failed : ct.Uncrossed → (ctype_bitbsz ct.info).toNat = 0)
    (m m' : Memory) (a : Nat) : lj_cconv_tv_bf ct m a = lj_cconv_tv_bf ct m' a := by
  have position : (ctype_bitpos ct.info).toNat < 128 := by
    rw [bitpos_toNat]
    exact Nat.mod_lt _ (by decide)
  have width : (ctype_bitbsz ct.info).toNat < 128 := by
    rw [bitbsz_toNat]
    exact Nat.mod_lt _ (by decide)
  have size : (ctype_bitcsz ct.info).toNat < 128 := by
    rw [bitcsz_toNat]
    exact Nat.mod_lt _ (by decide)
  have bits : (8 * ctype_bitcsz ct.info).toNat = 8 * (ctype_bitcsz ct.info).toNat := by
    rw [BitVec.toNat_mul]
    change 8 * _ % _ = _
    omega
  have sum : (ctype_bitpos ct.info + ctype_bitbsz ct.info).toNat =
      (ctype_bitpos ct.info).toNat + (ctype_bitbsz ct.info).toNat := by
    rw [BitVec.toNat_add]
    omega
  have crosses : ctype_bitpos ct.info + ctype_bitbsz ct.info > 8 * ctype_bitcsz ct.info ↔
      ¬ct.Uncrossed := by
    rw [gt_iff_lt, BitVec.lt_def, sum, bits, CType.Uncrossed, Nat.not_le]
  have empty : ctype_bitbsz ct.info > 0 ↔ (ctype_bitbsz ct.info).toNat ≠ 0 := by
    rw [gt_iff_lt, BitVec.lt_def]
    exact Nat.pos_iff_ne_zero
  have rejected : (¬(ctype_bitpos ct.info < 8 * ctype_bitcsz ct.info) ∨ ¬(ctype_bitbsz ct.info > 0 ∧
      ctype_bitbsz ct.info ≤ 8 * ctype_bitcsz ct.info)) ∨
      ctype_bitpos ct.info + ctype_bitbsz ct.info > 8 * ctype_bitcsz ct.info := by
    rw [crosses, empty]
    by_cases fits : ct.Uncrossed
    · exact .inl (.inr fun both => both.1 (failed fits))
    · exact .inr fits
  have same {β : Type} {none error : β} (value value' : β) :
      (if ¬(ctype_bitpos ct.info < 8 * ctype_bitcsz ct.info) ∨ ¬(ctype_bitbsz ct.info > 0 ∧
        ctype_bitbsz ct.info ≤ 8 * ctype_bitcsz ct.info) then none
      else if ctype_bitpos ct.info + ctype_bitbsz ct.info > 8 * ctype_bitcsz ct.info then error
      else value) =
      (if ¬(ctype_bitpos ct.info < 8 * ctype_bitcsz ct.info) ∨ ¬(ctype_bitbsz ct.info > 0 ∧
        ctype_bitbsz ct.info ≤ 8 * ctype_bitcsz ct.info) then none
      else if ctype_bitpos ct.info + ctype_bitbsz ct.info > 8 * ctype_bitcsz ct.info then error
      else value') := by
    rcases rejected with asserted | crossed
    · rw [if_pos asserted, if_pos asserted]
    · rw [if_pos crossed, if_pos crossed]
  rw [lj_cconv_tv_bf, lj_cconv_tv_bf]
  dsimp only
  by_cases four : ctype_bitcsz ct.info = 4
  · rw [if_pos four, if_pos four]
    exact same _ _
  · rw [if_neg four, if_neg four]
    by_cases two : ctype_bitcsz ct.info = 2
    · rw [if_pos two, if_pos two]
      exact same _ _
    · rw [if_neg two, if_neg two]
      by_cases one : ctype_bitcsz ct.info = 1
      · rw [if_pos one, if_pos one]
        exact same _ _
      · rw [if_neg one, if_neg one]

/-- How a field is accessed that has been put in its place. -/
inductive Accessed (T : CTab) (x : CTypeID × FieldInfo) (p : Member × Nat) : Prop
  | regular (notStored : ¬p.1.Stored p.2) (notBitfield : ctype_isbitfield (T x.1).info = false)
      (start : 8 * (T x.1).size.toNat = p.1.start p.2 % 2 ^ 32) (width : x.2.csz.toNat = p.1.width)
      (bytes : x.2.csz.toNat % 8 = 0)
  | failed (isBitfield : ctype_isbitfield (T x.1).info = true)
      (failed : (T x.1).Uncrossed → (ctype_bitbsz (T x.1).info).toNat = 0)
      (empty : Whole p → p.1.width = 0)
  | whole (n pos : Nat) (stored : p.1.Stored p.2) (whole : Whole p)
      (isBitfield : ctype_isbitfield (T x.1).info = true)
      (inside : (T x.1).Inside n pos p.1.width)
      (start : fieldStart n pos p.1.width (T x.1).size.toNat = p.1.start p.2 % 2 ^ 32)
      (bool : (T x.1).info &&& CTF_BOOL = x.2.info &&& CTF_BOOL)
      (unsigned : (T x.1).info &&& CTF_UNSIGNED = x.2.info &&& CTF_UNSIGNED)

omit [CTarget] in
/-- A field that fills its container without crossing it is a regular one. -/
theorem narrow_of_stored {m : Member} {pos : Nat} (stored : m.Stored pos) (least : 3 ≤ m.container)
    (packed : m.apart = false → m.packed = true → m.align = 0)
    (inside : m.start pos % 2 ^ m.container + m.width ≤ 2 ^ m.container) :
    m.width < 2 ^ m.container := by
  by_contra full
  have fills : m.width = 2 ^ m.container := by omega
  have whole : m.start pos % 2 ^ m.container = 0 := by omega
  apply stored.2
  refine ⟨fills, ?_⟩
  by_cases isApart : m.Apart pos
  · rw [Member.start, if_pos isApart]
    exact dvd_padTo _ _
  · have isStart : m.start pos = pos := if_neg isApart
    rw [isStart] at whole ⊢
    rw [Member.Apart, not_or, not_or] at isApart
    obtain ⟨-, notApart, unpacked⟩ := isApart
    cases isPacked : m.packed with
    | true =>
        rw [packed (Bool.eq_false_of_not_eq_true notApart) isPacked]
        exact (Nat.pow_dvd_pow 2 least).trans (Nat.dvd_of_mod_eq_zero whole)
    | false =>
        rw [isPacked] at unpacked
        have fits : pos % 2 ^ (3 + m.align) + m.width ≤ 2 ^ m.container :=
          Nat.le_of_not_lt fun crosses => unpacked ⟨rfl, crosses⟩
        exact Nat.dvd_of_mod_eq_zero (by omega)

omit [CTarget] in
/-- A flag that a bitfield keeps. -/
theorem kept_flag {info info' : CTInfo} {flag : CTInfo} (k : Nat) (isFlag : flag = BitVec.twoPow 32 k)
    (same : info.getLsbD k = info'.getLsbD k) : info &&& flag = info' &&& flag := by
  rw [isFlag, BitVec.and_twoPow, BitVec.and_twoPow, same]

theorem accessed_of_lands (sound : x.2.Sound)
    (bool : x.2.regular = false → x.2.info &&& CTF_BOOL ≠ 0 → x.2.bsz ≤ 1)
    (lands : LayoutState.Lands T x p) : Accessed T x p := by
  obtain ⟨isMember, bofs, before, element⟩ := lands
  obtain ⟨b, same, start, storedIff⟩ := sound.place_at before
  rw [← isMember] at start storedIff
  have room : p.1.start b.toNat < 2 ^ 32 := start ▸ Nat.mod_lt _ (by decide)
  have putAt : LayoutState.PutAt T x (p.1, b.toNat) :=
    ⟨isMember, b, rfl, element.trans (congrArg Prod.fst same)⟩
  by_cases stored : p.1.Stored p.2
  · obtain ⟨c, bofs', low, high, power, container, narrow, width, start', element'⟩ :=
      putAt.stored sound room (storedIff.mpr stored)
    dsimp only at container width start'
    rw [start] at start'
    have bound : 2 ^ c ≤ 2 ^ 5 := Nat.pow_le_pow_right (by decide) high
    have mod : bofs'.toNat % 2 ^ c = p.1.start p.2 % 2 ^ c := by
      rw [start']
      exact Nat.mod_mod_of_dvd _ (Nat.pow_dvd_pow 2 (high.trans (by decide)))
    have wholeIff : Whole p ↔ bofs'.toNat % 2 ^ c + x.2.bsz.toNat ≤ 2 ^ c := by
      rw [Whole, container, width, mod]
      exact ⟨fun whole => whole stored, fun inside _ => inside⟩
    by_cases whole : Whole p
    · have inside := wholeIff.mp whole
      have bits := FieldInfo.bitfield_spec low high power narrow fun _ => inside
      have word := FieldInfo.bitfield_word high power narrow fun _ => inside
      have flag {k : Nat} (few : k < 5)
          (isFlag : (CTF_QUAL ||| CTF_UNSIGNED ||| CTF_BOOL).getLsbD (23 + k) = true) :=
        FieldInfo.bitfield_flag high power narrow (fun _ => inside) isFlag few
      rw [← element'] at bits word flag
      have isBool : (T x.1).info &&& CTF_BOOL = x.2.info &&& CTF_BOOL :=
        kept_flag 27 rfl (flag (k := 4) (by decide) (by decide))
      have isUnsigned : (T x.1).info &&& CTF_UNSIGNED = x.2.info &&& CTF_UNSIGNED :=
        kept_flag 23 rfl (flag (k := 0) (by decide) (by decide))
      rcases Nat.eq_zero_or_pos p.1.width with empty | positive
      · apply Accessed.failed bits.isBitfield (fun _ => ?_) fun _ => empty
        rw [bits.bitWidth, ← width, empty]
      · have size := bits.container
        have firstBit := bits.firstBit
        rw [CType.firstBit, if_pos bits.isBitfield, bits.bitWidth, ← width, start'] at firstBit
        apply Accessed.whole _ _ stored whole bits.isBitfield ⟨rfl, ?_, rfl, ?_, positive, ?_, ?_, ?_⟩
          firstBit isBool isUnsigned
        · obtain rfl | rfl | rfl : c = 3 ∨ c = 4 ∨ c = 5 := by omega
          all_goals omega
        · rw [bits.bitWidth, width]
        · have position : (ctype_bitpos (T x.1).info).toNat =
              if CTarget.LJ_BE then 2 ^ c - bofs'.toNat % 2 ^ c - x.2.bsz.toNat
              else bofs'.toNat % 2 ^ c := by
            rw [bitpos_toNat, word]
            obtain ⟨low, _⟩ := flags_toNat x.2.info
            change x.2.flags.toNat % 2 ^ 23 = 0 at low
            have near := Nat.mod_lt bofs'.toNat (Nat.two_pow_pos c)
            have small : (if CTarget.LJ_BE then 2 ^ c - bofs'.toNat % 2 ^ c - x.2.bsz.toNat
                else bofs'.toNat % 2 ^ c) < 128 := by
              split <;> omega
            omega
          rw [position, size, width]
          split <;> omega
        · have packed : p.1.apart = false → p.1.packed = true → p.1.align = 0 := by
            rw [isMember]
            intro notApart isPacked
            change (x.2.bsz = 0 || x.2.attr &&& CTFP_ALIGNED ≠ 0 : Bool) = false at notApart
            simp only [Bool.or_eq_false_iff, decide_eq_false_iff_not, not_not] at notApart
            exact sound.packed notApart.2 isPacked
          have less := narrow_of_stored stored (container ▸ low) packed (whole stored)
          rw [container] at less
          exact less.trans_le bound
        · intro isTrue
          rw [isBool] at isTrue
          have notRegular : x.2.regular = false := by
            have isBits := stored.1
            rw [isMember] at isBits
            change (!x.2.regular) = true at isBits
            rwa [Bool.not_eq_true'] at isBits
          have most := BitVec.le_def.mp (bool notRegular isTrue)
          rw [← width] at most
          change p.1.width ≤ 1 at most
          omega
    · have crosses := Nat.not_le.mp (mt wholeIff.mpr whole)
      cases big : CTarget.LJ_BE with
      | true =>
          obtain ⟨isBitfield, test⟩ := FieldInfo.crossed_test low high power narrow big crosses
          rw [← element'] at isBitfield test
          apply Accessed.failed isBitfield (fun fits => ?_) fun isWhole => absurd isWhole whole
          rw [CType.Uncrossed] at fits
          omega
      | false =>
          have little : CTarget.LJ_BE = true → bofs'.toNat % 2 ^ c + x.2.bsz.toNat ≤ 2 ^ c :=
            fun isBig => absurd (big.symm.trans isBig) Bool.false_ne_true
          have bits := FieldInfo.bitfield_spec low high power narrow little
          rw [← element'] at bits
          apply Accessed.failed bits.isBitfield (fun fits => ?_) fun isWhole => absurd isWhole whole
          have cuts := cutTo_add_mod c bofs'.toNat
          have firstBit := bits.firstBit
          rw [CType.firstBit, if_pos bits.isBitfield, big, if_neg Bool.false_ne_true,
            bits.offset] at firstBit
          rw [CType.Uncrossed, bits.bitWidth, bits.container] at fits
          omega
  · obtain ⟨notBitfield, offset, width⟩ := putAt.regular sound room fun isStored =>
      stored (storedIff.mp isStored)
    exact .regular stored notBitfield (offset.trans start) width sound.bytes

/-! ## The law of bitfields -/

/-- What is read of a field: its bytes, or the value of a bitfield. -/
inductive FieldRead
  | bytes (bytes : List UInt8)
  | bits (value : Option (Except BitfieldError BfValue))

def CTab.readField (T : CTab) (x : CTypeID × FieldInfo) (m : Memory) : FieldRead :=
  let ct := T x.1
  if ctype_isbitfield ct.info then .bits (lj_cconv_tv_bf ct m ct.size.toNat)
  else .bytes (m.bytes (x.2.csz.toNat / 8) ct.size.toNat)

/-- Every value written to a bitfield that does not cross its container is read again, reduced to
the width of the field and extended as its type says; no other bit of the memory changes, and all
other fields are read as before. -/
def BitfieldsKept (T : CTab) (fields : List (CTypeID × FieldInfo)) : Prop :=
  ∀ x ∈ fields, ctype_isbitfield (T x.1).info = true → (T x.1).Uncrossed →
    0 < (ctype_bitbsz (T x.1).info).toNat →
    ∀ (m : Memory) (s : CNumber) (v : CValue s) (i : Int), v.FieldInteger x.2.info i →
      ∃ m', lj_cconv_bf_tv (T x.1) m (T x.1).size.toNat s v.bytes = some (.ok m') ∧
        lj_cconv_tv_bf (T x.1) m' (T x.1).size.toNat =
          some (.ok (asField x.2.info (ctype_bitbsz (T x.1).info).toNat i)) ∧
        (∀ k, ¬((T x.1).firstBit ≤ k ∧ k < (T x.1).firstBit + (ctype_bitbsz (T x.1).info).toNat) →
          m'.bit CTarget.LJ_BE k = m.bit CTarget.LJ_BE k) ∧
        ∀ y ∈ fields, y.1 ≠ x.1 → T.readField y m' = T.readField y m

omit [CTarget] in
theorem asField_congr {info info' : CTInfo} {width : Nat} {i : Int}
    (bool : info &&& CTF_BOOL = info' &&& CTF_BOOL)
    (unsigned : info &&& CTF_UNSIGNED = info' &&& CTF_UNSIGNED) :
    asField info width i = asField info' width i := by
  rw [asField, asField, bool, unsigned]

/-- One field written: it is read again, and no bit outside its own changes. -/
theorem field_written {s : CNumber} {v : CValue s} {i : Int} {n pos width : Nat} {m : Memory}
    (inside : (T x.1).Inside n pos width) (bool : (T x.1).info &&& CTF_BOOL = x.2.info &&& CTF_BOOL)
    (unsigned : (T x.1).info &&& CTF_UNSIGNED = x.2.info &&& CTF_UNSIGNED)
    (isInteger : v.FieldInteger x.2.info i) (a : Nat) :
    ∃ m', lj_cconv_bf_tv (T x.1) m a s v.bytes = some (.ok m') ∧
      lj_cconv_tv_bf (T x.1) m' a = some (.ok (asField x.2.info width i)) ∧
      ∀ k, ¬(fieldStart n pos width a ≤ k ∧ k < fieldStart n pos width a + width) →
        m'.bit CTarget.LJ_BE k = m.bit CTarget.LJ_BE k := by
  have isInteger' : v.FieldInteger (T x.1).info i := by
    rw [CValue.FieldInteger] at isInteger ⊢
    rwa [bool, unsigned]
  obtain ⟨tmp, conversion, length, value⟩ := converted isInteger' inside.narrow.le inside.bool
  obtain ⟨m', stored, field, frame⟩ := inside.bf_tv conversion length m a
  refine ⟨m', stored, ?_, frame⟩
  rw [inside.tv_bf, field, value, asField_congr bool unsigned]

/-- The bits that a field is read from. -/
theorem Accessed.congr {m m' : Memory} (accessed : Accessed T x p)
    (same : Whole p → ∀ k, p.1.start p.2 % 2 ^ 32 ≤ k → k < p.1.start p.2 % 2 ^ 32 + p.1.width →
      m'.bit CTarget.LJ_BE k = m.bit CTarget.LJ_BE k) :
    T.readField x m' = T.readField x m := by
  rw [CTab.readField, CTab.readField]
  cases accessed with
  | regular notStored notBitfield start width bytes =>
      rw [notBitfield, if_neg Bool.false_ne_true, if_neg Bool.false_ne_true]
      apply congrArg FieldRead.bytes
      apply Memory.bytes_eq CTarget.LJ_BE
      intro k least most
      apply same (fun stored => absurd stored notStored)
      · omega
      · omega
  | failed isBitfield failed empty =>
      rw [if_pos isBitfield, if_pos isBitfield, tv_bf_failed failed m' m]
  | whole n pos stored whole isBitfield inside start bool unsigned =>
      rw [if_pos isBitfield, if_pos isBitfield, inside.tv_bf, inside.tv_bf]
      rw [← start] at same
      rw [fieldBits_congr inside.fits (same whole)]

/-- The other way round: what is read tells these bits. -/
theorem Accessed.bits {m m' : Memory} (accessed : Accessed T x p) (isWhole : Whole p)
    (same : T.readField x m' = T.readField x m) {k : Nat} (least : p.1.start p.2 % 2 ^ 32 ≤ k)
    (most : k < p.1.start p.2 % 2 ^ 32 + p.1.width) :
    m'.bit CTarget.LJ_BE k = m.bit CTarget.LJ_BE k := by
  rw [CTab.readField, CTab.readField] at same
  cases accessed with
  | regular notStored notBitfield start width bytes =>
      rw [notBitfield, if_neg Bool.false_ne_true, if_neg Bool.false_ne_true] at same
      exact Memory.bits_eq (FieldRead.bytes.inj same) (by omega) (by omega)
  | failed isBitfield failed empty =>
      rw [empty isWhole] at most
      omega
  | whole n pos stored whole isBitfield inside start bool unsigned =>
      rw [if_pos isBitfield, if_pos isBitfield, inside.tv_bf, inside.tv_bf] at same
      have equal := Except.ok.inj (Option.some.inj (FieldRead.bits.inj same))
      have field := asField_inj fieldBits_lt fieldBits_lt inside.bool equal
      rw [← start] at least most
      exact bits_of_fieldBits inside.fits field least most

/-- Four bytes whose bits are all set. -/
def allSet : CValue CTINT32 where
  bytes := [255, 255, 255, 255]
  length := rfl
  normalized := by decide

omit [CTarget] in
theorem allSet_integer (info : CTInfo) : allSet.FieldInteger info (allOnes info) := by
  rw [CValue.FieldInteger, allOnes]
  split
  · rfl
  · rfl

/-- Where a bitfield is written, no other field is read. -/
theorem apart_of_kept {fields : List (CTypeID × FieldInfo)} {y : CTypeID × FieldInfo} {q : Member × Nat}
    (kept : BitfieldsKept T fields) (isField : x ∈ fields) (isField' : y ∈ fields) (other : y.1 ≠ x.1)
    (accessed : Accessed T x p) (accessed' : Accessed T y q) (isWhole : Whole p) (isWhole' : Whole q)
    (stored : p.1.Stored p.2) (positive : 0 < p.1.width) {k : Nat}
    (inP : p.1.start p.2 % 2 ^ 32 ≤ k ∧ k < p.1.start p.2 % 2 ^ 32 + p.1.width)
    (inQ : q.1.start q.2 % 2 ^ 32 ≤ k ∧ k < q.1.start q.2 % 2 ^ 32 + q.1.width) : False := by
  cases accessed with
  | regular notStored => exact notStored stored
  | failed isBitfield failed empty => exact positive.ne' (empty isWhole)
  | whole n pos stored whole isBitfield inside start bool unsigned =>
      have uncrossed : (T x.1).Uncrossed := by
        rw [CType.Uncrossed, inside.bitPos, inside.bitWidth, inside.container]
        exact inside.fits
      have ⟨m', _, read, _, others⟩ := kept x isField isBitfield uncrossed
        (inside.bitWidth.symm ▸ positive) (fun _ => 0) CTINT32 allSet (allOnes x.2.info)
        (allSet_integer x.2.info)
      rw [inside.tv_bf, inside.bitWidth, asField_congr bool unsigned] at read
      have isBool : x.2.info &&& CTF_BOOL ≠ 0 → p.1.width = 1 := by
        rw [← bool]
        exact inside.bool
      have equal := Except.ok.inj (Option.some.inj read)
      rw [asField_allOnes isBool] at equal
      have below := Nat.sub_lt (Nat.two_pow_pos p.1.width) Nat.one_pos
      have ones := asField_inj fieldBits_lt below isBool equal
      rw [← start] at inP
      have ⟨j, low, isPlace⟩ := mem_place inside.fits inP.1 inP.2
      have set := congrArg (Nat.testBit · j) ones
      rw [fieldBits_testBit inside.fits, Nat.testBit_two_pow_sub_one, decide_eq_true low,
        Bool.true_and, ← isPlace] at set
      have same := accessed'.bits isWhole' (others y isField' other) inQ.1 inQ.2
      rw [set, Memory.bit] at same
      exact absurd same (by simp)

/-- The law, for fields in their places. -/
theorem kept_iff {fields : List (CTypeID × FieldInfo)} {places : List (Member × Nat)}
    (accessed : List.Forall₂ (Accessed T) fields places) (nodup : (fields.map Prod.fst).Nodup) :
    BitfieldsKept T fields ↔ places.Pairwise Separate := by
  have ⟨length, each⟩ := List.forall₂_iff_zip.mp accessed
  let both := fields.zip places
  have isFields : both.map Prod.fst = fields := List.map_fst_zip length.le
  have isPlaces : both.map Prod.snd = places := List.map_snd_zip length.ge
  have byId : both.Pairwise fun a b => a.1.1 ≠ b.1.1 := by
    rw [← isFields, List.map_map, List.nodup_iff_pairwise_ne, List.pairwise_map] at nodup
    exact nodup
  have separate : places.Pairwise Separate ↔ both.Pairwise fun a b => Separate a.2 b.2 := by
    rw [← isPlaces, List.pairwise_map]
  rw [separate]
  constructor
  · intro kept
    apply (List.pairwise_iff_forall_sublist.mpr fun sublist => ?_ : both.Pairwise _)
    rename_i a b
    have memberA : a ∈ both := sublist.subset (by simp)
    have memberB : b ∈ both := sublist.subset (by simp)
    have other := List.pairwise_iff_forall_sublist.mp byId sublist
    have fieldA : a.1 ∈ fields := isFields ▸ List.mem_map_of_mem memberA
    have fieldB : b.1 ∈ fields := isFields ▸ List.mem_map_of_mem memberB
    intro wholeA wholeB stored positiveA positiveB
    by_contra overlap
    rw [not_or, Nat.not_le, Nat.not_le] at overlap
    -- A bit that both have.
    let k := max (a.2.1.start a.2.2 % 2 ^ 32) (b.2.1.start b.2.2 % 2 ^ 32)
    have inA : a.2.1.start a.2.2 % 2 ^ 32 ≤ k ∧ k < a.2.1.start a.2.2 % 2 ^ 32 + a.2.1.width := by omega
    have inB : b.2.1.start b.2.2 % 2 ^ 32 ≤ k ∧ k < b.2.1.start b.2.2 % 2 ^ 32 + b.2.1.width := by omega
    rcases stored with storedA | storedB
    · exact apart_of_kept kept fieldA fieldB other.symm (each memberA) (each memberB) wholeA wholeB
        storedA positiveA inA inB
    · exact apart_of_kept kept fieldB fieldA other (each memberB) (each memberA) wholeB wholeA
        storedB positiveB inB inA
  · intro apart x' isField isBitfield uncrossed positive m s v i isInteger
    rw [← isFields] at isField
    obtain ⟨⟨x, p⟩, memberX, rfl⟩ := List.mem_map.mp isField
    cases each memberX with
    | regular notStored notBitfield =>
        rw [notBitfield] at isBitfield
        exact absurd isBitfield Bool.false_ne_true
    | failed _ failed => exact absurd (failed uncrossed) positive.ne'
    | whole n pos stored whole isBitfield inside start bool unsigned =>
        have ⟨m', writes, reads, frame⟩ := field_written inside bool unsigned isInteger
          (T x.1).size.toNat (m := m)
        have firstBit : fieldStart n pos p.1.width (T x.1).size.toNat = (T x.1).firstBit := by
          rw [fieldStart, CType.firstBit, if_pos isBitfield, inside.container, inside.bitPos,
            inside.bitWidth]
        refine ⟨m', writes, ?_, ?_, fun y' isField' other => ?_⟩
        · rw [reads, inside.bitWidth]
        · rw [← firstBit, inside.bitWidth]
          exact frame
        · rw [← isFields] at isField'
          obtain ⟨⟨y, q⟩, memberY, rfl⟩ := List.mem_map.mp isField'
          apply (each memberY).congr
          intro wholeY k least most
          apply frame
          rw [start]
          intro within
          have notSame : (y, q) ≠ (x, p) := fun same => other (congrArg (·.1.1) same)
          have symm : Std.Symm fun a b : (CTypeID × FieldInfo) × Member × Nat => Separate a.2 b.2 :=
            ⟨fun _ _ => Separate.symm⟩
          have separate : Separate q p := apart.forall memberY memberX notSame
          have positiveY : 0 < q.1.width := by omega
          have := separate wholeY whole (.inr stored) positiveY inside.positive
          omega

/-! ## Bitfields of a declared struct -/

theorem CTab.fields_ids (pack : Nat) (sattr : CTInfo) (T : CTab) (ids : List CTypeID) :
    List.Sublist ((CTab.fields pack sattr T ids).map Prod.fst) ids := by
  induction ids with
  | nil => exact .slnil
  | cons id rest induction =>
      rw [CTab.fields, List.filterMap_cons]
      cases T.fieldOf pack sattr id with
      | none => exact induction.cons id
      | some f => exact induction.cons_cons id

variable {T₁ T₂ : CTab} {sid : CTypeID} {pack : Nat} {sattr : CTInfo} {union : Bool}
  {members : List (CTypeID × MemberDecl)}

/-- Bitfields of booleans have at most one bit. -/
theorem fields_bool (declarable : Declarable T sid union members)
    (plain : CTab.PlainQuals (members.map Prod.fst) T)
    (declared : CTab.declMembers members sid false T = some (.ok T₁)) :
    ∀ x ∈ CTab.fields pack sattr T₁ (members.map Prod.fst), x.2.regular = false →
      x.2.info &&& CTF_BOOL ≠ 0 → x.2.bsz ≤ 1 := by
  have chained := CTab.declMembers_spec declared declarable.nodup declarable.notNull
  intro x isField notRegular isBool
  obtain ⟨id, inS, found⟩ := List.mem_filterMap.mp isField
  obtain ⟨f, isF, rfl⟩ := Option.map_eq_some_iff.mp found
  obtain ⟨⟨id, m⟩, member, rfl⟩ := List.mem_map.mp inS
  obtain ⟨info, sz, align, isLaid, look, -, rfl⟩ := CTab.fieldOf_cases isF
  obtain ⟨T', before, after, element⟩ := chained.elements _ member
  cases element with
  | constant info =>
      rw [CTab.notLaid_constant info] at isLaid
      exact absurd isLaid Bool.false_ne_true
  | field made =>
      have off := declarable.declared _ _ member
      have made : CTab.Made T' _ (T₁ id) := made
      rw [made.cid] at look
      exact made.bool (plain.of_agrees before) (declarable.closed.of_agrees before) after off
        notRegular look isBool

theorem accessed_of_laid (declarable : Declarable T sid union members)
    (plain : CTab.PlainQuals (members.map Prod.fst) T)
    (declared : CTab.declMembers members sid false T = some (.ok T₁))
    (laid : CTab.cp_struct_layout pack T₁ sid sattr = some (.ok T₂)) :
    List.Forall₂ (Accessed T₂) (CTab.fields pack sattr T₁ (members.map Prod.fst))
      (placed union 0 ((CTab.fields pack sattr T₁ (members.map Prod.fst)).map fun x => x.2.member)) := by
  have ran := LayoutState.ran_of_laid declarable declared laid
  have bool : ∀ x ∈ CTab.fields pack sattr T₁ (members.map Prod.fst), x.2.regular = false →
      x.2.info &&& CTF_BOOL ≠ 0 → x.2.bsz ≤ 1 := fields_bool declarable plain declared
  apply (forall₂_mem ran.lands).imp
  intro x p ⟨⟨isField, _⟩, lands⟩
  exact accessed_of_lands (ran.sound x isField).1 (bool x isField) lands

/-- Bitfields are kept just when no bits of the struct are used twice. -/
theorem bitfields_kept_iff (declarable : Declarable T sid false members)
    (plain : CTab.PlainQuals (members.map Prod.fst) T)
    (declared : CTab.declMembers members sid false T = some (.ok T₁))
    (laid : CTab.cp_struct_layout pack T₁ sid sattr = some (.ok T₂)) :
    BitfieldsKept T₂ (CTab.fields pack sattr T₁ (members.map Prod.fst)) ↔
      (placed false 0 ((CTab.fields pack sattr T₁ (members.map Prod.fst)).map fun x =>
        x.2.member)).Pairwise Separate := by
  apply kept_iff (accessed_of_laid declarable plain declared laid)
  exact (List.nodup_cons.mp declarable.nodup).2.sublist (CTab.fields_ids pack sattr T₁ _)

end

theorem sample_plain (size : CTSize) (S : List CTypeID) :
    CTab.PlainQuals S (CTab.ofList (sampleTypes size)) := by
  have plain : ∀ ct ∈ CTab.badType :: sampleTypes size,
      ctype_isxattrib ct.info CTA_QUAL = false ∧ ctype_isxattrib ct.info CTA_ALIGN = false := by
    rw [sampleTypes]
    simp only [List.forall_mem_cons]
    exact ⟨by decide, by decide, by decide, by decide, by decide, by decide, List.forall_mem_nil _⟩
  intro id _
  obtain ⟨notQual, notAlign⟩ := plain _ (CTab.ofList_mem (sampleTypes size) id)
  rw [notQual, notAlign]
  exact ⟨fun isTrue => absurd isTrue Bool.false_ne_true, fun isTrue => absurd isTrue Bool.false_ne_true⟩

/-- A `char` aligned to 16 bytes. -/
def alignedField : MemberDecl := .field ⟨CTFP_ALIGNED ||| CTALIGN 4, 2, CTSIZE_INVALID, true, by decide⟩

/-- `struct { char b : 3; char a[0x1ffffff6]; char c __attribute__((aligned(16))); }`: the offset
of `c` wraps around to that of `b`. -/
theorem bitfield_overlapped : ∃ (_ : CTarget) (T₁ T₂ : CTab),
    Declarable (CTab.ofList (sampleTypes 0x1ffffff6)) 4 false
      [(5, sampleField 2 3), (6, sampleField 3 CTSIZE_INVALID), (7, alignedField)] ∧
    CTab.PlainQuals [5, 6, 7] (CTab.ofList (sampleTypes 0x1ffffff6)) ∧
    CTab.declMembers [(5, sampleField 2 3), (6, sampleField 3 CTSIZE_INVALID), (7, alignedField)] 4
      false (CTab.ofList (sampleTypes 0x1ffffff6)) = some (.ok T₁) ∧
    CTab.cp_struct_layout 255 T₁ 4 0 = some (.ok T₂) ∧ ¬BitfieldsKept T₂ (CTab.fields 255 0 T₁ [5, 6, 7]) := by
  have declarable : Declarable (CTab.ofList (sampleTypes 0x1ffffff6)) 4 false
      [(5, sampleField 2 3), (6, sampleField 3 CTSIZE_INVALID), (7, alignedField)] := by
    apply declarable_of_sample
    · exact (by decide : ([4, 5, 6, 7] : List CTypeID).Nodup)
    · have new : ∀ id ∈ ([5, 6, 7] : List CTypeID), 4 < id := by
        rw [List.forall_mem_cons, List.forall_mem_cons, List.forall_mem_singleton]
        exact ⟨by decide, by decide, by decide⟩
      exact new
    · intro id decl member
      rcases List.mem_cons.mp member with same | member
      · obtain rfl := MemberDecl.field.inj (congrArg Prod.snd same)
        exact (by decide : (2 : CTypeID) ≤ 4)
      · rcases List.mem_cons.mp member with same | member
        · obtain rfl := MemberDecl.field.inj (congrArg Prod.snd same)
          exact (by decide : (3 : CTypeID) ≤ 4)
        · obtain rfl := MemberDecl.field.inj (congrArg Prod.snd (List.mem_singleton.mp member))
          exact (by decide : (2 : CTypeID) ≤ 4)
  refine ⟨⟨false, false⟩, _, _, declarable, sample_plain _ _, rfl, rfl, fun kept => ?_⟩
  have accessed := @accessed_of_laid ⟨false, false⟩ _ _ _ 4 255 0 false _ declarable
    (sample_plain 0x1ffffff6 [5, 6, 7]) rfl rfl
  have separate := (@kept_iff ⟨false, false⟩ _ _ _ accessed (by decide +kernel)).mp kept
  revert separate
  decide +kernel

/-- `struct { int b : 5; char a[3]; }`. -/
theorem bitfields_kept_small : ∃ (_ : CTarget) (T₁ T₂ : CTab),
    CTab.declMembers [(5, sampleField 1 5), (6, sampleField 3 CTSIZE_INVALID)] 4 false
      (CTab.ofList (sampleTypes 3)) = some (.ok T₁) ∧
    CTab.cp_struct_layout 255 T₁ 4 0 = some (.ok T₂) ∧
    BitfieldsKept T₂ (CTab.fields 255 0 T₁ [5, 6]) := by
  refine ⟨⟨false, false⟩, _, _, rfl, rfl, ?_⟩
  apply (@bitfields_kept_iff ⟨false, false⟩ (CTab.ofList (sampleTypes 3)) _ _ 4 255 0 _
    (sample_declarable 3 5 CTSIZE_INVALID) (sample_plain 3 [5, 6]) rfl rfl).mpr
  decide +kernel

end TvmJit
