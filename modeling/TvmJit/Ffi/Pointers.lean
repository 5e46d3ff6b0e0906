import TvmJit.Ffi.Convert

/-! Pointer arithmetic of `lj_carith.c`, on a 64-bit machine. -/

namespace TvmJit.Carith

open Foundation

/-! ## Types -/

def CT_PTR : BitVec 32 := 2
def CT_VOID : BitVec 32 := 4
/-- Last type where ct->size holds the actual size. -/
def CT_HASSIZE : BitVec 32 := CT_ENUM

def CTF_REF : CTInfo := 0x00800000
def CTF_COMPLEX : CTInfo := 0x04000000
def CTF_LONG : CTInfo := 0x00400000

def CTALIGN_PTR : CTInfo := CTALIGN 3
def CTSIZE_PTR : CTSize := 8

def CCF_CAST : CTInfo := 1
def CCF_SAME : CTInfo := 4
def CCF_IGNQUAL : CTInfo := 8

def ctype_isptr (info : CTInfo) : Bool := ctype_type info = CT_PTR
def ctype_isvoid (info : CTInfo) : Bool := ctype_type info = CT_VOID

/-- Arrays that are no vectors and no complex numbers. -/
def ctype_isrefarray (info : CTInfo) : Bool :=
  info &&& (CTMASK_NUM ||| CTF_VECTOR ||| CTF_COMPLEX) = CTINFO CT_ARRAY 0

/-- Pointer or array. -/
def ctype_ispointer (info : CTInfo) : Bool := ctype_type info >>> 1 = CT_PTR >>> 1

/-- The types that are pointers in arithmetic. -/
def isoperand (info : CTInfo) : Bool := ctype_isptr info || ctype_isrefarray info

/-- The table of C types, with all the types that are interned. There is no ID for a type when the table is full. -/
structure CTState where
  tab : CTab
  lj_ctype_intern : CTInfo → CTSize → Option CTypeID
  interned : ∀ info size id, lj_ctype_intern info size = some id → (tab id).info = info ∧ (tab id).size = size

variable (cts : CTState)

/-- The loop of `cconv_childqual`. -/
def childqualLoop : Nat → CTypeID → CTInfo → Option (CTypeID × CTInfo)
  | 0, _, _ => none
  | steps + 1, id, qual =>
      let ct := cts.tab id
      if ctype_isattrib ct.info then
        childqualLoop steps (ctype_cid ct.info) (if ctype_isxattrib ct.info CTA_QUAL then qual ||| ct.size else qual)
      else if ctype_isenum ct.info then childqualLoop steps (ctype_cid ct.info) qual
      else some (id, qual ||| (ct.info &&& CTF_QUAL))

/-- Get child type of pointer or array and its qualifiers. -/
def cconv_childqual (id : CTypeID) : Option (CTypeID × CTInfo) :=
  childqualLoop cts ctypeSteps (ctype_cid (cts.tab id).info) 0

/-- Check for compatible types when converting to a pointer. -/
def lj_cconv_compatptr : Nat → CTypeID → CTypeID → CTInfo → Option Bool
  | 0, _, _, _ => none
  | steps + 1, d, s, flags =>
      if flags &&& CCF_CAST ≠ 0 ∨ d = s then some true
      else do
        let (d, dqual) ← cconv_childqual cts d
        let (s, squal) ← if ctype_isstruct (cts.tab s).info then some (s, 0) else cconv_childqual cts s
        let dt := cts.tab d
        let st := cts.tab s
        -- Different or discarded qualifiers.
        if flags &&& CCF_SAME ≠ 0 ∧ dqual ≠ squal then return false
        else if flags &&& CCF_SAME = 0 ∧ flags &&& CCF_IGNQUAL = 0 ∧ dqual &&& squal ≠ squal then return false
        -- Converting to/from void * is always ok.
        else if flags &&& CCF_SAME = 0 ∧ flags &&& CCF_IGNQUAL = 0 ∧ (ctype_isvoid dt.info ∨ ctype_isvoid st.info) then
          return true
        -- Different type or different size.
        else if ctype_type dt.info ≠ ctype_type st.info ∨ dt.size ≠ st.size then return false
        else if ctype_isnum dt.info then return ((dt.info ^^^ st.info) &&& (CTF_BOOL ||| CTF_FP) = 0)
        else if ctype_ispointer dt.info then lj_cconv_compatptr steps d s (flags ||| CCF_SAME)
        else if ctype_isstruct dt.info then return d = s
        else return true

def lj_ctype_size (id : CTypeID) : Option CTSize := do
  let ct ← cts.tab.ctype_raw id
  return if ctype_type ct.info ≤ CT_HASSIZE then ct.size else CTSIZE_INVALID

/-! ## Arithmetic -/

inductive MMS
  | add | sub | eq | lt | le
  deriving DecidableEq

/-- An operand: a pointer, or an array at an address, or a number with its bytes. -/
inductive CDOperand
  | ptr (ct : CTypeID) (p : BitVec 64)
  | num (s : CNumber) (bytes : List UInt8)
  | other

inductive CDResult
  /-- No arithmetic on these operands. -/
  | no
  | bool (b : Bool)
  | intptr (i : Int)
  | cdata (id : CTypeID) (p : BitVec 64)
  deriving DecidableEq

/-- `CTID_INT_PSZ`. -/
def intPsz : CNumber where
  info := CTINFO CT_NUM (CTF_LONG + CTALIGN 3)
  size := 8
  isnum := by decide
  plain := by decide
  sized := by decide
  boolSize := by decide
  fpSize := by decide

/-- The index that a number is converted to. -/
def index (s : CNumber) (bytes : List UInt8) : Option (BitVec 64) := do
  let idx ← lj_cconv_ct_ct intPsz s bytes
  return BitVec.ofNat 64 (word idx)

/-- Compute pointer + index. -/
def carith_index (ctp : CTypeID) (pp idx : BitVec 64) : Option CDResult := do
  let sz ← lj_ctype_size cts (ctype_cid (cts.tab ctp).info)  -- Element size.
  if sz = CTSIZE_INVALID then return .no
  else do
    let id ← cts.lj_ctype_intern (CTINFO CT_PTR (CTALIGN_PTR ||| (ctype_cid (cts.tab ctp).info).setWidth 32)) CTSIZE_PTR
    return .cdata id (pp + idx * sz.signExtend 64)

/-- Two pointers. -/
def carith_pointers (ctp ctp2 : CTypeID) (pp pp2 : BitVec 64) (mm : MMS) : Option CDResult := do
  -- Pointer equality. Incompatible pointers are ok.
  if mm = .eq then return .bool (pp = pp2)
  else
    let compatible ← lj_cconv_compatptr cts ctypeSteps ctp ctp2 CCF_IGNQUAL
    if !compatible then return .no
    else if mm = .sub then  -- Pointer difference.
      let sz ← lj_ctype_size cts (ctype_cid (cts.tab ctp).info)  -- Element size.
      if sz = 0 ∨ sz = CTSIZE_INVALID then return .no
      else
        let diff := (pp - pp2).sdiv (sz.signExtend 64)
        return .intptr (diff.setWidth 32).toInt
    -- Pointer comparison (unsigned).
    else if mm = .lt then return .bool (pp < pp2)
    else return .bool (pp ≤ pp2)

/-- Pointer arithmetic. -/
def carith_ptr (left right : CDOperand) (mm : MMS) : Option CDResult :=
  match left, right with
  | .ptr ctp pp, .ptr ctp2 pp2 =>
      if isoperand (cts.tab ctp).info ∧ isoperand (cts.tab ctp2).info ∧ mm ≠ .add then
        carith_pointers cts ctp ctp2 pp pp2 mm
      else some .no
  | .ptr ctp pp, .num s bytes =>
      if isoperand (cts.tab ctp).info ∧ (mm = .add ∨ mm = .sub) then do
        let idx ← index s bytes
        carith_index cts ctp pp (if mm = .sub then -idx else idx)
      else some .no
  | .num s bytes, .ptr ctp pp =>
      -- Swap pointer and index.
      if isoperand (cts.tab ctp).info ∧ mm = .add then do
        let idx ← index s bytes
        carith_index cts ctp pp idx
      else some .no
  | _, _ => some .no

/-! ## Laws -/

/-- A 64-bit integer. -/
def int64 (i : BitVec 64) : CDOperand := .num intPsz (ofWord 8 i.toNat)

/-- The laws of pointer arithmetic, for a pointer and the integers `i` and `j`. -/
structure PointerLaws (ct : CTypeID) (p i j : BitVec 64) : Prop where
  /-- `(p + i) - p = i` -/
  difference : ∃ id q, carith_ptr cts (.ptr ct p) (int64 i) .add = some (.cdata id q) ∧
    carith_ptr cts (.ptr id q) (.ptr ct p) .sub = some (.intptr i.toInt)
  /-- `i + p = p + i` -/
  swapped : ∃ id q, carith_ptr cts (int64 i) (.ptr ct p) .add = some (.cdata id q) ∧
    carith_ptr cts (.ptr ct p) (int64 i) .add = some (.cdata id q)
  /-- `p - i = p + (-i)` -/
  negated : ∃ id q, carith_ptr cts (.ptr ct p) (int64 i) .sub = some (.cdata id q) ∧
    carith_ptr cts (.ptr ct p) (int64 (-i)) .add = some (.cdata id q)
  /-- `(p + i) + j = p + (i + j)` -/
  summed : ∃ id q id' q', carith_ptr cts (.ptr ct p) (int64 i) .add = some (.cdata id q) ∧
    carith_ptr cts (.ptr id q) (int64 j) .add = some (.cdata id' q') ∧
    carith_ptr cts (.ptr ct p) (int64 (i + j)) .add = some (.cdata id' q')
  /-- `p + i < p + j` exactly when `i < j` -/
  ordered : ∃ id q id' q', carith_ptr cts (.ptr ct p) (int64 i) .add = some (.cdata id q) ∧
    carith_ptr cts (.ptr ct p) (int64 j) .add = some (.cdata id' q') ∧
    carith_ptr cts (.ptr id q) (.ptr id' q') .lt = some (.bool (i.toInt < j.toInt))

/-- A pointer to elements of a known size. `pt` is the type of the pointers that arithmetic makes of it. -/
structure IsPointer (ct pt : CTypeID) (p : BitVec 64) (sz : CTSize) : Prop where
  type : isoperand (cts.tab ct).info
  size : lj_ctype_size cts (ctype_cid (cts.tab ct).info) = some sz
  /-- The parser has no types of more than 2^31 - 1 bytes. -/
  positive : 0 < sz.toInt
  /-- The element type ends after its attributes. -/
  child : (cconv_childqual cts ct).isSome
  interned : cts.lj_ctype_intern (CTINFO CT_PTR (CTALIGN_PTR ||| (ctype_cid (cts.tab ct).info).setWidth 32)) CTSIZE_PTR =
    some pt
  address : p.toNat < 2 ^ 47

/-- The pointer that is `i` elements behind is in the address range. -/
def InAddressRange (p i : BitVec 64) (sz : CTSize) : Prop :=
  0 ≤ p.toNat + i.toInt * sz.toInt ∧ p.toNat + i.toInt * sz.toInt < 2 ^ 47

instance (p i : BitVec 64) (sz : CTSize) : Decidable (InAddressRange p i sz) := inferInstanceAs (Decidable (_ ∧ _))

section

variable {cts} {ct pt : CTypeID} {p i j : BitVec 64} {sz : CTSize}

theorem index_int64 (i : BitVec 64) : index intPsz (ofWord 8 i.toNat) = some i := by
  have copied : lj_cconv_ct_ct intPsz intPsz (ofWord 8 i.toNat) = some (ofWord 8 i.toNat) := by
    have whole : (ofWord 8 i.toNat).take 8 = ofWord 8 i.toNat := List.take_of_length_le (length_ofWord 8 _).le
    rw [← whole]
    rfl
  have small : i.toNat < 256 ^ 8 := i.isLt
  rw [index, copied]
  have word := word_ofWord 8 i.toNat
  rw [Nat.mod_eq_of_lt small] at word
  change some (BitVec.ofNat 64 (Foundation.word (ofWord 8 i.toNat))) = some i
  rw [word, BitVec.ofNat_toNat, BitVec.setWidth_eq]

theorem toNat_pointerInfo (id : CTypeID) :
    (CTINFO CT_PTR (CTALIGN_PTR ||| id.setWidth 32)).toNat = 2 ^ 29 + 3 * 2 ^ 16 + id.toNat := by
  have small := id.isLt
  have type : (CT_PTR <<< 28).toNat = 2 ^ 29 := rfl
  have align : CTALIGN_PTR.toNat = 3 * 2 ^ 16 := rfl
  have low : id.toNat % 2 ^ 32 = id.toNat := Nat.mod_eq_of_lt (by omega)
  have parts : 3 * 2 ^ 16 ||| id.toNat = 3 * 2 ^ 16 + id.toNat := by
    rw [Nat.mul_comm]
    exact (Nat.two_pow_add_eq_or_of_lt small 3).symm
  rw [CTINFO, BitVec.toNat_add, BitVec.toNat_or, BitVec.toNat_setWidth, type, align, low, parts,
    Nat.mod_eq_of_lt (by omega), Nat.add_assoc]

theorem IsPointer.cid (pointer : IsPointer cts ct pt p sz) : ctype_cid (cts.tab pt).info = ctype_cid (cts.tab ct).info := by
  rw [(cts.interned _ _ _ pointer.interned).1]
  generalize ctype_cid (cts.tab ct).info = id
  have small := id.isLt
  apply BitVec.eq_of_toNat_eq
  rw [ctype_cid, BitVec.toNat_setWidth, toNat_pointerInfo]
  omega

theorem IsPointer.isoperand (pointer : IsPointer cts ct pt p sz) : isoperand (cts.tab pt).info = true := by
  rw [(cts.interned _ _ _ pointer.interned).1]
  generalize ctype_cid (cts.tab ct).info = id
  have small := id.isLt
  have type : ctype_type (CTINFO CT_PTR (CTALIGN_PTR ||| id.setWidth 32)) = CT_PTR := by
    apply BitVec.eq_of_toNat_eq
    have two : CT_PTR.toNat = 2 := rfl
    rw [ctype_type, BitVec.toNat_ushiftRight, toNat_pointerInfo, two, Nat.shiftRight_eq_div_pow]
    omega
  rw [Carith.isoperand, ctype_isptr, type]
  rfl

/-- A pointer that is some elements behind. -/
theorem carith_index_eq (pointer : IsPointer cts ct pt p sz) (i : BitVec 64) : carith_index cts ct p i =
    some (.cdata pt (p + i * sz.signExtend 64)) := by
  have valid : sz ≠ CTSIZE_INVALID := by
    intro same
    have positive := pointer.positive
    rw [same] at positive
    exact absurd positive (by decide)
  rw [carith_index, pointer.size]
  change (if sz = CTSIZE_INVALID then _ else _) = _
  rw [if_neg valid, pointer.interned]
  rfl

theorem carith_ptr_add (pointer : IsPointer cts ct pt p sz) (i : BitVec 64) : carith_ptr cts (.ptr ct p) (int64 i) .add =
    some (.cdata pt (p + i * sz.signExtend 64)) := by
  rw [int64, carith_ptr, if_pos ⟨pointer.type, .inl rfl⟩, index_int64]
  exact carith_index_eq pointer i

theorem carith_ptr_sub (pointer : IsPointer cts ct pt p sz) (i : BitVec 64) : carith_ptr cts (.ptr ct p) (int64 i) .sub =
    some (.cdata pt (p + -i * sz.signExtend 64)) := by
  rw [int64, carith_ptr, if_pos ⟨pointer.type, .inr rfl⟩, index_int64]
  exact carith_index_eq pointer (-i)

theorem carith_ptr_swapped (pointer : IsPointer cts ct pt p sz) (i : BitVec 64) :
    carith_ptr cts (int64 i) (.ptr ct p) .add =
      some (.cdata pt (p + i * sz.signExtend 64)) := by
  rw [int64, carith_ptr, if_pos ⟨pointer.type, rfl⟩, index_int64]
  exact carith_index_eq pointer i

/-- The result of pointer arithmetic is a pointer to the same elements. -/
theorem IsPointer.moved (pointer : IsPointer cts ct pt p sz) {q : BitVec 64} (address : q.toNat < 2 ^ 47) :
    IsPointer cts pt pt q sz := by
  refine ⟨pointer.isoperand, ?_, pointer.positive, ?_, ?_, address⟩
  · rw [pointer.cid]
    exact pointer.size
  · rw [cconv_childqual, pointer.cid]
    exact pointer.child
  · rw [pointer.cid]
    exact pointer.interned

/-- Pointers to the same elements are compatible. -/
theorem compatptr_same (steps : Nat) {d s : CTypeID} (child : (cconv_childqual cts d).isSome)
    (same : ctype_cid (cts.tab d).info = ctype_cid (cts.tab s).info) (notStruct : ctype_isstruct (cts.tab s).info = false) :
    lj_cconv_compatptr cts (steps + 2) d s CCF_IGNQUAL = some true := by
  have ⟨⟨id, qual⟩, ends⟩ := Option.isSome_iff_exists.mp child
  have ends' : cconv_childqual cts s = some (id, qual) := by
    rw [cconv_childqual, ← same]
    exact ends
  rw [lj_cconv_compatptr]
  split
  · rfl
  · have notSame : CCF_IGNQUAL &&& CCF_SAME = 0 := rfl
    have ignored : CCF_IGNQUAL &&& CCF_IGNQUAL ≠ 0 := by decide
    have recursive : lj_cconv_compatptr cts (steps + 1) id id (CCF_IGNQUAL ||| CCF_SAME) = some true := by
      rw [lj_cconv_compatptr, if_pos (.inr rfl)]
    rw [ends, notStruct, ends']
    simp only [Option.bind_eq_bind, Option.bind_some, Bool.false_eq_true, if_false, notSame, ne_eq, not_true_eq_false, false_and,
      ignored, and_false, or_self, BitVec.xor_self, recursive]
    split_ifs <;> rfl

theorem not_struct_of_isoperand {info : CTInfo} (type : isoperand info = true) : ctype_isstruct info = false := by
  rw [ctype_isstruct, decide_eq_false_iff_not]
  intro isStruct
  rw [isoperand, Bool.or_eq_true] at type
  rcases type with isPtr | isArray
  · rw [ctype_isptr, isStruct] at isPtr
    exact absurd isPtr (by decide)
  · rw [ctype_isrefarray, decide_eq_true_eq] at isArray
    have shifted := congrArg (fun info : CTInfo => info >>> 28) isArray
    rw [BitVec.ushiftRight_and_distrib] at shifted
    have struct : info >>> 28 = CT_STRUCT := isStruct
    rw [struct] at shifted
    exact absurd shifted (by decide)

theorem carith_pointers_eq (pointer : IsPointer cts ct pt p sz) {ct' : CTypeID} {q : BitVec 64} (pointer' : IsPointer cts ct' pt q sz)
    (same : ctype_cid (cts.tab ct).info = ctype_cid (cts.tab ct').info) :
    carith_ptr cts (.ptr ct p) (.ptr ct' q) .sub =
        some (.intptr (((p - q).sdiv (sz.signExtend 64)).setWidth 32).toInt) ∧
      carith_ptr cts (.ptr ct p) (.ptr ct' q) .lt = some (.bool (p < q)) := by
  have compatible : lj_cconv_compatptr cts ctypeSteps ct ct' CCF_IGNQUAL = some true :=
    compatptr_same _ pointer.child same (not_struct_of_isoperand pointer'.type)
  have positive := pointer.positive
  have some : ¬(sz = 0 ∨ sz = CTSIZE_INVALID) := by
    intro bad
    rcases bad with bad | bad <;> rw [bad] at positive <;> exact absurd positive (by decide)
  constructor
  · rw [carith_ptr, if_pos ⟨pointer.type, pointer'.type, by decide⟩, carith_pointers, if_neg (by decide), compatible]
    simp only [Option.bind_eq_bind, Option.bind_some, Bool.not_true, Bool.false_eq_true, if_false, if_true, pointer.size, some]
    rfl
  · rw [carith_ptr, if_pos ⟨pointer.type, pointer'.type, by decide⟩, carith_pointers, if_neg (by decide), compatible]
    rfl

/-! ## Addresses -/

theorem moved_eq (p i : BitVec 64) (sz : CTSize) :
    p + i * sz.signExtend 64 = BitVec.ofInt 64 (p.toNat + i.toInt * sz.toInt) := by
  rw [BitVec.ofInt_add, BitVec.ofInt_mul, BitVec.ofInt_natCast, BitVec.ofNat_toNat, BitVec.setWidth_eq, BitVec.ofInt_toInt,
    BitVec.signExtend]

theorem toNat_moved (range : InAddressRange p i sz) :
    ((p + i * sz.signExtend 64).toNat : Int) = p.toNat + i.toInt * sz.toInt := by
  have ⟨low, high⟩ := range
  rw [moved_eq, BitVec.toNat_ofInt]
  omega

/-- The difference in elements, before it is narrowed. -/
theorem sdiv_moved (pointer : IsPointer cts ct pt p sz) (range : InAddressRange p i sz) :
    (p + i * sz.signExtend 64 - p).sdiv (sz.signExtend 64) = i := by
  have positive := pointer.positive
  have address := pointer.address
  have ⟨low, high⟩ := range
  have size : (sz.signExtend 64).toInt = sz.toInt := BitVec.toInt_signExtend_of_le (by decide)
  have distance : (i * sz.signExtend 64).toInt = i.toInt * sz.toInt := by
    have product : i * sz.signExtend 64 = BitVec.ofInt 64 (i.toInt * sz.toInt) := by
      rw [BitVec.ofInt_mul, BitVec.ofInt_toInt, BitVec.signExtend]
    rw [product, BitVec.toInt_ofInt_eq_self (by decide)] <;> omega
  have notMinusOne : sz.signExtend 64 ≠ -1#64 := by
    intro same
    rw [same] at size
    have minusOne : (-1#64).toInt = -1 := rfl
    omega
  rw [BitVec.add_comm, BitVec.add_sub_cancel]
  apply BitVec.eq_of_toInt_eq
  rw [BitVec.toInt_sdiv_of_ne_or_ne _ _ (.inr notMinusOne), distance, size, Int.mul_tdiv_cancel _ (by omega)]

/-- The difference is narrowed to 32 bits. -/
theorem narrowed_eq_iff (i : BitVec 64) : (i.setWidth 32).toInt = i.toInt ↔ -2 ^ 31 ≤ i.toInt ∧ i.toInt < 2 ^ 31 := by
  have low := BitVec.le_toInt (i.setWidth 32)
  have high := BitVec.toInt_lt (x := i.setWidth 32)
  constructor
  · intro same
    rw [← same]
    exact ⟨low, high⟩
  · intro ⟨least, most⟩
    have narrowed : i.setWidth 32 = BitVec.ofInt 32 i.toInt := by
      apply BitVec.eq_of_toNat_eq
      have value := BitVec.toInt_eq_toNat_cond i
      have small := i.isLt
      rw [BitVec.toNat_setWidth, BitVec.toNat_ofInt]
      split_ifs at value <;> omega
    rw [narrowed, BitVec.toInt_ofInt_eq_self (by decide) least most]

/-- Pointer arithmetic satisfies its laws exactly if the number of elements fits 32 bits. -/
theorem pointerLaws_iff (pointer : IsPointer cts ct pt p sz) (range : InAddressRange p i sz) (range' : InAddressRange p j sz) :
    PointerLaws cts ct p i j ↔ -2 ^ 31 ≤ i.toInt ∧ i.toInt < 2 ^ 31 := by
  have add := carith_ptr_add pointer
  have ⟨low, high⟩ := range
  have ⟨low', high'⟩ := range'
  have place := toNat_moved range
  have place' := toNat_moved range'
  have moved : IsPointer cts pt pt (p + i * sz.signExtend 64) sz :=
    pointer.moved (by omega)
  have moved' : IsPointer cts pt pt (p + j * sz.signExtend 64) sz :=
    pointer.moved (by omega)
  have difference := (carith_pointers_eq moved pointer pointer.cid).1
  rw [sdiv_moved pointer range] at difference
  rw [← narrowed_eq_iff]
  constructor
  · intro laws
    have ⟨id, q, sum, back⟩ := laws.difference
    rw [add] at sum
    cases sum
    rw [difference] at back
    exact CDResult.intptr.inj (Option.some.inj back)
  · intro same
    rw [same] at difference
    refine ⟨⟨_, _, add i, difference⟩, ⟨_, _, carith_ptr_swapped pointer i, add i⟩, ⟨_, _, carith_ptr_sub pointer i, add (-i)⟩,
      ⟨_, _, _, _, add i, carith_ptr_add moved j, ?_⟩, ⟨_, _, _, _, add i, add j, ?_⟩⟩
    · rw [add, BitVec.add_assoc, BitVec.add_mul]
    · have order : p + i * sz.signExtend 64 < p + j * sz.signExtend 64 ↔ i.toInt < j.toInt := by
        rw [BitVec.lt_def, ← Int.ofNat_lt, place, place', Int.add_lt_add_iff_left]
        exact Int.mul_lt_mul_right pointer.positive
      rw [(carith_pointers_eq moved moved' rfl).2, decide_eq_decide.mpr order]

end

/-- A table with `char` and `char *`. -/
def charTypes : CTState where
  tab := CTab.ofList [⟨0, 0, 0⟩, ⟨CTINFO CT_NUM 0, 1, 0⟩, ⟨CTINFO CT_PTR (CTALIGN_PTR ||| 1), 8, 0⟩]
  lj_ctype_intern info size := if info = CTINFO CT_PTR (CTALIGN_PTR ||| 1) ∧ size = 8 then some 2 else none
  interned info size id found := by
    split at found
    · rename_i same
      cases found
      rw [same.1, same.2]
      exact ⟨rfl, rfl⟩
    · nomatch found

theorem isPointer_charTypes {p : BitVec 64} (address : p.toNat < 2 ^ 47) : IsPointer charTypes 2 2 p 1 :=
  ⟨rfl, rfl, by decide, rfl, rfl, address⟩

theorem pointerLaws_near : PointerLaws charTypes 2 0x1000 5 (-3) :=
  (pointerLaws_iff (isPointer_charTypes (by decide)) (by decide) (by decide)).mpr (by decide)

/-- The difference of pointers that are 2^31 bytes apart is negative. -/
theorem pointerLaws_far : InAddressRange 0x1000 0x80000000 1 ∧ InAddressRange 0x1000 0 1 ∧
    ¬PointerLaws charTypes 2 0x1000 0x80000000 0 := by
  refine ⟨by decide, by decide, ?_⟩
  intro laws
  have ⟨id, q, sum, back⟩ := laws.difference
  have sum' : carith_ptr charTypes (.ptr 2 0x1000) (int64 0x80000000) .add = some (.cdata 2 0x80001000) := by rfl
  rw [sum'] at sum
  cases sum
  have back' : carith_ptr charTypes (.ptr 2 0x80001000) (.ptr 2 0x1000) .sub = some (.intptr (-0x80000000)) := by rfl
  rw [back'] at back
  exact absurd back (by decide)

end TvmJit.Carith
