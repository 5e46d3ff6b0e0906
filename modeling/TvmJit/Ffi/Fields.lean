import TvmJit.Foundation.Buckets
import TvmJit.Ffi.Place

/-! What is known of the fields of a chain before they are laid out. -/

namespace TvmJit

open Foundation Function

namespace CTab

variable {T T' T'' : CTab} {S : List CTypeID} {id : CTypeID} {steps : Nat}

/-- The tables agree on the types that are not in the list. -/
def AgreesOff (S : List CTypeID) (T T' : CTab) : Prop :=
  ∀ id, id ∉ S → (T' id).info = (T id).info ∧ (T' id).size = (T id).size

/-- No type outside the list has its child in it. -/
def Closed (S : List CTypeID) (T : CTab) : Prop :=
  ∀ id, id ∉ S →
    (ctype_isenum (T id).info || ctype_isattrib (T id).info || ctype_isarray (T id).info) = true →
    ctype_cid (T id).info ∉ S

theorem AgreesOff.refl (S : List CTypeID) (T : CTab) : AgreesOff S T T := fun _ _ => ⟨rfl, rfl⟩

theorem AgreesOff.trans (first : AgreesOff S T T') (second : AgreesOff S T' T'') :
    AgreesOff S T T'' := fun id off =>
  ⟨(second id off).1.trans (first id off).1, (second id off).2.trans (first id off).2⟩

theorem Closed.of_agrees (closed : Closed S T) (agrees : AgreesOff S T T') : Closed S T' := by
  intro id off follows
  rw [(agrees id off).1] at follows ⊢
  exact closed id off follows

/-- The type that is found lies outside the list, too. -/
theorem rawLoop_agrees (steps : Nat) (closed : Closed S T) (agrees : AgreesOff S T T') (off : id ∉ S) :
    (T.rawLoop steps id = none ∧ T'.rawLoop steps id = none) ∨
      ∃ raw, raw ∉ S ∧ T.rawLoop steps id = some (T raw) ∧ T'.rawLoop steps id = some (T' raw) := by
  induction steps generalizing id with
  | zero => exact .inl ⟨rfl, rfl⟩
  | succ steps induction =>
      rw [rawLoop, rawLoop, (agrees id off).1]
      split
      · next isAttrib => exact induction (closed id off (by simp [isAttrib]))
      · exact .inr ⟨id, off, rfl, rfl⟩

theorem infoLoop_agrees (closed : Closed S T) (agrees : AgreesOff S T T') (off : id ∉ S)
    (qual : CTInfo) : T'.infoLoop steps id qual = T.infoLoop steps id qual := by
  induction steps generalizing id qual with
  | zero => rfl
  | succ steps induction =>
      obtain ⟨info, size⟩ := agrees id off
      rw [infoLoop, infoLoop]
      dsimp only
      rw [info, size]
      split
      · next isEnum => exact induction (closed id off (by simp [isEnum])) qual
      · split
        · next isAttrib => exact induction (closed id off (by simp [isAttrib])) _
        · rfl

/-- A mask with all bits of the type keeps it. -/
theorem type_and_mask {mask : BitVec 32} (whole : mask >>> 28 = 0xf#32) (info : CTInfo) :
    ctype_type (info &&& mask) = ctype_type info := by
  have low := toNat_and_mask (k := 4) (info >>> 28) (by decide)
  have small := info.isLt
  rw [ctype_type, BitVec.ushiftRight_and_distrib, whole]
  apply BitVec.eq_of_toNat_eq
  refine low.trans (Nat.mod_eq_of_lt ?_)
  rw [toNat_shr]
  omega

/-- Integers and booleans are number types. -/
theorem type_of_integer {info : CTInfo} (isNum : ctype_isinteger_or_bool info = true) :
    ctype_type info = CT_NUM := by
  rw [ctype_isinteger_or_bool, decide_eq_true_eq] at isNum
  have whole : (CTMASK_NUM ||| CTF_FP) >>> 28 = 0xf#32 := by decide
  have kept := type_and_mask whole info
  rw [isNum] at kept
  exact kept.symm

theorem type_of_xattrib {info : CTInfo} (isSubtype : ctype_isxattrib info CTA_SUBTYPE = true) :
    ctype_type info = CT_ATTRIB := by
  rw [ctype_isxattrib, decide_eq_true_eq] at isSubtype
  have whole : (CTMASK_NUM ||| CTMASK_ATTRIB) >>> 28 = 0xf#32 := by decide
  have kept := type_and_mask whole info
  rw [isSubtype] at kept
  exact kept.symm

/-- What is looked up for a number type is its own size. -/
theorem infoLoop_raw {tct : CType} {steps' : Nat} {qual : CTInfo} {info : CTInfo} {size : CTSize}
    (raw : T.rawLoop steps id = some tct) (isNum : ctype_isinteger_or_bool tct.info = true)
    (found : T.infoLoop steps' id qual = some (info, size)) : size = tct.size := by
  induction steps generalizing id steps' qual with
  | zero => cases raw
  | succ steps induction =>
      cases steps' with
      | zero => cases found
      | succ steps' =>
          rw [rawLoop] at raw
          rw [infoLoop] at found
          dsimp only at found
          split at raw
          · next isAttrib =>
              have notEnum : ctype_isenum (T id).info = false := by
                rw [ctype_isattrib, decide_eq_true_eq] at isAttrib
                rw [ctype_isenum, isAttrib]
                decide
              rw [notEnum, if_neg Bool.false_ne_true, if_pos isAttrib] at found
              exact induction raw found
          · next notAttrib =>
              cases raw
              have number := type_of_integer isNum
              have notEnum : ctype_isenum (T id).info = false := by
                rw [ctype_isenum, number]
                decide
              have notFunc : ctype_isfunc (T id).info = false := by
                rw [ctype_isfunc, number]
                decide
              rw [notEnum, if_neg Bool.false_ne_true, if_neg notAttrib, notFunc] at found
              cases found
              rfl

/-- The qualifiers and alignments outside the list do not have the flag of booleans. -/
def PlainQuals (S : List CTypeID) (T : CTab) : Prop :=
  ∀ id, id ∉ S → (ctype_isxattrib (T id).info CTA_QUAL = true → (T id).size &&& CTF_BOOL = 0) ∧
    (ctype_isxattrib (T id).info CTA_ALIGN = true → CTALIGN (T id).size &&& CTF_BOOL = 0)

theorem PlainQuals.of_agrees (plain : PlainQuals S T) (agrees : AgreesOff S T T') :
    PlainQuals S T' := by
  intro id off
  have ⟨info, size⟩ := agrees id off
  rw [info, size]
  exact plain id off

theorem and_bool_or {x y : CTInfo} (none : x &&& CTF_BOOL = 0) (none' : y &&& CTF_BOOL = 0) :
    (x ||| y) &&& CTF_BOOL = 0 := by
  rw [BitVec.and_or_distrib_right, none, none']
  exact BitVec.or_zero

/-- What is looked up for a number type is boolean when the type is. -/
theorem infoLoop_bool {tct : CType} {steps' : Nat} {qual : CTInfo} {info : CTInfo} {size : CTSize}
    (closed : Closed S T) (plain : PlainQuals S T) (off : id ∉ S)
    (raw : T.rawLoop steps id = some tct) (isNum : ctype_isinteger_or_bool tct.info = true)
    (none : qual &&& CTF_BOOL = 0) (found : T.infoLoop steps' id qual = some (info, size)) :
    info &&& CTF_BOOL = tct.info &&& CTF_BOOL := by
  induction steps generalizing id steps' qual with
  | zero => cases raw
  | succ steps induction =>
      cases steps' with
      | zero => cases found
      | succ steps' =>
          rw [rawLoop] at raw
          rw [infoLoop] at found
          dsimp only at found
          split at raw
          · next isAttrib =>
              have notEnum : ctype_isenum (T id).info = false := by
                rw [ctype_isattrib, decide_eq_true_eq] at isAttrib
                rw [ctype_isenum, isAttrib]
                decide
              rw [notEnum, if_neg Bool.false_ne_true, if_pos isAttrib] at found
              have ⟨isQual, isAlign⟩ := plain id off
              apply induction (closed id off (by simp [isAttrib])) raw _ found
              split
              · next quals => exact and_bool_or none (isQual quals)
              · split
                · next aligns =>
                    rw [Bool.and_eq_true] at aligns
                    have flag : CTFP_ALIGNED &&& CTALIGN (T id).size = 0 := by
                      apply BitVec.eq_of_getLsbD_eq
                      intro k inside
                      rw [BitVec.getLsbD_and, CTALIGN, BitVec.getLsbD_shiftLeft]
                      rcases Nat.eq_zero_or_pos k with rfl | positive
                      · simp
                      · simp [CTFP_ALIGNED, BitVec.getLsbD_one, positive.ne']
                    rw [BitVec.add_eq_or_of_and_eq_zero _ _ flag]
                    exact and_bool_or none (and_bool_or (by decide) (isAlign aligns.1))
                · exact none
          · next notAttrib =>
              cases raw
              have number := type_of_integer isNum
              have notEnum : ctype_isenum (T id).info = false := by
                rw [ctype_isenum, number]
                decide
              rw [notEnum, if_neg Bool.false_ne_true, if_neg notAttrib] at found
              cases found
              have align : ((T id).info &&& CTF_ALIGN) &&& CTF_BOOL = 0 := by
                rw [BitVec.and_assoc, show CTF_ALIGN &&& CTF_BOOL = 0 by decide]
                exact BitVec.and_zero
              have kept : ((T id).info &&& ~~~(CTF_ALIGN ||| CTMASK_CID)) &&& CTF_BOOL =
                  (T id).info &&& CTF_BOOL := by
                rw [BitVec.and_assoc]
                rfl
              have before : (if qual &&& CTFP_ALIGNED = 0 then qual ||| ((T id).info &&& CTF_ALIGN)
                  else qual) &&& CTF_BOOL = 0 := by
                split
                · exact and_bool_or none align
                · exact none
              rw [BitVec.and_or_distrib_right, before, kept]
              exact BitVec.zero_or

theorem elementLoop_agrees (closed : Closed S T) (agrees : AgreesOff S T T') {ct ct' : CType}
    (same : ct'.info = ct.info) (off : ctype_cid ct.info ∉ S) :
    T'.elementLoop steps ct' = T.elementLoop steps ct := by
  induction steps generalizing ct ct' with
  | zero => rfl
  | succ steps induction =>
      rw [elementLoop, elementLoop, ctype_rawchild, ctype_rawchild, ctype_raw, ctype_raw, same]
      rcases rawLoop_agrees ctypeSteps closed agrees off with
        ⟨before, after⟩ | ⟨raw, rawOff, before, after⟩
      · rw [before, after]
      · rw [before, after]
        obtain ⟨info, -⟩ := agrees raw rawOff
        dsimp only
        rw [info]
        split
        · next isArray =>
            rw [Bool.and_eq_true] at isArray
            exact induction info (closed raw rawOff (by simp [isArray.1]))
        · rfl

section

variable [CTarget]

theorem field_align_agrees (closed : Closed S T) (agrees : AgreesOff S T T') {ct : CType}
    (off : ctype_cid ct.info ∉ S) (info : CTInfo) :
    T'.cp_field_align ct info = T.cp_field_align ct info := by
  rw [cp_field_align, cp_field_align, elementLoop_agrees closed agrees rfl off]

theorem field_align_le {ct : CType} {info : CTInfo} {align : Nat}
    (found : T.cp_field_align ct info = some align) : align ≤ 15 := by
  have most := align_le info
  rw [cp_field_align] at found
  dsimp only at found
  split at found
  · obtain ⟨element, -, rfl⟩ := Option.map_eq_some_iff.mp found
    split <;> omega
  · cases found
    exact most

/-- What is known of an element of the chain that is laid out. -/
def fieldOf (pack : Nat) (sattr : CTInfo) (T : CTab) (id : CTypeID) : Option FieldInfo :=
  let ct := T id
  if LayoutState.isLaid ct then
    match T.lj_ctype_info (ctype_cid ct.info) with
    | none => none
    | some (info, sz) => (T.cp_field_align ct info).map fun align =>
        ⟨ct, info, if sz = CTSIZE_INVALID then 0 else 8 * sz,
          LayoutState.effectiveAlign pack sattr ct.size align, ct.size,
          (ct.size ||| sattr) &&& CTFP_PACKED ≠ 0⟩
  else none

end

/-! ## Declared fields -/

theorem toNat_and_aligned {attr : CTInfo} (none : attr &&& CTF_ALIGN = 0) : ctype_align attr = 0 := by
  have bits : ((attr &&& CTF_ALIGN) >>> 16) = (attr >>> 16) &&& CTMASK_ALIGN := by
    rw [BitVec.ushiftRight_and_distrib]
    rfl
  rw [ctype_align, ← bits, none]
  rfl

theorem effectiveAlign_le {pack align : Nat} {sattr attr : CTInfo} (most : align ≤ 15) :
    LayoutState.effectiveAlign pack sattr attr align ≤ 15 := by
  have attrMost := align_le attr
  rw [LayoutState.effectiveAlign]
  split <;> split <;> omega

/-- A packed field without an alignment of its own starts at any byte. -/
theorem effectiveAlign_packed {pack align : Nat} {sattr attr : CTInfo}
    (packed : (attr ||| sattr) &&& CTFP_PACKED ≠ 0) (none : attr &&& CTF_ALIGN = 0) :
    LayoutState.effectiveAlign pack sattr attr align = 0 := by
  rw [LayoutState.effectiveAlign]
  have isPacked : ((attr ||| sattr) &&& CTFP_PACKED ≠ 0 ||
      (attr &&& CTFP_ALIGNED ≠ 0 && ctype_align attr > align)) = true := by
    rw [Bool.or_eq_true, decide_eq_true_eq]
    exact .inl packed
  rw [if_pos isPacked, toNat_and_aligned none, if_neg (Nat.not_lt_zero pack)]

/-! The words that stand for a field and for a transparent one. -/

theorem field_word (cid : CTypeID) {bits : CTSize} (small : bits.toNat < 128) :
    ctype_isfield (CTINFO CT_FIELD (cid.setWidth 32 + (bits <<< 16))) = true ∧
      ctype_isbitfield (CTINFO CT_FIELD (cid.setWidth 32 + (bits <<< 16))) = false ∧
      ctype_cid (CTINFO CT_FIELD (cid.setWidth 32 + (bits <<< 16))) = cid ∧
      ctype_bitcsz (CTINFO CT_FIELD (cid.setWidth 32 + (bits <<< 16))) = bits := by
  have below := cid.isLt
  have number : (CT_FIELD <<< 28).toNat = 9 * 2 ^ 28 := by decide
  have word : (CTINFO CT_FIELD (cid.setWidth 32 + (bits <<< 16))).toNat =
      9 * 2 ^ 28 + cid.toNat + bits.toNat * 2 ^ 16 := by
    rw [CTINFO, BitVec.toNat_add, number, BitVec.toNat_add, BitVec.toNat_setWidth,
      BitVec.toNat_shiftLeft, Nat.shiftLeft_eq]
    omega
  refine ⟨?_, ?_, BitVec.eq_of_toNat_eq ?_, BitVec.eq_of_toNat_eq ?_⟩
  · rw [FieldInfo.isField_iff, type_toNat, word]
    omega
  · rw [← Bool.not_eq_true, FieldInfo.isbitfield_iff, type_toNat, word]
    omega
  · rw [cid_toNat, word]
    omega
  · rw [bitcsz_toNat, word]
    omega

theorem subtype_word (cid : CTypeID) :
    ctype_isfield (CTINFO CT_ATTRIB (CTATTRIB CTA_SUBTYPE + cid.setWidth 32)) = false ∧
      ctype_isbitfield (CTINFO CT_ATTRIB (CTATTRIB CTA_SUBTYPE + cid.setWidth 32)) = false ∧
      ctype_cid (CTINFO CT_ATTRIB (CTATTRIB CTA_SUBTYPE + cid.setWidth 32)) = cid := by
  have below := cid.isLt
  have number : (CT_ATTRIB <<< 28).toNat = 8 * 2 ^ 28 := by decide
  have number' : (CTATTRIB CTA_SUBTYPE).toNat = 3 * 2 ^ 16 := by decide
  have word : (CTINFO CT_ATTRIB (CTATTRIB CTA_SUBTYPE + cid.setWidth 32)).toNat =
      8 * 2 ^ 28 + 3 * 2 ^ 16 + cid.toNat := by
    rw [CTINFO, BitVec.toNat_add, number, BitVec.toNat_add, number', BitVec.toNat_setWidth]
    omega
  refine ⟨?_, ?_, BitVec.eq_of_toNat_eq ?_⟩
  · rw [← Bool.not_eq_true, FieldInfo.isField_iff, type_toNat, word]
    omega
  · rw [← Bool.not_eq_true, FieldInfo.isbitfield_iff, type_toNat, word]
    omega
  · rw [cid_toNat, word]
    omega

/-- The kinds of elements `cp_decl_struct` creates for fields. -/
inductive Made (T : CTab) (decl : FieldDecl) (ct : CType) : Prop
  | subtype (info : ct.info = CTINFO CT_ATTRIB (CTATTRIB CTA_SUBTYPE + decl.ctypeid.setWidth 32))
      (size : ct.size = decl.attr ||| 0x80000000 ∨ ct.size = 0)
  | regular (info : ct.info = CTINFO CT_FIELD (decl.ctypeid.setWidth 32 + (CTBSZ_FIELD <<< 16)))
      (size : ct.size = decl.attr)
  | bits {tct : CType} (raw : T.ctype_raw decl.ctypeid = some tct)
      (isNum : ctype_isinteger_or_bool tct.info = true) (small : 8 * tct.size ≤ CTBSZ_MAX)
      (narrow : decl.bits ≤ tct.maxBits)
      (info : ct.info = CTINFO CT_FIELD (decl.ctypeid.setWidth 32 + (decl.bits <<< 16)))
      (size : ct.size = decl.attr)

theorem fieldEntry_made {decl : FieldDecl} {ct : CType} {last : Bool}
    (entry : T.fieldEntry decl = some (.ok (ct, last))) : Made T decl ct := by
  rw [fieldEntry] at entry
  cases raw : T.ctype_raw decl.ctypeid with
  | none =>
      rw [raw] at entry
      cases entry
  | some tct =>
      rw [raw] at entry
      dsimp only at entry
      have isMade {made : CType × Bool} (same : some (Except.ok (ε := CParseError) made) =
          some (.ok (ct, last))) : ct = made.1 :=
        congrArg Prod.fst (Except.ok.inj (Option.some.inj same)).symm
      split at entry
      · split at entry
        · split at entry
          · exact nomatch entry
          · have same := isMade entry
            have attr : ct.size = if ctype_isstruct tct.info then decl.attr ||| 0x80000000 else 0 :=
              congrArg CType.size same
            have info := congrArg CType.info same
            refine .subtype info ?_
            rw [attr]
            split
            · exact .inl rfl
            · exact .inr rfl
        · have same := isMade entry
          have info := congrArg CType.info same
          have size := congrArg CType.size same
          exact .regular info size
      · split at entry
        · exact nomatch entry
        · next accepted =>
            have same := isMade entry
            simp only [Bool.or_eq_true, Bool.not_eq_true', decide_eq_true_eq, not_or,
              Bool.not_eq_false] at accepted
            obtain ⟨⟨⟨isNum, -⟩, small⟩, narrow⟩ := accepted
            have info := congrArg CType.info same
            have size := congrArg CType.size same
            exact .bits raw isNum (BitVec.not_lt.mp small) (BitVec.not_lt.mp narrow) info size

theorem Made.congr {decl : FieldDecl} {ct ct' : CType} (made : Made T decl ct)
    (info : ct'.info = ct.info) (size : ct'.size = ct.size) : Made T decl ct' := by
  cases made with
  | subtype isInfo isSize => exact .subtype (info.trans isInfo) (by rwa [size])
  | regular isInfo isSize => exact .regular (info.trans isInfo) (size.trans isSize)
  | bits raw isNum small narrow isInfo isSize =>
      exact .bits raw isNum small narrow (info.trans isInfo) (size.trans isSize)

theorem field_small : CTBSZ_FIELD.toNat < 128 := by decide

/-- The sizes of numbers that are not in the list. -/
def NumSizes (S : List CTypeID) (T : CTab) : Prop :=
  ∀ id, id ∉ S → ctype_isinteger_or_bool (T id).info = true →
    ∃ k, k ≤ 5 ∧ (T id).size = BitVec.ofNat 32 (2 ^ k)

theorem NumSizes.of_agrees (sizes : NumSizes S T) (agrees : AgreesOff S T T') : NumSizes S T' := by
  intro id off isNum
  obtain ⟨info, size⟩ := agrees id off
  rw [info] at isNum
  rw [size]
  exact sizes id off isNum

theorem eight_mul {k : Nat} (small : k ≤ 5) :
    8 * BitVec.ofNat 32 (2 ^ k) = BitVec.ofNat 32 (2 ^ (3 + k)) := by
  have power : 2 ^ (3 + k) = 8 * 2 ^ k := Nat.pow_add 2 3 k
  have most : 2 ^ k ≤ 2 ^ 5 := Nat.pow_le_pow_right (by decide) small
  apply BitVec.eq_of_toNat_eq
  rw [BitVec.toNat_mul, BitVec.toNat_ofNat, BitVec.toNat_ofNat, power]
  change 8 * _ % _ = _
  omega

/-- The width of a declared bitfield and the size of its container. -/
theorem bits_container {ct : CType} {k : Nat} {bits : CTSize} (size : ct.size = BitVec.ofNat 32 (2 ^ k))
    (small : k ≤ 5) (fits : 8 * ct.size ≤ CTBSZ_MAX) (narrow : bits ≤ ct.maxBits) :
    k ≤ 2 ∧ bits ≤ 8 * ct.size := by
  have isSize : (8 * ct.size).toNat = 8 * 2 ^ k := by
    rw [size, eight_mul small, BitVec.toNat_ofNat, Nat.pow_add]
    have most : 2 ^ k ≤ 2 ^ 5 := Nat.pow_le_pow_right (by decide) small
    omega
  have most : 8 * 2 ^ k ≤ 32 := isSize ▸ BitVec.le_def.mp fits
  have one : 1 ≤ 2 ^ k := Nat.one_le_two_pow
  constructor
  · by_contra big
    have least : 2 ^ 3 ≤ 2 ^ k := Nat.pow_le_pow_right (by decide) (Nat.not_le.mp big)
    omega
  · rw [CType.maxBits] at narrow
    rw [BitVec.le_def, isSize]
    have narrow := BitVec.le_def.mp narrow
    split at narrow
    · change _ ≤ 1 at narrow
      omega
    · rwa [isSize] at narrow

theorem bits_small {ct : CType} {bits : CTSize} (fits : 8 * ct.size ≤ CTBSZ_MAX)
    (narrow : bits ≤ ct.maxBits) : bits.toNat < 128 := by
  have most := BitVec.le_def.mp fits
  have narrow := BitVec.le_def.mp narrow
  change _ ≤ 32 at most
  rw [CType.maxBits] at narrow
  split at narrow
  · change _ ≤ 1 at narrow
    omega
  · omega

theorem Made.cid {decl : FieldDecl} {ct : CType} (made : Made T decl ct) :
    ctype_cid ct.info = decl.ctypeid := by
  cases made with
  | subtype info _ =>
      rw [info]
      exact (subtype_word _).2.2
  | regular info _ =>
      rw [info]
      exact (field_word _ field_small).2.2.1
  | bits raw isNum small narrow info _ =>
      rw [info]
      exact (field_word _ (bits_small small narrow)).2.2.1

/-- The attributes of a field, with the mark of a transparent one. -/
theorem marked_attr {attr : CTInfo} {size : CTSize} (isSize : size = attr ||| 0x80000000) :
    size &&& CTFP_ALIGNED = attr &&& CTFP_ALIGNED ∧ size &&& CTF_ALIGN = attr &&& CTF_ALIGN := by
  rw [isSize]
  exact ⟨or_and_of_disjoint (by decide), or_and_of_disjoint (by decide)⟩

theorem Made.aligned {decl : FieldDecl} {ct : CType} (made : Made T decl ct)
    (none : ct.size &&& CTFP_ALIGNED = 0) : ct.size &&& CTF_ALIGN = 0 := by
  have declared (none : decl.attr &&& CTFP_ALIGNED = 0) : decl.attr &&& CTF_ALIGN = 0 := by
    by_contra some
    exact decl.aligned some none
  cases made with
  | subtype _ size =>
      rcases size with size | size
      · obtain ⟨flag, align⟩ := marked_attr size
        rw [align]
        exact declared (flag.symm.trans none)
      · rw [size]
        exact BitVec.zero_and
  | regular _ size =>
      rw [size] at none ⊢
      exact declared none
  | bits _ _ _ _ _ size =>
      rw [size] at none ⊢
      exact declared none

/-- A field that does not fill its container was declared with a width. -/
theorem Made.bits_of {decl : FieldDecl} {ct : CType} (made : Made T decl ct)
    (isBits : (ctype_bitcsz ct.info = CTBSZ_FIELD || !ctype_isfield ct.info) = false) :
    ∃ tct, T.ctype_raw decl.ctypeid = some tct ∧ ctype_isinteger_or_bool tct.info = true ∧
      8 * tct.size ≤ CTBSZ_MAX ∧ decl.bits ≤ tct.maxBits ∧
      ct.info = CTINFO CT_FIELD (decl.ctypeid.setWidth 32 + (decl.bits <<< 16)) := by
  cases made with
  | subtype info _ =>
      rw [info, (subtype_word _).1] at isBits
      simp at isBits
  | regular info _ =>
      rw [info, (field_word _ field_small).2.2.2] at isBits
      simp at isBits
  | bits raw isNum small narrow info _ => exact ⟨_, raw, isNum, small, narrow, info⟩

/-- The width and the container of a declared bitfield. -/
theorem Made.container {decl : FieldDecl} {info : CTInfo} {sz : CTSize} (sizes : NumSizes S T)
    (closed : Closed S T) (agrees : AgreesOff S T T') (off : decl.ctypeid ∉ S)
    (made : Made T decl (T' id))
    (isBits : (ctype_bitcsz (T' id).info = CTBSZ_FIELD || !ctype_isfield (T' id).info) = false)
    (look : T'.lj_ctype_info decl.ctypeid = some (info, sz)) :
    ∃ c, 3 ≤ c ∧ c ≤ 5 ∧ 8 * sz = BitVec.ofNat 32 (2 ^ c) ∧ sz ≠ CTSIZE_INVALID ∧
      ctype_bitcsz (T' id).info = decl.bits ∧ decl.bits ≤ 8 * sz := by
  obtain ⟨tct, isRaw, isNum, fits, narrow, word⟩ := made.bits_of isBits
  rcases rawLoop_agrees ctypeSteps closed agrees off with
    ⟨before, -⟩ | ⟨raw, rawOff, before, after⟩
  · cases isRaw.symm.trans before
  · obtain rfl : tct = T raw := Option.some.inj (isRaw.symm.trans before)
    obtain ⟨sameInfo, sameSize⟩ := agrees raw rawOff
    have bitsSmall := bits_small fits narrow
    obtain ⟨k, few, size⟩ := sizes raw rawOff isNum
    rw [← sameInfo] at isNum
    have isSize : sz = (T raw).size := (infoLoop_raw after isNum look).trans sameSize
    obtain ⟨small, narrow⟩ := bits_container size few fits narrow
    have eight : 8 * sz = BitVec.ofNat 32 (2 ^ (3 + k)) := by rw [isSize, size, eight_mul few]
    rw [← isSize] at narrow size
    refine ⟨3 + k, by omega, by omega, eight, ?_, ?_, narrow⟩
    · rw [size]
      obtain rfl | rfl | rfl : k = 0 ∨ k = 1 ∨ k = 2 := by omega
      all_goals decide
    · rw [word]
      exact (field_word _ bitsSmall).2.2.2

/-- A declared bitfield of booleans has one bit. -/
theorem Made.bool {decl : FieldDecl} {info : CTInfo} {sz : CTSize} (plain : PlainQuals S T)
    (closed : Closed S T) (agrees : AgreesOff S T T') (off : decl.ctypeid ∉ S)
    (made : Made T decl (T' id))
    (isBits : (ctype_bitcsz (T' id).info = CTBSZ_FIELD || !ctype_isfield (T' id).info) = false)
    (look : T'.lj_ctype_info decl.ctypeid = some (info, sz)) (isBool : info &&& CTF_BOOL ≠ 0) :
    ctype_bitcsz (T' id).info ≤ 1 := by
  obtain ⟨tct, isRaw, isNum, fits, narrow, word⟩ := made.bits_of isBits
  rcases rawLoop_agrees ctypeSteps closed agrees off with
    ⟨before, -⟩ | ⟨raw, rawOff, before, after⟩
  · cases isRaw.symm.trans before
  · obtain rfl : tct = T raw := Option.some.inj (isRaw.symm.trans before)
    have ⟨sameInfo, _⟩ := agrees raw rawOff
    have bitsSmall := bits_small fits narrow
    rw [← sameInfo] at isNum
    have same := infoLoop_bool (closed.of_agrees agrees) (plain.of_agrees agrees) off after isNum
      BitVec.zero_and look
    rw [same, sameInfo] at isBool
    rw [CType.maxBits, if_pos isBool] at narrow
    rw [word, (field_word _ bitsSmall).2.2.2]
    exact narrow

theorem Made.notBitfield {decl : FieldDecl} {ct : CType} (made : Made T decl ct) :
    ctype_isbitfield ct.info = false := by
  cases made with
  | subtype info _ =>
      rw [info]
      exact (subtype_word _).2.1
  | regular info _ =>
      rw [info]
      exact (field_word _ field_small).2.1
  | bits raw isNum small narrow info _ =>
      rw [info]
      exact (field_word _ (bits_small small narrow)).2.1

section

variable [CTarget] {pack : Nat} {sattr : CTInfo} {f : FieldInfo}

/-- What the layout finds out about a field. -/
theorem fieldOf_cases (found : T.fieldOf pack sattr id = some f) :
    ∃ info sz align, LayoutState.isLaid (T id) = true ∧
      T.lj_ctype_info (ctype_cid (T id).info) = some (info, sz) ∧
      T.cp_field_align (T id) info = some align ∧
      f = ⟨T id, info, if sz = CTSIZE_INVALID then 0 else 8 * sz,
        LayoutState.effectiveAlign pack sattr (T id).size align, (T id).size,
        ((T id).size ||| sattr) &&& CTFP_PACKED ≠ 0⟩ := by
  rw [fieldOf] at found
  split at found
  · next isLaid =>
      cases look : T.lj_ctype_info (ctype_cid (T id).info) with
      | none =>
          rw [look] at found
          cases found
      | some both =>
          obtain ⟨info, sz⟩ := both
          rw [look] at found
          obtain ⟨align, aligned, isF⟩ := Option.map_eq_some_iff.mp found
          exact ⟨info, sz, align, isLaid, rfl, aligned, isF.symm⟩
  · cases found

theorem Made.sound {decl : FieldDecl} (sizes : NumSizes S T) (closed : Closed S T)
    (agrees : AgreesOff S T T') (off : decl.ctypeid ∉ S) (made : Made T decl (T' id))
    (found : T'.fieldOf pack sattr id = some f) : f.Sound := by
  obtain ⟨info, sz, align, -, look, aligned, rfl⟩ := fieldOf_cases found
  have cid := made.cid
  rw [cid] at look
  have packed (none : (T' id).size &&& CTFP_ALIGNED = 0)
      (isPacked : ((T' id).size ||| sattr) &&& CTFP_PACKED ≠ 0) :
      LayoutState.effectiveAlign pack sattr (T' id).size align = 0 :=
    effectiveAlign_packed isPacked (made.aligned none)
  have bytes : (if sz = CTSIZE_INVALID then (0 : CTSize) else 8 * sz).toNat % 8 = 0 := by
    split
    · rfl
    · rw [BitVec.toNat_mul]
      change 8 * sz.toNat % 2 ^ 32 % 8 = 0
      omega
  have least : LayoutState.effectiveAlign pack sattr (T' id).size align ≤ 15 :=
    effectiveAlign_le (field_align_le aligned)
  refine ⟨least, bytes, made.notBitfield, fun isBits => ?_, fun isBits => ?_,
    fun none isPacked => packed none (decide_eq_true_eq.mp isPacked)⟩
  · obtain ⟨c, low, high, power, valid, -, -⟩ := made.container sizes closed agrees off isBits look
    refine ⟨c, low, high, ?_⟩
    dsimp only
    rw [if_neg valid, power]
  · obtain ⟨c, -, -, -, valid, width, narrow⟩ := made.container sizes closed agrees off isBits look
    change ctype_bitcsz (T' id).info ≤ if sz = CTSIZE_INVALID then 0 else 8 * sz
    rw [if_neg valid, width]
    exact narrow

end

/-- The element that the declaration of a member has left. -/
inductive Element (T : CTab) : MemberDecl → CType → Prop
  | constant {ct : CType} {ctypeid : CTypeID} {value : CTSize}
      (info : ct.info = CTINFO CT_CONSTVAL (CTF_CONST ||| ctypeid.setWidth 32)) :
      Element T (.constant ctypeid value) ct
  | field {ct : CType} {decl : FieldDecl} (made : Made T decl ct) : Element T (.field decl) ct

/-- A constant is not laid out. -/
theorem notLaid_constant {ct : CType} {ctypeid : CTypeID}
    (info : ct.info = CTINFO CT_CONSTVAL (CTF_CONST ||| ctypeid.setWidth 32)) :
    LayoutState.isLaid ct = false := by
  have below := ctypeid.isLt
  have number : (CT_CONSTVAL <<< 28).toNat = 11 * 2 ^ 28 := by decide
  have flags : (CTF_CONST ||| ctypeid.setWidth 32).toNat < 2 ^ 28 := by
    rw [BitVec.toNat_or, BitVec.toNat_setWidth]
    refine Nat.or_lt_two_pow (by decide) ?_
    omega
  have isType : (ctype_type ct.info).toNat = 11 := by
    rw [info, type_toNat, CTINFO, BitVec.toNat_add, number]
    omega
  have notField : ctype_isfield ct.info = false := by
    rw [← Bool.not_eq_true, FieldInfo.isField_iff, isType]
    decide
  have notSubtype : ctype_isxattrib ct.info CTA_SUBTYPE = false := by
    rw [← Bool.not_eq_true]
    intro isSubtype
    rw [type_of_xattrib isSubtype] at isType
    cases isType
  rw [LayoutState.isLaid, notField, notSubtype]
  rfl

end CTab

end TvmJit
