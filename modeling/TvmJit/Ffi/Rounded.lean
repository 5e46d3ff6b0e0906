import TvmJit.Ffi.Conversions

/-! Where the two tables of conversions differ: a 64-bit integer that becomes a `float` is rounded
once on a trace and twice in the interpreter. -/

namespace TvmJit

open Foundation

/-! ## Rounding twice -/

theorem magnitude_lt (f : Format) (m : Nat) (e : Int) : f.magnitude m e < f.signBit :=
  (f.magnitude_le m e).trans_lt f.infinity_lt

/-- The integers of C, next to the range of a `float`. -/
theorem log2_lt_of_lt {n k : Nat} (small : n < 2 ^ k) (some : 0 < k) : n.log2 < k := by
  rcases eq_or_ne n 0 with rfl | nonzero
  · rw [Nat.log2_zero]
    exact some
  · exact (Nat.log2_lt nonzero).mpr small

/-- An integer goes to a `float` by way of a `double` as it goes directly, unless it straddles the
middle of two of them. -/
theorem convert_ofInt_iff {i : Int} (small : i.natAbs < 2 ^ 65) :
    binary32.convert binary64 (binary64.ofInt i) = binary32.ofInt i ↔ ¬ Straddles 24 53 i.natAbs := by
  have short : i.natAbs.log2 < 65 := log2_lt_of_lt small (by decide)
  have room : i.natAbs.log2 + 1 < binary32.emax := by
    have : binary32.emax = 128 := by decide
    omega
  have room' : (roundTo 53 i.natAbs).log2 + 1 < binary32.emax := by
    have emax : binary32.emax = 128 := by decide
    rcases eq_or_ne i.natAbs 0 with zero | nonzero
    · rw [zero]
      decide
    · have bound := (roundTo_bounds (q := 53) (by decide) nonzero).2
      have longer : (roundTo 53 i.natAbs).log2 < i.natAbs.log2 + 2 := by
        apply log2_lt_of_lt _ (by omega)
        exact bound.trans_lt (Nat.pow_lt_pow_right (by decide) (by omega))
      omega
  have wide : i.natAbs.log2 + 1 < binary64.emax := by
    have : binary64.emax = 1024 := by decide
    omega
  rw [binary32.convert_ofInt binary64 wide, Format.ofInt, Format.encode_inj,
    show binary64.prec = 53 from rfl, binary32.magnitude_eq_iff room' room]
  exact roundTo_twice (by decide) (by decide)

section

variable {d s : CNumber} (v : CValue s)

theorem CValue.natAbs_lt : v.integer.natAbs < 2 ^ 65 := by
  have range := v.integer_inRange
  have sizes := s.sized
  have wide : InRange false 65 v.integer := range.widen (by omega)
  obtain ⟨low, high⟩ := wide
  omega

/-- The source is an integer that straddles the middle of two numbers of the destination. -/
def RoundedTwice (d : CNumber) {s : CNumber} (v : CValue s) : Prop :=
  d.fp = true ∧ d.size = 4 ∧ s.fp = false ∧ Straddles 24 53 v.integer.natAbs

instance (d : CNumber) {s : CNumber} (v : CValue s) : Decidable (RoundedTwice d v) :=
  inferInstanceAs (Decidable (_ ∧ _ ∧ _ ∧ _))

theorem ofWord_inj {n w w' : Nat} (small : w < 256 ^ n) (small' : w' < 256 ^ n) :
    ofWord n w = ofWord n w' ↔ w = w' := by
  constructor
  · intro same
    have words := congrArg word same
    rwa [word_ofWord, word_ofWord, Nat.mod_eq_of_lt small, Nat.mod_eq_of_lt small'] at words
  · rintro rfl
    rfl

theorem binary32_lt {negative : Bool} (m : Nat) (e : Int) :
    binary32.encode negative (binary32.magnitude m e) < 256 ^ 4 :=
  (binary32.encode_lt (magnitude_lt binary32 m e)).trans_le (by decide)

/-- Integers to floating-point numbers: the interpreter and the trace store the same unless the
rounding of the interpreter goes wrong. -/
theorem rounded_iff (toFp : d.fp = true) (integral : s.fp = false) :
    (if d.size = 8 then ofWord 8 (binary64.ofInt v.integer)
      else ofWord 4 (binary32.convert binary64 (binary64.ofInt v.integer))) =
        ofWord d.size (d.format.ofInt v.integer) ↔ ¬ RoundedTwice d v := by
  rcases d.fp_size toFp with size | size
  · have wide : v.integer.natAbs.log2 + 1 < binary64.emax := by
      have short := log2_lt_of_lt v.natAbs_lt (by decide)
      have : binary64.emax = 1024 := by decide
      omega
    have small : binary32.convert binary64 (binary64.ofInt v.integer) < 256 ^ 4 := by
      rw [binary32.convert_ofInt binary64 wide]
      exact binary32_lt _ _
    have small' : binary32.ofInt v.integer < 256 ^ 4 := binary32_lt _ _
    rw [CNumber.format, size, if_neg (by decide), if_neg (by decide), ofWord_inj small small',
      convert_ofInt_iff v.natAbs_lt]
    apply not_congr
    rw [RoundedTwice, toFp, size, integral]
    simp
  · rw [CNumber.format, size, if_pos rfl, if_pos rfl]
    apply iff_of_true rfl
    intro twice
    have := twice.2.1
    omega

/-! ## Both tables -/

/-- The C conversion is defined: a number that becomes an integer has an integer part, in the range
of the cast that makes the integer. -/
def Defined (d : CNumber) {s : CNumber} (v : CValue s) : Prop :=
  d.bool = false → d.fp = false → s.fp = true →
    ∃ i, v.datum.toInt = some i ∧ InRange d.castUnsigned d.castBits i

/-- Whatever value the recorder saw and in whatever operand the trace has the source: a run stores
the bytes that the interpreter writes, or it leaves because the source is zero where the one seen
was not, or the other way round. -/
def TraceAgrees (LJ_64 : Bool) (d : CNumber) {s : CNumber} (v : CValue s) : Prop :=
  ∀ (seen : CValue s) (svisnz : Svisnz), svisnz.Tells seen →
    ∀ (sp : TRef) (run : TraceRun), HoldsSource run sp v →
      ∃ recorded out, crec_ct_ct d s LJ_64 sp svisnz = some recorded ∧
        lj_cconv_ct_ct d s v.bytes = some out ∧
        (recorded.run run = some out ∨ recorded.run run = none ∧ seen.nonzero ≠ v.nonzero)

theorem agrees_of_stores {LJ_64 : Bool} {out : List UInt8} (writes : lj_cconv_ct_ct d s v.bytes = some out)
    (stores : ∀ (svisnz : Svisnz) (sp : TRef) (run : TraceRun), HoldsSource run sp v →
      TraceStores LJ_64 d s sp svisnz run out) : TraceAgrees LJ_64 d v := by
  intro seen svisnz tells sp run holds
  obtain ⟨recorded, records, stored⟩ := stores svisnz sp run holds
  exact ⟨recorded, out, records, writes, Or.inl stored⟩

theorem agrees_of_both {LJ_64 : Bool}
    (both : ∀ (svisnz : Svisnz) (sp : TRef) (run : TraceRun), HoldsSource run sp v →
      ∃ out, lj_cconv_ct_ct d s v.bytes = some out ∧ TraceStores LJ_64 d s sp svisnz run out) :
    TraceAgrees LJ_64 d v := by
  intro seen svisnz tells sp run holds
  obtain ⟨out, writes, recorded, records, stored⟩ := both svisnz sp run holds
  exact ⟨recorded, out, records, writes, Or.inl stored⟩

theorem agrees_to_bool {LJ_64 : Bool} (toBool : d.bool = true) : TraceAgrees LJ_64 d v := by
  cases fromBool : s.bool with
  | true =>
      apply agrees_of_both
      intro svisnz sp run holds
      exact B_B v toBool fromBool holds
  | false =>
      intro seen svisnz tells sp run holds
      have stores : ∃ recorded, crec_ct_ct d s LJ_64 sp svisnz = some recorded ∧ recorded.run run =
          if seen.nonzero = v.nonzero then some (ofInteger d.size (boolInteger v.nonzero)) else none :=
        stores_B v toBool fromBool tells holds
      obtain ⟨recorded, records, stored⟩ := stores
      refine ⟨recorded, _, records, cconv_B v toBool fromBool, ?_⟩
      by_cases same : seen.nonzero = v.nonzero
      · rw [if_pos same] at stored
        exact Or.inl stored
      · rw [if_neg same] at stored
        exact Or.inr ⟨stored, same⟩

theorem agrees_to_integer {LJ_64 : Bool} (notBool : d.bool = false) (toInt : d.fp = false)
    (defined : Defined d v) : TraceAgrees LJ_64 d v := by
  apply agrees_of_both
  intro svisnz sp run holds
  cases fp : s.fp with
  | true =>
      obtain ⟨i, value, range⟩ := defined notBool toInt fp
      exact ⟨_, cconv_I_F v notBool toInt fp value range, stores_I_F v notBool toInt fp value holds⟩
  | false => exact ⟨_, cconv_I_I v notBool toInt fp, stores_I_I v notBool toInt fp holds⟩

/-- An `XLOAD` holds the source. -/
theorem holdsSource_xload :
    HoldsSource ⟨v.bytes, fun _ => 0⟩ (.xload (crec_ct2irt s)) v := rfl

theorem agrees_rounded_iff {LJ_64 : Bool} (toFp : d.fp = true) (integral : s.fp = false) :
    TraceAgrees LJ_64 d v ↔ ¬ RoundedTwice d v := by
  have writes := cconv_F_I v toFp integral
  rw [← rounded_iff v toFp integral]
  constructor
  · intro agrees
    obtain ⟨recorded, out, records, writes', done⟩ :=
      agrees v (.pointer v.bytes) rfl _ _ (holdsSource_xload v)
    have stores : TraceStores LJ_64 d s (.xload (crec_ct2irt s)) (.pointer v.bytes) ⟨v.bytes, fun _ => 0⟩
        (ofWord d.size (d.format.ofInt v.integer)) := stores_F_I v toFp integral (holdsSource_xload v)
    obtain ⟨recorded', records', stored⟩ := stores
    rw [records'] at records
    cases records
    rcases done with same | ⟨left, -⟩
    · rw [stored] at same
      rw [writes] at writes'
      exact Option.some.inj (writes'.trans same.symm)
    · rw [stored] at left
      cases left
  · intro same
    apply agrees_of_both
    intro svisnz sp run holds
    exact ⟨_, writes, same ▸ stores_F_I v toFp integral holds⟩

/-- The trace and the interpreter convert a number to the same bytes, unless it is an integer that
straddles the middle of two numbers of type `float`. -/
theorem conversion_recorded_iff (LJ_64 : Bool) (defined : Defined d v) :
    TraceAgrees LJ_64 d v ↔ ¬ RoundedTwice d v := by
  cases toBool : d.bool with
  | true =>
      apply iff_of_true (agrees_to_bool v toBool)
      rintro ⟨toFp, -⟩
      rw [CNumber.bool_integral toBool] at toFp
      cases toFp
  | false =>
      cases toFp : d.fp with
      | false =>
          apply iff_of_true (agrees_to_integer v toBool toFp defined)
          rintro ⟨toFp', -⟩
          rw [toFp] at toFp'
          cases toFp'
      | true =>
          cases fp : s.fp with
          | false => exact agrees_rounded_iff v toFp fp
          | true =>
              apply iff_of_true
              · apply agrees_of_both
                intro svisnz sp run holds
                exact F_F v toFp fp holds
              · rintro ⟨-, -, integral, -⟩
                rw [fp] at integral
                cases integral

end

/-! ## Samples -/

theorem sized_one : 1 = 1 ∨ 1 = 2 ∨ 1 = 4 ∨ 1 = 8 := .inl rfl

theorem sized_four : 4 = 1 ∨ 4 = 2 ∨ 4 = 4 ∨ 4 = 8 := .inr (.inr (.inl rfl))

theorem sized_eight : 8 = 1 ∨ 8 = 2 ∨ 8 = 4 ∨ 8 = 8 := .inr (.inr (.inr rfl))

def ctypeFloat : CNumber :=
  ⟨CTINFO CT_NUM CTF_FP, 4, by decide, by decide, sized_four, by decide, by decide⟩

def ctypeDouble : CNumber :=
  ⟨CTINFO CT_NUM CTF_FP, 8, by decide, by decide, sized_eight, by decide, by decide⟩

def ctypeInt64 : CNumber :=
  ⟨CTINFO CT_NUM 0, 8, by decide, by decide, sized_eight, by decide, by decide⟩

def ctypeUint8 : CNumber :=
  ⟨CTINFO CT_NUM CTF_UNSIGNED, 1, by decide, by decide, sized_one, by decide, by decide⟩

/-- 200.5 becomes an `uint8_t`. -/
theorem conversion_recorded_byte :
    TraceAgrees true ctypeUint8 (s := ctypeDouble) ⟨[0, 0, 0, 0, 0, 0x10, 0x69, 0x40], rfl, by decide⟩ := by
  apply (conversion_recorded_iff _ true ?_).mpr
  · decide
  · intro _ _ _
    exact ⟨200, by decide +kernel, by decide⟩

/-- The `int64_t` 2^60 + 2^36 + 1 becomes a `float`: 2^60 in the interpreter, 2^60 + 2^37 on the
trace. -/
theorem integer_rounded_twice :
    ¬ ∀ (LJ_64 : Bool) (d s : CNumber) (v : CValue s), Defined d v → TraceAgrees LJ_64 d v := by
  intro all
  let v : CValue ctypeInt64 := ⟨[1, 0, 0, 0, 0x10, 0, 0, 0x10], rfl, by decide⟩
  have agrees := all true ctypeFloat ctypeInt64 v fun _ _ fp => absurd fp (by decide)
  exact (agrees_rounded_iff v (by decide) (by decide)).mp agrees (by decide)

end TvmJit
