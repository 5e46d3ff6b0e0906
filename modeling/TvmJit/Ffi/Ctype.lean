import TvmJit.Foundation.Padding
import Mathlib.Logic.Function.Basic

/-! The table of C types of `lj_ctype.h`: type information words and what they say about a
type. -/

namespace TvmJit

open Foundation Function

abbrev CTInfo := BitVec 32
abbrev CTSize := BitVec 32

/-- An index into the table of C types, as its entries keep it. -/
abbrev CTypeID := BitVec 16

/-- C type table element, without its name and its hash chain. -/
structure CType where
  info : CTInfo
  size : CTSize
  sib : CTypeID
  deriving DecidableEq

abbrev CTab := CTypeID → CType

/-- What the machine and its ABI say about the layout of types. -/
class CTarget where
  LJ_BE : Bool
  /-- `(LJ_TARGET_X86 && !LJ_ABI_WIN) || (LJ_TARGET_ARM && __APPLE__)`: fields that are not
  vectors are aligned to four bytes at most. -/
  limitAlign : Bool

/-! ## Information words -/

def CT_NUM : BitVec 32 := 0
def CT_STRUCT : BitVec 32 := 1
def CT_ARRAY : BitVec 32 := 3
def CT_ENUM : BitVec 32 := 5
def CT_FUNC : BitVec 32 := 6
def CT_ATTRIB : BitVec 32 := 8
def CT_FIELD : BitVec 32 := 9
def CT_BITFIELD : BitVec 32 := 10
def CT_CONSTVAL : BitVec 32 := 11

def CTF_BOOL : CTInfo := 0x08000000
def CTF_FP : CTInfo := 0x04000000
def CTF_CONST : CTInfo := 0x02000000
def CTF_VOLATILE : CTInfo := 0x01000000
def CTF_UNSIGNED : CTInfo := 0x00800000
def CTF_VLA : CTInfo := 0x00100000
def CTF_VECTOR : CTInfo := 0x08000000
def CTF_UNION : CTInfo := 0x00800000
def CTF_QUAL : CTInfo := CTF_CONST ||| CTF_VOLATILE
def CTF_ALIGN : CTInfo := 0x000f0000

/-- Flags of attributes, used in the parser only. -/
def CTFP_ALIGNED : CTInfo := 1
def CTFP_PACKED : CTInfo := 2

def CTMASK_CID : CTInfo := 0x0000ffff
def CTMASK_NUM : CTInfo := 0xf0000000
def CTMASK_ALIGN : BitVec 32 := 15
def CTMASK_ATTRIB : CTInfo := 0x00ff0000

/-- Attribute numbers. -/
def CTA_QUAL : BitVec 32 := 1
def CTA_ALIGN : BitVec 32 := 2
def CTA_SUBTYPE : BitVec 32 := 3

/-- Max. size of bitfield in bits. -/
def CTBSZ_MAX : CTSize := 32
/-- Temp. marker for regular field. -/
def CTBSZ_FIELD : CTSize := 127

def CTSIZE_INVALID : CTSize := 0xffffffff

def CTINFO (ct flags : BitVec 32) : CTInfo := (ct <<< 28) + flags
def CTALIGN (al : CTSize) : CTInfo := al <<< 16
def CTATTRIB (at_ : BitVec 32) : CTInfo := at_ <<< 16

section

variable (info : CTInfo)

def ctype_type : BitVec 32 := info >>> 28
def ctype_cid : CTypeID := info.setWidth 16
def ctype_align : Nat := ((info >>> 16) &&& CTMASK_ALIGN).toNat
def ctype_bitpos : CTSize := info &&& 127
def ctype_bitbsz : CTSize := (info >>> 8) &&& 127
def ctype_bitcsz : CTSize := (info >>> 16) &&& 127

def ctype_isstruct : Bool := ctype_type info = CT_STRUCT
def ctype_isarray : Bool := ctype_type info = CT_ARRAY
def ctype_isenum : Bool := ctype_type info = CT_ENUM
def ctype_isnum : Bool := ctype_type info = CT_NUM
def ctype_isfunc : Bool := ctype_type info = CT_FUNC
def ctype_isattrib : Bool := ctype_type info = CT_ATTRIB
def ctype_isfield : Bool := ctype_type info = CT_FIELD
def ctype_isbitfield : Bool := ctype_type info = CT_BITFIELD

def ctype_isinteger_or_bool : Bool := info &&& (CTMASK_NUM ||| CTF_FP) = CTINFO CT_NUM 0

def ctype_isxattrib (at_ : BitVec 32) : Bool :=
  info &&& (CTMASK_NUM ||| CTMASK_ATTRIB) = CTINFO CT_ATTRIB (CTATTRIB at_)

end

/-! ## Walks along the table -/

/-- More than the length of any chain of children. -/
def ctypeSteps : Nat := 2 ^ 16

namespace CTab

variable (T : CTab)

def set (id : CTypeID) (ct : CType) : CTab := update T id ct

/-- The loop of `ctype_raw`: skips attributes. -/
def rawLoop : Nat → CTypeID → Option CType
  | 0, _ => none
  | steps + 1, id =>
      if ctype_isattrib (T id).info then rawLoop steps (ctype_cid (T id).info) else some (T id)

def ctype_raw (id : CTypeID) : Option CType := T.rawLoop ctypeSteps id

def ctype_rawchild (ct : CType) : Option CType := T.ctype_raw (ctype_cid ct.info)

/-- The loop of `lj_ctype_info`, with the qualifiers so far. -/
def infoLoop : Nat → CTypeID → CTInfo → Option (CTInfo × CTSize)
  | 0, _, _ => none
  | steps + 1, id, qual =>
      let ct := T id
      let info := ct.info
      if ctype_isenum info then
        -- Follow child. Need to look at its attributes, too.
        infoLoop steps (ctype_cid info) qual
      else if ctype_isattrib info then
        let qual :=
          if ctype_isxattrib info CTA_QUAL then qual ||| ct.size
          else if ctype_isxattrib info CTA_ALIGN && qual &&& CTFP_ALIGNED = 0 then
            qual ||| (CTFP_ALIGNED + CTALIGN ct.size)
          else qual
        infoLoop steps (ctype_cid info) qual
      else
        let qual := if qual &&& CTFP_ALIGNED = 0 then qual ||| (info &&& CTF_ALIGN) else qual
        let qual := qual ||| (info &&& ~~~(CTF_ALIGN ||| CTMASK_CID))
        some (qual, if ctype_isfunc info then CTSIZE_INVALID else ct.size)

/-- Get type, qualifiers, size and alignment for a C type ID. -/
def lj_ctype_info (id : CTypeID) : Option (CTInfo × CTSize) := T.infoLoop ctypeSteps id 0

/-- What the table holds at an ID without a type. -/
def badType : CType := ⟨CTINFO CT_ATTRIB (CTATTRIB 5), 0, 0⟩

/-- The table with the types of a list. -/
def ofList (types : List CType) : CTab := fun id => types.getD id.toNat badType

theorem ofList_mem (types : List CType) (id : CTypeID) :
    ofList types id ∈ badType :: types := by
  rw [ofList, List.getD_eq_getElem?_getD]
  cases found : types[id.toNat]? with
  | none => exact List.mem_cons_self
  | some ct => exact List.mem_cons_of_mem _ (List.mem_of_getElem? found)

end CTab

end TvmJit
