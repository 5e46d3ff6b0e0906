import TvmJit.Ffi.Ctype

/-! The fields of a struct or union: how `cp_decl_struct` chains them and how
`cp_struct_layout` lays them out. -/

namespace TvmJit

open Foundation Function

inductive CParseError
  | token
  | symbol
  | levels
  | badval
  | invsize
  | invtype
  | badidx
  | badmember
  deriving DecidableEq

/-- A field declarator with its type. -/
structure FieldDecl where
  attr : CTInfo
  ctypeid : CTypeID
  /-- The width of a bitfield; CTSIZE_INVALID for a regular field. -/
  bits : CTSize
  named : Bool
  /-- `cp_decl_align` sets both. -/
  aligned : attr &&& CTF_ALIGN ≠ 0 → attr &&& CTFP_ALIGNED ≠ 0

inductive MemberDecl
  | field (decl : FieldDecl)
  /-- Static constant in struct namespace. -/
  | constant (ctypeid : CTypeID) (value : CTSize)

/-- The most bits a bitfield of the type has. -/
def CType.maxBits (ct : CType) : CTSize := if ct.info &&& CTF_BOOL ≠ 0 then 1 else 8 * ct.size

namespace CTab

variable (T : CTab)

/-! ## Declared fields -/

/-- The element of a field for the layout phase, and whether it must be the last one. -/
def fieldEntry (decl : FieldDecl) : Option (Except CParseError (CType × Bool)) :=
  match T.ctype_raw decl.ctypeid with
  | none => none
  | some tct =>
      let cid := decl.ctypeid.setWidth 32
      if decl.bits = CTSIZE_INVALID then
        let lastdecl := ctype_isarray tct.info && tct.size = CTSIZE_INVALID
        if !decl.named then
          -- Accept transparent struct/union/enum.
          if !((ctype_isstruct tct.info && tct.info &&& CTF_VLA = 0) || ctype_isenum tct.info) then
            some (.error .token)
          else
            let attr := if ctype_isstruct tct.info then decl.attr ||| 0x80000000 else 0
            some (.ok (⟨CTINFO CT_ATTRIB (CTATTRIB CTA_SUBTYPE + cid), attr, 0⟩, lastdecl))
        else some (.ok (⟨CTINFO CT_FIELD (cid + (CTBSZ_FIELD <<< 16)), decl.attr, 0⟩, lastdecl))
      else if !ctype_isinteger_or_bool tct.info || (decl.bits = 0 && decl.named) ||
          8 * tct.size > CTBSZ_MAX ||
          decl.bits > tct.maxBits then
        some (.error .badval)
      else some (.ok (⟨CTINFO CT_FIELD (cid + (decl.bits <<< 16)), decl.attr, 0⟩, false))

/-- A new element behind the last one of the chain. -/
def chain (lastid id : CTypeID) (ct : CType) : CTab :=
  let T := T.set id ct
  T.set lastid { T lastid with sib := id }

/-- The loop of `cp_decl_struct` over the members, each with the ID it gets. -/
def declMembers : List (CTypeID × MemberDecl) → CTypeID → Bool → CTab →
    Option (Except CParseError CTab)
  | [], lastid, _, T => some (.ok (T.set lastid { T lastid with sib := 0 }))
  | (id, .constant ctypeid value) :: rest, lastid, lastdecl, T =>
      if lastdecl then some (.error .token)
      else
        let info := CTINFO CT_CONSTVAL (CTF_CONST ||| ctypeid.setWidth 32)
        declMembers rest id lastdecl (T.chain lastid id ⟨info, value, 0⟩)
  | (id, .field decl) :: rest, lastid, lastdecl, T =>
      if lastdecl then some (.error .token)
      else
        match T.fieldEntry decl with
        | none => none
        | some (.error e) => some (.error e)
        | some (.ok (ct, last)) => declMembers rest id last (T.chain lastid id ct)

/-! ## Layout -/

section

variable [CTarget]

/-- The loop of `cp_field_align` down to the elements of an array. -/
def elementLoop : Nat → CType → Option CTInfo
  | 0, _ => none
  | steps + 1, ct =>
      match T.ctype_rawchild ct with
      | none => none
      | some ct =>
          if ctype_isarray ct.info && ct.info &&& CTF_VECTOR = 0 then elementLoop steps ct
          else some ct.info

/-- Determine field alignment. -/
def cp_field_align (ct : CType) (info : CTInfo) : Option Nat :=
  let align := ctype_align info
  if CTarget.limitAlign && align > 2 && info &&& CTFP_ALIGNED = 0 then
    let element :=
      if ctype_isarray info && info &&& CTF_VECTOR = 0 then T.elementLoop ctypeSteps ct
      else some info
    element.map fun info => if ctype_isnum info || ctype_isenum info then 2 else align
  else some align

end

end CTab

/-- The variables of `cp_struct_layout`. -/
structure LayoutState where
  tab : CTab
  /-- Bit offset. -/
  bofs : CTSize
  /-- Max. bit offset. -/
  bmaxofs : CTSize
  maxalign : Nat
  sinfo : CTInfo

/-- What `cp_struct_layout` has read about a field. -/
structure FieldInfo where
  ct : CType
  info : CTInfo
  /-- Container size in bits. -/
  csz : CTSize
  align : Nat
  /-- Field declaration attributes. -/
  attr : CTInfo
  packed : Bool

namespace FieldInfo

variable (f : FieldInfo)

def amask : CTSize := (8 <<< f.align) - 1

def bsz : CTSize := ctype_bitcsz f.ct.info

/-- Regular fields or subtypes fill their container. -/
def regular : Bool := f.bsz = CTBSZ_FIELD || !ctype_isfield f.ct.info

/-- Start new aligned field. -/
def pad (bofs : CTSize) : CTSize := bofs + f.amask &&& ~~~f.amask

/-- The element of a bitfield that starts at the bit offset. -/
def bitfield [CTarget] (bofs : CTSize) : CType :=
  let pos := bofs &&& (f.csz - 1)
  { f.ct with
    info := CTINFO CT_BITFIELD ((f.info &&& (CTF_QUAL ||| CTF_UNSIGNED ||| CTF_BOOL)) +
      (f.csz <<< 13) + (f.bsz <<< 8)) + (if CTarget.LJ_BE then f.csz - pos - f.bsz else pos)
    size := (bofs &&& ~~~(f.csz - 1)) >>> 3 }

/-- The element of a field with its offset, the bit offset it starts at and its size in bits. -/
def place [CTarget] (bofs : CTSize) : CType × CTSize × CTSize :=
  if f.regular then ({ f.ct with size := f.pad bofs >>> 3 }, f.pad bofs, f.csz)
  else
    let bofs :=
      if f.bsz = 0 || f.attr &&& CTFP_ALIGNED ≠ 0 ||
          (!f.packed && (bofs &&& f.amask) + f.bsz > f.csz) then f.pad bofs
      else bofs
    -- Prefer regular field over bitfield.
    if f.bsz = f.csz && bofs &&& f.amask = 0 then
      let info := CTINFO CT_FIELD ((ctype_cid f.ct.info).setWidth 32)
      ({ f.ct with info := info, size := bofs >>> 3 }, bofs, f.bsz)
    else (f.bitfield bofs, bofs, f.bsz)

end FieldInfo

namespace LayoutState

variable [CTarget] (pack : Nat) (sattr : CTInfo) (L : LayoutState)

/-- Whether an element of the chain is laid out. All others are already set up. -/
def isLaid (ct : CType) : Bool :=
  ctype_isfield ct.info || (ctype_isxattrib ct.info CTA_SUBTYPE && ct.size ≠ 0)

/-- The alignment of a field after attributes and pragmas. -/
def effectiveAlign (attr : CTInfo) (align : Nat) : Nat :=
  let align :=
    if (attr ||| sattr) &&& CTFP_PACKED ≠ 0 ||
        (attr &&& CTFP_ALIGNED ≠ 0 && ctype_align attr > align) then ctype_align attr
    else align
  if pack < align then pack else align

/-- What is known of a field before it is placed. -/
def fieldInfo (ct : CType) (info : CTInfo) (csz : CTSize) : Option FieldInfo :=
  (L.tab.cp_field_align ct info).map fun align =>
    ⟨ct, info, csz, effectiveAlign pack sattr ct.size align, ct.size,
      (ct.size ||| sattr) &&& CTFP_PACKED ≠ 0⟩

/-- The field is put in its place. -/
def putField (fieldid : CTypeID) (f : FieldInfo) : LayoutState :=
  let (ct, bofs, bsz) := f.place L.bofs
  let L := { L with
    tab := L.tab.set fieldid ct
    maxalign := if f.align > L.maxalign then f.align else L.maxalign
    bofs }
  -- Determine next offset or max. offset.
  if L.sinfo &&& CTF_UNION ≠ 0 then { L with bmaxofs := if bsz > L.bmaxofs then bsz else L.bmaxofs }
  else { L with bofs := L.bofs + bsz }

/-- One round of the loop of `cp_struct_layout`. -/
def layoutField (fieldid : CTypeID) : Option (Except CParseError LayoutState) :=
  let ct := L.tab fieldid
  if isLaid ct then
    match L.tab.lj_ctype_info (ctype_cid ct.info) with
    | none => none
    | some (info, sz) =>
        -- Merge pseudo-qualifiers.
        let L := { L with sinfo := L.sinfo ||| (info &&& (CTF_QUAL ||| CTF_VLA)) }
        let csz := 8 * sz
        -- Check for size overflow.
        if sz ≥ 0x20000000 || L.bofs + csz < L.bofs || info &&& CTF_VLA ≠ 0 then
          if !(sz = CTSIZE_INVALID && ctype_isarray info && L.sinfo &&& CTF_UNION = 0) then
            some (.error .invsize)
          -- Treat a[] and a[?] as zero-sized.
          else (L.fieldInfo pack sattr ct info 0).map fun f => .ok (L.putField fieldid f)
        else (L.fieldInfo pack sattr ct info csz).map fun f => .ok (L.putField fieldid f)
  else some (.ok L)

def layoutLoop : Nat → CTypeID → LayoutState → Option (Except CParseError LayoutState)
  | 0, _, _ => none
  | steps + 1, fieldid, L =>
      if fieldid = 0 then some (.ok L)
      else
        match L.layoutField pack sattr fieldid with
        | none => none
        | some (.error e) => some (.error e)
        | some (.ok L) => layoutLoop steps (L.tab fieldid).sib L

/-- Complete struct/union. -/
def complete (sid : CTypeID) : CTab :=
  let bofs := if L.sinfo &&& CTF_UNION ≠ 0 then L.bmaxofs else L.bofs
  let maxalign : CTSize := (8 <<< L.maxalign) - 1
  let size := (bofs + maxalign &&& ~~~maxalign) >>> 3
  L.tab.set sid
    { L.tab sid with info := L.sinfo + CTALIGN (BitVec.ofNat 32 L.maxalign), size }

end LayoutState

namespace CTab

variable [CTarget]

/-- Layout struct/union fields. -/
def cp_struct_layout (pack : Nat) (T : CTab) (sid : CTypeID) (sattr : CTInfo) :
    Option (Except CParseError CTab) :=
  match LayoutState.layoutLoop pack sattr ctypeSteps (T sid).sib
      ⟨T, 0, 0, ctype_align sattr, (T sid).info⟩ with
  | none => none
  | some (.error e) => some (.error e)
  | some (.ok L) => some (.ok (L.complete sid))

end CTab

end TvmJit
