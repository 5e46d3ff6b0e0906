import TvmJit.Foundation.Fuel
import TvmJit.Ffi.Layout

/-! The evaluator of constant expressions of the C parser, `cp_expr_comma` to `cp_expr_ksize`. -/

namespace TvmJit

open Foundation Function

def CT_PTR : BitVec 32 := 2
def CT_TYPEDEF : BitVec 32 := 7
def CT_EXTERN : BitVec 32 := 12
def CTF_REF : CTInfo := 0x00800000

def CTID_CCHAR : CTypeID := 4
def CTID_INT32 : CTypeID := 9
def CTID_UINT32 : CTypeID := 10
def CTID_A_CCHAR : CTypeID := 20

def CPARSE_MAX_DECLDEPTH : Nat := 20

section

variable (info : CTInfo)

def ctype_istypedef : Bool := ctype_type info = CT_TYPEDEF
def ctype_isconstval : Bool := ctype_type info = CT_CONSTVAL

/-- Pointer or array. -/
def ctype_ispointer : Bool := ctype_type info >>> 1 = CT_PTR >>> 1

def ctype_isref : Bool := info &&& (CTMASK_NUM ||| CTF_REF) = CTINFO CT_PTR CTF_REF

def ctype_isinteger : Bool := info &&& (CTMASK_NUM ||| CTF_BOOL ||| CTF_FP) = CTINFO CT_NUM 0

end

namespace CTab

variable (T : CTab)

def rawrefLoop : Nat → CTypeID → Option CType
  | 0, _ => none
  | steps + 1, id =>
      if ctype_isattrib (T id).info || ctype_isref (T id).info then
        rawrefLoop steps (ctype_cid (T id).info)
      else some (T id)

def lj_ctype_rawref (id : CTypeID) : Option CType := T.rawrefLoop ctypeSteps id

end CTab

/-- C parser internal value representation. -/
structure CPValue where
  u32 : BitVec 32
  id : CTypeID
  deriving DecidableEq

/-- Tokens with what the lexer says about them. -/
inductive CPToken
  | integer (val : CPValue)
  | string (len : CTSize)
  /-- An identifier with the C type table entry of its name. -/
  | ident (str : String) (ct : CType) (id : CTypeID)
  | oror | andand | eq | ne | le | ge | shl | shr | deref
  | bar | caret | amp | lt | gt | plus | minus | star | slash | percent | tilde | bang
  | question | colon | comma | dot | lparen | rparen | lbrack | rbrack | assign
  /-- A parameter that stands for a type. -/
  | dollar (id : CTypeID)
  | sizeof | alignof
  /-- A keyword from CTOK_FIRSTDECL to CTOK_LASTDECL. -/
  | decl (tok : Nat)
  | other (tok : Nat)

/-- The infix operators that take two values. -/
inductive CBinop
  | oror | andand | bor | bxor | band | eq | ne | lt | gt | le | ge | shl | shr | add | sub | mul | div
  | mod
  deriving DecidableEq

/-- What the evaluator uses of the rest of the C parser. -/
class CPState where
  tab : CTab
  cp_decl_abstract : List CPToken → Except CParseError (CTypeID × List CPToken)
  lj_ctype_getfield : CType → String → Option CType
  /-- The type of a pointer, looked up or made. -/
  pointerTo : CTypeID → CTypeID

/-- Check if the next token may start a type declaration. -/
def cp_istypedecl : List CPToken → Bool
  | .decl _ :: _ => true
  | .ident _ ct _ :: _ => ctype_istypedef ct.info
  | .dollar _ :: _ => true
  | _ => false

/-! ## Operators -/

/-- The case of the switch an operator stands in. -/
def CBinop.pri : CBinop → Nat
  | oror => 1
  | andand => 2
  | bor => 3
  | bxor => 4
  | band => 5
  | eq | ne => 6
  | lt | gt | le | ge => 7
  | shl | shr => 8
  | add | sub => 9
  | mul | div | mod => 10

def CPToken.binop : CPToken → Option CBinop
  | oror => some .oror
  | andand => some .andand
  | bar => some .bor
  | caret => some .bxor
  | amp => some .band
  | eq => some .eq
  | ne => some .ne
  | lt => some .lt
  | gt => some .gt
  | le => some .le
  | ge => some .ge
  | shl => some .shl
  | shr => some .shr
  | plus => some .add
  | minus => some .sub
  | star => some .mul
  | slash => some .div
  | percent => some .mod
  | _ => none

namespace CPValue

variable (k k2 : CPValue)

/-- The truth value of a C operator. -/
def ofBool (b : Bool) : CPValue := ⟨if b then 1 else 0, CTID_INT32⟩

/-- Trivial promotion to unsigned. -/
def promote : CTypeID := if k2.id > k.id then k2.id else k.id

/-- Comparisons are signed if both operands are plain integers. -/
def compare (signed unsigned : BitVec 32 → BitVec 32 → Bool) : CPValue :=
  ofBool (if k.id = CTID_INT32 && k2.id = CTID_INT32 then signed k.u32 k2.u32
    else unsigned k.u32 k2.u32)

/-- Division and remainder. -/
def divide (signed unsigned : BitVec 32 → BitVec 32 → BitVec 32) : Except CParseError CPValue :=
  let id := promote k k2
  if k2.u32 = 0 || (id = CTID_INT32 && k.u32 = 0x80000000 && k2.u32 = -1) then .error .badval
  else .ok ⟨if id = CTID_INT32 then signed k.u32 k2.u32 else unsigned k.u32 k2.u32, id⟩

/-- What an infix operator makes of its operands. -/
def infix_ : CBinop → Except CParseError CPValue
  | .oror => .ok (ofBool (k.u32 ≠ 0 || k2.u32 ≠ 0))
  | .andand => .ok (ofBool (k.u32 ≠ 0 && k2.u32 ≠ 0))
  | .bor => .ok ⟨k.u32 ||| k2.u32, promote k k2⟩
  | .bxor => .ok ⟨k.u32 ^^^ k2.u32, promote k k2⟩
  | .band => .ok ⟨k.u32 &&& k2.u32, promote k k2⟩
  | .eq => .ok (ofBool (k.u32 = k2.u32))
  | .ne => .ok (ofBool (k.u32 ≠ k2.u32))
  | .lt => .ok (compare k k2 (fun a b => a.slt b) fun a b => a.ult b)
  | .gt => .ok (compare k k2 (fun a b => b.slt a) fun a b => b.ult a)
  | .le => .ok (compare k k2 (fun a b => a.sle b) fun a b => a.ule b)
  | .ge => .ok (compare k k2 (fun a b => b.sle a) fun a b => b.ule a)
  | .shl => .ok ⟨k.u32 <<< k2.u32, k.id⟩
  | .shr => .ok ⟨if k.id = CTID_INT32 then k.u32.sshiftRight k2.u32.toNat else k.u32 >>> k2.u32, k.id⟩
  | .add => .ok ⟨k.u32 + k2.u32, promote k k2⟩
  | .sub => .ok ⟨k.u32 - k2.u32, promote k k2⟩
  | .mul => .ok ⟨k.u32 * k2.u32, promote k k2⟩
  | .div => divide k k2 BitVec.sdiv BitVec.udiv
  | .mod => divide k k2 BitVec.srem BitVec.umod

end CPValue

/-! ## The parser -/

section

variable [CPState]

abbrev CPResult := Fueled CParseError (CPValue × List CPToken)

/-- Check and consume token. -/
def cp_check (expected : CPToken → Bool) : List CPToken → Fueled CParseError (List CPToken)
  | tok :: rest => if expected tok then pure rest else throw .token
  | [] => throw .token

def CPToken.isRparen : CPToken → Bool
  | rparen => true
  | _ => false

def CPToken.isRbrack : CPToken → Bool
  | rbrack => true
  | _ => false

def CPToken.isColon : CPToken → Bool
  | colon => true
  | _ => false

/-- A walk along the table of C types. -/
def walked {α : Type} (found : Option α) : Fueled CParseError α := ExceptT.mk (found.map .ok)

/-- The lengths of adjacent strings. -/
def cp_strings : CTSize → List CPToken → CTSize × List CPToken
  | sz, .string len :: rest => cp_strings (sz + len) rest
  | sz, toks => (sz, toks)

/-- The size or the alignment of a type. -/
def cp_sizeof (wantsz : Bool) (k : CPValue) : Fueled CParseError CPValue := do
  let (info, sz) ← walked (CPState.tab.lj_ctype_info k.id)
  if wantsz then
    if sz ≠ CTSIZE_INVALID then return ⟨sz, CTID_UINT32⟩
    -- Special case for sizeof("string").
    else if k.id ≠ CTID_A_CCHAR then throw .invsize
    else return ⟨k.u32, CTID_UINT32⟩
  -- Really size_t.
  else return ⟨1 <<< ctype_align info, CTID_UINT32⟩

mutual

/-- Parse comma separated expression and return last result. -/
def cp_expr_comma : Nat → Nat → List CPToken → CPResult
  | 0, _, _ => ExceptT.mk none
  | fuel + 1, depth, toks => do
      let (k, toks) ← cp_expr_sub fuel depth 0 toks
      match toks with
      | .comma :: toks => cp_expr_comma fuel depth toks
      | toks => return (k, toks)
termination_by structural fuel => fuel

/-- Parse sizeof/alignof operator. -/
def cp_expr_sizeof : Nat → Nat → Bool → List CPToken → CPResult
  | 0, _, _, _ => ExceptT.mk none
  | fuel + 1, depth, wantsz, toks => do
      let (k, toks) ←
        match toks with
        | .lparen :: toks => do
            let (k, toks) ←
              if cp_istypedecl toks then do
                let (id, toks) ← ExceptT.mk (some (CPState.cp_decl_abstract toks))
                pure (⟨0, id⟩, toks)
              else cp_expr_comma fuel depth toks
            let toks ← cp_check CPToken.isRparen toks
            pure (k, toks)
        | toks => cp_expr_unary fuel depth toks
      let k ← cp_sizeof wantsz k
      return (k, toks)
termination_by structural fuel => fuel

/-- Parse prefix operators. -/
def cp_expr_prefix : Nat → Nat → List CPToken → CPResult
  | 0, _, _ => ExceptT.mk none
  | fuel + 1, depth, toks =>
      match toks with
      | .integer val :: toks => return (val, toks)
      | .plus :: toks => cp_expr_unary fuel depth toks
      | .minus :: toks => do
          let (k, toks) ← cp_expr_unary fuel depth toks
          return ({ k with u32 := -k.u32 }, toks)
      | .tilde :: toks => do
          let (k, toks) ← cp_expr_unary fuel depth toks
          return ({ k with u32 := ~~~k.u32 }, toks)
      | .bang :: toks => do
          let (k, toks) ← cp_expr_unary fuel depth toks
          return (.ofBool (k.u32 = 0), toks)
      | .lparen :: toks =>
          -- Cast operator.
          if cp_istypedecl toks then do
            let (id, toks) ← ExceptT.mk (some (CPState.cp_decl_abstract toks))
            let toks ← cp_check CPToken.isRparen toks
            let (k, toks) ← cp_expr_unary fuel depth toks
            return ({ k with id }, toks)
          -- Sub-expression.
          else do
            let (k, toks) ← cp_expr_comma fuel depth toks
            let toks ← cp_check CPToken.isRparen toks
            return (k, toks)
      -- Indirection.
      | .star :: toks => do
          let (k, toks) ← cp_expr_unary fuel depth toks
          let ct ← walked (CPState.tab.lj_ctype_rawref k.id)
          if ctype_ispointer ct.info then return (⟨0, ctype_cid ct.info⟩, toks)
          else throw .badidx
      -- Address operator.
      | .amp :: toks => do
          let (k, toks) ← cp_expr_unary fuel depth toks
          return ({ k with id := CPState.pointerTo k.id }, toks)
      | .sizeof :: toks => cp_expr_sizeof fuel depth true toks
      | .alignof :: toks => cp_expr_sizeof fuel depth false toks
      | .ident _ ct id :: toks =>
          if ctype_type ct.info = CT_CONSTVAL then return (⟨ct.size, ctype_cid ct.info⟩, toks)
          else if ctype_type ct.info = CT_EXTERN then
            return (⟨id.setWidth 32, ctype_cid ct.info⟩, toks)
          else if ctype_type ct.info = CT_FUNC then return (⟨id.setWidth 32, id⟩, toks)
          else throw .symbol
      | .string len :: toks =>
          let (sz, toks) := cp_strings len toks
          return (⟨sz + 1, CTID_A_CCHAR⟩, toks)
      | _ => throw .symbol
termination_by structural fuel => fuel

/-- Parse postfix operators. -/
def cp_expr_postfix : Nat → Nat → CPValue → List CPToken → CPResult
  | 0, _, _, _ => ExceptT.mk none
  | fuel + 1, depth, k, toks =>
      match toks with
      -- Array/pointer index.
      | .lbrack :: toks => do
          let (k2, toks) ← cp_expr_comma fuel depth toks
          let ct ← walked (CPState.tab.lj_ctype_rawref k.id)
          let ct ←
            if ctype_ispointer ct.info then pure ct
            else do
              let ct ← walked (CPState.tab.lj_ctype_rawref k2.id)
              if ctype_ispointer ct.info then pure ct else throw .badidx
          let toks ← cp_check CPToken.isRbrack toks
          cp_expr_postfix fuel depth ⟨0, ctype_cid ct.info⟩ toks
      -- Struct deref.
      | .dot :: toks => do
          let ct ← walked (CPState.tab.lj_ctype_rawref k.id)
          cp_expr_field fuel depth ct toks
      | .deref :: toks => do
          let ct ← walked (CPState.tab.lj_ctype_rawref k.id)
          if ctype_ispointer ct.info then
            let ct ← walked (CPState.tab.lj_ctype_rawref (ctype_cid ct.info))
            cp_expr_field fuel depth ct toks
          else throw .badidx
      | toks => return (k, toks)
termination_by structural fuel => fuel

/-- The field of a struct. -/
def cp_expr_field : Nat → Nat → CType → List CPToken → CPResult
  | 0, _, _, _ => ExceptT.mk none
  | fuel + 1, depth, ct, toks =>
      match toks with
      | .ident str _ _ :: toks =>
          if !ctype_isstruct ct.info || ct.size = CTSIZE_INVALID then throw .badmember
          else
            match CPState.lj_ctype_getfield ct str with
            | none => throw .badmember
            | some fct =>
                if ctype_isbitfield fct.info then throw .badmember
                else
                  cp_expr_postfix fuel depth
                    ⟨if ctype_isconstval fct.info then fct.size else 0, ctype_cid fct.info⟩ toks
      | _ => throw .token
termination_by structural fuel => fuel

/-- Parse infix operators. The switch falls through from the case of the priority, so the operators
of that case and of all cases behind it are taken. -/
def cp_expr_infix : Nat → Nat → CPValue → Nat → List CPToken → CPResult
  | 0, _, _, _, _ => ExceptT.mk none
  | fuel + 1, depth, k, pri, toks =>
      match toks with
      | [] => return (k, [])
      | .question :: toks =>
          if pri = 0 then do
            let (k2, toks) ← cp_expr_comma fuel depth toks  -- Right-associative.
            let toks ← cp_check CPToken.isColon toks
            let (k3, toks) ← cp_expr_sub fuel depth 0 toks
            cp_expr_infix fuel depth
              ⟨if k.u32 ≠ 0 then k2.u32 else k3.u32, if k2.id > k3.id then k2.id else k3.id⟩ pri toks
          else return (k, .question :: toks)
      | tok :: toks =>
          match tok.binop with
          | none => return (k, tok :: toks)
          | some op =>
              if pri ≤ op.pri then do
                let (k2, toks) ←
                  if op.pri = 10 then cp_expr_unary fuel depth toks
                  else cp_expr_sub fuel depth (op.pri + 1) toks
                let k ← ExceptT.mk (some (k.infix_ k2 op))
                cp_expr_infix fuel depth k pri toks
              else return (k, tok :: toks)
termination_by structural fuel => fuel

/-- Parse and evaluate unary expression. -/
def cp_expr_unary : Nat → Nat → List CPToken → CPResult
  | 0, _, _ => ExceptT.mk none
  | fuel + 1, depth, toks =>
      if depth + 1 > CPARSE_MAX_DECLDEPTH then throw .levels
      else do
        let (k, toks) ← cp_expr_prefix fuel (depth + 1) toks
        cp_expr_postfix fuel (depth + 1) k toks
termination_by structural fuel => fuel

/-- Parse and evaluate sub-expression. -/
def cp_expr_sub : Nat → Nat → Nat → List CPToken → CPResult
  | 0, _, _, _ => ExceptT.mk none
  | fuel + 1, depth, pri, toks => do
      let (k, toks) ← cp_expr_unary fuel depth toks
      cp_expr_infix fuel depth k pri toks
termination_by structural fuel => fuel

end

/-- Parse constant integer expression. -/
def cp_expr_kint (fuel depth : Nat) (toks : List CPToken) : CPResult := do
  let (k, toks) ← cp_expr_sub fuel depth 0 toks
  let ct ← walked (CPState.tab.ctype_raw k.id)
  if ctype_isinteger ct.info then return (k, toks) else throw .badval

/-- Parse (non-negative) size expression. -/
def cp_expr_ksize (fuel depth : Nat) (toks : List CPToken) :
    Fueled CParseError (CTSize × List CPToken) := do
  let (k, toks) ← cp_expr_kint fuel depth toks
  if k.u32 ≥ 0x80000000 then throw .invsize else return (k.u32, toks)

/-! ## Static constants -/

def CPToken.isAssign : CPToken → Bool
  | assign => true
  | _ => false

/-- Skip attributes. -/
def CTab.rawidLoop (T : CTab) : Nat → CTypeID → Option CTypeID
  | 0, _ => none
  | steps + 1, id =>
      if ctype_isattrib (T id).info then rawidLoop T steps (ctype_cid (T id).info) else some id

/-- The value of a constant, sign- or zero-extended from its size. -/
def CType.constvalue (ctt : CType) (u32 : BitVec 32) : BitVec 32 :=
  let u32 := u32 <<< (8 * (4 - ctt.size))
  if ctt.info &&& CTF_UNSIGNED ≠ 0 then u32 >>> (8 * (4 - ctt.size))
  else u32.sshiftRight (8 * (4 - ctt.size)).toNat

/-- Parse constant initializer. -/
def cp_decl_constinit (fuel depth : Nat) (ctypeid : CTypeID) (toks : List CPToken) :
    Fueled CParseError (CType × List CPToken) := do
  let ctypeid ← walked (CPState.tab.rawidLoop ctypeSteps ctypeid)
  let ctt := CPState.tab ctypeid
  if !ctype_isinteger ctt.info || ctt.info &&& CTF_CONST = 0 || ctt.size > 4 then throw .invtype
  else do
    let toks ← cp_check CPToken.isAssign toks
    let (k, toks) ← cp_expr_sub fuel depth 0 toks
    return (⟨CTINFO CT_CONSTVAL (CTF_CONST ||| ctypeid.setWidth 32), ctt.constvalue k.u32, 0⟩, toks)

end

end TvmJit
