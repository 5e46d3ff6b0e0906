import TvmJit.Ffi.Expr

/-! Integer constant expressions of C: their grammar, their values and types in C, and what the
evaluator makes of them. -/

namespace TvmJit

open Foundation Function

/-! ## Integer types -/

/-- An integer type of at most four bytes. -/
structure CIntType where
  bytes : Nat
  unsigned : Bool
  size : bytes = 1 ∨ bytes = 2 ∨ bytes = 4
  deriving DecidableEq

namespace CIntType

def int : CIntType := ⟨4, false, .inr (.inr rfl)⟩
def uint : CIntType := ⟨4, true, .inr (.inr rfl)⟩

variable (t t' : CIntType)

/-- The value of the type that an integer converts to. -/
def convert (x : Int) : Int := if t.unsigned then x % 2 ^ (8 * t.bytes) else x.bmod (2 ^ (8 * t.bytes))

def InRange (x : Int) : Prop := t.convert x = x

instance (x : Int) : Decidable (t.InRange x) := by
  unfold InRange
  infer_instance

/-- Integer promotion. -/
def promoted : CIntType := if t.bytes = 4 ∧ t.unsigned then uint else int

/-- The usual arithmetic conversions. -/
def common : CIntType := if t.promoted.unsigned ∨ t'.promoted.unsigned then uint else int

/-- The integer that a word holds. -/
def read (word : BitVec 32) : Int := if t.unsigned then word.toNat else word.toInt

end CIntType

/-! ## Grammar -/

namespace CPState

variable [CPState]

/-- The C type of an ID, if its entry is one of an integer type of at most four bytes. -/
def intType (id : CTypeID) : Option CIntType :=
  let ct := tab id
  if size : ctype_isinteger ct.info ∧ (ct.size.toNat = 1 ∨ ct.size.toNat = 2 ∨ ct.size.toNat = 4) then
    some ⟨ct.size.toNat, ct.info &&& CTF_UNSIGNED ≠ 0, size.2⟩
  else none

/-- What the table of predefined types says. -/
structure Predefined : Prop where
  int32 : intType CTID_INT32 = some .int
  uint32 : intType CTID_UINT32 = some .uint
  /-- `unsigned int` is the first type of its kind. -/
  below : ∀ id t, id ≤ CTID_INT32 → intType id = some t → t.promoted = .int

end CPState

section

variable [CPState]

/-! ## Static constants -/

omit [CPState] in
theorem toNat_extended (u : BitVec 32) (s : BitVec 32) (few : s = 0 ∨ s = 16 ∨ s = 24) :
    ((u <<< s) >>> s).toNat = u.toNat % 2 ^ (32 - s.toNat) := by
  rw [BitVec.ushiftRight_eq', BitVec.shiftLeft_eq', BitVec.toNat_ushiftRight, BitVec.toNat_shiftLeft,
    Nat.shiftRight_eq_div_pow, Nat.shiftLeft_eq]
  have below := u.isLt
  rcases few with rfl | rfl | rfl
  · change u.toNat * 2 ^ 0 % 2 ^ 32 / 2 ^ 0 = u.toNat % 2 ^ 32
    omega
  · change u.toNat * 2 ^ 16 % 2 ^ 32 / 2 ^ 16 = u.toNat % 2 ^ 16
    omega
  · change u.toNat * 2 ^ 24 % 2 ^ 32 / 2 ^ 24 = u.toNat % 2 ^ 8
    omega

omit [CPState] in
theorem toInt_extended (u : BitVec 32) (s : BitVec 32) (few : s = 0 ∨ s = 16 ∨ s = 24) :
    ((u <<< s).sshiftRight s.toNat).toInt = u.toInt.bmod (2 ^ (32 - s.toNat)) := by
  rw [BitVec.toInt_sshiftRight, Int.shiftRight_eq_div_pow, BitVec.shiftLeft_eq', BitVec.toInt_shiftLeft,
    BitVec.toInt_eq_toNat_bmod, Nat.shiftLeft_eq]
  have below := u.isLt
  rcases few with rfl | rfl | rfl
  · change ((u.toNat * 2 ^ 0 : Nat) : Int).bmod (2 ^ 32) / (2 ^ 0 : Nat) =
      ((u.toNat : Int).bmod (2 ^ 32)).bmod (2 ^ 32)
    simp
  · change ((u.toNat * 2 ^ 16 : Nat) : Int).bmod (2 ^ 32) / (2 ^ 16 : Nat) =
      ((u.toNat : Int).bmod (2 ^ 32)).bmod (2 ^ 16)
    simp only [Int.bmod]
    omega
  · change ((u.toNat * 2 ^ 24 : Nat) : Int).bmod (2 ^ 32) / (2 ^ 24 : Nat) =
      ((u.toNat : Int).bmod (2 ^ 32)).bmod (2 ^ 8)
    simp only [Int.bmod]
    omega

/-- The value that is stored for a static const is that of its initializer in the type. -/
theorem constvalue_read {id : CTypeID} {t : CIntType} (isType : CPState.intType id = some t)
    (u32 : BitVec 32) : t.read ((CPState.tab id).constvalue u32) = t.convert u32.toInt := by
  rw [CPState.intType] at isType
  split at isType
  · next isInt =>
      obtain rfl := Option.some.inj isType
      obtain ⟨s, isShift⟩ : ∃ s, s = 8 * (4 - (CPState.tab id).size) := ⟨_, rfl⟩
      have few : (s = 0 ∨ s = 16 ∨ s = 24) ∧ 32 - s.toNat = 8 * (CPState.tab id).size.toNat := by
        rcases isInt.2 with size | size | size
        · rw [BitVec.eq_of_toNat_eq (y := 1) size] at isShift ⊢
          rw [isShift]
          decide
        · rw [BitVec.eq_of_toNat_eq (y := 2) size] at isShift ⊢
          rw [isShift]
          decide
        · rw [BitVec.eq_of_toNat_eq (y := 4) size] at isShift ⊢
          rw [isShift]
          decide
      rw [CIntType.read, CIntType.convert, CType.constvalue, ← few.2, ← isShift]
      dsimp only
      by_cases unsigned : (CPState.tab id).info &&& CTF_UNSIGNED ≠ 0
      · rw [if_pos unsigned, if_pos (decide_eq_true unsigned), if_pos (decide_eq_true unsigned)]
        rw [toNat_extended u32 s few.1, BitVec.toInt_eq_toNat_bmod]
        rcases few.1 with rfl | rfl | rfl
        · change ((u32.toNat % 2 ^ 32 : Nat) : Int) = (u32.toNat : Int).bmod (2 ^ 32) % 2 ^ 32
          rw [Int.bmod]
          omega
        · change ((u32.toNat % 2 ^ 16 : Nat) : Int) = (u32.toNat : Int).bmod (2 ^ 32) % 2 ^ 16
          rw [Int.bmod]
          omega
        · change ((u32.toNat % 2 ^ 8 : Nat) : Int) = (u32.toNat : Int).bmod (2 ^ 32) % 2 ^ 8
          rw [Int.bmod]
          omega
      · rw [if_neg unsigned, if_neg (by simpa using unsigned), if_neg (by simpa using unsigned)]
        exact toInt_extended u32 s few.1
  · cases isType
omit [CPState] in
theorem CIntType.convert_convert (t : CIntType) (x : Int) : t.convert (t.convert x) = t.convert x := by
  simp only [convert]
  split
  · exact Int.emod_emod_of_dvd _ dvd_rfl
  · exact Int.bmod_bmod

/-! ## Expressions -/

/-- An enumeration constant, or a static const of an integer type. -/
structure CConstant where
  str : String
  ct : CType
  id : CTypeID
  type : CIntType
  isConstval : ctype_type ct.info = CT_CONSTVAL
  isType : CPState.intType (ctype_cid ct.info) = some type
  inRange : type.InRange (type.read ct.size)

/-- A type name that can stand in parentheses. -/
structure CTypeName where
  tokens : List CPToken
  id : CTypeID
  info : CTInfo
  size : CTSize
  starts : ∀ rest, cp_istypedecl (tokens ++ rest) = true
  parsed : ∀ rest, CPState.cp_decl_abstract (tokens ++ .rparen :: rest) = .ok (id, .rparen :: rest)
  isSize : CPState.tab.lj_ctype_info id = some (info, size)
  complete : size ≠ CTSIZE_INVALID

inductive CUnop
  | plus | neg | bnot | lnot

/-- Constant expressions as the grammar of C derives them. -/
inductive CExpr
  | integer (value : BitVec 32) (unsigned : Bool)
  | constant (c : CConstant)
  | sizeofType (name : CTypeName)
  | sizeofExpr (e : CExpr)
  | unary (op : CUnop) (e : CExpr)
  | binary (op : CBinop) (l r : CExpr)
  | cond (c a b : CExpr)
  | paren (e : CExpr)

end

def CUnop.token : CUnop → CPToken
  | plus => .plus
  | neg => .minus
  | bnot => .tilde
  | lnot => .bang

def CBinop.token : CBinop → CPToken
  | oror => .oror
  | andand => .andand
  | bor => .bar
  | bxor => .caret
  | band => .amp
  | eq => .eq
  | ne => .ne
  | lt => .lt
  | gt => .gt
  | le => .le
  | ge => .ge
  | shl => .shl
  | shr => .shr
  | add => .plus
  | sub => .minus
  | mul => .star
  | div => .slash
  | mod => .percent

namespace CExpr

variable [CPState]

def tokens : CExpr → List CPToken
  | integer value unsigned => [.integer ⟨value, if unsigned then CTID_UINT32 else CTID_INT32⟩]
  | constant c => [.ident c.str c.ct c.id]
  | sizeofType name => .sizeof :: .lparen :: name.tokens ++ [.rparen]
  | sizeofExpr e => .sizeof :: e.tokens
  | unary op e => op.token :: e.tokens
  | binary op l r => l.tokens ++ op.token :: r.tokens
  | cond c a b => c.tokens ++ .question :: a.tokens ++ .colon :: b.tokens
  | paren e => .lparen :: e.tokens ++ [.rparen]

/-- How tightly the outermost operator binds. -/
def level : CExpr → Nat
  | binary op _ _ => op.pri
  | cond _ _ _ => 0
  | _ => 11

/-- The derivation respects the precedences and associativities of C. -/
def Derived : CExpr → Prop
  | integer _ _ | constant _ | sizeofType _ => True
  | sizeofExpr e | unary _ e => e.level = 11 ∧ e.Derived
  | binary op l r => op.pri ≤ l.level ∧ op.pri < r.level ∧ l.Derived ∧ r.Derived
  | cond c a b => 0 < c.level ∧ c.Derived ∧ a.Derived ∧ b.Derived
  | paren e => e.Derived

/-! ## Meaning in C -/

def type : CExpr → CIntType
  | integer _ unsigned => if unsigned then .uint else .int
  | constant c => c.type
  | sizeofType _ | sizeofExpr _ => .uint
  | unary .lnot _ => .int
  | unary _ e => e.type.promoted
  | binary op l r =>
      match op with
      | .oror | .andand | .eq | .ne | .lt | .gt | .le | .ge => .int
      | .shl | .shr => l.type.promoted
      | _ => l.type.common r.type
  | cond _ a b => a.type.common b.type
  | paren e => e.type

end CExpr

/-- The value of a C condition. -/
def truth (b : Bool) : Int := if b then 1 else 0

namespace CUnop

/-- The value of a unary operator whose operand has the promoted type. -/
def value (t : CIntType) (x : Int) : CUnop → Int
  | plus => x
  | neg => t.convert (-x)
  | bnot => t.convert (-x - 1)
  | lnot => truth (x = 0)

end CUnop

namespace CBinop

/-- A bitwise operator on values of the type. -/
def bitwise (t : CIntType) (f : BitVec 32 → BitVec 32 → BitVec 32) (x y : Int) : Int :=
  t.read (f (.ofInt 32 x) (.ofInt 32 y))

/-- The value of an infix operator whose operands have the common type `t`, the left one of
promoted type `tl`. There is none for a division by zero or out of range, or for a shift count
that is not below the width. -/
def value (t tl : CIntType) (x y : Int) : CBinop → Option Int
  | oror => some (truth (x ≠ 0 || y ≠ 0))
  | andand => some (truth (x ≠ 0 && y ≠ 0))
  | bor => some (bitwise t (· ||| ·) x y)
  | bxor => some (bitwise t (· ^^^ ·) x y)
  | band => some (bitwise t (· &&& ·) x y)
  | eq => some (truth (t.convert x = t.convert y))
  | ne => some (truth (t.convert x ≠ t.convert y))
  | lt => some (truth (t.convert x < t.convert y))
  | gt => some (truth (t.convert x > t.convert y))
  | le => some (truth (t.convert x ≤ t.convert y))
  | ge => some (truth (t.convert x ≥ t.convert y))
  | shl => if 0 ≤ y ∧ y < 32 then some (tl.convert (x * 2 ^ y.toNat)) else none
  | shr => if 0 ≤ y ∧ y < 32 then some (x / 2 ^ y.toNat) else none
  | add => some (t.convert (t.convert x + t.convert y))
  | sub => some (t.convert (t.convert x - t.convert y))
  | mul => some (t.convert (t.convert x * t.convert y))
  | div =>
      if t.convert y = 0 ∨ ¬t.InRange ((t.convert x).tdiv (t.convert y)) then none
      else some ((t.convert x).tdiv (t.convert y))
  | mod =>
      if t.convert y = 0 ∨ ¬t.InRange ((t.convert x).tdiv (t.convert y)) then none
      else some ((t.convert x).tmod (t.convert y))

/-- The ID of the value of an infix operator. -/
def typeid (left right : CTypeID) : CBinop → CTypeID
  | oror | andand | eq | ne | lt | gt | le | ge => CTID_INT32
  | shl | shr => left
  | _ => if right > left then right else left

end CBinop

namespace CExpr

variable [CPState]

/-- The value of an expression, where no operand of it divides by zero or shifts too far. -/
def value : CExpr → Option Int
  | integer value unsigned => some (if unsigned then value.toNat else value.toInt)
  | constant c => some (c.type.read c.ct.size)
  | sizeofType name => some name.size.toNat
  | sizeofExpr e => e.value.map fun _ => (e.type.bytes : Int)
  | unary op e => e.value.map fun x => op.value e.type.promoted x
  | binary op l r => do
      let x ← l.value
      let y ← r.value
      op.value (l.type.common r.type) l.type.promoted x y
  | cond c a b => do
      let z ← c.value
      let x ← a.value
      let y ← b.value
      return (a.type.common b.type).convert (if z ≠ 0 then x else y)
  | paren e => e.value

/-! ## Meaning for the evaluator -/

/-- The ID that the evaluator gives to the value of an expression. -/
def typeid : CExpr → CTypeID
  | integer _ unsigned => if unsigned then CTID_UINT32 else CTID_INT32
  | constant c => ctype_cid c.ct.info
  | sizeofType _ | sizeofExpr _ => CTID_UINT32
  | unary .lnot _ => CTID_INT32
  | unary _ e => e.typeid
  | binary op l r => op.typeid l.typeid r.typeid
  | cond _ a b => if a.typeid > b.typeid then a.typeid else b.typeid
  | paren e => e.typeid

/-- How deep the calls of `cp_expr_unary` are nested. -/
def depth : CExpr → Nat
  | integer _ _ | constant _ | sizeofType _ => 1
  | sizeofExpr (paren e) => e.depth + 1
  | sizeofExpr e | unary _ e | paren e => e.depth + 1
  | binary _ l r => max l.depth r.depth
  | cond c a b => max c.depth (max a.depth b.depth)

/-- The expression and those it is made of. -/
def parts : CExpr → List CExpr
  | e@(integer _ _) | e@(constant _) | e@(sizeofType _) => [e]
  | e@(sizeofExpr a) | e@(unary _ a) | e@(paren a) => e :: a.parts
  | e@(binary _ l r) => e :: l.parts ++ r.parts
  | e@(cond c a b) => e :: c.parts ++ a.parts ++ b.parts

end CExpr

end TvmJit
