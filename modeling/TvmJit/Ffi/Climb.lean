import TvmJit.Ffi.Fields
import TvmJit.Ffi.Constants

/-! The precedence climber reads an expression as the grammar of C derives it. -/

namespace TvmJit

open Foundation Function

/-! ## What the evaluator computes -/

namespace CUnop

def word (k : CPValue) : CUnop → CPValue
  | plus => k
  | neg => { k with u32 := -k.u32 }
  | bnot => { k with u32 := ~~~k.u32 }
  | lnot => .ofBool (k.u32 = 0)

end CUnop

section

variable [CPState]

/-- The size that `cp_expr_sizeof` finds for a type. -/
def sizeOf (id : CTypeID) : CTSize :=
  match CPState.tab.lj_ctype_info id with
  | some (_, sz) => sz
  | none => CTSIZE_INVALID

/-- One more call of `cp_expr_unary`. -/
def nested (depth : Nat) (body : Except CParseError CPValue) : Except CParseError CPValue :=
  if depth + 1 > CPARSE_MAX_DECLDEPTH then .error .levels else body

namespace CExpr

/-- What the evaluator makes of an expression, along its derivation. -/
def evaluate (depth : Nat) : CExpr → Except CParseError CPValue
  | integer value unsigned => nested depth (.ok ⟨value, if unsigned then CTID_UINT32 else CTID_INT32⟩)
  | constant c => nested depth (.ok ⟨c.ct.size, ctype_cid c.ct.info⟩)
  | sizeofType name => nested depth (.ok ⟨name.size, CTID_UINT32⟩)
  | sizeofExpr (paren e) =>
      nested depth ((e.evaluate (depth + 1)).map fun k => ⟨sizeOf k.id, CTID_UINT32⟩)
  | sizeofExpr e =>
      nested depth ((e.evaluate (depth + 1)).map fun k => ⟨sizeOf k.id, CTID_UINT32⟩)
  | unary op e => nested depth ((e.evaluate (depth + 1)).map op.word)
  | binary op l r => do
      let k ← l.evaluate depth
      let k2 ← r.evaluate depth
      k.infix_ k2 op
  | cond c a b => do
      let k ← c.evaluate depth
      let k2 ← a.evaluate depth
      let k3 ← b.evaluate depth
      .ok ⟨if k.u32 ≠ 0 then k2.u32 else k3.u32, if k2.id > k3.id then k2.id else k3.id⟩
  | paren e => nested depth (e.evaluate (depth + 1))

end CExpr

/-! ## What may follow an expression -/

/-- The case of the switch that takes a token. -/
def CPToken.rank : CPToken → Option Nat
  | question => some 0
  | tok => tok.binop.map CBinop.pri

/-- Whether a token continues a postfix expression. -/
def CPToken.isAccessor : CPToken → Bool
  | lbrack | dot | deref => true
  | _ => false

/-- The next token neither accesses a part nor is an infix operator of the given case or behind. -/
def Closes (pri : Nat) : List CPToken → Prop
  | [] => True
  | tok :: _ => tok.isAccessor = false ∧ ∀ q, tok.rank = some q → q < pri

namespace CExpr

/-- An expression is only followed by operators that bind weaker than this. -/
def bound : CExpr → Nat
  | binary op _ _ => op.pri + 1
  | cond _ _ _ => 0
  | _ => 12

end CExpr

variable {k : CPValue} {depth pri : Nat} {toks rest : List CPToken}

omit [CPState] in
theorem Closes.mono {pri' : Nat} (closes : Closes pri rest) (le : pri ≤ pri') : Closes pri' rest := by
  cases rest with
  | nil => trivial
  | cons tok rest => exact ⟨closes.1, fun q rank => (closes.2 q rank).trans_le le⟩

/-- The operators that take two values. -/
theorem infix_step {tok : CPToken} {op : CBinop} (isOp : tok.binop = some op) (takes : pri ≤ op.pri)
    (fuel : Nat) :
    cp_expr_infix (fuel + 1) depth k pri (tok :: toks) =
      (if op.pri = 10 then cp_expr_unary fuel depth toks
        else cp_expr_sub fuel depth (op.pri + 1) toks) >>= (fun x => do
          let k ← ExceptT.mk (some (k.infix_ x.1 op))
          cp_expr_infix fuel depth k pri x.2) := by
  cases tok with
  | question => cases isOp
  | _ =>
      rw [ cp_expr_infix]
      · dsimp only
        rw [isOp]
        dsimp only
        rw [if_pos takes]
        split <;> rfl
      · exact nofun

theorem infix_stops (closes : Closes pri rest) :
    Settles (fun fuel => cp_expr_infix fuel depth k pri rest) (.ok (k, rest)) := by
  have stops : Settles (fun _ => (pure (k, rest) : CPResult)) (.ok (k, rest)) := .pure
  apply stops.succ
  intro fuel
  cases rest with
  | nil => rfl
  | cons tok rest =>
      obtain ⟨-, weaker⟩ := closes
      cases tok with
      | question =>
          have positive := weaker 0 rfl
          exact if_neg (Nat.ne_of_gt positive)
      | _ =>
          rw [ cp_expr_infix]
          · dsimp only
            split
            · rfl
            · next op isOp =>
                have weak := weaker op.pri (congrArg (Option.map CBinop.pri) isOp)
                exact if_neg (Nat.not_le.mpr weak)
          · exact nofun

theorem postfix_stops (closes : Closes pri rest) :
    Settles (fun fuel => cp_expr_postfix fuel depth k rest) (.ok (k, rest)) := by
  have stops : Settles (fun _ => (pure (k, rest) : CPResult)) (.ok (k, rest)) := .pure
  apply stops.succ
  intro fuel
  cases rest with
  | nil => rfl
  | cons tok rest =>
      obtain ⟨plain, -⟩ := closes
      cases tok with
      | lbrack | dot | deref => cases plain
      | _ => rfl

/-! ## Operands -/

/-- The outcome of a parser that leaves the rest of the tokens. -/
def leaving (rest : List CPToken) (outcome : Except CParseError CPValue) :
    Except CParseError (CPValue × List CPToken) :=
  outcome >>= fun k => .ok (k, rest)

omit [CPState] in
theorem leaving_bind {α : Type} {read : Nat → CPResult} {outcome : Except CParseError CPValue}
    (settles : Settles read (leaving rest outcome))
    (next : Nat → CPValue × List CPToken → Fueled CParseError α)
    (after : CPValue → Except CParseError α)
    (each : ∀ k, outcome = .ok k → Settles (fun fuel => next fuel (k, rest)) (after k)) :
    Settles (fun fuel => read fuel >>= next fuel) (outcome >>= after) := by
  have runs := settles.bind next (fun x => after x.1) fun x isOk => ?_
  · cases outcome <;> exact runs
  · cases outcome with
    | error e => cases isOk
    | ok k =>
        obtain rfl := Except.ok.inj isOk
        exact each k rfl

theorem settles_unary {body : Except CParseError CPValue} (closes : Closes 12 rest)
    (prefix_ : Settles (fun fuel => cp_expr_prefix fuel (depth + 1) toks) (leaving rest body)) :
    Settles (fun fuel => cp_expr_unary fuel depth toks) (leaving rest (nested depth body)) := by
  rw [nested]
  by_cases deep : depth + 1 > CPARSE_MAX_DECLDEPTH
  · rw [if_pos deep]
    have fails : Settles (fun _ => (throw .levels : CPResult)) (.error .levels) := .throw
    exact fails.succ fun fuel => if_pos deep
  · rw [if_neg deep]
    refine Settles.succ ?_ fun fuel => if_neg deep
    exact leaving_bind prefix_ (fun fuel x => cp_expr_postfix fuel (depth + 1) x.1 x.2)
      (fun k => .ok (k, rest)) fun k _ => postfix_stops closes

/-- An operand, and the operators behind it. -/
theorem settles_sub {operand : Except CParseError CPValue}
    {after : CPValue → Except CParseError (CPValue × List CPToken)}
    (unary : Settles (fun fuel => cp_expr_unary fuel depth toks) (leaving rest operand))
    (infix_ : ∀ k, Settles (fun fuel => cp_expr_infix fuel depth k pri rest) (after k)) :
    Settles (fun fuel => cp_expr_sub fuel depth pri toks) (operand >>= after) := by
  refine Settles.succ ?_ fun fuel => rfl
  exact leaving_bind unary (fun fuel x => cp_expr_infix fuel depth x.1 pri x.2) after
    fun k _ => infix_ k

/-- Behind an operand of the comma operator: the next operand, or the end of the expression. -/
def afterOperand (depth : Nat) (fuel : Nat) (x : CPValue × List CPToken) : CPResult :=
  match x.2 with
  | .comma :: toks => cp_expr_comma fuel depth toks
  | toks => pure (x.1, toks)

theorem settles_comma {outcome : Except CParseError CPValue} (next : ∀ toks, rest ≠ .comma :: toks)
    (sub : Settles (fun fuel => cp_expr_sub fuel depth 0 toks) (leaving rest outcome)) :
    Settles (fun fuel => cp_expr_comma fuel depth toks) (leaving rest outcome) := by
  refine Settles.succ ?_ fun fuel => rfl
  refine leaving_bind sub (afterOperand depth) (fun k => .ok (k, rest)) fun k _ => ?_
  unfold afterOperand
  dsimp only
  split
  · exact absurd rfl (next _)
  · exact .pure

/-! ## Types -/

theorem intType_size {id : CTypeID} {t : CIntType} (isType : CPState.intType id = some t) :
    (∃ info, CPState.tab.lj_ctype_info id = some (info, sizeOf id)) ∧ (sizeOf id).toNat = t.bytes := by
  rw [CPState.intType] at isType
  split at isType
  · next isInt =>
      obtain rfl := Option.some.inj isType
      have kind : ctype_isinteger_or_bool (CPState.tab id).info = true := by
        have integer := isInt.1
        rw [ctype_isinteger, decide_eq_true_eq] at integer
        have narrower : (CTMASK_NUM ||| CTF_BOOL ||| CTF_FP) &&& (CTMASK_NUM ||| CTF_FP) =
            CTMASK_NUM ||| CTF_FP := by decide
        rw [ctype_isinteger_or_bool, decide_eq_true_eq, ← narrower, ← BitVec.and_assoc, integer]
        decide
      have number := CTab.type_of_integer kind
      have info : ∃ info, CPState.tab.lj_ctype_info id = some (info, (CPState.tab id).size) := by
        have steps : ctypeSteps = (2 ^ 16 - 1) + 1 := rfl
        rw [CTab.lj_ctype_info, steps, CTab.infoLoop]
        dsimp only
        rw [ctype_isenum, ctype_isattrib, ctype_isfunc, number]
        exact ⟨_, rfl⟩
      obtain ⟨info, look⟩ := info
      have size : sizeOf id = (CPState.tab id).size := by rw [sizeOf, look]
      rw [size]
      exact ⟨⟨info, look⟩, rfl⟩
  · cases isType

omit [CPState] in
theorem nested_ok {body : Except CParseError CPValue} (value : nested depth body = .ok k) :
    depth + 1 ≤ CPARSE_MAX_DECLDEPTH ∧ body = .ok k := by
  rw [nested] at value
  split at value
  · cases value
  · next small => exact ⟨Nat.not_lt.mp small, value⟩

omit [CPState] in
theorem map_ok {α β : Type} {f : α → β} {outcome : Except CParseError α} {b : β}
    (value : outcome.map f = .ok b) : ∃ a, outcome = .ok a ∧ b = f a := by
  cases outcome with
  | error e => cases value
  | ok a => exact ⟨a, rfl, (Except.ok.inj value).symm⟩

omit [CPState] in
theorem bind_ok {α β : Type} {f : α → Except CParseError β} {outcome : Except CParseError α} {b : β}
    (value : (outcome >>= f) = .ok b) : ∃ a, outcome = .ok a ∧ f a = .ok b := by
  cases outcome with
  | error e => cases value
  | ok a => exact ⟨a, rfl, value⟩

omit [CPState] in
theorem infix_id {k₁ k₂ : CPValue} {op : CBinop} (value : k₁.infix_ k₂ op = .ok k) :
    k.id = op.typeid k₁.id k₂.id := by
  have divided {signed unsigned : BitVec 32 → BitVec 32 → BitVec 32}
      (value : k₁.divide k₂ signed unsigned = .ok k) :
      k.id = if k₂.id > k₁.id then k₂.id else k₁.id := by
    rw [CPValue.divide] at value
    split at value
    · cases value
    · obtain rfl := Except.ok.inj value
      rfl
  cases op with
  | div | mod => exact divided value
  | _ =>
      obtain rfl := Except.ok.inj value
      rfl

namespace CExpr

variable {e l r c a b : CExpr}

/-- The parentheses of `sizeof (e)` are read by `cp_expr_sizeof`. -/
def inSizeof (depth : Nat) : CExpr → Except CParseError CPValue
  | paren e => e.evaluate (depth + 1)
  | e => e.evaluate (depth + 1)

theorem evaluate_sizeof (e : CExpr) (depth : Nat) :
    (sizeofExpr e).evaluate depth =
      nested depth ((e.inSizeof depth).map fun k => ⟨sizeOf k.id, CTID_UINT32⟩) := by
  cases e <;> rfl

/-- The evaluator only gives IDs of integer types. -/
theorem intType_typeid (predefined : CPState.Predefined) (e : CExpr) :
    ∃ t, CPState.intType e.typeid = some t := by
  induction e with
  | integer value unsigned =>
      rw [typeid]
      split
      · exact ⟨_, predefined.uint32⟩
      · exact ⟨_, predefined.int32⟩
  | constant c => exact ⟨_, c.isType⟩
  | sizeofType name => exact ⟨_, predefined.uint32⟩
  | sizeofExpr e induction => exact ⟨_, predefined.uint32⟩
  | unary op e induction =>
      cases op with
      | lnot => exact ⟨_, predefined.int32⟩
      | _ => exact induction
  | binary op l r inductionl inductionr =>
      have promoted : ∃ t,
          CPState.intType (if r.typeid > l.typeid then r.typeid else l.typeid) = some t := by
        split
        · exact inductionr
        · exact inductionl
      cases op with
      | oror | andand | eq | ne | lt | gt | le | ge => exact ⟨_, predefined.int32⟩
      | shl | shr => exact inductionl
      | _ => exact promoted
  | cond c a b inductionc inductiona inductionb =>
      rw [typeid]
      split
      · exact inductiona
      · exact inductionb
  | paren e induction => exact induction

/-- The ID of a value does not depend on it. -/
theorem evaluate_id {k : CPValue} {depth : Nat} (value : e.evaluate depth = .ok k) :
    k.id = e.typeid := by
  induction e generalizing depth k with
  | integer v unsigned | constant c | sizeofType name =>
      obtain ⟨-, value⟩ := nested_ok value
      obtain rfl := Except.ok.inj value
      rfl
  | sizeofExpr e induction =>
      rw [evaluate_sizeof] at value
      obtain ⟨-, value⟩ := nested_ok value
      obtain ⟨k', -, rfl⟩ := map_ok value
      rfl
  | unary op e induction =>
      obtain ⟨-, value⟩ := nested_ok value
      obtain ⟨k', operand, rfl⟩ := map_ok value
      have same := induction operand
      cases op with
      | lnot => rfl
      | _ => exact same
  | binary op l r inductionl inductionr =>
      obtain ⟨k₁, left, value⟩ := bind_ok value
      obtain ⟨k₂, right, value⟩ := bind_ok value
      rw [infix_id value, inductionl left, inductionr right]
      rfl
  | cond c a b inductionc inductiona inductionb =>
      obtain ⟨k₁, -, value⟩ := bind_ok value
      obtain ⟨k₂, left, value⟩ := bind_ok value
      obtain ⟨k₃, right, value⟩ := bind_ok value
      obtain rfl := Except.ok.inj value
      rw [typeid, ← inductiona left, ← inductionb right]
  | paren e induction =>
      obtain ⟨-, value⟩ := nested_ok value
      exact induction value

/-! ## Reading -/

/-- An expression is read as a unary one, if it is one, and as the first operand of what follows. -/
structure Reads (e : CExpr) : Prop where
  unary : e.level = 11 → ∀ depth {rest}, Closes 12 rest →
    Settles (fun fuel => cp_expr_unary fuel depth (e.tokens ++ rest)) (leaving rest (e.evaluate depth))
  sub : ∀ depth {pri rest after}, pri ≤ e.level → Closes e.bound rest →
    (∀ k, Settles (fun fuel => cp_expr_infix fuel depth k pri rest) (after k)) →
    Settles (fun fuel => cp_expr_sub fuel depth pri (e.tokens ++ rest)) (e.evaluate depth >>= after)

theorem Reads.of_unary (bound : e.bound = 12)
    (unary : ∀ depth {rest}, Closes 12 rest →
      Settles (fun fuel => cp_expr_unary fuel depth (e.tokens ++ rest))
        (leaving rest (e.evaluate depth))) : e.Reads where
  unary _ := unary
  sub depth _ _ _ _ closes infix_ := settles_sub (unary depth (bound ▸ closes)) infix_

/-- The whole expression, before a token that does not continue it. -/
theorem Reads.whole {pri : Nat} {rest : List CPToken} (reads : e.Reads) (depth : Nat) (le : pri ≤ e.level)
    (closes : Closes pri rest) (bound : pri ≤ e.bound) :
    Settles (fun fuel => cp_expr_sub fuel depth pri (e.tokens ++ rest))
      (leaving rest (e.evaluate depth)) :=
  reads.sub depth le (closes.mono bound) fun _ => infix_stops closes

/-- The first token of an expression does not start a type. -/
theorem not_istypedecl (e : CExpr) (rest : List CPToken) : cp_istypedecl (e.tokens ++ rest) = false := by
  induction e generalizing rest with
  | integer v unsigned => rfl
  | constant c =>
      have isConstval := c.isConstval
      change ctype_istypedef c.ct.info = false
      rw [ctype_istypedef, isConstval]
      decide
  | sizeofType name => rfl
  | sizeofExpr e induction => rfl
  | unary op e induction => cases op <;> rfl
  | binary op l r inductionl inductionr =>
      rw [tokens, List.append_assoc]
      exact inductionl _
  | cond c a b inductionc inductiona inductionb =>
      rw [tokens, List.append_assoc, List.append_assoc]
      exact inductionc _
  | paren e induction => rfl

theorem tokens_paren (e : CExpr) (rest : List CPToken) :
    (paren e).tokens ++ rest = .lparen :: (e.tokens ++ .rparen :: rest) := by
  simp [tokens]

/-- An expression between parentheses, behind the opening one. -/
theorem Reads.inParens (reads : e.Reads) (depth : Nat) (rest : List CPToken) :
    Settles (fun fuel => do
        let (k, toks) ← cp_expr_comma fuel depth (e.tokens ++ .rparen :: rest)
        let toks ← cp_check CPToken.isRparen toks
        pure (k, toks)) (leaving rest (e.evaluate depth)) := by
  have closes : Closes 0 (.rparen :: rest) := ⟨rfl, nofun⟩
  have next : ∀ toks, CPToken.rparen :: rest ≠ .comma :: toks := fun _ same => nomatch same
  have comma := settles_comma next (reads.whole depth (Nat.zero_le _) closes (Nat.zero_le _))
  exact leaving_bind comma (fun fuel x => do
    let toks ← cp_check CPToken.isRparen x.2
    pure (x.1, toks)) (fun k => .ok (k, rest)) fun k _ => .pure

/-! ### Unary expressions -/

theorem reads_integer (v : BitVec 32) (unsigned : Bool) : (integer v unsigned).Reads := by
  refine .of_unary rfl fun depth _ closes => settles_unary closes ?_
  exact Settles.pure.succ fun fuel => rfl

theorem reads_constant (c : CConstant) : (constant c).Reads := by
  refine .of_unary rfl fun depth _ closes => settles_unary closes ?_
  exact Settles.pure.succ fun fuel => if_pos c.isConstval

theorem cp_sizeof_spec {k : CPValue} {info : CTInfo} {sz : CTSize}
    (look : CPState.tab.lj_ctype_info k.id = some (info, sz)) (valid : sz ≠ CTSIZE_INVALID) :
    cp_sizeof true k = pure ⟨sz, CTID_UINT32⟩ := by
  rw [cp_sizeof, look]
  exact if_pos valid

theorem reads_sizeofType (name : CTypeName) : (sizeofType name).Reads := by
  refine .of_unary rfl fun depth rest closes => settles_unary closes ?_
  have found (fuel : Nat) : cp_expr_sizeof (fuel + 1) (depth + 1) true
      (.lparen :: (name.tokens ++ .rparen :: rest)) = pure (⟨name.size, CTID_UINT32⟩, rest) := by
    rw [cp_expr_sizeof]
    dsimp only
    rw [if_pos (name.starts _), name.parsed]
    change (cp_sizeof true ⟨0, name.id⟩ >>= fun k => pure (k, rest)) = _
    rw [cp_sizeof_spec (k := ⟨0, name.id⟩) name.isSize name.complete]
    rfl
  have sized : Settles (fun fuel => cp_expr_sizeof fuel (depth + 1) true
      (.lparen :: (name.tokens ++ .rparen :: rest))) (.ok (⟨name.size, CTID_UINT32⟩, rest)) :=
    Settles.pure.succ found
  refine sized.succ fun fuel => ?_
  rw [tokens]
  change cp_expr_sizeof _ _ _ (.lparen :: (name.tokens ++ [.rparen] ++ rest)) = _
  rw [List.append_assoc]
  rfl

/-- The size of the type of a value that is read. -/
theorem settles_sizeof {rest : List CPToken} {read : Nat → CPResult}
    {outcome : Except CParseError CPValue}
    (settles : Settles read (leaving rest outcome))
    (sized : ∀ k, outcome = .ok k → ∃ t, CPState.intType k.id = some t) :
    Settles (fun fuel => do
        let (k, toks) ← read fuel
        let k ← cp_sizeof true k
        pure (k, toks))
      (leaving rest (outcome.map fun k => ⟨sizeOf k.id, CTID_UINT32⟩)) := by
  have runs := leaving_bind settles (fun fuel x => do
    let k ← cp_sizeof true x.1
    pure (k, x.2)) (fun k => .ok (⟨sizeOf k.id, CTID_UINT32⟩, rest)) fun k value => ?_
  · cases outcome <;> exact runs
  · obtain ⟨t, isType⟩ := sized k value
    obtain ⟨⟨info, look⟩, bytes⟩ := intType_size isType
    have valid : sizeOf k.id ≠ CTSIZE_INVALID := by
      intro invalid
      rw [invalid] at bytes
      have small := t.size
      change 0xffffffff = t.bytes at bytes
      omega
    dsimp only
    rw [cp_sizeof_spec look valid]
    exact .pure

theorem reads_sizeofExpr (predefined : CPState.Predefined) (level : e.level = 11) (reads : e.Reads)
    (inside : ∀ a, e = paren a → a.Reads) : (sizeofExpr e).Reads := by
  refine .of_unary rfl fun depth rest closes => ?_
  rw [evaluate_sizeof]
  refine settles_unary closes ?_
  have sized (k : CPValue) (value : e.inSizeof depth = .ok k) :
      ∃ t, CPState.intType k.id = some t := by
    cases e with
    | paren a =>
        rw [evaluate_id (show a.evaluate (depth + 1) = .ok k from value)]
        exact intType_typeid predefined a
    | integer _ _ | constant _ | sizeofType _ | sizeofExpr _ | unary _ _ | binary _ _ _ | cond _ _ _ =>
        rw [evaluate_id value]
        exact intType_typeid predefined _
  have read (fuel : Nat) : cp_expr_prefix (fuel + 1) (depth + 1) ((sizeofExpr e).tokens ++ rest) =
      cp_expr_sizeof fuel (depth + 1) true (e.tokens ++ rest) := rfl
  cases e with
  | paren a =>
      have runs := settles_sizeof ((inside a rfl).inParens (depth + 1) rest) sized
      refine (runs.succ fun fuel => ?_).succ read
      rw [tokens_paren, cp_expr_sizeof]
      dsimp only
      rw [a.not_istypedecl, if_neg Bool.false_ne_true]
      simp only [bind_assoc, pure_bind]
  | binary op _ _ => cases op <;> cases level
  | cond _ _ _ => cases level
  | integer _ _ | constant _ | sizeofType _ | sizeofExpr _ =>
      have runs := settles_sizeof (reads.unary level (depth + 1) closes) sized
      exact (runs.succ fun fuel => rfl).succ read
  | unary op a =>
      have runs := settles_sizeof (reads.unary level (depth + 1) closes) sized
      exact (runs.succ fun fuel => by cases op <;> rfl).succ read

theorem reads_unary (op : CUnop) (level : e.level = 11) (reads : e.Reads) : (unary op e).Reads := by
  refine .of_unary rfl fun depth rest closes => settles_unary closes ?_
  have operand := reads.unary level (depth + 1) closes
  have runs := leaving_bind operand (fun fuel x => pure (op.word x.1, x.2))
    (fun k => .ok (op.word k, rest)) fun k _ => .pure
  have same : (e.evaluate (depth + 1) >>= fun k => .ok (op.word k, rest)) =
      leaving rest ((e.evaluate (depth + 1)).map op.word) := by
    cases e.evaluate (depth + 1) <;> rfl
  rw [same] at runs
  refine runs.succ fun fuel => ?_
  cases op with
  | plus => exact (bind_pure _).symm
  | _ => rfl

theorem reads_paren (reads : e.Reads) : (paren e).Reads := by
  refine .of_unary rfl fun depth rest closes => settles_unary closes ?_
  refine (reads.inParens (depth + 1) rest).succ fun fuel => ?_
  rw [tokens_paren, cp_expr_prefix]
  dsimp only
  rw [e.not_istypedecl, if_neg Bool.false_ne_true]

/-! ### Infix operators -/

omit [CPState] in
theorem binop_token (op : CBinop) : op.token.binop = some op := by cases op <;> rfl

omit [CPState] in
theorem rank_token (op : CBinop) : op.token.rank = some op.pri := by cases op <;> rfl

omit [CPState] in
theorem token_plain (op : CBinop) : op.token.isAccessor = false := by cases op <;> rfl

omit [CPState] in
theorem pri_pos (op : CBinop) : 0 < op.pri ∧ op.pri ≤ 10 := by cases op <;> decide

theorem level_le (e : CExpr) : e.level ≤ 11 := by
  cases e with
  | binary op l r => exact (pri_pos op).2.trans (by decide)
  | cond c a b => exact Nat.zero_le _
  | _ => exact le_rfl

/-- Only a conditional may not be followed by operators of its own level. -/
theorem level_lt_bound (notCond : 0 < e.level) : e.level < e.bound := by
  cases e with
  | cond c a b => cases notCond
  | binary op l r => exact Nat.lt_succ_self _
  | _ => exact Nat.lt_succ_self _

theorem reads_binary {op : CBinop} (left : op.pri ≤ l.level) (right : op.pri < r.level)
    (readsl : l.Reads) (readsr : r.Reads) : (binary op l r).Reads := by
  obtain ⟨positive, most⟩ := pri_pos op
  refine ⟨fun level => absurd level (by change op.pri ≠ 11; omega),
    fun depth pri rest after le closes infix_ => ?_⟩
  have le : pri ≤ op.pri := le
  have closes : Closes (op.pri + 1) rest := closes
  have operand : Settles (fun fuel =>
      if op.pri = 10 then cp_expr_unary fuel depth (r.tokens ++ rest)
      else cp_expr_sub fuel depth (op.pri + 1) (r.tokens ++ rest)) (leaving rest (r.evaluate depth)) := by
    by_cases product : op.pri = 10
    · have level : r.level = 11 := by
        have most := r.level_le
        omega
      simp only [if_pos product]
      exact readsr.unary level depth (closes.mono (by omega))
    · simp only [if_neg product]
      exact readsr.whole depth right closes
        ((Nat.succ_le_of_lt right).trans (level_lt_bound (positive.trans right)).le)
  have closesl : Closes l.bound (op.token :: (r.tokens ++ rest)) := by
    refine ⟨token_plain op, fun q rank => ?_⟩
    obtain rfl := Option.some.inj ((rank_token op).symm.trans rank)
    exact left.trans_lt (level_lt_bound (positive.trans_le left))
  have behind : (binary op l r).tokens ++ rest = l.tokens ++ op.token :: (r.tokens ++ rest) := by
    simp [tokens]
  rw [behind, evaluate, bind_assoc]
  refine readsl.sub depth (le.trans left) closesl fun k => ?_
  have runs := leaving_bind operand (fun fuel x => do
    let k ← ExceptT.mk (some (k.infix_ x.1 op))
    cp_expr_infix fuel depth k pri x.2) (fun k2 => k.infix_ k2 op >>= after) fun k2 _ => ?_
  · rw [bind_assoc]
    exact runs.succ fun fuel => infix_step (binop_token op) le fuel
  · exact Settles.const.bind (fun fuel k => cp_expr_infix fuel depth k pri rest) after
      fun k _ => infix_ k

theorem reads_cond (notCond : 0 < c.level) (readsc : c.Reads) (readsa : a.Reads) (readsb : b.Reads) :
    (cond c a b).Reads := by
  refine ⟨(nomatch ·), fun depth pri rest after le closes infix_ => ?_⟩
  obtain rfl : pri = 0 := Nat.le_zero.mp le
  have closes : Closes 0 rest := closes
  have closesc : Closes c.bound (.question :: (a.tokens ++ .colon :: (b.tokens ++ rest))) := by
    refine ⟨rfl, fun q rank => ?_⟩
    obtain rfl := Option.some.inj rank
    exact notCond.trans (level_lt_bound notCond)
  have behind : (cond c a b).tokens ++ rest =
      c.tokens ++ .question :: (a.tokens ++ .colon :: (b.tokens ++ rest)) := by
    simp [tokens]
  rw [behind, evaluate, bind_assoc]
  refine readsc.sub depth (Nat.zero_le _) closesc fun k => ?_
  have closesa : Closes 0 (.colon :: (b.tokens ++ rest)) := ⟨rfl, nofun⟩
  have next : ∀ toks, CPToken.colon :: (b.tokens ++ rest) ≠ .comma :: toks := fun _ same => nomatch same
  have first := settles_comma next (readsa.whole depth (Nat.zero_le _) closesa (Nat.zero_le _))
  have second := readsb.whole depth (Nat.zero_le _) closes (Nat.zero_le _)
  let result (k2 k3 : CPValue) : CPValue :=
    ⟨if k.u32 ≠ 0 then k2.u32 else k3.u32, if k2.id > k3.id then k2.id else k3.id⟩
  have runs := leaving_bind first (fun fuel x => do
    let toks ← cp_check CPToken.isColon x.2
    let (k3, toks) ← cp_expr_sub fuel depth 0 toks
    cp_expr_infix fuel depth (result x.1 k3) 0 toks)
    (fun k2 => b.evaluate depth >>= fun k3 => after (result k2 k3)) fun k2 _ => ?_
  · rw [bind_assoc]
    simp only [bind_assoc]
    exact runs.succ fun fuel => rfl
  · exact leaving_bind second (fun fuel x => cp_expr_infix fuel depth (result k2 x.1) 0 x.2)
      (fun k3 => after (result k2 k3)) fun k3 _ => infix_ _

/-- Every expression the grammar derives is read along its derivation. -/
theorem reads (predefined : CPState.Predefined) (e : CExpr) (derived : e.Derived) : e.Reads := by
  suffices both : e.Reads ∧ ∀ a, e = paren a → a.Reads from both.1
  induction e with
  | integer v unsigned => exact ⟨reads_integer v unsigned, nofun⟩
  | constant c => exact ⟨reads_constant c, nofun⟩
  | sizeofType name => exact ⟨reads_sizeofType name, nofun⟩
  | sizeofExpr e induction =>
      obtain ⟨reads, inside⟩ := induction derived.2
      exact ⟨reads_sizeofExpr predefined derived.1 reads inside, nofun⟩
  | unary op e induction => exact ⟨reads_unary op derived.1 (induction derived.2).1, nofun⟩
  | binary op l r inductionl inductionr =>
      obtain ⟨left, right, derivedl, derivedr⟩ := derived
      exact ⟨reads_binary left right (inductionl derivedl).1 (inductionr derivedr).1, nofun⟩
  | cond c a b inductionc inductiona inductionb =>
      obtain ⟨notCond, derivedc, deriveda, derivedb⟩ := derived
      exact ⟨reads_cond notCond (inductionc derivedc).1 (inductiona deriveda).1 (inductionb derivedb).1,
        nofun⟩
  | paren e induction =>
      have inside := (induction derived).1
      refine ⟨reads_paren inside, fun a same => ?_⟩
      cases same
      exact inside

end CExpr

end

end TvmJit
