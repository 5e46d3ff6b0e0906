import TvmJit.Lua.Statement
import TvmJit.Parse.Statement

/-! How many values an expression gives where Lua has it, and how many the TP compiler takes
where `lunokhod.lua` writes it. -/

namespace TvmJit

/-! ## What the TP compiler takes -/

/-- Where the compiler takes an expression. -/
inductive TpPlace
  /-- It is put into a register, or used as a constant. -/
  | single
  /-- The last of a list, left open by `expr_list`, `expr_table` or `assign_adjust`. -/
  | last
  /-- The last operand of an operator that is a call: `bcemit_call` passes an open one on. -/
  | emulated
  /-- The last statement of `parse_repeat`, which drops the results of an open one. -/
  | until_
  deriving DecidableEq, Repr

/-- The special name a table starts with makes it a form. -/
def TpEntries.form? : TpEntries → Option (SP × TpEntries)
  | .item (.atom tok) rest => (headOf tok).map (·, rest)
  | _ => none

/-- The compiler leaves an expression of Lua as `VCALL`. -/
def TpTree.isOpen : TpTree → Bool
  | .atom tok => tok == .name SP.vararg.str
  | .table entries =>
      match entries.form? with
      | some (.call, _) => true
      | some (.callmeth, _) => true
      | _ => false

/-- The operators that are calls of a library function. -/
def isEmulated : SP → Bool
  | .bnot | .idiv | .band | .bor | .bxor | .shl | .shr => true
  | _ => false

/-- How many values are taken of an expression. `results` are those an open expression gives.
An operator that is a call asks an open operand for one value and then passes on `multres`, as
many as the last function or instruction to set `MULTRES` has left. -/
def TpPlace.taken (results : TpTree → Nat) (multres : Nat) (place : TpPlace) (t : TpTree) : Nat :=
  if t.isOpen then
    match place with
    | single => 1
    | last => results t
    | emulated => multres
    | until_ => 0
  else 1

/-- The expressions of `expr_list`. -/
def TpEntries.list : TpEntries → List (TpPlace × TpTree)
  | .nil => []
  | .item v .nil => [(.last, v)]
  | .item v rest => (.single, v) :: rest.list
  | .pair _ _ _ => []

/-- The expressions of `expr_table`. -/
def TpEntries.fields : TpEntries → List (TpPlace × TpTree)
  | .nil => []
  | .item v .nil => [(.last, v)]
  | .item v rest => (.single, v) :: rest.fields
  | .pair k v rest => (.single, k) :: (.single, v) :: rest.fields

/-- The last statement of `parse_repeat`. -/
def TpEntries.until_ : TpEntries → List (TpPlace × TpTree)
  | .nil => []
  | .item c .nil => [(.until_, c)]
  | .item _ rest => rest.until_
  | .pair _ _ _ => []

/-- The expressions a form takes, those of the statements inside it apart. -/
def formTakes : SP → TpEntries → List (TpPlace × TpTree)
  | .neg, .item a .nil | .not, .item a .nil | .len, .item a .nil => [(.single, a)]
  | .bnot, .item a .nil => [(.emulated, a)]
  | .add, .item a (.item b .nil) | .sub, .item a (.item b .nil) | .mul, .item a (.item b .nil)
  | .div, .item a (.item b .nil) | .mod, .item a (.item b .nil) | .pow, .item a (.item b .nil)
  | .concat, .item a (.item b .nil) | .ne, .item a (.item b .nil) | .eq, .item a (.item b .nil)
  | .lt, .item a (.item b .nil) | .le, .item a (.item b .nil) | .gt, .item a (.item b .nil)
  | .ge, .item a (.item b .nil) | .and, .item a (.item b .nil) | .or, .item a (.item b .nil)
  | .index, .item a (.item b .nil) => [(.single, a), (.single, b)]
  | .idiv, .item a (.item b .nil) | .band, .item a (.item b .nil) | .bor, .item a (.item b .nil)
  | .bxor, .item a (.item b .nil) | .shl, .item a (.item b .nil) | .shr, .item a (.item b .nil) =>
      [(.single, a), (.emulated, b)]
  | .call, .item f args | .call1, .item f args => (.single, f) :: args.list
  | .callmeth, .item o (.item _ args) | .callmeth1, .item o (.item _ args) => (.single, o) :: args.list
  | .return_, es => es.list
  | .define, .item _ (.item v .nil) => [(.last, v)]
  | .mdefine, .item _ (.item (.table es) .nil) | .massign, .item _ (.item (.table es) .nil) => es.list
  | .while_, .item c _ | .if_, .item c _ => [(.single, c)]
  | .repeat_, es => es.until_
  | _, _ => []

/-- The expressions the compiler takes of a tree. -/
def TpTree.takes : TpTree → List (TpPlace × TpTree)
  | .atom _ => []
  | .table entries =>
      match entries.form? with
      | some (sp, rest) => formTakes sp rest
      | none => entries.fields

/-! ### Special names -/

theorem headOf_special (sp : SP) : headOf (.name sp.str) = if sp.headsForm then some sp else none := by
  rw [headOf, reserved_str, Option.filter_some]

theorem headOf_str {sp : SP} (heads : sp.headsForm = true) : headOf (.name sp.str) = some sp := by
  rw [headOf_special, if_pos heads]

theorem form?_form {sp : SP} (heads : sp.headsForm = true) (entries : TpEntries) :
    (TpEntries.item (.atom (.name sp.str)) entries).form? = some (sp, entries) := by
  rw [TpEntries.form?, headOf_str heads]
  rfl

theorem headOf_value {sp : SP} (isValue : sp.headsForm = false) : headOf (.name sp.str) = none := by
  rw [headOf_special, isValue]
  rfl

/-- All special names start like this one. -/
theorem headOf_name {s : GCstr} (notSpecial : s.head? ≠ some (ch '!')) : headOf (.name s) = none := by
  have special : ∀ sp : SP, sp.str.head? = some (ch '!') := by
    intro sp
    cases sp <;> decide +kernel
  have unknown : reserved s = none := by
    refine List.find?_eq_none.mpr fun sp _ same => notSpecial ?_
    rw [← beq_iff_eq.mp same]
    exact special sp
  rw [headOf, unknown]
  rfl

/-- The tree is no special name that heads a form. -/
def TpTree.HeadsNothing : TpTree → Prop
  | .atom tok => headOf tok = none
  | .table _ => True

theorem form?_of_headsNothing {t : TpTree} (nothing : t.HeadsNothing) (rest : TpEntries) :
    (TpEntries.item t rest).form? = none := by
  cases t with
  | atom tok =>
      rw [TpEntries.form?, show headOf tok = none from nothing]
      rfl
  | table entries => rfl

theorem isOpen_form {sp : SP} (heads : sp.headsForm = true) (entries : TpEntries) :
    (TpTree.form sp entries).isOpen = (sp == .call || sp == .callmeth) := by
  rw [TpTree.form, TpTree.isOpen, form?_form heads]
  cases sp <;> rfl

/-- The entries of a form are those its name takes. -/
theorem takes_form {sp : SP} (heads : sp.headsForm = true) (entries : TpEntries) :
    (TpTree.form sp entries).takes = formTakes sp entries := by
  rw [TpTree.form, TpTree.takes, form?_form heads]

theorem takes_unop (op : LuaUnop) (a : TpTree) :
    (TpTree.form op.sp (.item a .nil)).takes = [(if isEmulated op.sp then .emulated else .single, a)] := by
  cases op <;> exact takes_form rfl _

theorem takes_binop (op : LuaBinop) (a b : TpTree) :
    (TpTree.form op.sp (.item a (.item b .nil))).takes =
      [(.single, a), (if isEmulated op.sp then .emulated else .single, b)] := by
  cases op <;> exact takes_form rfl _

theorem takes_call (one : Bool) (f : TpTree) (args : TpEntries) :
    (TpTree.form (if one then .call1 else .call) (.item f args)).takes = (.single, f) :: args.list := by
  cases one <;> exact takes_form rfl _

theorem takes_method (one : Bool) (o name : TpTree) (args : TpEntries) :
    (TpTree.form (if one then .callmeth1 else .callmeth) (.item o (.item name args))).takes =
      (.single, o) :: args.list := by
  cases one <;> exact takes_form rfl _

/-! ## What Lua gives -/

section

variable [Tonumber] [LuaBody]

/-- Where Lua has an expression. -/
inductive LuaPlace
  /-- Where one value is wanted. -/
  | one
  /-- As the last operand of an operator. -/
  | operand (sp : SP)
  /-- As the condition of a `repeat`. -/
  | until_
  /-- As the last of a list. -/
  | all
  deriving DecidableEq, Repr

/-- A call or `...`, not in parentheses. -/
def LuaExpr.isMulti : LuaExpr → Bool
  | .dots => Bool.true
  | .suffixed (.call _ _) => Bool.true
  | .suffixed (.method _ _ _) => Bool.true
  | _ => Bool.false

/-- How many values Lua has of an expression. -/
def LuaPlace.wanted (results : TpTree → Nat) (place : LuaPlace) (e : LuaExpr) : Nat :=
  if place = .all ∧ e.isMulti then results (e.tree LuaNumeral.written false) else 1

def LuaExprs.parts : LuaExprs → List (LuaPlace × LuaExpr)
  | .last e => [(.all, e)]
  | .more e rest => (.one, e) :: rest.parts

/-- A name that stands for a string. -/
def LuaName.string (n : LuaName) : LuaExpr := .string ⟨n.s, n.quoted, n.isQuoted⟩

def LuaField.parts (isLast : Bool) : LuaField → List (LuaPlace × LuaExpr)
  | .item e => [(if isLast then .all else .one, e)]
  | .named n e => [(.one, n.string), (.one, e)]
  | .keyed k e => [(.one, k), (.one, e)]

def LuaFields.parts : LuaFields → List (LuaPlace × LuaExpr)
  | .nil => []
  | .last f => f.parts true
  | .more f _ .nil => f.parts true
  | .more f _ rest => f.parts false ++ rest.parts

def LuaArgs.parts : LuaArgs → List (LuaPlace × LuaExpr)
  | .none => []
  | .list es => es.parts
  | .table fields => [(.all, .table fields)]
  | .string s => [(.all, .string s)]

mutual
/-- The expressions right inside of an expression, with the places they have. Parentheses are
seen through: they count where the expression itself has its place. -/
def LuaExpr.parts : LuaExpr → List (LuaPlace × LuaExpr)
  | .table fields => fields.parts
  | .suffixed e => e.parts
  | .unop op e => [(.operand op.sp, e)]
  | .binop op l r => [(.one, l), (.operand op.sp, r)]
  | _ => []

def LuaSuffixed.parts : LuaSuffixed → List (LuaPlace × LuaExpr)
  | .name _ => []
  | .paren e => e.parts
  | .dot e n => [(.one, .suffixed e), (.one, n.string)]
  | .index e k => [(.one, .suffixed e), (.one, k)]
  | .call e args => (.one, .suffixed e) :: args.parts
  | .method e _ args => (.one, .suffixed e) :: args.parts
end

def LuaPhrase.parts : LuaPhrase → List (LuaPlace × LuaExpr)
  | expr _ e => e.parts
  | return_ es => es.parts
  | local_ _ _ es => es.parts
  | assign _ _ es => es.parts
  | condition .repeat_ e => [(.until_, e)]
  | condition _ e => [(.one, e)]

/-- Of each expression in the phrase the compiler takes as many values as Lua has. -/
def LuaPhrase.KeepsCounts (phrase : LuaPhrase) : Prop :=
  ∀ results multres, List.Forall₂
    (fun part take => (∃ one, take.2 = part.2.tree LuaNumeral.written one) ∧
      take.1.taken results multres take.2 = part.1.wanted results part.2)
    phrase.parts phrase.tree.takes

/-! ## Where the counts differ -/

mutual
/-- The expression is left open, asked for one value or not. -/
def LuaExpr.opens (one : Bool) : LuaExpr → Bool
  | .dots => true
  | .suffixed e => e.opens one
  | _ => false

def LuaSuffixed.opens (one : Bool) : LuaSuffixed → Bool
  | .paren e => e.opens true
  | .call _ _ => !one
  | .method _ _ _ => !one
  | _ => false
end

/-- The expression gives as many values in its place as Lua has. -/
def LuaPlace.Keeps : LuaPlace → LuaExpr → Prop
  | one, _ => True
  | operand sp, e => isEmulated sp = true → e.opens false = false
  | until_, e => e.opens true = false
  | all, e => e.opens false = true → e.isMulti = true

/-- A declaration of a single name has a single value. -/
def LuaPhrase.SingleValue : LuaPhrase → Prop
  | local_ _ [] es => ∃ e, es = .last e
  | _ => True

/-! ## Open expressions -/

omit [Tonumber] [LuaBody] in
theorem LuaName.notSpecial (n : LuaName) : n.s.head? ≠ some (ch '!') := by
  obtain ⟨s, isName⟩ := n
  cases s with
  | nil => cases isName
  | cons b rest =>
      intro same
      cases same
      revert isName
      have notAlpha : isAlpha (ch '!') = false := by decide +kernel
      rw [isLuaName, notAlpha]
      intro impossible
      cases impossible

omit [LuaBody] in
theorem LuaNumeral.notSpecial (t : LuaNumeral) : headOf t.written = none := by
  unfold written
  split
  · next isDot =>
      refine headOf_name ?_
      rw [isDot]
      decide
  · rfl

mutual
theorem LuaExpr.headsNothing (one : Bool) : (e : LuaExpr) → (e.tree LuaNumeral.written one).HeadsNothing
  | .nil => headOf_value rfl
  | .true => headOf_value rfl
  | .false => headOf_value rfl
  | .dots => headOf_value rfl
  | .number t => t.notSpecial
  | .string _ => rfl
  | .function _ => trivial
  | .table _ => trivial
  | .suffixed e => e.headsNothing one
  | .unop _ _ => trivial
  | .binop _ _ _ => trivial

theorem LuaSuffixed.headsNothing (one : Bool) :
    (e : LuaSuffixed) → (e.tree LuaNumeral.written one).HeadsNothing
  | .name n => headOf_name n.notSpecial
  | .paren e => e.headsNothing Bool.true
  | .dot _ _ => trivial
  | .index _ _ => trivial
  | .call _ _ => trivial
  | .method _ _ _ => trivial
end

theorem LuaField.form?_entry (f : LuaField) (rest : TpEntries) :
    (f.entry LuaNumeral.written rest).form? = none := by
  cases f with
  | item e => exact form?_of_headsNothing (e.headsNothing false) rest
  | named n e => rfl
  | keyed k e => rfl

/-- A table constructor is no form. -/
theorem LuaFields.form?_entries (fields : LuaFields) : (fields.entries LuaNumeral.written).form? = none := by
  cases fields with
  | nil => rfl
  | last f => exact f.form?_entry .nil
  | more f sep rest => exact f.form?_entry _

mutual
theorem LuaExpr.isOpen_tree (one : Bool) :
    (e : LuaExpr) → (e.tree LuaNumeral.written one).isOpen = e.opens one
  | .nil => (by decide +kernel : (Token.name SP.nil.str == .name SP.vararg.str) = Bool.false)
  | .true => (by decide +kernel : (Token.name SP.true_.str == .name SP.vararg.str) = Bool.false)
  | .false => (by decide +kernel : (Token.name SP.false_.str == .name SP.vararg.str) = Bool.false)
  | .dots => (by decide +kernel : (Token.name SP.vararg.str == .name SP.vararg.str) = Bool.true)
  | .number t => by
      change (t.written == .name SP.vararg.str) = Bool.false
      refine beq_eq_false_iff_ne.mpr fun same => ?_
      have notDot : SP.vararg.str.head? ≠ some (ch '.') := by decide +kernel
      unfold LuaNumeral.written at same
      split at same
      · next isDot =>
          rw [Token.name.inj same] at isDot
          exact notDot isDot
      · cases same
  | .string _ => rfl
  | .function _ => isOpen_form rfl _
  | .table fields => by
      change (TpTree.table (fields.entries LuaNumeral.written)).isOpen = Bool.false
      rw [TpTree.isOpen, fields.form?_entries]
  | .suffixed e => e.isOpen_tree one
  | .unop op _ => by
      refine (isOpen_form ?_ _).trans ?_ <;> cases op <;> rfl
  | .binop op _ _ => by
      refine (isOpen_form ?_ _).trans ?_ <;> cases op <;> rfl

theorem LuaSuffixed.isOpen_tree (one : Bool) :
    (e : LuaSuffixed) → (e.tree LuaNumeral.written one).isOpen = e.opens one
  | .name n => by
      change (Token.name n.s == .name SP.vararg.str) = Bool.false
      refine beq_eq_false_iff_ne.mpr fun same => n.notSpecial ?_
      rw [Token.name.inj same]
      decide +kernel
  | .paren e => e.isOpen_tree Bool.true
  | .dot _ _ => isOpen_form rfl _
  | .index _ _ => isOpen_form rfl _
  | .call _ _ => by
      refine (isOpen_form ?_ _).trans ?_ <;> cases one <;> rfl
  | .method _ _ _ => by
      refine (isOpen_form ?_ _).trans ?_ <;> cases one <;> rfl
end

theorem LuaExpr.opens_of_isMulti {e : LuaExpr} (multi : e.isMulti = Bool.true) :
    e.opens Bool.false = Bool.true := by
  cases e with
  | dots => rfl
  | suffixed e => cases e <;> first | rfl | cases multi
  | _ => cases multi

/-! ## Places -/

/-- Where the compiler takes what Lua has in this place. -/
def LuaPlace.tp : LuaPlace → TpPlace
  | one => .single
  | operand sp => if isEmulated sp then .emulated else .single
  | until_ => .until_
  | all => .last

/-- The compiler takes the expression where Lua has it. One value is asked for in the condition
of a `repeat`, and none is in lists and for last operands. -/
def Corresponds (part : LuaPlace × LuaExpr) (take : TpPlace × TpTree) : Prop :=
  take.1 = part.1.tp ∧ ∃ one, take.2 = part.2.tree LuaNumeral.written one ∧
    (part.1 ≠ .one → one = (part.1 == .until_))

/-- In a corresponding place the counts agree exactly where the place keeps them. -/
theorem taken_eq_iff {part : LuaPlace × LuaExpr} {take : TpPlace × TpTree} (same : Corresponds part take) :
    (∀ results multres, take.1.taken results multres take.2 = part.1.wanted results part.2) ↔
      part.1.Keeps part.2 := by
  obtain ⟨place, e⟩ := part
  obtain ⟨tpPlace, t⟩ := take
  obtain ⟨rfl, one, rfl, flag⟩ := same
  unfold TpPlace.taken LuaPlace.wanted
  dsimp only
  rw [e.isOpen_tree one]
  cases place with
  | one => simp [LuaPlace.tp, LuaPlace.Keeps]
  | operand sp =>
      obtain rfl : one = false := flag (by simp)
      cases emulated : isEmulated sp with
      | false => simp [LuaPlace.tp, LuaPlace.Keeps, emulated]
      | true =>
          cases isOpen : e.opens false with
          | false => simp [LuaPlace.Keeps, isOpen]
          | true =>
              simp only [LuaPlace.tp, LuaPlace.Keeps, emulated, isOpen, if_true, reduceCtorEq, false_and,
                if_false, Bool.true_eq_false, imp_false, not_true_eq_false, iff_false, not_forall]
              exact ⟨fun _ => 0, 0, by simp⟩
  | until_ =>
      obtain rfl : one = true := flag (by simp)
      cases isOpen : e.opens true <;> simp [LuaPlace.tp, LuaPlace.Keeps, isOpen]
  | all =>
      obtain rfl : one = false := flag (by simp)
      cases multi : e.isMulti with
      | true =>
          have isOpen := LuaExpr.opens_of_isMulti multi
          simp [LuaPlace.tp, LuaPlace.Keeps, isOpen, multi]
      | false =>
          cases isOpen : e.opens false with
          | false => simp [LuaPlace.Keeps, isOpen]
          | true =>
              simp only [LuaPlace.tp, LuaPlace.Keeps, isOpen, multi, if_true, Bool.false_eq_true, and_false,
                if_false, imp_false, not_true_eq_false, iff_false, not_forall]
              exact ⟨fun _ => 0, 0, by simp⟩

theorem forall₂_corresponds_iff {parts : List (LuaPlace × LuaExpr)} {takes : List (TpPlace × TpTree)}
    (same : List.Forall₂ Corresponds parts takes) :
    (∀ results multres, List.Forall₂
      (fun part take => (∃ one, take.2 = part.2.tree LuaNumeral.written one) ∧
        take.1.taken results multres take.2 = part.1.wanted results part.2) parts takes) ↔
      ∀ part ∈ parts, part.1.Keeps part.2 := by
  induction same with
  | nil => simp
  | @cons part take parts takes first rest induction =>
      obtain ⟨-, one, isTree, -⟩ := id first
      simp only [List.forall₂_cons, forall_and, List.forall_mem_cons, ← taken_eq_iff first, ← induction]
      constructor
      · rintro ⟨⟨-, head⟩, tail⟩
        exact ⟨head, tail⟩
      · rintro ⟨head, tail⟩
        exact ⟨⟨fun _ _ => ⟨one, isTree⟩, head⟩, tail⟩

theorem corresponds_one (e : LuaExpr) (one : Bool) :
    Corresponds (.one, e) (.single, e.tree LuaNumeral.written one) := ⟨rfl, one, rfl, fun h => absurd rfl h⟩

theorem corresponds_all (e : LuaExpr) :
    Corresponds (.all, e) (.last, e.tree LuaNumeral.written false) := ⟨rfl, false, rfl, fun _ => rfl⟩

theorem corresponds_operand (sp : SP) (e : LuaExpr) :
    Corresponds (.operand sp, e)
      (if isEmulated sp then .emulated else .single, e.tree LuaNumeral.written false) :=
  ⟨rfl, false, rfl, fun _ => rfl⟩

theorem LuaExprs.corresponds (es : LuaExprs) :
    List.Forall₂ Corresponds es.parts (es.entries LuaNumeral.written).list := by
  cases es with
  | last e => exact .cons (corresponds_all e) .nil
  | more e rest =>
      have shape : (LuaExprs.entries LuaNumeral.written (.more e rest)).list =
          (.single, e.tree LuaNumeral.written false) :: (rest.entries LuaNumeral.written).list := by
        cases rest <;> rfl
      rw [shape]
      exact .cons (corresponds_one e false) rest.corresponds

/-- The last field. -/
theorem LuaField.corresponds_last (f : LuaField) :
    List.Forall₂ Corresponds (f.parts true) (f.entry LuaNumeral.written .nil).fields := by
  cases f with
  | item e => exact .cons (corresponds_all e) .nil
  | named n e => exact .cons (corresponds_one n.string true) (.cons (corresponds_one e true) .nil)
  | keyed k e => exact .cons (corresponds_one k true) (.cons (corresponds_one e true) .nil)

/-- A field in front of others. -/
theorem LuaField.corresponds_more (f : LuaField) {parts : List (LuaPlace × LuaExpr)} {rest : TpEntries}
    (some : rest ≠ .nil) (same : List.Forall₂ Corresponds parts rest.fields) :
    List.Forall₂ Corresponds (f.parts false ++ parts) (f.entry LuaNumeral.written rest).fields := by
  cases f with
  | item e =>
      have shape : (TpEntries.item (e.tree LuaNumeral.written false) rest).fields =
          (.single, e.tree LuaNumeral.written false) :: rest.fields := by
        cases rest
        · exact absurd rfl some
        · rfl
        · rfl
      change List.Forall₂ Corresponds _ (TpEntries.item _ rest).fields
      rw [shape]
      exact .cons (corresponds_one e false) same
  | named n e => exact .cons (corresponds_one n.string true) (.cons (corresponds_one e true) same)
  | keyed k e => exact .cons (corresponds_one k true) (.cons (corresponds_one e true) same)

theorem LuaField.entry_ne_nil (f : LuaField) (rest : TpEntries) : f.entry LuaNumeral.written rest ≠ .nil := by
  cases f <;> exact nofun

theorem LuaFields.corresponds : (fields : LuaFields) →
    List.Forall₂ Corresponds fields.parts (fields.entries LuaNumeral.written).fields
  | .nil => .nil
  | .last f => f.corresponds_last
  | .more f _ .nil => f.corresponds_last
  | .more f _ (.last g) => f.corresponds_more (g.entry_ne_nil .nil) g.corresponds_last
  | .more f _ (.more g sep rest) => f.corresponds_more (g.entry_ne_nil _) (corresponds (.more g sep rest))

theorem LuaArgs.corresponds (args : LuaArgs) :
    List.Forall₂ Corresponds args.parts (args.entries LuaNumeral.written).list := by
  cases args with
  | none => exact .nil
  | list es => exact es.corresponds
  | table fields => exact .cons (corresponds_all (.table fields)) .nil
  | string s => exact .cons (corresponds_all (.string s)) .nil

mutual
theorem LuaExpr.corresponds (one : Bool) : (e : LuaExpr) →
    List.Forall₂ Corresponds e.parts (e.tree LuaNumeral.written one).takes
  | .nil => .nil
  | .true => .nil
  | .false => .nil
  | .dots => .nil
  | .number _ => .nil
  | .string _ => .nil
  | .function _ => by
      rw [LuaExpr.tree, takes_form rfl]
      exact .nil
  | .table fields => by
      rw [LuaExpr.tree, TpTree.takes, fields.form?_entries]
      exact fields.corresponds
  | .suffixed e => e.corresponds one
  | .unop op e => by
      rw [LuaExpr.tree, takes_unop]
      exact .cons (corresponds_operand op.sp e) .nil
  | .binop op l r => by
      rw [LuaExpr.tree, takes_binop]
      exact .cons (corresponds_one l one) (.cons (corresponds_operand op.sp r) .nil)

theorem LuaSuffixed.corresponds (one : Bool) : (e : LuaSuffixed) →
    List.Forall₂ Corresponds e.parts (e.tree LuaNumeral.written one).takes
  | .name _ => .nil
  | .paren e => e.corresponds Bool.true
  | .dot e n => by
      rw [LuaSuffixed.tree, takes_form rfl]
      exact .cons (corresponds_one (.suffixed e) one) (.cons (corresponds_one n.string one) .nil)
  | .index e k => by
      rw [LuaSuffixed.tree, takes_form rfl]
      exact .cons (corresponds_one (.suffixed e) one) (.cons (corresponds_one k Bool.true) .nil)
  | .call e args => by
      rw [LuaSuffixed.tree, takes_call]
      exact .cons (corresponds_one (.suffixed e) one) args.corresponds
  | .method e _ args => by
      rw [LuaSuffixed.tree, takes_method]
      exact .cons (corresponds_one (.suffixed e) one) args.corresponds
end

theorem LuaPhrase.corresponds (phrase : LuaPhrase) (single : phrase.SingleValue) :
    List.Forall₂ Corresponds phrase.parts phrase.tree.takes := by
  cases phrase with
  | expr one e => exact e.corresponds one
  | return_ es =>
      rw [tree, takes_form rfl]
      exact es.corresponds
  | local_ first more es =>
      cases more with
      | nil =>
          obtain ⟨e, rfl⟩ := single
          rw [tree, takes_form rfl]
          exact .cons (corresponds_all e) .nil
      | cons second more =>
          rw [tree, takes_form rfl]
          · exact es.corresponds
          · exact nofun
  | assign first more es =>
      rw [tree, takes_form rfl]
      exact es.corresponds
  | condition test e =>
      cases test with
      | while_ =>
          rw [tree, LuaTest.sp, takes_form rfl]
          exact .cons (corresponds_one e true) .nil
      | if_ =>
          rw [tree, LuaTest.sp, takes_form rfl]
          exact .cons (corresponds_one e true) .nil
      | repeat_ =>
          rw [tree, LuaTest.sp, takes_form rfl]
          exact .cons ⟨rfl, true, rfl, fun _ => rfl⟩ .nil

/-- Of a declaration of a single name that has more values, nothing is taken. -/
theorem singleValue_of_keepsCounts {phrase : LuaPhrase} (keeps : phrase.KeepsCounts) :
    phrase.SingleValue := by
  cases phrase with
  | local_ first more es =>
      cases more with
      | nil =>
          cases es with
          | last e => exact ⟨e, rfl⟩
          | more e rest =>
              have none : (LuaPhrase.local_ first [] (.more e rest)).tree.takes = [] := by
                rw [LuaPhrase.tree, takes_form rfl]
                cases rest <;> rfl
              have kept := keeps (fun _ => 0) 0
              rw [none] at kept
              cases kept
      | cons second more => trivial
  | _ => trivial

omit [Tonumber] [LuaBody] in
theorem nameEntries_wf : (names : List LuaName) → (LuaPhrase.nameEntries names).Wf
  | [] => trivial
  | _ :: names => ⟨rfl, nameEntries_wf names⟩

theorem varEntries_wf : (vars : List LuaSuffixed) → (LuaPhrase.varEntries vars).Wf
  | [] => trivial
  | e :: vars => ⟨e.tree_wf LuaNumeral.isAtom_written false, varEntries_wf vars⟩

theorem LuaPhrase.tree_wf (phrase : LuaPhrase) : phrase.tree.Wf := by
  have values (es : LuaExprs) := es.entries_wf LuaNumeral.isAtom_written
  cases phrase with
  | expr one e => exact e.tree_wf LuaNumeral.isAtom_written one
  | return_ es => exact ⟨rfl, values es⟩
  | local_ first more es =>
      cases more with
      | nil => exact ⟨rfl, rfl, values es⟩
      | cons second more => exact ⟨rfl, nameEntries_wf _, values es, trivial⟩
  | assign first more es => exact ⟨rfl, varEntries_wf _, values es, trivial⟩
  | condition test e => exact ⟨rfl, e.tree_wf LuaNumeral.isAtom_written true, trivial⟩

/-! ## Counts -/

end

end TvmJit
