import TvmJit.Lua.Translation

/-! `P:expr` keeps the precedences of the grammar: what it writes for an expression is read as
the tree of the expression. -/

namespace TvmJit

open LuaP

section

variable [Tonumber] [LuaBody]

/-! ## Fields -/

theorem LuaField.front_ne (f : LuaField) (rest : List LuaToken) : front (f.tokens ++ rest) ≠ .rbrace := by
  cases f with
  | item e =>
      intro isEnd
      have starts := e.starts.front rest
      rw [show front (e.tokens ++ rest) = .rbrace from isEnd] at starts
      cases starts
  | named n e => exact nofun
  | keyed k e => exact nofun

namespace LuaFields

theorem translated_nil : nil.Translated := by
  refine ⟨[], 1, entriesOf_nil, fun steps p rest enough stops kinds => ?_⟩
  obtain ⟨steps, rfl⟩ : ∃ n, steps = n + 1 := ⟨steps - 1, by omega⟩
  have isEnd : p.token = .rbrace := by rw [token_eq, show p.kinds = rest from kinds, stops]
  refine ⟨p, ?_, kinds, (List.append_nil _).symm⟩
  rw [LuaP.fields, if_pos isEnd]

/-- The loop of `P:constructor` takes a field. -/
theorem fields_field {f : LuaField} {steps : Nat} {p q : LuaP} {rest : List LuaToken}
    (ran : field steps p = .ok q) (kinds : p.kinds = f.tokens ++ rest) :
    LuaP.fields (steps + 1) p =
      if q.token = .comma ∨ q.token = .semi then LuaP.fields steps (q.write " ").next else .ok q := by
  have notEnd : p.token ≠ .rbrace := by
    rw [token_eq, kinds]
    exact f.front_ne rest
  rw [LuaP.fields, if_neg notEnd, ran]
  rfl

theorem translated_last {f : LuaField} (translated : f.Translated) : (last f).Translated := by
  obtain ⟨text, toks, depth, isText, whole, run⟩ := translated
  refine ⟨text, depth + 1, entriesOf_last isText ((whole .nil).trans (List.append_nil _)),
    fun steps p rest enough stops kinds => ?_⟩
  obtain ⟨steps, rfl⟩ : ∃ n, steps = n + 1 := ⟨steps - 1, by omega⟩
  obtain ⟨q, ran, left, out⟩ := run steps p rest (by omega) (.inr (.inr stops)) kinds
  have isEnd : q.token = .rbrace := by rw [token_eq, show q.kinds = rest from left, stops]
  refine ⟨q, ?_, left, out⟩
  rw [fields_field ran kinds, if_neg (by simp [isEnd])]

theorem translated_more {f : LuaField} {sep : LuaSep} {rest : LuaFields} (translated : f.Translated)
    (translatedRest : rest.Translated) : (more f sep rest).Translated := by
  obtain ⟨text, toks, depth, isText, whole, run⟩ := translated
  obtain ⟨text', depth', isText', run'⟩ := translatedRest
  have blank := blank_bytes
  refine ⟨_, max depth depth' + 1, entriesOf_more isText isText' (whole _),
    fun steps p left enough stops kinds => ?_⟩
  obtain ⟨steps, rfl⟩ : ∃ n, steps = n + 1 := ⟨steps - 1, by omega⟩
  rw [tokens, List.append_assoc] at kinds
  have isSep : sep.token = .comma ∨ sep.token = .semi ∨ sep.token = .rbrace := by
    cases sep <;> simp [LuaSep.token]
  have goesOn : sep.token = .comma ∨ sep.token = .semi := by
    cases sep <;> simp [LuaSep.token]
  obtain ⟨q, ran, behind, out⟩ := run steps p (sep.token :: (rest.tokens ++ left)) (by omega) isSep kinds
  obtain ⟨q', ran', behind', out'⟩ := run' steps (q.write " ").next left (by omega) stops
    (next_kinds behind)
  refine ⟨q', ?_, behind', ?_⟩
  · rw [fields_field ran kinds, if_pos (by rw [token_of behind]; exact goesOn), ran']
  · rw [out']
    change q.out ++ .ofString " " ++ text' = _
    rw [out, blank]
    simp

end LuaFields

/-! ## Operators -/

namespace LuaExpr

variable {one : Bool} {e l r : LuaExpr}

theorem loops_suffixed {e : LuaSuffixed} (loops : e.Loops one) : (suffixed e).Loops one := by
  obtain ⟨text, cost, depth, isText, run⟩ := loops
  refine loops_of_operand (depth + cost + 3) isText fun steps p rest enough closed kinds => ?_
  obtain ⟨steps, rfl⟩ : ∃ n, steps = n + 1 + cost + 2 := ⟨steps - cost - 3, by omega⟩
  obtain ⟨q, left, ran⟩ := run (steps + 1) p rest (by omega) kinds
  refine ⟨{ q with out := p.out ++ text }, ?_, left, rfl⟩
  have noSuffix : q.token.isSuffix = Bool.false := by
    rw [token_eq, left]
    exact closed
  obtain ⟨tok, more, shape, kind⟩ := e.first
  have isTok : p.token = tok := token_of (kinds.trans (congrArg (· ++ rest) shape))
  have isSuffixed : LuaP.operand (steps + 1 + cost + 2) one p = suffixedexp (steps + 1 + cost) one p := by
    rcases kind with rfl | ⟨s, rfl⟩
    · rw [operand_simple (by rw [isTok]; rfl), simpleexpr, isTok]
      rfl
    · rw [operand_simple (by rw [isTok]; rfl), simpleexpr, isTok]
      rfl
  exact isSuffixed.trans (ran.trans (suffixLoop_stops noSuffix))

theorem loops_unop {op : LuaUnop} (loops : e.Loops Bool.false) (respects : (unop op e).Respects) :
    (unop op e).Loops one := by
  obtain ⟨may, inside⟩ := respects
  obtain ⟨text, depth, isText, run⟩ := loops.translates
  obtain ⟨start, isUnop, starts⟩ := op.unop_token
  refine loops_of_operand (depth + 1) (textOf_written starts (entriesOf_value isText))
    fun steps p rest enough closed kinds => ?_
  obtain ⟨steps, rfl⟩ : ∃ n, steps = n + 1 := ⟨steps - 1, by omega⟩
  obtain ⟨q, ran, left, out⟩ := run 12 (e.admissible_of_above inside (above_of_mayStandUnary may)) steps
    (p.next.write start) rest (by omega) closed (next_kinds kinds)
  refine ⟨q.write ")", ?_, left, ?_⟩
  · have isTok : p.token = op.token := token_of kinds
    have ran : LuaP.expr steps Bool.false 12 (p.next.write start) = .ok q := ran
    dsimp only
    rw [LuaP.operand, isTok, isUnop]
    change (LuaP.expr steps Bool.false 12 (p.next.write start) >>= _) = _
    rw [ran]
    rfl
  · change q.out ++ .ofString ")" = _
    rw [out]
    change p.out ++ .ofString start ++ text ++ .ofString ")" = _
    simp only [List.append_assoc]

theorem loops_binop {op : LuaBinop} (loopsLeft : l.Loops one) (loopsRight : r.Loops Bool.false)
    (respects : (binop op l r).Respects) : (binop op l r).Loops one := by
  obtain ⟨mayLeft, mayRight, insideLeft, insideRight⟩ := respects
  obtain ⟨text, cost, depth, isText, run⟩ := loopsLeft
  obtain ⟨text', depth', isText', run'⟩ := loopsRight.translates
  obtain ⟨start, isBinop, starts⟩ := op.binop_token
  refine ⟨_, cost + 1, max depth depth',
    textOf_written starts (entriesOf_written isText (entriesOf_value isText')), ?_⟩
  intro steps limit p rest enough admissible closed kinds
  rw [tokens, List.append_assoc] at kinds
  -- the loop of the left operand goes on with the operator
  obtain ⟨q, left, ran⟩ := run (steps + 1) limit p (op.token :: (r.tokens ++ rest)) (by omega)
    admissible.2 (l.closedBefore_of_tight insideLeft (tight_of_mayStandLeft mayLeft)) kinds
  obtain ⟨q', ran', left', out'⟩ := run' op.right
    (r.admissible_of_above insideRight (above_of_mayStandRight mayRight)) steps
    { q.next with out := .ofString start ++ text ++ .ofString " " } rest (by omega) closed
    (next_kinds left)
  refine ⟨q'.write ")", left', ?_⟩
  have isTok : q.token = op.token := token_of left
  have above : op.left > limit := admissible.1
  have ran' : LuaP.expr steps Bool.false op.right { q.next with out := .ofString start ++ text ++ .ofString " " } =
      .ok q' := ran'
  rw [show steps + (cost + 1) = steps + 1 + cost by omega, ran, exprLoop, isTok, isBinop,
    op.priority_token]
  dsimp only
  rw [if_pos above, ran']
  change exprLoop steps limit p.out (q'.out ++ .ofString ")") (q'.write ")") = _
  rw [out']
  simp only [List.append_assoc]

end LuaExpr

/-! ## All expressions -/

mutual
theorem LuaExpr.loops (one : Bool) : (e : LuaExpr) → e.Respects → e.Loops one
  | .nil, _ => LuaExpr.loops_of_operand 2 (textOf_special .nil) (operand_single rfl rfl)
  | .true, _ => LuaExpr.loops_of_operand 2 (textOf_special .true_) (operand_single rfl rfl)
  | .false, _ => LuaExpr.loops_of_operand 2 (textOf_special .false_) (operand_single rfl rfl)
  | .dots, _ => LuaExpr.loops_of_operand 2 (textOf_special .vararg) (operand_single rfl rfl)
  | .number t, _ => LuaExpr.loops_of_operand 2 t.textOf (operand_single rfl rfl)
  | .string s, _ => LuaExpr.loops_of_operand 2 s.textOf (operand_single rfl (by rw [single, quote_ok s.isQuoted]; rfl))
  | .function f, _ => LuaExpr.loops_of_operand 2 f.isText (operand_function f.translates)
  | .table fields, respects => by
      obtain ⟨text, depth, isText, run⟩ := fields.translated respects
      exact LuaExpr.loops_of_operand (depth + 3) (textOf_table isText) (operand_table run)
  | .suffixed e, respects => LuaExpr.loops_suffixed (e.loops one respects)
  | .unop _ e, respects => LuaExpr.loops_unop (e.loops Bool.false respects.2) respects
  | .binop _ l r, respects =>
      LuaExpr.loops_binop (l.loops one respects.2.2.1) (r.loops Bool.false respects.2.2.2) respects

theorem LuaSuffixed.loops (one : Bool) : (e : LuaSuffixed) → e.Respects → e.Loops one
  | .name n, _ => LuaSuffixed.loops_name n
  | .paren e, respects => LuaSuffixed.loops_paren (e.loops Bool.true respects) respects
  | .dot e n, respects => LuaSuffixed.loops_dot (e.loops one respects) n
  | .index e k, respects =>
      LuaSuffixed.loops_index (e.loops one respects.1) (k.loops Bool.true respects.2) respects.2
  | .call e args, respects => LuaSuffixed.loops_call (e.loops one respects.1) (args.translated respects.2)
  | .method e n args, respects => LuaSuffixed.loops_method (e.loops one respects.1) n (args.translated respects.2)

theorem LuaArgs.translated : (args : LuaArgs) → args.Respects → args.Translated
  | .none, _ => LuaArgs.translated_none
  | .list es, respects => LuaArgs.translated_list (es.translated respects)
  | .table fields, respects => LuaArgs.translated_table (fields.translated respects)
  | .string s, _ => LuaArgs.translated_string s

theorem LuaExprs.translated : (es : LuaExprs) → es.Respects → es.Translated
  | .last e, respects => LuaExprs.translated_last (e.loops Bool.false respects) respects
  | .more e rest, respects =>
      LuaExprs.translated_more (e.loops Bool.false respects.1) respects.1 (rest.translated respects.2)

theorem LuaFields.translated : (fields : LuaFields) → fields.Respects → fields.Translated
  | .nil, _ => LuaFields.translated_nil
  | .last f, respects => LuaFields.translated_last (f.translated respects)
  | .more f _ rest, respects => LuaFields.translated_more (f.translated respects.1) (rest.translated respects.2)

theorem LuaField.translated : (f : LuaField) → f.Respects → f.Translated
  | .item e, respects => LuaField.translated_item (e.loops Bool.false respects) respects
  | .named n e, respects => LuaField.translated_named n (e.loops Bool.true respects) respects
  | .keyed k e, respects =>
      LuaField.translated_keyed (k.loops Bool.true respects.1) respects.1 (e.loops Bool.true respects.2) respects.2
end

/-! ## Trees -/

section

variable {leaf leaf' : LuaNumeral → Token}

mutual
theorem LuaExpr.tree_wf (isAtom : ∀ t, (leaf t).isAtom = true) :
    (e : LuaExpr) → (one : Bool) → (e.tree leaf one).Wf
  | .nil, _ => rfl
  | .true, _ => rfl
  | .false, _ => rfl
  | .dots, _ => rfl
  | .number t, _ => isAtom t
  | .string _, _ => rfl
  | .function f, _ => ⟨rfl, f.wf⟩
  | .table fields, _ => fields.entries_wf isAtom
  | .suffixed e, one => e.tree_wf isAtom one
  | .unop _ e, _ => ⟨rfl, e.tree_wf isAtom Bool.false, trivial⟩
  | .binop _ l r, one => ⟨rfl, l.tree_wf isAtom one, r.tree_wf isAtom Bool.false, trivial⟩

theorem LuaSuffixed.tree_wf (isAtom : ∀ t, (leaf t).isAtom = true) :
    (e : LuaSuffixed) → (one : Bool) → (e.tree leaf one).Wf
  | .name _, _ => rfl
  | .paren e, _ => e.tree_wf isAtom Bool.true
  | .dot e _, one => ⟨rfl, e.tree_wf isAtom one, rfl, trivial⟩
  | .index e k, one => ⟨rfl, e.tree_wf isAtom one, k.tree_wf isAtom Bool.true, trivial⟩
  | .call e args, one => ⟨rfl, e.tree_wf isAtom one, args.entries_wf isAtom⟩
  | .method e _ args, one => ⟨rfl, e.tree_wf isAtom one, rfl, args.entries_wf isAtom⟩

theorem LuaArgs.entries_wf (isAtom : ∀ t, (leaf t).isAtom = true) :
    (args : LuaArgs) → (args.entries leaf).Wf
  | .none => trivial
  | .list es => es.entries_wf isAtom
  | .table fields => ⟨fields.entries_wf isAtom, trivial⟩
  | .string _ => ⟨rfl, trivial⟩

theorem LuaExprs.entries_wf (isAtom : ∀ t, (leaf t).isAtom = true) :
    (es : LuaExprs) → (es.entries leaf).Wf
  | .last e => ⟨e.tree_wf isAtom Bool.false, trivial⟩
  | .more e rest => ⟨e.tree_wf isAtom Bool.false, rest.entries_wf isAtom⟩

theorem LuaFields.entries_wf (isAtom : ∀ t, (leaf t).isAtom = true) :
    (fields : LuaFields) → (fields.entries leaf).Wf
  | .nil => trivial
  | .last f => f.entry_wf isAtom trivial
  | .more f _ rest => f.entry_wf isAtom (rest.entries_wf isAtom)

theorem LuaField.entry_wf (isAtom : ∀ t, (leaf t).isAtom = true) :
    (f : LuaField) → {rest : TpEntries} → rest.Wf → (f.entry leaf rest).Wf
  | .item e, _, wf => ⟨e.tree_wf isAtom Bool.false, wf⟩
  | .named _ e, _, wf => ⟨rfl, e.tree_wf isAtom Bool.true, wf⟩
  | .keyed k e, _, wf => ⟨k.tree_wf isAtom Bool.true, e.tree_wf isAtom Bool.true, wf⟩
end

mutual
/-- Trees with other leaves are the same where all leaves are. -/
theorem LuaExpr.tree_eq_iff : (e : LuaExpr) → (one : Bool) →
    (e.tree leaf one = e.tree leaf' one ↔ ∀ t ∈ e.numerals, leaf t = leaf' t)
  | .nil, _ => by simp [LuaExpr.tree, LuaExpr.numerals]
  | .true, _ => by simp [LuaExpr.tree, LuaExpr.numerals]
  | .false, _ => by simp [LuaExpr.tree, LuaExpr.numerals]
  | .dots, _ => by simp [LuaExpr.tree, LuaExpr.numerals]
  | .number t, _ => by simp [LuaExpr.tree, LuaExpr.numerals]
  | .string _, _ => by simp [LuaExpr.tree, LuaExpr.numerals]
  | .function f, _ => by simp [LuaExpr.tree, LuaExpr.numerals]
  | .table fields, _ => by simp [LuaExpr.tree, LuaExpr.numerals, fields.entries_eq_iff]
  | .suffixed e, one => by simp [LuaExpr.tree, LuaExpr.numerals, e.tree_eq_iff one]
  | .unop _ e, _ => by simp [LuaExpr.tree, LuaExpr.numerals, TpTree.form, e.tree_eq_iff Bool.false]
  | .binop _ l r, one => by
      simp [LuaExpr.tree, LuaExpr.numerals, TpTree.form, l.tree_eq_iff one,
        r.tree_eq_iff Bool.false, or_imp, forall_and]

theorem LuaSuffixed.tree_eq_iff : (e : LuaSuffixed) → (one : Bool) →
    (e.tree leaf one = e.tree leaf' one ↔ ∀ t ∈ e.numerals, leaf t = leaf' t)
  | .name _, _ => by simp [LuaSuffixed.tree, LuaSuffixed.numerals]
  | .paren e, _ => by simp [LuaSuffixed.tree, LuaSuffixed.numerals, e.tree_eq_iff Bool.true]
  | .dot e _, one => by simp [LuaSuffixed.tree, LuaSuffixed.numerals, TpTree.form, e.tree_eq_iff one]
  | .index e k, one => by
      simp [LuaSuffixed.tree, LuaSuffixed.numerals, TpTree.form, e.tree_eq_iff one,
        k.tree_eq_iff Bool.true, or_imp, forall_and]
  | .call e args, one => by
      simp [LuaSuffixed.tree, LuaSuffixed.numerals, TpTree.form, e.tree_eq_iff one,
        args.entries_eq_iff, or_imp, forall_and]
  | .method e _ args, one => by
      simp [LuaSuffixed.tree, LuaSuffixed.numerals, TpTree.form, e.tree_eq_iff one,
        args.entries_eq_iff, or_imp, forall_and]

theorem LuaArgs.entries_eq_iff : (args : LuaArgs) →
    (args.entries leaf = args.entries leaf' ↔ ∀ t ∈ args.numerals, leaf t = leaf' t)
  | .none => by simp [LuaArgs.entries, LuaArgs.numerals]
  | .list es => by simp [LuaArgs.entries, LuaArgs.numerals, es.entries_eq_iff]
  | .table fields => by simp [LuaArgs.entries, LuaArgs.numerals, fields.entries_eq_iff]
  | .string _ => by simp [LuaArgs.entries, LuaArgs.numerals]

theorem LuaExprs.entries_eq_iff : (es : LuaExprs) →
    (es.entries leaf = es.entries leaf' ↔ ∀ t ∈ es.numerals, leaf t = leaf' t)
  | .last e => by simp [LuaExprs.entries, LuaExprs.numerals, e.tree_eq_iff Bool.false]
  | .more e rest => by
      simp [LuaExprs.entries, LuaExprs.numerals, e.tree_eq_iff Bool.false, rest.entries_eq_iff,
        or_imp, forall_and]

theorem LuaFields.entries_eq_iff : (fields : LuaFields) →
    (fields.entries leaf = fields.entries leaf' ↔ ∀ t ∈ fields.numerals, leaf t = leaf' t)
  | .nil => by simp [LuaFields.entries, LuaFields.numerals]
  | .last f => by simp [LuaFields.entries, LuaFields.numerals, f.entry_eq_iff]
  | .more f _ rest => by
      simp [LuaFields.entries, LuaFields.numerals, f.entry_eq_iff, rest.entries_eq_iff, or_imp,
        forall_and]

theorem LuaField.entry_eq_iff : (f : LuaField) → {rest rest' : TpEntries} →
    (f.entry leaf rest = f.entry leaf' rest' ↔ (∀ t ∈ f.numerals, leaf t = leaf' t) ∧ rest = rest')
  | .item e, _, _ => by simp [LuaField.entry, LuaField.numerals, e.tree_eq_iff Bool.false]
  | .named _ e, _, _ => by simp [LuaField.entry, LuaField.numerals, e.tree_eq_iff Bool.true]
  | .keyed k e, _, _ => by
      simp [LuaField.entry, LuaField.numerals, k.tree_eq_iff Bool.true, e.tree_eq_iff Bool.true,
        or_imp, forall_and, and_assoc]
end

end

/-! ## Precedence -/

/-- `P:expr` takes the expression as a whole and writes the text, whatever stands before it and
whatever may stand behind it. -/
def LuaExpr.Writes (one : Bool) (e : LuaExpr) (text : GCstr) : Prop :=
  ∃ enough, ∀ steps ≥ enough, ∀ (p : LuaP) rest,
    (front rest).BindsAtMost 0 → e.ClosedBefore (front rest) → p.toks.map Prod.fst = e.tokens ++ rest →
      ∃ q, LuaP.expr steps one 0 p = .ok q ∧ q.toks.map Prod.fst = rest ∧ q.out = p.out ++ text

/-- The text `P:expr` writes has the operators where the grammar has them, and is the tree of
the expression if no numeral starts with a dot. -/
theorem precedence_kept_iff (e : LuaExpr) (one : Bool) (respects : e.Respects) :
    ∃ text, e.Writes one text ∧ ReadsAs text (e.tree LuaNumeral.written one) ∧
      (ReadsAs text (e.tree (.number ·.value) one) ↔
        ∀ t ∈ e.numerals, t.text.head? ≠ some (ch '.')) := by
  obtain ⟨text, enough, isText, run⟩ := (e.loops one respects).translates
  have reads : ReadsAs text (e.tree LuaNumeral.written one) :=
    isText.readsAs (e.tree_wf LuaNumeral.isAtom_written one)
  refine ⟨text, ⟨enough, fun steps many p rest noOperator closed kinds => ?_⟩, reads, ?_⟩
  · exact run 0 (e.admissible_of_above respects e.above_zero) steps p rest many ⟨noOperator, closed⟩ kinds
  · have same : ReadsAs text (e.tree (.number ·.value) one) ↔
        e.tree LuaNumeral.written one = e.tree (.number ·.value) one :=
      ⟨reads.unique, fun same => same ▸ reads⟩
    rw [same, e.tree_eq_iff one]
    simp only [LuaNumeral.written_eq_iff]

end

/-- `tonumber` of a few numerals. -/
@[reducible] def fewNumerals : Tonumber :=
  ⟨fun text =>
    if text = .ofString "2" then some 0x4000000000000000
    else if text = .ofString ".5" then some 0x3FE0000000000000
    else none⟩

/-- No function has a body. -/
@[reducible] def noBody : LuaBody := ⟨fun _ p => p.errorExpected .lparen⟩

/-- `-a ^ 2` negates the power. -/
theorem precedence_kept_power : let _ := fewNumerals; let _ := noBody
    ∃ (a : LuaName) (two : LuaNumeral) (text : GCstr), a.s = .ofString "a" ∧ two.text = .ofString "2" ∧
      (LuaExpr.unop .neg (.binop .pow (.suffixed (.name a)) (.number two))).Writes false text ∧
      ReadsAs text (.form .neg (.item (.form .pow (.item (.atom (.name (.ofString "a")))
        (.item (.atom (.number 0x4000000000000000)) .nil))) .nil)) := by
  intro _ _
  let a : LuaName := ⟨.ofString "a", by decide +kernel, .ofString "\"a\"", by decide +kernel⟩
  let two : LuaNumeral := ⟨.ofString "2", 0x4000000000000000, by decide +kernel, by decide +kernel⟩
  obtain ⟨text, writes, -, reads⟩ := precedence_kept_iff
    (.unop .neg (.binop .pow (.suffixed (.name a)) (.number two))) false
    ⟨(by decide : LuaUnop.level < LuaBinop.pow.level), trivial, trivial, trivial, trivial⟩
  have noDot : two.text.head? ≠ some (ch '.') := by decide +kernel
  refine ⟨a, two, text, rfl, rfl, writes, reads.mpr fun t member => ?_⟩
  obtain rfl : t = two := by simpa [LuaExpr.numerals, LuaSuffixed.numerals] using member
  exact noDot

/-- The numeral is written as it stands, and is a name in TP. -/
theorem dotted_numeral_lost : ¬ ∀ [Tonumber] [LuaBody] (e : LuaExpr) (one : Bool), e.Respects →
    ∃ text, e.Writes one text ∧ ReadsAs text (e.tree (.number ·.value) one) := by
  intro claim
  let _ := fewNumerals
  let _ := noBody
  let half : LuaNumeral := ⟨.ofString ".5", 0x3FE0000000000000, by decide +kernel, by decide +kernel⟩
  obtain ⟨text, ⟨enough, writes⟩, reads⟩ := claim (.number half) false trivial
  obtain ⟨q, ran, -, out⟩ := writes (enough + 3) (by omega) ⟨[(.number half.text, 1)], 1, []⟩ []
    (by intro left right priority; cases priority) trivial rfl
  have run : LuaP.expr (enough + 3) false 0 ⟨[(.number half.text, 1)], 1, []⟩ =
      .ok ⟨[], 1, half.text⟩ := by
    rw [LuaP.expr, operand_simple rfl, simpleexpr]
    change exprLoop (enough + 2) 0 [] half.text ⟨[], 1, half.text⟩ = _
    exact exprLoop_stops (by intro left right priority; cases priority)
  have isText : q.out = half.text := by
    rw [ran] at run
    rw [Except.ok.inj run]
  have asName : ReadsAs half.text (.atom (.name half.text)) :=
    TextOf.readsAs rfl (textOf_name (by decide +kernel))
  have same : text = half.text := by
    rw [← isText, out]
    rfl
  cases reads.unique (same ▸ asName)

end TvmJit
