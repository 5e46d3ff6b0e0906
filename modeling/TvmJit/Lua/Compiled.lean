import TvmJit.Lua.Counts
import TvmJit.Parse.Open

/-! Which expressions of Lua the TP compiler leaves open. -/

namespace TvmJit

open Foundation

theorem tok_of_ahead {ls : LexState} {tok : Token} {toks : List Token} (ahead : ls.ahead = tok :: toks) :
    ls.tok = tok ∧ ∀ tok' toks', toks = tok' :: toks' → ls.next.tok = tok' := by
  obtain ⟨isTok, rest⟩ := List.cons.inj ahead
  refine ⟨isTok, fun tok' toks' more => ?_⟩
  rw [more] at rest
  unfold LexState.next
  cases items : ls.rest with
  | nil =>
      rw [items] at rest
      cases rest
  | cons item items' =>
      rw [items] at rest
      exact (List.cons.inj rest).1

variable [Vm]

/-- A table whose first token heads no form is no call, and one that starts with the name of a
value is one if the name says so. -/
theorem expr_table {s : ParseState} {tok : Token} {toks : List Token} (ahead : s.ls.ahead = .lparen :: tok :: toks)
    (isValue : ∀ sp, headOf tok = some sp → isValueForm sp = true) (depth : Nat) (v : Slot) :
    Ensures (expr (parseStmt depth) v) s fun r _ => ∃ e, r = some e ∧
      (e.k = .vcall ↔ headOf tok = some .call ∨ headOf tok = some .callmeth) := by
  obtain ⟨isParen, isTok⟩ := tok_of_ahead ahead
  have isTok := isTok tok toks rfl
  unfold Ensures expr
  rw [wp_bind, wp_get, if_pos isParen, wp_bind]
  change wp (inEmit lexNext) s _ _
  rw [wp_inEmit, wp_lexNext]
  cases depth with
  | zero => trivial
  | succ depth =>
      change wp (stmtForm (parseStmt depth) v) _ _ _
      unfold stmtForm
      rw [wp_bind, wp_get]
      dsimp only
      rw [isTok]
      cases head : headOf tok with
      | none =>
          refine (exprTable_closes (parseStmt depth) _).mono ?_ fun _ _ _ => trivial
          rintro r _ ⟨e, rfl, closed⟩
          exact ⟨e, rfl, iff_of_false closed (by simp)⟩
      | some sp =>
          rw [wp_bind]
          change wp (inEmit lexNext) _ _ _
          rw [wp_inEmit, wp_lexNext]
          refine (parseForm_open_iff (parseStmt depth) (isValue sp head) v _).mono ?_ fun _ _ _ => trivial
          rintro r _ ⟨e, rfl, isOpen⟩
          exact ⟨e, rfl, isOpen.trans (by simp)⟩

/-- The tree as the compiler sees it. -/
theorem expr_form {s : ParseState} {sp : SP} {entries : TpEntries} {more : List Token}
    (ahead : s.ls.ahead = (TpTree.form sp entries).tokens ++ more) (heads : sp.headsForm = true)
    (isValue : isValueForm sp = true) (depth : Nat) (v : Slot) :
    Ensures (expr (parseStmt depth) v) s fun r _ => ∃ e, r = some e ∧
      (e.k = .vcall ↔ (TpTree.form sp entries).isOpen = true) := by
  refine (expr_table ahead (fun sp' isHead => ?_) depth v).mono ?_ fun _ _ _ => trivial
  · rw [headOf_str heads] at isHead
    cases isHead
    exact isValue
  · rintro r _ ⟨e, rfl, isOpen⟩
    refine ⟨e, rfl, isOpen.trans ?_⟩
    rw [isOpen_form heads, headOf_str heads]
    simp

theorem expr_atom {s : ParseState} {tok : Token} {more : List Token} (ahead : s.ls.ahead = tok :: more)
    (noForm : headOf tok = none) (isAtom : tok.isAtom = true) (depth : Nat) (v : Slot) :
    Ensures (expr (parseStmt depth) v) s fun r _ => ∃ e, r = some e ∧
      (e.k = .vcall ↔ (TpTree.atom tok).isOpen = true) := by
  obtain ⟨isTok, -⟩ := tok_of_ahead ahead
  have notParen : s.ls.tok ≠ .lparen := by
    rw [isTok]
    rintro rfl
    cases isAtom
  unfold Ensures expr
  rw [wp_bind, wp_get, if_neg notParen, wp_bind, isTok]
  change wp (inEmit (exprToken tok)) s _ _
  rw [wp_inEmit]
  refine (exprToken_open_iff noForm s.ls).mono (fun e _ isOpen => ?_) fun _ _ _ => trivial
  exact ⟨e, rfl, isOpen.trans (by rw [TpTree.isOpen, beq_iff_eq])⟩

omit [Vm] in
/-- The first token of a tree that heads no form. -/
theorem headOf_tokens {t : TpTree} (nothing : t.HeadsNothing) (more : List Token) :
    ∃ tok toks, t.tokens ++ more = tok :: toks ∧ headOf tok = none := by
  cases t with
  | atom tok => exact ⟨tok, more, rfl, nothing⟩
  | table entries => exact ⟨.lparen, _, rfl, rfl⟩

variable [Tonumber] [LuaBody]

omit [Vm] in
theorem LuaFields.headOf_tokens (fields : LuaFields) (more : List Token) :
    ∃ tok toks, (fields.entries LuaNumeral.written).tokens ++ .rparen :: more = tok :: toks ∧
      headOf tok = none := by
  have ofField (f : LuaField) (rest : TpEntries) : ∃ tok toks,
      (f.entry LuaNumeral.written rest).tokens ++ .rparen :: more = tok :: toks ∧ headOf tok = none := by
    cases f with
    | item e =>
        obtain ⟨tok, toks, shape, nothing⟩ :=
          TvmJit.headOf_tokens (e.headsNothing false) (rest.tokens ++ .rparen :: more)
        exact ⟨tok, toks, (List.append_assoc ..).trans shape, nothing⟩
    | named n e => exact ⟨_, _, rfl, rfl⟩
    | keyed k e =>
        obtain ⟨tok, toks, shape, nothing⟩ := TvmJit.headOf_tokens (k.headsNothing true)
          (.colon :: ((e.tree LuaNumeral.written true).tokens ++ rest.tokens) ++ .rparen :: more)
        exact ⟨tok, toks, (List.append_assoc ..).trans shape, nothing⟩
  cases fields with
  | nil => exact ⟨.rparen, more, rfl, rfl⟩
  | last f => exact ofField f .nil
  | more f sep rest => exact ofField f _

mutual
/-- The compiler leaves an expression of Lua open exactly if its tree is. -/
theorem LuaExpr.compiled_open_iff (one : Bool) {s : ParseState} {more : List Token} (depth : Nat) (v : Slot) :
    (e : LuaExpr) → s.ls.ahead = (e.tree LuaNumeral.written one).tokens ++ more →
      Ensures (expr (parseStmt depth) v) s fun r _ => ∃ d, r = some d ∧
        (d.k = .vcall ↔ (e.tree LuaNumeral.written one).isOpen = Bool.true)
  | .nil, ahead => expr_atom ahead (headOf_value rfl) rfl depth v
  | .true, ahead => expr_atom ahead (headOf_value rfl) rfl depth v
  | .false, ahead => expr_atom ahead (headOf_value rfl) rfl depth v
  | .dots, ahead => expr_atom ahead (headOf_value rfl) rfl depth v
  | .number t, ahead => expr_atom ahead t.notSpecial t.isAtom_written depth v
  | .string _, ahead => expr_atom ahead rfl rfl depth v
  | .function _, ahead => expr_form ahead rfl rfl depth v
  | .table fields, ahead => by
      obtain ⟨tok, toks, shape, nothing⟩ := fields.headOf_tokens more
      have start : s.ls.ahead = .lparen :: tok :: toks := by
        rw [ahead, ← shape]
        change .lparen :: (_ ++ [.rparen]) ++ more = _
        simp
      refine (expr_table start (by simp [nothing]) depth v).mono ?_ fun _ _ _ => trivial
      rintro r _ ⟨d, rfl, isOpen⟩
      refine ⟨d, rfl, isOpen.trans ?_⟩
      rw [LuaExpr.isOpen_tree]
      simp [nothing, LuaExpr.opens]
  | .suffixed e, ahead => e.compiled_open_iff one depth v ahead
  | .unop op _, ahead => by cases op <;> exact expr_form ahead rfl rfl depth v
  | .binop op _ _, ahead => by cases op <;> exact expr_form ahead rfl rfl depth v

theorem LuaSuffixed.compiled_open_iff (one : Bool) {s : ParseState} {more : List Token} (depth : Nat)
    (v : Slot) : (e : LuaSuffixed) → s.ls.ahead = (e.tree LuaNumeral.written one).tokens ++ more →
      Ensures (expr (parseStmt depth) v) s fun r _ => ∃ d, r = some d ∧
        (d.k = .vcall ↔ (e.tree LuaNumeral.written one).isOpen = Bool.true)
  | .name n, ahead => expr_atom ahead (headOf_name n.notSpecial) rfl depth v
  | .paren e, ahead => e.compiled_open_iff Bool.true depth v ahead
  | .dot _ _, ahead => expr_form ahead rfl rfl depth v
  | .index _ _, ahead => expr_form ahead rfl rfl depth v
  | .call _ _, ahead => by cases one <;> exact expr_form ahead rfl rfl depth v
  | .method _ _ _, ahead => by cases one <;> exact expr_form ahead rfl rfl depth v
end

end TvmJit
