import TvmJit.Parse.Statement

/-! Which expressions the parser leaves open, as `VCALL`. -/

namespace TvmJit

open Foundation

/-! ## Closed descriptors -/

/-- The descriptor is a single value, or none. -/
def ExpDesc.Closed (e : ExpDesc) : Prop := e.k ≠ .vcall

/-- The answer of a form is a closed descriptor. -/
def ClosesForm (r : Option ExpDesc) : Prop := ∃ e, r = some e ∧ e.Closed

theorem Answers.emit {m : EmitM α} {result : α → Prop} (answers : Answers result m) :
    Answers result (inEmit m) := by
  intro s
  unfold Ensures
  rw [wp_inEmit]
  exact answers s.ls

theorem exprDischarge_closed (e : ExpDesc) : Answers ExpDesc.Closed (exprDischarge e) := by
  have reloc (ins : BCIns) : Answers ExpDesc.Closed (exprDischarge.reloc e ins) :=
    .after fun _ => .pure nofun
  unfold exprDischarge
  cases kind : e.k with
  | vupval => exact reloc _
  | vglobal => exact .after fun _ => reloc _
  | vindexed =>
      refine .ite (fun _ => ?_) fun _ => .ite (fun _ => ?_) fun _ => ?_
      · exact .after fun _ => .after fun _ => reloc _
      · exact .after fun _ => .after fun _ => reloc _
      · exact .after fun _ => .after fun _ => .after fun _ => reloc _
  | vcall => exact .pure nofun
  | vlocal => exact .pure nofun
  | _ => exact .pure (by simp [ExpDesc.Closed, kind])

theorem exprToreg_closed (e : ExpDesc) (reg : BCReg) : Answers ExpDesc.Closed (exprToreg e reg) := by
  unfold exprToreg
  refine .after fun _ => .ite (fun _ => .after fun _ => ?_) fun _ => ?_
  · exact .after fun _ => .ite (fun _ => .after fun _ => .pure nofun) fun _ => .pure nofun
  · exact .after fun _ => .ite (fun _ => .after fun _ => .pure nofun) fun _ => .pure nofun

theorem exprTonextreg_closed (e : ExpDesc) : Answers ExpDesc.Closed (exprTonextreg e) :=
  .after fun _ => .after fun _ => .after fun _ => .after fun _ => exprToreg_closed _ _

theorem exprToanyreg_closed (e : ExpDesc) : Answers ExpDesc.Closed (exprToanyreg e) := by
  refine (exprDischarge_closed e).bind fun e closed => .ite (fun _ => .pure closed) fun _ => ?_
  exact .after fun _ => .ite (fun _ => exprToreg_closed _ _) fun _ => exprTonextreg_closed _

theorem exprToval_closed (e : ExpDesc) : Answers ExpDesc.Closed (exprToval e) :=
  .ite (fun _ => exprToanyreg_closed e) fun _ => exprDischarge_closed e

theorem genSetoneret_closed (e : ExpDesc) : Answers ExpDesc.Closed (genSetoneret e) := by
  refine .ite (fun _ => .after fun _ => .ite (fun _ => .after fun _ => .pure nofun) fun _ => .pure nofun)
    fun notCall => .pure notCall

/-! ## Operators -/

theorem bcemitUnop_closed (op : BCOp) (e : ExpDesc) : Answers ExpDesc.Closed (bcemitUnop op e) := by
  have finish (e : ExpDesc) : Answers ExpDesc.Closed (bcemitNot.finish e) :=
    .after fun _ => .after fun _ => .pure nofun
  refine .ite (fun _ => ?_) fun _ => ?_
  · refine .after fun _ => .after fun _ => .bind (exprDischarge_closed _) fun e closed => ?_
    cases kind : e.k with
    | vjmp => exact .after fun _ => .pure closed
    | vrelocable => exact .after fun _ => .after fun _ => .after fun _ => finish _
    | vknil => exact .pure nofun
    | vkfalse => exact .pure nofun
    | vktrue => exact .pure nofun
    | vkstr => exact .pure nofun
    | vknum => exact .pure nofun
    | vkcdata => exact .pure nofun
    | _ => exact finish _
  · refine .ite (fun const => .pure ?_) fun _ => .ite (fun const => .pure ?_) fun _ => ?_
    · simp [ExpDesc.Closed, const.2.2]
    · have isNum : e.k = .vknum := by simpa [ExpDesc.isnumk] using const.2.2.1
      simp [ExpDesc.Closed, isNum]
    · exact .after fun _ => .after fun _ => .after fun _ => .pure nofun

theorem foldarith_closed [Vm] {opr : ArithOp} {e1 e2 e : ExpDesc} (folds : foldarith opr e1 e2 = some e) :
    e.Closed := by
  unfold foldarith at folds
  split at folds
  · cases folds
  · next consts =>
      dsimp only at folds
      split at folds
      · cases folds
      · have isNum : e1.k = .vknum := by
          simp only [ExpDesc.isnumkNojump, ExpDesc.isnumk, Bool.or_eq_true, not_or, Bool.not_eq_true',
            Bool.not_eq_false, Bool.and_eq_true, beq_iff_eq] at consts
          exact consts.1.1
        cases folds
        simp [ExpDesc.Closed, isNum]

theorem bcemitComp_closed (opr : BinOpr) (e1 e2 : ExpDesc) :
    Answers ExpDesc.Closed (bcemitComp opr e1 e2) := by
  have jump (ins : BCIns) (e1 e2 eret : ExpDesc) :
      Answers ExpDesc.Closed (bcemitCompJmp ins e1 e2 eret) :=
    .after fun _ => .after fun _ => .after fun _ => .after fun _ => .pure nofun
  refine .after fun _ => .ite (fun _ => .ite (fun _ => ?_) fun _ => ?_) fun _ =>
    .ite (fun _ => .after fun _ => ?_) fun _ => ?_
  · exact .after fun _ => jump _ _ _ _
  · exact .after fun _ => jump _ _ _ _
  · exact .after fun _ => jump _ _ _ _
  · exact .after fun _ => jump _ _ _ _

theorem bcemitConcat_closed (e1 e2 : ExpDesc) : Answers ExpDesc.Closed (bcemitConcat e1 e2) := by
  refine .after fun _ => .after fun _ => .ite (fun _ => ?_) fun _ => ?_
  · exact .after fun _ => .after fun _ => .pure nofun
  · exact .after fun _ => .after fun _ => .after fun _ => .after fun _ => .pure nofun

theorem bcemitBinop_closed [Vm] (op : BinOpr) (e1 e2 : ExpDesc) :
    Answers ExpDesc.Closed (bcemitBinop op e1 e2) := by
  unfold bcemitBinop
  split
  · next opr isArith =>
      unfold bcemitArith
      split
      · next e folds => exact .pure (foldarith_closed folds)
      · exact .after fun _ => .after fun _ => .after fun _ => .after fun _ => .pure nofun
  · cases op with
    | and => exact (exprDischarge_closed e2).bind fun e closed => .after fun _ => .pure closed
    | or => exact (exprDischarge_closed e2).bind fun e closed => .after fun _ => .pure closed
    | concat => exact bcemitConcat_closed e1 e2
    | _ => exact bcemitComp_closed _ e1 e2

/-! ## Forms -/

section

variable (stmt : StmtParser)

/-- Forms whose last step answers the descriptor. -/
theorem closes_some {e : ExpDesc} (closed : e.Closed) : ClosesForm (some e) := ⟨e, rfl, closed⟩

theorem parseUnop_closes (sp : SP) (v : Slot) : Answers ClosesForm (parseUnop stmt sp v) :=
  .after fun _ => (Answers.emit (bcemitUnop_closed _ _)).bind fun _ closed =>
    .after fun _ => .pure (closes_some closed)

theorem parseBinop_closes [Vm] (sp : SP) (v : Slot) : Answers ClosesForm (parseBinop stmt sp v) := by
  unfold parseBinop
  split
  · exact .throw _
  · exact .after fun _ => .after fun _ => .after fun _ =>
      (Answers.emit (bcemitBinop_closed _ _ _)).bind fun _ closed => .after fun _ => .pure (closes_some closed)

theorem exprIndex_closed (t e : ExpDesc) : Answers ExpDesc.Closed (exprIndex t e) := by
  have rest (idx : Nat) : Answers ExpDesc.Closed (do
      if e.isstrk ∧ idx ≤ BCMAX_C then pure (exprIndex.indexed t (0xffffffff - idx))
      else pure (exprIndex.indexed t (← exprToanyreg e).info) : EmitM ExpDesc) :=
    .ite (fun _ => .pure nofun) fun _ => .after fun _ => .pure nofun
  refine .ite (fun _ => .after fun _ => .pure nofun) fun _ => .ite (fun _ => ?_) fun _ => ?_
  · exact .after fun idx => rest idx
  · exact .after fun idx => rest idx

theorem parseIndex_closes (v : Slot) : Answers ClosesForm (parseIndex stmt v) :=
  .after fun _ => .after fun _ => .after fun _ => .after fun _ =>
    (Answers.emit (exprIndex_closed _ _)).bind fun _ closed => .after fun _ => .pure (closes_some closed)

/-- A form cut down to one result. -/
theorem oneResult_closes {form : ParseM (Option ExpDesc)} (isSome : Answers (fun r => ∃ e, r = some e) form) :
    Answers ClosesForm (oneResult form) := by
  refine isSome.bind fun r isSome => ?_
  obtain ⟨e, rfl⟩ := isSome
  exact (Answers.emit (genSetoneret_closed e)).bind fun _ closed => .pure (closes_some closed)

/-- A call is left open. -/
theorem bcemitCall_open (e args : ExpDesc) : Answers (fun e => e.k = .vcall) (bcemitCall e args) := by
  have rest (line : BCLine) (ins : BCIns) : Answers (fun e => e.k = .vcall) (do
      let pc ← bcemitINS ins
      setLine pc line
      lowerFreereg (e.info + 1)
      pure { ExpDesc.init .vcall pc with aux := e.info } : EmitM ExpDesc) :=
    .after fun _ => .after fun _ => .after fun _ => .pure rfl
  refine .after fun _ => .ite (fun _ => ?_) fun _ => .ite (fun _ => ?_) fun _ => ?_
  · exact .after fun ins => rest _ ins
  · exact .after fun _ => .after fun _ => .after fun ins => rest _ ins
  · exact .after fun _ => .after fun ins => rest _ ins

theorem parseLambda_closes : Answers ClosesForm (parseLambda stmt) :=
  .after fun _ => .after fun _ => .after fun _ => by
    refine .bind (Answers.emit (?_ : Answers ExpDesc.Closed (newClosure _))) fun _ closed =>
      .after fun _ => .pure (closes_some closed)
    exact .after fun _ => .after fun _ => .after fun _ => .after fun _ => .pure nofun

theorem exprTableEnd_closed (freg : BCReg) (pc : BCPos) (ts : TableState) :
    Answers ExpDesc.Closed (exprTableEnd freg pc ts) := by
  have rest : Answers ExpDesc.Closed (do
      let e ← if pc + 1 = (← getFs).code.pc then do
          decFreereg
          pure { ts.e with info := pc, k := .vrelocable }
        else pure { ts.e with k := .vnonreloc }
      exprTableFinish pc ts
      pure e : EmitM ExpDesc) := by
    have finish (e : ExpDesc) (closed : e.Closed) :
        Answers ExpDesc.Closed (do exprTableFinish pc ts; pure e : EmitM ExpDesc) :=
      .after fun _ => .pure closed
    refine .after fun _ => .ite (fun _ => .after fun _ => ?_) fun _ => ?_
    · exact .bind (.pure (nofun : ExpDesc.Closed { ts.e with info := pc, k := .vrelocable })) finish
    · exact .bind (.pure (nofun : ExpDesc.Closed { ts.e with k := .vnonreloc })) finish
  refine .ite (fun _ => .after fun _ => rest) fun _ => rest

theorem exprTable_closes : Answers ClosesForm (exprTable stmt) :=
  .after fun _ => .after fun _ => .after fun _ => .after fun _ =>
    (Answers.emit (exprTableEnd_closed _ _ _)).bind fun _ closed => .pure (closes_some closed)

/-! ### Calls -/

/-- The answer of a form is an open descriptor. -/
def OpensForm (r : Option ExpDesc) : Prop := ∃ e, r = some e ∧ e.k = .vcall

theorem parseCall_opens (v : Slot) : Answers OpensForm (parseCall stmt v) :=
  .after fun _ => .after fun _ => .after fun _ => .after fun _ =>
    (Answers.emit (bcemitCall_open _ _)).bind fun e isOpen => .pure ⟨e, rfl, isOpen⟩

theorem parseCallmeth_opens (v : Slot) : Answers OpensForm (parseCallmeth stmt v) :=
  .after fun _ => .after fun _ => .after fun _ => .after fun _ => .after fun _ =>
    (Answers.emit (bcemitCall_open _ _)).bind fun e isOpen => .pure ⟨e, rfl, isOpen⟩

theorem parseUnopBnotEmulated_opens : Answers OpensForm (parseUnopBnotEmulated stmt) :=
  .after fun _ => .after fun _ => .after fun _ => .after fun _ =>
    (Answers.emit (bcemitCall_open _ _)).bind fun e isOpen => .pure ⟨e, rfl, isOpen⟩

theorem parseBinopEmulated_opens (sp : SP) : Answers OpensForm (parseBinopEmulated stmt sp) :=
  .after fun _ => .after fun _ => .after fun _ => .after fun _ => .after fun _ => .after fun _ =>
    (Answers.emit (bcemitCall_open _ _)).bind fun e isOpen => .pure ⟨e, rfl, isOpen⟩

/-- The forms that are values. -/
def isValueForm : SP → Bool
  | .neg | .not | .len | .bnot | .add | .sub | .mul | .div | .mod | .pow | .concat | .eq | .lt | .le | .ne
  | .gt | .ge | .and | .or | .idiv | .band | .bor | .bxor | .shl | .shr | .call | .call1 | .callmeth
  | .callmeth1 | .index | .lambda => true
  | _ => false

/-- Of the forms that are values, calls that are not cut down to one result are left open. -/
theorem parseForm_open_iff [Vm] {sp : SP} (isValue : isValueForm sp = true) (v : Slot) :
    Answers (fun r => ∃ e, r = some e ∧ (e.k = .vcall ↔ sp = .call ∨ sp = .callmeth))
      (parseForm stmt sp v) := by
  have closes {form : ParseM (Option ExpDesc)} (closed : Answers ClosesForm form)
      (other : ¬(sp = .call ∨ sp = .callmeth)) :
      Answers (fun r => ∃ e, r = some e ∧ (e.k = .vcall ↔ sp = .call ∨ sp = .callmeth)) form := by
    intro s
    refine (closed s).mono ?_ fun _ _ _ => trivial
    rintro r _ ⟨e, rfl, notCall⟩
    exact ⟨e, rfl, iff_of_false notCall other⟩
  have opens {form : ParseM (Option ExpDesc)} (isOpen : Answers OpensForm form)
      (call : sp = .call ∨ sp = .callmeth) :
      Answers (fun r => ∃ e, r = some e ∧ (e.k = .vcall ↔ sp = .call ∨ sp = .callmeth)) form := by
    intro s
    refine (isOpen s).mono ?_ fun _ _ _ => trivial
    rintro r _ ⟨e, rfl, isCall⟩
    exact ⟨e, rfl, iff_of_true isCall call⟩
  have oneOf {form : ParseM (Option ExpDesc)} (isOpen : Answers OpensForm form) :
      Answers ClosesForm (oneResult form) :=
    oneResult_closes fun s => (isOpen s).mono (fun _ _ ⟨e, isSome, _⟩ => ⟨e, isSome⟩) fun _ _ _ => trivial
  by_cases binop : (token2binop sp).isSome = true
  · rw [parseForm_binop stmt binop]
    exact closes (parseBinop_closes stmt sp v) (by rintro (rfl | rfl) <;> cases binop)
  · cases sp with
    | neg => exact closes (parseUnop_closes stmt _ v) nofun
    | not => exact closes (parseUnop_closes stmt _ v) nofun
    | len => exact closes (parseUnop_closes stmt _ v) nofun
    | bnot => exact closes (oneOf (parseUnopBnotEmulated_opens stmt)) nofun
    | idiv => exact closes (oneOf (parseBinopEmulated_opens stmt _)) nofun
    | band => exact closes (oneOf (parseBinopEmulated_opens stmt _)) nofun
    | bor => exact closes (oneOf (parseBinopEmulated_opens stmt _)) nofun
    | bxor => exact closes (oneOf (parseBinopEmulated_opens stmt _)) nofun
    | shl => exact closes (oneOf (parseBinopEmulated_opens stmt _)) nofun
    | shr => exact closes (oneOf (parseBinopEmulated_opens stmt _)) nofun
    | call => exact opens (parseCall_opens stmt v) (.inl rfl)
    | call1 => exact closes (oneOf (parseCall_opens stmt v)) nofun
    | callmeth => exact opens (parseCallmeth_opens stmt v) (.inr rfl)
    | callmeth1 => exact closes (oneOf (parseCallmeth_opens stmt v)) nofun
    | index => exact closes (parseIndex_closes stmt v) nofun
    | lambda => exact closes (parseLambda_closes stmt) nofun
    | _ => first | exact absurd rfl binop | cases isValue

end

/-! ## Tokens -/

theorem closed_of_varLookup (ls : LexState) (name : GCstr) :
    ∀ (functions : List FuncState) (first : Bool) (found : Found),
      ls.varLookup_ name functions first = .ok found → found.2.1.Closed
  | [], first, found, lookup => by
      cases lookup
      exact nofun
  | fs :: prev, first, found, lookup => by
      rw [LexState.varLookup_] at lookup
      split at lookup
      · cases lookup
        exact nofun
      · split at lookup
        · next outer isOuter =>
            have closed := closed_of_varLookup ls name prev false outer isOuter
            obtain ⟨functions, e, vidx⟩ := outer
            cases vidx with
            | none =>
                cases lookup
                exact closed
            | some v =>
                rw [LexState.varUpvalue] at lookup
                split at lookup
                · cases lookup
                  exact nofun
                · cases lookup
        · cases lookup

theorem varLookup_closed : Answers ExpDesc.Closed varLookup := by
  refine .after fun name => .after fun ls => ?_
  cases lookup : ls.varLookup_ name (ls.fs :: ls.prev) true with
  | error err => exact .throw err
  | ok found =>
      have closed := closed_of_varLookup ls name _ _ found lookup
      obtain ⟨functions, e, vidx⟩ := found
      cases functions with
      | nil => exact .pure closed
      | cons fs prev => exact .after fun _ => .pure closed

theorem str_of_reserved {s : GCstr} {sp : SP} (isReserved : reserved s = some sp) : s = sp.str := by
  have found : SP.all.find? (fun sp => sp.str == s) = some sp := isReserved
  have same := List.find?_some found
  exact (beq_iff_eq.mp same).symm

/-- Of the tokens that are expressions, `!vararg` is left open. -/
theorem exprToken_open_iff {tok : Token} (noForm : headOf tok = none) :
    Answers (fun e => e.k = .vcall ↔ tok = .name SP.vararg.str) (exprToken tok) := by
  have closes {m : EmitM ExpDesc} (closed : Answers ExpDesc.Closed m) (other : tok ≠ .name SP.vararg.str) :
      Answers (fun e => e.k = .vcall ↔ tok = .name SP.vararg.str) m :=
    fun s => (closed s).mono (fun e _ notCall => iff_of_false notCall other) fun _ _ _ => trivial
  cases tok with
  | number n => exact closes (.after fun _ => .pure nofun) nofun
  | cdata cd => exact closes (.after fun _ => .pure nofun) nofun
  | string s => exact closes (.after fun _ => .pure nofun) nofun
  | name s =>
      unfold exprToken
      dsimp only
      cases isReserved : reserved s with
      | none =>
          refine closes varLookup_closed fun same => ?_
          rw [Token.name.inj same, reserved_str] at isReserved
          cases isReserved
      | some sp =>
          rw [headOf, isReserved] at noForm
          have other {sp' : SP} (different : sp'.str ≠ SP.vararg.str) (isSp : sp = sp') :
              Token.name s ≠ .name SP.vararg.str := by
            rw [str_of_reserved isReserved, isSp]
            exact fun same => different (Token.name.inj same)
          refine .after fun _ => ?_
          cases sp with
          | vararg =>
              have isVararg : Token.name s = .name SP.vararg.str := by rw [str_of_reserved isReserved]
              have opens : Answers (fun e => e.k = .vcall) (exprSpecial .vararg) := by
                refine .after fun _ => .ite (fun _ => .after fun _ => ?_) fun _ => ?_
                · exact .after fun _ => .after fun _ => .after fun _ => .pure rfl
                · exact .after fun _ => .after fun _ => .after fun _ => .pure rfl
              exact fun s => (opens s).mono (fun e _ isCall => iff_of_true isCall isVararg) fun _ _ _ => trivial
          | nil => exact closes (.pure nofun) (other (by decide +kernel) rfl)
          | true_ => exact closes (.pure nofun) (other (by decide +kernel) rfl)
          | false_ => exact closes (.pure nofun) (other (by decide +kernel) rfl)
          | _ => cases noForm
  | _ => exact .after fun _ => .throw _

end TvmJit
