import TvmJit.Simulation.Stores

/-! Storing the value of an expression, its jumps included, to a register. -/

namespace TvmJit

open Foundation

variable [Lua]

/-! ## The value of an expression -/

/-- The descriptor of an expression whose code starts at `lo`. The jumps `T` are
those of its true list, the jumps `F` those of its false list. -/
structure Value (lo : BCPos) (ls : LexState) (S : BCPos → Prop) (js T F : List BCPos) (e : ExpDesc) :
    Prop where
  kind : Kind ls.fs.regs.nactvar lo ls.fs.code S js e
  trues : OpenList lo ls.fs.code S js e.t T
  falses : OpenList lo ls.fs.code S js e.f F
  apart : ∀ j ∈ T, j ∉ F
  alone : e.k = .vjmp → e.info ∉ T ∧ e.info ∉ F ∧ Threads ls.fs.code e.info [e.info]
  low : lo ≤ ls.fs.code.pc

/-- A run that started with the registers `R₀` has found the value `v`, and changed
no register below `n`: it has come to the end of the code, or left it by a jump of
the list that goes with the truth of `v`. -/
def Finds (K : KTable) (ls : LexState) (S : BCPos → Prop) (js T F : List BCPos) (n : BCReg)
    (start : Config) (R₀ : RegFile) (e : ExpDesc) (v : LuaValue) : Prop :=
  ∃ R, (∀ r < n, R r = R₀ r) ∧ (Base K ls.fs.code S js start e R v ∨
    (v.truthy = true ∧ ∃ j ∈ T, Exit K ls.fs.code S start j R (.bool true) v) ∨
    (v.truthy = false ∧ ∃ j ∈ F, Exit K ls.fs.code S start j R (.bool false) v))

section

variable {lo : BCPos} {ls : LexState} {S : BCPos → Prop} {js T F : List BCPos} {e : ExpDesc}

omit [Lua] in
theorem OpenList.inside {c : Code} {l k : BCPos} {ks : List BCPos} (list : OpenList lo c S js l ks)
    (member : k ∈ ks) : lo < c.pc :=
  (list.after k member).trans (list.threads.pending k member).inside

omit [Lua] in
/-- The descriptor has jumps when one of its lists does. -/
theorem hasjump_iff {c : Code} (trues : Threads c e.t T) (falses : Threads c e.f F)
    (apart : ∀ j ∈ T, j ∉ F) (small : c.Small) : e.hasjump = false ↔ T = [] ∧ F = [] := by
  have isNo (l : BCPos) (ks : List BCPos) (threads : Threads c l ks) : l = NO_JMP ↔ ks = [] :=
    threads.eq_noJmp_iff small.le_noJmp
  unfold ExpDesc.hasjump
  rw [bne_eq_false_iff_eq]
  constructor
  · intro same
    rw [← isNo _ _ trues, ← isNo _ _ falses]
    cases T with
    | nil =>
        have noTrue := (isNo _ _ trues).mpr rfl
        exact ⟨noTrue, same ▸ noTrue⟩
    | cons j T =>
        cases F with
        | nil =>
            have noFalse := (isNo _ _ falses).mpr rfl
            exact ⟨same.trans noFalse, noFalse⟩
        | cons k F =>
            have sameHead : j = k := trues.head_eq.symm.trans (same.trans falses.head_eq)
            exact absurd (sameHead ▸ List.mem_cons_self) (apart j (.head _))
  · rintro ⟨rfl, rfl⟩
    rw [(isNo _ _ trues).mpr rfl, (isNo _ _ falses).mpr rfl]

omit [Lua] in
theorem Value.lists_nil (value : Value lo ls S js T F e) (small : ls.fs.code.Small)
    (noJump : e.hasjump = false) : T = [] ∧ F = [] ∧ e.t = NO_JMP ∧ e.f = NO_JMP := by
  obtain ⟨rfl, rfl⟩ := (hasjump_iff value.trues.threads value.falses.threads value.apart small).mp noJump
  exact ⟨rfl, rfl, (value.trues.threads.eq_noJmp_iff small.le_noJmp).mpr rfl,
    (value.falses.threads.eq_noJmp_iff small.le_noJmp).mpr rfl⟩

end

/-! ## Branches -/

section

variable {lo : BCPos} {ls : LexState} {S : BCPos → Prop} {js T F : List BCPos} {e : ExpDesc} {reg : BCReg}

theorem Joined.after (ground : Ground ls S js) (trues : OpenList lo ls.fs.code S js e.t T)
    (falses : OpenList lo ls.fs.code S js e.f F) (low : lo ≤ ls.fs.code.pc) {ls₁ ls' : LexState}
    {S₁ S' : BCPos → Prop} {js₁ js' : List BCPos} (move : Move ls.fs.code.pc ls S js ls₁ S₁ js₁)
    (regs : ls₁.fs.regs = ls.fs.regs) (consts : ls₁.fs.consts = ls.fs.consts)
    (tidy : Tidy ls.fs.code ls₁.fs.code) (joined : Joined lo ls₁ S₁ js₁ T F reg ls' S' js') : Joined lo ls S js T F reg ls' S' js' where
  move := (move.mono low).trans joined.move le_rfl
  regs := joined.regs.trans regs
  consts := joined.consts.trans consts
  tidy := tidy.trans joined.tidy
  trues K start j R v member exit :=
    joined.trues K start j R v member (trues.exit ground move member exit)
  falses K start j R v member exit :=
    joined.falses K start j R v member (falses.exit ground move member exit)

theorem Branched.defaults {ls₁ : LexState} {S₁ : BCPos → Prop} {js₁ : List BCPos} {jfalse jtrue : BCPos}
    (branched : Branched ls S js reg jfalse jtrue ls₁ S₁ js₁) {j : BCPos} (inside : j < ls.fs.code.pc) :
    Defaults ls₁ S₁ reg jfalse jtrue j where
  isFalse := ⟨inside.trans_le branched.falseInside.1, branched.falseInside.2⟩
  isTrue := ⟨inside.trans_le branched.trueInside.1, branched.trueInside.2⟩
  runFalse := branched.runFalse
  runTrue := branched.runTrue

/-- `expr_toreg` with branches, the value of the descriptor being stored. -/
theorem exprToregBranches_spec (ground : Ground ls S js) (notJmp : e.k ≠ .vjmp)
    (trues : OpenList lo ls.fs.code S js e.t T) (falses : OpenList lo ls.fs.code S js e.f F)
    (apart : ∀ j ∈ T, j ∉ F) (low : lo ≤ ls.fs.code.pc)
    (last : (ls.fs.code.ins (ls.fs.code.pc - 1)).Plain) (isReg : reg < LJ_MAX_SLOTS) :
    EmitSpec (exprToregBranches e reg) ls fun _ ls' => ∃ S' js', Joined lo ls S js T F reg ls' S' js' ∧
      ∀ (K : KTable) start R, Here K ls.fs.code S js start R → Here K ls'.fs.code S' js' start R := by
  have inside (j : BCPos) (member : j ∈ T ++ F) : j < ls.fs.code.pc := by
    rcases List.mem_append.mp member with member | member
    · exact (trues.threads.pending j member).inside
    · exact (falses.threads.pending j member).inside
  unfold exprToregBranches
  refine EmitSpec.bind (exprNovalue_spec ground trues.threads falses.threads) ?_
  rintro novalue _ ⟨rfl, allValued⟩
  cases novalue with
  | false =>
      refine EmitSpec.mono (patchBranches_spec NO_JMP NO_JMP ground trues falses
        apart low isReg fun j member notValued => ?_) ?_
      · rw [allValued rfl j member] at notValued
        cases notValued
      · rintro _ ls' ⟨S', joined, -, -, -, -, keeps⟩
        exact ⟨S', js, joined, keeps⟩
  | true =>
      refine EmitSpec.bind (exprBoolvalues_spec ground notJmp last isReg) ?_
      rintro ⟨jfalse, jtrue⟩ ls₁ ⟨S₁, js₁, branched, keeps₁⟩
      refine EmitSpec.mono (patchBranches_spec jfalse jtrue branched.move.ground
        (trues.move branched.move) (falses.move branched.move) apart (low.trans branched.move.longer) isReg
        fun j member _ => branched.defaults (inside j member)) ?_
      rintro _ ls' ⟨S', joined, -, -, -, -, keeps⟩
      exact ⟨S', js₁, joined.after ground trues falses low branched.move branched.regs branched.consts
        (.inl branched.last),
        fun K start R here => keeps K start R (keeps₁ K start R here)⟩

/-- `expr_toreg` with branches, one of them the jump after a comparison: a run that
does not take it comes to the end of the code. -/
theorem exprToregBranches_jmp_spec (ground : Ground ls S []) (isJmp : e.k = .vjmp)
    (trues : OpenList lo ls.fs.code S [] e.t T) (falses : OpenList lo ls.fs.code S [] e.f F)
    (apart : ∀ j ∈ T, j ∉ F) (low : lo ≤ ls.fs.code.pc)
    (notValued : ∃ j ∈ T, (ls.fs.code.ins (j - 1)).valued = false) (isReg : reg < LJ_MAX_SLOTS) :
    EmitSpec (exprToregBranches e reg) ls fun _ ls' => ∃ S' js', Joined lo ls S [] T F reg ls' S' js' ∧
      ∀ (K : KTable) start R, Reach K ls.fs.code.ins S start (ls.fs.code.pc, R) →
        Here K ls'.fs.code S' js' start (Function.update R reg (.bool false)) := by
  have inside (j : BCPos) (member : j ∈ T ++ F) : j < ls.fs.code.pc := by
    rcases List.mem_append.mp member with member | member
    · exact (trues.threads.pending j member).inside
    · exact (falses.threads.pending j member).inside
  unfold exprToregBranches
  refine EmitSpec.bind (exprNovalue_spec ground trues.threads falses.threads) ?_
  rintro novalue _ ⟨rfl, allValued⟩
  obtain ⟨j, member, notValued⟩ := notValued
  cases novalue with
  | false =>
      rw [allValued rfl j (List.mem_append_left _ member)] at notValued
      cases notValued
  | true =>
      refine EmitSpec.bind (exprBoolvalues_jmp_spec ground isJmp isReg) ?_
      rintro ⟨jfalse, jtrue⟩ ls₁ ⟨isFirst, S₁, branched⟩
      refine EmitSpec.mono (patchBranches_spec jfalse jtrue branched.move.ground
        (trues.move branched.move) (falses.move branched.move) apart (low.trans branched.move.longer) isReg
        fun j member _ => branched.defaults (inside j member)) ?_
      rintro _ ls' ⟨S', joined, pc', flow, -, marked, -⟩
      refine ⟨S', [], joined.after ground trues falses low branched.move branched.regs branched.consts
        (.inl branched.last),
        fun K start R reach => .inl ⟨?_, fun later => absurd later (pc'.trans marked.symm).le.not_gt⟩⟩
      have flow₁ : KeepsFlow ls.fs.code.pc ls.fs.code.ins S ls₁.fs.code.ins S₁ :=
        keepsFlow_old ground.allSettled branched.old fun p isSettled =>
          (branched.move.frame.settled p isSettled).1
      simp only at isFirst
      subst isFirst
      rw [pc']
      have reach₁ : Reach K ls₁.fs.code.ins S₁ start (ls₁.fs.code.pc, Function.update R reg (.bool false)) :=
        (reach.keep flow₁ le_rfl).trans (branched.runFalse K R)
      exact reach₁.keep flow le_rfl

end

/-! ## Discharging to a register -/

section

variable {lo : BCPos} {ls : LexState} {S : BCPos → Prop} {js T F : List BCPos} {e : ExpDesc} {reg : BCReg}

omit [Lua] in
theorem PendingTest.not_copies {c : Code} (test : PendingTest lo c S js e) :
    (c.ins (e.info - 1)).copies = false := by
  have compares := test.compares
  unfold BCIns.copies
  generalize (c.ins (e.info - 1)).op = op at compares
  cases op <;> first | rfl | cases compares

omit [Lua] in
theorem PendingTest.not_valued {c : Code} (test : PendingTest lo c S js e) :
    (c.ins (e.info - 1)).valued = false := by
  simp [BCIns.valued, test.not_copies, test.real.ne]

/-- A run whose comparison holds leaves by the jump after it. -/
theorem PendingTest.exit {K : KTable} {c : Code} (test : PendingTest lo c S js e) {start : Config}
    {R : RegFile} (reach : Reach K c.ins S start (e.info - 1, R))
    (cond : condOf K (c.ins (e.info - 1)) R = some true) (dflt : LuaValue) :
    Exit K c S start e.info R dflt dflt := by
  refine .inl ⟨reach, ?_⟩
  unfold exitValue
  rw [if_neg (by simp [test.not_copies]), if_neg test.real.ne, if_pos cond]

/-- A run whose comparison does not hold comes to the end of the code. -/
theorem PendingTest.skip {K : KTable} {c : Code} (test : PendingTest lo c S js e) {start : Config}
    {R : RegFile} (reach : Reach K c.ins S start (e.info - 1, R))
    (cond : condOf K (c.ins (e.info - 1)) R = some false) : Reach K c.ins S start (c.pc, R) := by
  have low := test.low
  have isLast : e.info - 1 + 2 = c.pc := by
    rw [← test.isLast]
    lia
  have step : Flow K c.ins S (e.info - 1, R) (e.info - 1 + 2, R) := .skip (.inl test.real.ne) cond
  rw [isLast] at step
  exact reach.tail step

/-- The value of the expression is stored to `reg`. -/
structure Stored (lo : BCPos) (ls : LexState) (S : BCPos → Prop) (js T F : List BCPos) (e : ExpDesc)
    (reg : BCReg) (ls' : LexState) (S' : BCPos → Prop) (js' : List BCPos) : Prop where
  move : Move lo ls S js ls' S' js'
  regs : ls'.fs.regs = ls.fs.regs
  tidy : Tidy ls.fs.code ls'.fs.code
  stores : ∀ K : KTable, K.Reads ls'.fs.consts → ∀ n start R₀ v, Finds K ls S js T F n start R₀ e v →
    ∃ R, (∀ r < n, R r = R₀ r) ∧ Here K ls'.fs.code S' js' start (Function.update R reg v)

/-- `expr_toreg` when the value is not the one of a jump. -/
theorem exprToreg_value_spec (ground : Ground ls S js) (value : Value lo ls S js T F e)
    (last : lo < ls.fs.code.pc → (ls.fs.code.ins (ls.fs.code.pc - 1)).Plain) (notJmp : e.k ≠ .vjmp)
    (exact_ : e.Exact) (isReg : reg < LJ_MAX_SLOTS) :
    EmitSpec (exprToreg e reg) ls fun r ls' =>
      r = { e with k := .vnonreloc, info := reg, t := NO_JMP, f := NO_JMP } ∧
        ∃ S' js', Stored lo ls S js T F e reg ls' S' js' := by
  have isVar : ls.fs.regs.nactvar ≤ LJ_MAX_SLOTS :=
    (ground.nactvar.trans ground.freereg).trans ground.framesize.le
  unfold exprToreg
  refine EmitSpec.bind (exprToregNobranch_spec ground value.kind notJmp exact_ isVar isReg) ?_
  rintro e₁ ls₁ ⟨isStored, S₁, js₁, loaded, stores⟩
  have notJmp₁ : e₁.k ≠ .vjmp := by simp [isStored]
  have fields : e₁.t = e.t ∧ e₁.f = e.f ∧
      ({ e₁ with f := NO_JMP, t := NO_JMP, info := reg, k := .vnonreloc } : ExpDesc) =
        { e with k := .vnonreloc, info := reg, t := NO_JMP, f := NO_JMP } := by
    rw [isStored]
    unfold ExpDesc.discharged
    split <;> exact ⟨rfl, rfl, rfl⟩
  rw [if_neg notJmp₁]
  refine EmitSpec.bind (Q := fun r ls' => e₁ = r ∧ ls₁ = ls') ⟨rfl, rfl⟩ ?_
  rintro _ _ ⟨rfl, rfl⟩
  have moved := loaded.move.mono value.low
  have here {K : KTable} (reads : K.Reads ls₁.fs.consts) {start : Config} {R : RegFile} {v : LuaValue} :=
    stores K reads start R v
  have sameJumps : e₁.hasjump = e.hasjump := by simp only [ExpDesc.hasjump, fields]
  beta_reduce
  rw [fields.2.2]
  split
  · next hasjump =>
      rw [sameJumps] at hasjump
      have inside : lo < ls.fs.code.pc := by
        by_contra outside
        have noTrue : T = [] := List.eq_nil_iff_forall_not_mem.mpr fun _ member =>
          outside (value.trues.inside member)
        have noFalse : F = [] := List.eq_nil_iff_forall_not_mem.mpr fun _ member =>
          outside (value.falses.inside member)
        have noJump := (hasjump_iff value.trues.threads value.falses.threads value.apart ground.small).mpr
          ⟨noTrue, noFalse⟩
        rw [hasjump] at noJump
        cases noJump
      refine EmitSpec.bind (exprToregBranches_spec (T := T) (F := F)
        loaded.move.ground notJmp₁ ?_ ?_ value.apart (value.low.trans loaded.move.longer)
        (loaded.tidy.plain (last inside)) isReg) ?_
      · rw [fields.1]
        exact value.trues.move loaded.move
      · rw [fields.2.1]
        exact value.falses.move loaded.move
      rintro _ ls' ⟨S', js', joined, keeps⟩
      refine ⟨rfl, S', js', moved.trans joined.move le_rfl, joined.regs.trans loaded.regs,
        loaded.tidy.trans joined.tidy,         fun K reads n start R₀ v finds => ?_⟩
      rw [joined.consts] at reads
      obtain ⟨R, agree, base | ⟨-, j, member, exit⟩ | ⟨-, j, member, exit⟩⟩ := finds
      · exact ⟨R, agree, keeps K start _ (here reads base)⟩
      · exact ⟨R, agree, joined.trues K start j R v member
          (value.trues.exit ground loaded.move member exit)⟩
      · exact ⟨R, agree, joined.falses K start j R v member
          (value.falses.exit ground loaded.move member exit)⟩
  · next hasjump =>
      rw [sameJumps, Bool.not_eq_true] at hasjump
      obtain ⟨rfl, rfl, -, -⟩ := value.lists_nil ground.small hasjump
      refine ⟨rfl, S₁, js₁, moved, loaded.regs, loaded.tidy, fun K reads n start R₀ v finds => ?_⟩
      obtain ⟨R, agree, base | ⟨-, _, member, -⟩ | ⟨-, _, member, -⟩⟩ := finds
      · exact ⟨R, agree, here reads base⟩
      · cases member
      · cases member

/-- `expr_toreg` when the value is the one of the comparison just emitted. -/
theorem exprToreg_jmp_spec (ground : Ground ls S js) (value : Value lo ls S js T F e) (isJmp : e.k = .vjmp)
    (isReg : reg < LJ_MAX_SLOTS) :
    EmitSpec (exprToreg e reg) ls fun r ls' =>
      r = { e with k := .vnonreloc, info := reg, t := NO_JMP, f := NO_JMP } ∧
        ∃ S' js', Stored lo ls S js T F e reg ls' S' js' := by
  have test : PendingTest lo ls.fs.code S js e := by simpa only [Kind, isJmp] using value.kind
  obtain rfl := test.none
  obtain ⟨notTrue, notFalse, alone⟩ := value.alone isJmp
  have low := value.low
  have nobranch : exprToregNobranch e reg = pure e := by
    unfold exprToregNobranch
    rw [value.kind.exprDischarge]
    simp [ExpDesc.discharged, isJmp]
  unfold exprToreg
  rw [nobranch]
  refine EmitSpec.bind (Q := fun r ls' => e = r ∧ ls = ls') ⟨rfl, rfl⟩ ?_
  rintro _ _ ⟨rfl, rfl⟩
  rw [if_pos isJmp]
  -- The jump is added to the true list.
  refine EmitSpec.bind (append_spec ground value.trues.threads alone (fun k member => ?_)
    value.trues.unsettled value.trues.notHere value.trues.after value.low) ?_
  · rintro inInfo
    obtain rfl := List.mem_singleton.mp inInfo
    exact notTrue member
  rintro l ls₁ ⟨threads, linked, -⟩
  rw [EmitSpec, wp_bind, wp_pure]
  generalize isE₁ : ({ e with t := l } : ExpDesc) = e₁
  obtain rfl : l = e₁.t := by rw [← isE₁]
  have isJmps (k : BCPos) (member : k ∈ T) : (ls.fs.code.ins k).op = .jmp :=
    (value.trues.threads.pending k member).isJmp
  have fields : e₁.f = e.f ∧ e₁.k = .vjmp ∧
      ({ e₁ with f := NO_JMP, t := NO_JMP, info := reg, k := .vnonreloc } : ExpDesc) =
        { e with k := .vnonreloc, info := reg, t := NO_JMP, f := NO_JMP } := by
    rw [← isE₁]
    exact ⟨rfl, isJmp, rfl⟩
  have trues₁ : OpenList lo ls₁.fs.code S [] e₁.t (T ++ [e.info]) := by
    refine ⟨threads, fun k member => ?_, fun k _ => List.not_mem_nil, fun k member => ?_⟩
    · rcases List.mem_append.mp member with member | member
      · exact value.trues.unsettled k member
      · exact List.mem_singleton.mp member ▸ test.unsettled
    · rcases List.mem_append.mp member with member | member
      · exact value.trues.after k member
      · exact List.mem_singleton.mp member ▸ test.low
  have falses₁ : OpenList lo ls₁.fs.code S [] e₁.f F := by
    rw [fields.1]
    exact value.falses.linked linked (fun k member inTrues => value.apart k inTrues member)
      fun _ _ => List.not_mem_nil
  have apart₁ (j : BCPos) (member : j ∈ T ++ [e.info]) : j ∉ F := by
    rcases List.mem_append.mp member with member | member
    · exact value.apart j member
    · exact List.mem_singleton.mp member ▸ notFalse
  have hasjump : e₁.hasjump = true := by
    by_contra noJump
    have none := (hasjump_iff threads falses₁.threads apart₁ linked.move.ground.small).mp
      (by simpa using noJump)
    simp at none
  have notValued : (ls₁.fs.code.ins (e.info - 1)).valued = false := by
    have same := linked.jumps (e.info - 1)
    have before := test.not_valued
    simp only [BCIns.valued, BCIns.copies, same.1, same.2] at before ⊢
    exact before
  beta_reduce
  rw [fields.2.2, if_pos hasjump]
  refine EmitSpec.bind (exprToregBranches_jmp_spec linked.move.ground fields.2.1 trues₁ falses₁ apart₁
    (low.trans_eq linked.pc.symm) ⟨e.info, by simp, notValued⟩ isReg) ?_
  rintro _ ls' ⟨S', js', joined, falls⟩
  refine ⟨rfl, S', js', linked.move.trans joined.move le_rfl, joined.regs.trans linked.regs,
    linked.tidy.trans joined.tidy, fun K reads n start R₀ v finds => ?_⟩
  have moved {j : BCPos} {R : RegFile} {dflt : LuaValue} (inside : j < ls.fs.code.pc)
      (exit : Exit K ls.fs.code S start j R dflt v) : Exit K ls₁.fs.code S start j R dflt v :=
    linked.exit isJmps inside.le exit
  obtain ⟨R, agree, base | ⟨-, j, member, exit⟩ | ⟨-, j, member, exit⟩⟩ := finds
  · simp only [Base, isJmp] at base
    obtain ⟨reach, b, cond, rfl⟩ := base
    cases b with
    | true =>
        exact ⟨R, agree, joined.trues K start e.info R _ (by simp)
          (moved test.pending.inside (test.exit reach cond _))⟩
    | false =>
        refine ⟨R, agree, falls K start R ?_⟩
        rw [linked.pc]
        exact Reach.keep linked.flow (test.skip reach cond) le_rfl
  · exact ⟨R, agree, joined.trues K start j R v (List.mem_append_left _ member)
      (moved (value.trues.threads.pending j member).inside exit)⟩
  · exact ⟨R, agree, joined.falses K start j R v member
      (moved (value.falses.threads.pending j member).inside exit)⟩

/-- `expr_toreg`. -/
theorem exprToreg_spec (ground : Ground ls S js) (value : Value lo ls S js T F e)
    (last : lo < ls.fs.code.pc → (ls.fs.code.ins (ls.fs.code.pc - 1)).Plain) (exact_ : e.Exact)
    (isReg : reg < LJ_MAX_SLOTS) :
    EmitSpec (exprToreg e reg) ls fun r ls' =>
      r = { e with k := .vnonreloc, info := reg, t := NO_JMP, f := NO_JMP } ∧
        ∃ S' js', Stored lo ls S js T F e reg ls' S' js' := by
  by_cases isJmp : e.k = .vjmp
  · exact exprToreg_jmp_spec ground value isJmp isReg
  · exact exprToreg_value_spec ground value last isJmp exact_ isReg

end

end TvmJit
