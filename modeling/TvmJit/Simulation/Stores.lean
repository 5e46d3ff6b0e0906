import TvmJit.Simulation.Lists

/-! Storing the value of a descriptor with jumps to a register. -/

namespace TvmJit

open Foundation

variable [Lua]

/-! ## Emitting a jump -/

/-- A jump without a target has been added. -/
structure Jumped (ls : LexState) (S : BCPos → Prop) (js : List BCPos) (ls' : LexState) : Prop where
  move : Move ls.fs.code.pc ls S js ls' S []
  regs : ls'.fs.regs = ls.fs.regs
  consts : ls'.fs.consts = ls.fs.consts
  pc : ls'.fs.code.pc = ls.fs.code.pc + 1
  lasttarget : ls'.fs.code.lasttarget = ls.fs.code.lasttarget
  jump : ls'.fs.code.Pending ls.fs.code.pc
  others : ∀ p < ls.fs.code.pc, ls'.fs.code.ins p = ls.fs.code.ins p

theorem bcemitJmp_spec {ls : LexState} {S : BCPos → Prop} {js : List BCPos} (ground : Ground ls S js)
    (noUclo : (ls.fs.code.ins (ls.fs.code.pc - 1)).op ≠ .uclo) :
    EmitSpec bcemitJmp ls fun l ls' =>
      Threads ls'.fs.code l (ls.fs.code.pc :: js) ∧ Jumped ls S js ls' := by
  have isReg : ls.fs.regs.freereg < LJ_MAX_SLOTS := ground.freereg.trans_lt ground.framesize
  unfold bcemitJmp
  rw [EmitSpec, wp_bind, wp_get]
  refine (emitJmp_spec ground.here ground.small ground.pos noUclo isReg).lift ?_
  rintro l c ⟨threads, pushed⟩
  have longer : ls.fs.code.pc ≤ c.pc := by rw [pushed.pc]; exact Nat.le_succ _
  have others (p : BCPos) (below : p < ls.fs.code.pc) : c.ins p = ls.fs.code.ins p := pushed.others p below
  have flow : KeepsFlow (ls.fs.code.pc - 1) ls.fs.code.ins S c.ins S :=
    keepsFlow_of (fun p isSettled => ⟨isSettled, others p (ground.allSettled p isSettled).1⟩)
      fun p below => .inl (others p (below.trans_le (Nat.sub_le _ _)))
  refine ⟨threads, ⟨⟨⟨ground.pos.trans longer, pushed.small, ?_, fun h => absurd rfl h, ?_,
    fun _ member => (by cases member), fun _ => ?_, ground.nactvar, ground.freereg, ground.framesize⟩,
    ⟨longer, fun p isSettled => ⟨isSettled, others p (ground.allSettled p isSettled).1⟩,
      fun j below _ unsettled _ => ⟨unsettled, others j below⟩,
      fun j below pending => pending.of_eq longer (others j below),
      fun p below _ _ => others p (lt_trans (Nat.lt_succ_self p) below), flow⟩, longer,
    fun _ member => (by cases member), ⟨rfl, rfl, rfl, rfl, rfl, rfl, fun _ member => member⟩⟩, rfl, rfl,
    pushed.pc, pushed.lasttarget, pushed.jump, others⟩⟩
  · change Threads c c.jpc []
    rw [pushed.jpc]
    exact .nil
  · intro p isSettled
    obtain ⟨inside, isJmp, real⟩ := ground.allSettled p isSettled
    change p < c.pc ∧ (c.ins p).op = _ ∧ (c.ins p).a < _
    rw [others p inside]
    exact ⟨inside.trans_le longer, isJmp, real⟩
  · have isLast : c.pc - 1 = ls.fs.code.pc := by rw [pushed.pc]; rfl
    change (c.ins (c.pc - 1)).NilsFit
    rw [isLast]
    exact .jmp pushed.jump.isJmp

/-! ## Open lists -/

/-- A list of jumps emitted after `lo` that have no target. -/
structure OpenList (lo : BCPos) (c : Code) (S : BCPos → Prop) (js : List BCPos) (l : BCPos)
    (ks : List BCPos) : Prop where
  threads : Threads c l ks
  unsettled : ∀ k ∈ ks, ¬S k
  notHere : ∀ k ∈ ks, k ∉ js
  after : ∀ k ∈ ks, lo < k

section

variable {lo : BCPos} {ls ls' : LexState} {S S' : BCPos → Prop} {js js' : List BCPos} {l : BCPos}
  {ks : List BCPos}

theorem OpenList.move (list : OpenList lo ls.fs.code S js l ks)
    (move : Move ls.fs.code.pc ls S js ls' S' js') : OpenList lo ls'.fs.code S' js' l ks where
  threads := list.threads.frame move.frame move.longer
    (fun k member => (list.threads.pending k member).inside) list.unsettled list.notHere
  unsettled k member := (move.frame.pending k (list.threads.pending k member).inside
    (list.threads.pending k member) (list.unsettled k member) (list.notHere k member)).1
  notHere k member isHere := by
    rcases move.fresh k isHere with older | newer
    · exact list.notHere k member older
    · exact Nat.not_lt.mpr newer (list.threads.pending k member).inside
  after := list.after

/-- A run that leaves by a jump of the list still does. -/
theorem OpenList.exit (list : OpenList lo ls.fs.code S js l ks) (ground : Ground ls S js)
    (move : Move ls.fs.code.pc ls S js ls' S' js') {K : KTable} {start : Config} {j : BCPos}
    {R : RegFile} {dflt v : LuaValue} (member : j ∈ ks)
    (exit : Exit K ls.fs.code S start j R dflt v) : Exit K ls'.fs.code S' start j R dflt v :=
  exit.frame move.frame (list.threads.pending j member) (list.threads.pending j member).inside
    (list.notHere j member) ground.here.pending

omit [Lua] in
theorem OpenList.mono {lo' : BCPos} (list : OpenList lo ls.fs.code S js l ks) (le : lo' ≤ lo) :
    OpenList lo' ls.fs.code S js l ks :=
  ⟨list.threads, list.unsettled, list.notHere, fun k member => le.trans_lt (list.after k member)⟩

theorem OpenList.linked (list : OpenList lo ls.fs.code S js l ks) {ms : List BCPos}
    (linked : Linked lo ls S js ms ls' js') (apart : ∀ k ∈ ks, k ∉ ms) (notHere : ∀ k ∈ ks, k ∉ js') :
    OpenList lo ls'.fs.code S js' l ks :=
  ⟨linked.threads list.threads apart, list.unsettled, notHere, list.after⟩

omit [Lua] in
theorem OpenList.nil : OpenList lo ls.fs.code S js NO_JMP [] :=
  ⟨.nil, fun _ member => (by cases member), fun _ member => (by cases member),
    fun _ member => (by cases member)⟩

end

/-! ## The values of jumps that bring none -/

theorem KeepsFlow.grow {m : BCPos} {ins : BCPos → BCIns} {S S' : BCPos → Prop}
    (more : ∀ p, S p → S' p) : KeepsFlow m ins S ins S' :=
  keepsFlow_of (fun p isSettled => ⟨more p isSettled, rfl⟩) fun _ _ => .inl rfl

/-- A jump that has its target from the start counts as settled. -/
theorem Move.settle {m : BCPos} {ls ls' : LexState} {S S' : BCPos → Prop} {js js' : List BCPos}
    (move : Move m ls S js ls' S' js') {j : BCPos} (later : m ≤ j) (pending : ls'.fs.code.Pending j)
    (notHere : j ∉ js') : Move m ls S js ls' (fun p => S' p ∨ p = j) js' where
  ground :=
    { move.ground with
      allSettled := by
        rintro p (isSettled | rfl)
        · exact move.ground.allSettled p isSettled
        · exact ⟨pending.inside, pending.isJmp, pending.real⟩
      unsettled := by
        rintro k member (isSettled | rfl)
        · exact move.ground.unsettled k member isSettled
        · exact notHere member }
  frame :=
    { move.frame with
      settled := fun p isSettled => ⟨.inl (move.frame.settled p isSettled).1,
        (move.frame.settled p isSettled).2⟩
      pending := fun k below isPending unsettled other => by
        have ⟨unsettled', same⟩ := move.frame.pending k below isPending unsettled other
        refine ⟨fun isSettled => ?_, same⟩
        rcases isSettled with isSettled | rfl
        · exact unsettled' isSettled
        · exact Nat.not_lt.mpr later below
      flow := move.frame.flow.trans (.grow fun _ => .inl) }
  longer := move.longer
  fresh := move.fresh
  emits := move.emits

/-- The `KPRI` pair for a register: at `pc` false is stored, two positions later
true, and both runs go on behind the pair. -/
structure BoolPair (ls : LexState) (S : BCPos → Prop) (reg : BCReg) (ls' : LexState)
    (S' : BCPos → Prop) : Prop where
  move : Move ls.fs.code.pc ls S [] ls' S' []
  regs : ls'.fs.regs = ls.fs.regs
  consts : ls'.fs.consts = ls.fs.consts
  pc : ls'.fs.code.pc = ls.fs.code.pc + 3
  others : ∀ p < ls.fs.code.pc, ls'.fs.code.ins p = ls.fs.code.ins p
  last : (ls'.fs.code.ins (ls'.fs.code.pc - 1)).op = .kpri ∧
    (ls'.fs.code.ins (ls'.fs.code.pc - 1)).a = reg
  runFalse : ∀ (K : KTable) R, Reach K ls'.fs.code.ins S' (ls.fs.code.pc, R)
    (ls'.fs.code.pc, Function.update R reg (.bool false))
  runTrue : ∀ (K : KTable) R, Reach K ls'.fs.code.ins S' (ls.fs.code.pc + 2, R)
    (ls'.fs.code.pc, Function.update R reg (.bool true))

omit [Lua] in
theorem BCIns.aj_one {op : BCOp} {a : Nat} (small : a < 256) : (aj op a 1).j = 1 := by
  have offset : u32 (1 + BCBIAS_J) = 32769 := by decide
  rw [j, aj, offset, ad_d small (by decide)]
  decide

theorem boolPair_spec {ls : LexState} {S : BCPos → Prop} (ground : Ground ls S []) {reg : BCReg}
    (isReg : reg < LJ_MAX_SLOTS) {next : BCPos → BCPos → EmitM α} {post : α → LexState → Prop}
    (rest : ∀ ls' S', BoolPair ls S reg ls' S' →
      EmitSpec (next ls.fs.code.pc (ls.fs.code.pc + 2)) ls' post) :
    EmitSpec (do
        let jfalse ← bcemitAD .kpri reg (constPri .vkfalse)
        let _ ← bcemitAJ .jmp (← getFs).regs.freereg 1
        let jtrue ← bcemitAD .kpri reg (constPri .vktrue)
        next jfalse jtrue) ls post := by
  have small : reg < 250 := isReg
  have isA (d : Nat) : (BCIns.ad .kpri reg d).a = reg := BCIns.ad_a (by lia)
  have isD (d : Nat) : (BCIns.ad .kpri reg d).d = d % 65536 := BCIns.ad_d_mod (by lia)
  have fit (d : Nat) : (BCIns.ad .kpri reg d).NilsFit :=
    ⟨fun _ => .inl (by rw [isA]; exact isReg), fun h => by cases h⟩
  have smallFree : ls.fs.regs.freereg < 250 := ground.freereg.trans_lt ground.framesize
  unfold bcemitAD bcemitAJ
  refine EmitSpec.bind (bcemitINS_spec ground (fit _)) ?_
  rintro _ ls₁ ⟨rfl, S₁, first⟩
  rw [EmitSpec, wp_bind, wp_getFs]
  refine EmitSpec.bind (bcemitINS_spec first.move.ground (.jmp rfl)) ?_
  rintro _ ls₂ ⟨rfl, S₂, second⟩
  have isJump : ls₂.fs.code.Pending ls₁.fs.code.pc := by
    refine ⟨first.move.ground.pos, by rw [second.pc]; exact Nat.lt_succ_self _,
      by rw [second.ins]; rfl, ?_⟩
    rw [second.ins, first.regs]
    exact (BCIns.ad_a (by lia)).trans_lt (by simp only [NO_REG]; lia)
  have jumped := second.move.settle le_rfl isJump List.not_mem_nil
  refine EmitSpec.bind (bcemitINS_spec jumped.ground (fit _)) ?_
  rintro _ ls₃ ⟨rfl, S₃, third⟩
  have pc₁ : ls₁.fs.code.pc = ls.fs.code.pc + 1 := first.pc
  have pc₂ : ls₂.fs.code.pc = ls.fs.code.pc + 2 := by rw [second.pc, pc₁]
  have pc₃ : ls₃.fs.code.pc = ls.fs.code.pc + 3 := by rw [third.pc, pc₂]
  have others₃ := (third.alone rfl).1
  have others₂ := (second.alone rfl).1
  have others₁ := (first.alone rfl).1
  have insFalse : ls₃.fs.code.ins ls.fs.code.pc = .ad .kpri reg (constPri .vkfalse) := by
    rw [others₃ _ (by lia), others₂ _ (by lia), first.ins]
  have insJump : ls₃.fs.code.ins ls₁.fs.code.pc = .aj .jmp ls₁.fs.regs.freereg 1 := by
    rw [others₃ _ (by lia), second.ins]
  have insTrue : ls₃.fs.code.ins ls₂.fs.code.pc = .ad .kpri reg (constPri .vktrue) := third.ins
  have realReg : reg ≠ NO_REG := by
    simp only [NO_REG]
    lia
  have moved := (first.move.trans jumped (by lia)).trans third.move (by lia)
  rw [pc₂]
  refine rest ls₃ S₃ ⟨moved, ?_, ?_, pc₃, ?_, ?_, ?_, ?_⟩
  · rw [third.regs, second.regs, first.regs]
  · rw [third.consts, second.consts, first.consts]
  · intro p below
    rw [others₃ _ (by lia), others₂ _ (by lia), others₁ _ below]
  · have isLast : ls₃.fs.code.pc - 1 = ls₂.fs.code.pc := by rw [third.pc]; rfl
    rw [isLast, insTrue]
    exact ⟨rfl, isA _⟩
  · intro K R
    have load := Flow.loads (K := K) (S := S₃) (R := R) (v := .bool false) insFalse (isA _) realReg
      (by simp only [valueOf, BCIns.ad_op, isD]; rfl)
    have target : jumpTarget ls₃.fs.code.ins ls₁.fs.code.pc = ls₃.fs.code.pc := by
      rw [jumpTarget, insJump, BCIns.aj_one (by rw [first.regs]; lia), pc₃, pc₁]
      lia
    have jump : Flow K ls₃.fs.code.ins S₃ (ls₁.fs.code.pc, Function.update R reg (.bool false))
        (jumpTarget ls₃.fs.code.ins ls₁.fs.code.pc, Function.update R reg (.bool false)) := by
      refine .jump (third.move.frame.settled _ (.inr rfl)).1 (by rw [insJump]; rfl) ?_
      rw [target, pc₃, pc₁]
      lia
    rw [target] at jump
    rw [← pc₁] at load
    exact .tail (.single load) jump
  · intro K R
    have load := Flow.loads (K := K) (S := S₃) (R := R) (v := .bool true) insTrue (isA _) realReg
      (by simp only [valueOf, BCIns.ad_op, isD]; rfl)
    rw [← third.pc, pc₂] at load
    exact .single load

/-! ## Discharging with branches -/

/-- `expr_toreg` for a descriptor with jumps, its own value being stored: the
positions that store the values of jumps that bring none. -/
structure Branched (ls : LexState) (S : BCPos → Prop) (js : List BCPos) (reg : BCReg) (jfalse jtrue : BCPos)
    (ls' : LexState) (S' : BCPos → Prop) (js' : List BCPos) : Prop where
  move : Move ls.fs.code.pc ls S js ls' S' js'
  regs : ls'.fs.regs = ls.fs.regs
  consts : ls'.fs.consts = ls.fs.consts
  falseInside : ls.fs.code.pc ≤ jfalse ∧ jfalse ≤ ls'.fs.code.pc
  trueInside : ls.fs.code.pc ≤ jtrue ∧ jtrue ≤ ls'.fs.code.pc
  old : ∀ p < ls.fs.code.pc, ls'.fs.code.ins p = ls.fs.code.ins p
  last : (ls'.fs.code.ins (ls'.fs.code.pc - 1)).Plain
  runFalse : ∀ (K : KTable) R, Reach K ls'.fs.code.ins S' (jfalse, R)
    (ls'.fs.code.pc, Function.update R reg (.bool false))
  runTrue : ∀ (K : KTable) R, Reach K ls'.fs.code.ins S' (jtrue, R)
    (ls'.fs.code.pc, Function.update R reg (.bool true))

/-- The pair of constants for a comparison: without its jump taken, a run comes to
the first one. -/
theorem exprBoolvalues_jmp_spec {ls : LexState} {S : BCPos → Prop} (ground : Ground ls S [])
    {e : ExpDesc} (isJmp : e.k = .vjmp) {reg : BCReg} (isReg : reg < LJ_MAX_SLOTS) :
    EmitSpec (exprBoolvalues e reg) ls fun r ls' =>
      r.1 = ls.fs.code.pc ∧ ∃ S', Branched ls S [] reg r.1 r.2 ls' S' [] := by
  have realReg : reg ≠ NO_REG := (isReg.trans (by decide)).ne
  unfold exprBoolvalues
  rw [if_pos isJmp, EmitSpec, wp_bind, wp_pure]
  refine boolPair_spec ground isReg fun ls₁ S₁ pair => ?_
  refine EmitSpec.bind (tohere_spec ls.fs.code.pc pair.move.ground .nil
    (fun _ member => (by cases member)) (fun _ member => (by cases member))
    (fun _ member => (by cases member)) (by rw [pair.pc]; lia)) ?_
  rintro _ ls' ⟨linked, -⟩
  have same (p : BCPos) : ls'.fs.code.ins p = ls₁.fs.code.ins p := linked.others p List.not_mem_nil
  have sameIns : ls'.fs.code.ins = ls₁.fs.code.ins := funext same
  refine ⟨rfl, S₁, ⟨pair.move.trans linked.move le_rfl, linked.regs.trans pair.regs,
    linked.consts.trans pair.consts, ?_, ?_, fun p below => (same p).trans (pair.others p below), ?_, ?_, ?_⟩⟩
  · rw [linked.pc, pair.pc]
    simp only
    lia
  · rw [linked.pc, pair.pc]
    simp only
    lia
  · rw [linked.pc, same]
    simp [BCIns.Plain, BCIns.valued, BCIns.copies, pair.last, realReg]
  · rw [linked.pc, sameIns]
    exact pair.runFalse
  · rw [linked.pc, sameIns]
    exact pair.runTrue

/-- The pair of constants for a stored value: a run that has stored it jumps over
the pair. -/
theorem exprBoolvalues_spec {ls : LexState} {S : BCPos → Prop} {js : List BCPos}
    (ground : Ground ls S js) {e : ExpDesc} (notJmp : e.k ≠ .vjmp)
    (last : (ls.fs.code.ins (ls.fs.code.pc - 1)).Plain) {reg : BCReg} (isReg : reg < LJ_MAX_SLOTS) :
    EmitSpec (exprBoolvalues e reg) ls fun r ls' =>
      ∃ S' js', Branched ls S js reg r.1 r.2 ls' S' js' ∧
        ∀ K start R, Here K ls.fs.code S js start R → Here K ls'.fs.code S' js' start R := by
  have realReg : reg ≠ NO_REG := (isReg.trans (by decide)).ne
  unfold exprBoolvalues
  rw [if_neg notJmp]
  refine EmitSpec.bind (bcemitJmp_spec ground last.1) ?_
  rintro jval ls₁ ⟨jvals, jumped⟩
  refine boolPair_spec jumped.move.ground isReg fun ls₂ S₂ pair => ?_
  have pc₁ : ls₁.fs.code.pc = ls.fs.code.pc + 1 := jumped.pc
  have pc₂ : ls₂.fs.code.pc = ls.fs.code.pc + 4 := by rw [pair.pc, pc₁]
  have old₁ := jumped.others
  have old₂ (p : BCPos) (below : p < ls.fs.code.pc) : ls₂.fs.code.ins p = ls.fs.code.ins p :=
    (pair.others p (by lia)).trans (old₁ p below)
  have moved := jumped.move.trans pair.move (by lia)
  -- The jump over the pair, and the jumps that waited for it.
  have notSettled (k : BCPos) (member : k ∈ ls.fs.code.pc :: js) : ¬S₂ k := by
    have unsettled : ¬S k := by
      rcases List.mem_cons.mp member with rfl | member
      · exact fun isSettled => Nat.lt_irrefl _ (ground.allSettled _ isSettled).1
      · exact ground.unsettled k member
    have pending := jvals.pending k member
    exact (pair.move.frame.pending k pending.inside pending unsettled List.not_mem_nil).1
  have jvals₂ : Threads ls₂.fs.code jval (ls.fs.code.pc :: js) :=
    jvals.of_eq (by lia) fun k member => pair.others k (jvals.pending k member).inside
  refine EmitSpec.bind (tohere_first_spec pair.move.ground jvals₂ notSettled) ?_
  rintro _ ls' ⟨ground', same, pc', regs, consts, emits⟩
  have flow : KeepsFlow ls.fs.code.pc ls.fs.code.ins S ls'.fs.code.ins S₂ := by
    rw [same]
    exact keepsFlow_old ground.allSettled old₂ fun p isSettled => (moved.frame.settled p isSettled).1
  refine ⟨S₂, ls.fs.code.pc :: js, ⟨⟨ground', moved.frame.congr pc' same, by lia, fun j member => ?_,
    moved.emits.trans emits⟩, ?_, ?_, ?_, ?_, ?_, ?_, ?_, ?_⟩, fun K start R here => ?_⟩
  · rcases List.mem_cons.mp member with rfl | member
    · exact .inr le_rfl
    · exact .inl member
  · rw [regs, pair.regs, jumped.regs]
  · rw [consts, pair.consts, jumped.consts]
  · simp only
    lia
  · simp only
    lia
  · intro p below
    rw [same]
    exact old₂ p below
  · rw [pc', same]
    simp [BCIns.Plain, BCIns.valued, BCIns.copies, pair.last, realReg]
  · rw [pc', same]
    exact pair.runFalse
  · rw [pc', same]
    exact pair.runTrue
  · have pos := ground.pos
    rcases here with ⟨reach, -⟩ | ⟨j, member, v, exit⟩
    · refine .inr ⟨_, .head _, _, .inr ⟨reach.keep flow le_rfl, ?_, rfl⟩⟩
      rw [same, old₂ _ (by lia)]
      exact last.2
    · have pending := ground.here.pending j member
      have before : ls'.fs.code.ins (j - 1) = ls.fs.code.ins (j - 1) := by
        rw [same]
        exact old₂ _ (lt_of_le_of_lt (Nat.sub_le _ _) pending.inside)
      refine .inr ⟨j, .tail _ member, v, exit.keep (flow.mono pending.inside.le) (fun _ => before)
        fun _ notValued => ?_⟩
      rw [before]
      exact notValued

/-! ## Setting the jumps of a descriptor -/

omit [Lua] in
theorem exprNovalue_spec {ls : LexState} {S : BCPos → Prop} {js : List BCPos} (ground : Ground ls S js)
    {e : ExpDesc} {T F : List BCPos} (trues : Threads ls.fs.code e.t T)
    (falses : Threads ls.fs.code e.f F) :
    EmitSpec (exprNovalue e) ls fun novalue ls' => ls = ls' ∧
      (novalue = false → ∀ j ∈ T ++ F, (ls.fs.code.ins (j - 1)).valued = true) := by
  unfold exprNovalue
  have inTrues : EmitSpec (liftM (jmpNovalue e.t) : EmitM Bool) ls fun novalue ls' =>
      ls = ls' ∧ novalue = T.any fun j => !(ls.fs.code.ins (j - 1)).valued :=
    (jmpNovalue_spec trues ground.small).lift fun _ _ same => ⟨by rw [same.1]; rfl, same.2⟩
  refine inTrues.bind ?_
  rintro _ _ ⟨rfl, rfl⟩
  split
  · exact ⟨rfl, fun h => by cases h⟩
  · next inTrues =>
      refine (jmpNovalue_spec falses ground.small).lift ?_
      rintro _ c ⟨rfl, rfl⟩
      refine ⟨rfl, fun inFalses j member => ?_⟩
      simp only [List.any_eq_true, not_exists, not_and, Bool.not_eq_true',
        List.any_eq_false] at inTrues inFalses
      rcases List.mem_append.mp member with member | member
      · simpa using inTrues j member
      · simpa using inFalses j member

/-- `fs->lasttarget = fs->pc`. -/
theorem markTarget_spec {ls : LexState} {S : BCPos → Prop} {js : List BCPos} (ground : Ground ls S js)
    {lo : BCPos} (low : lo ≤ ls.fs.code.pc) :
    EmitSpec (liftM markTarget : EmitM Unit) ls fun _ ls' =>
      Move lo ls S js ls' S js ∧ ls'.fs.code.ins = ls.fs.code.ins ∧ ls'.fs.code.pc = ls.fs.code.pc ∧
        ls'.fs.code.lasttarget = ls.fs.code.pc ∧ ls'.fs.regs = ls.fs.regs ∧
        ls'.fs.consts = ls.fs.consts := by
  refine ⟨⟨⟨ground.pos, ground.small, ?_, fun _ => rfl, ground.allSettled, ground.unsettled,
    fun later => absurd later (Nat.lt_irrefl _), ground.nactvar, ground.freereg, ground.framesize⟩,
    (Frame.refl S js low).congr rfl rfl, le_rfl, fun _ member => .inl member,
    ⟨rfl, rfl, rfl, rfl, rfl, rfl, fun _ member => member⟩⟩, rfl, rfl, rfl, rfl, rfl⟩
  exact ground.here.of_eq le_rfl fun _ _ => rfl

section

variable {lo : BCPos} {ls : LexState} {S : BCPos → Prop} {js T F : List BCPos} {e : ExpDesc} {reg : BCReg}

/-- The jumps of a descriptor have been set: a run that takes one comes to the end
of the code with the value in `reg`. -/
structure Joined (lo : BCPos) (ls : LexState) (S : BCPos → Prop) (js T F : List BCPos) (reg : BCReg)
    (ls' : LexState) (S' : BCPos → Prop) (js' : List BCPos) : Prop where
  move : Move lo ls S js ls' S' js'
  regs : ls'.fs.regs = ls.fs.regs
  consts : ls'.fs.consts = ls.fs.consts
  tidy : Tidy ls.fs.code ls'.fs.code
  trues : ∀ (K : KTable) start j R v, j ∈ T → Exit K ls.fs.code S start j R (.bool true) v →
    Here K ls'.fs.code S' js' start (Function.update R reg v)
  falses : ∀ (K : KTable) start j R v, j ∈ F → Exit K ls.fs.code S start j R (.bool false) v →
    Here K ls'.fs.code S' js' start (Function.update R reg v)

/-- Where a jump of the descriptor that brings no value is led. -/
structure Defaults (ls : LexState) (S : BCPos → Prop) (reg : BCReg) (jfalse jtrue : BCPos) (j : BCPos) :
    Prop where
  isFalse : j < jfalse ∧ jfalse ≤ ls.fs.code.pc
  isTrue : j < jtrue ∧ jtrue ≤ ls.fs.code.pc
  runFalse : ∀ (K : KTable) R, Reach K ls.fs.code.ins S (jfalse, R)
    (ls.fs.code.pc, Function.update R reg (.bool false))
  runTrue : ∀ (K : KTable) R, Reach K ls.fs.code.ins S (jtrue, R)
    (ls.fs.code.pc, Function.update R reg (.bool true))

/-- The end of `expr_toreg` for a descriptor with jumps. -/
theorem patchBranches_spec (jfalse jtrue : BCPos) (ground : Ground ls S js) (trues : OpenList lo ls.fs.code S js e.t T)
    (falses : OpenList lo ls.fs.code S js e.f F) (apart : ∀ j ∈ T, j ∉ F) (low : lo ≤ ls.fs.code.pc)
    (isReg : reg < LJ_MAX_SLOTS)
    (defaults : ∀ j ∈ T ++ F, (ls.fs.code.ins (j - 1)).valued = false →
      Defaults ls S reg jfalse jtrue j) :
    EmitSpec (do
        let jend := (← getFs).code.pc
        markTarget
        jmpPatchval e.f jend reg jfalse
        jmpPatchval e.t jend reg jtrue) ls fun _ ls' =>
      ∃ S', Joined lo ls S js T F reg ls' S' js ∧ ls'.fs.code.pc = ls.fs.code.pc ∧
        KeepsFlow ls.fs.code.pc ls.fs.code.ins S ls'.fs.code.ins S' ∧
        (∀ p, S p → S' p) ∧ ls'.fs.code.lasttarget = ls.fs.code.pc ∧
        ∀ (K : KTable) start R, Here K ls.fs.code S js start R →
          Here K ls'.fs.code S' js start R := by
  rw [EmitSpec, wp_bind, wp_getFs]
  refine EmitSpec.bind (markTarget_spec ground low) ?_
  rintro _ ls₁ ⟨moved, sameIns, samePc, marked, regs₁, consts₁⟩
  have ground₁ := moved.ground
  have marked₁ : ls₁.fs.code.lasttarget = ls₁.fs.code.pc := by rw [marked, samePc]
  have inTrues (k : BCPos) (member : k ∈ T) := trues.threads.pending k member
  have inFalses (k : BCPos) (member : k ∈ F) := falses.threads.pending k member
  have trues₁ : Threads ls₁.fs.code e.t T :=
    trues.threads.of_eq samePc.ge fun j _ => congrFun sameIns j
  have falses₁ : Threads ls₁.fs.code e.f F :=
    falses.threads.of_eq samePc.ge fun j _ => congrFun sameIns j
  refine EmitSpec.bind (patchval_spec ground₁ marked₁ falses₁ falses.unsettled falses.notHere
    falses.after (by rw [samePc]; exact low) isReg samePc.ge (fun k member => (inFalses k member).inside)
    fun k member notValued => ?_) ?_
  · rw [sameIns] at notValued
    rw [samePc]
    exact (defaults k (List.mem_append_right _ member) notValued).isFalse
  rintro _ ls₂ ⟨S₂, resolved₂⟩
  have pc₂ : ls₂.fs.code.pc = ls.fs.code.pc := resolved₂.pc.trans samePc
  have marked₂ : ls₂.fs.code.lasttarget = ls₂.fs.code.pc := by
    rw [resolved₂.lasttarget, resolved₂.pc, marked₁]
  have open₂ (k : BCPos) (member : k ∈ T) : ¬S₂ k := by
    rw [resolved₂.settled k, not_or]
    exact ⟨trues.unsettled k member, apart k member⟩
  have same₂ (k : BCPos) (member : k ∈ T) : ls₂.fs.code.ins k = ls₁.fs.code.ins k :=
    resolved₂.jumps k (trues₁.pending k member).isJmp (trues₁.pending k member).real (apart k member)
  have trues₂ : Threads ls₂.fs.code e.t T := trues₁.of_eq resolved₂.pc.ge same₂
  have valued₂ (k : BCPos) (member : k ∈ T) (notValued : (ls₂.fs.code.ins (k - 1)).valued = false) :
      (ls.fs.code.ins (k - 1)).valued = false := by
    rwa [resolved₂.valued k (trues₁.pending k member) (apart k member), sameIns] at notValued
  refine EmitSpec.mono (patchval_spec resolved₂.move.ground marked₂ trues₂ open₂ trues.notHere
    trues.after (by rw [pc₂]; exact low) isReg pc₂.ge (fun k member => (inTrues k member).inside)
    fun k member notValued => ?_) ?_
  · rw [pc₂]
    exact (defaults k (List.mem_append_left _ member) (valued₂ k member notValued)).isTrue
  rintro _ ls' ⟨S', resolved⟩
  have pc' : ls'.fs.code.pc = ls.fs.code.pc := resolved.pc.trans pc₂
  have marked' : ls'.fs.code.lasttarget = ls'.fs.code.pc := by
    rw [resolved.lasttarget, resolved.pc, marked₂]
  have flow₂ : KeepsFlow ls.fs.code.pc ls₂.fs.code.ins S₂ ls'.fs.code.ins S' := by
    rw [← pc₂]
    exact resolved.flow
  have flow : KeepsFlow ls.fs.code.pc ls.fs.code.ins S ls'.fs.code.ins S' := by
    have first := resolved₂.flow
    rw [samePc, sameIns] at first
    exact first.trans flow₂
  have arrived {K : KTable} {start : Config} {R : RegFile}
      (reach : Reach K ls'.fs.code.ins S' start (ls.fs.code.pc, R)) : Here K ls'.fs.code S' js start R :=
    .inl ⟨by rw [pc']; exact reach, fun later => absurd later marked'.not_lt⟩
  have tidy : Tidy ls.fs.code ls₁.fs.code := by
    rw [Tidy, samePc, sameIns]
    exact .inr ⟨rfl, rfl, rfl⟩
  refine ⟨S', ⟨(moved.trans resolved₂.move le_rfl).trans resolved.move le_rfl, ?_, ?_,
    tidy.trans (resolved₂.tidy.trans resolved.tidy), ?_, ?_⟩, pc', flow,
    fun p isSettled => ?_, marked'.trans pc', fun K start R here => ?_⟩
  · rw [resolved.regs, resolved₂.regs, regs₁]
  · rw [resolved.consts, resolved₂.consts, consts₁]
  · intro K start j R v member exit
    have exit₂ := resolved₂.exits K start j R _ v (trues₁.pending j member) (apart j member)
      (by unfold Exit at exit ⊢; rwa [sameIns])
    rcases resolved.resolved K start j R _ v member exit₂ with ⟨-, reach⟩ | ⟨notValued, rfl, reach⟩
    · exact arrived reach
    · have default := defaults j (List.mem_append_left _ member) (valued₂ j member notValued)
      exact arrived (reach.trans ((default.runTrue K R).keep flow le_rfl))
  · intro K start j R v member exit
    have exit₁ : Exit K ls₁.fs.code S start j R (.bool false) v := by
      unfold Exit at exit ⊢
      rwa [sameIns]
    rcases resolved₂.resolved K start j R _ v member exit₁ with ⟨-, reach⟩ | ⟨notValued, rfl, reach⟩
    · exact arrived (reach.keep flow₂ le_rfl)
    · rw [sameIns] at notValued
      have default := defaults j (List.mem_append_right _ member) notValued
      refine arrived ((reach.keep flow₂ ?_).trans ((default.runFalse K R).keep flow le_rfl))
      exact default.isFalse.2
  · exact (resolved.settled p).mpr (.inl ((resolved₂.settled p).mpr (.inl isSettled)))
  · have here₁ : Here K ls₁.fs.code S js start R := by
      rcases here with ⟨reach, -⟩ | ⟨j, member, v, exit⟩
      · exact .inl ⟨by rw [samePc, sameIns]; exact reach, fun later => absurd later marked₁.not_lt⟩
      · exact .inr ⟨j, member, v, by unfold Exit at exit ⊢; rwa [sameIns]⟩
    exact resolved.here resolved₂.move.ground marked₂ trues.notHere
      (resolved₂.here ground₁ marked₁ falses.notHere here₁)

end

end TvmJit
