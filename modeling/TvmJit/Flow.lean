import TvmJit.JumpLists

/-! The flow of control through code under construction. Some jumps have no
target yet; a run that takes one of them leaves the code there, with the value
the test before it has found. -/

namespace TvmJit

open Relation

variable [Lua] {K : KTable}

/-! ## Steps between settled positions -/

/-- One step of code whose jumps in `settled` have their final target. Only jumps
forward are followed, and no instruction whose register is still open. -/
inductive Flow (K : KTable) (ins : BCPos → BCIns) (settled : BCPos → Prop) : Config → Config → Prop
  | load {pc : BCPos} {R : RegFile} {v : LuaValue} (real : (ins pc).a ≠ NO_REG)
      (value : valueOf K (ins pc) R = some v) :
      Flow K ins settled (pc, R) (pc + 1, Function.update R (ins pc).a v)
  | fill {pc : BCPos} {R : RegFile} (real : (ins pc).a ≠ NO_REG) (isKnil : (ins pc).op = .knil) :
      Flow K ins settled (pc, R) (pc + 1, nilled (ins pc) R)
  | skip {pc : BCPos} {R : RegFile} (real : (ins pc).a ≠ NO_REG ∨ (ins pc).copies = true)
      (cond : condOf K (ins pc) R = some false) : Flow K ins settled (pc, R) (pc + 2, R)
  | take {pc : BCPos} {R : RegFile} (real : (ins pc).a ≠ NO_REG)
      (cond : condOf K (ins pc) R = some true) (isSettled : settled (pc + 1))
      (isJmp : (ins (pc + 1)).op = .jmp) (ahead : pc + 1 < jumpTarget ins (pc + 1)) :
      Flow K ins settled (pc, R) (jumpTarget ins (pc + 1), copied (ins pc) R)
  | jump {pc : BCPos} {R : RegFile} (isSettled : settled pc) (isJmp : (ins pc).op = .jmp)
      (ahead : pc < jumpTarget ins pc) : Flow K ins settled (pc, R) (jumpTarget ins pc, R)

abbrev Reach (K : KTable) (ins : BCPos → BCIns) (settled : BCPos → Prop) : Config → Config → Prop :=
  ReflTransGen (Flow K ins settled)

/-- `Flow.load` for an instruction given by its parts. -/
theorem Flow.loads {ins : BCPos → BCIns} {S : BCPos → Prop} {pc : BCPos} {R : RegFile}
    {v : LuaValue} {i : BCIns} {reg : BCReg} (isIns : ins pc = i) (isA : i.a = reg)
    (real : reg ≠ NO_REG) (value : valueOf K i R = some v) :
    Flow K ins S (pc, R) (pc + 1, Function.update R reg v) := by
  subst isA isIns
  exact .load real value

theorem valueOf_isValue {i : BCIns} {R : RegFile} {v : LuaValue} (value : valueOf K i R = some v) :
    i.op ≠ .jmp ∧ i.op ≠ .knil ∧ condOf K i R = none ∧ i.copies = false := by
  unfold valueOf at value
  unfold condOf BCIns.copies
  cases isOp : i.op <;> simp_all [BCOp.arith]

theorem condOf_isTest {i : BCIns} {R : RegFile} {b : Bool} (cond : condOf K i R = some b) :
    i.op ≠ .jmp ∧ i.op ≠ .knil := by
  unfold condOf at cond
  cases isOp : i.op <;> simp_all

theorem Flow.forward {ins : BCPos → BCIns} {settled : BCPos → Prop} {p q : BCPos} {R R' : RegFile}
    (flow : Flow K ins settled (p, R) (q, R')) : p < q := by
  cases flow with
  | load => exact Nat.lt_succ_self p
  | fill => exact Nat.lt_succ_self p
  | skip => exact Nat.lt_succ_of_lt (Nat.lt_succ_self p)
  | take _ _ _ _ ahead => exact (Nat.lt_succ_self p).trans ahead
  | jump _ _ ahead => exact ahead

/-- The machine makes every step of the flow. -/
theorem Flow.runs {ins : BCPos → BCIns} {settled : BCPos → Prop} {before after : Config}
    (flow : Flow K ins settled before after) : Runs K ins before after := by
  cases flow with
  | @load pc R v real value =>
      obtain ⟨noJmp, noKnil, noCond, -⟩ := valueOf_isValue value
      have step : machineStep K ins (pc, R) = some (pc + 1, Function.update R (ins pc).a v) := by
        simp [machineStep, noJmp, noKnil, noCond, value]
      exact .single step
  | @fill pc R real isKnil =>
      have step : machineStep K ins (pc, R) = some (pc + 1, nilled (ins pc) R) := by
        simp [machineStep, isKnil]
      exact .single step
  | @skip pc R real cond =>
      obtain ⟨noJmp, noKnil⟩ := condOf_isTest cond
      have step : machineStep K ins (pc, R) = some (pc + 2, R) := by
        simp [machineStep, noJmp, noKnil, cond]
      exact .single step
  | @take pc R real cond isSettled isJmp ahead =>
      obtain ⟨noJmp, noKnil⟩ := condOf_isTest cond
      have test : machineStep K ins (pc, R) = some (pc + 1, copied (ins pc) R) := by
        simp [machineStep, noJmp, noKnil, cond]
      have jump : machineStep K ins (pc + 1, copied (ins pc) R) =
          some (jumpTarget ins (pc + 1), copied (ins pc) R) := by
        simp [machineStep, isJmp]
      exact .tail (.single test) jump
  | @jump pc R isSettled isJmp ahead =>
      have step : machineStep K ins (pc, R) = some (jumpTarget ins pc, R) := by
        simp [machineStep, isJmp]
      exact .single step

theorem Reach.runs {ins : BCPos → BCIns} {settled : BCPos → Prop} {before after : Config}
    (reach : Reach K ins settled before after) : Runs K ins before after := by
  induction reach with
  | refl => exact .refl
  | tail _ last induction => exact induction.trans last.runs

/-! ## Code that keeps the flow -/

/-- The steps from the positions before `m` are those of the other code too. -/
def KeepsFlow (m : BCPos) (ins : BCPos → BCIns) (settled : BCPos → Prop) (ins' : BCPos → BCIns)
    (settled' : BCPos → Prop) : Prop :=
  ∀ (K : KTable) p R after, p < m → Flow K ins settled (p, R) after →
    Flow K ins' settled' (p, R) after

theorem KeepsFlow.refl (m : BCPos) (ins : BCPos → BCIns) (settled : BCPos → Prop) :
    KeepsFlow m ins settled ins settled :=
  fun _ _ _ _ _ flow => flow

theorem KeepsFlow.trans {m : BCPos} {ins ins' ins'' : BCPos → BCIns}
    {settled settled' settled'' : BCPos → Prop} (first : KeepsFlow m ins settled ins' settled')
    (second : KeepsFlow m ins' settled' ins'' settled'') :
    KeepsFlow m ins settled ins'' settled'' :=
  fun K p R after below flow => second K p R after below (first K p R after below flow)

theorem KeepsFlow.mono {m m' : BCPos} {ins ins' : BCPos → BCIns} {settled settled' : BCPos → Prop}
    (keeps : KeepsFlow m ins settled ins' settled') (le : m' ≤ m) :
    KeepsFlow m' ins settled ins' settled' :=
  fun K p R after below flow => keeps K p R after (below.trans_le le) flow

/-- Since the flow goes forward, a run up to `q` depends on the code before `q`. -/
theorem Reach.keep {m : BCPos} {ins ins' : BCPos → BCIns} {settled settled' : BCPos → Prop}
    (keeps : KeepsFlow m ins settled ins' settled') {start : Config} {q : BCPos} {R : RegFile}
    (reach : Reach K ins settled start (q, R)) (le : q ≤ m) : Reach K ins' settled' start (q, R) := by
  generalize isLast : (q, R) = last at reach
  induction reach generalizing q R with
  | refl => exact .refl
  | @tail before after _ step induction =>
      subst isLast
      obtain ⟨p, R'⟩ := before
      have below := step.forward
      exact (induction (below.le.trans le) rfl).tail (keeps K p R' _ (below.trans_le le) step)

theorem condOf_patchTest {i : BCIns} {reg a : Nat} {R : RegFile} (copies : i.copies = true) :
    condOf K (i.patchTest reg a) R = condOf K i R := by
  unfold BCIns.patchTest
  rw [if_pos copies]
  simp only [BCIns.copies, Bool.or_eq_true, beq_iff_eq] at copies
  split
  · rcases copies with isOp | isOp <;> simp [condOf, BCIns.setA, isOp]
  · rcases copies with isOp | isOp <;>
      simp [condOf, BCIns.setA, BCIns.setOp, isOp, BCOp.shift, BCOp.code, BCOp.ofCode, BCOp.all] <;> rfl

omit [Lua] in
/-- A copying test after the patch still copies, or has an A operand of no meaning. -/
theorem patchTest_real {i : BCIns} (copies : i.copies = true) (reg a : Nat) :
    (i.patchTest reg a).a ≠ NO_REG ∨ (i.patchTest reg a).copies = true := by
  unfold BCIns.patchTest
  rw [if_pos copies]
  split
  · exact .inr copies
  · exact .inl (by simp [BCIns.setA, NO_REG])

omit [Lua] in
theorem copied_patchTest {i : BCIns} {reg a : Nat} (copies : i.copies = true) (usable : Usable reg)
    {R : RegFile} : (i.patchTest reg a).a ≠ NO_REG ∧ copied (i.patchTest reg a) R =
      if true = true ∧ reg ≠ NO_REG then Function.update R reg (R i.d) else R := by
  unfold BCIns.patchTest
  rw [if_pos copies]
  split
  · next other =>
      have isReg : reg < 250 := usable.resolve_left other.1
      have isA : (i.setA reg).a = reg := Nat.mod_eq_of_lt (by lia)
      have stillCopies : (i.setA reg).copies = true := copies
      rw [copied, if_pos stillCopies, isA, if_pos ⟨rfl, other.1⟩]
      exact ⟨other.1, rfl⟩
  · next same =>
      have noCopy : ((i.setOp (i.op.shift .istc .ist)).setA 0).copies = false := by
        rcases BCIns.shift_copies copies with isOp | isOp <;>
          simp [BCIns.copies, BCIns.setA, BCIns.setOp, isOp]
      refine ⟨by simp [BCIns.setA, NO_REG], ?_⟩
      rw [copied, if_neg (by simp [noCopy])]
      split
      · next isReg =>
          have isD : reg = i.d := by
            by_contra other
            exact same ⟨isReg.2, other⟩
          rw [isD, Function.update_eq_self]
      · rfl

omit [Lua] in
theorem BCIns.patchTest_notJmp {i : BCIns} {reg a : Nat} (notJmp : i.op ≠ .jmp) (isReg : reg ≠ NO_REG) :
    (i.patchTest reg a).op ≠ .jmp := by
  unfold patchTest
  split
  · next copies =>
      split
      · exact notJmp
      · rcases shift_copies copies with isOp | isOp <;> simp [setA, setOp, isOp]
  · split
    · exact notJmp
    · exact notJmp

omit [Lua] in
/-- Only a constant that is dropped becomes a jump. -/
theorem BCIns.patchTest_jmp {i : BCIns} {reg a : Nat} (notJmp : i.op ≠ .jmp)
    (isJmp : (i.patchTest reg a).op = .jmp) (small : a < NO_REG) : (i.patchTest reg a).a < NO_REG := by
  unfold patchTest at *
  by_cases copies : i.copies = true
  · rw [if_pos copies] at isJmp
    split at isJmp
    · exact absurd isJmp notJmp
    · have isTest := shift_copies copies
      simp only [setA, setOp] at isJmp
      rcases isTest with isOp | isOp <;> simp [isOp] at isJmp
  · rw [if_neg copies] at isJmp ⊢
    split at isJmp
    · next hole =>
        rw [if_pos hole]
        split at isJmp
        · next noReg =>
            rw [if_pos noReg, aj, ad_a (small.trans (by decide))]
            exact small
        · exact absurd isJmp notJmp
    · exact absurd isJmp notJmp

/-- Setting jumps that are not settled and patching their tests keeps the flow. -/
theorem keepsFlow_of {m : BCPos} {ins ins' : BCPos → BCIns} {settled settled' : BCPos → Prop}
    (allowed : ∀ p, settled p → settled' p ∧ ins' p = ins p)
    (same : ∀ p < m, ins' p = ins p ∨ ((ins p).op = .jmp ∧ ¬settled p) ∨
      (¬settled (p + 1) ∧ ∃ reg a, ins' p = (ins p).patchTest reg a)) :
    KeepsFlow m ins settled ins' settled' := by
  intro K p R after below flow
  rcases same p below with same | ⟨isJmp, unsettled⟩ | ⟨unsettled, reg, a, patched⟩
  · cases flow with
    | load real value =>
        rw [← same] at real value ⊢
        exact .load real value
    | fill real isKnil =>
        rw [← same] at real isKnil ⊢
        exact .fill real isKnil
    | skip real cond =>
        rw [← same] at real cond
        exact .skip real cond
    | take real cond isSettled isJmp ahead =>
        have ⟨settledNext, sameNext⟩ := allowed _ isSettled
        rw [← jumpTarget_congr sameNext] at ahead ⊢
        rw [← sameNext] at isJmp
        rw [← same] at real cond ⊢
        exact .take real cond settledNext isJmp ahead
    | jump isSettled isJmp ahead =>
        rw [← jumpTarget_congr same] at ahead ⊢
        rw [← same] at isJmp
        exact .jump (allowed _ isSettled).1 isJmp ahead
  · cases flow with
    | load _ value => exact absurd isJmp (valueOf_isValue value).1
    | fill _ isKnil => simp [isJmp] at isKnil
    | skip _ cond => exact absurd isJmp (condOf_isTest cond).1
    | take _ cond => exact absurd isJmp (condOf_isTest cond).1
    | jump isSettled => exact absurd isSettled unsettled
  · -- A test that is not passed leads on as before, whatever its register.
    cases flow with
    | load real value =>
        have notValued : (ins p).valued = false := by
          simp [BCIns.valued, real, (valueOf_isValue value).2.2.2]
        rw [BCIns.patchTest_of_not_valued notValued] at patched
        rw [← patched] at real value ⊢
        exact .load real value
    | fill real isKnil =>
        have notValued : (ins p).valued = false := by
          simp [BCIns.valued, BCIns.copies, real, isKnil]
        rw [BCIns.patchTest_of_not_valued notValued] at patched
        rw [← patched] at real isKnil ⊢
        exact .fill real isKnil
    | skip real cond =>
        by_cases copies : (ins p).copies = true
        · rw [← condOf_patchTest copies, ← patched] at cond
          exact .skip (patched ▸ patchTest_real copies reg a) cond
        · have notValued : (ins p).valued = false := by
            simp [BCIns.valued, copies, real.resolve_right copies]
          rw [BCIns.patchTest_of_not_valued notValued] at patched
          rw [← patched] at real cond
          exact .skip real cond
    | take _ _ isSettled => exact absurd isSettled unsettled
    | jump isSettled isJmp ahead =>
        have same := (allowed _ isSettled).2
        rw [← jumpTarget_congr same] at ahead ⊢
        rw [← same] at isJmp
        exact .jump (allowed _ isSettled).1 isJmp ahead

/-! ## Leaving the code -/

/-- The value a run brings along when it takes the jump after `i`: the one the
instruction finds, or `dflt` where it finds none. -/
def exitValue (K : KTable) (i : BCIns) (R : RegFile) (dflt : LuaValue) : Option LuaValue :=
  if i.copies then
    if i.a = NO_REG ∧ condOf K i R = some true then some (R i.d) else none
  else if i.a = NO_REG then valueOf K i R
  else if condOf K i R = some true then some dflt else none

/-- A run takes the jump at `j`, which has no target yet. -/
def Exit (K : KTable) (c : Code) (S : BCPos → Prop) (start : Config) (j : BCPos) (R : RegFile)
    (dflt v : LuaValue) : Prop :=
  (Reach K c.ins S start (j - 1, R) ∧ exitValue K (c.ins (j - 1)) R dflt = some v) ∨
    (Reach K c.ins S start (j, R) ∧ (c.ins (j - 1)).valued = false ∧ v = dflt)

/-- `KPRI` of nil or `KNIL`, which the emitter may extend. -/
def BCIns.setsNil (i : BCIns) : Prop := (i.op = .kpri ∧ i.d = 0) ∨ i.op = .knil

/-- A run arrives at the end of the code: by the last instruction or by a jump
that waits for the next one. -/
def Here (K : KTable) (c : Code) (S : BCPos → Prop) (js : List BCPos) (start : Config)
    (R : RegFile) : Prop :=
  (Reach K c.ins S start (c.pc, R) ∧
    (c.lasttarget < c.pc → (c.ins (c.pc - 1)).setsNil →
      ∃ R', Reach K c.ins S start (c.pc - 1, R') ∧
        Flow K c.ins S (c.pc - 1, R') (c.pc, R))) ∨
    ∃ j ∈ js, ∃ v, Exit K c S start j R (.bool true) v

theorem exitValue_op {i : BCIns} {R : RegFile} {dflt v : LuaValue}
    (value : exitValue K i R dflt = some v) : i.op ≠ .jmp := by
  unfold exitValue at value
  split at value
  · next copies =>
      intro isJmp
      simp [BCIns.copies, isJmp] at copies
  · split at value
    · exact (valueOf_isValue value).1
    · split at value
      · next cond => exact (condOf_isTest cond).1
      · cases value

/-- The code before `m` is as it was, but for the jumps `js` and their tests, and
for the instruction just before `m`. -/
structure Frame (m : BCPos) (c : Code) (S : BCPos → Prop) (js : List BCPos) (c' : Code)
    (S' : BCPos → Prop) : Prop where
  pc : m ≤ c'.pc
  settled : ∀ p, S p → S' p ∧ c'.ins p = c.ins p
  pending : ∀ j < m, c.Pending j → ¬S j → j ∉ js → ¬S' j ∧ c'.ins j = c.ins j
  jumps : ∀ j < m, c.Pending j → c'.Pending j
  tests : ∀ p, p + 1 < m → p ∉ js → p + 1 ∉ js → c'.ins p = c.ins p
  flow : KeepsFlow (m - 1) c.ins S c'.ins S'

theorem Frame.trans {m m' : BCPos} {c c' c'' : Code} {S S' S'' : BCPos → Prop}
    {js js' : List BCPos} (first : Frame m c S js c' S')
    (second : Frame m' c' S' js' c'' S'') (le : m ≤ m')
    (older : ∀ j ∈ js', j < m → j ∈ js) : Frame m c S js c'' S'' where
  pc := le.trans second.pc
  settled p isSettled :=
    have ⟨settled₁, same₁⟩ := first.settled p isSettled
    have ⟨settled₂, same₂⟩ := second.settled p settled₁
    ⟨settled₂, same₂.trans same₁⟩
  pending j below pending unsettled other :=
    have ⟨unsettled₁, same₁⟩ := first.pending j below pending unsettled other
    have ⟨unsettled₂, same₂⟩ := second.pending j (below.trans_le le) (first.jumps j below pending)
      unsettled₁ fun member => other (older j member below)
    ⟨unsettled₂, same₂.trans same₁⟩
  jumps j below pending := second.jumps j (below.trans_le le) (first.jumps j below pending)
  tests p below other otherNext :=
    (second.tests p (below.trans_le le)
      (fun member => other (older p member (lt_trans (Nat.lt_succ_self p) below)))
      fun member => otherNext (older _ member below)).trans (first.tests p below other otherNext)
  flow := first.flow.trans (second.flow.mono (Nat.sub_le_sub_right le 1))

theorem Frame.mono {m m' : BCPos} {c c' : Code} {S S' : BCPos → Prop} {js : List BCPos}
    (frame : Frame m c S js c' S') (le : m' ≤ m) :
    Frame m' c S js c' S' where
  pc := le.trans frame.pc
  settled := frame.settled
  pending j below := frame.pending j (below.trans_le le)
  jumps j below := frame.jumps j (below.trans_le le)
  tests p below := frame.tests p (below.trans_le le)
  flow := frame.flow.mono (Nat.sub_le_sub_right le 1)

/-- A list of other jumps is as it was. -/
theorem Threads.frame {m : BCPos} {c c' : Code} {S S' : BCPos → Prop} {js ks : List BCPos}
    {l : BCPos} (threads : Threads c l ks) (frame : Frame m c S js c' S')
    (longer : c.pc ≤ c'.pc) (below : ∀ k ∈ ks, k < m) (unsettled : ∀ k ∈ ks, ¬S k)
    (apart : ∀ k ∈ ks, k ∉ js) : Threads c' l ks :=
  threads.of_eq longer fun k member => (frame.pending k (below k member) (threads.pending k member)
    (unsettled k member) (apart k member)).2

theorem Exit.frame {m : BCPos} {c c' : Code} {S S' : BCPos → Prop} {js : List BCPos}
    {start : Config} {j : BCPos} {R : RegFile} {dflt v : LuaValue}
    (exit : Exit K c S start j R dflt v) (frame : Frame m c S js c' S')
    (pending : c.Pending j) (below : j < m) (apart : j ∉ js) (allJumps : ∀ k ∈ js, c.Pending k) :
    Exit K c' S' start j R dflt v := by
  have pos := pending.pos
  have next : j - 1 + 1 = j := Nat.sub_add_cancel pos
  rcases exit with ⟨reach, value⟩ | ⟨reach, notValued, rfl⟩
  · have noJump : j - 1 ∉ js := fun member => exitValue_op value (allJumps _ member).isJmp
    have same : c'.ins (j - 1) = c.ins (j - 1) :=
      frame.tests (j - 1) (next.symm ▸ below) noJump (next.symm ▸ apart)
    refine .inl ⟨reach.keep frame.flow (Nat.sub_le_sub_right below.le 1), ?_⟩
    rw [same]
    exact value
  · refine .inr ⟨reach.keep frame.flow (Nat.le_sub_one_of_lt below), ?_, rfl⟩
    by_cases isJump : j - 1 ∈ js
    · have inside : j - 1 < m := lt_of_le_of_lt (Nat.sub_le _ _) below
      exact (frame.jumps _ inside (allJumps _ isJump)).not_valued
    · rw [frame.tests (j - 1) (next.symm ▸ below) isJump (next.symm ▸ apart)]
      exact notValued

/-! ## Giving jumps their targets -/

theorem valueOf_setA {i : BCIns} {R : RegFile} (reg : Nat) : valueOf K (i.setA reg) R = valueOf K i R :=
  rfl

/-- A run that takes the jump at `j` comes to its target, the value it brings
along stored to `reg`. -/
theorem Exit.resolve {c c' : Code} {S S' : BCPos → Prop} {start : Config} {j : BCPos} {R : RegFile}
    {dflt v : LuaValue} {reg a : Nat} (exit : Exit K c S start j R dflt v)
    (flow : KeepsFlow j c.ins S c'.ins S') (pos : 1 ≤ j) (usable : Usable reg) (small : a < NO_REG)
    (patched : (c.ins (j - 1)).op ≠ .jmp → c'.ins (j - 1) = (c.ins (j - 1)).patchTest reg a)
    (dropped : (c.ins (j - 1)).op ≠ .jmp → (c'.ins (j - 1)).op = .jmp → S' (j - 1))
    (isSettled : S' j) (isJmp : (c'.ins j).op = .jmp) (ahead : j < jumpTarget c'.ins j) :
    Reach K c'.ins S' start (jumpTarget c'.ins j,
        if (c.ins (j - 1)).valued = true ∧ reg ≠ NO_REG then Function.update R reg v else R) ∧
      ((c.ins (j - 1)).valued = false → v = dflt) := by
  have next : j - 1 + 1 = j := Nat.sub_add_cancel pos
  rcases exit with ⟨reach, value⟩ | ⟨reach, notValued, rfl⟩
  · have notJmp := exitValue_op value
    have toTest := reach.keep flow (Nat.sub_le j 1)
    replace patched := patched notJmp
    replace dropped := dropped notJmp
    generalize isTest : c.ins (j - 1) = i at *
    unfold exitValue at value
    split at value
    · next copies =>
        -- A copying test: now a test that copies to `reg`, or copies nothing.
        split at value
        · next taken =>
            obtain ⟨hole, cond⟩ := taken
            obtain rfl := Option.some.inj value
            have isValued : i.valued = true := by simp [BCIns.valued, copies]
            refine ⟨?_, fun notValued => by simp [isValued] at notValued⟩
            have cond' : condOf K (c'.ins (j - 1)) R = some true := by
              rw [patched, condOf_patchTest copies, cond]
            have copy : (c'.ins (j - 1)).a ≠ NO_REG ∧ copied (c'.ins (j - 1)) R =
                if i.valued = true ∧ reg ≠ NO_REG then Function.update R reg (R i.d) else R := by
              rw [patched, isValued]
              exact copied_patchTest copies usable
            rw [← copy.2, ← next]
            rw [← next] at isSettled isJmp ahead
            exact toTest.tail (.take copy.1 cond' isSettled isJmp ahead)
        · cases value
    · next noCopy =>
      split at value
      · next hole =>
          -- A constant: now loaded to `reg`, or dropped.
          have isValued : i.valued = true := by simp [BCIns.valued, hole]
          refine ⟨?_, fun notValued => by simp [isValued] at notValued⟩
          by_cases noReg : reg = NO_REG
          · have isDropped : c'.ins (j - 1) = .aj .jmp a 0 := by
              simp [patched, BCIns.patchTest, noCopy, hole, noReg]
            have toJump : Reach K c'.ins S' start (j, R) := by
              have target : jumpTarget c'.ins (j - 1) = j := by
                rw [jumpTarget, isDropped, BCIns.aj_next (small.trans (by decide))]
                lia
              have isJmp : (c'.ins (j - 1)).op = .jmp := by rw [isDropped]; rfl
              have step : Flow K c'.ins S' (j - 1, R) (jumpTarget c'.ins (j - 1), R) :=
                .jump (dropped isJmp) isJmp (by rw [target]; lia)
              rw [target] at step
              exact toTest.tail step
            simp only [noReg, ne_eq, not_true, and_false, if_false]
            exact toJump.tail (.jump isSettled isJmp ahead)
          · have isReg : reg < LJ_MAX_SLOTS := usable.resolve_left noReg
            have isLoad : c'.ins (j - 1) = i.setA reg := by
              simp [patched, BCIns.patchTest, noCopy, hole, noReg]
            have isA : (i.setA reg).a = reg := by
              simp only [BCIns.setA, LJ_MAX_SLOTS] at isReg ⊢
              lia
            have step : Flow K c'.ins S' (j - 1, R) (j - 1 + 1, Function.update R (c'.ins (j - 1)).a v) :=
              .load (by rw [isLoad, isA]; exact noReg) (by rw [isLoad, valueOf_setA, value])
            rw [next, isLoad, isA] at step
            simp only [isValued, noReg, ne_eq, not_false_eq_true, and_self, if_true]
            exact (toTest.tail step).tail (.jump isSettled isJmp ahead)
      · next real =>
          split at value
          · next cond =>
              obtain rfl := Option.some.inj value
              have notValued : i.valued = false := by simp [BCIns.valued, noCopy, real]
              rw [BCIns.patchTest_of_not_valued notValued] at patched
              refine ⟨?_, fun _ => rfl⟩
              have copy : copied (c'.ins (j - 1)) R = R := by simp [copied, patched, noCopy]
              simp only [notValued, Bool.false_eq_true, false_and, if_false]
              rw [← next] at isSettled isJmp ahead
              have step : Flow K c'.ins S' (j - 1, R) (jumpTarget c'.ins (j - 1 + 1), copied (c'.ins (j - 1)) R) :=
                .take (by rw [patched]; exact real) (by rw [patched]; exact cond) isSettled isJmp ahead
              rw [copy, next] at step
              exact toTest.tail step
          · cases value
  · refine ⟨?_, fun _ => rfl⟩
    simp only [notValued, Bool.false_eq_true, false_and, if_false]
    exact (reach.keep flow le_rfl).tail (.jump isSettled isJmp ahead)

/-! ## Adding an instruction -/

/-- The jumps in `S` have their target. -/
def AllSettled (c : Code) (S : BCPos → Prop) : Prop :=
  ∀ p, S p → p < c.pc ∧ (c.ins p).op = .jmp ∧ (c.ins p).a < NO_REG

/-- The jumps settled once an instruction has been added. -/
def settledAfter (c : Code) (S : BCPos → Prop) (js : List BCPos) (c' : Code) (p : BCPos) : Prop :=
  S p ∨ p ∈ js ∨ (p + 1 ∈ js ∧ (c.ins p).op ≠ .jmp ∧ (c'.ins p).op = .jmp)

section

variable {c c' : Code} {S : BCPos → Prop} {js : List BCPos} {i : BCIns}

omit [Lua] in
theorem Pushed.jump_eq (pushed : Pushed c js i c') {p : BCPos} (inside : p < c.pc)
    (isJmp : (c.ins p).op = .jmp) (real : (c.ins p).a < NO_REG) (other : p ∉ js) :
    c'.ins p = c.ins p := by
  by_cases next : p + 1 ∈ js
  · have notValued : (c.ins p).valued = false := by
      simp [BCIns.valued, BCIns.copies, isJmp, real.ne]
    rw [pushed.tests p other next, BCIns.patchTest_of_not_valued notValued]
  · exact pushed.others p inside other next

theorem Pushed.keepsFlow (pushed : Pushed c js i c') (here : Threads c c.jpc js)
    (allSettled : AllSettled c S) (unsettled : ∀ j ∈ js, ¬S j) :
    KeepsFlow c.pc c.ins S c'.ins (settledAfter c S js c') := by
  refine keepsFlow_of (fun p isSettled => ⟨.inl isSettled, ?_⟩) fun p below => ?_
  · have ⟨inside, isJmp, real⟩ := allSettled p isSettled
    exact pushed.jump_eq inside isJmp real fun member => unsettled p member isSettled
  · by_cases isJump : p ∈ js
    · exact .inr (.inl ⟨(here.pending p isJump).isJmp, unsettled p isJump⟩)
    · by_cases next : p + 1 ∈ js
      · exact .inr (.inr ⟨unsettled _ next, _, _, pushed.tests p isJump next⟩)
      · exact .inl (pushed.others p below isJump next)

theorem Pushed.frame (pushed : Pushed c js i c') (here : Threads c c.jpc js)
    (allSettled : AllSettled c S) (unsettled : ∀ j ∈ js, ¬S j) :
    Frame c.pc c S js c' (settledAfter c S js c') where
  pc := by rw [pushed.pc]; exact Nat.le_succ _
  settled p isSettled := by
    have ⟨inside, isJmp, real⟩ := allSettled p isSettled
    exact ⟨.inl isSettled, pushed.jump_eq inside isJmp real fun member =>
      unsettled p member isSettled⟩
  pending j below pending notSettled other := by
    refine ⟨?_, pushed.jump_eq below pending.isJmp pending.real other⟩
    rintro (isSettled | member | ⟨-, notJmp, -⟩)
    · exact notSettled isSettled
    · exact other member
    · exact notJmp pending.isJmp
  jumps j below pending := by
    by_cases member : j ∈ js
    · exact pushed.jumps j member
    · exact pending.of_eq (by rw [pushed.pc]; exact Nat.le_succ _)
        (pushed.jump_eq below pending.isJmp pending.real member)
  tests p below other otherNext :=
    pushed.others p (lt_trans (Nat.lt_succ_self p) below) other otherNext
  flow := (pushed.keepsFlow here allSettled unsettled).mono (Nat.sub_le _ _)

omit [Lua] in
theorem Pushed.allSettled (pushed : Pushed c js i c') (here : Threads c c.jpc js)
    (allSettled : AllSettled c S) (unsettled : ∀ j ∈ js, ¬S j) :
    AllSettled c' (settledAfter c S js c') := by
  have longer : c.pc < c'.pc := by rw [pushed.pc]; exact Nat.lt_succ_self _
  rintro p (isSettled | member | ⟨next, notJmp, isJmp⟩)
  · have ⟨inside, isJmp, real⟩ := allSettled p isSettled
    rw [pushed.jump_eq inside isJmp real fun member => unsettled p member isSettled]
    exact ⟨inside.trans longer, isJmp, real⟩
  · have pending := pushed.jumps p member
    exact ⟨pending.inside, pending.isJmp, pending.real⟩
  · -- The test of a dropped constant has become a jump.
    have inside := (here.pending _ next).inside
    have notMember : p ∉ js := fun member => notJmp (here.pending p member).isJmp
    refine ⟨(lt_trans (Nat.lt_succ_self p) inside).trans longer, isJmp, ?_⟩
    have patched := pushed.tests p notMember next
    rw [patched] at isJmp ⊢
    exact BCIns.patchTest_jmp notJmp isJmp (here.pending _ next).real

/-- Every run that arrives at the end of the code arrives at the new instruction. -/
theorem Pushed.arrive (pushed : Pushed c js i c') (here : Threads c c.jpc js)
    (allSettled : AllSettled c S) (unsettled : ∀ j ∈ js, ¬S j) {start : Config} {R : RegFile}
    (arrives : Here K c S js start R) :
    Reach K c'.ins (settledAfter c S js c') start (c.pc, R) := by
  have flow := pushed.keepsFlow here allSettled unsettled
  rcases arrives with ⟨reach, -⟩ | ⟨j, member, v, exit⟩
  · exact reach.keep flow le_rfl
  · have pending := here.pending j member
    have next : j - 1 + 1 = j := Nat.sub_add_cancel pending.pos
    have notMember (notJmp : (c.ins (j - 1)).op ≠ .jmp) : j - 1 ∉ js :=
      fun member => notJmp (here.pending _ member).isJmp
    have patched (notJmp : (c.ins (j - 1)).op ≠ .jmp) :
        c'.ins (j - 1) = (c.ins (j - 1)).patchTest NO_REG (c.ins j).a := by
      have tests := pushed.tests (j - 1) (notMember notJmp) (next.symm ▸ member)
      rwa [next] at tests
    have arrived := (exit.resolve (flow.mono pending.inside.le) pending.pos (.inl rfl) pending.real
      patched (fun notJmp isJmp => .inr (.inr ⟨next.symm ▸ member, notJmp, isJmp⟩))
      (.inr (.inl member)) (pushed.jumps j member).isJmp
      (by rw [pushed.target j member]; exact pending.inside)).1
    rw [pushed.target j member] at arrived
    simpa using arrived

end

end TvmJit
