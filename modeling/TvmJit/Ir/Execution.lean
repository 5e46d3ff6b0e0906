import TvmJit.Ir.Dce

/-! Running the instructions of a trace on a machine of which only the laws are known, and what
dead-code elimination keeps of the runs. -/

namespace TvmJit

open Function JitState

/-- The instruction without its mark and its link. -/
def IRIns.bare (ir : IRIns) : IRIns := { ir with t := irt_clearmark ir.t, prev := 0 }

/-! ## Machines -/

/-- What instructions do: they leave the trace, or have a value and a memory behind them. -/
structure Machine (Value Memory : Type) where
  exec : IRIns → (IRRef → Value) → Memory → Option (Value × Memory)
  /-- Memories that are the same, but for objects that nothing refers to. -/
  same : Memory → Memory → Prop
  equivalence : Equivalence same
  operands : ∀ ir (regs regs' : IRRef → Value) mem mem', regs ir.op1.toNat = regs' ir.op1.toNat →
    regs ir.op2.toNat = regs' ir.op2.toNat → same mem mem' →
    Option.Rel (fun result result' => result.1 = result'.1 ∧ same result.2 result'.2)
      (exec ir regs mem) (exec ir regs' mem')
  guard : ∀ ir regs mem, exec ir regs mem = none → irt_isguard ir.t
  quiet : ∀ ir regs mem result, ir_sideeff ir = false → exec ir regs mem = some result → same mem result.2

/-- A trace that is executed, or has been left at an instruction. -/
inductive Execution (Value Memory : Type)
  | running (regs : IRRef → Value) (mem : Memory)
  | left (ins : IRRef) (regs : IRRef → Value) (mem : Memory)

section

variable {Value Memory : Type} (machine : Machine Value Memory) (J : JitState)

/-- One more instruction. -/
def Execution.next (ins : IRRef) : Execution Value Memory → Execution Value Memory
  | running regs mem =>
      match machine.exec (J.IR ins).bare regs mem with
      | some (value, mem) => running (update regs ins value) mem
      | none => left ins regs mem
  | left ins regs mem => left ins regs mem

/-- The first instructions of a trace. -/
def execute (regs : IRRef → Value) (mem : Memory) : Nat → Execution Value Memory
  | 0 => .running regs mem
  | n + 1 => (execute regs mem n).next machine J (REF_FIRST + n)

end

/-! ## Traces -/

/-- The IR of a trace with its snapshots. Operands come before the instructions that have them. -/
structure TraceIR where
  J : JitState
  snap : List (List IRRef1)
  base : REF_FIRST ≤ J.nins
  operands : ∀ ins, REF_FIRST ≤ ins → ins < J.nins → ∀ ref, (J.IR ins).Operand ref → ref < ins
  snapshots : ∀ ref, InSnap snap ref → ref < J.nins

/-- Nothing needs the instruction, and it has no side effect. -/
def Dead (J : JitState) (snap : List (List IRRef1)) (ref : IRRef) : Prop :=
  ¬Used J snap ref ∧ ir_sideeff (J.IR ref) = false

/-! ## Bare instructions -/

theorem IRIns.bare_eq {ir ir' : IRIns} (op12 : ir'.op12 = ir.op12) (o : ir'.o = ir.o)
    (t : irt_clearmark ir'.t = irt_clearmark ir.t) : ir'.bare = ir.bare := by
  rw [IRIns.bare, IRIns.bare, op12, o, t]

theorem ir_sideeff_bare (ir : IRIns) : ir_sideeff ir.bare = ir_sideeff ir := ir_sideeff_clearmark ir

theorem sideeff_congr {ir ir' : IRIns} (same : ir'.bare = ir.bare) : ir_sideeff ir' = ir_sideeff ir := by
  rw [← ir_sideeff_bare, same, ir_sideeff_bare]

theorem operand_congr {ir ir' : IRIns} (same : ir'.bare = ir.bare) (ref : IRRef) :
    ir'.Operand ref ↔ ir.Operand ref := by
  have op12 : ir'.bare.op12 = ir.bare.op12 := congrArg IRIns.op12 same
  change ir'.op12 = ir.op12 at op12
  rw [IRIns.Operand, IRIns.Operand, IRIns.op1, IRIns.op2, op12]
  rfl

section

variable {J : JitState} {ref r : IRRef}

theorem bare_setType {t : IRType1} (same : irt_clearmark t = irt_clearmark (J.IR ref).t) :
    ((J.setIR ref { J.IR ref with t }).IR r).bare = (J.IR r).bare := by
  rw [IR_setIR]
  split
  · next isRef =>
      rw [isRef]
      exact IRIns.bare_eq rfl rfl same
  · rfl

theorem bare_markRef (J : JitState) (ref r : IRRef) : ((J.markRef ref).IR r).bare = (J.IR r).bare := by
  have cleared : ∀ t : IRType1, irt_clearmark (irt_setmark t) = irt_clearmark t := by decide
  rw [JitState.markRef]
  split
  · exact bare_setType (cleared _)
  · rfl

theorem bare_markOperands (J : JitState) (ir : IRIns) (r : IRRef) : ((markOperands J ir).IR r).bare = (J.IR r).bare :=
  (bare_markRef _ _ r).trans (bare_markRef J _ r)

theorem ir_markRef (J : JitState) (ref : IRRef) (low : r < REF_FIRST) : (J.markRef ref).ir r = J.ir r := by
  rw [JitState.markRef]
  split
  · next above =>
      rw [JitState.setMark, JitState.setIR]
      exact update_of_ne (Nat.ne_of_lt (Nat.lt_of_lt_of_le low above)) ..
  · rfl

theorem ir_markOperands (J : JitState) (ir : IRIns) (low : r < REF_FIRST) : (markOperands J ir).ir r = J.ir r :=
  (ir_markRef _ _ low).trans (ir_markRef J _ low)

theorem bare_marksnap (J : JitState) (snap : List (List IRRef1)) (r : IRRef) :
    ((dce_marksnap J snap).IR r).bare = (J.IR r).bare := by
  rw [dce_marksnap]
  induction snap.flatten generalizing J with
  | nil => rfl
  | cons entry entries induction => exact (induction _).trans (bare_markRef J entry.toNat r)

theorem ir_marksnap (J : JitState) (snap : List (List IRRef1)) (low : r < REF_FIRST) :
    (dce_marksnap J snap).ir r = J.ir r := by
  rw [dce_marksnap]
  induction snap.flatten generalizing J with
  | nil => rfl
  | cons entry entries induction => exact (induction _).trans (ir_markRef J entry.toNat low)

end

/-! ## The pass -/

section

variable (J₀ : JitState) (snap : List (List IRRef1))

/-- The instructions when the pass has come down to `bound`. -/
structure Swept (bound : IRRef) (J : JitState) (pchain : PChain) : Prop where
  nins : J.nins = J₀.nins
  constants : ∀ ref, ref < REF_FIRST → J.ir ref = J₀.ir ref
  outside : ∀ ref, J₀.nins ≤ ref → irt_ismarked (J.IR ref).t → irt_ismarked (J₀.IR ref).t
  below : ∀ ref, ref < bound → (J.IR ref).bare = (J₀.IR ref).bare
  marks : ∀ ref, REF_FIRST ≤ ref → ref < bound → (irt_ismarked (J.IR ref).t = true ↔ MarkedFrom J₀ snap bound ref)
  unmarked : ∀ ref, bound ≤ ref → ref < J₀.nins → irt_ismarked (J.IR ref).t = false
  kept : ∀ ref, bound ≤ ref → ref < J₀.nins → ¬Dead J₀ snap ref → (J.IR ref).bare = (J₀.IR ref).bare
  removed : ∀ ref, bound ≤ ref → ref < J₀.nins → Dead J₀ snap ref → (J.IR ref).bare = ⟨0, IRT_NIL, .nop, 0⟩
  links : ∀ op ref, pchain op = some ref → bound ≤ ref ∧ ref < J₀.nins

end

section

variable {J₀ J J' : JitState} {snap : List (List IRRef1)} {ins : IRRef} {pchain pchain' : PChain}

theorem Swept.start (inside : ∀ ref, InSnap snap ref → ref < J₀.nins) :
    Swept J₀ snap J₀.nins (dce_marksnap J₀ snap) fun _ => none where
  nins := (Remarked.marksnap J₀ snap).nins
  constants ref low := ir_marksnap J₀ snap low
  outside ref high marked := by
    rcases (ismarked_marksnap snap).mp marked with marked | inSnap
    · exact marked
    · exact absurd (inside ref inSnap) (Nat.not_lt_of_le high)
  below ref _ := bare_marksnap J₀ snap ref
  marks ref _ _ := by
    rw [ismarked_marksnap, MarkedFrom]
    constructor
    · intro marked
      rcases marked with marked | inSnap
      · exact .inl marked
      · exact .inr (.inl inSnap)
    · intro marked
      rcases marked with marked | inSnap | ⟨a, above, low, _⟩
      · exact .inl marked
      · exact .inr inSnap
      · exact absurd low (Nat.not_lt_of_le above)
  unmarked ref low high := absurd high (Nat.not_lt_of_le low)
  kept ref low high := absurd high (Nat.not_lt_of_le low)
  removed ref low high := absurd high (Nat.not_lt_of_le low)
  links := nofun

/-- An instruction that is kept, and has its operands marked. -/
theorem Swept.keep (swept : Swept J₀ snap (ins + 1) J pchain) (inside : ins < J₀.nins)
    (kept : Used J₀ snap ins ∨ ir_sideeff (J₀.IR ins))
    (operands : ∀ ref, (J₀.IR ins).Operand ref → ref < ins) (nins : J'.nins = J.nins) (constants : ∀ ref, ref < REF_FIRST → J'.ir ref = J.ir ref)
    (bare : ∀ ref, (J'.IR ref).bare = (J.IR ref).bare) (here : irt_ismarked (J'.IR ins).t = false)
    (others : ∀ ref, ref ≠ ins → (irt_ismarked (J'.IR ref).t = true ↔
      irt_ismarked (J.IR ref).t = true ∨ (J₀.IR ins).Operand ref))
    (links : ∀ op ref, pchain' op = some ref → ins ≤ ref ∧ ref < J₀.nins) : Swept J₀ snap ins J' pchain' where
  nins := nins.trans swept.nins
  constants ref low := (constants ref low).trans (swept.constants ref low)
  outside ref high marked := by
    have other : ref ≠ ins := by lia
    rcases (others ref other).mp marked with marked | operand
    · exact swept.outside ref high marked
    · have := operands ref operand
      lia
  below ref low := (bare ref).trans (swept.below ref (Nat.lt_succ_of_lt low))
  marks ref first low := by
    rw [others ref (Nat.ne_of_lt low), swept.marks ref first (Nat.lt_succ_of_lt low), markedFrom_kept inside kept]
  unmarked ref low high := by
    rcases Nat.eq_or_lt_of_le low with isIns | above
    · rw [← isIns]
      exact here
    · rw [Bool.eq_false_iff, Ne, others ref (Nat.ne_of_gt above), swept.unmarked ref above high]
      intro marked
      rcases marked with marked | operand
      · cases marked
      · exact Nat.lt_asymm above (operands ref operand)
  kept ref low high alive := by
    rcases Nat.eq_or_lt_of_le low with isIns | above
    · rw [bare ref, ← isIns]
      exact swept.below ins (Nat.lt_succ_self ins)
    · exact (bare ref).trans (swept.kept ref above high alive)
  removed ref low high dead := by
    rcases Nat.eq_or_lt_of_le low with isIns | above
    · rw [← isIns] at dead
      rcases kept with used | effect
      · exact absurd used dead.1
      · rw [dead.2] at effect
        cases effect
    · exact (bare ref).trans (swept.removed ref above high dead)
  links := links

/-- An instruction that goes. -/
theorem Swept.remove (swept : Swept J₀ snap (ins + 1) J pchain) (first : REF_FIRST ≤ ins) (inside : ins < J₀.nins)
    (dead : Dead J₀ snap ins) (op : IROp) : Swept J₀ snap ins (J.unlink op (pchain op) ins) pchain := by
  have gone : ¬(Used J₀ snap ins ∨ ir_sideeff (J₀.IR ins)) := by
    rw [dead.2]
    exact not_or.mpr ⟨dead.1, Bool.false_ne_true⟩
  have above {op : IROp} {r : IRRef} (link : pchain op = some r) : ins < r := (swept.links op r link).1
  have here : (J.unlink op (pchain op) ins).IR ins = ⟨0, IRT_NIL, .nop, 0⟩ := by
    rw [unlink, setNop, IR_setIR, if_pos rfl]
  have type {r : IRRef} (other : r ≠ ins) : ((J.unlink op (pchain op) ins).IR r).t = (J.IR r).t := by
    rw [IR_unlink _ other]
    split <;> rfl
  have bare {r : IRRef} (other : r ≠ ins) : ((J.unlink op (pchain op) ins).IR r).bare = (J.IR r).bare := by
    rw [IR_unlink _ other]
    split <;> rfl
  exact {
    nins := (nins_unlink _).trans swept.nins
    constants := by
      intro ref low
      have lower : ref < ins := Nat.lt_of_lt_of_le low first
      rw [ir_unlink _ (Nat.ne_of_lt lower) fun link => Nat.lt_asymm lower (above link)]
      exact swept.constants ref low
    outside := by
      intro ref high marked
      rw [type (by lia)] at marked
      exact swept.outside ref high marked
    below := by
      intro ref low
      rw [bare (Nat.ne_of_lt low)]
      exact swept.below ref (Nat.lt_succ_of_lt low)
    marks := by
      intro ref firstRef low
      rw [type (Nat.ne_of_lt low), swept.marks ref firstRef (Nat.lt_succ_of_lt low), markedFrom_removed gone]
    unmarked := by
      intro ref low high
      rcases Nat.eq_or_lt_of_le low with isIns | above
      · rw [← isIns, here]
        rfl
      · rw [type (Nat.ne_of_gt above)]
        exact swept.unmarked ref above high
    kept := by
      intro ref low high alive
      rcases Nat.eq_or_lt_of_le low with isIns | above
      · rw [← isIns] at alive
        exact absurd dead alive
      · rw [bare (Nat.ne_of_gt above)]
        exact swept.kept ref above high alive
    removed := by
      intro ref low high deadRef
      rcases Nat.eq_or_lt_of_le low with isIns | above
      · rw [← isIns, here]
        rfl
      · rw [bare (Nat.ne_of_gt above)]
        exact swept.removed ref above high deadRef
    links := by
      intro op r link
      obtain ⟨low, high⟩ := swept.links op r link
      exact ⟨Nat.le_of_succ_le low, high⟩ }

theorem Swept.visit (swept : Swept J₀ snap (ins + 1) J pchain) (first : REF_FIRST ≤ ins) (inside : ins < J₀.nins)
    (operands : ∀ ref, (J₀.IR ins).Operand ref → ref < ins) :
    Swept J₀ snap ins (dceVisit J pchain ins).1 (dceVisit J pchain ins).2 := by
  have same := swept.below ins (Nat.lt_succ_self ins)
  have isUsed : irt_ismarked (J.IR ins).t = true ↔ Used J₀ snap ins :=
    (swept.marks ins first (Nat.lt_succ_self ins)).trans used_iff.symm
  have oldLinks {op : IROp} {r : IRRef} (link : pchain op = some r) : ins ≤ r ∧ r < J₀.nins := by
    have ⟨low, high⟩ := swept.links op r link
    exact ⟨Nat.le_of_succ_le low, high⟩
  rw [dceVisit]
  split
  · next marked =>
      have cleared : ∀ t : IRType1, irt_clearmark (irt_clearmark t) = irt_clearmark t := by decide
      have others (ref : IRRef) (other : ref ≠ ins) :
          (J.setIR ins { J.IR ins with t := irt_clearmark (J.IR ins).t }).IR ref = J.IR ref := by
        rw [IR_setIR, if_neg other]
      apply swept.keep inside (.inl (isUsed.mp marked)) operands
      · exact (Remarked.markOperands _ _).nins
      · intro ref low
        rw [ir_markOperands _ _ low]
        exact update_of_ne (Nat.ne_of_lt (Nat.lt_of_lt_of_le low first)) ..
      · intro ref
        rw [bare_markOperands]
        exact bare_setType (cleared _)
      · rw [Bool.eq_false_iff, Ne, ismarked_markOperands, operand_congr same, IR_setIR, if_pos rfl]
        intro marked
        rcases marked with marked | operand
        · rw [irt_ismarked_clearmark] at marked
          cases marked
        · exact Nat.lt_irrefl ins (operands ins operand)
      · intro ref other
        rw [ismarked_markOperands, operand_congr same, others ref other]
      · intro op r link
        dsimp only at link
        by_cases isOp : op = (J.IR ins).o
        · rw [isOp, update_self] at link
          cases link
          exact ⟨Nat.le_refl ins, inside⟩
        · rw [update_of_ne isOp] at link
          exact oldLinks link
  · next notMarked =>
      have unused : ¬Used J₀ snap ins := mt isUsed.mpr notMarked
      have effect := sideeff_congr same
      split
      · next noEffect =>
          rw [effect] at noEffect
          exact swept.remove first inside ⟨unused, Bool.eq_false_iff.mpr noEffect⟩ _
      · next isEffect =>
          rw [effect, not_not] at isEffect
          apply swept.keep inside (.inr isEffect) operands
          · exact (Remarked.markOperands _ _).nins
          · intro ref low
            exact ir_markOperands _ _ low
          · exact bare_markOperands J _
          · rw [Bool.eq_false_iff, Ne, ismarked_markOperands, operand_congr same]
            intro marked
            rcases marked with marked | operand
            · exact notMarked marked
            · exact Nat.lt_irrefl ins (operands ins operand)
          · intro ref _
            rw [ismarked_markOperands, operand_congr same]
          · intro op r link
            exact oldLinks link

theorem Swept.loop {n : Nat} (swept : Swept J₀ snap (REF_FIRST + n) J pchain) (inside : n ≤ J₀.nins - REF_FIRST)
    (operands : ∀ ins, REF_FIRST ≤ ins → ins < J₀.nins → ∀ ref, (J₀.IR ins).Operand ref → ref < ins) :
    ∃ pchain', Swept J₀ snap REF_FIRST (dceLoop n J pchain) pchain' := by
  induction n generalizing J pchain with
  | zero => exact ⟨pchain, swept⟩
  | succ n induction =>
      have high : REF_FIRST + n < J₀.nins := by lia
      have first : REF_FIRST ≤ REF_FIRST + n := Nat.le_add_right ..
      exact induction (swept.visit first high (operands _ first high)) (by lia)

/-- What the pass leaves of a trace. -/
theorem TraceIR.swept (trace : TraceIR) (enabled : trace.J.optDCE) :
    ∃ pchain, Swept trace.J trace.snap REF_FIRST (lj_opt_dce trace.J trace.snap) pchain := by
  have start := Swept.start trace.snapshots
  have nins : REF_FIRST + (trace.J.nins - REF_FIRST) = trace.J.nins := Nat.add_sub_of_le trace.base
  rw [lj_opt_dce, if_pos enabled, dce_propagate, start.nins]
  rw [← nins] at start
  exact start.loop (Nat.le_refl _) trace.operands

end

/-! ## Executions -/

section

variable {Value Memory : Type} (machine : Machine Value Memory) (J : JitState) (snap : List (List IRRef1))

/-- The values of the instructions that are needed are the same. -/
def SameValues (regs regs' : IRRef → Value) : Prop :=
  ∀ ref, ¬(REF_FIRST ≤ ref ∧ Dead J snap ref) → regs ref = regs' ref

/-- The executions go on or leave the trace alike, unless the first one has left it at a weak guard of an
instruction that nothing needs. -/
inductive Follows : Execution Value Memory → Execution Value Memory → Prop
  | running {regs regs' mem mem'} : SameValues J snap regs regs' → machine.same mem mem' →
      Follows (.running regs mem) (.running regs' mem')
  | left {ins regs regs' mem mem'} : SameValues J snap regs regs' → machine.same mem mem' →
      Follows (.left ins regs mem) (.left ins regs' mem')
  | weak {ins regs mem execution} : Dead J snap ins → irt_isguard (J.IR ins).t →
      Follows (.left ins regs mem) execution

end

section

variable {Value Memory : Type} {machine : Machine Value Memory} {J J' : JitState} {snap : List (List IRRef1)}
  {execution execution' : Execution Value Memory} {ins : IRRef} {pchain : PChain}

theorem Follows.refl (execution : Execution Value Memory) : Follows machine J snap execution execution := by
  cases execution with
  | running regs mem => exact .running (fun _ _ => rfl) (machine.equivalence.refl mem)
  | left ins regs mem => exact .left (fun _ _ => rfl) (machine.equivalence.refl mem)

theorem SameValues.update {regs regs' : IRRef → Value} (same : SameValues J snap regs regs') (value : Value) :
    SameValues J snap (update regs ins value) (update regs' ins value) := by
  intro ref needed
  by_cases isIns : ref = ins
  · rw [isIns, update_self, update_self]
  · rw [update_of_ne isIns, update_of_ne isIns]
    exact same ref needed

/-- The values of an instruction that nothing needs do not matter. -/
theorem SameValues.update_dead {regs regs' : IRRef → Value} (same : SameValues J snap regs regs')
    (first : REF_FIRST ≤ ins) (dead : Dead J snap ins) (value value' : Value) :
    SameValues J snap (Function.update regs ins value) (Function.update regs' ins value') := by
  intro ref needed
  have other : ref ≠ ins := by
    rintro rfl
    exact needed ⟨first, dead⟩
  rw [update_of_ne other, update_of_ne other]
  exact same ref needed

/-- An instruction that is kept has its operands. -/
theorem operand_needed (inside : ins < J.nins) (operands : ∀ ref, (J.IR ins).Operand ref → ref < ins)
    (alive : ¬Dead J snap ins) {ref : IRRef} (isOperand : (J.IR ins).op1.toNat = ref ∨ (J.IR ins).op2.toNat = ref) :
    ¬(REF_FIRST ≤ ref ∧ Dead J snap ref) := by
  intro ⟨first, unused, _⟩
  have operand : (J.IR ins).Operand ref := ⟨first, isOperand⟩
  apply alive
  constructor
  · intro used
    exact unused (.operand (operands ref operand) inside used operand)
  · apply Bool.eq_false_iff.mpr
    intro effect
    exact unused (.effect (operands ref operand) inside effect operand)

/-- One more instruction, which is kept or goes. -/
theorem Follows.next (follows : Follows machine J snap execution execution') (first : REF_FIRST ≤ ins)
    (inside : ins < J.nins) (operands : ∀ ref, (J.IR ins).Operand ref → ref < ins)
    (kept : ¬Dead J snap ins → (J'.IR ins).bare = (J.IR ins).bare)
    (removed : Dead J snap ins → (J'.IR ins).bare = ⟨0, IRT_NIL, .nop, 0⟩) :
    Follows machine J snap (execution.next machine J ins) (execution'.next machine J' ins) := by
  cases follows with
  | left values same => exact .left values same
  | weak dead guard => exact .weak dead guard
  | @running regs regs' mem mem' values same =>
      rw [Execution.next, Execution.next]
      by_cases dead : Dead J snap ins
      · rw [removed dead]
        cases isResult' : machine.exec ⟨0, IRT_NIL, .nop, 0⟩ regs' mem' with
        | none => cases machine.guard _ _ _ isResult'
        | some result' =>
            have same' := machine.quiet _ _ _ _ rfl isResult'
            cases isResult : machine.exec (J.IR ins).bare regs mem with
            | none =>
                have unmarked : ∀ t : IRType1, irt_isguard (irt_clearmark t) = irt_isguard t := by decide
                exact .weak dead (unmarked (J.IR ins).t ▸ machine.guard _ _ _ isResult)
            | some result =>
                have back := machine.equivalence.symm
                  (machine.quiet _ _ _ _ ((ir_sideeff_bare _).trans dead.2) isResult)
                exact .running (values.update_dead first dead _ _)
                  (machine.equivalence.trans back (machine.equivalence.trans same same'))
      · rw [kept dead]
        have operand {ref : IRRef} (isOperand : (J.IR ins).op1.toNat = ref ∨ (J.IR ins).op2.toNat = ref) :
            regs ref = regs' ref := values ref (operand_needed inside operands dead isOperand)
        have alike := machine.operands (J.IR ins).bare regs regs' mem mem' (operand (.inl rfl)) (operand (.inr rfl)) same
        cases result : machine.exec (J.IR ins).bare regs mem with
        | none =>
            rw [result] at alike
            cases result' : machine.exec (J.IR ins).bare regs' mem' with
            | none => exact .left values same
            | some _ =>
                rw [result'] at alike
                cases alike
        | some _ =>
            rw [result] at alike
            cases result' : machine.exec (J.IR ins).bare regs' mem' with
            | none =>
                rw [result'] at alike
                cases alike
            | some _ =>
                rw [result'] at alike
                cases alike with
                | some alike =>
                    have ⟨value, memory⟩ := alike
                    dsimp only
                    rw [value]
                    exact .running (values.update _) memory

theorem Swept.follows (swept : Swept J snap REF_FIRST J' pchain)
    (operands : ∀ ins, REF_FIRST ≤ ins → ins < J.nins → ∀ ref, (J.IR ins).Operand ref → ref < ins)
    (regs : IRRef → Value) (mem : Memory) (n : Nat) (inside : n ≤ J.nins - REF_FIRST) :
    Follows machine J snap (execute machine J regs mem n) (execute machine J' regs mem n) := by
  induction n with
  | zero => exact .refl _
  | succ n induction =>
      have first : REF_FIRST ≤ REF_FIRST + n := Nat.le_add_right ..
      have high : REF_FIRST + n < J.nins := by lia
      exact (induction (by lia)).next first high (operands _ first high) (swept.kept _ first high)
        (swept.removed _ first high)

end

/-- A number is loaded and doubled, with a check for an overflow, and nothing refers to the result. -/
def uncheckedTrace : TraceIR where
  J := (lj_ir_emit (lj_ir_emit (lj_record_setup false (fun _ => .tv 0) true true 0 0)
    ⟨IRREF2 1 0, IRT_INT, .sload, 0⟩).1 ⟨IRREF2 (.of REF_FIRST) (.of REF_FIRST), IRT_INT ||| IRT_GUARD, .addov, 0⟩).1
  snap := []
  base := by decide
  operands := by
    intro ins first inside ref operand
    have two : ins = REF_FIRST ∨ ins = REF_FIRST + 1 := by
      change ins < REF_FIRST + 2 at inside
      lia
    rcases two with rfl | rfl
    · rcases operand with ⟨above, rfl | rfl⟩ <;> exact absurd above (by decide)
    · rcases operand with ⟨_, rfl | rfl⟩ <;> decide
  snapshots := nofun

end TvmJit
