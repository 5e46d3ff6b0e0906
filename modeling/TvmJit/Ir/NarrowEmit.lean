import TvmJit.Ir.NarrowCode

/-! Conversions that narrowing emits: the machine executes the collected code in place, without
an operand that is missing or put on code that has not been read. -/

namespace TvmJit.Narrow

open Foundation Function

/-! ## The machine -/

section

variable {σ : Type} {emitter : Emitter σ} {fins : IRIns} {last : Nat}

/-- All places below the stack pointer hold operands. -/
def Machine.Filled (m : Machine σ) : Prop := ∀ place, place < m.sp → ∃ tr, m.operand place = some tr

/-- An effect of the machine on its stack. -/
abbrev Machine.Executed : Nat → Nat → Nat → Machine σ → Machine σ → Prop :=
  Foundation.Executed Machine.next Machine.sp Machine.stack Machine.Filled

/-- The machine puts its new operand on a place that it has read, with operands below it. -/
theorem Machine.written {m : Machine σ} (filled : m.Filled) (read more fewer : Nat) {place : Nat} (below : place ≤ m.sp)
    (operands : place + 1 + fewer = m.sp + more) (room : place < m.next + read) (J : σ) (tr : TRef) (guarded : Bool) :
    Machine.Executed read more fewer m ⟨J, update m.stack place (.operand tr), m.next + read, place + 1, guarded⟩ where
  read := rfl
  operands := operands
  room := room
  good := by
    intro other low
    by_cases equal : other = place
    · subst equal
      exact ⟨tr, by simp only [Machine.operand, update_self]⟩
    · have ⟨tr', here⟩ := filled other (lt_of_lt_of_le (lt_of_le_of_ne (Nat.le_of_lt_succ low) equal) below)
      exact ⟨tr', by simpa only [Machine.operand, update_of_ne equal] using here⟩
  cells := fun other high => update_of_ne (ne_of_gt (lt_of_lt_of_le room high)) ..

theorem Machine.push_executed {m : Machine σ} (filled : m.Filled) (room : m.sp ≤ m.next) (read : Nat) (J : σ) (tr : TRef) :
    ∃ m', ({ m with next := m.next + (read + 1) } : Machine σ).push J tr = some m' ∧
      Machine.Executed (read + 1) 1 0 m m' :=
  have room : m.sp < m.next + (read + 1) := lt_of_le_of_lt room (Nat.lt_add_of_pos_right (Nat.succ_pos read))
  ⟨_, if_pos room, Machine.written filled _ 1 0 le_rfl rfl room J tr m.guarded⟩

/-- A word that pushes an operand. -/
theorem emitStep_leaf {code : List NarrowIns} {m : Machine σ} (leaf : Leaf code)
    (stands : Stands Machine.stack code m m.next) (ends : m.next + code.length ≤ last) (room : m.sp ≤ m.next)
    (filled : m.Filled) :
    ∃ m', emitStep emitter fins last m = some m' ∧ Machine.Executed code.length 1 0 m m' := by
  have here : m.next < last := lt_of_lt_of_le (Nat.lt_add_of_pos_right (List.length_pos_iff.mpr leaf.nonempty)) ends
  rw [emitStep, if_pos here]
  cases leaf with
  | ref ref =>
      have word : m.stack m.next = .ref ref := stands 0 _ rfl
      rw [word]
      exact Machine.push_executed filled room 0 ..
  | conv ref =>
      have word : m.stack m.next = .conv ref := stands 0 _ rfl
      rw [word]
      exact Machine.push_executed filled room 0 ..
  | int k =>
      have word : m.stack m.next = .int := stands 0 _ rfl
      have word' : m.stack (m.next + 1) = .k k := stands 1 _ rfl
      have behind : m.next + 1 < last := ends
      rw [word]
      dsimp only
      rw [if_pos behind, word']
      exact Machine.push_executed filled room 1 ..

theorem emitStep_sext {m : Machine σ} (word : m.stack m.next = .sext) (here : m.next < last) (one : 1 ≤ m.sp)
    (room : m.sp ≤ m.next) (filled : m.Filled) :
    ∃ m', emitStep emitter fins last m = some m' ∧ Machine.Executed 1 0 0 m m' := by
  have ⟨tr, top⟩ := filled (m.sp - 1) (Nat.sub_lt one Nat.one_pos)
  rw [emitStep, if_pos here, word]
  dsimp only
  rw [if_neg (not_lt.mpr one), top]
  refine ⟨_, rfl, ?_⟩
  have executed := Machine.written filled 1 0 0 (Nat.sub_le m.sp 1) (by omega) (by omega)
    (emitter.emitir m.J .conv IRT_I64 tr (IRT_I64.setWidth 32 <<< 5 ||| IRT_INT.setWidth 32 ||| IRCONV_SEXT)).1
    (emitter.emitir m.J .conv IRT_I64 tr (IRT_I64.setWidth 32 <<< 5 ||| IRT_INT.setWidth 32 ||| IRCONV_SEXT)).2 m.guarded
  rw [Nat.sub_add_cancel one] at executed
  exact executed

theorem emitStep_op {ins : NarrowIns} {m : Machine σ} (isOp : ins.IsOp) (word : m.stack m.next = ins) (here : m.next < last)
    (two : 2 ≤ m.sp) (room : m.sp ≤ m.next) (filled : m.Filled) :
    ∃ m', emitStep emitter fins last m = some m' ∧ Machine.Executed 1 0 1 m m' := by
  have ⟨o, t, ref, equal⟩ := isOp
  have ⟨left, isLeft⟩ := filled (m.sp - 2) (by omega)
  have ⟨right, isRight⟩ := filled (m.sp - 1) (by omega)
  rw [emitStep, if_pos here, word, equal]
  dsimp only
  rw [if_neg (not_lt.mpr two), isLeft, isRight]
  refine ⟨_, rfl, ?_⟩
  have same : m.sp - 1 = m.sp - 2 + 1 := by omega
  have same' : m.sp - 1 - 1 = m.sp - 2 := by omega
  have executed J tr guarded := Machine.written filled 1 0 1 (Nat.sub_le m.sp 2)
    (by omega) (by omega) J tr guarded
  simp only [Machine.setTop, same']
  rw [same]
  exact executed _ _ _

theorem emitStep_executes (emitter : Emitter σ) (fins : IRIns) (last : Nat) :
    Executes (emitStep emitter fins last) Machine.next Machine.sp Machine.stack Machine.Filled last Leaf (· = .sext)
      NarrowIns.IsOp where
  leaf := fun _ _ => emitStep_leaf
  unary := fun _ _ isSext word => emitStep_sext (word.trans isSext)
  binary := fun _ _ => emitStep_op

/-- The loop takes the steps that lead to the end of the code. -/
theorem emitLoop_steps {n fuel : Nat} {m m' : Machine σ} (steps : stepTimes (emitStep emitter fins last) n m = some m')
    (ended : m'.next = last) (enough : n ≤ fuel) : emitLoop emitter fins last fuel m = some m' := by
  induction n generalizing m fuel with
  | zero =>
      injection steps with equal
      subst equal
      have notLess : ¬m.next < last := ended ▸ lt_irrefl _
      cases fuel with
      | zero => exact if_neg notLess
      | succ fuel => exact if_neg notLess
  | succ n induction =>
      match fuel, enough with
      | fuel + 1, enough =>
          have ⟨next, isStep, rest⟩ := Option.bind_eq_some_iff.mp steps
          have less : m.next < last := by
            by_contra notLess
            rw [emitStep, if_neg notLess] at isStep
            contradiction
          rw [emitLoop, if_pos less, isStep]
          exact induction rest (Nat.le_of_succ_le_succ enough)

end

/-! ## The conversions -/

/-- What is collected for a reference is executed. -/
theorem Collected.emitted {nc : NarrowConv} (collected : Collected ⟨[], []⟩ nc) {σ : Type} (emitter : Emitter σ)
    (fins : IRIns) (J : σ) : ∃ result, narrow_conv_emit emitter fins J nc = some result := by
  have ⟨code, ordered, stack⟩ := collected
  rw [List.append_nil] at stack
  have length : nc.sp = code.length := by rw [NarrowConv.sp, stack, List.length_reverse]
  have words : nc.stack.reverse = code := by rw [stack, List.reverse_reverse]
  let start : Machine σ :=
    { J, stack := fun i => nc.stack.reverse.getD i .sext, next := 0, sp := 0, guarded := irt_isguard fins.t }
  have stands : Stands Machine.stack code start start.next := by
    intro i ins here
    change nc.stack.reverse.getD (0 + i) .sext = ins
    rw [words, Nat.zero_add, List.getD_eq_getElem?_getD, here]
    rfl
  have ⟨n, m, few, steps, executed⟩ := ordered.executed (emitStep_executes emitter fins nc.sp) (fun _ => Leaf.nonempty) stands
    (by rw [length]; exact le_of_eq (Nat.zero_add _)) le_rfl (fun place low => absurd low (Nat.not_lt_zero place))
  have ended : m.next = nc.sp := executed.read.trans (by rw [length]; exact Nat.zero_add _)
  have one : m.sp = 1 := executed.operands
  have ⟨tr, top⟩ := executed.good 0 (one ▸ Nat.one_pos)
  refine ⟨(m.J, tr), ?_⟩
  rw [narrow_conv_emit, emitLoop_steps steps ended (length ▸ few), Option.bind_eq_bind, Option.bind_some, if_pos one, top]
  rfl

/-- `1 - (1 - (.. (1 - x)))` with 99 operators. -/
def nestedSub : JitState where
  ir := fun ref =>
    if ref = REF_BIAS - 3 then .ins ⟨0, IRT_NUM, .knum, 0⟩
    else if ref = REF_BIAS - 2 then .tv 0x3ff0000000000000
    else if ref = REF_FIRST then .ins ⟨IRREF2 1 0, IRT_NUM, .sload, 0⟩
    else .ins ⟨IRREF2 (.of (REF_BIAS - 3)) (.of (ref - 1)), IRT_NUM, .sub, 0⟩
  nins := REF_FIRST + 100
  nk := REF_BIAS - 3
  chain := fun _ => 0
  optCSE := true
  optDCE := true

end TvmJit.Narrow
