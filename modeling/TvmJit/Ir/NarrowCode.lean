import TvmJit.Ir.Narrow

/-! The code that narrowing collects: it is in postfix form, and all its words are put inside the
stack, except the operators that follow their operands. -/

namespace TvmJit.Narrow

open Foundation Function

/-! ## Code in postfix form -/

/-- The words that push an operand. -/
inductive Leaf : List NarrowIns → Prop
  | ref (ref : IRRef1) : Leaf [.ref ref]
  | conv (ref : IRRef1) : Leaf [.conv ref]
  | int (k : BitVec 32) : Leaf [.int, .k k]

theorem Leaf.nonempty {code : List NarrowIns} (leaf : Leaf code) : code ≠ [] := by
  cases leaf <;> exact List.cons_ne_nil _ _

/-- A regular opcode. -/
def NarrowIns.IsOp (ins : NarrowIns) : Prop := ∃ o t ref, ins = .op o t ref

abbrev Code : List NarrowIns → Prop := Postfix Leaf (· = .sext) NarrowIns.IsOp

/-- Code for one operand has been put on the stack. -/
def Collected (nc nc' : NarrowConv) : Prop := ∃ code, Code code ∧ nc'.stack = code.reverse ++ nc.stack

namespace Collected

variable {nc nc₁ nc₂ : NarrowConv}

theorem ref (nc : NarrowConv) (ref : IRRef1) : Collected nc (nc.push (.ref ref)) := ⟨_, .leaf (.ref ref), rfl⟩

theorem conv (nc : NarrowConv) (ref : IRRef1) : Collected nc (nc.push (.conv ref)) := ⟨_, .leaf (.conv ref), rfl⟩

theorem int (nc : NarrowConv) (k : BitVec 32) : Collected nc ((nc.push .int).push (.k k)) := ⟨_, .leaf (.int k), rfl⟩

theorem sext (collected : Collected nc nc₁) : Collected nc (nc₁.push .sext) := by
  have ⟨code, ordered, stack⟩ := collected
  refine ⟨code ++ [.sext], ordered.unary rfl, ?_⟩
  rw [List.reverse_append, NarrowConv.push, stack]
  rfl

theorem op (left : Collected nc nc₁) (right : Collected nc₁ nc₂) (o : IROp) (t : IRType1) (ref : IRRef1) :
    Collected nc (nc₂.push (.op o t ref)) := by
  have ⟨code, ordered, stack⟩ := left
  have ⟨code', ordered', stack'⟩ := right
  refine ⟨code ++ (code' ++ [.op o t ref]), ordered.binary ordered' ⟨o, t, ref, rfl⟩, ?_⟩
  rw [NarrowConv.push, stack', stack]
  simp only [List.reverse_append, List.reverse_singleton, List.append_assoc, List.cons_append, List.nil_append]

end Collected

/-! ## The places of the words -/

/-- All words that are written are below a bound. -/
structure Below (bound : Nat) (nc nc' : NarrowConv) : Prop where
  kept : nc.writes ⊆ nc'.writes
  low : ∀ place ins, (place, ins) ∈ nc'.writes → (place, ins) ∈ nc.writes ∨ place < bound

namespace Below

variable {bound bound' : Nat} {nc nc₁ nc₂ : NarrowConv}

theorem refl (bound : Nat) (nc : NarrowConv) : Below bound nc nc := ⟨fun _ written => written, fun _ _ written => .inl written⟩

theorem trans (left : Below bound nc nc₁) (right : Below bound nc₁ nc₂) : Below bound nc nc₂ where
  kept := fun _ written => right.kept (left.kept written)
  low := fun place ins written => (right.low place ins written).elim (left.low place ins) .inr

theorem push (below : Below bound nc nc₁) (ins : NarrowIns) (low : nc₁.sp < bound) : Below bound nc (nc₁.push ins) := by
  apply below.trans
  constructor
  · intro word written
    exact List.mem_cons_of_mem _ written
  · intro place ins' written
    rcases List.mem_cons.mp written with equal | earlier
    · injection equal with equal
      subst equal
      exact .inr low
    · exact .inl earlier

theorem weaken (below : Below bound nc nc₁) (less : bound ≤ bound') : Below bound' nc nc₁ where
  kept := below.kept
  low := fun place ins written => (below.low place ins written).imp_right fun low => lt_of_lt_of_le low less

end Below

@[simp]
theorem NarrowConv.sp_push (nc : NarrowConv) (ins : NarrowIns) : (nc.push ins).sp = nc.sp + 1 := rfl

@[simp]
theorem NarrowConv.sp_backtrack (nc saved : NarrowConv) : (nc.backtrack saved).sp = saved.sp := rfl

@[simp]
theorem NarrowConv.maxsp_eq : NarrowConv.maxsp = 252 := rfl

section

variable (J : JitState) (bpropcache : List BPropEntry) (fins : IRIns)

/-- Code for one operand that is put on the stack, and stays below the redzone. -/
structure Stripped (nc nc' : NarrowConv) : Prop where
  collected : Collected nc nc'
  sp : nc'.sp ≤ NarrowConv.maxsp
  below : Below NarrowConv.maxsp nc nc'

theorem Stripped.ref {nc nc' : NarrowConv} (below : Below NarrowConv.maxsp nc nc') (room : nc.sp < NarrowConv.maxsp)
    (ref : IRRef1) : Stripped nc ((nc'.backtrack nc).push (.ref ref)) where
  collected := Collected.ref nc ref
  sp := room
  below :=
    have saved : Below NarrowConv.maxsp nc (nc'.backtrack nc) := ⟨below.kept, below.low⟩
    saved.push (.ref ref) room

theorem narrow_stripov_backprop_spec (left : Nat) (nc : NarrowConv) (ref : IRRef1) (room : nc.sp < NarrowConv.maxsp) :
    Stripped nc (narrow_stripov_backprop J bpropcache fins left nc ref) := by
  induction left generalizing nc ref with
  | zero =>
      unfold narrow_stripov_backprop
      dsimp only
      have still (ref : IRRef1) := Stripped.ref (.refl _ nc) room ref
      split
      · split
        · exact still _
        · exact still ref
      · exact still ref
  | succ left induction =>
      unfold narrow_stripov_backprop
      dsimp only
      have still (ref : IRRef1) := Stripped.ref (.refl _ nc) room ref
      split
      · split
        · exact still _
        · have first := induction nc (J.IR ref.toNat).op1 room
          split
          · rename_i room₁
            have second := induction _ (J.IR ref.toNat).op2 room₁
            split
            · rename_i room₂
              exact {
                collected := first.collected.op second.collected ..
                sp := room₂
                below := (first.below.trans second.below).push _ room₂ }
            · exact .ref (first.below.trans second.below) room ref
          · exact .ref first.below room ref
      · exact still ref

/-! ## The operators -/

/-- The collector goes into the operands of an operator. -/
structure Descends (left : Nat) (nc : NarrowConv) (ref : IRRef1) : Prop where
  depth : 0 < left
  room : nc.sp < NarrowConv.maxsp
  operator : (J.IR ref.toNat).o = .add ∨ (J.IR ref.toNat).o = .sub
  noConv : findConv J fins ref = none
  notCached : findCached bpropcache fins ref (left + 1 < NARROW_MAX_BACKPROP) = none

/-- An operator below the reference is put on a stack that is full. -/
def Overflows : Nat → NarrowConv → IRRef1 → Prop
  | 0, _, _ => False
  | left + 1, nc, ref =>
      let first := narrow_conv_backprop J bpropcache fins left nc (J.IR ref.toNat).op1
      let second := narrow_conv_backprop J bpropcache fins left first.2 (J.IR ref.toNat).op2
      Descends J bpropcache fins (left + 1) nc ref ∧
        (Overflows left nc (J.IR ref.toNat).op1 ∨ Overflows left first.2 (J.IR ref.toNat).op2 ∨
          first.1 + second.1 ≤ 1 ∧ NARROW_MAX_STACK ≤ second.2.sp)

/-- What the collector does. -/
structure Gathered (nc : NarrowConv) (overflows : Prop) (result : Nat × NarrowConv) : Prop where
  collected : result.1 ≤ 1 → Collected nc result.2
  kept : nc.writes ⊆ result.2.writes
  below : ¬overflows → Below NARROW_MAX_STACK nc result.2
  beyond : overflows → ∃ place ins, (place, ins) ∈ result.2.writes ∧ NARROW_MAX_STACK ≤ place

variable {J bpropcache fins}

/-- Code that is put on the stack without an operator behind it: it leaves the redzone by one word at most. -/
structure Flat (nc : NarrowConv) (result : Nat × NarrowConv) : Prop where
  collected : result.1 ≤ 1 → Collected nc result.2
  sp : result.1 ≤ 1 → result.2.sp ≤ NarrowConv.maxsp + 1
  below : Below NARROW_MAX_STACK nc result.2

theorem Flat.tooDeep (nc : NarrowConv) : Flat nc (10, nc) where
  collected := fun few => absurd few (by simp)
  sp := fun few => absurd few (by simp)
  below := .refl _ nc

theorem Flat.gathered {nc : NarrowConv} {overflows : Prop} {result : Nat × NarrowConv} (flat : Flat nc result)
    (none : ¬overflows) : Gathered nc overflows result :=
  ⟨flat.collected, flat.below.kept, fun _ => flat.below, fun overflows => absurd overflows none⟩

/-- A reference whose operands are not gone into. -/
theorem narrow_conv_backprop_flat {left : Nat} {nc : NarrowConv} {ref : IRRef1}
    (stays : ¬Descends J bpropcache fins left nc ref) :
    Flat nc (narrow_conv_backprop J bpropcache fins left nc ref) := by
  have same := Below.refl NARROW_MAX_STACK nc
  unfold narrow_conv_backprop
  dsimp only
  split
  · exact .tooDeep nc
  rename_i room
  have room : nc.sp < 252 := not_le.mp room
  have room₀ : nc.sp < NARROW_MAX_STACK := lt_trans room (by decide)
  have room₁ : nc.sp + 1 < NARROW_MAX_STACK := lt_trans (Nat.add_lt_add_right room 1) (by decide)
  have sp₁ : nc.sp + 1 ≤ NarrowConv.maxsp + 1 := le_trans room (by decide)
  have sp₂ : nc.sp + 1 + 1 ≤ NarrowConv.maxsp + 1 := Nat.add_le_add_right room 1
  have conv : Flat nc (1, nc.push (.conv ref)) := ⟨fun _ => .conv nc ref, fun _ => sp₁, same.push _ room₀⟩
  have found (val : IRRef1) : Flat nc (0, nc.push (.ref val)) := ⟨fun _ => .ref nc val, fun _ => sp₁, same.push _ room₀⟩
  split
  · -- Undo the conversion, or strip the overflow checks below it.
    have operand : ∃ nc', (if convMode fins &&& IRCONV_CONVMASK ≤ IRCONV_ANY then
          narrow_stripov_backprop J bpropcache fins (left - 1) nc (J.IR ref.toNat).op1
        else nc.push (.ref (J.IR ref.toNat).op1)) = nc' ∧ Stripped nc nc' := by
      refine ⟨_, rfl, ?_⟩
      split
      · exact narrow_stripov_backprop_spec J bpropcache fins (left - 1) nc _ room
      · exact Stripped.ref (.refl _ nc) room _
    have ⟨nc', equal, stripped⟩ := operand
    rw [equal]
    have below : Below NARROW_MAX_STACK nc nc' := stripped.below.weaken (by decide)
    split
    · exact {
        collected := fun _ => stripped.collected.sext
        sp := fun _ => Nat.succ_le_succ stripped.sp
        below := below.push _ (lt_of_le_of_lt stripped.sp (by decide)) }
    · exact ⟨fun _ => stripped.collected, fun _ => le_trans stripped.sp (Nat.le_succ _), below⟩
  · split
    · split
      · exact ⟨fun _ => .int nc _, fun _ => sp₂, (same.push _ room₀).push _ room₁⟩
      · exact .tooDeep nc
    · split
      · exact found _
      · rename_i noConv
        split
        · rename_i operator
          split
          · exact found _
          · exact ⟨fun _ => (Collected.ref nc _).sext, fun _ => sp₂, (same.push _ room₀).push _ room₁⟩
          · rename_i notCached
            split
            · exact conv
            · exact absurd ⟨Nat.succ_pos _, room, operator, noConv, notCached⟩ stays
        · exact conv

/-- A reference whose operands are gone into. -/
theorem narrow_conv_backprop_down {left : Nat} {nc : NarrowConv} {ref : IRRef1}
    (descends : Descends J bpropcache fins (left + 1) nc ref) :
    narrow_conv_backprop J bpropcache fins (left + 1) nc ref =
      let first := narrow_conv_backprop J bpropcache fins left nc (J.IR ref.toNat).op1
      let second := narrow_conv_backprop J bpropcache fins left first.2 (J.IR ref.toNat).op2
      if first.1 + second.1 ≤ 1 then
        (first.1 + second.1, second.2.push (.op (J.IR ref.toNat).o (convType fins) ref))
      else (1, (second.2.backtrack nc).push (.conv ref)) := by
  have notConv : (J.IR ref.toNat).o ≠ .conv := by
    rcases descends.operator with add | sub
    · rw [add]
      decide
    · rw [sub]
      decide
  have notConstant : (J.IR ref.toNat).o ≠ .knum := by
    rcases descends.operator with add | sub
    · rw [add]
      decide
    · rw [sub]
      decide
  have notCached := descends.notCached
  rw [narrow_conv_backprop]
  simp only [if_neg (not_le.mpr descends.room), notConv, notConstant, false_and, if_false, descends.noConv,
    if_pos descends.operator, notCached]

/-- The code of an operator behind the code of its operands, or a conversion in place of all of it. -/
theorem Gathered.operator {nc : NarrowConv} {descends overflows₁ overflows₂ : Prop} {first second : Nat × NarrowConv}
    (down : descends) (room : nc.sp < NarrowConv.maxsp) (left : Gathered nc overflows₁ first)
    (right : Gathered first.2 overflows₂ second) (o : IROp) (t : IRType1) (ref : IRRef1) :
    Gathered nc
      (descends ∧ (overflows₁ ∨ overflows₂ ∨ first.1 + second.1 ≤ 1 ∧ NARROW_MAX_STACK ≤ second.2.sp))
      (if first.1 + second.1 ≤ 1 then (first.1 + second.1, second.2.push (.op o t ref))
       else (1, (second.2.backtrack nc).push (.conv ref))) := by
  have both (none₁ : ¬overflows₁) (none₂ : ¬overflows₂) : Below NARROW_MAX_STACK nc second.2 :=
    (left.below none₁).trans (right.below none₂)
  have before : nc.writes ⊆ second.2.writes := fun _ written => right.kept (left.kept written)
  -- Words that are beyond the stack do not go away.
  have earlier (overflows : overflows₁ ∨ overflows₂) :
      ∃ place ins, (place, ins) ∈ second.2.writes ∧ NARROW_MAX_STACK ≤ place := by
    rcases overflows with overflows | overflows
    · have ⟨place, ins, written, high⟩ := left.beyond overflows
      exact ⟨place, ins, right.kept written, high⟩
    · exact right.beyond overflows
  split
  · rename_i few
    constructor
    · intro _
      exact (left.collected (le_trans (Nat.le_add_right ..) few)).op (right.collected (le_trans (Nat.le_add_left ..) few)) ..
    · intro word written
      exact List.mem_cons_of_mem _ (before written)
    · intro none
      simp only [not_and, not_or] at none
      have ⟨none₁, none₂, low⟩ := none down
      exact (both none₁ none₂).push _ (not_le.mp (low few))
    · intro overflows
      rcases overflows.2 with overflows | overflows | ⟨_, full⟩
      · have ⟨place, ins, written, high⟩ := earlier (.inl overflows)
        exact ⟨place, ins, List.mem_cons_of_mem _ written, high⟩
      · have ⟨place, ins, written, high⟩ := earlier (.inr overflows)
        exact ⟨place, ins, List.mem_cons_of_mem _ written, high⟩
      · exact ⟨_, _, List.mem_cons_self, full⟩
  · rename_i many
    have low : nc.sp < NARROW_MAX_STACK := lt_trans room (by decide)
    constructor
    · intro _
      exact .conv nc ref
    · intro word written
      exact List.mem_cons_of_mem _ (before written)
    · intro none
      simp only [not_and, not_or] at none
      have ⟨none₁, none₂, _⟩ := none down
      have below := both none₁ none₂
      have saved : Below NARROW_MAX_STACK nc (second.2.backtrack nc) := ⟨below.kept, below.low⟩
      exact saved.push (.conv ref) low
    · intro overflows
      rcases overflows.2 with overflows | overflows | ⟨few, _⟩
      · have ⟨place, ins, written, high⟩ := earlier (.inl overflows)
        exact ⟨place, ins, List.mem_cons_of_mem _ written, high⟩
      · have ⟨place, ins, written, high⟩ := earlier (.inr overflows)
        exact ⟨place, ins, List.mem_cons_of_mem _ written, high⟩
      · exact absurd few many

/-- What the collector does with any reference. -/
theorem narrow_conv_backprop_spec (left : Nat) (nc : NarrowConv) (ref : IRRef1) :
    Gathered nc (Overflows J bpropcache fins left nc ref) (narrow_conv_backprop J bpropcache fins left nc ref) := by
  induction left generalizing nc ref with
  | zero => exact (narrow_conv_backprop_flat fun descends => absurd descends.depth (lt_irrefl 0)).gathered not_false
  | succ left induction =>
      by_cases descends : Descends J bpropcache fins (left + 1) nc ref
      · rw [narrow_conv_backprop_down descends]
        exact Gathered.operator descends descends.room (induction nc _) (induction _ _) ..
      · exact (narrow_conv_backprop_flat descends).gathered fun overflows => descends overflows.1

/-! ## Operators that are nested to the right -/

/-- The number of operators on the way to the right. -/
def rightNested (J : JitState) : Nat → IRRef1 → Nat
  | 0, _ => 0
  | left + 1, ref =>
      if (J.IR ref.toNat).o = .add ∨ (J.IR ref.toNat).o = .sub then rightNested J left (J.IR ref.toNat).op2 + 1 else 0

/-- Only these operators go beyond the redzone. -/
theorem narrow_conv_backprop_sp (left : Nat) (nc : NarrowConv) (ref : IRRef1)
    (few : (narrow_conv_backprop J bpropcache fins left nc ref).1 ≤ 1) :
    (narrow_conv_backprop J bpropcache fins left nc ref).2.sp ≤ NarrowConv.maxsp + 1 + rightNested J left ref := by
  induction left generalizing nc ref with
  | zero => exact (narrow_conv_backprop_flat fun descends => absurd descends.depth (lt_irrefl 0)).sp few
  | succ left induction =>
      by_cases descends : Descends J bpropcache fins (left + 1) nc ref
      · rw [narrow_conv_backprop_down descends, rightNested, if_pos descends.operator]
        dsimp only
        split
        · rename_i both
          have second := induction _ (J.IR ref.toNat).op2 (le_trans (Nat.le_add_left ..) both)
          exact Nat.succ_le_succ second
        · exact le_trans (Nat.le_succ_of_le descends.room) (Nat.le_add_right ..)
      · exact le_trans ((narrow_conv_backprop_flat descends).sp few) (Nat.le_add_right ..)

/-- With three operators in a row to the right, no operator is put on a full stack. -/
theorem not_overflows (shallow : ∀ left ref, rightNested J left ref ≤ 3) (left : Nat) (nc : NarrowConv) (ref : IRRef1) :
    ¬Overflows J bpropcache fins left nc ref := by
  induction left generalizing nc ref with
  | zero => exact not_false
  | succ left induction =>
      intro ⟨descends, below⟩
      rcases below with first | second | ⟨few, full⟩
      · exact induction _ _ first
      · exact induction _ _ second
      · have bound := narrow_conv_backprop_sp left _ (J.IR ref.toNat).op2 (le_trans (Nat.le_add_left ..) few)
        have nested := shallow (left + 1) ref
        rw [rightNested, if_pos descends.operator] at nested
        have full : 256 ≤ _ := full
        have bound : _ ≤ 253 + _ := bound
        omega

end

end TvmJit.Narrow
