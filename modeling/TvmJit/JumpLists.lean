import TvmJit.Machine
import TvmJit.Parse.Jump

/-! What the functions on jump lists do to the bytecode. -/

namespace TvmJit

open Foundation

/-! ## Jump lists -/

/-- A jump that has no target yet. -/
structure Code.Pending (c : Code) (j : BCPos) : Prop where
  pos : 1 ≤ j
  inside : j < c.pc
  isJmp : (c.ins j).op = .jmp
  real : (c.ins j).a < NO_REG

/-- The jumps of the list that starts at a position, in its order. -/
inductive Threads (c : Code) : BCPos → List BCPos → Prop
  | nil : Threads c NO_JMP []
  | cons {j : BCPos} {js : List BCPos} (pending : c.Pending j) (fresh : j ∉ js)
      (rest : Threads c (c.next j) js) : Threads c j (j :: js)

theorem Code.Pending.of_eq {c c' : Code} {j : BCPos} (pending : c.Pending j) (longer : c.pc ≤ c'.pc)
    (same : c'.ins j = c.ins j) : c'.Pending j where
  pos := pending.pos
  inside := pending.inside.trans_le longer
  isJmp := same ▸ pending.isJmp
  real := same ▸ pending.real

/-- Whether the instruction before a jump can produce a value. -/
def BCIns.valued (i : BCIns) : Bool := i.copies || i.a == NO_REG

theorem Code.Pending.not_valued {c : Code} {j : BCPos} (pending : c.Pending j) :
    (c.ins j).valued = false := by
  simp [BCIns.valued, BCIns.copies, pending.isJmp, pending.real.ne]

namespace Threads

variable {c c' : Code} {l : BCPos} {js : List BCPos}

theorem pending (threads : Threads c l js) : ∀ j ∈ js, c.Pending j := by
  induction threads with
  | nil => intro j member; cases member
  | cons pending _ _ induction =>
      intro j member
      rcases List.mem_cons.mp member with rfl | member
      · exact pending
      · exact induction j member

theorem nodup (threads : Threads c l js) : js.Nodup := by
  induction threads with
  | nil => exact .nil
  | cons _ fresh _ induction => exact List.nodup_cons.mpr ⟨fresh, induction⟩

theorem length_le (threads : Threads c l js) : js.length ≤ c.pc := by
  have inRange : js ⊆ List.range c.pc := fun j member =>
    List.mem_range.mpr (threads.pending j member).inside
  simpa using (threads.nodup.subperm inRange).length_le

theorem of_eq (threads : Threads c l js) (longer : c.pc ≤ c'.pc)
    (same : ∀ j ∈ js, c'.ins j = c.ins j) : Threads c' l js := by
  induction threads with
  | nil => exact .nil
  | @cons j js pending fresh _ induction =>
      have sameHead := same j (.head _)
      have sameNext : c'.next j = c.next j := by rw [Code.next, Code.next, sameHead]
      refine .cons (pending.of_eq longer sameHead) fresh ?_
      rw [sameNext]
      exact induction fun k member => same k (.tail _ member)

theorem eq_nil (threads : Threads c NO_JMP js) (bound : c.pc ≤ NO_JMP) : js = [] := by
  cases threads with
  | nil => rfl
  | cons pending => exact absurd pending.inside (Nat.not_lt.mpr bound)

theorem head_eq {j : BCPos} (threads : Threads c l (j :: js)) : l = j := by
  cases threads
  rfl

theorem ne_noJmp {j : BCPos} (threads : Threads c l (j :: js)) (bound : c.pc ≤ NO_JMP) :
    l ≠ NO_JMP := by
  rintro rfl
  cases threads.eq_nil bound

theorem eq_noJmp_iff (threads : Threads c l js) (bound : c.pc ≤ NO_JMP) : l = NO_JMP ↔ js = [] := by
  constructor
  · rintro rfl
    exact threads.eq_nil bound
  · rintro rfl
    cases threads
    rfl

end Threads

/-! ## Setting a jump -/

/-- The positions of a function are far below the range of a jump position. -/
def Code.Small (c : Code) : Prop := c.pc ≤ LJ_MAX_BCINS

theorem Code.Small.le_noJmp {c : Code} (small : c.Small) : c.pc ≤ NO_JMP :=
  le_trans small (by decide)

theorem u32_offset {n : Int} (low : -2147483648 ≤ n) (high : n < 2147483648)
    (fits : u32 n ≤ BCMAX_D) : (u32 n : Int) = n := by
  unfold u32 BCMAX_D at *
  omega

theorem Code.setIns_ins (c : Code) (pc p : BCPos) (i : BCIns) :
    (c.setIns pc i).ins p = if p = pc then i else c.ins p := by
  unfold setIns ins
  by_cases same : p = pc
  · subst same
    simp
  · simp [same]

@[simp] theorem Code.setIns_ins_self (c : Code) (pc : BCPos) (i : BCIns) :
    (c.setIns pc i).ins pc = i := by
  rw [setIns_ins, if_pos rfl]

theorem Code.setIns_ins_ne (c : Code) {pc p : BCPos} (i : BCIns) (other : p ≠ pc) :
    (c.setIns pc i).ins p = c.ins p := by
  rw [setIns_ins, if_neg other]

/-- Both codes differ in instructions only. -/
structure Code.SameFrame (c c' : Code) : Prop where
  pc : c'.pc = c.pc
  lasttarget : c'.lasttarget = c.lasttarget
  jpc : c'.jpc = c.jpc
  bcofs : c'.bcofs = c.bcofs

theorem Code.SameFrame.refl (c : Code) : c.SameFrame c := ⟨rfl, rfl, rfl, rfl⟩

theorem Code.SameFrame.trans {c c' c'' : Code} (first : c.SameFrame c') (second : c'.SameFrame c'') :
    c.SameFrame c'' where
  pc := second.pc.trans first.pc
  lasttarget := second.lasttarget.trans first.lasttarget
  jpc := second.jpc.trans first.jpc
  bcofs := second.bcofs.trans first.bcofs

theorem Code.SameFrame.setIns (c : Code) (pc : BCPos) (i : BCIns) : c.SameFrame (c.setIns pc i) :=
  ⟨rfl, rfl, rfl, rfl⟩

/-- Steps on the code that end in an error other than the one for code without
a meaning. -/
abbrev CodeSpec (m : CodeM α) (c : Code) (post : α → Code → Prop) : Prop :=
  wp m c post fun e _ => e ≠ .stuck

theorem bcAt_spec {c : Code} {pc : BCPos} (inside : pc < c.pc) {post : BCIns → Code → Prop}
    (holds : post (c.ins pc) c) : CodeSpec (bcAt pc) c post := by
  unfold bcAt
  rw [CodeSpec, wp_bind, wp_get, if_pos inside]
  exact holds

theorem setBc_spec {c : Code} {pc : BCPos} {i : BCIns} (inside : pc < c.pc)
    {post : Unit → Code → Prop} (holds : post () (c.setIns pc i)) :
    CodeSpec (setBc pc i) c post := by
  unfold setBc
  rw [CodeSpec, wp_bind, wp_get, if_pos inside]
  exact holds

theorem jmpNext_spec {c : Code} {pc : BCPos} (inside : pc < c.pc) {post : BCPos → Code → Prop}
    (holds : post (c.next pc) c) : CodeSpec (jmpNext pc) c post := by
  unfold jmpNext
  rw [CodeSpec, wp_bind, wp_get, if_pos inside]
  exact holds

/-- A jump whose D field has been set to lead to `dest`. -/
structure Retargeted (c : Code) (pc dest : BCPos) (c' : Code) : Prop where
  frame : c.SameFrame c'
  others : ∀ p, p ≠ pc → c'.ins p = c.ins p
  op : (c'.ins pc).op = (c.ins pc).op
  a : (c'.ins pc).a = (c.ins pc).a
  target : jumpTarget c'.ins pc = dest
  next : pc ≠ dest → c'.next pc = dest

theorem jmpPatchins_spec {c : Code} {pc dest : BCPos} (small : c.Small) (inside : pc < c.pc)
    (destInside : dest ≤ c.pc) :
    CodeSpec (jmpPatchins pc dest) c fun _ c' => Retargeted c pc dest c' := by
  unfold jmpPatchins
  rw [CodeSpec, wp_bind]
  refine bcAt_spec inside ?_
  simp only
  split
  · exact fun h => by cases h
  · next fits =>
      refine setBc_spec inside ?_
      have bound : c.pc ≤ 67108864 := small
      have offset : (u32 (dest - (pc + 1) + BCBIAS_J) : Int) = dest - (pc + 1) + BCBIAS_J := by
        refine u32_offset ?_ ?_ (by lia) <;> simp only [BCBIAS_J] <;> lia
      generalize u32 (dest - (pc + 1) + BCBIAS_J) = d at *
      have field : d % 65536 = d := Nat.mod_eq_of_lt (by unfold BCMAX_D at fits; lia)
      have jump : ((c.setIns pc ((c.ins pc).setD d)).ins pc).j = dest - (pc + 1) := by
        simp only [Code.setIns_ins_self, BCIns.setD, BCIns.j, field, offset]
        lia
      refine ⟨.setIns c pc _, fun p other => c.setIns_ins_ne _ other, by simp [BCIns.setD],
        by simp [BCIns.setD], ?_, fun other => ?_⟩
      · rw [jumpTarget, jump]
        lia
      · simp only [Code.next, jump]
        rw [if_neg (by lia)]
        unfold u32
        lia

/-! ## Patching tests -/

/-- A test after `jmp_patchtestreg`, its jump having `a` as A operand. -/
def BCIns.patchTest (i : BCIns) (reg : BCReg) (a : Nat) : BCIns :=
  if i.copies then
    if reg ≠ NO_REG ∧ reg ≠ i.d then i.setA reg
    else (i.setOp (i.op.shift .istc .ist)).setA 0
  else if i.a = NO_REG then
    if reg = NO_REG then .aj .jmp a 0 else i.setA reg
  else i

theorem BCIns.shift_copies {i : BCIns} (copies : i.copies = true) :
    i.op.shift .istc .ist = .ist ∨ i.op.shift .istc .ist = .isf := by
  simp only [BCIns.copies, Bool.or_eq_true, beq_iff_eq] at copies
  rcases copies with isOp | isOp <;> rw [isOp]
  · exact .inl (by decide)
  · exact .inr (by decide)

theorem BCIns.patchTest_of_not_valued {i : BCIns} (notValued : i.valued = false) (reg a : Nat) :
    i.patchTest reg a = i := by
  simp only [valued, Bool.or_eq_false_iff, beq_eq_false_iff_ne] at notValued
  simp [patchTest, notValued.1, notValued.2]

/-- The test of the jump at `j` has been patched. -/
structure PatchedTest (c : Code) (j : BCPos) (reg : BCReg) (c' : Code) : Prop where
  frame : c.SameFrame c'
  test : c'.ins (j - 1) = (c.ins (j - 1)).patchTest reg (c.ins j).a
  jump : c'.Pending j
  same : reg = NO_REG → c'.ins j = c.ins j
  others : ∀ p, p ≠ j → p ≠ j - 1 → c'.ins p = c.ins p

/-- A register of a frame, or none. -/
def Usable (reg : BCReg) : Prop := reg = NO_REG ∨ reg < LJ_MAX_SLOTS

theorem jmpPatchtestreg_spec {c : Code} {j : BCPos} {reg : BCReg} (pending : c.Pending j)
    (usable : Usable reg) :
    CodeSpec (jmpPatchtestreg j reg) c fun valued c' =>
      valued = (c.ins (j - 1)).valued ∧ PatchedTest c j reg c' := by
  have pos := pending.pos
  have inside := pending.inside
  have before : j - 1 < c.pc := by lia
  have apart : j ≠ j - 1 := by lia
  have atTest : testPos j = j - 1 := if_pos pos
  -- One instruction is written, the test.
  have written (i : BCIns) (patched : (c.ins (j - 1)).patchTest reg (c.ins j).a = i) :
      PatchedTest c j reg (c.setIns (j - 1) i) :=
    ⟨.setIns c _ _, by simp [patched], pending.of_eq le_rfl (c.setIns_ins_ne _ apart),
      fun _ => c.setIns_ins_ne _ apart, fun p _ other => c.setIns_ins_ne _ other⟩
  unfold jmpPatchtestreg
  rw [CodeSpec, wp_bind, atTest]
  refine bcAt_spec before ?_
  by_cases copies : (c.ins (j - 1)).op = .istc ∨ (c.ins (j - 1)).op = .isfc
  · have isCopy : (c.ins (j - 1)).copies = true := by simpa [BCIns.copies] using copies
    simp only [if_pos copies]
    split
    · next other =>
        rw [wp_bind]
        refine setBc_spec before ⟨by simp [BCIns.valued, isCopy], written _ ?_⟩
        simp [BCIns.patchTest, isCopy, other]
    · next noOther =>
        rw [wp_bind]
        refine setBc_spec before ⟨by simp [BCIns.valued, isCopy], written _ ?_⟩
        simp [BCIns.patchTest, isCopy, noOther]
  have noCopy : (c.ins (j - 1)).copies = false := by simpa [BCIns.copies] using copies
  simp only [if_neg copies]
  split
  · next hole =>
      have isValued : true = (c.ins (j - 1)).valued := by simp [BCIns.valued, hole]
      split
      · next noReg =>
          rw [wp_bind]
          refine bcAt_spec inside ?_
          rw [wp_bind]
          refine setBc_spec before ⟨isValued, written _ ?_⟩
          simp [BCIns.patchTest, noCopy, hole, noReg]
      · next isReg =>
          have small : reg < 250 := usable.resolve_left isReg
          have patched : (c.ins (j - 1)).patchTest reg (c.ins j).a = (c.ins (j - 1)).setA reg := by
            simp [BCIns.patchTest, noCopy, hole, isReg]
          have atNext : j - 1 + 1 = j := by lia
          rw [wp_bind]
          refine setBc_spec before ?_
          rw [wp_bind, atNext]
          refine bcAt_spec (c := c.setIns (j - 1) _) inside ?_
          split
          · rw [wp_bind]
            refine setBc_spec (c := c.setIns (j - 1) _) inside ⟨isValued, ?_⟩
            refine ⟨(Code.SameFrame.setIns c _ _).trans (.setIns _ _ _), ?_, ⟨pos, inside, ?_, ?_⟩,
              fun noReg => absurd noReg isReg, fun p other other' => ?_⟩
            · rw [Code.setIns_ins_ne _ _ apart.symm, Code.setIns_ins_self, patched]
            · simp [BCIns.setA, Code.setIns_ins_ne _ _ apart, pending.isJmp]
            · simp only [Code.setIns_ins_self, BCIns.setA, NO_REG]
              lia
            · rw [Code.setIns_ins_ne _ _ other, Code.setIns_ins_ne _ _ other']
          · exact ⟨isValued, written _ patched⟩
  · next noHole =>
      have notValued : (c.ins (j - 1)).valued = false := by simp [BCIns.valued, noCopy, noHole]
      refine ⟨notValued.symm, .refl c, ?_, pending, fun _ => rfl, fun _ _ _ => rfl⟩
      rw [BCIns.patchTest_of_not_valued notValued]

theorem PatchedTest.threads {c c' : Code} {j l : BCPos} {js : List BCPos} {reg : BCReg}
    (patched : PatchedTest c j reg c') (fresh : j ∉ js) (threads : Threads c l js) :
    Threads c' l js := by
  refine threads.of_eq patched.frame.pc.ge fun k member => ?_
  have other : k ≠ j := fun same => fresh (same ▸ member)
  by_cases before : k = j - 1
  · subst before
    rw [patched.test, BCIns.patchTest_of_not_valued (threads.pending _ member).not_valued]
  · exact patched.others k other before

/-- `jmp_novalue`. -/
theorem jmpNovalue_spec {c : Code} {l : BCPos} {js : List BCPos} (threads : Threads c l js)
    (small : c.Small) :
    CodeSpec (jmpNovalue l) c fun novalue c' =>
      c' = c ∧ novalue = js.any fun j => !(c.ins (j - 1)).valued := by
  have enough : js.length < c.pc + 1 := Nat.lt_succ_of_le threads.length_le
  unfold jmpNovalue
  rw [CodeSpec, wp_bind, wp_get]
  generalize c.pc + 1 = fuel at enough ⊢
  induction js generalizing l fuel with
  | nil =>
      cases threads
      cases fuel with
      | zero => cases enough
      | succ fuel => exact ⟨rfl, rfl⟩
  | cons j js induction =>
      cases fuel with
      | zero => cases enough
      | succ fuel =>
          have ne := threads.ne_noJmp small.le_noJmp
          obtain rfl := threads.head_eq
          cases threads with
          | cons pending fresh rest =>
              have before : l - 1 < c.pc := lt_of_le_of_lt (Nat.sub_le _ _) pending.inside
              have atTest : testPos l = l - 1 := if_pos pending.pos
              rw [jmpNovalueFrom, if_neg ne, wp_bind, atTest]
              refine bcAt_spec before ?_
              split
              · next unvalued =>
                  refine ⟨rfl, ?_⟩
                  simp only [List.any_cons, BCIns.valued, BCIns.copies, unvalued, Bool.true_or]
              · next isValued =>
                  rw [wp_bind]
                  refine jmpNext_spec pending.inside ?_
                  refine (induction rest fuel (by simpa using enough)).mono ?_ fun _ _ h => h
                  rintro novalue c' ⟨rfl, rfl⟩
                  refine ⟨rfl, ?_⟩
                  simp only [Bool.not_eq_true] at isValued
                  simp only [List.any_cons, BCIns.valued, BCIns.copies, isValued, Bool.false_or]

/-- The tests of all the jumps of a list have been patched. -/
structure PatchedTests (c : Code) (js : List BCPos) (reg : BCReg) (c' : Code) : Prop where
  frame : c.SameFrame c'
  jumps : ∀ j ∈ js, c'.Pending j
  tests : ∀ p, p ∉ js → p + 1 ∈ js → c'.ins p = (c.ins p).patchTest reg (c.ins (p + 1)).a
  others : ∀ p, p ∉ js → p + 1 ∉ js → c'.ins p = c.ins p

theorem PatchedTests.nil (c : Code) (reg : BCReg) : PatchedTests c [] reg c :=
  ⟨.refl c, fun _ member => (by cases member), fun _ _ member => (by cases member), fun _ _ _ => rfl⟩

/-- A jump is no test, so patching the tests of other jumps leaves it alone. -/
theorem PatchedTests.jump_eq {c c' : Code} {js : List BCPos} {reg : BCReg} {k : BCPos}
    (patched : PatchedTests c js reg c') (pending : c.Pending k) (other : k ∉ js) :
    c'.ins k = c.ins k := by
  by_cases next : k + 1 ∈ js
  · rw [patched.tests k other next, BCIns.patchTest_of_not_valued pending.not_valued]
  · exact patched.others k other next

/-- First the test of the jump at `j` is patched and the jump itself set, then
the tests of the jumps `js`. -/
theorem PatchedTests.cons {c c₁ c₂ c' : Code} {j : BCPos} {js : List BCPos} {reg : BCReg}
    (pending : c.Pending j) (fresh : j ∉ js) (allPending : ∀ k ∈ js, c.Pending k)
    (test : PatchedTest c j reg c₁) (frame : c₁.SameFrame c₂) (jump : c₂.Pending j)
    (same : ∀ p, p ≠ j → c₂.ins p = c₁.ins p) (rest : PatchedTests c₂ js reg c') :
    PatchedTests c (j :: js) reg c' := by
  have pos := pending.pos
  -- The jumps of `js` are as before.
  have untouched (k : BCPos) (member : k ∈ js) : c₂.ins k = c.ins k := by
    have other : k ≠ j := fun same => fresh (same ▸ member)
    rw [same k other]
    by_cases before : k = j - 1
    · subst before
      rw [test.test, BCIns.patchTest_of_not_valued (allPending _ member).not_valued]
    · exact test.others k other before
  refine ⟨test.frame.trans (frame.trans rest.frame), fun k member => ?_, fun p notMember next => ?_,
    fun p notMember notNext => ?_⟩
  · rcases List.mem_cons.mp member with rfl | member
    · exact jump.of_eq rest.frame.pc.ge (rest.jump_eq jump fresh)
    · exact rest.jumps k member
  · rw [List.mem_cons, not_or] at notMember
    rcases List.mem_cons.mp next with rfl | next
    · have isTest : p + 1 - 1 = p := by lia
      have patched := test.test
      rw [isTest] at patched
      rw [rest.others p notMember.2 fresh, same p notMember.1, patched]
    · have notBefore : p ≠ j - 1 := by
        rintro rfl
        exact fresh ((show j - 1 + 1 = j by lia) ▸ next)
      rw [rest.tests p notMember.2 next, untouched (p + 1) next, same p notMember.1,
        test.others p notMember.1 notBefore]
  · simp only [List.mem_cons, not_or] at notMember notNext
    have notBefore : p ≠ j - 1 := by lia
    rw [rest.others p notMember.2 notNext.2, same p notMember.1,
      test.others p notMember.1 notBefore]

/-- `jmp_dropval`. -/
theorem jmpDropval_spec {c : Code} {l : BCPos} {js : List BCPos} (threads : Threads c l js)
    (small : c.Small) :
    CodeSpec (jmpDropval l) c fun _ c' => PatchedTests c js NO_REG c' ∧ Threads c' l js := by
  have enough : js.length < c.pc + 1 := Nat.lt_succ_of_le threads.length_le
  unfold jmpDropval
  rw [CodeSpec, wp_bind, wp_get]
  generalize c.pc + 1 = fuel at enough ⊢
  induction js generalizing c l fuel with
  | nil =>
      cases threads
      cases fuel with
      | zero => cases enough
      | succ fuel => exact ⟨.nil c _, .nil⟩
  | cons j js induction =>
      cases fuel with
      | zero => cases enough
      | succ fuel =>
          have ne := threads.ne_noJmp small.le_noJmp
          have allPending := threads.pending
          obtain rfl := threads.head_eq
          cases threads with
          | cons pending fresh rest =>
              rw [jmpDropvalFrom, if_pos ne, wp_bind]
              refine (jmpPatchtestreg_spec pending (.inl rfl)).mono ?_ fun _ _ h => h
              rintro _ c₁ ⟨-, test⟩
              rw [wp_bind]
              have sameNext : c₁.next l = c.next l := by rw [Code.next, Code.next, test.same rfl]
              refine jmpNext_spec test.jump.inside ?_
              rw [sameNext]
              have small₁ : c₁.Small := test.frame.pc.le.trans small
              refine (induction (test.threads fresh rest) small₁ fuel (by simpa using enough)).mono ?_
                fun _ _ h => h
              rintro _ c' ⟨patched, threads⟩
              have sameJump : c'.ins l = c₁.ins l := patched.jump_eq test.jump fresh
              refine ⟨.cons pending fresh (fun k member => allPending k (.tail _ member)) test
                (.refl c₁) test.jump (fun _ _ => rfl) patched,
                .cons (test.jump.of_eq patched.frame.pc.ge sameJump) fresh ?_⟩
              have sameNext' : c'.next l = c.next l := by
                rw [← sameNext, Code.next, Code.next, sameJump]
              rw [sameNext']
              exact threads

/-- The instruction before another jump produces a value after the patch exactly
when it did before. -/
theorem PatchedTest.valued_eq {c c' : Code} {j k : BCPos} {reg : BCReg}
    (patched : PatchedTest c j reg c') (pending : c.Pending j) (other : k ≠ j) (pos : 1 ≤ k) :
    (c'.ins (k - 1)).valued = (c.ins (k - 1)).valued := by
  have jpos := pending.pos
  by_cases atJump : k - 1 = j
  · rw [atJump, patched.jump.not_valued, pending.not_valued]
  · rw [patched.others _ atJump (by lia)]

/-- The jumps of a list have been set, those that bring a value to `vtarget`. -/
structure PatchedVals (c : Code) (js : List BCPos) (vtarget : BCPos) (reg : BCReg)
    (dtarget : BCPos) (c' : Code) : Prop extends PatchedTests c js reg c' where
  target : ∀ j ∈ js, jumpTarget c'.ins j = if (c.ins (j - 1)).valued then vtarget else dtarget

theorem jumpTarget_congr {ins ins' : BCPos → BCIns} {j : BCPos} (same : ins' j = ins j) :
    jumpTarget ins' j = jumpTarget ins j := by
  rw [jumpTarget, jumpTarget, same]

/-- `jmp_patchval`. -/
theorem jmpPatchval_spec {c : Code} {l vtarget dtarget : BCPos} {reg : BCReg} {js : List BCPos}
    (threads : Threads c l js) (small : c.Small) (usable : Usable reg) (vInside : vtarget ≤ c.pc)
    (dInside : (∃ j ∈ js, (c.ins (j - 1)).valued = false) → dtarget ≤ c.pc) :
    CodeSpec (jmpPatchval l vtarget reg dtarget) c fun _ c' =>
      PatchedVals c js vtarget reg dtarget c' := by
  have enough : js.length < c.pc + 1 := Nat.lt_succ_of_le threads.length_le
  unfold jmpPatchval
  rw [CodeSpec, wp_bind, wp_get]
  generalize c.pc + 1 = fuel at enough ⊢
  induction js generalizing c l fuel with
  | nil =>
      cases threads
      cases fuel with
      | zero => cases enough
      | succ fuel => exact ⟨.nil c _, fun _ member => by cases member⟩
  | cons j js induction =>
      cases fuel with
      | zero => cases enough
      | succ fuel =>
          have ne := threads.ne_noJmp small.le_noJmp
          have allPending := threads.pending
          obtain rfl := threads.head_eq
          cases threads with
          | cons pending fresh rest =>
              rw [jmpPatchvalFrom, if_pos ne, wp_bind]
              refine jmpNext_spec pending.inside ?_
              rw [wp_bind]
              refine (jmpPatchtestreg_spec pending usable).mono ?_ fun _ _ h => h
              rintro valued c₁ ⟨rfl, test⟩
              have small₁ : c₁.Small := test.frame.pc.le.trans small
              -- Both branches set the jump and go on with the rest of the list.
              suffices goOn : ∀ dest ≤ c.pc,
                  dest = (if (c.ins (l - 1)).valued then vtarget else dtarget) →
                  CodeSpec (do jmpPatchins l dest; jmpPatchvalFrom fuel (c.next l) vtarget reg dtarget)
                    c₁ fun _ c' => PatchedVals c (l :: js) vtarget reg dtarget c' by
                cases isValued : (c.ins (l - 1)).valued with
                | true => exact goOn vtarget vInside (by rw [isValued]; rfl)
                | false =>
                    exact goOn dtarget (dInside ⟨l, .head _, isValued⟩) (by rw [isValued]; rfl)
              intro dest destInside isDest
              rw [CodeSpec, wp_bind]
              refine (jmpPatchins_spec small₁ test.jump.inside
                (destInside.trans test.frame.pc.ge)).mono ?_ fun _ _ h => h
              intro _ c₂ set
              have jump : c₂.Pending l :=
                ⟨pending.pos, test.jump.inside.trans_eq set.frame.pc.symm,
                  set.op.trans test.jump.isJmp, set.a ▸ test.jump.real⟩
              have rest₂ : Threads c₂ (c.next l) js :=
                (test.threads fresh rest).of_eq set.frame.pc.ge fun k member =>
                  set.others k fun same => fresh (same ▸ member)
              have valued_eq (k : BCPos) (member : k ∈ js) :
                  (c₂.ins (k - 1)).valued = (c.ins (k - 1)).valued := by
                have other : k ≠ l := fun same => fresh (same ▸ member)
                have pos := (rest.pending k member).pos
                rw [← test.valued_eq pending other pos]
                by_cases atJump : k - 1 = l
                · rw [atJump, jump.not_valued, test.jump.not_valued]
                · rw [set.others _ atJump]
              have samePc : c₂.pc = c.pc := set.frame.pc.trans test.frame.pc
              refine (induction rest₂ (set.frame.pc.le.trans small₁) (vInside.trans samePc.ge)
                (fun ⟨k, member, notValued⟩ => (dInside ⟨k, .tail _ member,
                  (valued_eq k member).symm.trans notValued⟩).trans samePc.ge)
                fuel (by simpa using enough)).mono ?_ fun _ _ h => h
              intro _ c' patched
              refine ⟨.cons pending fresh (fun k member => allPending k (.tail _ member)) test
                set.frame jump set.others patched.toPatchedTests, fun k member => ?_⟩
              rcases List.mem_cons.mp member with rfl | member
              · rw [jumpTarget_congr (patched.jump_eq jump fresh), set.target, isDest]
              · rw [patched.target k member, valued_eq k member]

/-! ## Joining lists -/

/-- Only the links of some jumps differ. -/
structure Relinked (c : Code) (js : List BCPos) (c' : Code) : Prop where
  frame : c.SameFrame c'
  jumps : ∀ j ∈ js, (c'.ins j).op = (c.ins j).op ∧ (c'.ins j).a = (c.ins j).a
  others : ∀ p, p ∉ js → c'.ins p = c.ins p

theorem Relinked.refl (c : Code) (js : List BCPos) : Relinked c js c :=
  ⟨.refl c, fun _ _ => ⟨rfl, rfl⟩, fun _ _ => rfl⟩

theorem jmpLastFrom_spec {c : Code} {j : BCPos} {js : List BCPos} (threads : Threads c j (j :: js))
    (small : c.Small) (fuel : Nat) (enough : (j :: js).length ≤ fuel) :
    CodeSpec (jmpLastFrom fuel j) c fun last c' =>
      c' = c ∧ last = (j :: js).getLast (List.cons_ne_nil j js) := by
  induction js generalizing j fuel with
  | nil =>
      cases fuel with
      | zero => cases enough
      | succ fuel =>
          cases threads with
          | cons pending fresh rest =>
              rw [jmpLastFrom, CodeSpec, wp_bind]
              refine jmpNext_spec pending.inside ?_
              rw [if_pos ((rest.eq_noJmp_iff small.le_noJmp).mpr rfl)]
              exact ⟨rfl, rfl⟩
  | cons k js induction =>
      cases fuel with
      | zero => cases enough
      | succ fuel =>
          cases threads with
          | cons pending fresh rest =>
              rw [jmpLastFrom, CodeSpec, wp_bind]
              refine jmpNext_spec pending.inside ?_
              rw [if_neg (rest.ne_noJmp small.le_noJmp), rest.head_eq]
              rw [rest.head_eq] at rest
              exact induction rest fuel (by simpa using enough)

/-- Setting the last jump of a list to another list joins them. -/
theorem Threads.append {c c' : Code} {j l : BCPos} {js ks : List BCPos}
    (threads : Threads c j (j :: js)) (apart : ∀ k ∈ j :: js, k ∉ ks)
    (set : Retargeted c ((j :: js).getLast (List.cons_ne_nil j js)) l c') (notSelf : l ∉ j :: js)
    (tail : Threads c' l ks) : Threads c' j (j :: js ++ ks) := by
  induction js generalizing j with
  | nil =>
      cases threads with
      | cons pending fresh rest =>
          have next : c'.next j = l := set.next fun same => notSelf (same ▸ .head _)
          refine .cons ⟨pending.pos, pending.inside.trans_eq set.frame.pc.symm,
            set.op.trans pending.isJmp, set.a ▸ pending.real⟩ (apart j (.head _)) ?_
          rw [next]
          exact tail
  | cons k js induction =>
      cases threads with
      | cons pending fresh rest =>
          have isHead := rest.head_eq
          rw [isHead] at rest
          have inTail := List.getLast_mem (List.cons_ne_nil k js)
          have other : j ≠ (k :: js).getLast (List.cons_ne_nil k js) := by
            intro same
            rw [same] at fresh
            exact fresh inTail
          have same : c'.ins j = c.ins j := set.others j other
          have sameNext : c'.next j = k := by rw [Code.next, same, ← isHead]; rfl
          refine .cons (pending.of_eq set.frame.pc.ge same) ?_ ?_
          · exact fun member => (List.mem_append.mp member).elim fresh (apart j (.head _))
          · rw [sameNext]
            exact induction rest (fun i member => apart i (.tail _ member)) set
              fun member => notSelf (.tail _ member)

/-- `jmp_append`. -/
theorem jmpAppend_spec {c : Code} {l₁ l₂ : BCPos} {js ks : List BCPos} (first : Threads c l₁ js)
    (second : Threads c l₂ ks) (apart : ∀ j ∈ js, j ∉ ks) (small : c.Small) :
    CodeSpec (jmpAppend l₁ l₂) c fun l c' => Threads c' l (js ++ ks) ∧ Relinked c js c' := by
  unfold jmpAppend
  cases ks with
  | nil =>
      rw [CodeSpec, if_pos ((second.eq_noJmp_iff small.le_noJmp).mpr rfl), List.append_nil]
      exact ⟨first, .refl c js⟩
  | cons k ks =>
      rw [CodeSpec, if_neg (second.ne_noJmp small.le_noJmp)]
      cases js with
      | nil =>
          rw [if_pos ((first.eq_noJmp_iff small.le_noJmp).mpr rfl)]
          exact ⟨second, .refl c []⟩
      | cons j js =>
          have enough := first.length_le
          have isHead := first.head_eq
          have isHead₂ := second.head_eq
          subst isHead isHead₂
          rw [if_neg (first.ne_noJmp small.le_noJmp), wp_bind, wp_get, wp_bind]
          refine (jmpLastFrom_spec first small _ (Nat.le_succ_of_le enough)).mono ?_ fun _ _ h => h
          rintro last _ ⟨rfl, rfl⟩
          have isLast := List.getLast_mem (List.cons_ne_nil l₁ js)
          have inside := (first.pending _ isLast).inside
          rw [wp_bind]
          refine (jmpPatchins_spec small inside
            (second.pending l₂ (.head _)).inside.le).mono ?_ fun _ _ h => h
          intro _ c' set
          have tail : Threads c' l₂ (l₂ :: ks) :=
            second.of_eq set.frame.pc.ge fun k member => set.others k fun same =>
              apart _ isLast (same ▸ member)
          refine ⟨first.append apart set (fun member => apart _ member (.head _)) tail, set.frame,
            fun i member => ?_, fun p notMember => set.others p fun same => notMember (same ▸ isLast)⟩
          by_cases atLast : i = (l₁ :: js).getLast (List.cons_ne_nil l₁ js)
          · rw [atLast]
            exact ⟨set.op, set.a⟩
          · rw [set.others i atLast]
            exact ⟨rfl, rfl⟩

/-- `jmp_tohere`. -/
theorem jmpTohere_spec {c : Code} {l : BCPos} {js ks : List BCPos} (here : Threads c c.jpc js)
    (threads : Threads c l ks) (apart : ∀ j ∈ js, j ∉ ks) (small : c.Small) :
    CodeSpec (jmpTohere l) c fun _ c' =>
      Threads c' c'.jpc (js ++ ks) ∧ c'.pc = c.pc ∧ c'.bcofs = c.bcofs ∧ c'.lasttarget = c.pc ∧
        (∀ j ∈ js, (c'.ins j).op = (c.ins j).op ∧ (c'.ins j).a = (c.ins j).a) ∧
        ∀ p, p ∉ js → c'.ins p = c.ins p := by
  unfold jmpTohere markTarget setJpc
  rw [CodeSpec, wp_bind, wp_modify, wp_bind, wp_get, wp_bind]
  have marked (l : BCPos) (js : List BCPos) (threads : Threads c l js) :
      Threads { c with lasttarget := c.pc } l js := threads.of_eq le_rfl fun _ _ => rfl
  refine (jmpAppend_spec (marked _ _ here) (marked _ _ threads) apart small).mono ?_ fun _ _ h => h
  intro l' c' ⟨joined, relinked⟩
  rw [wp_modify]
  exact ⟨joined.of_eq le_rfl fun _ _ => rfl, relinked.frame.pc, relinked.frame.bcofs,
    relinked.frame.lasttarget, relinked.jumps, relinked.others⟩

/-! ## Emission -/

/-- An instruction has been added: the jumps that were waiting for it now lead to
it, whatever values they brought. -/
structure Pushed (c : Code) (js : List BCPos) (i : BCIns) (c' : Code) : Prop where
  pc : c'.pc = c.pc + 1
  lasttarget : c'.lasttarget = c.lasttarget
  jpc : c'.jpc = NO_JMP
  ins : c'.ins c.pc = i
  jumps : ∀ j ∈ js, c'.Pending j
  target : ∀ j ∈ js, jumpTarget c'.ins j = c.pc
  tests : ∀ p, p ∉ js → p + 1 ∈ js → c'.ins p = (c.ins p).patchTest NO_REG (c.ins (p + 1)).a
  others : ∀ p < c.pc, p ∉ js → p + 1 ∉ js → c'.ins p = c.ins p
  small : c'.Small

theorem emitIns_spec {c : Code} {js : List BCPos} {line : BCLine} {i : BCIns}
    (here : Threads c c.jpc js) (small : c.Small) :
    CodeSpec (emitIns line i) c fun pos c' => pos = c.pc ∧ Pushed c js i c' := by
  unfold emitIns setJpc pushIns
  rw [CodeSpec, wp_bind, wp_get, wp_bind, wp_get, wp_bind]
  refine (jmpPatchval_spec here small (.inl rfl) le_rfl (fun _ => le_rfl)).mono ?_ fun _ _ h => h
  intro _ c₁ patched
  rw [wp_bind, wp_modify, wp_bind, wp_get]
  split
  · rw [wp_bind]
    exact fun h => by cases h
  · next below =>
      rw [wp_bind, wp_modify]
      have samePc := patched.frame.pc
      have keeps (p : BCPos) (old : p < c.pc) :
          Code.ins { c₁ with
            jpc := NO_JMP, bcbase := Function.update c₁.bcbase c₁.pc ⟨i, line⟩,
            pc := c₁.pc + 1 } p = c₁.ins p := by
        have other : p ≠ c₁.pc := by lia
        simp [Code.ins, other]
      refine ⟨rfl, by simp [samePc], patched.frame.lasttarget, rfl, by simp [Code.ins, samePc],
        fun j member => ?_, fun j member => ?_, fun p notMember next => ?_,
        fun p old notMember notNext => ?_, ?_⟩
      · have inside := (here.pending j member).inside
        exact (patched.jumps j member).of_eq (Nat.le_succ _) (keeps j inside)
      · have inside := (here.pending j member).inside
        rw [jumpTarget_congr (keeps j inside), patched.target j member, ite_self]
      · have inside := (here.pending _ next).inside
        rw [keeps p (by lia), patched.tests p notMember next]
      · rw [keeps p old, patched.others p notMember notNext]
      · simp only [not_le, LJ_MAX_BCINS, ge_iff_le] at below
        have : c₁.pc + 1 ≤ LJ_MAX_BCINS := by
          simp only [LJ_MAX_BCINS]
          lia
        exact this

/-- The end of a jump list. -/
theorem BCIns.aj_end {op : BCOp} {a : Nat} (small : a < 256) : (aj op a (-1)).j = -1 := by
  have offset : u32 (-1 + BCBIAS_J) = 32767 := by decide
  rw [j, aj, offset, ad_d small (by decide)]
  decide

/-- A jump to the next instruction. -/
theorem BCIns.aj_next {op : BCOp} {a : Nat} (small : a < 256) : (aj op a 0).j = 0 := by
  have offset : u32 (0 + BCBIAS_J) = 32768 := by decide
  rw [j, aj, offset, ad_d small (by decide)]
  decide

/-- A jump without a target has been added. It leads where the jumps do that were
waiting for it. -/
structure PushedJump (c : Code) (js : List BCPos) (c' : Code) : Prop where
  pc : c'.pc = c.pc + 1
  lasttarget : c'.lasttarget = c.lasttarget
  jpc : c'.jpc = NO_JMP
  jump : c'.Pending c.pc
  others : ∀ p < c.pc, c'.ins p = c.ins p
  small : c'.Small

/-- `bcemit_jmp`, after an instruction other than `UCLO`. -/
theorem emitJmp_spec {c : Code} {js : List BCPos} {line : BCLine} {freereg : BCReg}
    (here : Threads c c.jpc js) (small : c.Small) (pos : 1 ≤ c.pc)
    (noUclo : (c.ins (c.pc - 1)).op ≠ .uclo) (isReg : freereg < LJ_MAX_SLOTS) :
    CodeSpec (emitJmp line freereg) c fun l c' =>
      Threads c' l (c.pc :: js) ∧ PushedJump c js c' := by
  unfold emitJmp setJpc
  rw [CodeSpec, wp_bind, wp_get, wp_bind]
  refine bcAt_spec (by lia) ?_
  rw [wp_bind, wp_modify]
  have noReuse : ¬(c.lasttarget ≤ c.pc - 1 ∧ (c.ins (c.pc - 1)).op = .uclo) :=
    fun reuse => noUclo reuse.2
  simp only [if_neg noReuse]
  rw [wp_bind]
  have cleared : Threads { c with jpc := NO_JMP } NO_JMP [] := .nil
  refine (emitIns_spec (c := { c with jpc := NO_JMP }) cleared small).mono ?_ fun _ _ h => h
  rintro pos' c₁ ⟨rfl, pushed⟩
  have old (p : BCPos) (below : p < c.pc) : c₁.ins p = c.ins p :=
    pushed.others p below (List.not_mem_nil) (List.not_mem_nil)
  have jump : c₁.Pending c.pc := by
    refine ⟨pos, by rw [pushed.pc]; exact Nat.lt_succ_self _, by rw [pushed.ins]; rfl, ?_⟩
    rw [pushed.ins]
    simp only [BCIns.aj, BCIns.ad, NO_REG, LJ_MAX_SLOTS] at isReg ⊢
    lia
  have here₁ : Threads c₁ c.jpc js :=
    here.of_eq (by rw [pushed.pc]; exact Nat.le_succ _) fun j member =>
      old j (here.pending j member).inside
  have single : Threads c₁ c.pc [c.pc] := by
    refine .cons jump List.not_mem_nil ?_
    have link : c₁.next c.pc = NO_JMP := by
      rw [Code.next, pushed.ins]
      exact if_pos (BCIns.aj_end (isReg.trans (by decide)))
    rw [link]
    exact .nil
  have apart : ∀ j ∈ [c.pc], j ∉ js := by
    intro j member inList
    rw [List.mem_singleton.mp member] at inList
    exact absurd (here.pending _ inList).inside (Nat.lt_irrefl _)
  refine (jmpAppend_spec single here₁ apart pushed.small).mono ?_ fun _ _ h => h
  rintro l c' ⟨threads, relinked⟩
  have isJump := relinked.jumps c.pc (.head _)
  refine ⟨threads, relinked.frame.pc.trans pushed.pc, relinked.frame.lasttarget.trans pushed.lasttarget,
    relinked.frame.jpc.trans pushed.jpc, ⟨pos, ?_, isJump.1.trans jump.isJmp, isJump.2 ▸ jump.real⟩,
    fun p below => ?_, relinked.frame.pc.le.trans pushed.small⟩
  · rw [relinked.frame.pc]
    exact jump.inside
  · rw [relinked.others p (by simpa using below.ne), old p below]

end TvmJit
