import TvmJit.Ir.Stores

/-! Dead-code elimination of `lj_opt_dce.c`. The pass marks what snapshots refer to and goes
down the buffer: an instruction that is marked or has a side effect is kept and marks its
operands, any other one is taken off its chain and becomes a NOP. -/

namespace TvmJit

open Foundation Function JitState

/-! ## The pass -/

def JitState.setMark (J : JitState) (ref : IRRef) : JitState :=
  J.setIR ref { J.IR ref with t := irt_setmark (J.IR ref).t }

/-- References below `REF_FIRST` are constants, the base or literals. -/
def JitState.markRef (J : JitState) (ref : IRRef) : JitState :=
  if REF_FIRST ≤ ref then J.setMark ref else J

/-- Scan through all snapshots, each given by the references of its entries, and mark all
referenced instructions. -/
def dce_marksnap (J : JitState) (snap : List (List IRRef1)) : JitState :=
  snap.flatten.foldl (fun J ref => J.markRef ref.toNat) J

/-- The links of the chains that removed instructions are taken off. -/
abbrev PChain := IROp → Link IRRef

def markOperands (J : JitState) (ir : IRIns) : JitState :=
  (J.markRef ir.op1.toNat).markRef ir.op2.toNat

/-- One instruction. The link moves on for marked instructions only. -/
def dceVisit (J : JitState) (pchain : PChain) (ins : IRRef) : JitState × PChain :=
  let ir := J.IR ins
  if irt_ismarked ir.t then
    (markOperands (J.setIR ins { ir with t := irt_clearmark ir.t }) ir,
      update pchain ir.o (some ins))
  else if ¬ ir_sideeff ir then (J.unlink ir.o (pchain ir.o) ins, pchain)
  else (markOperands J ir, pchain)

/-- Backwards over the first instructions. -/
def dceLoop : Nat → JitState → PChain → JitState
  | 0, J, _ => J
  | n + 1, J, pchain =>
      let (J, pchain) := dceVisit J pchain (REF_FIRST + n)
      dceLoop n J pchain

def dce_propagate (J : JitState) : JitState := dceLoop (J.nins - REF_FIRST) J fun _ => none

def lj_opt_dce (J : JitState) (snap : List (List IRRef1)) : JitState :=
  if J.optDCE then dce_propagate (dce_marksnap J snap) else J

/-! ## What is used -/

/-- The instruction has the reference as an operand. -/
def IRIns.Operand (ir : IRIns) (ref : IRRef) : Prop :=
  REF_FIRST ≤ ref ∧ (ir.op1.toNat = ref ∨ ir.op2.toNat = ref)

/-- Some snapshot refers to the instruction. -/
def InSnap (snap : List (List IRRef1)) (ref : IRRef) : Prop :=
  REF_FIRST ≤ ref ∧ ∃ entry ∈ snap.flatten, entry.toNat = ref

section

variable (J : JitState) (snap : List (List IRRef1))

/-- A snapshot or a later instruction that is kept needs the instruction. -/
inductive Used : IRRef → Prop
  | marked {ref} : irt_ismarked (J.IR ref).t → Used ref
  | snap {ref} : InSnap snap ref → Used ref
  | operand {ref ins} : ref < ins → ins < J.nins → Used ins → (J.IR ins).Operand ref → Used ref
  | effect {ref ins} : ref < ins → ins < J.nins → ir_sideeff (J.IR ins) → (J.IR ins).Operand ref →
      Used ref

/-- Instructions with the opcode that stay although nothing uses them. -/
def OnlyEffect (op : IROp) (ref : IRRef) : Prop :=
  J.has op ref ∧ ¬ Used J snap ref ∧ ir_sideeff (J.IR ref)

/-- Instructions with the opcode that go. -/
def Removed (op : IROp) (ref : IRRef) : Prop :=
  REF_FIRST ≤ ref ∧ J.has op ref ∧ ¬ Used J snap ref ∧ ¬ ir_sideeff (J.IR ref)

/-- A used instruction stands between an instruction that goes and a later one, with the same
opcode, that is kept only for its side effect. -/
def DceSafe : Prop :=
  ∀ op ref effect, op ≠ .nop → ref < effect → effect < J.nins →
    Removed J snap op ref → OnlyEffect J snap op effect →
    ∃ used, ref < used ∧ used < effect ∧ J.has op used ∧ Used J snap used

/-- What has marked an instruction before the pass comes to the instructions below `bound`. -/
def MarkedFrom (bound ref : IRRef) : Prop :=
  irt_ismarked (J.IR ref).t ∨ InSnap snap ref ∨
    ∃ ins, bound ≤ ins ∧ ins < J.nins ∧ (Used J snap ins ∨ ir_sideeff (J.IR ins)) ∧
      (J.IR ins).Operand ref

end

section

variable {J : JitState} {snap : List (List IRRef1)} {ref : IRRef}

theorem used_iff : Used J snap ref ↔ MarkedFrom J snap (ref + 1) ref := by
  constructor
  · rintro (marked | inSnap | ⟨above, inside, used, operand⟩ | ⟨above, inside, effect, operand⟩)
    · exact .inl marked
    · exact .inr (.inl inSnap)
    · exact .inr (.inr ⟨_, above, inside, .inl used, operand⟩)
    · exact .inr (.inr ⟨_, above, inside, .inr effect, operand⟩)
  · rintro (marked | inSnap | ⟨ins, above, inside, used | effect, operand⟩)
    · exact .marked marked
    · exact .snap inSnap
    · exact .operand above inside used operand
    · exact .effect above inside effect operand

/-- One more instruction that is kept marks its operands. -/
theorem markedFrom_kept {ins : IRRef} (inside : ins < J.nins)
    (kept : Used J snap ins ∨ ir_sideeff (J.IR ins)) : MarkedFrom J snap ins ref ↔
      MarkedFrom J snap (ins + 1) ref ∨ (J.IR ins).Operand ref := by
  constructor
  · rintro (marked | inSnap | ⟨a, above, high, keptA, operand⟩)
    · exact .inl (.inl marked)
    · exact .inl (.inr (.inl inSnap))
    · rcases Nat.eq_or_lt_of_le above with rfl | above
      · exact .inr operand
      · exact .inl (.inr (.inr ⟨a, above, high, keptA, operand⟩))
  · rintro ((marked | inSnap | ⟨a, above, high, keptA, operand⟩) | operand)
    · exact .inl marked
    · exact .inr (.inl inSnap)
    · exact .inr (.inr ⟨a, Nat.le_of_succ_le above, high, keptA, operand⟩)
    · exact .inr (.inr ⟨ins, Nat.le_refl _, inside, kept, operand⟩)

theorem markedFrom_removed {ins : IRRef} (removed : ¬ (Used J snap ins ∨ ir_sideeff (J.IR ins))) :
    MarkedFrom J snap ins ref ↔ MarkedFrom J snap (ins + 1) ref := by
  constructor
  · rintro (marked | inSnap | ⟨a, above, high, keptA, operand⟩)
    · exact .inl marked
    · exact .inr (.inl inSnap)
    · rcases Nat.eq_or_lt_of_le above with rfl | above
      · exact absurd keptA removed
      · exact .inr (.inr ⟨a, above, high, keptA, operand⟩)
  · rintro (marked | inSnap | ⟨a, above, high, keptA, operand⟩)
    · exact .inl marked
    · exact .inr (.inl inSnap)
    · exact .inr (.inr ⟨a, Nat.le_of_succ_le above, high, keptA, operand⟩)

end

/-! ## Changes of marks -/

@[simp] theorem ir_sideeff_setmark (ir : IRIns) :
    ir_sideeff { ir with t := irt_setmark ir.t } = ir_sideeff ir := by
  have same : ∀ t : IRType1, irt_setmark t ||| ~~~IRT_GUARD = t ||| ~~~IRT_GUARD := by decide
  rw [ir_sideeff, ir_sideeff, same]

@[simp] theorem ir_sideeff_clearmark (ir : IRIns) :
    ir_sideeff { ir with t := irt_clearmark ir.t } = ir_sideeff ir := by
  have same : ∀ t : IRType1, irt_clearmark t ||| ~~~IRT_GUARD = t ||| ~~~IRT_GUARD := by decide
  rw [ir_sideeff, ir_sideeff, same]

/-- Only the marks of instructions are different. -/
structure Remarked (J J' : JitState) : Prop where
  nins : J'.nins = J.nins
  nk : J'.nk = J.nk
  chain : J'.chain = J.chain
  below : ∀ ref, ref < REF_BIAS → J'.ir ref = J.ir ref
  op12 : ∀ ref, (J'.IR ref).op12 = (J.IR ref).op12
  o : ∀ ref, (J'.IR ref).o = (J.IR ref).o
  prev : ∀ ref, (J'.IR ref).prev = (J.IR ref).prev
  sideeff : ∀ ref, ir_sideeff (J'.IR ref) = ir_sideeff (J.IR ref)
  has : ∀ op ref, op ≠ .nop → J'.has op ref = J.has op ref

namespace Remarked

variable {J J' J'' : JitState} {ref : IRRef}

theorem refl (J : JitState) : Remarked J J :=
  ⟨rfl, rfl, rfl, fun _ _ => rfl, fun _ => rfl, fun _ => rfl, fun _ => rfl, fun _ => rfl,
    fun _ _ _ => rfl⟩

theorem trans (first : Remarked J J') (second : Remarked J' J'') : Remarked J J'' where
  nins := second.nins.trans first.nins
  nk := second.nk.trans first.nk
  chain := second.chain.trans first.chain
  below ref low := (second.below ref low).trans (first.below ref low)
  op12 ref := (second.op12 ref).trans (first.op12 ref)
  o ref := (second.o ref).trans (first.o ref)
  prev ref := (second.prev ref).trans (first.prev ref)
  sideeff ref := (second.sideeff ref).trans (first.sideeff ref)
  has op ref notNop := (second.has op ref notNop).trans (first.has op ref notNop)

theorem setType (above : REF_BIAS ≤ ref) {t : IRType1}
    (same : ir_sideeff { J.IR ref with t } = ir_sideeff (J.IR ref)) :
    Remarked J (J.setIR ref { J.IR ref with t }) where
  nins := rfl
  nk := rfl
  chain := rfl
  below r low := by
    have other : r ≠ ref := Nat.ne_of_lt (Nat.lt_of_lt_of_le low above)
    simp [JitState.setIR, other]
  op12 r := by
    rw [JitState.IR_setIR]
    split <;> simp [*]
  o r := by
    rw [JitState.IR_setIR]
    split <;> simp [*]
  prev r := by
    rw [JitState.IR_setIR]
    split <;> simp [*]
  sideeff r := by
    rw [JitState.IR_setIR]
    split
    · rename_i isRef
      rw [same, isRef]
    · rfl
  has op r notNop := by
    rw [JitState.has_setIR]
    split
    · rename_i isRef
      cases slot : J.ir ref with
      | ins ir => simp [isRef, JitState.has, slot, JitState.IR]
      | tv u64 => simp [isRef, JitState.has, slot, JitState.IR, notNop.symm]
    · rfl

theorem markRef (J : JitState) (ref : IRRef) : Remarked J (J.markRef ref) := by
  rw [JitState.markRef]
  split
  · rename_i above
    exact setType (Nat.le_of_succ_le above) (ir_sideeff_setmark _)
  · exact refl J

theorem markOperands (J : JitState) (ir : IRIns) : Remarked J (markOperands J ir) :=
  (markRef J _).trans (markRef _ _)

theorem marksnap (J : JitState) (snap : List (List IRRef1)) : Remarked J (dce_marksnap J snap) := by
  rw [dce_marksnap]
  induction snap.flatten generalizing J with
  | nil => exact refl J
  | cons ref refs induction => exact (markRef J ref.toNat).trans (induction _)

theorem places (remarked : Remarked J J') (op : IROp) : J'.places op = J.places op := by
  simp only [JitState.places, remarked.nins, remarked.nk]

theorem refs (remarked : Remarked J J') {op : IROp} (notNop : op ≠ .nop) :
    J'.refs op = J.refs op :=
  JitState.refs_congr remarked.nins remarked.nk fun ref _ => remarked.has op ref notNop

theorem linked (remarked : Remarked J J') (linked : J.Linked) : J'.Linked where
  bottom := remarked.nk ▸ linked.bottom
  middle := remarked.nk ▸ linked.middle
  base := remarked.nins ▸ linked.base
  fits := remarked.nins ▸ linked.fits
  sides op ref has low high := by
    rw [remarked.nk] at low
    rw [remarked.nins] at high
    by_cases nop : op = .nop
    · by_cases below : ref < REF_BIAS
      · rw [JitState.has_iff, remarked.below ref below, ← JitState.has_iff] at has
        exact linked.sides op ref has low high
      · simp [nop, IROp.isConst, below]
    · rw [remarked.has op ref nop] at has
      exact linked.sides op ref has low high
  walk op notNop notPri := by
    rw [remarked.refs notNop]
    exact JitState.walk_frame (linked.walk op notNop notPri) (by rw [remarked.chain])
      fun ref _ => remarked.prev ref

end Remarked

section

variable {J : JitState} {ref r : IRRef}

theorem ismarked_markRef : irt_ismarked ((J.markRef ref).IR r).t = true ↔
    irt_ismarked (J.IR r).t = true ∨ REF_FIRST ≤ ref ∧ ref = r := by
  rw [JitState.markRef]
  split
  · rename_i above
    rw [JitState.setMark, JitState.IR_setIR]
    by_cases same : r = ref
    · simp [same, above]
    · simp [same, Ne.symm same]
  · rename_i below
    simp [below]

theorem ismarked_markOperands (ir : IRIns) : irt_ismarked ((markOperands J ir).IR r).t = true ↔
    irt_ismarked (J.IR r).t = true ∨ ir.Operand r := by
  rw [markOperands, ismarked_markRef, ismarked_markRef, IRIns.Operand]
  grind

theorem ismarked_marksnap (snap : List (List IRRef1)) :
    irt_ismarked ((dce_marksnap J snap).IR r).t = true ↔
      irt_ismarked (J.IR r).t = true ∨ InSnap snap r := by
  rw [dce_marksnap, InSnap]
  induction snap.flatten generalizing J with
  | nil => simp
  | cons entry entries induction =>
      rw [List.foldl_cons, induction, ismarked_markRef]
      grind

end

/-! ## Chains after the pass -/

/-- The chain of the NOPs does not matter to the others. -/
theorem JitState.Linked.unlink_nop {J : JitState} {refp : Link IRRef} {ref : IRRef}
    (linked : J.Linked) (nop : (J.IR ref).o = .nop) (above : REF_BIAS ≤ ref)
    (inside : ∀ r, refp = some r → REF_BIAS ≤ r ∧ (J.IR r).o = .nop) :
    (J.unlink .nop refp ref).Linked where
  bottom := nk_unlink (J := J) _ ▸ linked.bottom
  middle := nk_unlink (J := J) _ ▸ linked.middle
  base := nins_unlink (J := J) _ ▸ linked.base
  fits := nins_unlink (J := J) _ ▸ linked.fits
  sides op r has low high := by
    rw [nk_unlink] at low
    rw [nins_unlink] at high
    by_cases isNop : op = .nop
    · by_cases below : r < REF_BIAS
      · have other : r ≠ ref := Nat.ne_of_lt (Nat.lt_of_lt_of_le below above)
        have notLink : refp ≠ some r := fun same => Nat.not_lt_of_le (inside r same).1 below
        rw [has_iff, ir_unlink _ other notLink, ← has_iff] at has
        exact linked.sides op r has low high
      · simp [isNop, IROp.isConst, below]
    · rw [has_unlink _ isNop] at has
      split at has
      · cases has
      · exact linked.sides op r has low high
  walk op notNop notPri := by
    have notHere (r : IRRef) (isNop : (J.IR r).o = .nop) : J.has op r ≠ true :=
      fun has => notNop ((has_o has).symm.trans isNop)
    have refs : (J.unlink .nop refp ref).refs op = J.refs op := by
      refine refs_congr (nins_unlink _) (nk_unlink _) fun r _ => ?_
      rw [has_unlink _ notNop]
      split
      · rename_i same
        exact (Bool.eq_false_iff.mpr (same ▸ notHere ref nop)).symm
      · rfl
    rw [refs]
    refine walk_frame (linked.walk op notNop notPri) ?_ fun r member => ?_
    · rw [chain_unlink, if_neg fun both => notNop both.2]
    · have has := (linked.mem_refs.mp member).2.2
      have other : r ≠ ref := fun same => notHere ref nop (same ▸ has)
      rw [IR_unlink _ other, if_neg fun same => notHere r (inside r same).2 has]

section

variable (J₀ : JitState) (snap : List (List IRRef1))

/-- The link belongs to the last used instruction from `bound` on, or is the head if there is
none. -/
def LastUsed (op : IROp) (bound : IRRef) (link : Link IRRef) : Prop :=
  (∀ ref, link = some ref → bound ≤ ref ∧ ref < J₀.nins ∧ (op ≠ .nop → J₀.has op ref ∧
    Used J₀ snap ref)) ∧
  ∀ ref, bound ≤ ref → ref < J₀.nins → J₀.has op ref → Used J₀ snap ref → op ≠ .nop →
    ∃ last, link = some last ∧ last ≤ ref

/-- The state of the pass when it has come down to `bound`. -/
structure DceInv (bound : IRRef) (J : JitState) (pchain : PChain) : Prop where
  linked : J.Linked
  nins : J.nins = J₀.nins
  nk : J.nk = J₀.nk
  below : ∀ ref, ref < REF_BIAS → J.ir ref = J₀.ir ref
  op12 : ∀ ref, ref < bound → (J.IR ref).op12 = (J₀.IR ref).op12
  o : ∀ ref, ref < bound → (J.IR ref).o = (J₀.IR ref).o
  sideeff : ∀ ref, ref < bound → ir_sideeff (J.IR ref) = ir_sideeff (J₀.IR ref)
  has : ∀ op ref, ref < bound → op ≠ .nop → J.has op ref = J₀.has op ref
  kept : ∀ op ref, bound ≤ ref → ref < J₀.nins → op ≠ .nop →
    (J.has op ref = true ↔ J₀.has op ref = true ∧ (Used J₀ snap ref ∨ ir_sideeff (J₀.IR ref)))
  marks : ∀ ref, REF_FIRST ≤ ref → ref < bound →
    (irt_ismarked (J.IR ref).t = true ↔ MarkedFrom J₀ snap bound ref)
  last : ∀ op, LastUsed J₀ snap op bound (pchain op)
  last_nop : ∀ ref, pchain .nop = some ref → (J.IR ref).o = .nop

end

section

variable {J₀ J J' : JitState} {snap : List (List IRRef1)} {ins : IRRef} {pchain : PChain}

/-- At the start of the pass nothing has been marked but by snapshots. -/
theorem DceInv.start (linked : J₀.Linked) :
    DceInv J₀ snap J₀.nins (dce_marksnap J₀ snap) fun _ => none where
  linked := (Remarked.marksnap J₀ snap).linked linked
  nins := (Remarked.marksnap J₀ snap).nins
  nk := (Remarked.marksnap J₀ snap).nk
  below := (Remarked.marksnap J₀ snap).below
  op12 ref _ := (Remarked.marksnap J₀ snap).op12 ref
  o ref _ := (Remarked.marksnap J₀ snap).o ref
  sideeff ref _ := (Remarked.marksnap J₀ snap).sideeff ref
  has op ref _ := (Remarked.marksnap J₀ snap).has op ref
  kept op ref low high := absurd high (Nat.not_lt_of_le low)
  marks ref _ high := by
    rw [ismarked_marksnap, MarkedFrom]
    constructor
    · rintro (marked | inSnap)
      · exact .inl marked
      · exact .inr (.inl inSnap)
    · rintro (marked | inSnap | ⟨a, above, inside, -⟩)
      · exact .inl marked
      · exact .inr inSnap
      · exact absurd inside (Nat.not_lt_of_le above)
  last op := ⟨nofun, fun ref low high => absurd high (Nat.not_lt_of_le low)⟩
  last_nop := nofun

namespace LastUsed

variable {op : IROp} {link : Link IRRef}

/-- The instruction is the last used one now. -/
theorem here (inside : ins < J₀.nins) (has : op ≠ .nop → J₀.has op ins ∧ Used J₀ snap ins) :
    LastUsed J₀ snap op ins (some ins) := by
  refine ⟨?_, fun ref low _ _ _ _ => ⟨ins, rfl, low⟩⟩
  rintro ref ⟨⟩
  exact ⟨Nat.le_refl _, inside, has⟩

/-- An instruction with another opcode, or one that is not used, leaves the last one as it is. -/
theorem step (last : LastUsed J₀ snap op (ins + 1) link)
    (unused : op ≠ .nop → J₀.has op ins → ¬ Used J₀ snap ins) : LastUsed J₀ snap op ins link := by
  refine ⟨fun ref same => ?_, fun ref low high has used notNop => ?_⟩
  · obtain ⟨low, rest⟩ := last.1 ref same
    exact ⟨Nat.le_of_succ_le low, rest⟩
  · rcases Nat.eq_or_lt_of_le low with rfl | low
    · exact absurd used (unused notNop has)
    · exact last.2 ref low high has used notNop

end LastUsed

theorem Used.of_mark (inv : DceInv J₀ snap (ins + 1) J pchain) (first : REF_FIRST ≤ ins) :
    irt_ismarked (J.IR ins).t = true ↔ Used J₀ snap ins :=
  (inv.marks ins first (Nat.lt_succ_self _)).trans used_iff.symm

/-- An instruction that is kept. -/
theorem DceInv.keep {pchain' : PChain} (inv : DceInv J₀ snap (ins + 1) J pchain)
    (inside : ins < J₀.nins) (remarked : Remarked J J')
    (kept : Used J₀ snap ins ∨ ir_sideeff (J₀.IR ins))
    (marks : ∀ ref, ref < ins → (irt_ismarked (J'.IR ref).t = true ↔
      irt_ismarked (J.IR ref).t = true ∨ (J₀.IR ins).Operand ref))
    (last : ∀ op, LastUsed J₀ snap op ins (pchain' op))
    (last_nop : ∀ ref, pchain' .nop = some ref → (J.IR ref).o = .nop) :
    DceInv J₀ snap ins J' pchain' where
  linked := remarked.linked inv.linked
  nins := remarked.nins.trans inv.nins
  nk := remarked.nk.trans inv.nk
  below ref low := (remarked.below ref low).trans (inv.below ref low)
  op12 ref low := (remarked.op12 ref).trans (inv.op12 ref (Nat.lt_succ_of_lt low))
  o ref low := (remarked.o ref).trans (inv.o ref (Nat.lt_succ_of_lt low))
  sideeff ref low := (remarked.sideeff ref).trans (inv.sideeff ref (Nat.lt_succ_of_lt low))
  has op ref low notNop :=
    (remarked.has op ref notNop).trans (inv.has op ref (Nat.lt_succ_of_lt low) notNop)
  kept op ref low high notNop := by
    rw [remarked.has op ref notNop]
    rcases Nat.eq_or_lt_of_le low with rfl | low
    · rw [inv.has op ins (Nat.lt_succ_self _) notNop]
      simp [kept]
    · exact inv.kept op ref low high notNop
  marks ref first low := by
    rw [marks ref low, inv.marks ref first (Nat.lt_succ_of_lt low), markedFrom_kept inside kept]
  last := last
  last_nop ref same := (remarked.o ref).trans (last_nop ref same)

/-- The link of the pass is the one to the instruction that goes, unless an instruction
kept only for its side effect has been passed since. -/
theorem DceInv.link_eq {op : IROp} {before after : List IRRef}
    (inv : DceInv J₀ snap (ins + 1) J pchain) (safe : DceSafe J₀ snap) (notNop : op ≠ .nop)
    (notConst : op.isConst = false) (removed : Removed J₀ snap op ins)
    (split : J.refs op = before ++ ins :: after) : pchain op = lastLink none before := by
  have order := refs_pairwise J op
  rw [split, notConst] at order
  simp only [Bool.false_eq_true, if_false] at order
  obtain ⟨orderBefore, orderAfter, apart⟩ := List.pairwise_append.mp order
  have above (r : IRRef) (member : r ∈ before) : ins < r := apart r member ins List.mem_cons_self
  have listed (r : IRRef) (high : ins < r) (inside : r < J₀.nins) (has : J₀.has op r = true)
      (used : Used J₀ snap r) : r ∈ before := by
    have has' : J.has op r = true := (inv.kept op r high inside notNop).mpr ⟨has, .inl used⟩
    have bias : REF_BIAS ≤ ins := Nat.le_of_succ_le removed.1
    have middle := inv.linked.middle
    have member : r ∈ J.refs op := inv.linked.mem_refs.mpr ⟨by lia, inv.nins ▸ inside, has'⟩
    rw [split, List.mem_append, List.mem_cons] at member
    rcases member with member | rfl | member
    · exact member
    · exact absurd high (Nat.lt_irrefl _)
    · exact absurd ((List.pairwise_cons.mp orderAfter).1 r member) (Nat.lt_asymm high)
  have last := inv.last op
  rcases List.eq_nil_or_concat before with rfl | ⟨front, lowest, rfl⟩
  · cases link : pchain op with
    | none => rfl
    | some u =>
        obtain ⟨high, inside, rest⟩ := last.1 u link
        cases listed u high inside (rest notNop).1 (rest notNop).2
  · rw [List.concat_eq_append] at *
    rw [lastLink_append]
    have lowestIn : lowest ∈ front ++ [lowest] := by simp
    have member : lowest ∈ J.refs op := by simp [split]
    have inside : lowest < J₀.nins := inv.nins ▸ (inv.linked.mem_refs.mp member).2.1
    have isLowest (r : IRRef) (member : r ∈ front ++ [lowest]) : lowest ≤ r := by
      rcases List.mem_append.mp member with member | member
      · exact Nat.le_of_lt ((List.pairwise_append.mp orderBefore).2.2 r member lowest (by simp))
      · exact Nat.le_of_eq (List.mem_singleton.mp member).symm
    have high := above lowest lowestIn
    obtain ⟨has, kept⟩ :=
      (inv.kept op lowest high inside notNop).mp (inv.linked.mem_refs.mp member).2.2
    have used : Used J₀ snap lowest := by
      by_contra unused
      obtain ⟨u, highU, lowU, hasU, usedU⟩ := safe op ins lowest notNop high inside removed
        ⟨has, unused, kept.resolve_left unused⟩
      have between := isLowest u (listed u highU (Nat.lt_trans lowU inside) hasU usedU)
      exact absurd lowU (Nat.not_lt_of_le between)
    obtain ⟨u, link, low⟩ := last.2 lowest high inside has used notNop
    obtain ⟨highU, insideU, rest⟩ := last.1 u link
    have same : u = lowest :=
      Nat.le_antisymm low (isLowest u (listed u highU insideU (rest notNop).1 (rest notNop).2))
    rw [link, same]
    rfl

/-- An instruction that goes. -/
theorem DceInv.remove (inv : DceInv J₀ snap (ins + 1) J pchain) (safe : DceSafe J₀ snap)
    (first : REF_FIRST ≤ ins) (inside : ins < J₀.nins)
    (gone : ¬ (Used J₀ snap ins ∨ ir_sideeff (J₀.IR ins))) :
    DceInv J₀ snap ins (J.unlink (J.IR ins).o (pchain (J.IR ins).o) ins) pchain := by
  obtain ⟨unused, noEffect⟩ := not_or.mp gone
  have bias : REF_BIAS ≤ ins := Nat.le_of_succ_le first
  have middle := inv.linked.middle
  have o := inv.o ins (Nat.lt_succ_self _)
  have above (r : IRRef) (link : pchain (J.IR ins).o = some r) : ins < r :=
    ((inv.last _).1 r link).1
  have field {r : IRRef} (low : r < ins) :
      (J.unlink (J.IR ins).o (pchain (J.IR ins).o) ins).IR r = J.IR r := by
    rw [IR_unlink _ (Nat.ne_of_lt low), if_neg]
    exact fun link => Nat.lt_asymm low (above r link)
  have slot {r : IRRef} (low : r < ins) :
      (J.unlink (J.IR ins).o (pchain (J.IR ins).o) ins).ir r = J.ir r :=
    ir_unlink _ (Nat.ne_of_lt low) fun link => Nat.lt_asymm low (above r link)
  refine ⟨?_, (nins_unlink _).trans inv.nins, (nk_unlink _).trans inv.nk, ?_, ?_, ?_, ?_, ?_, ?_, ?_,
    ?_, ?_⟩
  · by_cases nop : (J.IR ins).o = .nop
    · rw [nop]
      refine inv.linked.unlink_nop nop bias fun r link => ⟨?_, inv.last_nop r link⟩
      exact Nat.le_trans bias (Nat.le_of_lt (above r (nop ▸ link)))
    · have has : J.has (J.IR ins).o ins = true := has_of_o rfl nop
      have low : J.nk ≤ ins := Nat.le_trans middle bias
      have notConst : (J.IR ins).o.isConst = false := by
        have side := inv.linked.sides _ ins has low (inv.nins ▸ inside)
        rw [← Bool.not_eq_true, side]
        exact Nat.not_lt_of_le bias
      have member : ins ∈ J.refs (J.IR ins).o :=
        inv.linked.mem_refs.mpr ⟨low, inv.nins ▸ inside, has⟩
      obtain ⟨before, after, split⟩ := List.append_of_mem member
      have removed : Removed J₀ snap (J.IR ins).o ins :=
        ⟨first, inv.has _ ins (Nat.lt_succ_self _) nop ▸ has, unused, noEffect⟩
      rw [inv.link_eq safe nop notConst removed split]
      exact inv.linked.unlink split notConst
  · exact fun r low => (slot (Nat.lt_of_lt_of_le low bias)).trans (inv.below r low)
  · exact fun r low => field low ▸ inv.op12 r (Nat.lt_succ_of_lt low)
  · exact fun r low => field low ▸ inv.o r (Nat.lt_succ_of_lt low)
  · exact fun r low => field low ▸ inv.sideeff r (Nat.lt_succ_of_lt low)
  · intro op r low notNop
    rw [has_unlink _ notNop, if_neg (Nat.ne_of_lt low)]
    exact inv.has op r (Nat.lt_succ_of_lt low) notNop
  · intro op r low high notNop
    rw [has_unlink _ notNop]
    rcases Nat.eq_or_lt_of_le low with rfl | low
    · simp [gone]
    · rw [if_neg (Nat.ne_of_gt low)]
      exact inv.kept op r low high notNop
  · intro r firstR low
    rw [field low, inv.marks r firstR (Nat.lt_succ_of_lt low), markedFrom_removed gone]
  · exact fun op => (inv.last op).step fun _ _ => unused
  · intro r link
    have other : r ≠ ins := Nat.ne_of_gt ((inv.last _).1 r link).1
    rw [IR_unlink _ other]
    split <;> exact inv.last_nop r link

theorem DceInv.visit (inv : DceInv J₀ snap (ins + 1) J pchain) (safe : DceSafe J₀ snap)
    (first : REF_FIRST ≤ ins) (inside : ins < J₀.nins) :
    DceInv J₀ snap ins (dceVisit J pchain ins).1 (dceVisit J pchain ins).2 := by
  have o := inv.o ins (Nat.lt_succ_self _)
  have bias : REF_BIAS ≤ ins := Nat.le_of_succ_le first
  have operand {r : IRRef} : (J.IR ins).Operand r ↔ (J₀.IR ins).Operand r := by
    rw [IRIns.Operand, IRIns.Operand, IRIns.op1, IRIns.op2, IRIns.op1, IRIns.op2,
      inv.op12 ins (Nat.lt_succ_self _)]
  rw [dceVisit]
  split
  · rename_i marked
    have used : Used J₀ snap ins := (Used.of_mark inv first).mp marked
    refine inv.keep inside ((Remarked.setType bias (ir_sideeff_clearmark _)).trans
      (.markOperands _ _)) (.inl used) (fun r low => ?_) (fun op => ?_) fun r link => ?_
    · rw [ismarked_markOperands, IR_setIR, if_neg (Nat.ne_of_lt low), operand]
    · by_cases same : op = (J.IR ins).o
      · dsimp only
        rw [same, update_self]
        exact .here inside fun notNop => ⟨has_of_o o.symm notNop, used⟩
      · dsimp only
        rw [update_of_ne same]
        refine (inv.last op).step fun notNop has => absurd ?_ same
        rw [o, has_o has]
    · dsimp only at link
      by_cases same : .nop = (J.IR ins).o
      · rw [← same, update_self] at link
        obtain rfl := Option.some.inj link
        exact same.symm
      · rw [update_of_ne same] at link
        exact inv.last_nop r link
  · rename_i notMarked
    have unused : ¬ Used J₀ snap ins := mt (Used.of_mark inv first).mpr notMarked
    split
    · rename_i noEffect
      refine inv.remove safe first inside (not_or.mpr ⟨unused, ?_⟩)
      rwa [← inv.sideeff ins (Nat.lt_succ_self _)]
    · rename_i effect
      refine inv.keep inside (.markOperands _ _) (.inr ?_) (fun r low => ?_) (fun op => ?_) inv.last_nop
      · rw [← inv.sideeff ins (Nat.lt_succ_self _)]
        exact not_not.mp effect
      · rw [ismarked_markOperands, operand]
      · exact (inv.last op).step fun _ _ => unused

theorem DceInv.loop {n : Nat} (inv : DceInv J₀ snap (REF_FIRST + n) J pchain) (safe : DceSafe J₀ snap)
    (inside : n ≤ J₀.nins - REF_FIRST) :
    ∃ pchain', DceInv J₀ snap REF_FIRST (dceLoop n J pchain) pchain' := by
  induction n generalizing J pchain with
  | zero => exact ⟨pchain, inv⟩
  | succ n induction =>
      exact induction (inv.visit safe (by lia) (by lia)) (by lia)

/-- What the pass does: the chains stay complete, constants stay what they are, and exactly
the instructions that nothing needs have become NOPs. -/
theorem JitState.Linked.dce (linked : J₀.Linked) (safe : DceSafe J₀ snap) (enabled : J₀.optDCE)
    (above : REF_FIRST ≤ J₀.nins) : ∃ pchain, DceInv J₀ snap REF_FIRST (lj_opt_dce J₀ snap) pchain := by
  have start : DceInv J₀ snap J₀.nins (dce_marksnap J₀ snap) fun _ => none := .start linked
  have nins : REF_FIRST + (J₀.nins - REF_FIRST) = J₀.nins := by lia
  rw [lj_opt_dce, if_pos enabled, dce_propagate, start.nins]
  rw [← nins] at start
  exact start.loop safe (Nat.le_refl _)

theorem JitState.Linked.dce_keeps {LJ_GC64 : Bool} (linked : J.Linked) (interned : J.Interned LJ_GC64)
    (safe : J.optDCE → DceSafe J snap) :
    (lj_opt_dce J snap).Linked ∧ (lj_opt_dce J snap).Interned LJ_GC64 := by
  by_cases enabled : J.optDCE = true
  · by_cases above : REF_FIRST ≤ J.nins
    · obtain ⟨pchain, inv⟩ := linked.dce (safe enabled) enabled above
      exact ⟨inv.linked, interned.frame ⟨inv.nk, inv.below⟩⟩
    · -- Only the base is left, and the loop does nothing.
      have remarked := Remarked.marksnap J snap
      have nothing : lj_opt_dce J snap = dce_marksnap J snap := by
        have none : J.nins - REF_FIRST = 0 := by lia
        rw [lj_opt_dce, if_pos enabled, dce_propagate, remarked.nins, none, dceLoop]
      rw [nothing]
      exact ⟨remarked.linked linked, interned.frame ⟨remarked.nk, remarked.below⟩⟩
  · rw [lj_opt_dce, if_neg enabled]
    exact ⟨linked, interned⟩

end

end TvmJit
