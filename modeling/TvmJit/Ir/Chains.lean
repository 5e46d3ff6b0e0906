import TvmJit.Ir.Buffer
import Mathlib.Data.List.Range
import Mathlib.Tactic.Ring

/-! The chains of the IR buffer. Every chain but those of the NOPs and of the fixed
constants leads through all instructions with its opcode, and equal constants are one. -/

namespace TvmJit

open Foundation Function

namespace JitState

/-! ## The places a chain has to pass -/

section

variable (J : JitState)

/-- The place holds an instruction with the opcode. -/
def has (op : IROp) (ref : IRRef) : Bool :=
  match J.ir ref with
  | .ins ir => ir.o = op
  | .tv _ => false

/-- The places an instruction with the opcode can stand at, the newest first. -/
@[irreducible] def places (op : IROp) : List IRRef :=
  if op.isConst then List.range' J.nk (REF_BIAS - J.nk)
  else (List.range' REF_BIAS (J.nins - REF_BIAS)).reverse

/-- The instructions of the buffer with the opcode, the newest first. -/
def refs (op : IROp) : List IRRef := (J.places op).filter (J.has op)

/-- Every chain leads through the instructions with its opcode. -/
structure Linked : Prop where
  bottom : 0 < J.nk
  middle : J.nk ≤ REF_BIAS
  base : REF_BIAS ≤ J.nins
  fits : J.nins ≤ 0x10000
  sides : ∀ op ref, J.has op ref → J.nk ≤ ref → ref < J.nins →
    (op.isConst = true ↔ ref < REF_BIAS)
  walk : ∀ op, op ≠ .nop → op ≠ .kpri → Walk (J.links op) 0 none (J.refs op)

end

variable {J J' : JitState} {op : IROp} {ref : IRRef} {fins : IRIns}

theorem has_iff : J.has op ref = true ↔ ∃ ir, J.ir ref = .ins ir ∧ ir.o = op := by
  unfold has
  cases J.ir ref <;> simp

theorem IR_of_ins {ir : IRIns} (slot : J.ir ref = .ins ir) : J.IR ref = ir := by
  rw [IR, slot]

theorem has_o (has : J.has op ref) : (J.IR ref).o = op := by
  obtain ⟨ir, slot, rfl⟩ := has_iff.mp has
  rw [IR_of_ins slot]

theorem has_of_o (same : (J.IR ref).o = op) (notNop : op ≠ .nop) : J.has op ref = true := by
  cases slot : J.ir ref with
  | ins ir => exact has_iff.mpr ⟨ir, slot, IR_of_ins slot ▸ same⟩
  | tv u64 =>
      rw [IR, slot] at same
      exact absurd same.symm notNop

theorem mem_places_const (const : op.isConst = true) :
    ref ∈ J.places op ↔ J.nk ≤ ref ∧ ref < J.nk + (REF_BIAS - J.nk) := by
  simp [places, const, List.mem_range'_1]

theorem mem_places (notConst : op.isConst = false) :
    ref ∈ J.places op ↔ REF_BIAS ≤ ref ∧ ref < REF_BIAS + (J.nins - REF_BIAS) := by
  simp [places, notConst, List.mem_range'_1]

theorem refs_congr (nins : J'.nins = J.nins) (nk : J'.nk = J.nk)
    (same : ∀ ref ∈ J.places op, J'.has op ref = J.has op ref) : J'.refs op = J.refs op := by
  have places : J'.places op = J.places op := by simp only [JitState.places, nins, nk]
  rw [refs, places]
  exact List.filter_congr same

theorem links_place : J.links op (some ref) = (J.IR ref).prev.toNat := rfl

theorem links_head : J.links op none = (J.chain op).toNat := rfl

namespace Linked

variable (linked : J.Linked)

include linked

theorem mem_refs : ref ∈ J.refs op ↔ J.nk ≤ ref ∧ ref < J.nins ∧ J.has op ref = true := by
  have middle := linked.middle
  have base := linked.base
  rw [refs, List.mem_filter]
  cases const : op.isConst with
  | true =>
      rw [mem_places_const const]
      constructor
      · rintro ⟨⟨low, high⟩, has⟩
        exact ⟨low, by lia, has⟩
      · rintro ⟨low, high, has⟩
        have below := (linked.sides op ref has low high).mp const
        exact ⟨⟨low, by lia⟩, has⟩
  | false =>
      rw [mem_places const]
      constructor
      · rintro ⟨⟨low, high⟩, has⟩
        exact ⟨by lia, by lia, has⟩
      · rintro ⟨low, high, has⟩
        have above := mt (linked.sides op ref has low high).mpr (by simp [const])
        exact ⟨⟨by lia, by lia⟩, has⟩

theorem above (notConst : op.isConst = false) (member : ref ∈ J.refs op) : REF_BIAS ≤ ref := by
  obtain ⟨low, high, has⟩ := linked.mem_refs.mp member
  have side := linked.sides op ref has low high
  rw [notConst] at side
  exact Nat.le_of_not_lt (by simpa using side)

end Linked

/-- The newest instruction is the highest one, the newest constant the lowest one. -/
theorem refs_pairwise (J : JitState) (op : IROp) : (J.refs op).Pairwise (fun a b => if op.isConst then a < b else b < a) := by
  refine List.Pairwise.filter _ ?_
  cases const : op.isConst with
  | true => simpa [places, const] using List.pairwise_lt_range' (s := J.nk) (n := REF_BIAS - J.nk)
  | false =>
      simpa [places, const, List.pairwise_reverse] using
        List.pairwise_lt_range' (s := REF_BIAS) (n := J.nins - REF_BIAS)

/-! ## Walks after a change -/

theorem walk_frame {places : List IRRef} (walk : Walk (J.links op) 0 none places)
    (head : J'.chain op = J.chain op) (frame : ∀ ref ∈ places, (J'.IR ref).prev = (J.IR ref).prev) :
    Walk (J'.links op) 0 none places := by
  refine walk.congr ?_ fun ref member => ?_
  · rw [links_head, links_head, head]
  · rw [links_place, links_place, frame ref member]

/-- A new place in front of the chain. -/
theorem walk_push {places : List IRRef} (walk : Walk (J.links op) 0 none places)
    (notNull : ref ≠ 0) (new : ref ∉ places) (head : (J'.chain op).toNat = ref)
    (field : (J'.IR ref).prev = J.chain op)
    (frame : ∀ ref ∈ places, (J'.IR ref).prev = (J.IR ref).prev) :
    Walk (J'.links op) 0 none (ref :: places) := by
  have walk : Walk (J.links op) 0 none ([] ++ places) := walk
  have inserted : Walk (insertAt (J.links op) none ref) 0 none ([] ++ ref :: places) :=
    walk.insert notNull (by simp) new
  refine inserted.congr ?_ fun r member => ?_
  · exact head.trans (insertAt_link ..).symm
  · rcases List.mem_cons.mp member with rfl | member
    · rw [links_place, field]
      have atHead : some r ≠ (none : Link IRRef) := nofun
      exact (insertAt_place (J.links op) atHead).symm
    · have different : some r ≠ some ref := fun same => new (Option.some.inj same ▸ member)
      rw [links_place, frame r member]
      exact (insertAt_of_ne (J.links op) (by simp) different).symm

theorem IR_setIR (ir : IRIns) (r : IRRef) : (J.setIR ref ir).IR r = if r = ref then ir else J.IR r := by
  by_cases same : r = ref
  · simp [IR, setIR, same]
  · simp [IR, setIR, same]

theorem has_setIR (ir : IRIns) (r : IRRef) :
    (J.setIR ref ir).has op r = if r = ref then decide (ir.o = op) else J.has op r := by
  by_cases same : r = ref
  · simp [has, setIR, same]
  · simp [has, setIR, same]

end JitState

section

open JitState

variable {J : JitState} {fins : IRIns}

/-! ## Emitting -/

theorem toNat_of {ref : IRRef} (fits : ref < 0x10000) : (IRRef1.of ref).toNat = ref := by
  rw [IRRef1.of, BitVec.toNat_ofNat]
  exact Nat.mod_eq_of_lt fits

theorem IR_emit (r : IRRef) : (lj_ir_emit J fins).1.IR r =
    if r = J.nins then { fins with prev := J.chain fins.o } else J.IR r :=
  IR_setIR (J := { J with nins := J.nins + 1 }) _ r

theorem has_emit (op : IROp) (r : IRRef) : (lj_ir_emit J fins).1.has op r =
    if r = J.nins then decide (fins.o = op) else J.has op r :=
  has_setIR (J := { J with nins := J.nins + 1 }) _ r

theorem chain_emit (op : IROp) : (lj_ir_emit J fins).1.chain op =
    if op = fins.o then .of J.nins else J.chain op := by
  simp only [lj_ir_emit, setChain, setIR, update_apply]

theorem nins_emit : (lj_ir_emit J fins).1.nins = J.nins + 1 := rfl

theorem nk_emit : (lj_ir_emit J fins).1.nk = J.nk := rfl

theorem places_emit (op : IROp) (base : REF_BIAS ≤ J.nins) : (lj_ir_emit J fins).1.places op =
    if op.isConst then J.places op else J.nins :: J.places op := by
  cases const : op.isConst with
  | true => simp [places, const, nk_emit]
  | false =>
      have more : J.nins + 1 - REF_BIAS = (J.nins - REF_BIAS) + 1 := by lia
      have last : REF_BIAS + (J.nins - REF_BIAS) = J.nins := by lia
      simp [places, const, nins_emit, more, List.range'_concat, last]

theorem refs_emit (linked : J.Linked) (notConst : fins.o.isConst = false) (op : IROp) :
    (lj_ir_emit J fins).1.refs op = if op = fins.o then J.nins :: J.refs op else J.refs op := by
  have old : (J.places op).filter ((lj_ir_emit J fins).1.has op) = J.refs op := by
    refine List.filter_congr fun r member => ?_
    have middle := linked.middle
    have base := linked.base
    have notNew : r ≠ J.nins := by
      cases const : op.isConst with
      | true =>
          rw [mem_places_const const] at member
          lia
      | false =>
          rw [mem_places const] at member
          lia
    rw [has_emit, if_neg notNew]
  rw [JitState.refs, places_emit op linked.base]
  cases const : op.isConst with
  | true =>
      have different : op ≠ fins.o := by
        rintro rfl
        simp [const] at notConst
      simp [old, different]
  | false =>
      simp only [Bool.false_eq_true, if_false, List.filter_cons, has_emit, if_true, old, decide_eq_true_eq]
      by_cases same : op = fins.o
      · simp [same]
      · simp [same, Ne.symm same]

theorem JitState.Linked.emit (linked : J.Linked) (notConst : fins.o.isConst = false)
    (room : J.nins < 0x10000) : (lj_ir_emit J fins).1.Linked where
  bottom := linked.bottom
  middle := linked.middle
  base := Nat.le_succ_of_le linked.base
  fits := room
  sides op ref has low high := by
    rw [has_emit] at has
    split at has
    · rename_i new
      have base := linked.base
      rw [← of_decide_eq_true has, notConst, new]
      simp only [Bool.false_eq_true, false_iff]
      lia
    · rw [nins_emit] at high
      exact linked.sides op ref has low (by lia)
  walk op notNop notPri := by
    have walk := linked.walk op notNop notPri
    have new : J.nins ∉ J.refs op := fun member => Nat.lt_irrefl _ (linked.mem_refs.mp member).2.1
    have frame : ∀ ref ∈ J.refs op, ((lj_ir_emit J fins).1.IR ref).prev = (J.IR ref).prev := by
      intro ref member
      rw [IR_emit, if_neg (ne_of_mem_of_not_mem member new)]
    rw [refs_emit linked notConst]
    by_cases same : op = fins.o
    · have base : 0 < REF_BIAS := by decide
      rw [if_pos same]
      refine walk_push walk ?_ new ?_ ?_ frame
      · exact Nat.ne_of_gt (Nat.lt_of_lt_of_le base linked.base)
      · rw [chain_emit, if_pos same, toNat_of room]
      · rw [IR_emit, if_pos rfl, same]
    · rw [if_neg same]
      exact walk_frame walk (by rw [chain_emit, if_neg same]) frame

/-! ## Common subexpressions -/

theorem JitState.Linked.length_refs (linked : J.Linked) (op : IROp) :
    (J.refs op).length < chainSteps := by
  have shorter : (J.refs op).length ≤ (J.places op).length := List.length_filter_le ..
  have middle := linked.middle
  have fits := linked.fits
  have bias : REF_BIAS = 0x8000 := rfl
  have steps : chainSteps = 0x10001 := rfl
  cases const : op.isConst <;> simp [places, const] at shorter <;> lia

/-- A search along a chain ends, having seen the newest of its instructions. -/
theorem JitState.Linked.follow {δ : Type} (linked : J.Linked) (op : IROp) (notNop : op ≠ .nop)
    (notPri : op ≠ .kpri) (more : IRRef → Bool) (decide : IRRef → Option δ)
    (stops : more 0 = false) :
    ∃ found, Foundation.follow (J.links op) more decide chainSteps none = some found ∧
      found.Splits more decide none (J.refs op) :=
  (linked.walk op notNop notPri).follow stops (linked.length_refs op)

section

variable (linked : J.Linked) (notConst : fins.o.isConst = false) (notNop : fins.o ≠ .nop)

include linked notConst notNop

/-- An instruction is found or emitted. -/
theorem cselim_cases (lim : IRRef) : ∃ result, lj_opt_cselim J fins lim = some result ∧
    (result.1 = J ∨ result = lj_ir_emit J fins) := by
  have notPri : fins.o ≠ .kpri := by
    intro same
    simp [same, IROp.isConst] at notConst
  obtain ⟨found, ends, -⟩ := linked.follow fins.o notNop notPri (fun ref => lim < ref)
    (fun ref => if (J.IR ref).op12 = fins.op12 then some () else none) (by simp)
  rw [lj_opt_cselim, searchCSE, ends]
  cases found with
  | ended link => exact ⟨_, rfl, .inr rfl⟩
  | hit link ref result => exact ⟨_, rfl, .inl rfl⟩

theorem cse_cases : ∃ result, lj_opt_cse J fins = some result ∧
    (result.1 = J ∨ result = lj_ir_emit J fins) := by
  rw [lj_opt_cse]
  split
  · exact cselim_cases linked notConst notNop _
  · exact ⟨_, rfl, .inr rfl⟩

end

/-! ## Rolling back -/

theorem places_pop (op : IROp) (above : REF_BIAS < J.nins) : J.places op =
    if op.isConst then J.pop.places op else (J.nins - 1) :: J.pop.places op := by
  cases const : op.isConst with
  | true => simp [places, const, JitState.pop, setChain]
  | false =>
      have less : J.nins - REF_BIAS = (J.nins - 1 - REF_BIAS) + 1 := by lia
      have last : REF_BIAS + (J.nins - 1 - REF_BIAS) = J.nins - 1 := by lia
      simp [places, const, JitState.pop, setChain, less, List.range'_concat, last]

theorem refs_pop (linked : J.Linked) (above : REF_BIAS < J.nins) (op : IROp) : J.refs op =
    if J.has op (J.nins - 1) then (J.nins - 1) :: J.pop.refs op else J.pop.refs op := by
  rw [JitState.refs, places_pop op above]
  cases const : op.isConst with
  | true =>
      have notHere : ¬ J.has op (J.nins - 1) = true := by
        intro has
        have middle := linked.middle
        have below := (linked.sides op _ has (by lia) (by lia)).mp const
        lia
      simp only [if_true, if_neg notHere]
      rfl
  | false =>
      simp only [Bool.false_eq_true, if_false, List.filter_cons]
      rfl

theorem JitState.Linked.pop (linked : J.Linked) (above : REF_BIAS < J.nins) : J.pop.Linked where
  bottom := linked.bottom
  middle := linked.middle
  base := Nat.le_sub_one_of_lt above
  fits := Nat.le_trans (Nat.sub_le ..) linked.fits
  sides op ref has low high := linked.sides op ref has low (Nat.lt_of_lt_of_le high (Nat.sub_le ..))
  walk op notNop notPri := by
    have walk := linked.walk op notNop notPri
    rw [refs_pop linked above op] at walk
    have chain : J.pop.chain op =
        if op = (J.IR (J.nins - 1)).o then (J.IR (J.nins - 1)).prev else J.chain op := by
      simp only [JitState.pop, setChain, update_apply]
    split at walk
    · rename_i has
      -- The chain now starts behind the instruction that is taken off.
      have rest := walk.2.2
      refine rest.congr ?_ fun ref member => rfl
      rw [links_head, chain, if_pos (has_o has).symm]
      rfl
    · rename_i has
      refine walk_frame walk ?_ fun ref member => rfl
      rw [chain, if_neg]
      exact fun same => has (has_of_o same.symm notNop)

end

end TvmJit
