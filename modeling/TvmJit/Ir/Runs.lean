import TvmJit.Ir.Dce

/-! Runs of the IR buffer: the passes that change the chains, in any order. -/

namespace TvmJit

open Foundation Function JitState

/-! ## Steps -/

/-- A change of the buffer. The alias analysis is left open. -/
inductive IRAct (LJ_GC64 : Bool)
  | emit (fins : IRIns)
  | cse (fins : IRIns)
  | cselim (fins : IRIns) (lim : IRRef)
  | kint (k : BitVec 32)
  | k64 (op : IROp) (u64 : BitVec 64)
  | kgc (o : GCRef LJ_GC64) (t : IRType1)
  | kptr (op : IROp) (ptr : GCRef LJ_GC64)
  | knull (t : IRType1)
  | kslot (key slot : IRRef1)
  | ahstore (fins : IRIns) (aa_ahref : JitState → IRIns → IRIns → AliasRet)
  | ustore (fins : IRIns) (aa_uref : IRIns → IRIns → AliasRet)
  | fstore (fins : IRIns) (aa_fref : JitState → IRIns → IRIns → AliasRet)
  | xstore (fins : IRIns) (aa_xref : JitState → IRIns → IRIns → IRIns → AliasRet)
  | rollback (ref : IRRef)
  | dce (snap : List (List IRRef1))

namespace IRAct

variable {LJ_GC64 : Bool}

/-- The opcodes each function is called for; only instructions are rolled back. -/
def Valid : IRAct LJ_GC64 → Prop
  | emit fins => fins.o.isConst = false
  | cse fins | cselim fins _ => fins.o.isConst = false ∧ fins.o ≠ .nop
  | k64 op _ => op = .knum ∨ op = .kint64
  | kptr op _ => op = .kptr ∨ op = .kkptr
  | ahstore fins _ => fins.o = .astore ∨ fins.o = .hstore
  | ustore fins _ => fins.o = .ustore
  | fstore fins _ => fins.o = .fstore
  | xstore fins _ => fins.o = .xstore
  | rollback ref => REF_BASE ≤ ref
  | kint _ | kgc .. | knull _ | kslot .. | dce _ => True

/-- There is room for one more reference with 16 bits. -/
def Fits (J : JitState) : IRAct LJ_GC64 → Prop
  | emit _ | cse _ | cselim .. | ahstore .. | ustore .. | fstore .. | xstore .. =>
      J.nins < 0x10000
  | kint _ | k64 .. | kgc .. | kptr .. | knull _ | kslot .. => 2 < J.nk
  | rollback _ | dce _ => True

/-- Dead-code elimination loses no instruction. -/
def Safe (J : JitState) : IRAct LJ_GC64 → Prop
  | dce snap => J.optDCE → DceSafe J snap
  | _ => True

end IRAct

variable {LJ_GC64 : Bool}

def irStep (J : JitState) : IRAct LJ_GC64 → Option JitState
  | .emit fins => some (lj_ir_emit J fins).1
  | .cse fins => (lj_opt_cse J fins).map Prod.fst
  | .cselim fins lim => (lj_opt_cselim J fins lim).map Prod.fst
  | .kint k => (lj_ir_kint J k).map Prod.fst
  | .k64 op u64 => (lj_ir_k64 J op u64).map Prod.fst
  | .kgc o t => (lj_ir_kgc J LJ_GC64 o t).map Prod.fst
  | .kptr op ptr => (lj_ir_kptr_ J LJ_GC64 op ptr).map Prod.fst
  | .knull t => (lj_ir_knull J t).map Prod.fst
  | .kslot key slot => (lj_ir_kslot J key slot).map Prod.fst
  | .ahstore fins aa_ahref => (lj_opt_dse_ahstore J fins aa_ahref).map Prod.fst
  | .ustore fins aa_uref => (lj_opt_dse_ustore J fins aa_uref).map Prod.fst
  | .fstore fins aa_fref => (lj_opt_dse_fstore J fins aa_fref).map Prod.fst
  | .xstore fins aa_xref => (lj_opt_dse_xstore J fins aa_xref).map Prod.fst
  | .rollback ref => some (lj_ir_rollback J ref)
  | .dce snap => some (lj_opt_dce J snap)

/-- The states reached from a start by valid steps that meet a condition. -/
inductive IRRun (meets : JitState → IRAct LJ_GC64 → Prop) (start : JitState) : JitState → Prop
  | start : IRRun meets start start
  | step {J J' : JitState} {act : IRAct LJ_GC64} : IRRun meets start J → act.Valid → meets J act →
      irStep J act = some J' → IRRun meets start J'

/-! ## What one step preserves -/

section

variable {J J' : JitState} {act : IRAct LJ_GC64}

theorem interned_pop (interned : J.Interned LJ_GC64) : J.pop.Interned LJ_GC64 :=
  interned.frame ⟨rfl, fun _ _ => rfl⟩

theorem linked_rollback (linked : J.Linked) (interned : J.Interned LJ_GC64) {ref : IRRef}
    (base : REF_BASE ≤ ref) :
    (lj_ir_rollback J ref).Linked ∧ (lj_ir_rollback J ref).Interned LJ_GC64 := by
  rw [lj_ir_rollback]
  generalize steps : J.nins - ref = n
  induction n generalizing J with
  | zero => exact ⟨linked, interned⟩
  | succ n induction =>
      have bias : REF_BASE = REF_BIAS := rfl
      have nins : J.pop.nins = J.nins - 1 := rfl
      exact induction (linked.pop (by lia)) (interned_pop interned) (by lia)

theorem fits_ptr (op : IROp) (ptr : GCRef LJ_GC64) (isPtr : op = .kgc ∨ op = .kptr ∨ op = .kkptr) :
    (KValue.ptr LJ_GC64 ptr).fits LJ_GC64 op := by
  cases LJ_GC64 with
  | false => rcases isPtr with rfl | rfl | rfl <;> exact ⟨rfl, nofun, nofun⟩
  | true => rcases isPtr with rfl | rfl | rfl <;> rfl

theorem ptr_ne_type (ptr : GCRef LJ_GC64) (t : IRType1) : KValue.ptr LJ_GC64 ptr ≠ .type t := by
  cases LJ_GC64 <;> nofun

theorem slots_le (value : KValue) : value.slots ≤ 2 := by
  cases value <;> simp [KValue.slots]

/-- A step has a result, and keeps the chains complete and equal constants one. -/
theorem irStep_keeps (linked : J.Linked) (interned : J.Interned LJ_GC64) (valid : act.Valid)
    (fits : act.Fits J) (safe : act.Safe J) :
    ∃ J', irStep J act = some J' ∧ J'.Linked ∧ J'.Interned LJ_GC64 := by
  have interns {op : IROp} {t : IRType1} {value : KValue} (const : op.isConst) (notPri : op ≠ .kpri)
      (form : value.fits LJ_GC64 op) (typed : ∀ t', value = .type t' → t = t') (room : 2 < J.nk) :
      ∃ J', (J.internK op t value).map Prod.fst = some J' ∧ J'.Linked ∧ J'.Interned LJ_GC64 := by
    obtain ⟨result, found, linked', interned'⟩ := linked.internK interned const notPri form typed
      (Nat.lt_of_le_of_lt (slots_le value) room)
    exact ⟨result.1, by rw [found]; rfl, linked', interned'⟩
  have emits {fins : IRIns} {step : Option (JitState × IRRef)} (notConst : fins.o.isConst = false)
      (room : J.nins < 0x10000)
      (cases : ∃ result, step = some result ∧ (result.1 = J ∨ result = lj_ir_emit J fins)) :
      ∃ J', step.map Prod.fst = some J' ∧ J'.Linked ∧ J'.Interned LJ_GC64 := by
    obtain ⟨result, rfl, same | rfl⟩ := cases
    · exact ⟨J, congrArg some same, linked, interned⟩
    · exact ⟨_, rfl, linked.emit notConst room, interned.frame (.emit linked)⟩
  have stores {fins : IRIns} {op : IROp} {lim : IRRef} {aliasing : IRIns → AliasRet}
      {observer : IRIns → Bool} {also : JitState → IRRef → Option JitState} (keeps : Keeps also)
      (isStore : op = .astore ∨ op = .hstore ∨ op = .ustore ∨ op = .fstore ∨ op = .xstore)
      (same : fins.o = op) (room : J.nins < 0x10000) :
      ∃ J', (dseStore J fins op lim aliasing observer also).map Prod.fst = some J' ∧
        J'.Linked ∧ J'.Interned LJ_GC64 := by
    have notConst : op.isConst = false := by rcases isStore with rfl | rfl | rfl | rfl | rfl <;> rfl
    have notNop : op ≠ .nop := by rcases isStore with rfl | rfl | rfl | rfl | rfl <;> nofun
    obtain ⟨result, found, linked', frame⟩ := linked.dseStore notConst notNop (same ▸ notConst) room
      lim aliasing observer keeps
    exact ⟨result.1, by rw [found]; rfl, linked', interned.frame frame⟩
  cases act with
  | emit fins => exact emits valid fits ⟨_, rfl, .inr rfl⟩
  | cse fins => exact emits valid.1 fits (cse_cases linked valid.1 valid.2)
  | cselim fins lim => exact emits valid.1 fits (cselim_cases linked valid.1 valid.2 lim)
  | kint k => exact interns rfl nofun ⟨rfl, nofun, nofun⟩ nofun fits
  | k64 op u64 =>
      rcases valid with rfl | rfl
      · exact interns rfl nofun rfl nofun fits
      · exact interns rfl nofun rfl nofun fits
  | kgc o t =>
      exact interns rfl nofun (fits_ptr .kgc o (.inl rfl))
        (fun t' same => absurd same (ptr_ne_type o t')) fits
  | kptr op ptr =>
      have typed (t' : IRType1) (same : KValue.ptr LJ_GC64 ptr = .type t') : IRT_PGC LJ_GC64 = t' :=
        absurd same (ptr_ne_type ptr t')
      rcases valid with rfl | rfl
      · exact interns rfl nofun (fits_ptr .kptr ptr (by simp)) typed fits
      · exact interns rfl nofun (fits_ptr .kkptr ptr (by simp)) typed fits
  | knull t =>
      refine interns rfl nofun rfl ?_ fits
      rintro t' ⟨⟩
      rfl
  | kslot key slot => exact interns rfl nofun ⟨rfl, nofun, nofun⟩ nofun fits
  | ahstore fins aa_ahref => exact stores keeps_some (valid.imp_right .inl) rfl fits
  | ustore fins aa_uref => exact stores (keeps_removeOBAR _) (.inr (.inr (.inl rfl))) valid fits
  | fstore fins aa_fref => exact stores keeps_some (.inr (.inr (.inr (.inl rfl)))) valid fits
  | xstore fins aa_xref => exact stores keeps_some (.inr (.inr (.inr (.inr rfl)))) valid fits
  | rollback ref => exact ⟨_, rfl, linked_rollback linked interned valid⟩
  | dce snap => exact ⟨_, rfl, linked.dce_keeps interned safe⟩

end

/-! ## The start of a trace -/

section

variable {LJ_GC64 : Bool} {ir : IRRef → IRSlot} {optCSE optDCE : Bool} {parent exitno : IRRef1}

theorem ir_setup (ref : IRRef) : (lj_record_setup LJ_GC64 ir optCSE optDCE parent exitno).ir ref =
    if ref = REF_NIL - 2 then .ins ⟨0, 2, .kpri, 0⟩
    else if ref = REF_NIL - 1 then .ins ⟨0, 1, .kpri, 0⟩
    else if ref = REF_NIL then .ins ⟨0, 0, .kpri, 0⟩
    else if ref = REF_BASE then .ins ⟨IRREF2 parent exitno, IRT_PGC LJ_GC64, .base, 0⟩
    else ir ref := by
  simp only [lj_record_setup, lj_ir_emit, setIR, setChain, List.foldl, update_apply]
  rfl

theorem nk_setup : (lj_record_setup LJ_GC64 ir optCSE optDCE parent exitno).nk = REF_TRUE := rfl

theorem nins_setup :
    (lj_record_setup LJ_GC64 ir optCSE optDCE parent exitno).nins = REF_BASE + 1 := rfl

theorem chain_setup (op : IROp) : (lj_record_setup LJ_GC64 ir optCSE optDCE parent exitno).chain op =
    if op = .base then .of REF_BASE else 0 := by
  simp only [lj_record_setup, lj_ir_emit, setIR, setChain, List.foldl, update_apply]

theorem places_setup (op : IROp) : (lj_record_setup LJ_GC64 ir optCSE optDCE parent exitno).places op =
    if op.isConst then [REF_NIL - 2, REF_NIL - 1, REF_NIL] else [REF_BASE] := by
  have three : REF_BIAS - REF_TRUE = 3 := by decide
  have one : REF_BASE + 1 - REF_BIAS = 1 := by decide
  cases const : op.isConst with
  | true =>
      simp only [places, const, nk_setup, three, if_true]
      decide
  | false =>
      simp only [places, const, nins_setup, one, Bool.false_eq_true, if_false]
      decide

theorem refs_setup (op : IROp) : (lj_record_setup LJ_GC64 ir optCSE optDCE parent exitno).refs op =
    if op = .kpri then [REF_NIL - 2, REF_NIL - 1, REF_NIL]
    else if op = .base then [REF_BASE] else [] := by
  have two : REF_NIL - 1 ≠ REF_NIL - 2 ∧ REF_NIL ≠ REF_NIL - 2 ∧ REF_NIL ≠ REF_NIL - 1 := by decide
  have base : REF_BASE ≠ REF_NIL - 2 ∧ REF_BASE ≠ REF_NIL - 1 ∧ REF_BASE ≠ REF_NIL := by decide
  rw [JitState.refs, places_setup]
  by_cases pri : op = .kpri
  · simp [pri, IROp.isConst, has, ir_setup, two]
  · cases const : op.isConst with
    | true =>
        have notBase : op ≠ .base := by
          rintro rfl
          cases const
        simp [pri, notBase, has, ir_setup, two, Ne.symm pri]
    | false => 
        by_cases isBase : op = .base
        · simp [isBase, has, ir_setup, base]
        · simp [pri, isBase, has, ir_setup, base, Ne.symm isBase]

theorem linked_setup : (lj_record_setup LJ_GC64 ir optCSE optDCE parent exitno).Linked where
  bottom := by
    rw [nk_setup]
    decide
  middle := by
    rw [nk_setup]
    decide
  base := Nat.le_succ _
  fits := by
    rw [nins_setup]
    decide
  sides op ref has low high := by
    rw [nk_setup] at low
    rw [nins_setup] at high
    have two : REF_NIL - 1 ≠ REF_NIL - 2 ∧ REF_NIL ≠ REF_NIL - 2 ∧ REF_NIL ≠ REF_NIL - 1 := by decide
    have base : REF_BASE ≠ REF_NIL - 2 ∧ REF_BASE ≠ REF_NIL - 1 ∧ REF_BASE ≠ REF_NIL := by decide
    have below : REF_NIL - 2 < REF_BIAS ∧ REF_NIL - 1 < REF_BIAS ∧ REF_NIL < REF_BIAS := by decide
    have four : ref = REF_NIL - 2 ∨ ref = REF_NIL - 1 ∨ ref = REF_NIL ∨ ref = REF_BASE := by
      simp only [REF_TRUE, REF_NIL, REF_BASE, REF_BIAS] at low high ⊢
      lia
    rcases four with rfl | rfl | rfl | rfl <;>
      simp only [JitState.has, ir_setup, two, base, if_true, if_false, decide_eq_true_eq] at has <;>
      subst has <;> simp [IROp.isConst, below, REF_BASE]
  walk op notNop notPri := by
    rw [refs_setup, if_neg notPri]
    split
    · rename_i isBase
      have base : REF_BASE ≠ REF_NIL - 2 ∧ REF_BASE ≠ REF_NIL - 1 ∧ REF_BASE ≠ REF_NIL := by decide
      refine ⟨?_, by decide, ?_⟩
      · rw [links_head, chain_setup, if_pos isBase]
        decide
      · change (JitState.IR _ REF_BASE).prev.toNat = 0
        rw [IR, ir_setup, if_neg base.1, if_neg base.2.1, if_neg base.2.2, if_pos rfl]
        rfl
    · rename_i notBase
      change (JitState.chain _ op).toNat = 0
      rw [chain_setup, if_neg notBase]
      rfl

theorem interned_setup : (lj_record_setup LJ_GC64 ir optCSE optDCE parent exitno).Interned LJ_GC64 where
  within op ref const wide member := by
    rw [refs_setup] at member
    split at member
    · rename_i isPri
      simp [isPri, IROp.isWide] at wide
    · split at member
      · rename_i isBase
        simp [isBase, IROp.isConst] at const
      · cases member
  distinct op ref ref' const member member' same := by
    have two : REF_NIL - 1 ≠ REF_NIL - 2 ∧ REF_NIL ≠ REF_NIL - 2 ∧ REF_NIL ≠ REF_NIL - 1 := by decide
    rw [refs_setup] at member member'
    by_cases isPri : op = .kpri
    · subst isPri
      simp only [if_true, List.mem_cons, List.not_mem_nil, or_false] at member member'
      rcases member with rfl | rfl | rfl <;> rcases member' with rfl | rfl | rfl <;>
        simp [kvalue, IROp.isWide, IR, ir_setup, two] at same ⊢
    · have notBase : op ≠ .base := by
        rintro rfl
        cases const
      simp [isPri, notBase] at member

end

/-! ## Runs -/

/-- The chain leads through exactly the instructions of the buffer with the opcode, each one
once, in decreasing order, or in increasing order for constants. -/
def ChainComplete (J : JitState) (op : IROp) : Prop :=
  ∃ refs, Walk (J.links op) 0 none refs ∧
    refs.Pairwise (fun a b => if op.isConst then a < b else b < a) ∧
    ∀ ref, ref ∈ refs ↔ J.nk ≤ ref ∧ ref < J.nins ∧ J.has op ref

/-- Constants of the buffer with the same opcode and value are one. -/
def EqualConstants (LJ_GC64 : Bool) (J : JitState) : Prop :=
  ∀ op ref ref', op.isConst → J.nk ≤ ref → ref < J.nins → J.has op ref → J.nk ≤ ref' → ref' < J.nins →
    J.has op ref' → J.kvalue LJ_GC64 op ref = J.kvalue LJ_GC64 op ref' → ref = ref'

section

variable {LJ_GC64 : Bool} {J start : JitState}

theorem irRun_keeps (linked : start.Linked) (interned : start.Interned LJ_GC64)
    (run : IRRun (fun J (act : IRAct LJ_GC64) => act.Fits J ∧ act.Safe J) start J) :
    J.Linked ∧ J.Interned LJ_GC64 := by
  induction run with
  | start => exact ⟨linked, interned⟩
  | step _ valid meets step induction =>
      obtain ⟨J', same, keeps⟩ := irStep_keeps induction.1 induction.2 valid meets.1 meets.2
      obtain rfl := Option.some.inj (same.symm.trans step)
      exact keeps

/-- No search along a chain goes on forever. -/
theorem irRun_returns (linked : start.Linked) (interned : start.Interned LJ_GC64)
    (run : IRRun (fun J (act : IRAct LJ_GC64) => act.Fits J ∧ act.Safe J) start J)
    {act : IRAct LJ_GC64} (valid : act.Valid) (fits : act.Fits J) (safe : act.Safe J) :
    (irStep J act).isSome := by
  obtain ⟨linked, interned⟩ := irRun_keeps linked interned run
  obtain ⟨J', same, -⟩ := irStep_keeps linked interned valid fits safe
  rw [same]
  rfl

/-- In every run from the start of a trace whose references fit and that loses nothing in
dead-code elimination, every chain but those of the NOPs and of the fixed constants is
complete, and equal constants have one reference. -/
theorem chains_complete (LJ_GC64 : Bool) (ir : IRRef → IRSlot) (optCSE optDCE : Bool)
    (parent exitno : IRRef1) (J : JitState)
    (run : IRRun (fun J (act : IRAct LJ_GC64) => act.Fits J ∧ act.Safe J)
      (lj_record_setup LJ_GC64 ir optCSE optDCE parent exitno) J) :
    (∀ op, op ≠ .nop → op ≠ .kpri → ChainComplete J op) ∧ EqualConstants LJ_GC64 J := by
  obtain ⟨linked, interned⟩ := irRun_keeps linked_setup interned_setup run
  refine ⟨fun op notNop notPri => ?_, fun op ref ref' const low high has low' high' has' => ?_⟩
  · exact ⟨J.refs op, linked.walk op notNop notPri, refs_pairwise J op, fun ref => linked.mem_refs⟩
  · exact interned.distinct op ref ref' const (linked.mem_refs.mpr ⟨low, high, has⟩)
      (linked.mem_refs.mpr ⟨low', high', has'⟩)

end

/-! ## Runs on a fixed trace -/

section

variable {LJ_GC64 : Bool} {meets : JitState → IRAct LJ_GC64 → Prop} {start J : JitState}

theorem IRRun.emit (run : IRRun meets start J) {fins : IRIns} (notConst : fins.o.isConst = false)
    (allowed : meets J (.emit fins)) : IRRun meets start (lj_ir_emit J fins).1 := by
  have valid : (IRAct.emit fins : IRAct LJ_GC64).Valid := notConst
  exact run.step valid allowed rfl

theorem IRRun.dce (run : IRRun meets start J) {snap : List (List IRRef1)}
    (allowed : meets J (.dce snap)) : IRRun meets start (lj_opt_dce J snap) := by
  have valid : (IRAct.dce snap : IRAct LJ_GC64).Valid := trivial
  exact run.step valid allowed rfl

end

/-- A trace that starts in an empty buffer. -/
def emptyTrace : JitState := lj_record_setup false (fun _ => .tv 0) true true 0 0

/-- A load of a stack slot, guarded when its type is checked. -/
def sloadIns (slot : IRRef1) (t : IRType1) : IRIns := ⟨IRREF2 slot 0, t, .sload, 0⟩

/-- Two loads of stack slots, the first one without a guard. -/
def twoLoads (guard : IRType1) : JitState :=
  (lj_ir_emit (lj_ir_emit emptyTrace (sloadIns 1 IRT_NUM)).1 (sloadIns 2 (guard ||| IRT_INT))).1

theorem twoLoads_run (guard : IRType1) {meets : JitState → IRAct false → Prop}
    (allowed : ∀ J fins, J.nins < 0x8003 → meets J (.emit fins)) :
    IRRun meets emptyTrace (twoLoads guard) :=
  (IRRun.start.emit rfl (allowed _ _ (by decide))).emit rfl (allowed _ _ (by decide))

/-- The first load is dead, the second one is needed by a snapshot. -/
theorem chains_complete_loads : ∃ J, IRRun (fun J (act : IRAct false) => act.Fits J ∧ act.Safe J)
    emptyTrace J ∧ J.has .sload (REF_FIRST + 1) ∧ J.has .sload REF_FIRST = false ∧
      ChainComplete J .sload := by
  have run : IRRun (fun J (act : IRAct false) => act.Fits J ∧ act.Safe J) emptyTrace
      (twoLoads 0) := twoLoads_run 0 fun J fins low => ⟨Nat.lt_trans low (by decide), trivial⟩
  have safe : DceSafe (twoLoads 0) [[.of (REF_FIRST + 1)]] := by
    intro op ref effect notNop low high removed onlyEffect
    have nins : (twoLoads 0).nins = REF_FIRST + 2 := rfl
    have isLast : effect = REF_FIRST + 1 := by
      have first := removed.1
      lia
    refine absurd (Used.snap ⟨by lia, .of (REF_FIRST + 1), by simp, ?_⟩) onlyEffect.2.1
    rw [isLast]
    decide
  have last := run.dce ⟨trivial, fun _ => safe⟩
  exact ⟨_, last, by decide +kernel, by decide +kernel,
    (chains_complete false _ true true 0 0 _ last).1 .sload nofun nofun⟩

/-- A chain whose head is null has lost the instructions with its opcode. -/
theorem not_chainComplete {J : JitState} {op : IROp} {ref : IRRef} (head : J.chain op = 0)
    (low : J.nk ≤ ref) (high : ref < J.nins) (has : J.has op ref = true) : ¬ ChainComplete J op := by
  rintro ⟨refs, walk, -, members⟩
  have empty : Walk (J.links op) 0 none [] := by
    change (J.chain op).toNat = 0
    rw [head]
    rfl
  have member := (members ref).mpr ⟨low, high, has⟩
  rw [walk.unique empty] at member
  cases member

/-- Instructions can be emitted until the references no longer fit, and further. -/
theorem emit_run (n : Nat) : ∃ J, IRRun (fun J (act : IRAct false) => act.Safe J) emptyTrace J ∧
    J.nk = REF_TRUE ∧ J.nins = REF_FIRST + n := by
  have useNil : (⟨0, IRT_NIL, .use, 0⟩ : IRIns).o.isConst = false := rfl
  induction n with
  | zero => exact ⟨emptyTrace, .start, rfl, rfl⟩
  | succ n induction =>
      obtain ⟨J, run, nk, nins⟩ := induction
      refine ⟨_, run.emit useNil trivial, nk, ?_⟩
      rw [nins_emit, nins]
      rfl

/-- The fixed constants are on no chain, dead-code elimination may lose a load with a guard,
and the chain of an instruction whose reference does not fit starts with null. -/
theorem chains_incomplete :
    ¬ ChainComplete emptyTrace .kpri ∧
    (∃ J, IRRun (fun J (act : IRAct false) => act.Fits J) emptyTrace J ∧ ¬ ChainComplete J .sload) ∧
    ∃ J, IRRun (fun J (act : IRAct false) => act.Safe J) emptyTrace J ∧ ¬ ChainComplete J .use := by
  refine ⟨?_, ?_, ?_⟩
  · have fixed : emptyTrace.has .kpri REF_NIL = true := by decide +kernel
    exact not_chainComplete rfl (by decide) (by decide) fixed
  · have run : IRRun (fun J (act : IRAct false) => act.Fits J) emptyTrace (twoLoads IRT_GUARD) :=
      twoLoads_run IRT_GUARD fun J fins low => Nat.lt_trans low (by decide)
    have head : (lj_opt_dce (twoLoads IRT_GUARD) []).chain .sload = 0 := by decide +kernel
    have kept : (lj_opt_dce (twoLoads IRT_GUARD) []).has .sload (REF_FIRST + 1) = true := by
      decide +kernel
    have low : (lj_opt_dce (twoLoads IRT_GUARD) []).nk ≤ REF_FIRST + 1 := by decide +kernel
    have high : REF_FIRST + 1 < (lj_opt_dce (twoLoads IRT_GUARD) []).nins := by decide +kernel
    exact ⟨_, run.dce trivial, not_chainComplete head low high kept⟩
  · obtain ⟨J, run, nk, nins⟩ := emit_run 0x7fff
    have top : J.nins = 0x10000 := nins
    have head : (lj_ir_emit J ⟨0, IRT_NIL, .use, 0⟩).1.chain .use = 0 := by
      rw [chain_emit, if_pos rfl, top]
      decide
    have here : (lj_ir_emit J ⟨0, IRT_NIL, .use, 0⟩).1.has .use J.nins = true := by
      rw [has_emit, if_pos rfl]
      rfl
    have low : (lj_ir_emit J ⟨0, IRT_NIL, .use, 0⟩).1.nk ≤ J.nins := by
      rw [nk_emit, nk, top]
      decide
    exact ⟨_, run.emit rfl trivial, not_chainComplete head low (Nat.lt_succ_self _) here⟩

end TvmJit
