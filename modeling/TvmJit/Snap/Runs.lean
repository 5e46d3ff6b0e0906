import TvmJit.Ir.Chains
import TvmJit.Snap.Unrolling

/-! Runs of the recorder and of the loop optimization, as far as they change the snapshots of a trace. -/

namespace TvmJit.Snap

open Foundation Function

/-- What the snapshots of a trace are: while it is recorded, and while its loop is unrolled. -/
inductive Phase
  | recording (taken : List Taken)
  | unrolling (lps : LoopState) (taken : List Taken) (loop : Taken) (copies : List Taken)

/-- The snapshots that the map is to hold. The loop snapshot has the sentinel for its PC while the loop is unrolled. -/
def Phase.snapshots : Phase → List Taken
  | recording taken => taken
  | unrolling _ taken loop copies => taken ++ loop.withPc SENTINEL :: copies

/-- The runs from the start of a trace. A new snapshot meets a condition that says for the exact offset of its map
whether it may be there. -/
inductive SnapRun (meets : Nat → Taken → Prop) : SnapState → Phase → Prop
  | start {st : SnapState} (fresh : st.nsnap = 0) (empty : st.nsnapmap = 0) : SnapRun meets st (.recording [])
  /-- Everything else the recorder does. -/
  | record {st : SnapState} {taken : List Taken} (J : JitState) (mergesnap guardemit : Bool) :
      SnapRun meets st (.recording taken) → SnapRun meets { st with J, mergesnap, guardemit } (.recording taken)
  | add {st st' : SnapState} {taken : List Taken} (recorder : Recorder) : SnapRun meets st (.recording taken) →
      lj_snap_add recorder st = some st' → meets (offset (kept st taken)) (takenOf recorder st'.J) →
      SnapRun meets st' (.recording (kept st taken ++ [takenOf recorder st'.J]))
  | comp_fixup {st : SnapState} {taken : List Taken} {snapshot : Taken} (npc : SnapEntry) (used : Nat → Bool)
      {maxslot : Nat} (low : maxslot ≤ LJ_MAX_JSLOTS) : SnapRun meets st (.recording (taken ++ [snapshot])) →
      SnapRun meets (rec_comp_fixup npc used maxslot st)
        (.recording (taken ++ [(snapshot.withPc npc).shrunk used maxslot low]))
  | shrink {st : SnapState} {taken : List Taken} {snapshot : Taken} (used : Nat → Bool)
      {maxslot : Nat} (low : maxslot ≤ LJ_MAX_JSLOTS) : SnapRun meets st (.recording (taken ++ [snapshot])) →
      SnapRun meets (lj_snap_shrink used maxslot st) (.recording (taken ++ [snapshot.shrunk used maxslot low]))
  | fixguardsnap {st : SnapState} {taken : List Taken} {snapshot : Taken} {first : List SnapEntry} {sn : SnapEntry}
      (same : snapshot.entries = first ++ [sn]) (ref : snap_ref sn ≠ 0) :
      SnapRun meets st (.recording (taken ++ [snapshot])) →
      SnapRun meets (fixguardsnap st) (.recording (taken ++ [snapshot.flipped same ref]))
  /-- The loop snapshot is the last one, for the end of the recording. -/
  | unroll {st st' : SnapState} {taken : List Taken} {loop : Taken} {lps : LoopState} {subst : IRRef1 → IRRef1} :
      SnapRun meets st (.recording (taken ++ [loop])) → taken.head?.map Taken.pc = some loop.pc →
      (st.snap (st.nsnap - 1)).ref = st.J.nins → loop_unroll_start st subst = some (st', lps) →
      SnapRun meets st' (.unrolling lps taken loop [])
  | copy {st st' : SnapState} {lps : LoopState} {taken copies : List Taken} {loop snapshot : Taken} :
      SnapRun meets st (.unrolling lps taken loop copies) → lps.ins < lps.invar → (st.snap lps.osnap).ref ≤ lps.ins →
      taken[lps.osnap]? = some snapshot → loop_subst_snap lps st = some st' →
      meets (offset (taken ++ loop.withPc SENTINEL :: keptCopies st copies)) (snapshot.copied loop lps.subst) →
      SnapRun meets st' (.unrolling { lps with osnap := lps.osnap + 1 } taken loop
        (keptCopies st copies ++ [snapshot.copied loop lps.subst]))
  /-- The instruction is substituted. -/
  | emit {st : SnapState} {lps : LoopState} {taken copies : List Taken} {loop : Taken} (J : JitState) {guardemit : Bool}
      (subst : IRRef1 → IRRef1) : SnapRun meets st (.unrolling lps taken loop copies) →
      (st.guardemit = true → guardemit = true) →
      SnapRun meets { st with J, guardemit } (.unrolling { lps with ins := lps.ins + 1, subst } taken loop copies)
  | finish {st : SnapState} {lps : LoopState} {taken copies : List Taken} {loop : Taken} :
      SnapRun meets st (.unrolling lps taken loop copies) →
      SnapRun meets (loop_unroll_end lps st) (.recording (taken ++ loop :: keptCopies st copies))
  | undo {st : SnapState} {lps : LoopState} {taken copies : List Taken} {loop : Taken} :
      SnapRun meets st (.unrolling lps taken loop copies) →
      SnapRun meets (loop_undo lps st) (.recording (taken ++ [loop]))

/-- What holds in a phase. -/
def Phase.Holds (st : SnapState) : Phase → Prop
  | recording taken => Represents st taken
  | unrolling lps taken loop copies => Unrolling st lps taken loop copies

theorem Phase.Holds.represents {st : SnapState} {phase : Phase} (holds : phase.Holds st) :
    Represents st phase.snapshots := by
  cases phase with
  | recording taken => exact holds
  | unrolling lps taken loop copies => exact Unrolling.represents holds

theorem SnapRun.holds {st : SnapState} {phase : Phase} (run : SnapRun Fits st phase) : phase.Holds st := by
  induction run with
  | start fresh empty => exact ⟨fresh, empty, by decide, Maps.nil⟩
  | record J mergesnap guardemit run represents =>
      exact ⟨represents.nsnap_eq, represents.nsnapmap_eq, represents.ends_lt, represents.held⟩
  | add recorder run added fits represents => exact represents_add represents added fits
  | comp_fixup npc used low run represents => exact represents_comp_fixup npc used low represents
  | shrink used low run represents => exact represents_shrink used low represents
  | fixguardsnap same ref run represents => exact represents_fixguardsnap same ref represents
  | unroll run samePc last started represents => exact unrolling_start represents samePc last started
  | copy run before belongs here copied fits unrolling =>
      have ⟨st', copied', unrolling'⟩ := unrolling_copy unrolling here fits
      exact Option.some.inj (copied.symm.trans copied') ▸ unrolling'
  | emit J subst run kept unrolling => exact unrolling_emit unrolling J kept _ subst
  | finish run unrolling => exact represents_end unrolling
  | undo run unrolling => exact represents_undo unrolling

/-- A copy is always made: there is a snapshot to copy, and the loops over its slots end. -/
theorem SnapRun.exists_copy {st : SnapState} {lps : LoopState} {taken copies : List Taken} {loop : Taken}
    (run : SnapRun Fits st (.unrolling lps taken loop copies)) (before : lps.ins < lps.invar)
    (belongs : (st.snap lps.osnap).ref ≤ lps.ins) : ∃ snapshot, taken[lps.osnap]? = some snapshot ∧
      (Fits (offset (taken ++ loop.withPc SENTINEL :: keptCopies st copies)) (snapshot.copied loop lps.subst) →
        ∃ st', loop_subst_snap lps st = some st') := by
  have unrolling : Unrolling st lps taken loop copies := run.holds
  have ⟨snapshot, here⟩ := unrolling.exists_snapshot before belongs
  refine ⟨snapshot, here, ?_⟩
  intro fits
  have ⟨st', copied, _⟩ := unrolling_copy unrolling here fits
  exact ⟨st', copied⟩

/-- No field of a header is truncated, and the maps are in the buffer, one behind the other, with the PC of the snapshot
behind its slots. -/
structure Exact (st : SnapState) (snapshots : List Taken) : Prop where
  nsnap_eq : st.nsnap = snapshots.length
  nsnapmap_eq : st.nsnapmap = offset snapshots
  holds : ∀ k snapshot, snapshots[k]? = some snapshot → (st.snap k).Holds (offset (snapshots.take k)) snapshot
  inside : ∀ k snapshot, snapshots[k]? = some snapshot → (st.snap k).mapofs + snapshot.size ≤ st.sizesnapmap
  apart : ∀ j k snapshot snapshot', j < k → snapshots[j]? = some snapshot → snapshots[k]? = some snapshot' →
    (st.snap j).mapofs + snapshot.size ≤ (st.snap k).mapofs
  placed : ∀ k snapshot, snapshots[k]? = some snapshot → Placed st.snapmap (st.snap k).mapofs snapshot.map
  ends : ∀ k snapshot, snapshots[k]? = some snapshot →
    st.snapmap ((st.snap k).mapofs + (st.snap k).nent) = snapshot.pc

theorem Represents.exact {st : SnapState} {snapshots : List Taken} (represents : Represents st snapshots) :
    Exact st snapshots := by
  have held := represents.held
  have header (k : Nat) (snapshot : Taken) (here : snapshots[k]? = some snapshot) :
      (st.snap k).Holds (offset (snapshots.take k)) snapshot := by
    have holds := held.headers.get here
    rwa [Nat.zero_add, Nat.zero_add] at holds
  have map (k : Nat) (snapshot : Taken) (here : snapshots[k]? = some snapshot) :
      Placed st.snapmap (st.snap k).mapofs snapshot.map := by
    have ⟨before, after, split, count⟩ := exists_split here
    rw [split] at held
    rw [← count, held.header.mapofs_eq]
    exact held.map
  exact {
    nsnap_eq := represents.nsnap_eq
    nsnapmap_eq := represents.nsnapmap_eq
    holds := header
    inside := by
      intro k snapshot here
      have upto := offset_take_succ here
      have whole : offset (snapshots.take (k + 1)) ≤ offset (snapshots.take snapshots.length) :=
        offset_take_le (List.getElem?_eq_some_iff.mp here).1
      rw [List.take_length] at whole
      rw [(header k snapshot here).mapofs_eq, ← upto]
      exact le_trans whole held.inside
    apart := by
      intro j k snapshot snapshot' less here here'
      rw [(header j snapshot here).mapofs_eq, (header k snapshot' here').mapofs_eq, ← offset_take_succ here]
      exact offset_take_le less
    placed := map
    ends := by
      intro k snapshot here
      have ⟨_, links⟩ := placed_append.mp (map k snapshot here)
      rw [(header k snapshot here).nent_eq]
      exact (placed_cons.mp links).1 }

/-! ## A trace of guards

Each guard has a snapshot with the same 200 slots. -/

def nilSlots : Recorder where
  slot s := if s = 0 then 0 else 0x7fff
  baseslot := 1
  maxslot := 200
  framedepth := 0
  pc := 0
  ftop := 201
  frames := []
  slots_le := by decide
  framedepth_eq := rfl

def emptyTrace : SnapState where
  J := ⟨fun _ => .ins ⟨0, IRT_NIL, .kpri, 0⟩, REF_FIRST, REF_BIAS - 3, fun _ => 0, true, true⟩
  snap _ := ⟨0, 0, 0, 0, 0, 0⟩
  nsnap := 0
  nsnapmap := 0
  snapmap _ := 0
  sizesnap := 0
  sizesnapmap := 0
  maxsnap := 500
  mergesnap := false
  guardemit := false

theorem size_nilSlots {J : JitState} (constant : (J.IR 0x7fff).o ≠ .sload) : (takenOf nilSlots J).size = 201 := by
  have each : snapshot_slot J nilSlots.slot = fun s => if s = 0 then none else some (SNAP_TR s 0x7fff) := by
    funext s
    rw [snapshot_slot]
    by_cases zero : s = 0
    · subst zero
      exact if_neg (not_not.mpr rfl)
    · have slot : nilSlots.slot s = 0x7fff := if_neg zero
      rw [slot, if_neg zero]
      dsimp only
      rw [if_pos (by decide), if_neg fun both => constant both.2.1]
  have entries : (takenOf nilSlots J).entries.length = 200 := by
    have slots : (takenOf nilSlots J).entries = (List.range 201).filterMap (snapshot_slot J nilSlots.slot) := rfl
    rw [slots, each]
    decide +kernel
  rw [Taken.size, entries]
  rfl

/-- A snapshot that is not merged, with a buffer for 500 of them. -/
theorem exists_add (st : SnapState) (separate : merges st = false) (few : st.nsnap < 500) (maxsnap : st.maxsnap = 500) :
    ∃ st', lj_snap_add nilSlots st = some st' ∧ st'.nsnap = st.nsnap + 1 ∧ st'.nsnapmap < 2 ^ 16 ∧ st'.maxsnap = 500 ∧
      st'.J = st.J ∧ (st'.snap st.nsnap).ref = u16 st.J.nins := by
  obtain ⟨sizesnap, grown⟩ : ∃ sizesnap, lj_snap_grow_buf st (st.nsnap + 1) = some { st with sizesnap } := by
    have enough : ¬st.maxsnap < st.nsnap + 1 := by omega
    rw [lj_snap_grow_buf, if_neg enough]
    split
    · exact ⟨_, rfl⟩
    · exact ⟨_, rfl⟩
  obtain ⟨sizesnapmap, grownMap, _⟩ := lj_snap_grow_map_spec
    { st with nsnap := u16 (st.nsnap + 1), mergesnap := false, guardemit := false, sizesnap } (st.nsnapmap + 201 + 1)
  have notMerged : ¬merges st = true := by
    rw [separate]
    exact Bool.false_ne_true
  rw [lj_snap_add, if_neg notMerged, nomerge, grown, Option.map_some]
  dsimp only
  refine ⟨_, rfl, ?_⟩
  rw [snapshot_stack]
  dsimp only [nilSlots]
  rw [grownMap]
  dsimp only
  refine ⟨u16_eq (by omega), Nat.mod_lt _ (by decide), maxsnap, rfl, ?_⟩
  rw [update_self]

/-- A trace with a number of guards. -/
theorem guards_run (meets : Nat → Taken → Prop) (n : Nat) (few : n < 500)
    (each : ∀ k ≤ n, ∀ snapshot : Taken, snapshot.size = 201 → snapshot.topslot = 201 → meets (k * 201) snapshot) :
    ∃ st taken, SnapRun meets st (.recording taken) ∧
    st.nsnap = n + 1 ∧ st.nsnapmap < 2 ^ 16 ∧ st.maxsnap = 500 ∧ st.J.nins = REF_FIRST + n ∧
      (st.snap n).ref = REF_FIRST + n ∧ (st.J.IR 0x7fff).o ≠ .sload ∧ offset taken = (n + 1) * 201 := by
  induction n with
  | zero =>
      have ⟨st', added, nsnap, nsnapmap, maxsnap, J, ref⟩ := exists_add emptyTrace rfl (by decide) rfl
      have constant : (st'.J.IR 0x7fff).o ≠ .sload := by
        rw [J]
        decide
      have all : kept emptyTrace [] = [] := rfl
      have first : meets (offset (kept emptyTrace [])) (takenOf nilSlots st'.J) :=
        each 0 le_rfl _ (size_nilSlots constant) rfl
      refine ⟨st', _, .add nilSlots (.start rfl rfl) added first, nsnap, nsnapmap, maxsnap, J ▸ rfl, ref, constant, ?_⟩
      rw [offset_snoc, size_nilSlots constant, all]
      rfl
  | succ n induction =>
      have ⟨st, taken, run, nsnap, nsnapmap, maxsnap, nins, ref, constant, size⟩ :=
        induction (by omega) fun k le => each k (by omega)
      have recorded := run.record (lj_ir_emit st.J ⟨0, IRT_INT ||| IRT_GUARD, .lt, 0⟩).1 st.mergesnap true
      have separate : merges { st with J := (lj_ir_emit st.J ⟨0, IRT_INT ||| IRT_GUARD, .lt, 0⟩).1, guardemit := true } =
          false := by
        have behind : (st.snap n).ref ≠ st.J.nins + 1 := by lia
        rw [merges, nsnap]
        dsimp only
        rw [Nat.add_sub_cancel, nins_emit, beq_false_of_ne behind, Bool.and_false, Bool.not_true, Bool.and_false]
        rfl
      have ⟨st', added, nsnap', nsnapmap', maxsnap', J, ref'⟩ := exists_add _ separate (nsnap ▸ few) maxsnap
      have all : kept { st with J := (lj_ir_emit st.J ⟨0, IRT_INT ||| IRT_GUARD, .lt, 0⟩).1, guardemit := true } taken =
          taken := if_neg fun both => by
        rw [separate] at both
        exact absurd both.1 Bool.false_ne_true
      have nins' : st'.J.nins = REF_FIRST + (n + 1) := by
        rw [J, nins_emit, nins]
        rfl
      have constant' : (st'.J.IR 0x7fff).o ≠ .sload := by
        have low : 0x7fff < REF_FIRST + n := Nat.lt_of_lt_of_le (by decide) (Nat.le_add_right ..)
        have other : 0x7fff ≠ st.J.nins := nins ▸ Nat.ne_of_lt low
        rw [J, IR_emit, if_neg other]
        exact constant
      have ref'' : (st'.snap (n + 1)).ref = REF_FIRST + (n + 1) := by
        have first : REF_FIRST = 0x8001 := rfl
        dsimp only at ref'
        rw [nsnap, nins_emit, nins] at ref'
        rw [ref', u16_eq (by lia), Nat.add_assoc]
      have last := each (n + 1) le_rfl _ (size_nilSlots constant') rfl
      rw [← size, ← all] at last
      refine ⟨st', _, recorded.add nilSlots added last, nsnap'.trans (congrArg (· + 1) nsnap), nsnapmap', maxsnap', nins',
        ref'', constant', ?_⟩
      rw [offset_snoc, size_nilSlots constant', all, size, Nat.succ_mul (n + 1)]

/-! ## Offsets and sizes -/

theorem snapshots_exact {st : SnapState} {phase : Phase} (run : SnapRun Fits st phase) : Exact st phase.snapshots :=
  run.holds.represents.exact

/-- The maps of 325 such snapshots fit. -/
theorem guards_exact : ∃ st taken, offset taken = 65325 ∧ Exact st taken := by
  have fits : ∀ k ≤ 324, ∀ snapshot : Taken, snapshot.size = 201 → snapshot.topslot = 201 →
      Fits (k * 201) snapshot := by
    intro k le snapshot size topslot
    exact ⟨by omega, by omega⟩
  have ⟨st, taken, run, _, _, _, _, _, _, size⟩ := guards_run Fits 324 (by decide) fits
  exact ⟨st, taken, size, snapshots_exact run⟩

/-- The offsets of more than 326 such snapshots do not fit into 16 bits. -/
theorem snapmap_overflows : ¬∀ (st : SnapState) (phase : Phase), st.maxsnap = 500 →
    SnapRun (fun _ _ => True) st phase → Exact st phase.snapshots := by
  intro all
  have ⟨st, taken, run, _, nsnapmap, maxsnap, _, _, _, size⟩ :=
    guards_run (fun _ _ => True) 326 (by decide) fun _ _ _ _ _ => trivial
  have nsnapmap_eq := (all st (.recording taken) maxsnap run).nsnapmap_eq
  have same : st.nsnapmap = 327 * 201 := nsnapmap_eq.trans size
  omega

end TvmJit.Snap
