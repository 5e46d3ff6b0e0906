import TvmJit.Ir.Constants

/-! Dead-store elimination of `lj_opt_mem.c`. Before a store is emitted, the stores with the
same opcode are searched for one to the same place. It is taken off its chain and becomes a
NOP when nothing in between can see it. -/

namespace TvmJit

open Foundation Function

/-- The result of the alias analysis. -/
inductive AliasRet
  | no | may | must
  deriving DecidableEq, Repr

/-- What the search for redundant or conflicting stores comes to. -/
inductive StoreFound
  | emit | drop | eliminate
  deriving DecidableEq, Repr

namespace JitState

variable (J : JitState)

/-- The instruction becomes a NOP. -/
def setNop (ref : IRRef) : JitState := J.setIR ref ⟨0, IRT_NIL, .nop, 0⟩

/-- Removal of an instruction from its chain, whose link to it is known. -/
def unlink (op : IROp) (refp : Link IRRef) (ref : IRRef) : JitState :=
  (J.setLink op refp (J.IR ref).prev).setNop ref

/-- Some instruction after the store lets its effect be seen. -/
def observed (observer : IRIns → Bool) (store : IRRef) : Bool :=
  (List.range' (store + 1) (J.nins - (store + 1))).any fun ref => observer (J.IR ref)

end JitState

/-- A store, as `lj_opt_fold` passes it on: the reference of the store, or `none` when it is
dropped. -/
abbrev StoreResult := JitState × Option IRRef

section

variable (J : JitState) (fins : IRIns)

def emitStore : StoreResult :=
  let (J, ref) := lj_ir_emit J fins
  (J, some ref)

/-- The search of the older stores. -/
def searchStore (op : IROp) (lim : IRRef) (aliasing : IRIns → AliasRet) (observer : IRIns → Bool) :
    Option (Foundation.Found IRRef StoreFound) :=
  follow (J.links op) (fun ref => lim < ref)
    (fun ref =>
      let store := J.IR ref
      match aliasing store with
      | .no => none
      | .may => if store.op2 ≠ fins.op2 then some .emit else none
      | .must =>
          if store.op2 = fins.op2 then some .drop
          else if (J.chain .loop).toNat < ref ∧ ¬ J.observed observer ref then some .eliminate
          else some .emit)
    chainSteps none

/-- The common part of the four eliminations. `also` is what is done once the redundant store
is gone. -/
def dseStore (op : IROp) (lim : IRRef) (aliasing : IRIns → AliasRet) (observer : IRIns → Bool)
    (also : JitState → IRRef → Option JitState) : Option StoreResult :=
  match searchStore J fins op lim aliasing observer with
  | none => none
  | some (.ended _) | some (.hit _ _ .emit) => some (emitStore J fins)
  | some (.hit _ _ .drop) => some (J, none)
  | some (.hit refp ref .eliminate) =>
      (also (J.unlink op refp ref) ref).map fun J => emitStore J fins

/-- ASTORE or HSTORE elimination. -/
def lj_opt_dse_ahstore (aa_ahref : JitState → IRIns → IRIns → AliasRet) : Option StoreResult :=
  let xref := fins.op1.toNat
  dseStore J fins fins.o xref (fun store => aa_ahref J (J.IR xref) (J.IR store.op1.toNat))
    (fun ir => irt_isguard ir.t || ir.o == .calll) fun J _ => some J

/-- An upvalue barrier right behind an eliminated store goes, too. -/
def removeOBAR (xref : IRRef1) (J : JitState) (ref : IRRef) : Option JitState :=
  if ref + 1 < J.nins ∧ (J.IR (ref + 1)).o = .obar ∧ (J.IR (ref + 1)).op1 = xref then
    match follow (J.links .obar) (fun obar => ref + 1 < obar) (fun _ => (none : Option Unit))
        chainSteps none with
    | some (.ended bp) => some (J.unlink .obar bp (J.links .obar bp))
    | _ => none
  else some J

def lj_opt_dse_ustore (aa_uref : IRIns → IRIns → AliasRet) : Option StoreResult :=
  let xref := fins.op1.toNat
  dseStore J fins .ustore xref (fun store => aa_uref (J.IR xref) (J.IR store.op1.toNat))
    (fun ir => irt_isguard ir.t) (removeOBAR fins.op1)

def lj_opt_dse_fstore (aa_fref : JitState → IRIns → IRIns → AliasRet) : Option StoreResult :=
  let fref := fins.op1.toNat
  let xr := J.IR fref
  dseStore J fins .fstore fref (fun store => aa_fref J xr (J.IR store.op1.toNat))
    (fun ir => irt_isguard ir.t || (ir.o == .fload && ir.op2 == xr.op2)) fun J _ => some J

def lj_opt_dse_xstore (aa_xref : JitState → IRIns → IRIns → IRIns → AliasRet) : Option StoreResult :=
  let xref := fins.op1.toNat
  let lim := max (max (max xref (J.chain .callxs).toNat) (J.chain .xbar).toNat) (J.chain .xsnew).toNat
  dseStore J fins .xstore lim (fun store => aa_xref J (J.IR xref) fins store)
    (fun ir => irt_isguard ir.t || ir.o == .xload) fun J _ => some J

end

/-! ## Chains after a removal -/

namespace JitState

variable {J : JitState} {op : IROp} {ref : IRRef} {before after : List IRRef}

theorem chain_setLink (link : Link IRRef) (prev : IRRef1) (op' : IROp) :
    (J.setLink op link prev).chain op' = if link = none ∧ op' = op then prev else J.chain op' := by
  cases link with
  | none => simp [setLink, setChain, update_apply]
  | some place => simp [setLink, setIR]

theorem IR_setLink (link : Link IRRef) (prev : IRRef1) (r : IRRef) :
    (J.setLink op link prev).IR r = if link = some r then { J.IR r with prev } else J.IR r := by
  cases link with
  | none => simp [setLink, setChain, IR]
  | some place =>
      rw [setLink, IR_setIR]
      by_cases same : r = place
      · simp [same]
      · simp [same, Ne.symm same]

theorem nins_unlink (refp : Link IRRef) : (J.unlink op refp ref).nins = J.nins := by
  cases refp <;> rfl

theorem nk_unlink (refp : Link IRRef) : (J.unlink op refp ref).nk = J.nk := by
  cases refp <;> rfl

theorem chain_unlink (refp : Link IRRef) (op' : IROp) : (J.unlink op refp ref).chain op' =
    if refp = none ∧ op' = op then (J.IR ref).prev else J.chain op' :=
  chain_setLink refp _ op'

theorem IR_unlink (refp : Link IRRef) {r : IRRef} (other : r ≠ ref) : (J.unlink op refp ref).IR r =
    if refp = some r then { J.IR r with prev := (J.IR ref).prev } else J.IR r := by
  rw [unlink, setNop, IR_setIR, if_neg other, IR_setLink]

theorem ir_unlink (refp : Link IRRef) {r : IRRef} (other : r ≠ ref) (notLink : refp ≠ some r) :
    (J.unlink op refp ref).ir r = J.ir r := by
  cases refp with
  | none => simp [unlink, setNop, setLink, setChain, setIR, other]
  | some place =>
      have notPlace : r ≠ place := fun same => notLink (same ▸ rfl)
      simp [unlink, setNop, setLink, setIR, other, notPlace]

/-- The link now leads to what was behind the instruction. -/
theorem links_unlink (refp : Link IRRef) {p : Link IRRef} (other : p ≠ some ref) :
    (J.unlink op refp ref).links op p = removeAt (J.links op) refp ref p := by
  by_cases here : p = refp
  · subst here
    rw [removeAt_link, links_place]
    cases p with
    | none => rw [links_head, chain_unlink, if_pos ⟨rfl, rfl⟩]
    | some r => rw [links_place, IR_unlink _ fun same => other (congrArg some same), if_pos rfl]
  · rw [removeAt_of_ne _ here]
    cases p with
    | none => rw [links_head, links_head, chain_unlink, if_neg fun both => here both.1.symm]
    | some r =>
        rw [links_place, links_place, IR_unlink _ fun same => other (congrArg some same),
          if_neg (Ne.symm here)]

theorem has_setIR_prev (prev : IRRef1) {op' : IROp} (notNop : op' ≠ .nop) (r : IRRef) :
    (J.setIR ref { J.IR ref with prev }).has op' r = J.has op' r := by
  rw [has_setIR]
  split
  · rename_i same
    cases slot : J.ir ref with
    | ins ir => simp [same, has, slot, IR]
    | tv u64 => simp [same, has, slot, IR, notNop.symm]
  · rfl

theorem has_unlink (refp : Link IRRef) {op' : IROp} (notNop : op' ≠ .nop) (r : IRRef) :
    (J.unlink op refp ref).has op' r = if r = ref then false else J.has op' r := by
  rw [unlink, setNop, has_setIR]
  split
  · exact decide_eq_false notNop.symm
  · cases refp with
    | none => rfl
    | some place => exact has_setIR_prev _ notNop r

section

variable (linked : J.Linked) (split : J.refs op = before ++ ref :: after)

include linked split

theorem has_lastLink {r : IRRef} (last : lastLink none before = some r) : J.has op r = true :=
  (linked.mem_refs.mp (by simp [split, mem_of_lastLink last])).2.2

theorem Linked.unlink_constants (notConst : op.isConst = false) :
    SameConstants J (J.unlink op (lastLink none before) ref) := by
  refine ⟨nk_unlink _, fun r low => ir_unlink _ ?_ fun last => ?_⟩
  · rintro rfl
    exact Nat.not_lt_of_le (linked.above notConst (by simp [split])) low
  · exact Nat.not_lt_of_le (linked.above notConst (by simp [split, mem_of_lastLink last])) low

theorem refs_unlink (notPri : op ≠ .kpri) {op' : IROp} (notNop' : op' ≠ .nop) :
    (J.unlink op (lastLink none before) ref).refs op' =
      if op' = op then before ++ after else J.refs op' := by
  have places : (J.unlink op (lastLink none before) ref).places op' = J.places op' := by
    simp only [JitState.places, nins_unlink, nk_unlink]
  have without : (J.unlink op (lastLink none before) ref).refs op' =
      (J.refs op').filter (fun r => r ≠ ref) := by
    rw [JitState.refs, places, JitState.refs, List.filter_filter]
    refine List.filter_congr fun r _ => ?_
    rw [has_unlink _ notNop']
    by_cases same : r = ref <;> simp [same]
  rw [without]
  by_cases same : op' = op
  · subst same
    have distinct := (linked.walk op' notNop' notPri).nodup
    rw [split, List.nodup_append, List.nodup_cons] at distinct
    obtain ⟨-, ⟨notAfter, -⟩, apart⟩ := distinct
    have notBefore : ref ∉ before := fun member => apart ref member ref List.mem_cons_self rfl
    rw [if_pos rfl, split, List.filter_append, List.filter_cons]
    simp only [ne_eq, not_true_eq_false, decide_false, Bool.false_eq_true, if_false]
    rw [List.filter_eq_self.mpr, List.filter_eq_self.mpr]
    · exact fun r member => decide_eq_true (ne_of_mem_of_not_mem member notAfter)
    · exact fun r member => decide_eq_true (ne_of_mem_of_not_mem member notBefore)
  · rw [if_neg same, List.filter_eq_self]
    intro r member
    refine decide_eq_true ?_
    rintro rfl
    have here : J.has op r = true := (linked.mem_refs.mp (by simp [split])).2.2
    exact same ((has_o (linked.mem_refs.mp member).2.2).symm.trans (has_o here))

theorem Linked.unlink (notConst : op.isConst = false) :
    (J.unlink op (lastLink none before) ref).Linked where
  bottom := nk_unlink (J := J) _ ▸ linked.bottom
  middle := nk_unlink (J := J) _ ▸ linked.middle
  base := nins_unlink (J := J) _ ▸ linked.base
  fits := nins_unlink (J := J) _ ▸ linked.fits
  sides op' r has low high := by
    rw [nk_unlink] at low
    rw [nins_unlink] at high
    by_cases nop : op' = .nop
    · have here : J.has op ref = true := (linked.mem_refs.mp (by simp [split])).2.2
      have above (r : IRRef) (has : J.has op r = true) (low : J.nk ≤ r) (high : r < J.nins) :
          op'.isConst = true ↔ r < REF_BIAS := by
        have sides := linked.sides op r has low high
        rw [notConst] at sides
        rwa [nop]
      by_cases isRef : r = ref
      · exact above r (isRef ▸ here) low high
      · by_cases isLink : lastLink none before = some r
        · exact above r (has_lastLink linked split isLink) low high
        · rw [has_iff, ir_unlink _ isRef isLink, ← has_iff] at has
          exact linked.sides op' r has low high
    · rw [has_unlink _ nop] at has
      split at has
      · cases has
      · exact linked.sides op' r has low high
  walk op' notNop' notPri' := by
    have walk := linked.walk op' notNop' notPri'
    have here : J.has op ref = true := (linked.mem_refs.mp (by simp [split])).2.2
    have notPri : op ≠ .kpri := by
      rintro rfl
      cases notConst
    rw [refs_unlink linked split notPri notNop']
    by_cases same : op' = op
    · subst same
      rw [split] at walk
      have gone : ref ∉ before ++ after := by
        have distinct := walk.nodup
        rw [List.nodup_middle, List.nodup_cons] at distinct
        exact distinct.1
      rw [if_pos rfl]
      refine walk.remove.congr (links_unlink _ nofun) fun r member => links_unlink _ ?_
      exact fun same => gone (Option.some.inj same ▸ member)
    · rw [if_neg same]
      refine walk_frame walk ?_ fun r member => ?_
      · rw [chain_unlink, if_neg fun both => same both.2]
      · have has := (linked.mem_refs.mp member).2.2
        have other : r ≠ ref := by
          rintro rfl
          exact same ((has_o has).symm.trans (has_o here))
        rw [IR_unlink _ other, if_neg]
        intro last
        exact same ((has_o has).symm.trans (has_o (has_lastLink linked split last)))

end

end JitState

/-! ## Chains after an elimination -/

section

open JitState

variable {J : JitState} {fins : IRIns} {op : IROp} {result : StoreResult}

/-- What a step done after the removal of a store has to keep. -/
def Keeps (also : JitState → IRRef → Option JitState) : Prop :=
  ∀ J ref, J.Linked → REF_BIAS ≤ ref → ∃ J', also J ref = some J' ∧
    J'.Linked ∧ J'.nins = J.nins ∧ SameConstants J J'

theorem keeps_some : Keeps fun J _ => some J :=
  fun J _ linked _ => ⟨J, rfl, linked, rfl, rfl, fun _ _ => rfl⟩

/-- The loop along the barriers stops at the link to one that is on their chain. -/
theorem link_obar (linked : J.Linked) {obar : IRRef} (member : obar ∈ J.refs .obar) :
    ∃ before after, J.refs .obar = before ++ obar :: after ∧
      J.links .obar (lastLink none before) = obar ∧
      follow (J.links .obar) (fun ref => obar < ref) (fun _ => (none : Option Unit)) chainSteps none =
        some (.ended (lastLink none before)) := by
  obtain ⟨found, ends, splits⟩ := linked.follow .obar nofun nofun
    (fun ref => obar < ref) (fun _ => (none : Option Unit)) (by simp)
  cases found with
  | hit link place result =>
      obtain ⟨-, -, -, -, -, -, hit⟩ := splits
      cases hit
  | ended bp =>
      obtain ⟨before, after, split, rfl, passed, stop⟩ := splits
      have notBefore : obar ∉ before := fun member => by simpa using (passed _ member).1
      have inAfter : obar ∈ after := by
        rw [split, List.mem_append] at member
        exact member.resolve_left notBefore
      cases after with
      | nil => cases inAfter
      | cons first after =>
          have low : first ≤ obar := by simpa using stop first rfl
          have order := refs_pairwise J .obar
          rw [split] at order
          have descends := (List.pairwise_cons.mp (List.pairwise_append.mp order).2.1).1
          have isFirst : first = obar := by
            rcases List.mem_cons.mp inAfter with same | behind
            · exact same.symm
            · have higher := descends _ behind
              simp only [IROp.isConst, Bool.false_eq_true, if_false] at higher
              exact absurd (Nat.lt_of_lt_of_le higher low) (Nat.lt_irrefl _)
          have walk : Walk (J.links .obar) 0 none (before ++ first :: after) := by
            rw [← split]
            exact linked.walk .obar nofun nofun
          exact ⟨before, after, isFirst ▸ split, isFirst ▸ walk.behind.1, ends⟩

theorem keeps_removeOBAR (xref : IRRef1) : Keeps (removeOBAR xref) := by
  intro J ref linked above
  rw [removeOBAR]
  split
  · rename_i barrier
    obtain ⟨inside, isOBAR, -⟩ := barrier
    have has : J.has .obar (ref + 1) = true := has_of_o isOBAR (by decide)
    have middle := linked.middle
    obtain ⟨before, after, split, leads, ends⟩ :=
      link_obar linked (linked.mem_refs.mpr ⟨by lia, inside, has⟩)
    rw [ends]
    dsimp only
    rw [leads]
    exact ⟨_, rfl, linked.unlink split rfl, nins_unlink _, linked.unlink_constants split rfl⟩
  · exact ⟨J, rfl, linked, rfl, rfl, fun _ _ => rfl⟩

theorem JitState.Linked.dseStore (linked : J.Linked) (notConst : op.isConst = false)
    (notNop : op ≠ .nop) (finsNotConst : fins.o.isConst = false) (room : J.nins < 0x10000)
    (lim : IRRef) (aliasing : IRIns → AliasRet) (observer : IRIns → Bool)
    {also : JitState → IRRef → Option JitState} (keeps : Keeps also) :
    ∃ result, dseStore J fins op lim aliasing observer also = some result ∧
      result.1.Linked ∧ SameConstants J result.1 := by
  have notPri : op ≠ .kpri := by
    rintro rfl
    cases notConst
  obtain ⟨found, ends, splits⟩ := linked.follow op notNop notPri (fun ref => lim < ref) _ (by simp)
  rw [TvmJit.dseStore, searchStore, ends]
  cases found with
  | ended link => exact ⟨_, rfl, linked.emit finsNotConst room, .emit linked⟩
  | hit refp ref outcome =>
      cases outcome with
      | emit => exact ⟨_, rfl, linked.emit finsNotConst room, .emit linked⟩
      | drop => exact ⟨_, rfl, linked, rfl, fun _ _ => rfl⟩
      | eliminate =>
          obtain ⟨before, after, split, rfl, -, -, -⟩ := splits
          have listed : ref ∈ J.refs op := by simp [split]
          have above := linked.above notConst listed
          obtain ⟨J', further, linked', nins, same⟩ :=
            keeps _ ref (linked.unlink split notConst) above
          rw [nins_unlink] at nins
          dsimp only
          rw [further]
          exact ⟨_, rfl, linked'.emit finsNotConst (nins ▸ room),
            ((linked.unlink_constants split notConst).trans same).trans (.emit linked')⟩

end

end TvmJit
