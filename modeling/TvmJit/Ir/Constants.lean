import TvmJit.Ir.Chains

/-! Interning of constants. A new constant is put in front of its chain only when the
search has passed all constants with its opcode, so that equal constants are one. -/

namespace TvmJit

open Foundation Function

/-- The opcode's constants have a second slot. -/
def IROp.isWide (LJ_GC64 : Bool) : IROp → Bool
  | .knum | .kint64 => true
  | .kgc | .kptr | .kkptr => LJ_GC64
  | _ => false

/-- The form of the values of an opcode's constants. -/
def KValue.fits (LJ_GC64 : Bool) (op : IROp) : KValue → Prop
  | .wide _ => op.isWide LJ_GC64
  | .type _ => op = .knull
  | .bits _ => op.isWide LJ_GC64 = false ∧ op ≠ .knull ∧ op ≠ .kpri

namespace JitState

section

variable (LJ_GC64 : Bool) (J : JitState)

/-- The value of a constant with the opcode. -/
def kvalue (op : IROp) (ref : IRRef) : KValue :=
  if op.isWide LJ_GC64 then .wide (J.TV (ref + 1))
  else
    match op with
    | .kpri | .knull => .type (J.IR ref).t
    | _ => .bits (J.IR ref).op12

/-- Equal constants are one, and no constant reaches into the instructions. -/
structure Interned : Prop where
  within : ∀ op ref, op.isConst → op.isWide LJ_GC64 → ref ∈ J.refs op → ref + 1 < REF_BIAS
  distinct : ∀ op ref ref', op.isConst → ref ∈ J.refs op → ref' ∈ J.refs op →
    J.kvalue LJ_GC64 op ref = J.kvalue LJ_GC64 op ref' → ref = ref'

end

variable {LJ_GC64 : Bool} {J J' : JitState} {op : IROp} {ref : IRRef} {t : IRType1} {value : KValue}

/-- The search compares the values of constants. -/
theorem holdsK_iff (fits : value.fits LJ_GC64 op) :
    J.holdsK ref value = true ↔ J.kvalue LJ_GC64 op ref = value := by
  cases value with
  | wide u64 => simp [holdsK, kvalue, show op.isWide LJ_GC64 = true from fits]
  | type t =>
      obtain rfl : op = .knull := fits
      simp [holdsK, kvalue, IROp.isWide]
  | bits i =>
      obtain ⟨narrow, notNull, notPri⟩ := fits
      simp [holdsK, kvalue, narrow]

theorem kvalue_congr (first : J'.IR ref = J.IR ref)
    (second : op.isWide LJ_GC64 → J'.TV (ref + 1) = J.TV (ref + 1)) :
    J'.kvalue LJ_GC64 op ref = J.kvalue LJ_GC64 op ref := by
  simp only [kvalue, first]
  split
  · rename_i wide
    rw [second wide]
  · rfl

/-- Only instructions are different, not constants. -/
structure SameConstants (J J' : JitState) : Prop where
  nk : J'.nk = J.nk
  below : ∀ ref, ref < REF_BIAS → J'.ir ref = J.ir ref

theorem SameConstants.trans {J'' : JitState} (first : SameConstants J J')
    (second : SameConstants J' J'') : SameConstants J J'' :=
  ⟨second.nk.trans first.nk, fun ref low => (second.below ref low).trans (first.below ref low)⟩

theorem SameConstants.emit {fins : IRIns} (linked : J.Linked) :
    SameConstants J (lj_ir_emit J fins).1 := by
  refine ⟨rfl, fun ref low => ?_⟩
  have base := linked.base
  have other : ref ≠ J.nins := Nat.ne_of_lt (Nat.lt_of_lt_of_le low base)
  simp [lj_ir_emit, setChain, setIR, other]

theorem Interned.frame (interned : J.Interned LJ_GC64) (same : SameConstants J J') :
    J'.Interned LJ_GC64 := by
  obtain ⟨nk, below⟩ := same
  have bounds {op : IROp} (const : op.isConst) {r : IRRef} (member : r ∈ J.places op) :
      r < REF_BIAS := by
    rw [mem_places_const const] at member
    lia
  have refs {op : IROp} (const : op.isConst) : J'.refs op = J.refs op := by
    have places : J'.places op = J.places op := by simp [JitState.places, const, nk]
    rw [JitState.refs, JitState.refs, places]
    refine List.filter_congr fun r member => ?_
    rw [has, has, below r (bounds const member)]
  have values {op : IROp} (const : op.isConst) {r : IRRef} (member : r ∈ J.refs op) :
      J'.kvalue LJ_GC64 op r = J.kvalue LJ_GC64 op r := by
    refine kvalue_congr ?_ fun wide => ?_
    · rw [IR, IR, below r (bounds const (List.mem_filter.mp member).1)]
    · rw [TV, TV, below (r + 1) (interned.within op r const wide member)]
  refine ⟨fun op r const wide member => ?_, fun op r s const memberR memberS same => ?_⟩
  · exact interned.within op r const wide (refs const ▸ member)
  · rw [refs const] at memberR memberS
    rw [values const memberR, values const memberS] at same
    exact interned.distinct op r s const memberR memberS same

/-! ## A new constant -/

theorem ir_addK (r : IRRef) : (J.addK op t value).1.ir r =
    if r = J.nk - value.slots then .ins ⟨value.op12, t, op, J.chain op⟩
    else match value with
      | .wide u64 => if r = J.nk - value.slots + 1 then .tv u64 else J.ir r
      | .bits _ | .type _ => J.ir r := by
  cases value <;> simp only [addK, setChain, setIR, setTV, update_apply]

theorem nk_addK : (J.addK op t value).1.nk = J.nk - value.slots := by
  cases value <;> rfl

theorem nins_addK : (J.addK op t value).1.nins = J.nins := by
  cases value <;> rfl

theorem chain_addK (op' : IROp) : (J.addK op t value).1.chain op' =
    if op' = op then .of (J.nk - value.slots) else J.chain op' := by
  cases value <;> simp only [addK, setChain, setIR, setTV, update_apply]

theorem slots_pos (value : KValue) : 0 < value.slots := by
  cases value <;> simp [KValue.slots]

/-- The old constants and the instructions stay. -/
theorem ir_addK_old (room : value.slots < J.nk) {r : IRRef} (old : J.nk ≤ r) : (J.addK op t value).1.ir r = J.ir r := by
  rw [ir_addK]
  have pos := slots_pos value
  rw [if_neg (by lia)]
  split
  · simp only [KValue.slots] at room ⊢
    exact if_neg (by lia)
  · rfl
  · rfl

theorem has_addK_new (op' : IROp) :
    (J.addK op t value).1.has op' (J.nk - value.slots) = decide (op = op') := by
  simp [has, ir_addK]

/-- Only the first slot of the new constant counts as an instruction. -/
theorem filter_addK_new (op' : IROp) :
    (List.range' (J.nk - value.slots) value.slots).filter ((J.addK op t value).1.has op') =
      if op' = op then [J.nk - value.slots] else [] := by
  have first : (J.addK op t value).1.has op' (J.nk - value.slots) = decide (op = op') := has_addK_new op'
  have eq_comm' : (op = op') = (op' = op) := propext eq_comm
  cases value with
  | wide u64 =>
      have second : (J.addK op t (.wide u64)).1.has op' (J.nk - 2 + 1) = false := by
        simp [has, ir_addK, KValue.slots]
      have two : List.range' (J.nk - 2) 2 = [J.nk - 2, J.nk - 2 + 1] := rfl
      simp only [KValue.slots] at first ⊢
      simp only [two, List.filter_cons, first, second, List.filter_nil, eq_comm']
      simp
  | bits i =>
      simp only [KValue.slots] at first ⊢
      simp only [List.range'_one, List.filter_cons, first, List.filter_nil, eq_comm']
      simp
  | type t' =>
      simp only [KValue.slots] at first ⊢
      simp only [List.range'_one, List.filter_cons, first, List.filter_nil, eq_comm']
      simp

section

variable (linked : J.Linked) (const : op.isConst) (room : value.slots < J.nk)

include linked room

theorem has_addK_old (op' : IROp) : (J.places op').filter ((J.addK op t value).1.has op') =
    J.refs op' := by
  refine List.filter_congr fun r member => ?_
  have middle := linked.middle
  have old : J.nk ≤ r := by
    cases const' : op'.isConst with
    | true =>
        rw [mem_places_const const'] at member
        exact member.1
    | false =>
        rw [mem_places const'] at member
        exact Nat.le_trans middle member.1
  rw [has, has, ir_addK_old room old]

include const

theorem refs_addK (op' : IROp) : (J.addK op t value).1.refs op' =
    if op' = op then (J.nk - value.slots) :: J.refs op' else J.refs op' := by
  have middle := linked.middle
  have old : (J.places op').filter ((J.addK op t value).1.has op') = J.refs op' :=
    has_addK_old linked room op'
  cases const' : op'.isConst with
  | true =>
      have split : (J.addK op t value).1.places op' =
          List.range' (J.nk - value.slots) value.slots ++ J.places op' := by
        have more : REF_BIAS - (J.nk - value.slots) = value.slots + (REF_BIAS - J.nk) := by lia
        have next : J.nk - value.slots + value.slots = J.nk := by lia
        have append := @List.range'_append_1 (J.nk - value.slots) value.slots (REF_BIAS - J.nk)
        rw [next] at append
        simp only [places, const', if_true, nk_addK, more, append]
      rw [JitState.refs, split, List.filter_append, filter_addK_new, old]
      split <;> rfl
  | false =>
      have different : op' ≠ op := by
        rintro rfl
        simp [const] at const'
      have same : (J.addK op t value).1.places op' = J.places op' := by
        simp [places, const', nins_addK]
      rw [JitState.refs, same, old, if_neg different]

theorem Linked.addK : (J.addK op t value).1.Linked where
  bottom := by
    rw [nk_addK]
    lia
  middle := by
    have middle := linked.middle
    rw [nk_addK]
    lia
  base := by
    rw [nins_addK]
    exact linked.base
  fits := by
    rw [nins_addK]
    exact linked.fits
  sides op' ref has low high := by
    rw [nk_addK] at low
    rw [nins_addK] at high
    by_cases old : J.nk ≤ ref
    · rw [has_iff, ir_addK_old room old, ← has_iff] at has
      exact linked.sides op' ref has old high
    · have new : ref ∈ (List.range' (J.nk - value.slots) value.slots).filter
          ((J.addK op t value).1.has op') :=
        List.mem_filter.mpr ⟨List.mem_range'_1.mpr ⟨low, by lia⟩, has⟩
      have middle := linked.middle
      rw [filter_addK_new] at new
      split at new
      · rename_i same
        simp only [same, const, true_iff]
        lia
      · cases new
  walk op' notNop notPri' := by
    have walk := linked.walk op' notNop notPri'
    have pos := slots_pos value
    have middle := linked.middle
    have low : ∀ ref ∈ J.refs op', J.nk ≤ ref := fun ref member => (linked.mem_refs.mp member).1
    have new : J.nk - value.slots ∉ J.refs op' := fun member => by
      have bound := low _ member
      lia
    have frame : ∀ ref ∈ J.refs op', ((J.addK op t value).1.IR ref).prev = (J.IR ref).prev := by
      intro ref member
      rw [IR, IR, ir_addK_old room (low ref member)]
    rw [refs_addK linked const room]
    by_cases same : op' = op
    · rw [if_pos same]
      refine walk_push walk (by lia) new ?_ ?_ frame
      · have bias : REF_BIAS = 0x8000 := rfl
        rw [chain_addK, if_pos same, toNat_of (by lia)]
      · rw [IR, ir_addK, if_pos rfl, same]
    · rw [if_neg same]
      exact walk_frame walk (by rw [chain_addK, if_neg same]) frame

/-! ## Interning -/

omit linked const room in
theorem kvalue_addK_new (fits : value.fits LJ_GC64 op) (typed : ∀ t', value = .type t' → t = t') :
    (J.addK op t value).1.kvalue LJ_GC64 op (J.nk - value.slots) = value := by
  cases value with
  | wide u64 =>
      have wide : op.isWide LJ_GC64 = true := fits
      simp [kvalue, wide, TV, ir_addK]
  | type t' =>
      obtain rfl : op = .knull := fits
      obtain rfl := typed t' rfl
      simp [kvalue, IROp.isWide, IR, ir_addK]
  | bits i =>
      obtain ⟨narrow, notNull, notPri⟩ := fits
      simp [kvalue, narrow, IR, ir_addK, KValue.op12]

omit const in
theorem kvalue_addK_old {op' : IROp} (member : ref ∈ J.refs op') :
    (J.addK op t value).1.kvalue LJ_GC64 op' ref = J.kvalue LJ_GC64 op' ref := by
  have low : J.nk ≤ ref := (linked.mem_refs.mp member).1
  refine kvalue_congr ?_ fun _ => ?_
  · rw [IR, IR, ir_addK_old room low]
  · rw [TV, TV, ir_addK_old room (by lia)]

theorem Interned.addK (interned : J.Interned LJ_GC64) (fits : value.fits LJ_GC64 op)
    (typed : ∀ t', value = .type t' → t = t')
    (absent : ∀ ref ∈ J.refs op, J.kvalue LJ_GC64 op ref ≠ value) :
    (J.addK op t value).1.Interned LJ_GC64 where
  within op' ref const' wide member := by
    rw [refs_addK linked const room] at member
    split at member
    · rcases List.mem_cons.mp member with rfl | member
      · rename_i same
        subst same
        have middle := linked.middle
        have two : value.slots = 2 := by
          cases value with
          | wide u64 => rfl
          | bits i => simp [KValue.fits, wide] at fits
          | type t' =>
              obtain rfl : op' = .knull := fits
              simp [IROp.isWide] at wide
        lia
      · exact interned.within op' ref const' wide member
    · exact interned.within op' ref const' wide member
  distinct op' ref ref' const' member member' equal := by
    rw [refs_addK linked const room] at member member'
    by_cases same : op' = op
    · subst same
      rw [if_pos rfl] at member member'
      have new := kvalue_addK_new (J := J) fits typed
      rcases List.mem_cons.mp member with rfl | member <;>
        rcases List.mem_cons.mp member' with rfl | member'
      · rfl
      · rw [new, kvalue_addK_old linked room member'] at equal
        exact absurd equal.symm (absent ref' member')
      · rw [new, kvalue_addK_old linked room member] at equal
        exact absurd equal (absent ref member)
      · rw [kvalue_addK_old linked room member, kvalue_addK_old linked room member'] at equal
        exact interned.distinct op' ref ref' const' member member' equal
    · rw [if_neg same] at member member'
      rw [kvalue_addK_old linked room member, kvalue_addK_old linked room member'] at equal
      exact interned.distinct op' ref ref' const' member member' equal

end

/-- An interned constant is an old one with the value, or a new one where there was none. -/
theorem internK_cases (linked : J.Linked) (const : op.isConst) (notPri : op ≠ .kpri)
    (fits : value.fits LJ_GC64 op) :
    (∃ ref ∈ J.refs op, J.kvalue LJ_GC64 op ref = value ∧ J.internK op t value = some (J, ref)) ∨
      (∀ ref ∈ J.refs op, J.kvalue LJ_GC64 op ref ≠ value) ∧
        J.internK op t value = some (J.addK op t value) := by
  have notNop : op ≠ .nop := by
    rintro rfl
    simp [IROp.isConst] at const
  obtain ⟨found, ends, splits⟩ := linked.follow op notNop notPri (· ≠ 0)
    (fun ref => if J.holdsK ref value then some () else none) rfl
  rw [internK, ends]
  cases found with
  | hit link ref result =>
      obtain ⟨before, after, same, -, -, -, hit⟩ := splits
      have holds : J.holdsK ref value = true := by
        by_contra no
        simp [no] at hit
      exact .inl ⟨ref, by simp [same], (holdsK_iff fits).mp holds, rfl⟩
  | ended link =>
      obtain ⟨before, after, same, -, passed, stop⟩ := splits
      refine .inr ⟨fun ref member equal => ?_, rfl⟩
      have notNull : ref ≠ 0 := (linked.walk op notNop notPri).ne_null member
      rw [same, List.mem_append] at member
      rcases member with member | member
      · have misses := (passed ref member).2
        simp [(holdsK_iff fits).mpr equal] at misses
      · cases after with
        | nil => cases member
        | cons first after =>
            have isNull : first = 0 := by simpa using stop first rfl
            exact (linked.walk op notNop notPri).ne_null (by simp [same]) isNull

theorem Linked.internK (linked : J.Linked) (interned : J.Interned LJ_GC64) (const : op.isConst)
    (notPri : op ≠ .kpri) (fits : value.fits LJ_GC64 op) (typed : ∀ t', value = .type t' → t = t')
    (room : value.slots < J.nk) : ∃ result, J.internK op t value = some result ∧
      result.1.Linked ∧ result.1.Interned LJ_GC64 := by
  rcases internK_cases linked const notPri fits with ⟨ref, -, -, found⟩ | ⟨absent, new⟩
  · exact ⟨_, found, linked, interned⟩
  · exact ⟨_, new, linked.addK const room, interned.addK linked const room fits typed absent⟩

end JitState

end TvmJit
