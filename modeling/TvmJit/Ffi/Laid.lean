import TvmJit.Ffi.Fields

/-! The layout of structs and unions: fields are where they would be with unbounded offsets, as
long as the size of the aggregate fits. -/

namespace TvmJit

open Foundation Function

namespace CTab

variable {T T₁ T₂ : CTab} {S ids : List CTypeID} {sid id lastid fieldid : CTypeID} {pack : Nat}
  {sattr : CTInfo} {members : List (CTypeID × MemberDecl)} {f : FieldInfo}

/-! ## The chain of the members -/

theorem AgreesOff.mono (agrees : AgreesOff S T T₁) (more : ∀ id ∈ S, id ∈ ids) :
    AgreesOff ids T T₁ := fun id off => agrees id fun member => off (more id member)

/-- What is declared is chained behind the last element. -/
structure Chained (T : CTab) (lastid : CTypeID) (members : List (CTypeID × MemberDecl))
    (T₁ : CTab) : Prop where
  chain : Chain (fun id => (T₁ id).sib) 0 (T₁ lastid).sib (members.map Prod.fst)
  last : (T₁ lastid).info = (T lastid).info ∧ (T₁ lastid).size = (T lastid).size
  frame : ∀ id, id ≠ lastid → id ∉ members.map Prod.fst → T₁ id = T id
  elements : ∀ x ∈ members, ∃ T', AgreesOff (members.map Prod.fst) T T' ∧
    AgreesOff (members.map Prod.fst) T' T₁ ∧ Element T' x.2 (T₁ x.1)

theorem Chained.agrees (chained : Chained T lastid members T₁) :
    AgreesOff (members.map Prod.fst) T T₁ := by
  intro id off
  by_cases isLast : id = lastid
  · rw [isLast]
    exact chained.last
  · rw [chained.frame id isLast off]
    exact ⟨rfl, rfl⟩

theorem chain_spec (T : CTab) (ct : CType) (other : id ≠ lastid) :
    (T.chain lastid id ct) id = ct ∧ (T.chain lastid id ct) lastid = { T lastid with sib := id } ∧
      ∀ j, j ≠ lastid → j ≠ id → (T.chain lastid id ct) j = T j := by
  rw [CTab.chain]
  dsimp only
  rw [CTab.set, CTab.set]
  refine ⟨?_, ?_, fun j notLast notHere => ?_⟩
  · rw [update_of_ne other, update_self]
  · rw [update_self, update_of_ne other.symm]
  · rw [update_of_ne notLast, update_of_ne notHere]

theorem Chained.cons {ct : CType} {m : MemberDecl} (other : id ≠ lastid) (notNull : id ≠ 0)
    (notLast : lastid ∉ members.map Prod.fst)
    (element : ∀ ct', ct'.info = ct.info → ct'.size = ct.size → Element T m ct')
    (rest : Chained (T.chain lastid id ct) id members T₁) :
    Chained T lastid ((id, m) :: members) T₁ := by
  obtain ⟨here, atLast, others⟩ := chain_spec T ct other
  have lastSame : T₁ lastid = { T lastid with sib := id } :=
    (rest.frame lastid other.symm notLast).trans atLast
  have agrees : AgreesOff (id :: members.map Prod.fst) T (T.chain lastid id ct) := by
    intro j off
    rw [List.mem_cons, not_or] at off
    by_cases isLast : j = lastid
    · rw [isLast, atLast]
      exact ⟨rfl, rfl⟩
    · rw [others j isLast off.1]
      exact ⟨rfl, rfl⟩
  have behind : ∀ j ∈ members.map Prod.fst, j ∈ id :: members.map Prod.fst :=
    fun j member => List.mem_cons_of_mem _ member
  refine ⟨Chain.cons_iff.mpr ⟨?_, notNull, rest.chain⟩, ?_, fun j notLast' off => ?_,
    fun x member => ?_⟩
  · rw [lastSame]
  · rw [lastSame]
    exact ⟨rfl, rfl⟩
  · rw [List.map_cons, List.mem_cons, not_or] at off
    rw [rest.frame j off.1 off.2]
    exact others j notLast' off.1
  · rcases List.mem_cons.mp member with rfl | member
    · refine ⟨T, .refl _ _, agrees.trans (rest.agrees.mono behind), element _ ?_ ?_⟩
      · rw [rest.last.1, here]
      · rw [rest.last.2, here]
    · obtain ⟨T', before, after, isElement⟩ := rest.elements x member
      exact ⟨T', agrees.trans (before.mono behind), after.mono behind, isElement⟩

theorem declMembers_spec {lastdecl : Bool}
    (ran : declMembers members lastid lastdecl T = some (.ok T₁))
    (nodup : (lastid :: members.map Prod.fst).Nodup) (notNull : ∀ id ∈ members.map Prod.fst, id ≠ 0) :
    Chained T lastid members T₁ := by
  induction members generalizing lastid lastdecl T with
  | nil =>
      obtain rfl : T.set lastid { T lastid with sib := 0 } = T₁ := Except.ok.inj (Option.some.inj ran)
      rw [CTab.set]
      refine ⟨?_, ?_, fun id other _ => update_of_ne other _ _, fun x member => by cases member⟩
      · rw [update_self]
        rfl
      · rw [update_self]
        exact ⟨rfl, rfl⟩
  | cons x members induction =>
      obtain ⟨id, m⟩ := x
      obtain ⟨notLast, nodup⟩ := List.nodup_cons.mp nodup
      rw [List.map_cons, List.mem_cons, not_or] at notLast
      have notNull := List.forall_mem_cons.mp notNull
      cases m with
      | constant ctypeid value =>
          rw [declMembers] at ran
          split at ran
          · cases ran
          · have rest := induction ran nodup notNull.2
            exact rest.cons (Ne.symm notLast.1) notNull.1 notLast.2 fun ct' info _ => .constant info
      | field decl =>
          rw [declMembers] at ran
          split at ran
          · cases ran
          · cases entry : T.fieldEntry decl with
            | none =>
                rw [entry] at ran
                cases ran
            | some outcome =>
                rw [entry] at ran
                cases outcome with
                | error e => cases ran
                | ok made =>
                    have rest := induction ran nodup notNull.2
                    exact rest.cons (Ne.symm notLast.1) notNull.1 notLast.2
                      fun ct' info size => .field ((fieldEntry_made entry).congr info size)

/-! ## The loop over the fields -/

section

variable [CTarget]

/-- The fields of a chain, with what is known of them before the layout. -/
def fields (pack : Nat) (sattr : CTInfo) (T : CTab) (ids : List CTypeID) :
    List (CTypeID × FieldInfo) :=
  ids.filterMap fun id => (T.fieldOf pack sattr id).map (id, ·)

end

end CTab

namespace LayoutState

variable {L L' : LayoutState} {T₁ : CTab} {S ids rest : List CTypeID}
  {fieldid : CTypeID} {pack : Nat} {sattr : CTInfo} {f : FieldInfo} {union : Bool}

/-- What the layout leaves of the information word of the aggregate. -/
structure SameFlags (sinfo sinfo' : CTInfo) : Prop where
  union : sinfo' &&& CTF_UNION = sinfo &&& CTF_UNION
  align : sinfo' &&& CTF_ALIGN = sinfo &&& CTF_ALIGN

theorem SameFlags.refl (sinfo : CTInfo) : SameFlags sinfo sinfo := ⟨rfl, rfl⟩

theorem SameFlags.trans {a b c : CTInfo} (first : SameFlags a b) (second : SameFlags b c) :
    SameFlags a c :=
  ⟨second.union.trans first.union, second.align.trans first.align⟩

/-- The pseudo-qualifiers are neither. -/
theorem SameFlags.merge (sinfo info : CTInfo) :
    SameFlags sinfo (sinfo ||| (info &&& (CTF_QUAL ||| CTF_VLA))) := by
  have parts (mask : BitVec 32) (none : (CTF_QUAL ||| CTF_VLA) &&& mask = 0) :
      (sinfo ||| (info &&& (CTF_QUAL ||| CTF_VLA))) &&& mask = sinfo &&& mask := by
    apply or_and_of_disjoint
    rw [BitVec.and_assoc, none]
    exact BitVec.and_zero
  exact ⟨parts _ (by decide), parts _ (by decide)⟩

variable [CTarget]

/-- One round of the loop: nothing, or a field is put in its place. -/
theorem layoutField_cases (closed : CTab.Closed S T₁) (agrees : CTab.AgreesOff S T₁ L.tab)
    (here : L.tab fieldid = T₁ fieldid) (off : ctype_cid (T₁ fieldid).info ∉ S ∨
      isLaid (T₁ fieldid) = false)
    (ran : L.layoutField pack sattr fieldid = some (.ok L')) :
    (T₁.fieldOf pack sattr fieldid = none ∧ L' = L) ∨
      ∃ f sinfo, T₁.fieldOf pack sattr fieldid = some f ∧ SameFlags L.sinfo sinfo ∧
        L' = { L with sinfo }.putField fieldid f := by
  rw [layoutField] at ran
  dsimp only at ran
  rw [here] at ran
  split at ran
  · next isLaid =>
      have off := off.resolve_right (by rw [isLaid]; exact Bool.noConfusion)
      have look : L.tab.lj_ctype_info (ctype_cid (T₁ fieldid).info) =
          T₁.lj_ctype_info (ctype_cid (T₁ fieldid).info) := CTab.infoLoop_agrees closed agrees off 0
      rw [look] at ran
      cases found : T₁.lj_ctype_info (ctype_cid (T₁ fieldid).info) with
      | none =>
          rw [found] at ran
          cases ran
      | some both =>
          obtain ⟨info, sz⟩ := both
          rw [found] at ran
          dsimp only at ran
          have put {csz : CTSize} (isSize : csz = if sz = CTSIZE_INVALID then 0 else 8 * sz)
              (ran : (fieldInfo pack sattr { L with sinfo := L.sinfo ||| (info &&& (CTF_QUAL ||| CTF_VLA)) }
                (T₁ fieldid) info csz).map (fun f => Except.ok (ε := CParseError)
                  ({ L with sinfo := L.sinfo ||| (info &&& (CTF_QUAL ||| CTF_VLA)) }.putField fieldid f)) =
                some (.ok L')) :
              ∃ f sinfo, T₁.fieldOf pack sattr fieldid = some f ∧ SameFlags L.sinfo sinfo ∧
                L' = { L with sinfo }.putField fieldid f := by
            obtain ⟨f, made, put⟩ := Option.map_eq_some_iff.mp ran
            refine ⟨f, _, ?_, .merge L.sinfo info, (Except.ok.inj put).symm⟩
            rw [fieldInfo, CTab.field_align_agrees closed agrees off] at made
            rw [CTab.fieldOf, if_pos isLaid, found]
            dsimp only
            rw [← made, isSize]
          split at ran
          · split at ran
            · cases ran
            · next open_ =>
                have invalid : sz = CTSIZE_INVALID := by
                  by_contra valid
                  exact open_ (by simp [valid])
                exact .inr (put (by rw [if_pos invalid]) ran)
          · next small =>
              have valid : sz ≠ CTSIZE_INVALID := by
                rintro rfl
                exact small (by simp; exact .inl (.inl (by decide)))
              exact .inr (put (by rw [if_neg valid]) ran)
  · next notLaid =>
      refine .inl ⟨?_, (Except.ok.inj (Option.some.inj ran)).symm⟩
      rw [CTab.fieldOf]
      exact if_neg notLaid

/-- A field is put behind the others of a struct, or at the start of a union. -/
theorem putField_spec {pos : Nat} (fieldid : CTypeID)
    (isUnion : (L.sinfo &&& CTF_UNION ≠ 0 : Bool) = union) (atStart : union = true → pos = 0)
    (isPos : L.bofs.toNat = pos % 2 ^ 32) (sound : f.Sound) :
    (L.putField fieldid f).tab = L.tab.set fieldid (f.place L.bofs).1 ∧
      (L.putField fieldid f).maxalign = max L.maxalign f.align ∧
      (L.putField fieldid f).sinfo = L.sinfo ∧
      (L.putField fieldid f).bofs.toNat =
        (if union then pos else f.member.start pos + f.member.width) % 2 ^ 32 ∧
      (union = true → (L.putField fieldid f).bmaxofs.toNat = max L.bmaxofs.toNat f.member.width) := by
  have ⟨b, same, start, _⟩ := sound.place_at isPos
  have room : f.member.start b.toNat < 2 ^ 32 := start ▸ Nat.mod_lt _ (by decide)
  have put := sound.place_spec room
  have putStart := put.start
  have putWidth := put.width
  rw [← same] at putStart putWidth
  have highest : (if f.align > L.maxalign then f.align else L.maxalign) = max L.maxalign f.align := by
    rw [max_def]
    split <;> split <;> omega
  rw [putField]
  dsimp only
  cases union with
  | true =>
      rw [decide_eq_true_eq] at isUnion
      rw [if_pos isUnion]
      refine ⟨rfl, highest, rfl, ?_, fun _ => ?_⟩
      · change (f.place L.bofs).2.1.toNat = _
        rw [putStart, start, atStart rfl]
        exact congrArg (· % 2 ^ 32) (start_zero f.member)
      · change (if (f.place L.bofs).2.2 > L.bmaxofs then (f.place L.bofs).2.2 else L.bmaxofs).toNat = _
        rw [← putWidth, max_def]
        split
        · next more =>
            rw [if_pos (BitVec.lt_def.mp more).le]
        · next less =>
            have most := BitVec.le_def.mp (BitVec.not_lt.mp less)
            split <;> omega
  | false =>
      rw [decide_eq_false_iff_not] at isUnion
      rw [if_neg isUnion]
      refine ⟨rfl, highest, rfl, ?_, fun isTrue => by cases isTrue⟩
      change ((f.place L.bofs).2.1 + (f.place L.bofs).2.2).toNat = _
      rw [BitVec.toNat_add, putStart, putWidth, start, Nat.mod_add_mod]
      rfl

/-- Where the bits of an aggregate end. -/
def stop (union : Bool) (L : LayoutState) : CTSize := if union then L.bmaxofs else L.bofs

/-- The field has been put where it is said to be. -/
def PutAt (T : CTab) (x : CTypeID × FieldInfo) (p : Member × Nat) : Prop :=
  p.1 = x.2.member ∧ ∃ bofs : CTSize, bofs.toNat = p.2 ∧ T x.1 = (x.2.place bofs).1

/-- The field has been put there but for the wrap of the bit offset. -/
def Lands (T : CTab) (x : CTypeID × FieldInfo) (p : Member × Nat) : Prop :=
  p.1 = x.2.member ∧ ∃ bofs : CTSize, bofs.toNat = p.2 % 2 ^ 32 ∧ T x.1 = (x.2.place bofs).1

/-- What the loop leaves behind when it starts at a bit. -/
structure Looped (pack : Nat) (sattr : CTInfo) (T₁ : CTab) (union : Bool) (rest : List CTypeID)
    (pos : Nat) (L L' : LayoutState) : Prop where
  stop : (L'.stop union).toNat = extent union pos L.bmaxofs.toNat
    ((CTab.fields pack sattr T₁ rest).map fun x => x.2.member) % 2 ^ 32
  maxalign : L'.maxalign =
    maxAlign L.maxalign ((CTab.fields pack sattr T₁ rest).map fun x => x.2.member)
  flags : SameFlags L.sinfo L'.sinfo
  frame : ∀ id, id ∉ rest → L'.tab id = L.tab id
  put : List.Forall₂ (Lands L'.tab) (CTab.fields pack sattr T₁ rest)
    (placed union pos ((CTab.fields pack sattr T₁ rest).map fun x => x.2.member))

/-- The fields of the chain are known before the layout, and their types are not in the chain. -/
def Known (pack : Nat) (sattr : CTInfo) (T₁ : CTab) (S : List CTypeID) : Prop :=
  ∀ id ∈ S, (∀ f, T₁.fieldOf pack sattr id = some f → f.Sound) ∧
    (ctype_cid (T₁ id).info ∉ S ∨ isLaid (T₁ id) = false)

theorem fields_none {id : CTypeID} (rest : List CTypeID) (none : T₁.fieldOf pack sattr id = none) :
    CTab.fields pack sattr T₁ (id :: rest) = CTab.fields pack sattr T₁ rest := by
  rw [CTab.fields, List.filterMap_cons, none]
  rfl

theorem fields_some {id : CTypeID} (rest : List CTypeID) (found : T₁.fieldOf pack sattr id = some f) :
    CTab.fields pack sattr T₁ (id :: rest) = (id, f) :: CTab.fields pack sattr T₁ rest := by
  rw [CTab.fields, List.filterMap_cons, found]
  rfl

theorem Looped.skip {id : CTypeID} {pos : Nat} (none : T₁.fieldOf pack sattr id = none)
    (looped : Looped pack sattr T₁ union rest pos L L') :
    Looped pack sattr T₁ union (id :: rest) pos L L' := by
  have same := fields_none rest none
  refine ⟨?_, ?_, looped.flags, fun j off => looped.frame j fun member =>
    off (List.mem_cons_of_mem _ member), ?_⟩ <;> rw [same]
  · exact looped.stop
  · exact looped.maxalign
  · exact looped.put

/-- A field is put in its place, and the loop goes on behind it. -/
theorem Looped.cons {id : CTypeID} {L₁ : LayoutState} {pos : Nat}
    (found : T₁.fieldOf pack sattr id = some f) (new : id ∉ rest)
    (isPos : L.bofs.toNat = pos % 2 ^ 32) (tab : L₁.tab = L.tab.set id (f.place L.bofs).1)
    (maxalign : L₁.maxalign = max L.maxalign f.align) (flags : SameFlags L.sinfo L₁.sinfo)
    (bmaxofs : union = true → L₁.bmaxofs.toNat = max L.bmaxofs.toNat f.member.width)
    (looped : Looped pack sattr T₁ union rest
      (if union then pos else f.member.start pos + f.member.width) L₁ L') :
    Looped pack sattr T₁ union (id :: rest) pos L L' := by
  have same := fields_some rest found
  have isPut : L'.tab id = (f.place L.bofs).1 := by
    rw [looped.frame id new, tab, CTab.set, update_self]
  refine ⟨?_, ?_, flags.trans looped.flags, fun j off => ?_, ?_⟩
  · rw [looped.stop, same, List.map_cons, extent]
    cases union with
    | true => rw [bmaxofs rfl]
    | false => rw [extent_struct (max L.bmaxofs.toNat f.member.width)]
  · rw [looped.maxalign, same, maxalign]
    rfl
  · rw [List.mem_cons, not_or] at off
    rw [looped.frame j off.2, tab, CTab.set, update_of_ne off.1]
  · rw [same, List.map_cons, placed]
    exact .cons ⟨rfl, L.bofs, isPos, isPut⟩ looped.put

theorem layoutLoop_spec {steps : Nat} (pos : Nat) (closed : CTab.Closed S T₁)
    (known : Known pack sattr T₁ S) (agrees : CTab.AgreesOff S T₁ L.tab)
    (chain : Chain (fun id => (L.tab id).sib) 0 fieldid rest)
    (here : ∀ id ∈ rest, id ∈ S ∧ L.tab id = T₁ id)
    (isUnion : (L.sinfo &&& CTF_UNION ≠ 0 : Bool) = union) (atStart : union = true → pos = 0)
    (isPos : L.bofs.toNat = pos % 2 ^ 32)
    (ran : layoutLoop pack sattr steps fieldid L = some (.ok L')) :
    Looped pack sattr T₁ union rest pos L L' := by
  induction steps generalizing L fieldid rest pos with
  | zero => cases ran
  | succ steps induction =>
      cases rest with
      | nil =>
          have last : fieldid = 0 := chain
          rw [layoutLoop, if_pos last] at ran
          obtain rfl : L = L' := Except.ok.inj (Option.some.inj ran)
          refine ⟨?_, rfl, .refl _, fun _ _ => rfl, .nil⟩
          cases union with
          | true => exact (Nat.mod_eq_of_lt L.bmaxofs.isLt).symm
          | false => exact isPos
      | cons id rest =>
          have nodup := List.nodup_cons.mp chain.nodup
          obtain ⟨rfl, notNull, chain⟩ := Chain.cons_iff.mp chain
          obtain ⟨⟨inS, isHere⟩, here⟩ := List.forall_mem_cons.mp here
          rw [layoutLoop, if_neg notNull] at ran
          cases step : L.layoutField pack sattr fieldid with
          | none =>
              rw [step] at ran
              cases ran
          | some outcome =>
              rw [step] at ran
              cases outcome with
              | error e => cases ran
              | ok L₁ =>
                  dsimp only at ran
                  rcases layoutField_cases closed agrees isHere (known fieldid inS).2 step with
                    ⟨none, rfl⟩ | ⟨f, sinfo, found, flags, rfl⟩
                  · exact (induction pos agrees chain here isUnion atStart isPos ran).skip none
                  · have sound := (known fieldid inS).1 f found
                    have isUnion' : (sinfo &&& CTF_UNION ≠ 0 : Bool) = union := by
                      rw [flags.union]
                      exact isUnion
                    obtain ⟨tab, maxalign, same, bofs, bmaxofs⟩ := putField_spec
                      (L := { L with sinfo }) fieldid isUnion' atStart isPos sound
                    have isField : f.ct = T₁ fieldid := by
                      obtain ⟨info, sz, align, -, -, -, rfl⟩ := CTab.fieldOf_cases found
                      rfl
                    have sib := f.place_sib L.bofs
                    have sameTab (j : CTypeID) (other : j ≠ fieldid) :
                        (putField { L with sinfo } fieldid f).tab j = L.tab j := by
                      rw [tab, CTab.set, update_of_ne other]
                    have sameSib (j : CTypeID) :
                        ((putField { L with sinfo } fieldid f).tab j).sib = (L.tab j).sib := by
                      by_cases other : j = fieldid
                      · rw [other, tab, CTab.set, update_self, sib, isField, isHere]
                      · rw [sameTab j other]
                    refine .cons found nodup.1 isPos tab maxalign (same ▸ flags) bmaxofs
                      (induction _ ?_ ?_ ?_ ?_ ?_ bofs ran)
                    · intro j off
                      rw [sameTab j fun isField => off (isField ▸ inS)]
                      exact agrees j off
                    · rw [sameSib]
                      exact chain.congr fun j _ => sameSib j
                    · intro j member
                      rw [sameTab j fun isField => nodup.1 (isField ▸ member)]
                      exact here j member
                    · rw [same]
                      exact isUnion'
                    · intro isUnion
                      rw [isUnion, if_pos rfl]
                      exact atStart isUnion

omit [CTarget] in
/-- The element of the aggregate. -/
theorem complete_spec (sid : CTypeID)
    (isUnion : (L.sinfo &&& CTF_UNION ≠ 0 : Bool) = union)
    (small : L.maxalign ≤ 15) (noAlign : L.sinfo &&& CTF_ALIGN = 0) :
    ctype_align (L.complete sid sid).info = L.maxalign ∧
      8 * (L.complete sid sid).size.toNat < 2 ^ 32 ∧
      (padTo (3 + L.maxalign) (L.stop union).toNat < 2 ^ 32 →
        8 * (L.complete sid sid).size.toNat = padTo (3 + L.maxalign) (L.stop union).toNat) ∧
      ∀ id, id ≠ sid → L.complete sid id = L.tab id := by
  have bofs : (if L.sinfo &&& CTF_UNION ≠ 0 then L.bmaxofs else L.bofs) = L.stop union := by
    rw [stop, ← isUnion]
    simp only [decide_eq_true_eq]
  have size : (L.complete sid sid).size = (L.stop union +
      (BitVec.ofNat 32 (2 ^ (3 + L.maxalign)) - 1#32) &&&
        ~~~(BitVec.ofNat 32 (2 ^ (3 + L.maxalign)) - 1#32)) >>> 3 := by
    rw [complete, ← bofs, ← FieldInfo.shift_eq]
    dsimp only
    rw [CTab.set, update_self]
    rfl
  refine ⟨?_, ?_, fun room => ?_, fun id other => ?_⟩
  · have noBits := CTab.toNat_and_aligned noAlign
    have info : (L.complete sid sid).info = L.sinfo + CTALIGN (BitVec.ofNat 32 L.maxalign) := by
      rw [complete]
      dsimp only
      rw [CTab.set, update_self]
    rw [align_eq] at noBits
    rw [align_eq, info, BitVec.toNat_add, CTALIGN, BitVec.toNat_shiftLeft, Nat.shiftLeft_eq,
      BitVec.toNat_ofNat]
    have below := L.sinfo.isLt
    omega
  · rw [size, toNat_shr]
    have below := (L.stop union + (BitVec.ofNat 32 (2 ^ (3 + L.maxalign)) - 1#32) &&&
      ~~~(BitVec.ofNat 32 (2 ^ (3 + L.maxalign)) - 1#32)).isLt
    omega
  · rw [size, toNat_shr, toNat_pad_mask _ (by omega) room]
    exact Nat.mul_div_cancel' ((Nat.pow_dvd_pow 2 (Nat.le_add_right 3 _)).trans (dvd_padTo _ _))
  · rw [complete]
    dsimp only
    rw [CTab.set, update_of_ne other]

end LayoutState

end TvmJit
