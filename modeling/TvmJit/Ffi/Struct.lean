import Mathlib.Data.List.Forall2
import TvmJit.Ffi.Laid

/-! When structs and unions are laid out as their declarations say. -/

namespace TvmJit

open Foundation Function

section

variable {α β : Type} {R : α → β → Prop} {l : List α} {u : List β}

theorem forall₂_mem (related : List.Forall₂ R l u) :
    List.Forall₂ (fun a b => (a ∈ l ∧ b ∈ u) ∧ R a b) l u := by
  obtain ⟨length, each⟩ := List.forall₂_iff_zip.mp related
  exact List.forall₂_iff_zip.mpr ⟨length, fun member => ⟨List.of_mem_zip member, each member⟩⟩

theorem forall₂_partner (related : List.Forall₂ R l u) : ∀ a ∈ l, ∃ b ∈ u, R a b := by
  induction related with
  | nil => exact fun a member => nomatch member
  | @cons a b l u here rest induction =>
      refine List.forall_mem_cons.mpr ⟨⟨b, List.mem_cons_self, here⟩, fun a member => ?_⟩
      obtain ⟨b, isPartner, related⟩ := induction a member
      exact ⟨b, List.mem_cons_of_mem _ isPartner, related⟩

theorem forall₂_map_eq {γ : Type} {f : α → γ} {g : β → γ}
    (related : List.Forall₂ (fun a b => f a = g b) l u) : l.map f = u.map g := by
  induction related with
  | nil => rfl
  | cons here rest induction => rw [List.map_cons, List.map_cons, here, induction]

end

section

variable {most least pos : Nat} {ms : List Member} {union : Bool}

theorem maxAlign_le (start : least ≤ most) (each : ∀ m ∈ ms, m.align ≤ most) :
    maxAlign least ms ≤ most := by
  induction ms generalizing least with
  | nil => exact start
  | cons m rest induction =>
      obtain ⟨here, each⟩ := List.forall_mem_cons.mp each
      exact induction (max_le start here) each

theorem extent_le_total : extent union 0 0 ms ≤ total union least ms := le_padTo _ _

/-- Members end inside the aggregate. -/
theorem placed_inside {m : Member} {before : Nat} (least : Nat) (member : (m, before) ∈ placed union 0 ms) :
    m.start before + m.width ≤ total union least ms := by
  cases union with
  | false => exact (placed_struct 0 member).2.trans extent_le_total
  | true =>
      obtain ⟨rfl, inside⟩ := placed_union 0 member
      rw [start_zero, Nat.zero_add]
      exact inside.trans extent_le_total

end

section

variable [CTarget]

/-- The first bit and the number of bits that the table gives for a field. -/
def CTab.span (T : CTab) (x : CTypeID × FieldInfo) : Nat × Nat :=
  ((T x.1).firstBit, (T x.1).bitWidth x.2.csz.toNat)

/-- The fields are where their declarations put them. -/
structure LaidOut (union : Bool) (least : Nat) (fields : List (CTypeID × FieldInfo)) (sid : CTypeID)
    (T : CTab) : Prop where
  aligned : ∀ x ∈ fields, 2 ^ x.2.align ∣ (T x.1).size.toNat
  ordered : union = false → (fields.map T.span).Pairwise fun a b => a.1 + a.2 ≤ b.1
  inside : ∀ x ∈ fields, (T.span x).1 + (T.span x).2 ≤ 8 * (T sid).size.toNat
  /-- A bitfield of no bits has no container, it only moves the next field. -/
  containers : ∀ x ∈ fields, 0 < x.2.member.width →
    (T x.1).size.toNat + (T x.1).storage x.2.csz.toNat ≤ (T sid).size.toNat
  multiple : 2 ^ ctype_align (T sid).info ∣ (T sid).size.toNat
  /-- No bit offset and no size has wrapped. -/
  spans : fields.map T.span =
    (placed union 0 (fields.map fun x => x.2.member)).map fun p => (p.1.start p.2, p.1.width)
  size : 8 * (T sid).size.toNat = total union least (fields.map fun x => x.2.member)

/-- What the members must meet for that. -/
structure Fits (union : Bool) (least : Nat) (ms : List Member) : Prop where
  size : total union least ms < 2 ^ 32
  containers : ∀ p ∈ placed union 0 ms, p.1.Stored p.2 → 0 < p.1.width →
    cutTo p.1.container (p.1.start p.2) + 2 ^ p.1.container ≤ total union least ms
  /-- The position of a bitfield on a big-endian machine is counted from the end of its container. -/
  uncrossed : CTarget.LJ_BE = true → ∀ p ∈ placed union 0 ms, p.1.Stored p.2 →
    p.1.start p.2 % 2 ^ p.1.container + p.1.width ≤ 2 ^ p.1.container

end

/-- The members a struct or union is declared with, and the table with their types. -/
structure Declarable (T : CTab) (sid : CTypeID) (union : Bool)
    (members : List (CTypeID × MemberDecl)) : Prop where
  nodup : (sid :: members.map Prod.fst).Nodup
  notNull : ∀ id ∈ members.map Prod.fst, id ≠ 0
  closed : CTab.Closed (members.map Prod.fst) T
  declared : ∀ id decl, (id, MemberDecl.field decl) ∈ members →
    decl.ctypeid ∉ members.map Prod.fst
  numbers : CTab.NumSizes (members.map Prod.fst) T
  info : (T sid).info = CTINFO CT_STRUCT (if union then CTF_UNION else 0)

namespace LayoutState

variable [CTarget] {T T₁ T₂ : CTab} {L L' : LayoutState} {sid : CTypeID} {pack : Nat} {sattr : CTInfo}
  {union : Bool} {members : List (CTypeID × MemberDecl)} {x : CTypeID × FieldInfo} {p : Member × Nat}

theorem known_of_chained {lastid : CTypeID} (declarable : Declarable T lastid union members)
    (chained : CTab.Chained T lastid members T₁) :
    Known pack sattr T₁ (members.map Prod.fst) := by
  intro id isId
  obtain ⟨⟨id, m⟩, member, rfl⟩ := List.mem_map.mp isId
  obtain ⟨T', before, after, element⟩ := chained.elements _ member
  cases element with
  | constant info =>
      have notLaid := CTab.notLaid_constant info
      refine ⟨fun f found => ?_, .inr notLaid⟩
      rw [CTab.fieldOf, if_neg (by rw [notLaid]; exact Bool.false_ne_true)] at found
      cases found
  | field made =>
      have off := declarable.declared _ _ member
      have made : CTab.Made T' _ (T₁ id) := made
      refine ⟨fun f found => ?_, .inl ?_⟩
      · exact made.sound (declarable.numbers.of_agrees before) (declarable.closed.of_agrees before)
          after off found
      · rw [made.cid]
        exact off

/-- A bitfield that does not fill its container is stored as one. -/
theorem PutAt.stored {T : CTab} (sound : x.2.Sound) (putAt : PutAt T x p)
    (room : p.1.start p.2 < 2 ^ 32) (stored : p.1.Stored p.2) :
    ∃ c bofs, 3 ≤ c ∧ c ≤ 5 ∧ x.2.csz = BitVec.ofNat 32 (2 ^ c) ∧ p.1.container = c ∧
      x.2.bsz ≤ x.2.csz ∧ p.1.width = x.2.bsz.toNat ∧ bofs.toNat = p.1.start p.2 ∧
      T x.1 = x.2.bitfield bofs := by
  obtain ⟨isMember, bofs, before, element⟩ := putAt
  rw [isMember, ← before] at room stored
  have put := sound.place_spec room
  obtain ⟨isBits, isBitfield⟩ := put.stored stored
  obtain ⟨c, low, high, power⟩ := sound.container isBits
  refine ⟨c, (x.2.place bofs).2.1, low, high, power, ?_, sound.narrow isBits, ?_, ?_, ?_⟩
  · rw [isMember]
    exact (FieldInfo.member_container power high).2
  · rw [isMember]
    change (if x.2.regular then _ else _) = _
    rw [isBits]
    rfl
  · rw [isMember, ← before]
    exact put.start
  · rw [element, isBitfield]

/-- What the table says about a bitfield that does not cross its container the wrong way. -/
theorem PutAt.bits {T : CTab} (sound : x.2.Sound) (putAt : PutAt T x p)
    (room : p.1.start p.2 < 2 ^ 32) (stored : p.1.Stored p.2)
    (uncrossed : CTarget.LJ_BE = true →
      p.1.start p.2 % 2 ^ p.1.container + p.1.width ≤ 2 ^ p.1.container) :
    3 ≤ p.1.container ∧ FieldInfo.Bits (T x.1) p.1.container (p.1.start p.2) p.1.width := by
  obtain ⟨c, bofs, low, high, power, container, narrow, width, start, element⟩ :=
    putAt.stored sound room stored
  rw [container, width, ← start] at uncrossed
  rw [container, width, ← start, element]
  exact ⟨low, FieldInfo.bitfield_spec low high power narrow uncrossed⟩

/-- All other fields are stored as regular ones. -/
theorem PutAt.regular {T : CTab} (sound : x.2.Sound) (putAt : PutAt T x p)
    (room : p.1.start p.2 < 2 ^ 32) (notStored : ¬p.1.Stored p.2) :
    ctype_isbitfield (T x.1).info = false ∧ 8 * (T x.1).size.toNat = p.1.start p.2 ∧
      x.2.csz.toNat = p.1.width := by
  obtain ⟨isMember, bofs, before, element⟩ := putAt
  rw [isMember, ← before] at room notStored ⊢
  rw [element]
  exact (sound.place_spec room).regular notStored

/-- The table gives the bits of the placement. -/
theorem PutAt.span {T : CTab} (sound : x.2.Sound) (putAt : PutAt T x p)
    (room : p.1.start p.2 < 2 ^ 32)
    (uncrossed : CTarget.LJ_BE = true → p.1.Stored p.2 →
      p.1.start p.2 % 2 ^ p.1.container + p.1.width ≤ 2 ^ p.1.container) :
    T.span x = (p.1.start p.2, p.1.width) := by
  by_cases stored : p.1.Stored p.2
  · obtain ⟨-, bits⟩ := putAt.bits sound room stored fun big => uncrossed big stored
    rw [CTab.span, bits.firstBit, CType.bitWidth, if_pos bits.isBitfield, bits.bitWidth]
  · obtain ⟨notBitfield, start, width⟩ := putAt.regular sound room stored
    rw [CTab.span, CType.firstBit, CType.bitWidth, notBitfield, if_neg Bool.false_ne_true,
      if_neg Bool.false_ne_true, start, width]

/-- Where the bytes of a field begin and end. -/
theorem PutAt.bytes {T : CTab} (sound : x.2.Sound) (putAt : PutAt T x p)
    (room : p.1.start p.2 < 2 ^ 32)
    (uncrossed : CTarget.LJ_BE = true → p.1.Stored p.2 →
      p.1.start p.2 % 2 ^ p.1.container + p.1.width ≤ 2 ^ p.1.container) :
    (p.1.Stored p.2 → 8 * (T x.1).size.toNat = cutTo p.1.container (p.1.start p.2) ∧
        8 * (T x.1).storage x.2.csz.toNat = 2 ^ p.1.container) ∧
      (¬p.1.Stored p.2 → 8 * (T x.1).size.toNat = p.1.start p.2 ∧
        8 * (T x.1).storage x.2.csz.toNat = p.1.width) := by
  refine ⟨fun stored => ?_, fun notStored => ?_⟩
  · obtain ⟨-, bits⟩ := putAt.bits sound room stored fun big => uncrossed big stored
    rw [CType.storage, if_pos bits.isBitfield]
    exact ⟨bits.offset, bits.container⟩
  · obtain ⟨notBitfield, start, width⟩ := putAt.regular sound room notStored
    have bytes := sound.bytes
    rw [CType.storage, notBitfield, if_neg Bool.false_ne_true, ← width]
    exact ⟨start, by omega⟩

/-- The bytes of a field meet its alignment. -/
theorem PutAt.aligned {T : CTab} (sound : x.2.Sound) (putAt : PutAt T x p)
    (room : p.1.start p.2 < 2 ^ 32)
    (uncrossed : CTarget.LJ_BE = true → p.1.Stored p.2 →
      p.1.start p.2 % 2 ^ p.1.container + p.1.width ≤ 2 ^ p.1.container) :
    2 ^ x.2.align ∣ (T x.1).size.toNat := by
  have isMember := putAt.1
  have align : p.1.align = x.2.align := by rw [isMember]; rfl
  have bytes := putAt.bytes sound room uncrossed
  suffices whole : 2 ^ (3 + x.2.align) ∣ 8 * (T x.1).size.toNat by
    rw [Nat.pow_add] at whole
    exact Nat.dvd_of_mul_dvd_mul_left (by decide) whole
  by_cases stored : p.1.Stored p.2
  · obtain ⟨low, -⟩ := putAt.bits sound room stored fun big => uncrossed big stored
    rw [(bytes.1 stored).1, ← align]
    refine Member.dvd_cut_start _ (fun notApart isPacked => ?_) low (fun _ notApart => ?_) stored.1
    · rw [isMember] at notApart isPacked ⊢
      refine sound.packed ?_ isPacked
      change (x.2.bsz = 0 || x.2.attr &&& CTFP_ALIGNED ≠ 0 : Bool) = false at notApart
      simp only [Bool.or_eq_false_iff, decide_eq_false_iff_not, not_not] at notApart
      exact notApart.2
    · rw [isMember] at notApart ⊢
      have isBits := stored.1
      rw [isMember] at isBits
      change (!x.2.regular) = true at isBits
      change (x.2.bsz = 0 || x.2.attr &&& CTFP_ALIGNED ≠ 0 : Bool) = false at notApart
      rw [Bool.or_eq_false_iff, decide_eq_false_iff_not] at notApart
      change 0 < if x.2.regular then x.2.csz.toNat else x.2.bsz.toNat
      rw [Bool.not_eq_true'] at isBits
      rw [isBits, if_neg Bool.false_ne_true]
      have nonzero : x.2.bsz.toNat ≠ 0 := fun zero => notApart.1 (BitVec.eq_of_toNat_eq zero)
      exact Nat.pos_of_ne_zero nonzero
  · rw [(bytes.2 stored).1, ← align]
    cases isBits : p.1.bits with
    | false => exact p.1.dvd_start isBits
    | true =>
        by_contra notAligned
        exact stored ⟨isBits, fun whole => notAligned whole.2⟩

theorem Known.sound {S : List CTypeID} (known : Known pack sattr T₁ S)
    (member : x ∈ CTab.fields pack sattr T₁ S) : x.2.Sound ∧ x.1 ∈ S := by
  obtain ⟨id, inS, found⟩ := List.mem_filterMap.mp member
  obtain ⟨f, isField, rfl⟩ := Option.map_eq_some_iff.mp found
  exact ⟨(known id inS).1 f isField, inS⟩

omit [CTarget] in
/-- The size of an aggregate is far from the end of the size type, right or wrong. -/
theorem complete_size_lt (L : LayoutState) (sid : CTypeID) :
    8 * (L.complete sid sid).size.toNat < 2 ^ 32 := by
  have size {y : CTSize} (isSize : (L.complete sid sid).size = y >>> 3) :
      8 * (L.complete sid sid).size.toNat < 2 ^ 32 := by
    have below := y.isLt
    rw [isSize, toNat_shr]
    omega
  rw [complete] at size ⊢
  dsimp only at size ⊢
  rw [CTab.set, update_self] at size ⊢
  exact size rfl

theorem size_lt (laid : CTab.cp_struct_layout pack T₁ sid sattr = some (.ok T₂)) :
    8 * (T₂ sid).size.toNat < 2 ^ 32 := by
  rw [CTab.cp_struct_layout] at laid
  split at laid
  · cases laid
  · cases laid
  · next L ran =>
      obtain rfl := Except.ok.inj (Option.some.inj laid)
      exact L.complete_size_lt sid

/-- What an accepted layout has done when no offset has wrapped. -/
structure Accepted (pack : Nat) (sattr : CTInfo) (T₁ : CTab) (sid : CTypeID) (union : Bool)
    (ids : List CTypeID) (T₂ : CTab) : Prop where
  align : ctype_align (T₂ sid).info =
    maxAlign (ctype_align sattr) ((CTab.fields pack sattr T₁ ids).map fun x => x.2.member)
  size : 8 * (T₂ sid).size.toNat =
    total union (ctype_align sattr) ((CTab.fields pack sattr T₁ ids).map fun x => x.2.member)
  put : List.Forall₂ (PutAt T₂) (CTab.fields pack sattr T₁ ids)
    (placed union 0 ((CTab.fields pack sattr T₁ ids).map fun x => x.2.member))

theorem PutAt.congr {T T' : CTab} (same : T' x.1 = T x.1) (putAt : PutAt T x p) : PutAt T' x p := by
  obtain ⟨isMember, bofs, before, element⟩ := putAt
  exact ⟨isMember, bofs, before, same.trans element⟩

theorem Lands.congr {T T' : CTab} (same : T' x.1 = T x.1) (lands : Lands T x p) : Lands T' x p := by
  obtain ⟨isMember, bofs, before, element⟩ := lands
  exact ⟨isMember, bofs, before, same.trans element⟩

/-- What an accepted layout has done. -/
structure Ran (pack : Nat) (sattr : CTInfo) (T₁ : CTab) (sid : CTypeID) (union : Bool)
    (ids : List CTypeID) (T₂ : CTab) : Prop where
  sound : ∀ y ∈ CTab.fields pack sattr T₁ ids, y.2.Sound ∧ y.1 ∈ ids
  align : ctype_align (T₂ sid).info =
    maxAlign (ctype_align sattr) ((CTab.fields pack sattr T₁ ids).map fun x => x.2.member)
  size : total union (ctype_align sattr)
      ((CTab.fields pack sattr T₁ ids).map fun x => x.2.member) < 2 ^ 32 →
    8 * (T₂ sid).size.toNat =
      total union (ctype_align sattr) ((CTab.fields pack sattr T₁ ids).map fun x => x.2.member)
  lands : List.Forall₂ (Lands T₂) (CTab.fields pack sattr T₁ ids)
    (placed union 0 ((CTab.fields pack sattr T₁ ids).map fun x => x.2.member))

theorem ran_of_laid (declarable : Declarable T sid union members)
    (declared : CTab.declMembers members sid false T = some (.ok T₁))
    (laid : CTab.cp_struct_layout pack T₁ sid sattr = some (.ok T₂)) :
    Ran pack sattr T₁ sid union (members.map Prod.fst) T₂ := by
  have chained := CTab.declMembers_spec declared declarable.nodup declarable.notNull
  have known : Known pack sattr T₁ _ := known_of_chained declarable chained
  have info := chained.last.1.trans declarable.info
  have isUnion : ((T₁ sid).info &&& CTF_UNION ≠ 0 : Bool) = union := by
    rw [info]
    cases union <;> decide
  have noAlign : (T₁ sid).info &&& CTF_ALIGN = 0 := by
    rw [info]
    cases union <;> decide
  rw [CTab.cp_struct_layout] at laid
  split at laid
  · cases laid
  · cases laid
  · next L ran =>
      obtain rfl := Except.ok.inj (Option.some.inj laid)
      have looped := layoutLoop_spec 0 (declarable.closed.of_agrees chained.agrees) known
        (.refl _ _) chained.chain (fun id member => ⟨member, rfl⟩) isUnion (fun _ => rfl) rfl ran
      have small : L.maxalign ≤ 15 := by
        rw [looped.maxalign]
        refine maxAlign_le (align_le sattr) fun m isMember => ?_
        obtain ⟨x, member, rfl⟩ := List.mem_map.mp isMember
        exact (known.sound member).1.align
      have unionAfter : (L.sinfo &&& CTF_UNION ≠ 0 : Bool) = union := by
        rw [looped.flags.union]
        exact isUnion
      obtain ⟨align, -, size, others⟩ := complete_spec sid unionAfter small
        (looped.flags.align.trans noAlign)
      refine ⟨fun y member => known.sound member, align.trans looped.maxalign, fun room => ?_, ?_⟩
      · have isTotal : padTo (3 + L.maxalign) (L.stop union).toNat = total union (ctype_align sattr)
            ((CTab.fields pack sattr T₁ (members.map Prod.fst)).map fun x => x.2.member) := by
          have stop := looped.stop.trans (Nat.mod_eq_of_lt (extent_le_total.trans_lt room))
          rw [stop, looped.maxalign]
          rfl
        rw [← isTotal]
        exact size (isTotal ▸ room)
      · refine (forall₂_mem looped.put).imp fun x p ⟨⟨member, _⟩, lands⟩ => lands.congr (others _ ?_)
        rintro isStruct
        exact (List.nodup_cons.mp declarable.nodup).1 (isStruct ▸ (known.sound member).2)

omit [CTarget] in
/-- The place of a member, with the room behind it. -/
theorem start_lt {fields : List (CTypeID × FieldInfo)} {least : Nat}
    (room : total union least (fields.map fun x => x.2.member) < 2 ^ 32)
    (member : p ∈ placed union 0 (fields.map fun x => x.2.member)) : p.1.start p.2 < 2 ^ 32 :=
  ((Nat.le_add_right _ _).trans (placed_inside least member)).trans_lt room

theorem accepted_of_room (declarable : Declarable T sid union members)
    (declared : CTab.declMembers members sid false T = some (.ok T₁))
    (laid : CTab.cp_struct_layout pack T₁ sid sattr = some (.ok T₂))
    (room : total union (ctype_align sattr)
      ((CTab.fields pack sattr T₁ (members.map Prod.fst)).map fun x => x.2.member) < 2 ^ 32) :
    Accepted pack sattr T₁ sid union (members.map Prod.fst) T₂ := by
  have ran := ran_of_laid declarable declared laid
  refine ⟨ran.align, ran.size room, (forall₂_mem ran.lands).imp ?_⟩
  rintro x p ⟨⟨-, member⟩, isMember, bofs, before, element⟩
  refine ⟨isMember, bofs, ?_, element⟩
  rw [before]
  exact Nat.mod_eq_of_lt ((p.1.le_start p.2).trans_lt (start_lt room member))

section

variable {fields : List (CTypeID × FieldInfo)} {least : Nat}

/-- Fields that fit are laid out as declared. -/
theorem laidOut_of_fits (sound : ∀ x ∈ fields, x.2.Sound)
    (align : ctype_align (T₂ sid).info = maxAlign least (fields.map fun x => x.2.member))
    (size : 8 * (T₂ sid).size.toNat = total union least (fields.map fun x => x.2.member))
    (put : List.Forall₂ (PutAt T₂) fields (placed union 0 (fields.map fun x => x.2.member)))
    (fits : Fits union least (fields.map fun x => x.2.member)) :
    LaidOut union least fields sid T₂ := by
  have spans : List.Forall₂ (fun x (p : Member × Nat) => T₂.span x = (p.1.start p.2, p.1.width))
      fields (placed union 0 (fields.map fun x => x.2.member)) :=
    (forall₂_mem put).imp fun x p ⟨⟨isField, member⟩, putAt⟩ =>
      putAt.span (sound x isField) (start_lt fits.size member) fun big => fits.uncrossed big p member
  have same := forall₂_map_eq spans
  have partner := forall₂_partner (forall₂_mem put)
  refine ⟨fun x isField => ?_, fun isStruct => ?_, fun x isField => ?_, fun x isField notEmpty => ?_,
    ?_, same, size⟩
  · obtain ⟨p, member, -, putAt⟩ := partner x isField
    exact putAt.aligned (sound x isField) (start_lt fits.size member) fun big =>
      fits.uncrossed big p member
  · rw [same, List.pairwise_map, isStruct]
    exact placed_pairwise
  · obtain ⟨p, member, -, putAt⟩ := partner x isField
    have isSpan := putAt.span (sound x isField) (start_lt fits.size member) fun big =>
      fits.uncrossed big p member
    rw [isSpan, size]
    exact placed_inside _ member
  · obtain ⟨p, member, -, putAt⟩ := partner x isField
    obtain ⟨stored, regular⟩ := putAt.bytes (sound x isField) (start_lt fits.size member) fun big =>
      fits.uncrossed big p member
    suffices ends : 8 * (T₂ x.1).size.toNat + 8 * (T₂ x.1).storage x.2.csz.toNat ≤
        8 * (T₂ sid).size.toNat by omega
    rw [size]
    by_cases isStored : p.1.Stored p.2
    · rw [(stored isStored).1, (stored isStored).2]
      refine fits.containers p member isStored ?_
      rw [putAt.1]
      exact notEmpty
    · rw [(regular isStored).1, (regular isStored).2]
      exact placed_inside _ member
  · have whole : 2 ^ (3 + ctype_align (T₂ sid).info) ∣ 8 * (T₂ sid).size.toNat := by
      rw [align, size]
      exact dvd_padTo _ _
    rw [Nat.pow_add] at whole
    exact Nat.dvd_of_mul_dvd_mul_left (by decide) whole

/-- Fields that are laid out as declared fit. -/
theorem fits_of_laidOut (sound : ∀ x ∈ fields, x.2.Sound)
    (room : total union least (fields.map fun x => x.2.member) < 2 ^ 32)
    (put : List.Forall₂ (PutAt T₂) fields (placed union 0 (fields.map fun x => x.2.member)))
    (laidOut : LaidOut union least fields sid T₂) :
    Fits union least (fields.map fun x => x.2.member) := by
  have spans : List.Forall₂ (fun x (p : Member × Nat) => T₂.span x = (p.1.start p.2, p.1.width))
      fields (placed union 0 (fields.map fun x => x.2.member)) := by
    have same : List.Forall₂ Eq _ _ := List.forall₂_eq_eq_eq ▸ laidOut.spans
    rwa [List.forall₂_map_left_iff, List.forall₂_map_right_iff] at same
  have both := forall₂_mem (List.Forall₂.mp (fun _ _ => And.intro) put spans)
  have partner := forall₂_partner (List.Forall₂.flip (R := flip _) both)
  have uncrossed (p : Member × Nat)
      (member : p ∈ placed union 0 (fields.map fun x => x.2.member)) (big : CTarget.LJ_BE = true)
      (stored : p.1.Stored p.2) :
      p.1.start p.2 % 2 ^ p.1.container + p.1.width ≤ 2 ^ p.1.container := by
    obtain ⟨x, -, ⟨isField, -⟩, putAt, isSpan⟩ := partner p member
    obtain ⟨c, bofs, low, high, power, container, narrow, width, start, element⟩ :=
      putAt.stored (sound x isField) (start_lt room member) stored
    by_contra crosses
    rw [container, width, ← start] at crosses
    apply FieldInfo.bitfield_crossed high power narrow big (Nat.not_le.mp crosses)
    rw [← element, ← width]
    exact congrArg Prod.snd isSpan
  refine ⟨room, fun p member isStored notEmpty => ?_, fun big p member => uncrossed p member big⟩
  obtain ⟨x, -, ⟨isField, -⟩, putAt, -⟩ := partner p member
  have stored := (putAt.bytes (sound x isField) (start_lt room member) fun big =>
    uncrossed p member big).1 isStored
  have ends := laidOut.containers x isField (by rw [← putAt.1]; exact notEmpty)
  rw [← stored.1, ← stored.2, ← laidOut.size]
  omega

end

end LayoutState

/-- An accepted aggregate is laid out as it is declared just when its fields fit. -/
theorem struct_layout_iff [CTarget] {T T₁ T₂ : CTab} {sid : CTypeID} {pack : Nat} {sattr : CTInfo}
    {union : Bool} {members : List (CTypeID × MemberDecl)}
    (declarable : Declarable T sid union members)
    (declared : CTab.declMembers members sid false T = some (.ok T₁))
    (laid : CTab.cp_struct_layout pack T₁ sid sattr = some (.ok T₂)) :
    LaidOut union (ctype_align sattr) (CTab.fields pack sattr T₁ (members.map Prod.fst)) sid T₂ ↔
      Fits union (ctype_align sattr)
        ((CTab.fields pack sattr T₁ (members.map Prod.fst)).map fun x => x.2.member) := by
  have chained := CTab.declMembers_spec declared declarable.nodup declarable.notNull
  have known : LayoutState.Known pack sattr T₁ _ := LayoutState.known_of_chained declarable chained
  have sound := fun x member => (known.sound (x := x) member).1
  have accepted := LayoutState.accepted_of_room declarable declared laid
  constructor
  · intro laidOut
    have room : total union (ctype_align sattr)
        ((CTab.fields pack sattr T₁ (members.map Prod.fst)).map fun x => x.2.member) < 2 ^ 32 := by
      rw [← laidOut.size]
      exact LayoutState.size_lt laid
    exact LayoutState.fits_of_laidOut sound room (accepted room).put laidOut
  · intro fits
    obtain ⟨align, size, put⟩ := accepted fits.size
    exact LayoutState.laidOut_of_fits sound align size put fits

/-- `int`, `char`, an array of `char`s and an incomplete struct. -/
def sampleTypes (size : CTSize) : List CType :=
  [CTab.badType, ⟨CTINFO CT_NUM (CTALIGN 2), 4, 0⟩, ⟨CTINFO CT_NUM (CTALIGN 0), 1, 0⟩,
    ⟨CTINFO CT_ARRAY (CTALIGN 0 + 2), size, 0⟩, ⟨CTINFO CT_STRUCT 0, CTSIZE_INVALID, 0⟩]

/-- A named field without attributes. -/
def sampleField (ctypeid : CTypeID) (bits : CTSize) : MemberDecl :=
  .field ⟨0, ctypeid, bits, true, by decide⟩

/-- Members of these types, with elements behind those of the types. -/
theorem declarable_of_sample (size : CTSize) {members : List (CTypeID × MemberDecl)}
    (nodup : (4 :: members.map Prod.fst).Nodup) (new : ∀ id ∈ members.map Prod.fst, 4 < id)
    (declared : ∀ id decl, (id, MemberDecl.field decl) ∈ members → decl.ctypeid ≤ 4) :
    Declarable (CTab.ofList (sampleTypes size)) 4 false members := by
  have closed : ∀ ct ∈ CTab.badType :: sampleTypes size, ctype_cid ct.info ≤ 4 := by
    rw [sampleTypes]
    simp only [List.forall_mem_cons]
    exact ⟨by decide, by decide, by decide, by decide, by decide, by decide, List.forall_mem_nil _⟩
  have numbers : ∀ ct ∈ CTab.badType :: sampleTypes size, ctype_isinteger_or_bool ct.info = true →
      ∃ k, k ≤ 5 ∧ ct.size = BitVec.ofNat 32 (2 ^ k) := by
    rw [sampleTypes]
    simp only [List.forall_mem_cons]
    refine ⟨?_, ?_, fun _ => ⟨2, by decide, rfl⟩, fun _ => ⟨0, by decide, rfl⟩, ?_, ?_,
      List.forall_mem_nil _⟩
    all_goals exact fun isNum => absurd isNum (by decide)
  have notNew {id : CTypeID} (old : id ≤ 4) : id ∉ members.map Prod.fst := fun member =>
    absurd (BitVec.lt_def.mp (new id member)) (Nat.not_lt.mpr (BitVec.le_def.mp old))
  have struct : CTab.ofList (sampleTypes size) 4 = ⟨CTINFO CT_STRUCT 0, CTSIZE_INVALID, 0⟩ := rfl
  refine ⟨nodup, ?_, fun id _ _ => notNew (closed _ (CTab.ofList_mem (sampleTypes size) id)),
    fun id decl member => notNew (declared id decl member),
    fun id _ => numbers _ (CTab.ofList_mem (sampleTypes size) id), congrArg CType.info struct⟩
  rintro id member rfl
  exact absurd (new 0 member) (by decide)

theorem sample_declarable (size bits bits' : CTSize) :
    Declarable (CTab.ofList (sampleTypes size)) 4 false
      [(5, sampleField 1 bits), (6, sampleField 3 bits')] := by
  apply declarable_of_sample size
  · exact (by decide : ([4, 5, 6] : List CTypeID).Nodup)
  · have new : ∀ id ∈ ([5, 6] : List CTypeID), 4 < id := by
      rw [List.forall_mem_cons, List.forall_mem_singleton]
      exact ⟨by decide, by decide⟩
    exact new
  · intro id decl member
    rcases List.mem_cons.mp member with same | member
    · obtain rfl := MemberDecl.field.inj (congrArg Prod.snd same)
      exact (by decide : (1 : CTypeID) ≤ 4)
    · obtain rfl := MemberDecl.field.inj (congrArg Prod.snd (List.mem_singleton.mp member))
      exact (by decide : (3 : CTypeID) ≤ 4)

/-- `struct { int i; char a[0x1ffffffb]; }` is accepted with a size of no bytes. -/
theorem wrapped_struct : ∃ (_ : CTarget) (T₁ T₂ : CTab),
    Declarable (CTab.ofList (sampleTypes 0x1ffffffb)) 4 false
      [(5, sampleField 1 CTSIZE_INVALID), (6, sampleField 3 CTSIZE_INVALID)] ∧
    CTab.declMembers [(5, sampleField 1 CTSIZE_INVALID), (6, sampleField 3 CTSIZE_INVALID)] 4 false
      (CTab.ofList (sampleTypes 0x1ffffffb)) = some (.ok T₁) ∧
    CTab.cp_struct_layout 255 T₁ 4 0 = some (.ok T₂) ∧
    (T₂ 4).size = 0 ∧ ¬LaidOut false 0 (CTab.fields 255 0 T₁ [5, 6]) 4 T₂ := by
  refine ⟨⟨false, false⟩, _, _, sample_declarable _ _ _, rfl, rfl, by decide +kernel, ?_⟩
  rintro ⟨-, -, -, -, -, -, size⟩
  revert size
  decide +kernel

/-- `struct { int b : 5; char a[3]; }`. -/
theorem bits_laidOut : ∃ (_ : CTarget) (T₁ T₂ : CTab),
    CTab.declMembers [(5, sampleField 1 5), (6, sampleField 3 CTSIZE_INVALID)] 4 false
      (CTab.ofList (sampleTypes 3)) = some (.ok T₁) ∧
    CTab.cp_struct_layout 255 T₁ 4 0 = some (.ok T₂) ∧
    LaidOut false 0 (CTab.fields 255 0 T₁ [5, 6]) 4 T₂ ∧ (T₂ 4).size = 4 := by
  refine ⟨⟨false, false⟩, _, _, rfl, rfl, ?_, by decide +kernel⟩
  apply (@struct_layout_iff ⟨false, false⟩ _ _ _ 4 255 0 false _
    (sample_declarable 3 5 CTSIZE_INVALID) rfl rfl).mpr
  refine @Fits.mk ⟨false, false⟩ _ _ _ ?_ ?_ fun big => nomatch big
  · decide +kernel
  · decide +kernel
end TvmJit
