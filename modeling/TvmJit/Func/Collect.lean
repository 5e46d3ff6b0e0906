import TvmJit.Func.Find

/-! Stores, and the collector's work on upvalues. -/

namespace TvmJit

open Foundation Function

namespace UvState

variable {Thread TValue : Type} {S S' S'' : UvState Thread TValue} {L : Thread} {u w : UvRef}
  {lists : Thread → List UvRef} {ring before after : List UvRef} {n : Nat}

/-! ## Sweeping -/

/-- Upvalues that are not dead are still there, and closed ones are otherwise freed. -/
structure Swept (S S' : UvState Thread TValue) : Prop where
  opened : ∀ L n u, S.IsOpen L n u → S.isdead (S.get u) = false → S'.IsOpen L n u
  alive : ∀ u p, S.uv u = some p → S.isdead p = false → ∃ p', S'.uv u = some p' ∧ S'.isdead p' = false
  closed : ∀ u p, S.uv u = some p → p.closed = true →
    (S'.uv u = none ∧ S.isdead p = true) ∨
      ∃ p', S'.uv u = some p' ∧ p'.closed = true ∧ p'.data = p.data
  free : ∀ u, S.uv u = none → S'.uv u = none
  fn : S'.fn = S.fn
  stack : S'.stack = S.stack

theorem Swept.refl (S : UvState Thread TValue) : Swept S S :=
  ⟨fun _ _ _ isOpen _ => isOpen, fun _ p here alive => ⟨p, here, alive⟩,
    fun _ p here closed => .inr ⟨p, here, closed, rfl⟩, fun _ => id, rfl, rfl⟩

theorem Swept.trans (first : Swept S S') (second : Swept S' S'') : Swept S S'' where
  opened L n u isOpen alive := by
    obtain ⟨p, here, alive'⟩ := first.alive u _ isOpen.get.1 alive
    refine second.opened L n u (first.opened L n u isOpen alive) ?_
    rw [get_eq here, alive']
  alive u p here alive := by
    obtain ⟨p', there, alive'⟩ := first.alive u p here alive
    exact second.alive u p' there alive'
  closed u p here closed := by
    rcases first.closed u p here closed with ⟨gone, dead⟩ | ⟨p', there, closed', data⟩
    · exact .inl ⟨second.free u gone, dead⟩
    · rcases second.closed u p' there closed' with ⟨gone, dead⟩ | ⟨p'', there', closed'', data'⟩
      · refine .inl ⟨gone, ?_⟩
        by_contra alive
        obtain ⟨q, same, alive'⟩ := first.alive u p here (Bool.eq_false_of_not_eq_true alive)
        obtain rfl := Option.some.inj (same.symm.trans there)
        rw [dead] at alive'
        cases alive'
      · exact .inr ⟨p'', there', closed'', data'.trans data⟩
  free u none := second.free u (first.free u none)
  fn := second.fn.trans first.fn
  stack := second.stack.trans first.stack

theorem isdead_eq (isWhite : whites S.currentwhite = 1 ∨ whites S.currentwhite = 2)
    {p : GCupval Thread TValue} (swept : (p.marked ^^^ LJ_GC_WHITES) &&& S.otherwhite = 0) :
    S.isdead p = true :=
  isdead_iff.mpr (dead_of_swept isWhite swept)

/-- An upvalue that is swept and not freed. -/
theorem Sound.makewhite (sound : Sound S lists ring) {p : GCupval Thread TValue}
    (here : S.uv u = some p) :
    Sound (S.set u { p with marked := S.makewhite p.marked }) lists ring ∧
      Swept S (S.set u { p with marked := S.makewhite p.marked }) := by
  have alive := alive_makewhite sound.white p.marked
  have notDead : S.isdead { p with marked := S.makewhite p.marked } = false :=
    (alive_iff alive.oneWhite).mpr alive
  have recorded : Recorded S.isdead p { p with marked := S.makewhite p.marked } :=
    ⟨rfl, fun _ => ⟨rfl, rfl, rfl⟩, ⟨(sound.formed u p here).1, (sound.formed u p here).2⟩,
      alive.oneWhite, fun _ => notDead⟩
  obtain ⟨sound', still⟩ := sound.set here recorded
  refine ⟨sound', fun L n w isOpen _ => (still L n w).mpr isOpen, fun w q there alive => ?_,
    fun w q there closed => .inr ?_, fun w none => ?_, rfl, rfl⟩
  · rw [uv_set]
    split
    · exact ⟨_, rfl, notDead⟩
    · exact ⟨q, there, alive⟩
  · rw [uv_set]
    split
    · rename_i same
      rw [same, here] at there
      cases there
      exact ⟨_, rfl, closed, rfl⟩
    · exact ⟨q, there, closed, rfl⟩
  · rw [uv_set, if_neg, none]
    rintro rfl
    rw [none] at here
    cases here

section

variable [DecidableEq Thread]

omit [DecidableEq Thread] in
theorem unlinkuv_root (r : UvRef) (u : UvRef) :
    ({ S with root := r } : UvState Thread TValue).unlinkuv u = { S.unlinkuv u with root := r } := by
  have prev (link : Link UvRef) (ref : UvRef) :
      ({ S with root := r } : UvState Thread TValue).setPrev link ref =
        { S.setPrev link ref with root := r } := by
    cases link <;> rfl
  have next (T : UvState Thread TValue) (link : Link UvRef) (ref : UvRef) :
      ({ T with root := r } : UvState Thread TValue).setNext link ref =
        { T.setNext link ref with root := r } := by
    cases link <;> rfl
  change (({ S with root := r } : UvState Thread TValue).setPrev _ _).setNext _ _ = _
  rw [prev]
  exact next _ _ _

/-- A dead open upvalue is freed. -/
theorem swept_replace (sound : Sound S lists ring) (split : lists L = before ++ u :: after)
    (dead : S.isdead (S.get u) = true) (r : UvRef) :
    Swept S (S.replace L (lastLink none before) u none r) := by
  have relinked := (detach_spec sound split).1
  obtain ⟨n, uIsOpen⟩ := (sound.listed L u).mp (by simp [split])
  have other {w : UvRef} {p : GCupval Thread TValue} (notU : w ≠ u) (here : S.uv w = some p) :
      ∃ p', (S.replace L (lastLink none before) u none r).uv w = some p' ∧
        GCupval.core p = GCupval.core p' := by
    rw [uv_replace, if_neg notU]
    exact relinked.symm.uv_some here
  refine ⟨fun L' m w isOpen alive => ?_, fun w p here alive => ?_, fun w p here closed => .inr ?_,
    fun w none => ?_, relinked.fn, relinked.stack⟩
  · refine (isOpen_replace (q := none) sound split dead).mpr ⟨?_, isOpen⟩
    rintro rfl
    rw [dead] at alive
    cases alive
  · have notU : w ≠ u := by
      rintro rfl
      rw [get_eq here, alive] at dead
      cases dead
    obtain ⟨p', there, same⟩ := other notU here
    refine ⟨p', there, ?_⟩
    rw [isdead_replace relinked, isdead, ← core_eq_marked same]
    exact alive
  · have notU : w ≠ u := by
      rintro rfl
      have notClosed := uIsOpen.get.2.1
      rw [get_eq here, closed] at notClosed
      cases notClosed
    obtain ⟨p', there, same⟩ := other notU here
    obtain rfl := core_eq_of_closed same closed
    exact ⟨p, there, closed, rfl⟩
  · rw [uv_replace]
    split
    · rfl
    · exact relinked.uv_none.mpr none

omit [DecidableEq Thread] in
theorem freeuv_open {r : UvRef} (notClosed : (S.get u).closed = false) :
    ({ S with root := r } : UvState Thread TValue).lj_func_freeuv u =
      { S.unlinkuv u with uv := update (S.unlinkuv u).uv u none, root := r } := by
  have same : (({ S with root := r } : UvState Thread TValue).get u).closed = false := notClosed
  rw [lj_func_freeuv, same, unlinkuv_root]
  rfl

/-- Freeing in the loop takes the upvalue out, whatever becomes of the anchor. -/
theorem freed_eq (sound : Sound S lists ring) (split : lists L = before ++ u :: after) :
    ∃ r, (if u = (S.setLink L (lastLink none before) (S.get u).nextgc).root then
        { S.setLink L (lastLink none before) (S.get u).nextgc with root := (S.get u).nextgc }
      else S.setLink L (lastLink none before) (S.get u).nextgc).lj_func_freeuv u =
      S.replace L (lastLink none before) u none r := by
  obtain ⟨n, isOpen⟩ := (sound.listed L u).mp (by simp [split])
  have onOpen : Relinked.OnOpen S (lastLink none before) :=
    onOpen_lastLink fun w member => ⟨L, (sound.listed L w).mp (by simp [split, member])⟩
  have relinked : Relinked S (S.setLink L (lastLink none before) (S.get u).nextgc) := .setLink onOpen _
  have notClosed := (relinked.isOpen.mpr isOpen).get.2.1
  split
  · exact ⟨(S.get u).nextgc, freeuv_open (r := (S.get u).nextgc) notClosed⟩
  · exact ⟨_, freeuv_open notClosed⟩

theorem sweepLoop_spec {steps : Nat} (sound : Sound S lists ring) (split : lists L = before ++ after)
    (enough : after.length < steps) :
    ∃ S' lists' ring', sweepLoop L steps (lastLink none before) S = some S' ∧
      Sound S' lists' ring' ∧ Swept S S' := by
  induction steps generalizing S lists ring before after with
  | zero => cases enough
  | succ steps induction =>
      have walk := sound.walk L
      rw [split] at walk
      have behind := walk.behind
      cases after with
      | nil =>
          have last : S.links L (lastLink none before) = 0 := behind
          exact ⟨S, lists, ring, by simp [sweepLoop, last], sound, .refl S⟩
      | cons u after =>
          have here : S.links L (lastLink none before) = u := behind.1
          obtain ⟨n, isOpen⟩ := (sound.listed L u).mp (by simp [split])
          rw [sweepLoop, here]
          dsimp only
          rw [if_neg behind.2.1]
          have shorter : after.length < steps := Nat.lt_of_succ_lt_succ enough
          by_cases swept : ((S.get u).marked ^^^ LJ_GC_WHITES) &&& S.otherwhite = 0
          · have dead := isdead_eq sound.white swept
            obtain ⟨r, freed⟩ := freed_eq sound split
            obtain ⟨ring', sound'⟩ := sound.replace (q := none) (r := r) split dead
            have kept := swept_replace sound split dead r
            rw [if_neg (not_not_intro swept), freed]
            obtain ⟨S', lists', ring'', result, sound'', kept'⟩ :=
              induction sound' (update_self ..) shorter
            exact ⟨S', lists', ring'', result, sound'', kept.trans kept'⟩
          · rw [if_pos swept]
            obtain ⟨sound', kept⟩ := sound.makewhite isOpen.get.1
            have moved : lists L = (before ++ [u]) ++ after := by simp [split]
            obtain ⟨S', lists', ring', result, sound'', kept'⟩ := induction sound' moved shorter
            rw [lastLink_append] at result
            exact ⟨S', lists', ring', result, sound'', kept.trans kept'⟩

theorem sweepuv_spec (sound : Sound S lists ring) (L : Thread) :
    ∃ S' lists' ring', S.gc_sweepuv L = some S' ∧ Sound S' lists' ring' ∧ Swept S S' :=
  sweepLoop_spec sound (show lists L = [] ++ lists L from rfl) (Nat.lt_succ_of_le (sound.bounded L))

end

theorem freeuv_closed (closed : (S.get u).closed = true) :
    S.lj_func_freeuv u = { S with uv := update S.uv u none, root := S.root } := by
  rw [lj_func_freeuv, closed]
  rfl

/-- A closed upvalue is swept. -/
theorem sweepclosed_spec (sound : Sound S lists ring) {p : GCupval Thread TValue}
    (here : S.uv u = some p) (closed : p.closed = true) :
    Sound (S.gc_sweepclosed u) lists ring ∧ Swept S (S.gc_sweepclosed u) := by
  rw [gc_sweepclosed, get_eq here]
  by_cases swept : (p.marked ^^^ LJ_GC_WHITES) &&& S.otherwhite = 0
  · have dead := isdead_eq sound.white swept
    rw [if_neg (not_not_intro swept)]
    have freed : ∃ r, (if u = S.root then { S with root := p.nextgc } else S).lj_func_freeuv u =
        { S with uv := update S.uv u none, root := r } := by
      split <;> exact ⟨_, freeuv_closed ((congrArg GCupval.closed (get_eq here)).trans closed)⟩
    obtain ⟨r, freed⟩ := freed
    rw [freed]
    have uv (w : UvRef) : ({ S with uv := update S.uv u none, root := r } : UvState Thread TValue).uv w =
        if w = u then none else S.uv w := update_apply ..
    have kept : Kept S { S with uv := update S.uv u none, root := r } := by
      refine ⟨?_, ?_, fun w => ?_, rfl, rfl, rfl, Nat.le_refl _⟩
      · rw [uv, sound.null, ite_self]
      · rw [uv, sound.head, ite_self]
      · rw [opens, uv]
        split
        · rename_i same
          rw [same, opens, here, Option.bind_some, closed]
          rfl
        · rfl
    refine ⟨sound.kept kept (fun w q there => ?_) sound.white (fun w q there => ?_)
      fun f fn there w member => ?_, fun L n w isOpen _ => kept.isOpen.mpr isOpen,
      fun w q there alive => ?_, fun w q there _ => ?_, fun w none => ?_, rfl, rfl⟩
    · rw [uv] at there
      split at there
      · cases there
      · exact sound.formed w q there
    · rw [uv] at there
      split at there
      · cases there
      · exact sound.oneWhite w q there
    · obtain ⟨q, isHeld, alive⟩ := sound.held f fn there w member
      refine ⟨q, ?_, alive⟩
      rw [uv, if_neg, isHeld]
      rintro rfl
      obtain rfl := Option.some.inj (here.symm.trans isHeld)
      rw [dead] at alive
      cases alive
    · refine ⟨q, ?_, alive⟩
      rw [uv, if_neg, there]
      rintro rfl
      obtain rfl := Option.some.inj (here.symm.trans there)
      rw [dead] at alive
      cases alive
    · rw [uv]
      split
      · rename_i same
        rw [same] at there
        obtain rfl := Option.some.inj (here.symm.trans there)
        exact .inl ⟨rfl, dead⟩
      · exact .inr ⟨q, there, ‹_›, rfl⟩
    · rw [uv, none, ite_self]
  · rw [if_pos swept]
    exact sound.makewhite here

/-! ## Colours -/

/-- What the collector leaves behind: an upvalue has at most one white bit, and those of
closures that can still be reached are not dead. -/
structure Recoloured (S : UvState Thread TValue) (marked : UvRef → BitVec 8)
    (currentwhite : BitVec 8) (reached : FnRef → Bool) : Prop where
  white : whites currentwhite = 1 ∨ whites currentwhite = 2
  oneWhite : ∀ u, whites (marked u) ≠ 3
  held : ∀ f fn, reached f → S.fn f = some fn → ∀ u ∈ fn.uvptr, Alive currentwhite (marked u)

section

variable {marked : UvRef → BitVec 8} {currentwhite : BitVec 8} {marking : Bool} {reached : FnRef → Bool}

theorem recolour_some {p : GCupval Thread TValue}
    (there : (S.recolour marked currentwhite marking reached).uv u = some p) :
    ∃ q, S.uv u = some q ∧ p = { q with marked := marked u } := by
  obtain ⟨q, here, same⟩ := Option.map_eq_some_iff.mp there
  exact ⟨q, here, same.symm⟩

theorem Sound.recolour (sound : Sound S lists ring)
    (recoloured : Recoloured S marked currentwhite reached) (marking : Bool) :
    Sound (S.recolour marked currentwhite marking reached) lists ring ∧
      ∀ L n u, (S.recolour marked currentwhite marking reached).IsOpen L n u ↔ S.IsOpen L n u := by
  have uv (w : UvRef) : (S.recolour marked currentwhite marking reached).uv w =
      (S.uv w).map fun p => { p with marked := marked w } := rfl
  have kept : Kept S (S.recolour marked currentwhite marking reached) := by
    refine ⟨?_, ?_, fun w => ?_, rfl, rfl, rfl, Nat.le_refl _⟩
    · rw [uv, sound.null]
      rfl
    · rw [uv, sound.head]
      rfl
    · rw [opens, uv, opens]
      cases S.uv w <;> rfl
  refine ⟨sound.kept kept (fun w p there => ?_) recoloured.white (fun w p there => ?_)
    fun f fn there w member => ?_, fun L n w => kept.isOpen⟩
  · obtain ⟨q, here, rfl⟩ := recolour_some there
    exact ⟨(sound.formed w q here).1, (sound.formed w q here).2⟩
  · obtain ⟨q, here, rfl⟩ := recolour_some there
    exact recoloured.oneWhite w
  · change (if reached f then S.fn f else none) = some fn at there
    split at there
    · rename_i isReached
      obtain ⟨q, here, -⟩ := sound.held f fn there w member
      have alive := recoloured.held f fn isReached there w member
      refine ⟨{ q with marked := marked w }, ?_, ?_⟩
      · rw [uv, here]
        rfl
      · exact (alive_iff (S := S.recolour marked currentwhite marking reached) alive.oneWhite).mpr alive
    · cases there

end

/-! ## Stores -/

section

variable [DecidableEq Thread]

theorem Sound.storeSlot (sound : Sound S lists ring) (L : Thread) (n : Nat) (value : TValue) :
    Sound (S.storeSlot L n value) lists ring :=
  sound.kept ⟨sound.null, sound.head, fun _ => rfl, rfl, rfl, rfl, Nat.le_refl _⟩
    sound.formed sound.white sound.oneWhite sound.held

/-- A store through an upvalue changes the slot of an open one and the value of a closed one. -/
theorem storeuv_cases (sound : Sound S lists ring) {p : GCupval Thread TValue}
    (here : S.uv u = some p) (value : TValue) :
    (∃ L n, S.IsOpen L n u ∧ S.storeuv u value = S.storeSlot L n value) ∨
      p.closed = true ∧ S.storeuv u value = S.set u { p with data := .tv value } := by
  have formed := sound.formed u p here
  by_cases closed : p.closed = true
  · have own := (formed.1 closed).1
    refine .inr ⟨closed, ?_⟩
    rw [storeuv, get_eq here]
    split
    · rename_i slot
      rw [own] at slot
      cases slot
    · rfl
  · have notClosed := Bool.eq_false_of_not_eq_true closed
    obtain ⟨L, n, v⟩ := formed.2 notClosed
    refine .inl ⟨L, n, ⟨p, here, notClosed, v⟩, ?_⟩
    rw [storeuv, get_eq here, v]

theorem Sound.storeuv (sound : Sound S lists ring) {p : GCupval Thread TValue}
    (here : S.uv u = some p) (value : TValue) :
    Sound (S.storeuv u value) lists ring ∧
      ∀ L n w, (S.storeuv u value).IsOpen L n w ↔ S.IsOpen L n w := by
  rcases storeuv_cases sound here value with ⟨L, n, isOpen, same⟩ | ⟨closed, same⟩ <;> rw [same]
  · exact ⟨sound.storeSlot L n value, fun _ _ _ => Iff.rfl⟩
  · have recorded : Recorded S.isdead p { p with data := .tv value } :=
      ⟨rfl, fun notClosed => absurd (closed.symm.trans notClosed) (by decide),
        ⟨fun _ => ⟨((sound.formed u p here).1 closed).1, value, rfl⟩,
          fun notClosed => absurd (closed.symm.trans notClosed) (by decide)⟩,
        sound.oneWhite u p here, id⟩
    exact sound.set here recorded

end

end UvState

end TvmJit
