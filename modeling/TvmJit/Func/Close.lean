import TvmJit.Func.Open

/-! Closing of upvalues. -/

namespace TvmJit

open Foundation Function

namespace UvState

variable {Thread TValue : Type} {S S' : UvState Thread TValue} {L : Thread} {u w : UvRef}
  {level : Nat}

/-- What has become of an upvalue that was open for a slot: it is gone when it was dead, and
otherwise has the value of the slot. -/
def ClosedWith (S S' : UvState Thread TValue) (u : UvRef) (value : TValue) : Prop :=
  if S.isdead (S.get u) then S'.uv u = none
  else ∃ p, S'.uv u = some p ∧ p.closed = true ∧ p.v = .own ∧ p.data = .tv value

/-- A closed upvalue, or a freed one, is not changed by changes of links. -/
theorem ClosedWith.frame {S'' : UvState Thread TValue} {value : TValue}
    (closed : ClosedWith S S' u value)
    (same : (S''.uv u).map GCupval.core = (S'.uv u).map GCupval.core) : ClosedWith S S'' u value := by
  rw [ClosedWith] at closed ⊢
  split at closed
  · rw [if_pos ‹_›]
    rw [closed] at same
    simpa using same
  · rw [if_neg ‹_›]
    obtain ⟨p, here, isClosed, own, data⟩ := closed
    rw [here, Option.map_some] at same
    obtain ⟨p', there, same⟩ := Option.map_eq_some_iff.mp same
    obtain rfl := core_eq_of_closed same.symm isClosed
    exact ⟨p, there, isClosed, own, data⟩

theorem ClosedWith.congr {value : TValue} {S₀ : UvState Thread TValue}
    (closed : ClosedWith S S' u value) (same : S₀.isdead (S₀.get u) = S.isdead (S.get u)) :
    ClosedWith S₀ S' u value := by
  rwa [ClosedWith, same]

/-- All open upvalues of a thread from a slot on have been closed, and the others are as they
were. -/
structure Closed (S S' : UvState Thread TValue) (L : Thread) (level : Nat) : Prop where
  opened : ∀ L' n u, S'.IsOpen L' n u ↔ S.IsOpen L' n u ∧ (L' = L → n < level)
  others : ∀ u, (∀ n, S.IsOpen L n u → n < level) →
    (S'.uv u).map GCupval.core = (S.uv u).map GCupval.core
  closed : ∀ u n, S.IsOpen L n u → level ≤ n → ClosedWith S S' u (S.stack L n)
  fn : S'.fn = S.fn
  stack : S'.stack = S.stack
  currentwhite : S'.currentwhite = S.currentwhite

theorem Closed.refl (low : ∀ n u, S.IsOpen L n u → n < level) : Closed S S L level where
  opened _ n u := ⟨fun isOpen => ⟨isOpen, fun same => low n u (same ▸ isOpen)⟩, And.left⟩
  others _ _ := rfl
  closed u n isOpen high := absurd (low n u isOpen) (Nat.not_lt_of_le high)
  fn := rfl
  stack := rfl
  currentwhite := rfl

/-- A colour that an upvalue gets when it is closed. -/
theorem alive_closed (white : whites S.currentwhite = 1 ∨ whites S.currentwhite = 2)
    {marked : BitVec 8} (alive : Alive S.currentwhite marked) :
    Alive S.currentwhite
      (if marked &&& LJ_GC_COLORS = 0 then
        if S.marking then marked ||| LJ_GC_BLACK else S.makewhite marked
      else marked) := by
  split
  · split
    · exact alive.black
    · exact alive_makewhite white marked
  · exact alive

section

variable [DecidableEq Thread] [Inhabited TValue] {lists : Thread → List UvRef}
  {ring after : List UvRef} {n : Nat}

/-- The closed upvalue has the value of its slot. -/
theorem closeuv_detached (sound : Sound S lists ring) (split : lists L = u :: after)
    (isOpen : S.IsOpen L n u) (alive : S.isdead (S.get u) = false) :
    ∃ p, (S.detach L none u).lj_gc_closeuv u = S.replace L none u (some p) u ∧
      Replaces S u (some p) ∧ p.v = .own ∧ p.data = .tv (S.stack L n) := by
  have split : lists L = [] ++ u :: after := split
  have relinked : Relinked S (S.detach L none u) := (detach_spec sound split).1
  obtain ⟨here, notClosed, v⟩ := isOpen.get
  obtain ⟨p, there, same⟩ := relinked.symm.uv_some here
  have value : (S.detach L none u).value u = S.stack L n := by
    rw [UvState.value, get_eq there, ← core_eq_v same, v]
    dsimp only
    rw [relinked.stack]
  have aliveD : Alive S.currentwhite p.marked := by
    rw [← core_eq_marked same]
    exact (alive_iff (sound.oneWhite u _ here)).mp alive
  rw [← relinked.currentwhite] at aliveD
  have white := sound.white
  rw [← relinked.currentwhite] at white
  have marked := alive_closed white aliveD
  rw [lj_gc_closeuv, get_eq there, value]
  refine ⟨_, rfl, ⟨rfl, ⟨fun _ => ⟨rfl, _, rfl⟩, nofun⟩, marked.oneWhite, ?_⟩, rfl, rfl⟩
  rw [alive_iff marked.oneWhite, ← relinked.currentwhite]
  exact marked

/-- The first upvalue of a list is closed, or freed when it is dead. -/
theorem closeFirst_spec (sound : Sound S lists ring) (split : lists L = u :: after)
    (isOpen : S.IsOpen L n u) :
    ∃ q r, S.closeFirst L = S.replace L none u q r ∧ Replaces S u q ∧
      ClosedWith S (S.closeFirst L) u (S.stack L n) := by
  have walk := sound.walk L
  rw [split] at walk
  have first : S.openupval L = u := walk.1
  have notClosed : ((S.setLink L none (S.get u).nextgc).get u).closed = false := isOpen.get.2.1
  have dead : (S.setLink L none (S.get u).nextgc).isdead ((S.setLink L none (S.get u).nextgc).get u) =
      S.isdead (S.get u) := rfl
  rw [closeFirst, first, dead, ClosedWith]
  cases isDead : S.isdead (S.get u) with
  | true =>
      have freed : (S.setLink L none (S.get u).nextgc).lj_func_freeuv u =
          S.replace L none u none (S.detach L none u).root := by
        rw [lj_func_freeuv, notClosed]
        rfl
      simp only [if_true]
      rw [freed]
      exact ⟨none, _, rfl, isDead, by rw [uv_replace, if_pos rfl]⟩
  | false =>
      obtain ⟨p, closed, replaces, own, data⟩ := closeuv_detached sound split isOpen isDead
      simp only [Bool.false_eq_true, if_false]
      rw [← detach, closed]
      exact ⟨some p, u, rfl, replaces, p, by rw [uv_replace, if_pos rfl], replaces.1, own, data⟩

/-- One more upvalue has been closed before the others. -/
theorem Closed.first (sound : Sound S lists ring) (split : lists L = u :: after)
    (isOpen : S.IsOpen L n u) (high : level ≤ n) (rest : Closed (S.closeFirst L) S' L level) :
    Closed S S' L level := by
  obtain ⟨q, r, replaced, replaces, closed⟩ := closeFirst_spec sound split isOpen
  rw [replaced] at rest closed
  have split : lists L = [] ++ u :: after := split
  have relinked : Relinked S (S.detach L none u) := (detach_spec sound split).1
  have still {L' : Thread} {m : Nat} {w : UvRef} :
      (S.replace L none u q r).IsOpen L' m w ↔ w ≠ u ∧ S.IsOpen L' m w :=
    isOpen_replace sound split replaces
  have other {w : UvRef} (notU : w ≠ u) :
      ((S.replace L none u q r).uv w).map GCupval.core = (S.uv w).map GCupval.core := by
    rw [uv_replace, if_neg notU, relinked.core]
  refine ⟨fun L' m w => ?_, fun w low => ?_, fun w m wIsOpen wHigh => ?_, ?_, ?_, ?_⟩
  · rw [rest.opened, still]
    constructor
    · rintro ⟨⟨-, wIsOpen⟩, low⟩
      exact ⟨wIsOpen, low⟩
    · rintro ⟨wIsOpen, low⟩
      refine ⟨⟨?_, wIsOpen⟩, low⟩
      rintro rfl
      obtain ⟨sameL, sameSlot⟩ := wIsOpen.unique isOpen
      have := low sameL
      omega
  · have notU : w ≠ u := by
      rintro rfl
      exact absurd (low n isOpen) (Nat.not_lt_of_le high)
    rw [rest.others w fun m wIsOpen => low m (still.mp wIsOpen).2, other notU]
  · by_cases same : w = u
    · subst same
      obtain ⟨-, rfl⟩ := wIsOpen.unique isOpen
      exact closed.frame (rest.others w fun k wIsOpen => absurd rfl (still.mp wIsOpen).1)
    · have later := rest.closed w m (still.mpr ⟨same, wIsOpen⟩) wHigh
      have stack : (S.replace L none u q r).stack = S.stack := relinked.stack
      rw [stack] at later
      refine later.congr ?_
      obtain ⟨p, here, sameCore⟩ := relinked.symm.uv_some wIsOpen.get.1
      have there : (S.replace L none u q r).uv w = some p := by
        rw [uv_replace, if_neg same, here]
      rw [get_eq there, isdead_replace relinked, isdead, isdead, core_eq_marked sameCore]
  · exact rest.fn.trans relinked.fn
  · exact rest.stack.trans relinked.stack
  · exact rest.currentwhite.trans relinked.currentwhite

theorem closeLoop_spec {steps : Nat} (sound : Sound S lists ring) (enough : (lists L).length < steps) :
    ∃ S' lists' ring', closeLoop L level steps S = some S' ∧ Sound S' lists' ring' ∧
      Closed S S' L level := by
  induction steps generalizing S lists ring with
  | zero => cases enough
  | succ steps induction =>
      have walk := sound.walk L
      have sorted := sound.sorted L
      cases split : lists L with
      | nil =>
          rw [split] at walk
          have empty : S.openupval L = 0 := walk
          refine ⟨S, lists, ring, by simp [closeLoop, empty], sound, .refl fun n u isOpen => ?_⟩
          have member := (sound.listed L u).mpr ⟨n, isOpen⟩
          rw [split] at member
          cases member
      | cons u after =>
          rw [split] at walk sorted enough
          have first : S.openupval L = u := walk.1
          obtain ⟨n, isOpen⟩ := (sound.listed L u).mp (by simp [split])
          have above := notBelow_iff isOpen level
          rw [closeLoop, first]
          by_cases high : level ≤ n
          · rw [if_pos ⟨walk.2.1, above.mpr high⟩]
            obtain ⟨q, r, replaced, replaces, -⟩ := closeFirst_spec sound split isOpen
            obtain ⟨ring', sound'⟩ := sound.replace (r := r) (show lists L = [] ++ u :: after from split) replaces
            have shorter : (update lists L ([] ++ after) L).length < steps := by
              rw [update_self]
              exact Nat.lt_of_succ_lt_succ enough
            rw [lastLink, ← replaced] at sound'
            obtain ⟨S', lists', ring'', result, sound'', closed⟩ := induction sound' shorter
            exact ⟨S', lists', ring'', result, sound'', .first sound split isOpen high closed⟩
          · rw [if_neg fun goesOn => high (above.mp goesOn.2)]
            refine ⟨S, lists, ring, rfl, sound, .refl fun m w wIsOpen => ?_⟩
            have member := (sound.listed L w).mpr ⟨m, wIsOpen⟩
            rw [split] at member
            rcases List.mem_cons.mp member with rfl | member
            · rw [(wIsOpen.unique isOpen).2]
              omega
            · have := (List.pairwise_cons.mp sorted).1 w member n m isOpen wIsOpen
              omega

/-- It comes to an end. -/
theorem closeuv_spec (sound : Sound S lists ring) (L : Thread) (level : Nat) :
    ∃ S' lists' ring', S.lj_func_closeuv L level = some S' ∧ Sound S' lists' ring' ∧
      Closed S S' L level :=
  closeLoop_spec sound (Nat.lt_succ_of_le (sound.bounded L))

end

end UvState

end TvmJit
