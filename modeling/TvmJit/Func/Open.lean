import TvmJit.Func.Colours

/-! Open upvalues: what holds of the lists of the threads and of the ring, and what each
operation on them keeps. -/

namespace TvmJit

open Foundation Function

namespace UvState

variable {Thread TValue : Type} {S S' : UvState Thread TValue} {L : Thread} {u w : UvRef}
  {p : GCupval Thread TValue}

/-! ## Fields after a change -/

theorem get_eq (here : S.uv u = some p) : S.get u = p := by rw [get, here, Option.getD_some]

theorem get_set (p : GCupval Thread TValue) (w : UvRef) :
    (S.set u p).get w = if w = u then p else S.get w := by
  rw [get, get, set]
  dsimp only
  rw [update_apply]
  split <;> rfl

theorem links_set (p : GCupval Thread TValue) (L : Thread) (link : Link UvRef) :
    (S.set u p).links L link = if link = some u then p.nextgc else S.links L link := by
  cases link with
  | none => rfl
  | some w =>
      simp only [links, get_set, Option.some.injEq]
      split <;> rfl

theorem nexts_set (p : GCupval Thread TValue) : (S.set u p).nexts = update S.nexts (some u) p.next := by
  funext link
  rw [update_apply]
  cases link with
  | none => rfl
  | some w =>
      simp only [nexts, get_set, Option.some.injEq]
      split <;> rfl

theorem prevs_set (p : GCupval Thread TValue) : (S.set u p).prevs = update S.prevs (some u) p.prev := by
  funext link
  rw [update_apply]
  cases link with
  | none => rfl
  | some w =>
      simp only [prevs, get_set, Option.some.injEq]
      split <;> rfl

/-- A change that keeps the field of the list. -/
theorem links_set_same (same : p.nextgc = (S.get u).nextgc) (L : Thread) :
    (S.set u p).links L = S.links L := by
  funext link
  rw [links_set]
  split
  · rename_i here
    rw [here, same]
    rfl
  · rfl

theorem nexts_set_same (same : p.next = (S.get u).next) : (S.set u p).nexts = S.nexts := by
  rw [nexts_set, same]
  exact update_eq_self (some u) S.nexts

theorem prevs_set_same (same : p.prev = (S.get u).prev) : (S.set u p).prevs = S.prevs := by
  rw [prevs_set, same]
  exact update_eq_self (some u) S.prevs

theorem links_setNext (link : Link UvRef) (ref : UvRef) (L : Thread) :
    (S.setNext link ref).links L = S.links L := by
  cases link with
  | none =>
      funext l
      cases l <;> rfl
  | some u =>
      refine links_set_same ?_ L
      rfl

theorem links_setPrev (link : Link UvRef) (ref : UvRef) (L : Thread) :
    (S.setPrev link ref).links L = S.links L := by
  cases link with
  | none =>
      funext l
      cases l <;> rfl
  | some u =>
      refine links_set_same ?_ L
      rfl

theorem nexts_setNext (link : Link UvRef) (ref : UvRef) :
    (S.setNext link ref).nexts = update S.nexts link ref := by
  cases link with
  | none =>
      funext l
      cases l <;> rfl
  | some u => exact nexts_set _

theorem prevs_setNext (link : Link UvRef) (ref : UvRef) : (S.setNext link ref).prevs = S.prevs := by
  cases link with
  | none =>
      funext l
      cases l <;> rfl
  | some u => exact prevs_set_same rfl

theorem prevs_setPrev (link : Link UvRef) (ref : UvRef) :
    (S.setPrev link ref).prevs = update S.prevs link ref := by
  cases link with
  | none =>
      funext l
      cases l <;> rfl
  | some u => exact prevs_set _

theorem nexts_setPrev (link : Link UvRef) (ref : UvRef) : (S.setPrev link ref).nexts = S.nexts := by
  cases link with
  | none =>
      funext l
      cases l <;> rfl
  | some u => exact nexts_set_same rfl

section

variable [DecidableEq Thread]

theorem links_setLink (link : Link UvRef) (ref : UvRef) (L' : Thread) (l : Link UvRef) :
    (S.setLink L link ref).links L' l =
      if l = link ∧ (link = none → L' = L) then ref else S.links L' l := by
  cases link with
  | none =>
      cases l with
      | none => simp only [setLink, links, update_apply, true_and, forall_const]
      | some w => rfl
  | some u => simp [setLink, links_set]

theorem nexts_setLink (link : Link UvRef) (ref : UvRef) : (S.setLink L link ref).nexts = S.nexts := by
  cases link with
  | none =>
      funext l
      cases l <;> rfl
  | some u => exact nexts_set_same rfl

theorem prevs_setLink (link : Link UvRef) (ref : UvRef) : (S.setLink L link ref).prevs = S.prevs := by
  cases link with
  | none =>
      funext l
      cases l <;> rfl
  | some u => exact prevs_set_same rfl

end

/-! ## Well-formed states -/

/-- The upvalue is open for a slot of a thread's stack. -/
def IsOpen (S : UvState Thread TValue) (L : Thread) (n : Nat) (u : UvRef) : Prop :=
  ∃ p, S.uv u = some p ∧ p.closed = false ∧ p.v = .slot L n

/-- An upvalue is either closed, with its own value, or open. -/
def GCupval.Formed (p : GCupval Thread TValue) : Prop :=
  (p.closed = true → p.v = .own ∧ ∃ value, p.data = .tv value) ∧
    (p.closed = false → ∃ L n, p.v = .slot L n)

/-- The open upvalues of each thread are on its list, with strictly decreasing slots, all open
upvalues are in the ring, and closures that can be reached hold no dead upvalue. -/
structure Sound (S : UvState Thread TValue) (lists : Thread → List UvRef) (ring : List UvRef) :
    Prop where
  null : S.uv 0 = none
  head : S.uv uvhead = none
  formed : ∀ u p, S.uv u = some p → GCupval.Formed p
  walk : ∀ L, Walk (S.links L) 0 none (lists L)
  sorted : ∀ L, (lists L).Pairwise fun a b => ∀ m n, S.IsOpen L m a → S.IsOpen L n b → n < m
  listed : ∀ L u, u ∈ lists L ↔ ∃ n, S.IsOpen L n u
  isRing : Ring S.nexts S.prevs uvhead ring
  inRing : ∀ u, u ∈ ring ↔ ∃ L n, S.IsOpen L n u
  bounded : ∀ L, (lists L).length ≤ S.created
  white : whites S.currentwhite = 1 ∨ whites S.currentwhite = 2
  oneWhite : ∀ u p, S.uv u = some p → whites p.marked ≠ 3
  held : ∀ f fn, S.fn f = some fn → ∀ u ∈ fn.uvptr, ∃ p, S.uv u = some p ∧ S.isdead p = false

theorem IsOpen.unique {L' : Thread} {m n : Nat} (first : S.IsOpen L m u) (second : S.IsOpen L' n u) :
    L = L' ∧ m = n := by
  obtain ⟨p, here, -, v⟩ := first
  obtain ⟨q, there, -, v'⟩ := second
  obtain rfl := Option.some.inj (here.symm.trans there)
  rw [v] at v'
  cases v'
  exact ⟨rfl, rfl⟩

theorem IsOpen.get {n : Nat} (isOpen : S.IsOpen L n u) :
    S.uv u = some (S.get u) ∧ (S.get u).closed = false ∧ (S.get u).v = .slot L n := by
  obtain ⟨p, here, closed, v⟩ := isOpen
  rw [get_eq here]
  exact ⟨here, closed, v⟩

/-- There is only one open upvalue for a slot. -/
theorem Sound.same {lists : Thread → List UvRef} {ring : List UvRef} {n : Nat}
    (sound : Sound S lists ring) (first : S.IsOpen L n u) (second : S.IsOpen L n w) : u = w := by
  by_contra different
  have sorted := sound.sorted L
  obtain ⟨before, after, split⟩ := List.append_of_mem ((sound.listed L u).mpr ⟨n, first⟩)
  have member := (sound.listed L w).mpr ⟨n, second⟩
  rw [split, List.pairwise_append, List.pairwise_cons] at sorted
  rw [split, List.mem_append, List.mem_cons] at member
  obtain ⟨-, ⟨afterU, -⟩, across⟩ := sorted
  rcases member with member | same | member
  · exact Nat.lt_irrefl n (across w member u List.mem_cons_self n n second first)
  · exact different same.symm
  · exact Nat.lt_irrefl n (afterU w member n n first second)

theorem notBelow_iff [DecidableEq Thread] {n : Nat} (isOpen : S.IsOpen L n u) (level : Nat) :
    S.notBelow u L level = true ↔ level ≤ n := by
  rw [notBelow, isOpen.get.2.2]
  simp

/-! ## Changes of links -/

/-- An open upvalue without its links. -/
def GCupval.core (p : GCupval Thread TValue) : GCupval Thread TValue :=
  if p.closed then p else { p with nextgc := 0, data := .links 0 0 }

section

variable {q : GCupval Thread TValue}

theorem closed_core (p : GCupval Thread TValue) : (GCupval.core p).closed = p.closed := by
  rw [GCupval.core]
  split <;> rfl

theorem v_core (p : GCupval Thread TValue) : (GCupval.core p).v = p.v := by
  rw [GCupval.core]
  split <;> rfl

theorem marked_core (p : GCupval Thread TValue) : (GCupval.core p).marked = p.marked := by
  rw [GCupval.core]
  split <;> rfl

theorem core_eq_closed (same : GCupval.core p = GCupval.core q) : p.closed = q.closed := by
  rw [← closed_core p, same, closed_core]

theorem core_eq_v (same : GCupval.core p = GCupval.core q) : p.v = q.v := by
  rw [← v_core p, same, v_core]

theorem core_eq_marked (same : GCupval.core p = GCupval.core q) : p.marked = q.marked := by
  rw [← marked_core p, same, marked_core]

theorem core_eq_of_closed (same : GCupval.core p = GCupval.core q) (closed : p.closed = true) :
    p = q := by
  have closed' := core_eq_closed same
  rw [closed] at closed'
  rwa [GCupval.core, GCupval.core, if_pos closed, if_pos closed'.symm] at same

theorem formed_core (same : GCupval.core p = GCupval.core q) (formed : GCupval.Formed q) :
    GCupval.Formed p := by
  refine ⟨fun closed => ?_, fun notClosed => ?_⟩
  · obtain rfl := core_eq_of_closed same closed
    exact formed.1 closed
  · rw [core_eq_v same]
    exact formed.2 (core_eq_closed same ▸ notClosed)

end

/-- Only links of open upvalues, and the heads of lists, are different. -/
structure Relinked (S S' : UvState Thread TValue) : Prop where
  core : ∀ u, (S'.uv u).map GCupval.core = (S.uv u).map GCupval.core
  fn : S'.fn = S.fn
  stack : S'.stack = S.stack
  currentwhite : S'.currentwhite = S.currentwhite
  marking : S'.marking = S.marking
  root : S'.root = S.root
  created : S'.created = S.created

namespace Relinked

variable {S'' : UvState Thread TValue}

theorem refl (S : UvState Thread TValue) : Relinked S S :=
  ⟨fun _ => rfl, rfl, rfl, rfl, rfl, rfl, rfl⟩

theorem trans (first : Relinked S S') (second : Relinked S' S'') : Relinked S S'' where
  core u := (second.core u).trans (first.core u)
  fn := second.fn.trans first.fn
  stack := second.stack.trans first.stack
  currentwhite := second.currentwhite.trans first.currentwhite
  marking := second.marking.trans first.marking
  root := second.root.trans first.root
  created := second.created.trans first.created

theorem uv_some (relinked : Relinked S S') (here : S'.uv u = some p) :
    ∃ q, S.uv u = some q ∧ GCupval.core p = GCupval.core q := by
  have core := relinked.core u
  rw [here] at core
  obtain ⟨q, there, same⟩ := Option.map_eq_some_iff.mp core.symm
  exact ⟨q, there, same.symm⟩

theorem symm (relinked : Relinked S S') : Relinked S' S where
  core u := (relinked.core u).symm
  fn := relinked.fn.symm
  stack := relinked.stack.symm
  currentwhite := relinked.currentwhite.symm
  marking := relinked.marking.symm
  root := relinked.root.symm
  created := relinked.created.symm

theorem uv_none (relinked : Relinked S S') : S'.uv u = none ↔ S.uv u = none := by
  have core := relinked.core u
  rw [← Option.map_eq_none_iff (f := GCupval.core), core, Option.map_eq_none_iff]

theorem isOpen (relinked : Relinked S S') {n : Nat} : S'.IsOpen L n u ↔ S.IsOpen L n u := by
  constructor
  · rintro ⟨p, here, closed, v⟩
    obtain ⟨q, there, same⟩ := relinked.uv_some here
    exact ⟨q, there, core_eq_closed same ▸ closed, core_eq_v same ▸ v⟩
  · rintro ⟨p, here, closed, v⟩
    obtain ⟨q, there, same⟩ := relinked.symm.uv_some here
    exact ⟨q, there, core_eq_closed same ▸ closed, core_eq_v same ▸ v⟩

theorem isdead (relinked : Relinked S S') {q : GCupval Thread TValue}
    (same : GCupval.core p = GCupval.core q) : S'.isdead p = S.isdead q := by
  rw [UvState.isdead, UvState.isdead, otherwhite, otherwhite, relinked.currentwhite,
    core_eq_marked same]

theorem set {q : GCupval Thread TValue} (here : S.uv u = some p)
    (same : GCupval.core q = GCupval.core p) : Relinked S (S.set u q) := by
  refine ⟨fun w => ?_, rfl, rfl, rfl, rfl, rfl, rfl⟩
  rw [UvState.set]
  dsimp only
  rw [update_apply]
  split
  · rename_i isU
    rw [isU, here, Option.map_some, Option.map_some, same]
  · rfl

/-- The link is the head, or the field of an open upvalue. -/
def OnOpen (S : UvState Thread TValue) (link : Link UvRef) : Prop :=
  ∀ u, link = some u → ∃ L n, S.IsOpen L n u

theorem setNext {link : Link UvRef} (onOpen : OnOpen S link) (ref : UvRef) :
    Relinked S (S.setNext link ref) := by
  cases link with
  | none => exact ⟨fun _ => rfl, rfl, rfl, rfl, rfl, rfl, rfl⟩
  | some u =>
      obtain ⟨L, n, isOpen⟩ := onOpen u rfl
      exact .set isOpen.get.1 (by simp [GCupval.core, isOpen.get.2.1])

theorem setPrev {link : Link UvRef} (onOpen : OnOpen S link) (ref : UvRef) :
    Relinked S (S.setPrev link ref) := by
  cases link with
  | none => exact ⟨fun _ => rfl, rfl, rfl, rfl, rfl, rfl, rfl⟩
  | some u =>
      obtain ⟨L, n, isOpen⟩ := onOpen u rfl
      exact .set isOpen.get.1 (by simp [GCupval.core, isOpen.get.2.1])

theorem setLink [DecidableEq Thread] {link : Link UvRef} (onOpen : OnOpen S link) (ref : UvRef) :
    Relinked S (S.setLink L link ref) := by
  cases link with
  | none => exact ⟨fun _ => rfl, rfl, rfl, rfl, rfl, rfl, rfl⟩
  | some u =>
      obtain ⟨L, n, isOpen⟩ := onOpen u rfl
      exact .set isOpen.get.1 (by simp [GCupval.core, isOpen.get.2.1])

theorem onOpen (relinked : Relinked S S') {link : Link UvRef} (onOpen : OnOpen S link) :
    OnOpen S' link := by
  intro u same
  obtain ⟨L, n, isOpen⟩ := onOpen u same
  exact ⟨L, n, relinked.isOpen.mpr isOpen⟩

end Relinked

/-! ## An open upvalue taken out -/

section

variable {lists : Thread → List UvRef} {ring before after : List UvRef}

theorem onOpen_lastLink {members : List UvRef} (opened : ∀ w ∈ members, ∃ L n, S.IsOpen L n w) :
    Relinked.OnOpen S (lastLink none members) :=
  fun w last => opened w (mem_of_lastLink last)

/-- The neighbours are read before their fields change. -/
theorem unlinkuv_eq (isRing : Ring S.nexts S.prevs uvhead (before ++ u :: after)) :
    S.unlinkuv u = (S.setPrev (placeLink uvhead (S.nexts (some u))) (S.prevs (some u))).setNext
      (placeLink uvhead (S.prevs (some u))) (S.nexts (some u)) := by
  have notAfter : u ∉ after.reverse := by
    have distinct := isRing.forward.nodup
    rw [List.nodup_append, List.nodup_cons] at distinct
    simpa using distinct.2.1.1
  have apart : some u ≠ placeLink uvhead (S.nexts (some u)) := by
    rw [isRing.next_link]
    exact (lastLink_ne_some notAfter (by simp)).symm
  have prev : ((S.setPrev (placeLink uvhead (S.get u).next) (S.get u).prev).get u).prev =
      S.prevs (some u) := by
    change (S.setPrev _ _).prevs (some u) = _
    rw [prevs_setPrev]
    exact update_of_ne apart _ _
  have next : ((S.setPrev (placeLink uvhead (S.get u).next) (S.get u).prev).get u).next =
      S.nexts (some u) := by
    change (S.setPrev _ _).nexts (some u) = _
    rw [nexts_setPrev]
  rw [unlinkuv, prev, next]
  rfl

/-- The ring without the upvalue. -/
theorem unlinkuv_ring (isRing : Ring S.nexts S.prevs uvhead (before ++ u :: after)) :
    Ring (S.unlinkuv u).nexts (S.unlinkuv u).prevs uvhead (before ++ after) := by
  have removed := isRing.remove
  rw [unlinkuv_eq isRing, nexts_setNext, prevs_setNext, prevs_setPrev, nexts_setPrev]
  exact removed

theorem unlinkuv_links (u : UvRef) (L : Thread) : (S.unlinkuv u).links L = S.links L := by
  rw [unlinkuv, links_setNext, links_setPrev]

theorem unlinkuv_relinked (isRing : Ring S.nexts S.prevs uvhead (before ++ u :: after))
    (opened : ∀ w ∈ before ++ u :: after, ∃ L n, S.IsOpen L n w) : Relinked S (S.unlinkuv u) := by
  have next : Relinked.OnOpen S (placeLink uvhead (S.nexts (some u))) := by
    rw [isRing.next_link]
    exact onOpen_lastLink fun w member => opened w (by simp_all)
  have prev : Relinked.OnOpen S (placeLink uvhead (S.prevs (some u))) := by
    rw [isRing.prev_link]
    exact onOpen_lastLink fun w member => opened w (by simp_all)
  rw [unlinkuv_eq isRing]
  have first : Relinked S (S.setPrev (placeLink uvhead (S.nexts (some u))) (S.prevs (some u))) :=
    .setPrev next _
  exact first.trans (.setNext (first.onOpen prev) _)

variable [DecidableEq Thread]

/-- The upvalue is taken off its thread's list, whose link to it is known, and out of the ring. -/
def detach (S : UvState Thread TValue) (L : Thread) (link : Link UvRef) (u : UvRef) :
    UvState Thread TValue :=
  (S.setLink L link (S.get u).nextgc).unlinkuv u

theorem detach_spec (sound : Sound S lists ring) (split : lists L = before ++ u :: after) :
    Relinked S (S.detach L (lastLink none before) u) ∧
    (∀ L', Walk ((S.detach L (lastLink none before) u).links L') 0 none
      (update lists L (before ++ after) L')) ∧
    ∃ ring', Ring (S.detach L (lastLink none before) u).nexts
      (S.detach L (lastLink none before) u).prevs uvhead ring' ∧ ∀ w, w ∈ ring' ↔ w ∈ ring ∧ w ≠ u := by
  have isOpen := (sound.listed L u).mp (by simp [split])
  obtain ⟨front, back, rfl⟩ := List.append_of_mem ((sound.inRing u).mpr ⟨L, isOpen⟩)
  have onOpen : Relinked.OnOpen S (lastLink none before) :=
    onOpen_lastLink fun w member => ⟨L, (sound.listed L w).mp (by simp [split, member])⟩
  have first : Relinked S (S.setLink L (lastLink none before) (S.get u).nextgc) := .setLink onOpen _
  have isRing : Ring (S.setLink L (lastLink none before) (S.get u).nextgc).nexts
      (S.setLink L (lastLink none before) (S.get u).nextgc).prevs uvhead (front ++ u :: back) := by
    rw [nexts_setLink, prevs_setLink]
    exact sound.isRing
  have second := unlinkuv_relinked isRing fun w member => by
    obtain ⟨L', n, isOpen⟩ := (sound.inRing w).mp member
    exact ⟨L', n, first.isOpen.mpr isOpen⟩
  refine ⟨first.trans second, fun L' => ?_, front ++ back, unlinkuv_ring isRing, fun w => ?_⟩
  · rw [detach, unlinkuv_links]
    have walk := sound.walk L'
    by_cases same : L' = L
    · subst same
      rw [update_self]
      rw [split] at walk
      refine walk.remove.congr ?_ fun w member => ?_ <;>
        rw [links_setLink, removeAt, update_apply] <;> simp [links]
    · rw [update_of_ne same]
      refine walk.congr ?_ fun w member => ?_ <;> rw [links_setLink, if_neg]
      · rintro ⟨head, isL⟩
        exact same (isL head.symm)
      · rintro ⟨last, -⟩
        have member' : w ∈ lists L := by
          rw [split]
          exact List.mem_append_left _ (mem_of_lastLink last.symm)
        obtain ⟨n, here⟩ := (sound.listed L' w).mp member
        obtain ⟨m, there⟩ := (sound.listed L w).mp member'
        exact same (here.unique there).1
  · have distinct := sound.isRing.forward.nodup
    rw [List.nodup_middle, List.nodup_cons] at distinct
    constructor
    · intro member
      refine ⟨?_, ne_of_mem_of_not_mem member distinct.1⟩
      rcases List.mem_append.mp member with member | member <;> simp [member]
    · rintro ⟨member, notU⟩
      simp_all

/-- What may stand at the address of an upvalue that is taken out: nothing when it was dead, or
a closed upvalue that is not dead. -/
def Replaces (S : UvState Thread TValue) (u : UvRef) : Option (GCupval Thread TValue) → Prop
  | none => S.isdead (S.get u) = true
  | some p => p.closed = true ∧ GCupval.Formed p ∧
      whites p.marked ≠ 3 ∧ S.isdead p = false

/-- The state after an open upvalue has been taken out. -/
def replace (S : UvState Thread TValue) (L : Thread) (link : Link UvRef) (u : UvRef)
    (q : Option (GCupval Thread TValue)) (root : UvRef) : UvState Thread TValue :=
  { S.detach L link u with uv := update (S.detach L link u).uv u q, root }

variable {q : Option (GCupval Thread TValue)} {r : UvRef}

theorem uv_replace (link : Link UvRef) (w : UvRef) :
    (S.replace L link u q r).uv w = if w = u then q else (S.detach L link u).uv w := by
  rw [replace]
  dsimp only
  rw [update_apply]

/-- All other open upvalues stay open. -/
theorem isOpen_replace (sound : Sound S lists ring) (split : lists L = before ++ u :: after)
    (replaces : Replaces S u q) {L' : Thread} {n : Nat} :
    (S.replace L (lastLink none before) u q r).IsOpen L' n w ↔ w ≠ u ∧ S.IsOpen L' n w := by
  have relinked := (detach_spec sound split).1
  by_cases same : w = u
  · subst same
    simp only [ne_eq, not_true_eq_false, false_and, iff_false]
    rintro ⟨p, here, notClosed, -⟩
    rw [uv_replace, if_pos rfl] at here
    subst here
    rw [replaces.1] at notClosed
    cases notClosed
  · rw [IsOpen, uv_replace, if_neg same, ← IsOpen, relinked.isOpen]
    simp [same]

theorem mem_lists_replace (sound : Sound S lists ring) (split : lists L = before ++ u :: after)
    (L' : Thread) : w ∈ update lists L (before ++ after) L' ↔ w ≠ u ∧ w ∈ lists L' := by
  by_cases same : L' = L
  · subst same
    have distinct := (sound.walk L').nodup
    rw [split, List.nodup_middle, List.nodup_cons] at distinct
    rw [update_self, split]
    constructor
    · intro member
      refine ⟨ne_of_mem_of_not_mem member distinct.1, ?_⟩
      rcases List.mem_append.mp member with member | member <;> simp [member]
    · rintro ⟨notU, member⟩
      simpa [notU] using member
  · rw [update_of_ne same]
    refine ⟨fun member => ⟨?_, member⟩, And.right⟩
    rintro rfl
    obtain ⟨m, here⟩ := (sound.listed L' w).mp member
    obtain ⟨n, there⟩ := (sound.listed L w).mp (by simp [split])
    exact same (here.unique there).1

theorem sublist_replace (split : lists L = before ++ u :: after) (L' : Thread) :
    (update lists L (before ++ after) L').Sublist (lists L') := by
  by_cases same : L' = L
  · subst same
    rw [update_self, split]
    exact (List.Sublist.refl before).append (List.sublist_cons_self u after)
  · rw [update_of_ne same]

theorem isdead_replace (relinked : Relinked S (S.detach L link u)) (p : GCupval Thread TValue) :
    (S.replace L link u q r).isdead p = S.isdead p := by
  rw [isdead, isdead, otherwhite, otherwhite]
  exact congrArg (fun white => p.marked &&& (white ^^^ LJ_GC_WHITES) &&& LJ_GC_WHITES != 0)
    relinked.currentwhite

theorem Sound.replace (sound : Sound S lists ring) (split : lists L = before ++ u :: after)
    (replaces : Replaces S u q) : ∃ ring', Sound (S.replace L (lastLink none before) u q r)
      (update lists L (before ++ after)) ring' := by
  obtain ⟨relinked, walk, ring', isRing, members⟩ := detach_spec sound split
  have isOpen {L' : Thread} {n : Nat} {w : UvRef} :
      (S.replace L (lastLink none before) u q r).IsOpen L' n w ↔ w ≠ u ∧ S.IsOpen L' n w :=
    isOpen_replace sound split replaces
  have other {w : UvRef} (notU : w ≠ u) : (S.replace L (lastLink none before) u q r).get w =
      (S.detach L (lastLink none before) u).get w := by
    rw [get, get, uv_replace, if_neg notU]
  obtain ⟨n, uIsOpen⟩ := (sound.listed L u).mp (by simp [split])
  have allocated (w : UvRef) (free : S.uv w = none) : w ≠ u := by
    rintro rfl
    rw [uIsOpen.get.1] at free
    cases free
  refine ⟨ring', ?_⟩
  constructor
  case null => rw [uv_replace, if_neg (allocated 0 sound.null), relinked.uv_none, sound.null]
  case head => rw [uv_replace, if_neg (allocated uvhead sound.head), relinked.uv_none, sound.head]
  case formed =>
    intro w p here
    rw [uv_replace] at here
    split at here
    · subst here
      exact replaces.2.1
    · obtain ⟨p', there, same⟩ := relinked.uv_some here
      exact formed_core same (sound.formed w p' there)
  case walk =>
    intro L'
    refine (walk L').congr rfl fun w member => ?_
    change ((S.replace L _ u q r).get w).nextgc = ((S.detach L _ u).get w).nextgc
    rw [other ((mem_lists_replace sound split L').mp member).1]
  case sorted =>
    intro L'
    refine ((sound.sorted L').sublist (sublist_replace split L')).imp fun {a b} less m n openA openB => ?_
    exact less m n (isOpen.mp openA).2 (isOpen.mp openB).2
  case listed =>
    intro L' w
    rw [mem_lists_replace sound split, sound.listed]
    simp only [isOpen, exists_and_left]
  case isRing =>
    refine isRing.congr ?_
    rintro p (rfl | ⟨a, member, rfl⟩)
    · exact ⟨rfl, rfl⟩
    · have same := other ((members a).mp member).2
      exact ⟨congrArg GCupval.next same, congrArg GCupval.prev same⟩
  case inRing =>
    intro w
    rw [members, sound.inRing]
    simp only [isOpen]
    grind
  case bounded =>
    intro L'
    have created : (S.replace L (lastLink none before) u q r).created = S.created := relinked.created
    rw [created]
    exact Nat.le_trans (sublist_replace split L').length_le (sound.bounded L')
  case white =>
    have white : (S.replace L (lastLink none before) u q r).currentwhite = S.currentwhite :=
      relinked.currentwhite
    rw [white]
    exact sound.white
  case oneWhite =>
    intro w p here
    rw [uv_replace] at here
    split at here
    · subst here
      exact replaces.2.2.1
    · obtain ⟨p', there, same⟩ := relinked.uv_some here
      rw [core_eq_marked same]
      exact sound.oneWhite w p' there
  case held =>
    intro f fn here w member
    have fns : (S.replace L (lastLink none before) u q r).fn = S.fn := relinked.fn
    rw [fns] at here
    obtain ⟨p, there, alive⟩ := sound.held f fn here w member
    rw [uv_replace]
    split
    · rename_i same
      subst same
      cases q with
      | none =>
          rw [Replaces, get_eq there, alive] at replaces
          cases replaces
      | some p' =>
          refine ⟨p', rfl, ?_⟩
          rw [isdead_replace relinked]
          exact replaces.2.2.2
    · obtain ⟨p', here', same⟩ := relinked.symm.uv_some there
      refine ⟨p', here', ?_⟩
      rw [isdead_replace relinked]
      rw [isdead, core_eq_marked same.symm, ← isdead, alive]

end

end UvState

end TvmJit
