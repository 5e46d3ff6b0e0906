import TvmJit.Func.Open

/-! Search for the upvalue of a stack slot, with a new one when there is none. -/

namespace TvmJit

open Foundation Function

namespace UvState

variable {Thread TValue : Type} {S S' S'' : UvState Thread TValue} {L : Thread} {u w : UvRef}
  {lists : Thread → List UvRef} {ring before after : List UvRef} {slot n : Nat}

/-! ## The same open upvalues -/

/-- What the lists and the ring need of an upvalue. -/
def opens (S : UvState Thread TValue) (u : UvRef) :
    Option (UvVal Thread × UvRef × UvData TValue) :=
  (S.uv u).bind fun p => if p.closed then none else some (p.v, p.nextgc, p.data)

/-- Open upvalues and their links are the same. -/
structure Kept (S S' : UvState Thread TValue) : Prop where
  null : S'.uv 0 = none
  head : S'.uv uvhead = none
  opens : ∀ u, S'.opens u = S.opens u
  openupval : S'.openupval = S.openupval
  headPrev : S'.headPrev = S.headPrev
  headNext : S'.headNext = S.headNext
  created : S.created ≤ S'.created

theorem opens_eq (isOpen : S.IsOpen L n u) :
    S.opens u = some (.slot L n, (S.get u).nextgc, (S.get u).data) := by
  obtain ⟨here, notClosed, v⟩ := isOpen.get
  rw [opens, here, Option.bind_some, notClosed, v]
  rfl

theorem opens_some {v : UvVal Thread} {nextgc : UvRef} {data : UvData TValue}
    (same : S.opens u = some (v, nextgc, data)) :
    ∃ p, S.uv u = some p ∧ p.closed = false ∧ p.v = v ∧ p.nextgc = nextgc ∧ p.data = data := by
  obtain ⟨p, here, same⟩ := Option.bind_eq_some_iff.mp same
  cases closed : p.closed with
  | true => simp [closed] at same
  | false =>
      rw [closed] at same
      cases same
      exact ⟨p, here, closed, rfl, rfl, rfl⟩

theorem Kept.get (kept : Kept S S') (isOpen : S.IsOpen L n u) :
    S'.IsOpen L n u ∧ (S'.get u).nextgc = (S.get u).nextgc ∧ (S'.get u).data = (S.get u).data := by
  obtain ⟨p, here, notClosed, v, nextgc, data⟩ := opens_some ((kept.opens u).trans (opens_eq isOpen))
  rw [get_eq here]
  exact ⟨⟨p, here, notClosed, v⟩, nextgc, data⟩

theorem Kept.isOpen (kept : Kept S S') : S'.IsOpen L n u ↔ S.IsOpen L n u := by
  refine ⟨fun isOpen => ?_, fun isOpen => (kept.get isOpen).1⟩
  obtain ⟨p, here, notClosed, v, -, -⟩ := opens_some ((kept.opens u).symm.trans (opens_eq isOpen))
  exact ⟨p, here, notClosed, v⟩

theorem Sound.kept (sound : Sound S lists ring) (kept : Kept S S')
    (formed : ∀ u p, S'.uv u = some p → GCupval.Formed p)
    (white : whites S'.currentwhite = 1 ∨ whites S'.currentwhite = 2)
    (oneWhite : ∀ u p, S'.uv u = some p → whites p.marked ≠ 3)
    (held : ∀ f fn, S'.fn f = some fn → ∀ u ∈ fn.uvptr, ∃ p, S'.uv u = some p ∧ S'.isdead p = false) :
    Sound S' lists ring := by
  constructor
  case null => exact kept.null
  case head => exact kept.head
  case formed => exact formed
  case walk =>
    intro L
    refine (sound.walk L).congr (congrFun kept.openupval L) fun u member => ?_
    obtain ⟨n, isOpen⟩ := (sound.listed L u).mp member
    exact (kept.get isOpen).2.1
  case sorted =>
    intro L
    refine (sound.sorted L).imp fun {a b} less m n openA openB => ?_
    exact less m n (kept.isOpen.mp openA) (kept.isOpen.mp openB)
  case listed =>
    intro L u
    rw [sound.listed]
    exact exists_congr fun n => kept.isOpen.symm
  case isRing =>
    refine sound.isRing.congr ?_
    rintro p (rfl | ⟨a, member, rfl⟩)
    · exact ⟨kept.headNext, kept.headPrev⟩
    · obtain ⟨L, n, isOpen⟩ := (sound.inRing a).mp member
      have data := (kept.get isOpen).2.2
      rw [nexts, nexts, prevs, prevs, GCupval.next, GCupval.next, GCupval.prev, GCupval.prev, data]
      exact ⟨rfl, rfl⟩
  case inRing =>
    intro u
    rw [sound.inRing]
    exact exists_congr fun L => exists_congr fun n => kept.isOpen.symm
  case bounded => exact fun L => Nat.le_trans (sound.bounded L) kept.created
  case white => exact white
  case oneWhite => exact oneWhite
  case held => exact held

/-- An upvalue is recorded anew, with the same links when it is open. -/
structure Recorded (isdead : GCupval Thread TValue → Bool) (p q : GCupval Thread TValue) : Prop where
  closed : q.closed = p.closed
  links : p.closed = false → q.v = p.v ∧ q.nextgc = p.nextgc ∧ q.data = p.data
  formed : GCupval.Formed q
  oneWhite : whites q.marked ≠ 3
  alive : isdead p = false → isdead q = false

theorem uv_set (p : GCupval Thread TValue) (w : UvRef) :
    (S.set u p).uv w = if w = u then some p else S.uv w := update_apply ..

theorem Sound.set (sound : Sound S lists ring) {p q : GCupval Thread TValue} (here : S.uv u = some p)
    (recorded : Recorded S.isdead p q) :
    Sound (S.set u q) lists ring ∧ ∀ L n w, (S.set u q).IsOpen L n w ↔ S.IsOpen L n w := by
  have kept : Kept S (S.set u q) := by
    refine ⟨?_, ?_, fun w => ?_, rfl, rfl, rfl, Nat.le_refl _⟩
    · rw [uv_set, if_neg, sound.null]
      rintro rfl
      rw [sound.null] at here
      cases here
    · rw [uv_set, if_neg, sound.head]
      rintro rfl
      rw [sound.head] at here
      cases here
    · rw [opens, uv_set]
      split
      · rename_i same
        rw [same, opens, here, Option.bind_some, Option.bind_some, recorded.closed]
        cases closed : p.closed with
        | true => rfl
        | false =>
            obtain ⟨v, nextgc, data⟩ := recorded.links closed
            rw [v, nextgc, data]
      · rfl
  refine ⟨sound.kept kept (fun w p there => ?_) sound.white (fun w p there => ?_)
    fun f fn there w member => ?_, fun L n w => kept.isOpen⟩
  · rw [uv_set] at there
    split at there
    · cases there
      exact recorded.formed
    · exact sound.formed w p there
  · rw [uv_set] at there
    split at there
    · cases there
      exact recorded.oneWhite
    · exact sound.oneWhite w p there
  · obtain ⟨p', there, notDead⟩ := sound.held f fn there w member
    rw [uv_set]
    split
    · rename_i same
      rw [same, here] at there
      cases there
      exact ⟨q, rfl, recorded.alive notDead⟩
    · exact ⟨p', there, notDead⟩

/-! ## A new upvalue -/

section

variable [DecidableEq Thread] {new : UvRef} {pp : Link UvRef}

omit [DecidableEq Thread] in
theorem isFree_iff : S.isFree new = true ↔ new ≠ 0 ∧ new ≠ uvhead ∧ S.uv new = none := by
  simp [isFree]

omit [DecidableEq Thread] in
theorem IsOpen.not_free (isOpen : S.IsOpen L n u) (free : S.isFree new = true) : u ≠ new := by
  rintro rfl
  have here := isOpen.get.1
  rw [(isFree_iff.mp free).2.2] at here
  cases here

theorem insertuv_links (pp : Link UvRef) :
    (S.insertuv L pp slot new).links L = insertAt (S.links L) pp new := by
  funext link
  change ((((S.set new _).setLink L pp new).setPrev _ _).links L) link = _
  rw [links_setPrev, links_setLink, links_set, insertAt, update_apply, update_apply]
  simp

/-- A link of another thread's list. -/
theorem insertuv_links_of_ne {L' : Thread} {link : Link UvRef} (other : L' ≠ L)
    (notHere : link ≠ none → link ≠ pp) (notNew : link ≠ some new) :
    (S.insertuv L pp slot new).links L' link = S.links L' link := by
  change ((((S.set new _).setLink L pp new).setPrev _ _).links L') link = _
  rw [links_setPrev, links_setLink, links_set, if_neg, if_neg notNew]
  rintro ⟨rfl, isL⟩
  cases link with
  | none => exact other (isL rfl)
  | some w => exact notHere (by simp) rfl

theorem insertuv_nexts : (S.insertuv L pp slot new).nexts = insertAt S.nexts none new := by
  have before : ∀ T : UvState Thread TValue, ({ T with headNext := new } : UvState Thread TValue).nexts =
      update T.nexts none new := by
    intro T
    funext link
    cases link <;> rfl
  change ({ (((S.set new _).setLink L pp new).setPrev _ _) with
    headNext := new } : UvState Thread TValue).nexts = _
  rw [before, nexts_setPrev, nexts_setLink, nexts_set]
  rfl

theorem insertuv_prevs (isRing : Ring S.nexts S.prevs uvhead ring) :
    (S.insertuv L pp slot new).prevs =
      insertAt S.prevs (placeLink uvhead (S.nexts none)) new := by
  have next : (((S.set new ⟨S.links L pp, S.curwhite, false, false, .links uvhead S.headNext,
      .slot L slot, 0⟩).setLink L pp new).get new).next = S.nexts none := by
    change (UvState.nexts _) (some new) = _
    rw [nexts_setLink, nexts_set, update_self]
    rfl
  change ((((S.set new _).setLink L pp new).setPrev _ new).prevs) = _
  rw [prevs_setPrev, prevs_setLink, prevs_set, next, insertAt, isRing.prev_first]
  rfl

/-- The new upvalue without its links. -/
def fresh (S : UvState Thread TValue) (L : Thread) (slot : Nat) (new : UvRef) :
    UvState Thread TValue :=
  { S.set new ⟨0, S.curwhite, false, false, .links 0 0, .slot L slot, 0⟩ with
    created := S.created + 1 }

omit [DecidableEq Thread] in
theorem uv_fresh (w : UvRef) : (S.fresh L slot new).uv w =
    if w = new then some ⟨0, S.curwhite, false, false, .links 0 0, .slot L slot, 0⟩ else S.uv w := by
  rw [fresh, set]
  dsimp only
  rw [update_apply]

omit [DecidableEq Thread] in
theorem isOpen_fresh (free : S.isFree new = true) {L' : Thread} :
    (S.fresh L slot new).IsOpen L' n w ↔ (w = new ∧ L' = L ∧ n = slot) ∨ S.IsOpen L' n w := by
  by_cases same : w = new
  · subst same
    have notOpen : ¬ S.IsOpen L' n w := fun isOpen => isOpen.not_free free rfl
    rw [IsOpen, uv_fresh, if_pos rfl]
    constructor
    · rintro ⟨p, here, -, v⟩
      obtain rfl := Option.some.inj here
      cases v
      exact .inl ⟨rfl, rfl, rfl⟩
    · rintro (⟨-, rfl, rfl⟩ | isOpen)
      · exact ⟨_, rfl, rfl, rfl⟩
      · exact absurd isOpen notOpen
  · rw [IsOpen, uv_fresh, if_neg same, ← IsOpen]
    simp [same]

theorem insertuv_relinked (isRing : Ring S.nexts S.prevs uvhead ring)
    (opened : ∀ w ∈ ring, ∃ L n, S.IsOpen L n w) (free : S.isFree new = true)
    (onOpen : Relinked.OnOpen S pp) :
    Relinked (S.fresh L slot new) (S.insertuv L pp slot new) := by
  have first : Relinked { S.fresh L slot new with created := S.created }
      (S.set new ⟨S.links L pp, S.curwhite, false, false, .links uvhead S.headNext, .slot L slot, 0⟩) := by
    refine ⟨fun w => ?_, rfl, rfl, rfl, rfl, rfl, rfl⟩
    rw [uv_fresh, set]
    dsimp only
    rw [update_apply]
    split <;> rfl
  have still {link : Link UvRef} (onOpen : Relinked.OnOpen S link) :
      Relinked.OnOpen { S.fresh L slot new with created := S.created } link := fun w same => by
    obtain ⟨L', n, isOpen⟩ := onOpen w same
    exact ⟨L', n, (isOpen_fresh free).mpr (.inr isOpen)⟩
  have second := first.trans (.setLink (L := L) (first.onOpen (still onOpen)) new)
  have next : Relinked.OnOpen S (placeLink uvhead (S.nexts none)) := by
    rw [Ring.link_after isRing.forward]
    exact onOpen_lastLink fun w member => opened w (List.mem_reverse.mp member)
  have third := second.trans (.setPrev (second.onOpen (still next)) new)
  have field : (((S.set new ⟨S.links L pp, S.curwhite, false, false, .links uvhead S.headNext,
      .slot L slot, 0⟩).setLink L pp new).get new).next = S.nexts none := by
    change (UvState.nexts _) (some new) = _
    rw [nexts_setLink, nexts_set, update_self]
    rfl
  rw [← field] at third
  exact ⟨third.core, third.fn, third.stack, third.currentwhite, third.marking, third.root, congrArg (· + 1) third.created⟩

/-- A new upvalue, of the current white, between greater and smaller slots. -/
theorem Sound.insert (sound : Sound S lists ring) (split : lists L = before ++ after)
    (free : S.isFree new = true)
    (above : ∀ w ∈ before, ∀ n, S.IsOpen L n w → slot < n)
    (below : ∀ w ∈ after, ∀ n, S.IsOpen L n w → n < slot) :
    Sound (S.insertuv L (lastLink none before) slot new) (update lists L (before ++ new :: after))
      (new :: ring) := by
  have inLists : ∀ w ∈ before ++ after, ∃ n, S.IsOpen L n w := by
    rw [← split]
    exact fun w member => (sound.listed L w).mp member
  have onOpen : Relinked.OnOpen S (lastLink none before) :=
    onOpen_lastLink fun w member => ⟨L, inLists w (List.mem_append_left _ member)⟩
  have relinked : Relinked (S.fresh L slot new) (S.insertuv L (lastLink none before) slot new) :=
    insertuv_relinked sound.isRing (fun w member => (sound.inRing w).mp member) free onOpen
  obtain ⟨notNull, notHead, notHere⟩ := isFree_iff.mp free
  have isOpen {L' : Thread} {n : Nat} {w : UvRef} :
      (S.insertuv L (lastLink none before) slot new).IsOpen L' n w ↔
        (w = new ∧ L' = L ∧ n = slot) ∨ S.IsOpen L' n w := by
    rw [relinked.isOpen, isOpen_fresh free]
  have newLists : new ∉ before ++ after := fun member => by
    obtain ⟨n, isOpen⟩ := inLists new member
    exact isOpen.not_free free rfl
  constructor
  case null =>
    rw [relinked.uv_none, uv_fresh, if_neg (Ne.symm notNull), sound.null]
  case head =>
    rw [relinked.uv_none, uv_fresh, if_neg (Ne.symm notHead), sound.head]
  case formed =>
    intro w p here
    obtain ⟨p', there, same⟩ := relinked.uv_some here
    refine formed_core same ?_
    rw [uv_fresh] at there
    split at there
    · cases there
      exact ⟨nofun, fun _ => ⟨L, slot, rfl⟩⟩
    · exact sound.formed w p' there
  case walk =>
    intro L'
    by_cases same : L' = L
    · subst same
      rw [update_self, insertuv_links]
      have walk := sound.walk L'
      rw [split] at walk
      exact walk.insert notNull (by simp) newLists
    · rw [update_of_ne same]
      have notIn : ∀ w ∈ lists L', some w ≠ lastLink none before ∧ w ≠ new := by
        intro w member
        obtain ⟨m, here⟩ := (sound.listed L' w).mp member
        refine ⟨fun last => ?_, here.not_free free⟩
        obtain ⟨k, there⟩ := inLists w (List.mem_append_left _ (mem_of_lastLink last.symm))
        exact same (here.unique there).1
      refine (sound.walk L').congr ?_ fun w member => ?_
      · exact insertuv_links_of_ne same (by simp) (by simp)
      · exact insertuv_links_of_ne same (fun _ => (notIn w member).1) (by simpa using (notIn w member).2)
  case sorted =>
    intro L'
    by_cases same : L' = L
    · subst same
      have sorted := sound.sorted L'
      rw [split] at sorted
      have old : ∀ w ∈ before ++ after, ∀ m,
          (S.insertuv L' (lastLink none before) slot new).IsOpen L' m w → S.IsOpen L' m w := by
        intro w member m wIsOpen
        rcases isOpen.mp wIsOpen with ⟨rfl, -, -⟩ | wIsOpen
        · exact absurd member newLists
        · exact wIsOpen
      have newSlot : ∀ m, (S.insertuv L' (lastLink none before) slot new).IsOpen L' m new →
          m = slot := by
        intro m newIsOpen
        rcases isOpen.mp newIsOpen with ⟨-, -, rfl⟩ | newIsOpen
        · rfl
        · exact absurd rfl (newIsOpen.not_free free)
      rw [List.pairwise_append] at sorted
      obtain ⟨front, back, across⟩ := sorted
      have keeps (places : List UvRef) (among : ∀ w ∈ places, w ∈ before ++ after)
          (sorted : places.Pairwise fun a b => ∀ m n, S.IsOpen L' m a → S.IsOpen L' n b → n < m) :
          places.Pairwise fun a b => ∀ m n,
            (S.insertuv L' (lastLink none before) slot new).IsOpen L' m a →
            (S.insertuv L' (lastLink none before) slot new).IsOpen L' n b → n < m :=
        sorted.imp_of_mem fun {a b} memberA memberB less m n openA openB =>
          less m n (old a (among a memberA) m openA) (old b (among b memberB) n openB)
      rw [update_self, List.pairwise_append, List.pairwise_cons]
      refine ⟨keeps before (by simp_all) front, ⟨fun b member m n openNew openB => ?_,
        keeps after (by simp_all) back⟩, fun a memberA b memberB m n openA openB => ?_⟩
      · rw [newSlot m openNew]
        exact below b member n (old b (List.mem_append_right _ member) n openB)
      · have stillA := old a (List.mem_append_left _ memberA) m openA
        rcases List.mem_cons.mp memberB with rfl | memberB
        · rw [newSlot n openB]
          exact above a memberA m stillA
        · exact across a memberA b memberB m n stillA (old b (List.mem_append_right _ memberB) n openB)
    · rw [update_of_ne same]
      refine (sound.sorted L').imp fun {a b} less m n openA openB => ?_
      rcases isOpen.mp openA with ⟨-, isL, -⟩ | openA
      · exact absurd isL same
      · rcases isOpen.mp openB with ⟨-, isL, -⟩ | openB
        · exact absurd isL same
        · exact less m n openA openB
  case listed =>
    intro L' w
    simp only [isOpen]
    by_cases same : L' = L
    · subst same
      rw [update_self, List.mem_append, List.mem_cons, or_left_comm, ← List.mem_append, ← split,
        sound.listed]
      grind
    · rw [update_of_ne same, sound.listed]
      simp [same]
  case isRing =>
    rw [insertuv_nexts, insertuv_prevs sound.isRing]
    refine sound.isRing.push notHead fun member => ?_
    obtain ⟨L', n, newIsOpen⟩ := (sound.inRing new).mp member
    exact newIsOpen.not_free free rfl
  case inRing =>
    intro w
    rw [List.mem_cons, sound.inRing]
    simp only [isOpen]
    grind
  case bounded =>
    intro L'
    have bounded := sound.bounded L'
    have created : (S.insertuv L (lastLink none before) slot new).created = S.created + 1 :=
      relinked.created
    rw [created]
    by_cases same : L' = L
    · subst same
      rw [split] at bounded
      rw [update_self]
      simp only [List.length_append, List.length_cons] at bounded ⊢
      omega
    · rw [update_of_ne same]
      omega
  case white =>
    rw [relinked.currentwhite]
    exact sound.white
  case oneWhite =>
    intro w p here
    obtain ⟨p', there, same⟩ := relinked.uv_some here
    rw [core_eq_marked same]
    rw [uv_fresh] at there
    split at there
    · cases there
      exact (Alive.current sound.white (whites_whites S.currentwhite)).oneWhite
    · exact sound.oneWhite w p' there
  case held =>
    intro f fn here w member
    rw [relinked.fn] at here
    obtain ⟨p, there, alive⟩ := sound.held f fn here w member
    have notNew : w ≠ new := by
      rintro rfl
      rw [notHere] at there
      cases there
    have old : (S.fresh L slot new).uv w = some p := by
      rw [uv_fresh, if_neg notNew, there]
    obtain ⟨p', here', same⟩ := relinked.symm.uv_some old
    exact ⟨p', here', (relinked.isdead same.symm).trans alive⟩

/-- An upvalue has been found or created for a slot, and all others are as they were. -/
structure Opened (S S' : UvState Thread TValue) (L : Thread) (slot : Nat) (u : UvRef) : Prop where
  isOpen : S'.IsOpen L slot u
  alive : S'.isdead (S'.get u) = false
  opened : ∀ L' n w, S'.IsOpen L' n w ↔ (w = u ∧ L' = L ∧ n = slot) ∨ S.IsOpen L' n w
  fresh : S.uv u = none ∨ S.IsOpen L slot u
  others : ∀ w, w ≠ u → (S'.uv w).map GCupval.core = (S.uv w).map GCupval.core
  fn : S'.fn = S.fn
  stack : S'.stack = S.stack
  currentwhite : S'.currentwhite = S.currentwhite

omit [DecidableEq Thread] in
/-- An open upvalue gets a colour that is not dead. -/
theorem Sound.resurrect (sound : Sound S lists ring) (isOpen : S.IsOpen L n u) {marked : BitVec 8}
    (alive : Alive S.currentwhite marked) :
    Sound (S.set u { S.get u with marked }) lists ring ∧
      Opened S (S.set u { S.get u with marked }) L n u := by
  obtain ⟨here, notClosed, v⟩ := isOpen.get
  have notDead : S.isdead { S.get u with marked } = false := (alive_iff alive.oneWhite).mpr alive
  have change : Recorded S.isdead (S.get u) { S.get u with marked } :=
    ⟨rfl, fun _ => ⟨rfl, rfl, rfl⟩, ⟨(sound.formed u _ here).1, (sound.formed u _ here).2⟩,
      alive.oneWhite, fun _ => notDead⟩
  obtain ⟨sound', still⟩ := sound.set here change
  refine ⟨sound', (still ..).mpr isOpen, ?_, fun L' m w => ?_, .inr isOpen, fun w notU => ?_, rfl,
    rfl, rfl⟩
  · rw [get_set, if_pos rfl]
    exact notDead
  · rw [still]
    constructor
    · exact .inr
    · rintro (⟨rfl, rfl, rfl⟩ | wIsOpen)
      · exact isOpen
      · exact wIsOpen
  · rw [uv_set, if_neg notU]

theorem Sound.opened_insert (sound : Sound S lists ring) (split : lists L = before ++ after)
    (free : S.isFree new = true) :
    Opened S (S.insertuv L (lastLink none before) slot new) L slot new := by
  have onOpen : Relinked.OnOpen S (lastLink none before) :=
    onOpen_lastLink fun w member => ⟨L, (sound.listed L w).mp (by simp [split, member])⟩
  have relinked : Relinked (S.fresh L slot new) (S.insertuv L (lastLink none before) slot new) :=
    insertuv_relinked sound.isRing (fun w member => (sound.inRing w).mp member) free onOpen
  have here : (S.fresh L slot new).uv new =
      some ⟨0, S.curwhite, false, false, .links 0 0, .slot L slot, 0⟩ := by
    rw [uv_fresh, if_pos rfl]
  have isOpen (L' : Thread) (n : Nat) (w : UvRef) :
      (S.insertuv L (lastLink none before) slot new).IsOpen L' n w ↔
        (w = new ∧ L' = L ∧ n = slot) ∨ S.IsOpen L' n w := by
    rw [relinked.isOpen, isOpen_fresh free]
  refine ⟨(isOpen ..).mpr (.inl ⟨rfl, rfl, rfl⟩), ?_, isOpen, .inl (isFree_iff.mp free).2.2,
    fun w notNew => ?_, relinked.fn, relinked.stack, relinked.currentwhite⟩
  · obtain ⟨p, there, same⟩ := relinked.symm.uv_some here
    have alive : Alive S.currentwhite S.curwhite :=
      .current sound.white (whites_whites S.currentwhite)
    rw [get_eq there, relinked.isdead same.symm]
    exact (alive_iff alive.oneWhite).mpr alive
  · rw [relinked.core, uv_fresh, if_neg notNew]

omit [DecidableEq Thread] in
theorem opened_self (isOpen : S.IsOpen L slot u) (alive : S.isdead (S.get u) = false) :
    Opened S S L slot u := by
  refine ⟨isOpen, alive, fun L' n w => ⟨.inr, ?_⟩, .inr isOpen, fun _ _ => rfl, rfl, rfl, rfl⟩
  rintro (⟨rfl, rfl, rfl⟩ | wIsOpen)
  · exact isOpen
  · exact wIsOpen

/-- The search goes on to an upvalue. -/
def mayHave (S : UvState Thread TValue) (L : Thread) (slot : Nat) (p : UvRef) : Bool :=
  p ≠ 0 ∧ S.notBelow p L slot

/-- The search ends at an upvalue. -/
def has (S : UvState Thread TValue) (L : Thread) (slot : Nat) (p : UvRef) : Option Unit :=
  if (S.get p).v = .slot L slot then some () else none

/-- The search comes to an end: it finds the upvalue of the slot, or the place for a new one. -/
theorem finduv_cases (sound : Sound S lists ring) (L : Thread) (slot : Nat) (new : UvRef) :
    (∃ u, S.IsOpen L slot u ∧ S.func_finduv L slot new =
      if S.isdead (S.get u) then
        some (S.set u { S.get u with marked := (S.get u).marked ^^^ LJ_GC_WHITES }, u)
      else some (S, u)) ∨
    ∃ before after, lists L = before ++ after ∧
      (∀ w ∈ before, ∀ n, S.IsOpen L n w → slot < n) ∧
      (∀ w ∈ after, ∀ n, S.IsOpen L n w → n < slot) ∧
      S.func_finduv L slot new =
        if S.isFree new then some (S.insertuv L (lastLink none before) slot new, new)
        else none := by
  obtain ⟨found, result, splits⟩ : ∃ found,
      follow (S.links L) (S.mayHave L slot) (S.has L slot) (S.created + 1) none = some found ∧
        found.Splits (S.mayHave L slot) (S.has L slot) none (lists L) :=
    (sound.walk L).follow (by simp [mayHave]) (Nat.lt_succ_of_le (sound.bounded L))
  unfold mayHave has at result splits
  rw [func_finduv, result]
  cases found with
  | hit link u _ =>
      obtain ⟨before, after, split, -, -, -, here⟩ := splits
      obtain ⟨n, isOpen⟩ := (sound.listed L u).mp (by simp [split])
      have slotHere : (S.get u).v = .slot L slot := by
        by_contra other
        simp only [if_neg other] at here
        cases here
      rw [isOpen.get.2.2] at slotHere
      cases slotHere
      exact .inl ⟨u, isOpen, rfl⟩
  | ended link =>
      obtain ⟨before, after, split, rfl, passed, stop⟩ := splits
      refine .inr ⟨before, after, split, fun w member n isOpen => ?_, fun w member n isOpen => ?_, rfl⟩
      · obtain ⟨goesOn, other⟩ := passed w member
        have high := (notBelow_iff isOpen slot).mp (of_decide_eq_true goesOn).2
        have notHere : n ≠ slot := by
          rintro rfl
          simp [isOpen.get.2.2] at other
        omega
      · cases after with
        | nil => cases member
        | cons b after =>
            obtain ⟨m, bIsOpen⟩ := (sound.listed L b).mp (by simp [split])
            have notNull : b ≠ 0 := (sound.walk L).ne_null (by simp [split])
            have bLow : m < slot := by
              by_contra high
              have := (notBelow_iff bIsOpen slot).mpr (Nat.le_of_not_lt high)
              simp [notNull, this] at stop
            rcases List.mem_cons.mp member with rfl | member
            · rw [(isOpen.unique bIsOpen).2]
              exact bLow
            · have sorted := sound.sorted L
              rw [split, List.pairwise_append, List.pairwise_cons] at sorted
              have := sorted.2.1.1 w member m n bIsOpen isOpen
              omega

theorem finduv_spec (sound : Sound S lists ring) (result : S.func_finduv L slot new = some (S', u)) :
    (∃ lists' ring', Sound S' lists' ring') ∧ Opened S S' L slot u := by
  rcases finduv_cases sound L slot new with
    ⟨w, isOpen, found⟩ | ⟨before, after, split, above, below, created⟩
  · rw [found] at result
    split at result
    · rename_i dead
      cases result
      have isDead := isdead_iff.mp dead
      obtain ⟨sound', opened⟩ := sound.resurrect isOpen
        (Alive.flip sound.white (sound.oneWhite u _ isOpen.get.1) isDead)
      exact ⟨⟨lists, ring, sound'⟩, opened⟩
    · rename_i alive
      cases result
      exact ⟨⟨lists, ring, sound⟩, opened_self isOpen (Bool.eq_false_of_not_eq_true alive)⟩
  · rw [created] at result
    split at result
    · rename_i free
      cases result
      exact ⟨⟨_, _, sound.insert split free above below⟩, sound.opened_insert split free⟩
    · cases result

/-- It has a result when the allocator has. -/
theorem finduv_returns (sound : Sound S lists ring) (L : Thread) (slot : Nat)
    (free : S.isFree new = true) : ∃ S' u, S.func_finduv L slot new = some (S', u) := by
  rcases finduv_cases sound L slot new with ⟨w, isOpen, found⟩ | ⟨before, after, -, -, -, created⟩
  · rw [found]
    split <;> exact ⟨_, _, rfl⟩
  · exact ⟨_, _, created.trans (if_pos free)⟩

end

end UvState

end TvmJit
