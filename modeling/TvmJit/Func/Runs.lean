import TvmJit.Func.Captures
import TvmJit.Func.Close
import TvmJit.Func.Collect

/-! Runs of a program that creates closures, stores to variables and closes upvalues while the
collector works. -/

namespace TvmJit

open Foundation Function

section

variable (Thread TValue : Type)

inductive UvAct
  | newL (L : Thread) (base : Nat) (parent : FnRef) (pc : BitVec 32)
      (uv : List (BitVec 16 × UvRef)) (fn : FnRef)
  | newEmpty (pt pc : BitVec 32) (uv : List (BitVec 16 × UvRef)) (fn : FnRef)
  | closeuv (L : Thread) (level : Nat)
  | storeSlot (L : Thread) (n : Nat) (value : TValue)
  /-- A store through an upvalue of a closure. -/
  | storeuv (fn : FnRef) (i : Nat) (value : TValue)
  | sweepuv (L : Thread)
  | sweepclosed (u : UvRef)
  | recolour (marked : UvRef → BitVec 8) (currentwhite : BitVec 8) (marking : Bool)
      (reached : FnRef → Bool)

end

namespace UvState

variable {Thread TValue : Type} {S S' S'' : UvState Thread TValue} {L : Thread} {u w : UvRef}
  {lists : Thread → List UvRef} {ring : List UvRef} {act : UvAct Thread TValue}
  {acts later : List (UvAct Thread TValue)}

/-- The upvalue of a closure. -/
def uvptr (S : UvState Thread TValue) (fn : FnRef) (i : Nat) : Option UvRef :=
  (S.fn fn).bind fun fn => fn.uvptr[i]?

/-- No upvalue and no closure has been created yet. -/
structure Start (S : UvState Thread TValue) : Prop where
  uv : ∀ u, S.uv u = none
  fn : ∀ f, S.fn f = none
  openupval : ∀ L, S.openupval L = 0
  headPrev : S.headPrev = uvhead
  headNext : S.headNext = uvhead
  white : whites S.currentwhite = 1 ∨ whites S.currentwhite = 2

/-- The collector works as it should. -/
def Allowed (S : UvState Thread TValue) : UvAct Thread TValue → Prop
  | .recolour marked currentwhite _ reached => Recoloured S marked currentwhite reached
  | _ => True

section

variable [DecidableEq Thread] [Inhabited TValue]

def step (S : UvState Thread TValue) : UvAct Thread TValue → Option (UvState Thread TValue)
  | .newL L base parent pc uv fn =>
      match S.fn parent with
      | none => none
      | some parent => S.lj_func_newL_gc L base parent pc uv fn
  | .newEmpty pt pc uv fn => S.lj_func_newL_empty pt pc uv fn
  | .closeuv L level => S.lj_func_closeuv L level
  | .storeSlot L n value => some (S.storeSlot L n value)
  | .storeuv fn i value =>
      match S.uvptr fn i with
      | none => none
      | some u => some (S.storeuv u value)
  | .sweepuv L => S.gc_sweepuv L
  | .sweepclosed u => if (S.get u).closed then some (S.gc_sweepclosed u) else none
  | .recolour marked currentwhite marking reached =>
      some (S.recolour marked currentwhite marking reached)

/-- What a program has done from a state on, the latest first. -/
inductive Reaches (S : UvState Thread TValue) :
    List (UvAct Thread TValue) → UvState Thread TValue → Prop
  | start : Reaches S [] S
  | step {act : UvAct Thread TValue} {acts : List (UvAct Thread TValue)} {S' S'' : UvState Thread TValue}
      (before : Reaches S acts S') (allowed : S'.Allowed act) (step : S'.step act = some S'') :
      Reaches S (act :: acts) S''

/-- The slots that upvalues of closures have been captured for and that have not been closed
since. Inherited upvalues are those of the parent. -/
def captures : List (UvAct Thread TValue) → FnRef → Nat → Option (Thread × Nat)
  | [], _, _ => none
  | .newL L base parent _ uv fn :: acts, f, i =>
      if f = fn then
        match uv[i]? with
        | none => none
        | some (v, _) =>
            if v &&& PROTO_UV_LOCAL ≠ 0 then some (L, base + (v &&& 0xff).toNat)
            else captures acts parent v.toNat
      else captures acts f i
  | .newEmpty _ _ _ fn :: acts, f, i => if f = fn then none else captures acts f i
  | .closeuv L level :: acts, f, i =>
      (captures acts f i).filter fun slot => ¬(slot.1 = L ∧ level ≤ slot.2)
  | .storeSlot .. :: acts, f, i => captures acts f i
  | .storeuv .. :: acts, f, i => captures acts f i
  | .sweepuv _ :: acts, f, i => captures acts f i
  | .sweepclosed _ :: acts, f, i => captures acts f i
  | .recolour .. :: acts, f, i => captures acts f i

/-- There is neither a store through the upvalue, nor is it freed. -/
def Spared (S : UvState Thread TValue) (u : UvRef) : List (UvAct Thread TValue) → Prop
  | [] => True
  | act :: acts => Spared S u acts ∧ ∀ S' S'', Reaches S acts S' → S'.step act = some S'' →
      S''.uv u ≠ none ∧ ∀ fn i value, act = .storeuv fn i value → S'.uvptr fn i ≠ some u

/-! ## Steps -/

/-- Closures hold the upvalues of the slots they have captured. -/
def Holds (S : UvState Thread TValue) (captures : FnRef → Nat → Option (Thread × Nat)) : Prop :=
  ∀ f fn, S.fn f = some fn → ∀ i L n, captures f i = some (L, n) →
    ∃ u, fn.uvptr[i]? = some u ∧ S.IsOpen L n u

omit [DecidableEq Thread] [Inhabited TValue] in
theorem Holds.keeps {captured : FnRef → Nat → Option (Thread × Nat)} (holds : Holds S captured)
    (fn : ∀ f fn, S'.fn f = some fn → S.fn f = some fn)
    (opened : ∀ f fn, S'.fn f = some fn → ∀ u ∈ fn.uvptr, ∀ L n, S.IsOpen L n u → S'.IsOpen L n u) :
    Holds S' captured := by
  intro f fn' here i L n slot
  obtain ⟨u, field, isOpen⟩ := holds f fn' (fn f fn' here) i L n slot
  exact ⟨u, field, opened f fn' here u (List.mem_of_getElem? field) L n isOpen⟩

/-- What a step does to a sound state. -/
structure Stepped (S : UvState Thread TValue) (act : UvAct Thread TValue) (S' : UvState Thread TValue) :
    Prop where
  sound : ∃ lists ring, Sound S' lists ring
  holds : ∀ acts, Holds S (captures acts) → Holds S' (captures (act :: acts))
  closed : ∀ u p, S.uv u = some p → p.closed = true → (S'.uv u = none ∧ S.isdead p = true) ∨
    ∃ p', S'.uv u = some p' ∧ p'.closed = true ∧
      (p'.data = p.data ∨ ∃ f i value, act = .storeuv f i value ∧ S.uvptr f i = some u)

omit [Inhabited TValue] in
/-- The upvalues of a new closure hold the slots that they are captured for. -/
theorem captures_newL {base : Nat} {parent f : FnRef} {fn : GCfuncL} {pc : BitVec 32}
    {uv : List (BitVec 16 × UvRef)} {us : List UvRef} (holds : Holds S (captures acts))
    (isParent : S.fn parent = some fn) (grows : Grows S S')
    (captured : List.Forall₂ (fun v u => Captured S' L base fn v.1 u) uv us) :
    Holds { S' with fn := update S'.fn f (some ⟨pc, us⟩) }
      (captures (.newL L base parent pc uv f :: acts)) := by
  intro g gn here i L' n slot
  rw [captures] at slot
  change update S'.fn f _ g = some gn at here
  rw [update_apply] at here
  by_cases same : g = f
  · rw [if_pos same] at slot here
    cases here
    cases field : uv[i]? with
    | none => simp [field] at slot
    | some pair =>
        obtain ⟨v, new⟩ := pair
        obtain ⟨inUv, isV⟩ := List.getElem?_eq_some_iff.mp field
        have inUs : i < us.length := captured.length_eq ▸ inUv
        have captured := captured.get inUv inUs
        have here : uv.get ⟨i, inUv⟩ = (v, new) := isV
        rw [here] at captured
        obtain ⟨u, isU⟩ : ∃ u, us.get ⟨i, inUs⟩ = u := ⟨_, rfl⟩
        rw [isU] at captured
        refine ⟨u, List.getElem?_eq_some_iff.mpr ⟨inUs, isU⟩, ?_⟩
        simp only [field] at slot
        rw [Captured] at captured
        split at captured
        · rename_i isLocal
          rw [if_pos isLocal] at slot
          cases slot
          exact captured
        · rename_i inherited
          rw [if_neg inherited] at slot
          obtain ⟨w, field'', isOpen⟩ := holds parent fn isParent _ L' n slot
          obtain rfl := Option.some.inj (captured.symm.trans field'')
          exact grows.opened L' n u isOpen
  · rw [if_neg same] at slot here
    rw [grows.fn] at here
    obtain ⟨u, field, isOpen⟩ := holds g gn here i L' n slot
    exact ⟨u, field, grows.opened L' n u isOpen⟩

omit [DecidableEq Thread] [Inhabited TValue] in
theorem Sound.alive (sound : Sound S lists ring) {f : FnRef} {fn : GCfuncL} (here : S.fn f = some fn)
    (member : u ∈ fn.uvptr) : S.IsAlive u :=
  sound.held f fn here u member

theorem stepped_newL {base : Nat} {parent f : FnRef} {pc : BitVec 32} {uv : List (BitVec 16 × UvRef)}
    (sound : Sound S lists ring) (step : S.step (.newL L base parent pc uv f) = some S') :
    Stepped S (.newL L base parent pc uv f) S' := by
  rw [UvState.step] at step
  cases isParent : S.fn parent with
  | none => simp [isParent] at step
  | some fn =>
      simp only [isParent] at step
      obtain ⟨sound', T, us, grows, rfl, captured⟩ :=
        newL_gc_spec sound (fun w member => sound.alive isParent member) step
      exact ⟨sound', fun acts holds => captures_newL holds isParent grows captured,
        fun u p here closed => .inr ⟨p, grows.closed u p here closed, closed, .inl rfl⟩⟩

theorem stepped_newEmpty {pt pc : BitVec 32} {uv : List (BitVec 16 × UvRef)} {f : FnRef}
    (sound : Sound S lists ring) (step : S.step (.newEmpty pt pc uv f) = some S') :
    Stepped S (.newEmpty pt pc uv f) S' := by
  obtain ⟨sound', T, us, grows, rfl⟩ := newL_empty_spec sound step
  refine ⟨⟨lists, ring, sound'⟩, fun acts holds g gn here i L n slot => ?_,
    fun u p here closed => .inr ⟨p, grows.closed u p here closed, closed, .inl rfl⟩⟩
  rw [captures] at slot
  change update T.fn f _ g = some gn at here
  rw [update_apply] at here
  split at slot
  · cases slot
  · rw [if_neg ‹_›, grows.fn] at here
    obtain ⟨u, field, isOpen⟩ := holds g gn here i L n slot
    exact ⟨u, field, grows.opened L n u isOpen⟩

theorem stepped_closeuv {level : Nat} (sound : Sound S lists ring)
    (step : S.step (.closeuv L level) = some S') : Stepped S (.closeuv L level) S' := by
  obtain ⟨T, lists', ring', result, sound', closed⟩ := closeuv_spec sound L level
  obtain rfl := Option.some.inj (result.symm.trans step)
  refine ⟨⟨lists', ring', sound'⟩, fun acts holds f fn here i L' n slot => ?_,
    fun u p here isClosed => .inr ⟨p, ?_, isClosed, .inl rfl⟩⟩
  · rw [captures, Option.filter_eq_some_iff] at slot
    rw [closed.fn] at here
    obtain ⟨u, field, isOpen⟩ := holds f fn here i L' n slot.1
    have stays := slot.2
    simp only [decide_not, Bool.not_eq_eq_eq_not, Bool.not_true, decide_eq_false_iff_not] at stays
    refine ⟨u, field, (closed.opened L' n u).mpr ⟨isOpen, fun same => ?_⟩⟩
    exact Nat.lt_of_not_le fun high => stays ⟨same, high⟩
  · have core := closed.others u fun n isOpen => by
      have notClosed := isOpen.get.2.1
      rw [get_eq here, isClosed] at notClosed
      cases notClosed
    rw [here, Option.map_some] at core
    obtain ⟨p', there, same⟩ := Option.map_eq_some_iff.mp core
    rw [there, core_eq_of_closed same.symm isClosed]

omit [Inhabited TValue] in
theorem stepped_swept (sound : Sound S lists ring) (sound' : ∃ lists ring, Sound S' lists ring)
    (swept : Swept S S') (same : ∀ acts, captures (act :: acts) = captures acts) :
    Stepped S act S' := by
  refine ⟨sound', fun acts holds => ?_, fun u p here closed => ?_⟩
  · rw [same]
    refine holds.keeps (fun f fn here => swept.fn ▸ here) fun f fn here u member L n isOpen => ?_
    rw [swept.fn] at here
    obtain ⟨p, there, alive⟩ := sound.held f fn here u member
    exact swept.opened L n u isOpen (by rw [get_eq there, alive])
  · rcases swept.closed u p here closed with freed | ⟨p', there, closed', data⟩
    · exact .inl freed
    · exact .inr ⟨p', there, closed', .inl data⟩

omit [Inhabited TValue] in
theorem stepped_storeuv {f : FnRef} {i : Nat} {value : TValue} (sound : Sound S lists ring)
    (field : S.uvptr f i = some u) (store : S.storeuv u value = S') :
    Stepped S (.storeuv f i value) S' := by
  obtain ⟨fn, here, field'⟩ := Option.bind_eq_some_iff.mp field
  obtain ⟨p, isU, -⟩ := sound.held f fn here u (List.mem_of_getElem? field')
  obtain ⟨sound', still⟩ := sound.storeuv isU value
  rw [store] at sound' still
  rcases storeuv_cases sound isU value with ⟨L, n, -, same⟩ | ⟨closed, same⟩ <;>
    rw [store] at same <;> subst same
  · exact ⟨⟨lists, ring, sound'⟩, fun acts holds => holds.keeps (fun _ _ => id) fun _ _ _ _ _ _ _ => id,
      fun w q there closed => .inr ⟨q, there, closed, .inl rfl⟩⟩
  · refine ⟨⟨lists, ring, sound'⟩, fun acts holds => holds.keeps (fun _ _ => id)
      fun _ _ _ w _ L n => (still L n w).mpr, fun w q there closed' => .inr ?_⟩
    rw [uv_set]
    split
    · rename_i same
      exact ⟨_, rfl, closed, .inr ⟨f, i, value, rfl, by rw [same, field]⟩⟩
    · exact ⟨q, there, closed', .inl rfl⟩

omit [DecidableEq Thread] [Inhabited TValue] in
theorem uv_of_closed (closed : (S.get u).closed = true) : S.uv u = some (S.get u) := by
  rw [get] at closed ⊢
  cases here : S.uv u with
  | none => simp [here] at closed
  | some p => rfl

/-- The step lemma. -/
theorem stepped (sound : Sound S lists ring) (allowed : S.Allowed act)
    (step : S.step act = some S') : Stepped S act S' := by
  cases act with
  | newL L base parent pc uv fn => exact stepped_newL sound step
  | newEmpty pt pc uv fn => exact stepped_newEmpty sound step
  | closeuv L level => exact stepped_closeuv sound step
  | storeSlot L n value =>
      cases step
      exact ⟨⟨lists, ring, sound.storeSlot L n value⟩,
        fun acts holds => holds.keeps (fun _ _ => id) fun _ _ _ _ _ _ _ => id,
        fun u p here closed => .inr ⟨p, here, closed, .inl rfl⟩⟩
  | storeuv f i value =>
      rw [UvState.step] at step
      cases field : S.uvptr f i with
      | none => simp [field] at step
      | some u =>
          simp only [field, Option.some.injEq] at step
          exact stepped_storeuv sound field step
  | sweepuv L =>
      obtain ⟨T, lists', ring', result, sound', swept⟩ := sweepuv_spec sound L
      obtain rfl := Option.some.inj (result.symm.trans step)
      exact stepped_swept sound ⟨lists', ring', sound'⟩ swept fun _ => rfl
  | sweepclosed u =>
      rw [UvState.step] at step
      split at step
      · rename_i closed
        cases step
        have here := uv_of_closed closed
        obtain ⟨sound', swept⟩ := sweepclosed_spec sound here closed
        exact stepped_swept sound ⟨lists, ring, sound'⟩ swept fun _ => rfl
      · cases step
  | recolour marked currentwhite marking reached =>
      cases step
      obtain ⟨sound', still⟩ := sound.recolour allowed marking
      refine ⟨⟨lists, ring, sound'⟩, fun acts holds => ?_, fun u p here closed => .inr ?_⟩
      · refine holds.keeps (fun f fn here => ?_) fun f fn _ u _ L n => (still L n u).mpr
        change (if reached f then S.fn f else none) = some fn at here
        split at here
        · exact here
        · cases here
      · refine ⟨{ p with marked := marked u }, ?_, closed, .inl rfl⟩
        change (S.uv u).map _ = _
        rw [here]
        rfl

/-! ## Runs -/

omit [DecidableEq Thread] [Inhabited TValue] in
theorem Start.sound (start : Start S) : Sound S (fun _ => []) [] where
  null := start.uv 0
  head := start.uv uvhead
  formed u p here := by
    rw [start.uv] at here
    cases here
  walk L := start.openupval L
  sorted L := List.Pairwise.nil
  listed L u := by
    refine ⟨nofun, ?_⟩
    rintro ⟨n, p, here, -⟩
    rw [start.uv] at here
    cases here
  isRing := ⟨start.headNext, start.headPrev⟩
  inRing u := by
    refine ⟨nofun, ?_⟩
    rintro ⟨L, n, p, here, -⟩
    rw [start.uv] at here
    cases here
  bounded L := Nat.zero_le _
  white := start.white
  oneWhite u p here := by
    rw [start.uv] at here
    cases here
  held f fn here := by
    rw [start.fn] at here
    cases here

/-- The run lemma. -/
theorem Reaches.sound (reaches : Reaches S acts S') (sound : Sound S lists ring) :
    ∃ lists' ring', Sound S' lists' ring' := by
  induction reaches with
  | start => exact ⟨lists, ring, sound⟩
  | step before allowed step induction =>
      obtain ⟨lists', ring', sound'⟩ := induction
      exact (stepped sound' allowed step).sound

theorem Reaches.holds (reaches : Reaches S acts S') (start : Start S) : Holds S' (captures acts) := by
  induction reaches with
  | start => exact fun f fn here => absurd ((start.fn f).symm.trans here) (by simp)
  | step before allowed step induction =>
      obtain ⟨lists', ring', sound'⟩ := before.sound start.sound
      exact (stepped sound' allowed step).holds _ induction

/-- A closed upvalue is the same after a run that spares it. -/
theorem Reaches.closed (reaches : Reaches S acts S') (sound : Sound S lists ring)
    {p : GCupval Thread TValue} (here : S.uv u = some p) (closed : p.closed = true)
    (spared : Spared S u acts) :
    ∃ p', S'.uv u = some p' ∧ p'.closed = true ∧ p'.v = .own ∧ p'.data = p.data := by
  induction reaches with
  | start => exact ⟨p, here, closed, ((sound.formed u p here).1 closed).1, rfl⟩
  | step before allowed step induction =>
      obtain ⟨p', here', closed', -, data⟩ := induction spared.1
      obtain ⟨kept, notStored⟩ := spared.2 _ _ before step
      obtain ⟨lists', ring', sound'⟩ := before.sound sound
      have stepped := stepped sound' allowed step
      obtain ⟨lists'', ring'', sound''⟩ := stepped.sound
      rcases stepped.closed u p' here' closed' with ⟨freed, -⟩ | ⟨p'', here'', closed'', same⟩
      · exact absurd freed kept
      · refine ⟨p'', here'', closed'', ((sound''.formed u p'' here'').1 closed'').1, ?_⟩
        rcases same with same | ⟨f, i, value, isStore, field⟩
        · exact same.trans data
        · exact absurd field (notStored f i value isStore)

/-- In every run: the list of each thread has exactly its open upvalues, with strictly decreasing
slots. Closures that have captured a slot that has not been closed since hold the same upvalue.
Closing comes to an end and closes exactly the upvalues from the level on, with the values of their
slots. A closed upvalue keeps its value until it is stored to or freed. Upvalues of closures are
not dead. -/
theorem open_upvalues {S₀ : UvState Thread TValue} (start : Start S₀) (reaches : Reaches S₀ acts S) :
    (∀ L, ∃ list, Walk (S.links L) 0 none list ∧
      (list.Pairwise fun a b => ∀ m n, S.IsOpen L m a → S.IsOpen L n b → n < m) ∧
      ∀ u, u ∈ list ↔ ∃ n, S.IsOpen L n u) ∧
    (∀ f g i j L n, S.fn f ≠ none → S.fn g ≠ none →
      captures acts f i = some (L, n) → captures acts g j = some (L, n) →
      ∃ u, S.uvptr f i = some u ∧ S.uvptr g j = some u ∧ S.IsOpen L n u) ∧
    (∀ L level, ∃ S', S.lj_func_closeuv L level = some S' ∧ Closed S S' L level) ∧
    (∀ later S' u p, Reaches S later S' → S.uv u = some p → p.closed = true → Spared S u later →
      ∃ p', S'.uv u = some p' ∧ p'.closed = true ∧ p'.v = .own ∧ p'.data = p.data) ∧
    ∀ f i u, S.uvptr f i = some u → S.IsAlive u := by
  obtain ⟨lists, ring, sound⟩ := reaches.sound start.sound
  have holds := reaches.holds start
  refine ⟨fun L => ⟨lists L, sound.walk L, sound.sorted L, sound.listed L⟩,
    fun f g i j L n isF isG captureF captureG => ?_, fun L level => ?_,
    fun later S' u p reaches here closed spared => reaches.closed sound here closed spared,
    fun f i u field => ?_⟩
  · obtain ⟨fn, isF⟩ := Option.ne_none_iff_exists'.mp isF
    obtain ⟨gn, isG⟩ := Option.ne_none_iff_exists'.mp isG
    obtain ⟨u, fieldF, openF⟩ := holds f fn isF i L n captureF
    obtain ⟨w, fieldG, openG⟩ := holds g gn isG j L n captureG
    obtain rfl := sound.same openF openG
    exact ⟨u, by rw [uvptr, isF, Option.bind_some, fieldF],
      by rw [uvptr, isG, Option.bind_some, fieldG], openF⟩
  · obtain ⟨S', lists', ring', result, -, closed⟩ := closeuv_spec sound L level
    exact ⟨S', result, closed⟩
  · obtain ⟨fn, here, field⟩ := Option.bind_eq_some_iff.mp field
    exact sound.held f fn here u (List.mem_of_getElem? field)

end

/-- Nothing has been created yet, and every slot holds its own number. -/
def atStart : UvState Unit Nat :=
  ⟨fun _ => none, fun _ => none, fun _ => 0, uvhead, uvhead, fun _ n => n, 0, 0x21, false, 0⟩

/-- A main function creates a function that captures slot 3, one that captures slots 5 and 3, and
closes the slots from 4 on. -/
def twoCaptures : List (UvAct Unit Nat) :=
  [.closeuv () 4, .newL () 2 1 0 [(0x8003, 101), (0x8001, 102)] 3, .newL () 2 1 0 [(0x8001, 100)] 2,
    .newEmpty 0 0 [] 1]

theorem open_upvalues_twoCaptures : ∃ S, Reaches atStart twoCaptures S ∧
    ∃ u, S.uvptr 2 0 = some u ∧ S.uvptr 3 1 = some u ∧ S.IsOpen () 3 u := by
  have start : Start atStart :=
    ⟨fun _ => rfl, fun _ => rfl, fun _ => rfl, rfl, rfl, .inl (by decide)⟩
  have reaches : ∃ S, Reaches atStart twoCaptures S ∧ S.fn 2 ≠ none ∧ S.fn 3 ≠ none :=
    ⟨_, .step (.step (.step (.step .start trivial rfl) trivial rfl) trivial rfl) trivial rfl,
      by decide, by decide⟩
  obtain ⟨S, reaches, two, three⟩ := reaches
  exact ⟨S, reaches, (open_upvalues start reaches).2.1 2 3 0 1 () 3 two three rfl rfl⟩

end UvState

end TvmJit
