import TvmJit.Tab.Failing
import TvmJit.Tab.Lacking

/-! What a table holds when storing a key or resizing fails. -/

namespace TvmJit.Tab

open Foundation Function

/-! ## Setters -/

namespace TabM

variable [StrHash] {s : TabState} {k : TValue} {nk : TValue → TabM TabSlot}

section

variable {good : TabSlot → TabState → Prop} {bad : ResizeError → TabState → Prop}

/-- What `findOrNew` does with the node that the search returns. -/
def nodeOrNew (nk : TValue → TabM TabSlot) (k : TValue) : Option Nat → TabM TabSlot
  | some n => return .node n
  | none => nk k

theorem findOrNew_runs (wf : s.t.Wf) (hashed : s.t.Hashed k) {search : TValue → Bool}
    (finds : ∀ k', k'.IsKey → (search k' = true ↔ k' = k)) (notNil : search .nil = false)
    (found : ∀ slot, s.t.Entry k slot → good slot s)
    (new : s.t.Hashed k → (∀ i, (s.t.node i).key ≠ k) → Finishes good bad (nk k) s) :
    Finishes good bad (findOrNew nk search (s.t.hashkey k) k) s := by
  change Finishes good bad (lift .value (s.t.findNode search (s.t.hashkey k)) >>= nodeOrNew nk k) s
  rcases wf.findNode hashed.1 finds notNil with ⟨i, result, entry⟩ | ⟨result, absent⟩
  · rw [result]
    exact found _ entry
  · rw [result]
    exact new hashed absent

theorem setinth_runs (wf : s.t.Wf) {key : Int} (low : -2147483648 ≤ key) (high : key < 2147483648)
    (outside : s.t.inarray key = false)
    (found : ∀ slot, s.t.Entry (.num (.ofInt key)) slot → good slot s)
    (new : s.t.Hashed (.num (.ofInt key)) → (∀ i, (s.t.node i).key ≠ .num (.ofInt key)) →
      Finishes good bad (nk (.num (.ofInt key))) s) :
    Finishes good bad (setinth nk key) s := by
  have isKey : (TValue.num (.ofInt key)).IsKey := isKey_ofInt (by omega)
  have hashed : s.t.Hashed (.num (.ofInt key)) := ⟨isKey, (GCtab.arrayKey_ofInt low high).trans outside⟩
  exact findOrNew_runs wf hashed (fun k' isKey' => isNumKey_iff isKey' isKey) rfl found new

theorem setgen_runs (wf : s.t.Wf) (hashed : s.t.Hashed k) (found : ∀ slot, s.t.Entry k slot → good slot s)
    (new : s.t.Hashed k → (∀ i, (s.t.node i).key ≠ k) → Finishes good bad (nk k) s) :
    Finishes good bad (setgen nk k) s := by
  have notNil : ljObjEqual .nil k = false := by
    cases k with
    | nil => exact hashed.1.elim
    | _ => rfl
  exact findOrNew_runs wf hashed (fun k' isKey' => ljObjEqual_iff isKey' hashed.1) notNil found new

/-- A key as it is stored. -/
theorem set_runs (wf : s.t.Wf) (isKey : k.IsKey) (found : ∀ slot, s.t.Entry k slot → good slot s)
    (new : s.t.Hashed k → (∀ i, (s.t.node i).key ≠ k) → Finishes good bad (nk k) s) :
    Finishes good bad (set nk k) s := by
  cases k with
  | nil => exact isKey.elim
  | bool b => exact setgen_runs wf ⟨trivial, rfl⟩ found new
  | gcref it ref => exact setgen_runs wf ⟨trivial, rfl⟩ found new
  | str x =>
      have hashed : s.t.Hashed (.str x) := ⟨trivial, rfl⟩
      exact findOrNew_runs wf hashed (fun _ _ => beq_iff_eq) rfl found new
  | num n =>
      change Finishes good bad (if n.eq (.ofInt n.num2int) then setint nk n.num2int
        else if n.isNan then throw (.broken .nanidx) else setgen nk (.num n)) s
      apply Finishes.ite
      · intro equal
        have range := n.num2int_range
        rw [← isKey.stored, stored_of_eq equal] at found new
        change Finishes good bad (if s.t.inarray n.num2int then pure (.array n.num2int.toNat)
          else setinth nk n.num2int) s
        apply Finishes.ite
        · intro inside
          obtain ⟨positive, bound⟩ := GCtab.inarray_iff.mp inside
          refine found (.array n.num2int.toNat) ⟨by omega, ?_⟩
          rw [Int.toNat_of_nonneg positive]
        · exact fun outside => setinth_runs wf range.1 range.2 (by simpa using outside) found new
      · intro different
        rw [isKey.1, if_neg Bool.false_ne_true]
        refine setgen_runs wf ⟨isKey, ?_⟩ found new
        rw [GCtab.arrayKey, Bool.eq_false_iff.mpr different, Bool.false_and]

end

end TabM

/-! ## Resizing -/

/-- The array does not grow. -/
def TabState.GrowFails (fails : Nat → Bool) (s : TabState) (asize : Nat) : Prop :=
  s.t.asize < asize ∧ (maxAsize < asize ∨ fails s.allocs = true)

/-- There is no new hash part. -/
def TabState.HashFails (fails : Nat → Bool) (s : TabState) (asize hbits : Nat) : Prop :=
  maxHbits < hbits ∨ hbits ≠ 0 ∧ fails (if s.t.asize < asize then s.allocs + 1 else s.allocs) = true

/-- The table that an error raised at a point leaves behind. -/
def TabState.FailedAt [StrHash] (fails : Nat → Bool) (s : TabState) (asize hbits : Nat) (u : GCtab) :
    ResizePoint → Prop
  | .array => s.GrowFails fails asize ∧ u = s.t
  | .hash => ¬s.GrowFails fails asize ∧ s.HashFails fails asize hbits ∧ s.t.growArray asize = .ok u
  | .shrink => ¬s.GrowFails fails asize ∧ ¬s.HashFails fails asize hbits ∧
      ∃ base, GCtab.Fresh s.t asize hbits base ∧ GCtab.Lacking s.t base s.t.nodePairs u
  | _ => ¬s.GrowFails fails asize ∧ ¬s.HashFails fails asize hbits ∧ GCtab.Loses s.t u

namespace TabM

variable [StrHash] {s : TabState} {fails : Nat → Bool} {nk : TValue → TabM TabSlot}

/-- Errors raised at such a point leave such a table behind. -/
def RaisesAs (failed : GCtab → ResizePoint → Prop) (e : ResizeError) (s : TabState) : Prop :=
  ∀ point r, e = .raised point r → failed s.t point

/-- What is asked of the function that stores new keys. -/
def StoresNew (nk : TValue → TabM TabSlot) : Prop :=
  ∀ s k, s.t.Wf → s.t.Limited → s.t.Hashed k → (∀ i, (s.t.node i).key ≠ k) →
    Finishes (fun slot s' => GCtab.Adds s.t k slot s'.t ∧ s'.t.Limited)
      (RaisesAs fun u _ => GCtab.Leaves s.t u) (nk k) s

omit [StrHash] in
theorem RaisesAs.mono {failed failed' : GCtab → ResizePoint → Prop} {e : ResizeError}
    (raises : RaisesAs failed e s) (more : ∀ u point, failed u point → failed' u point) : RaisesAs failed' e s :=
  fun point r same => more _ _ (raises point r same)

omit [StrHash] in
theorem put_runs {good : Unit → TabState → Prop} {bad : ResizeError → TabState → Prop} {u : GCtab}
    (holds : good () { s with t := u }) : Finishes good bad (put u) s := holds

omit [StrHash] in
theorem lift_runs {α : Type} (point : ResizePoint) (r : Except TabError α) :
    Finishes (fun a s' => r = .ok a ∧ s = s')
      (RaisesAs fun u point' => u = s.t ∧ point' = point ∧ r = .error .tabov) (lift point r) s := by
  cases r with
  | ok a => exact ⟨rfl, rfl⟩
  | error e =>
      cases e with
      | tabov =>
          rintro _ _ same
          cases same
          exact ⟨rfl, rfl, rfl⟩
      | _ => exact fun _ _ same => nomatch same

omit [StrHash] in
theorem realloc_runs (point : ResizePoint) :
    Finishes (fun _ s' => s'.t = s.t ∧ s'.allocs = s.allocs + 1 ∧ fails s.allocs = false)
      (RaisesAs fun u point' => u = s.t ∧ point' = point ∧ fails s.allocs = true) (realloc fails point) s := by
  cases fail : fails s.allocs with
  | true =>
      have run : realloc fails point s = .error (.raised point .errmem) { s with allocs := s.allocs + 1 } :=
        if_pos fail
      apply Finishes.of_error run
      rintro _ _ same
      cases same
      exact ⟨rfl, rfl, rfl⟩
  | false =>
      have run : realloc fails point s = .ok () { s with allocs := s.allocs + 1 } := if_neg (by simp [fail])
      exact Finishes.of_ok run ⟨rfl, rfl, rfl⟩

omit [StrHash] in
theorem within_runs {α : Type} {point : ResizePoint} {x : TabM α} {good : α → TabState → Prop}
    {failed : GCtab → Prop} (runs : Finishes good (RaisesAs fun u _ => failed u) x s) :
    Finishes good (RaisesAs fun u point' => failed u ∧ point' = point) (within point x) s := by
  cases run : x s with
  | ok a s' =>
      have same : within point x s = .ok a s' := by rw [within, run]
      rw [Finishes, run] at runs
      exact Finishes.of_ok same runs
  | error e s' =>
      have left := runs.left run
      cases e with
      | raised point' r =>
          have same : within point x s = .error (.raised point r) s' := by rw [within, run]
          apply Finishes.of_error same
          rintro _ _ isError
          cases isError
          exact ⟨left point' r rfl, rfl⟩
      | broken e =>
          have same : within point x s = .error (.broken e) s' := by rw [within, run]
          exact Finishes.of_error same fun _ _ isError => by cases isError

theorem growArray_runs (wf : s.t.Wf) (asize : Nat) :
    Finishes (fun _ s' => ¬s.GrowFails fails asize ∧ s.t.growArray asize = .ok s'.t ∧
        s'.allocs = if s.t.asize < asize then s.allocs + 1 else s.allocs)
      (RaisesAs fun u point => point = .array ∧ s.GrowFails fails asize ∧ u = s.t)
      (growArray fails asize) s := by
  let tooLarge : TabError → Prop := fun _ => maxAsize < asize
  have tabov : maxAsize < asize → tooLarge .tabov := id
  have ends := GCtab.growArray_ends wf tabov
  change Finishes _ _ (lift .array (s.t.growArray asize) >>= fun grown =>
    if asize > s.t.asize then realloc fails .array >>= fun _ => put grown else put grown) s
  have first : Finishes (fun grown s' => s.t.growArray asize = .ok grown ∧ s = s')
      (RaisesAs fun u point => point = .array ∧ s.GrowFails fails asize ∧ u = s.t)
      (lift .array (s.t.growArray asize)) s := by
    refine (lift_runs .array _).mono (fun _ _ grew => grew) fun e s' raises => raises.mono ?_
    rintro u point ⟨rfl, rfl, isError⟩
    rw [isError] at ends
    have large : maxAsize < asize := ends
    have small := wf.small
    exact ⟨rfl, ⟨by omega, .inl large⟩, rfl⟩
  apply first.bind
  rintro grown _ ⟨grew, rfl⟩
  obtain ⟨isMax, small, -⟩ := ends.value grew
  apply Finishes.ite
  · intro grows
    have allocates := @realloc_runs s fails .array
    refine Finishes.bind (allocates.mono (fun _ _ after => after) fun e s' raises => raises.mono ?_) ?_
    · rintro u point ⟨rfl, rfl, fail⟩
      exact ⟨rfl, ⟨grows, .inr fail⟩, rfl⟩
    · rintro _ s' ⟨-, allocs, works⟩
      refine put_runs ⟨?_, grew, allocs.trans (if_pos grows).symm⟩
      rintro ⟨-, large | fail⟩
      · omega
      · rw [works] at fail
        cases fail
  · intro notGrows
    exact put_runs ⟨fun failing => notGrows failing.1, grew, (if_neg notGrows).symm⟩

omit [StrHash] in
theorem newhash_runs (hbits : Nat) :
    Finishes (fun _ s' => ¬(maxHbits < hbits ∨ hbits ≠ 0 ∧ fails s.allocs = true) ∧ s.t.newhash hbits = .ok s'.t)
      (RaisesAs fun u point => point = .hash ∧ (maxHbits < hbits ∨ hbits ≠ 0 ∧ fails s.allocs = true) ∧ u = s.t)
      (newhash fails hbits) s := by
  let tooLarge : TabError → Prop := fun _ => maxHbits < hbits
  have ends := @GCtab.newhash_ends s.t tooLarge hbits id
  change Finishes _ _ (lift .hash (s.t.newhash hbits) >>= fun emptied =>
    if hbits ≠ 0 then realloc fails .hash >>= fun _ => put emptied else put emptied) s
  have first : Finishes (fun emptied s' => s.t.newhash hbits = .ok emptied ∧ s = s')
      (RaisesAs fun u point => point = .hash ∧ (maxHbits < hbits ∨ hbits ≠ 0 ∧ fails s.allocs = true) ∧ u = s.t)
      (lift .hash (s.t.newhash hbits)) s := by
    refine (lift_runs .hash _).mono (fun _ _ emptied => emptied) fun e s' raises => raises.mono ?_
    rintro u point ⟨rfl, rfl, isError⟩
    rw [isError] at ends
    exact ⟨rfl, .inl ends, rfl⟩
  apply first.bind
  rintro emptied _ ⟨isEmptied, rfl⟩
  have small : ¬maxHbits < hbits := by
    intro large
    have some : hbits ≠ 0 := by omega
    rw [GCtab.newhash, if_pos some, GCtab.newhpart, if_pos large] at isEmptied
    cases isEmptied
  apply Finishes.ite
  · intro some
    have allocates := @realloc_runs s fails .hash
    refine Finishes.bind (allocates.mono (fun _ _ after => after) fun e s' raises => raises.mono ?_) ?_
    · rintro u point ⟨rfl, rfl, fail⟩
      exact ⟨rfl, .inr ⟨some, fail⟩, rfl⟩
    · rintro _ s' ⟨-, -, works⟩
      refine put_runs ⟨?_, isEmptied⟩
      rintro (large | ⟨-, fail⟩)
      · exact small large
      · rw [works] at fail
        cases fail
  · intro none
    exact put_runs ⟨fun failing => failing.elim small fun both => none both.1, isEmptied⟩

section

variable {t base : GCtab} {pairs : List (TValue × TValue)}

/-- A round of the loop over the array values that have lost their places. -/
theorem reinsertArray_runs (new : StoresNew nk) (wf : t.Wf) {array : Nat → TValue} {i : Nat} {rest : List Nat}
    (outside : base.asize ≤ i) (small : i < maxAsize)
    (lacking : GCtab.Lacking t base ((i :: rest).filterMap (GCtab.indexPair array) ++ pairs) s.t) :
    Finishes (fun _ s' => GCtab.Lacking t base (rest.filterMap (GCtab.indexPair array) ++ pairs) s'.t)
      (RaisesAs fun u point => GCtab.Loses t u ∧ point = .value) (reinsertArray nk base.block array i) s := by
  change Finishes _ _ (if s.t.block ≠ base.block then throw (.broken .staleArray)
    else if array i = .nil then pure ()
    else within .value (setinth nk i) >>= fun slot => table >>= fun u =>
      if u.block ≠ base.block then throw (.broken .staleArray) else put (u.store slot (array i))) s
  apply Finishes.ite
  · exact fun _ => Finishes.throw fun _ _ same => nomatch same
  · intro current
    apply Finishes.ite
    · intro isNil
      have noPair : GCtab.indexPair array i = none := if_pos isNil
      rw [List.filterMap_cons_none noPair] at lacking
      exact lacking
    · intro notNil
      have isPair : GCtab.indexPair array i = some (.num (.ofInt i), array i) := if_neg notNil
      rw [List.filterMap_cons_some isPair, List.cons_append] at lacking
      have limit : maxAsize < 2147483648 := by decide
      have notIn : s.t.inarray i = false := by
        rw [Bool.eq_false_iff, ne_eq, GCtab.inarray_iff]
        have bound := lacking.asize (not_not.mp current)
        omega
      have stores : Finishes (fun slot s' => GCtab.Adds s.t (.num (.ofInt i)) slot s'.t ∧ s'.t.Limited)
          (RaisesAs fun u _ => GCtab.Leaves s.t u) (setinth nk i) s :=
        setinth_runs lacking.wf (by omega) (by omega) notIn
          (fun _ entry => ⟨⟨.refl lacking.wf, entry⟩, lacking.limited⟩)
          (new s _ lacking.wf lacking.limited)
      refine Finishes.bind ((within_runs stores).mono (fun _ _ after => after) fun e s' raises => raises.mono ?_) ?_
      · rintro u point ⟨leaves, rfl⟩
        exact ⟨lacking.loses wf leaves, rfl⟩
      · rintro slot s' ⟨adds, limited⟩
        change Finishes _ _ (if s'.t.block ≠ base.block then throw (.broken .staleArray)
          else put (s'.t.store slot (array i))) s'
        apply Finishes.ite
        · exact fun _ => Finishes.throw fun _ _ same => nomatch same
        · exact fun _ => put_runs (lacking.store adds limited)

/-- A round of the loop over the nodes. -/
theorem reinsertNode_runs (new : StoresNew nk) (wf : t.Wf) {n : TabNode} {rest : List TabNode}
    (isKey : n.val ≠ .nil → n.key.IsKey)
    (lacking : GCtab.Lacking t base ((n :: rest).filterMap GCtab.nodePair) s.t) :
    Finishes (fun _ s' => GCtab.Lacking t base (rest.filterMap GCtab.nodePair) s'.t)
      (RaisesAs fun u point => GCtab.Loses t u ∧ point = .pair) (reinsertNode nk n) s := by
  apply Finishes.ite
  · intro isNil
    have noPair : GCtab.nodePair n = none := if_pos isNil
    rw [List.filterMap_cons_none noPair] at lacking
    exact lacking
  · intro notNil
    have isPair : GCtab.nodePair n = some (n.key, n.val) := if_neg notNil
    rw [List.filterMap_cons_some isPair] at lacking
    have stores : Finishes (fun slot s' => GCtab.Adds s.t n.key slot s'.t ∧ s'.t.Limited)
        (RaisesAs fun u _ => GCtab.Leaves s.t u) (set nk n.key) s :=
      set_runs lacking.wf (isKey notNil) (fun _ entry => ⟨⟨.refl lacking.wf, entry⟩, lacking.limited⟩)
        (new s _ lacking.wf lacking.limited)
    refine Finishes.bind ((within_runs stores).mono (fun _ _ after => after) fun e s' raises => raises.mono ?_) ?_
    · rintro u point ⟨leaves, rfl⟩
      exact ⟨lacking.loses wf leaves, rfl⟩
    · rintro slot s' ⟨adds, limited⟩
      exact lacking.store adds limited

theorem shrinkArray_runs (new : StoresNew nk) (wf : t.Wf) {oldasize asize : Nat} (small : oldasize ≤ maxAsize)
    (isMax : s.t.asize = max oldasize asize)
    (lacking : GCtab.Lacking t { s.t with asize := asize }
      ((List.range' asize (oldasize - asize)).filterMap (GCtab.indexPair s.t.array) ++ pairs)
      { s.t with asize := asize }) :
    Finishes (fun _ s' => GCtab.Lacking t { s.t with asize := asize } pairs s'.t)
      (RaisesAs fun u point => GCtab.Loses t u ∧ point = .value ∨
        GCtab.Lacking t { s.t with asize := asize } pairs u ∧ point = .shrink)
      (shrinkArray fails nk oldasize asize) s := by
  let base : GCtab := { s.t with asize := asize }
  apply Finishes.ite
  · intro shrinks
    change Finishes _ _ (put base >>= fun _ =>
      (List.range' asize (oldasize - asize)).forM (reinsertArray nk base.block s.t.array) >>= fun _ =>
      table >>= fun u => if u.colo then pure () else if u.block ≠ base.block then throw (.broken .staleArray)
        else if asize ≠ 0 then realloc fails .shrink >>= fun _ => put { u with block := u.block + 1 }
        else put { u with block := u.block + 1 }) s
    let loopInv : List Nat → TabState → Prop := fun rest s' =>
      (∀ i ∈ rest, asize ≤ i ∧ i < oldasize) ∧
        GCtab.Lacking t base (rest.filterMap (GCtab.indexPair s.t.array) ++ pairs) s'.t
    have loop : Finishes (fun _ => loopInv []) (RaisesAs fun u point => GCtab.Loses t u ∧ point = .value)
        ((List.range' asize (oldasize - asize)).forM (reinsertArray nk base.block s.t.array))
        { s with t := base } := by
      apply Finishes.forM
      · intro i rest s' ⟨places, before⟩
        obtain ⟨place, places⟩ := List.forall_mem_cons.mp places
        have round := reinsertArray_runs new wf place.1 (place.2.trans_le small) before
        exact round.mono (fun _ _ after => ⟨places, after⟩) fun _ _ raises => raises
      · refine ⟨fun i member => ?_, lacking⟩
        rw [List.mem_range'_1] at member
        omega
    change Finishes _ _ ((List.range' asize (oldasize - asize)).forM _ >>= _) { s with t := base }
    refine Finishes.bind (loop.mono (fun _ _ after => after) fun e s' raises => raises.mono fun _ _ => .inl) ?_
    rintro _ s' ⟨-, after⟩
    change Finishes _ _ (if s'.t.colo then pure () else if s'.t.block ≠ base.block then throw (.broken .staleArray)
      else if asize ≠ 0 then realloc fails .shrink >>= fun _ => put { s'.t with block := s'.t.block + 1 }
      else put { s'.t with block := s'.t.block + 1 }) s'
    apply Finishes.ite
    · exact fun _ => after
    · intro _
      apply Finishes.ite
      · exact fun _ => Finishes.throw fun _ _ same => nomatch same
      · intro _
        apply Finishes.ite
        · intro _
          have allocates := @realloc_runs s' fails .shrink
          refine Finishes.bind (allocates.mono (fun _ _ after => after) fun e s' raises => raises.mono ?_) ?_
          · rintro u point ⟨rfl, rfl, -⟩
            exact .inr ⟨after, rfl⟩
          · exact fun _ _ _ => put_runs after.realloc
        · exact fun _ => put_runs after.realloc
  · intro grows
    have noPlaces : oldasize - asize = 0 := by omega
    have sameSize : s.t.asize = asize := by omega
    have same : { s.t with asize := asize } = s.t := by rw [← sameSize]
    rw [noPlaces, same] at lacking
    rw [same]
    exact lacking

/-- What resizing leaves behind. -/
theorem resize_runs (new : StoresNew nk) (wf : s.t.Wf) (asize hbits : Nat) :
    Finishes (fun _ s' => GCtab.Keeps s.t s'.t ∧ s'.t.Limited)
      (RaisesAs fun u point => s.FailedAt fails asize hbits u point) (resize fails nk asize hbits) s := by
  change Finishes _ _ (growArray fails asize >>= fun _ => newhash fails hbits >>= fun _ =>
    shrinkArray fails nk s.t.asize asize >>= fun _ =>
    if s.t.hmask > 0 then ((List.range (s.t.hmask + 1)).map s.t.node).forM (reinsertNode nk) else pure ()) s
  refine Finishes.bind ((growArray_runs wf asize).mono (fun _ _ after => after) fun e s' raises => raises.mono ?_) ?_
  · rintro u point ⟨rfl, failing, rfl⟩
    exact ⟨failing, rfl⟩
  rintro _ s₁ ⟨grows, grew, allocs⟩
  refine Finishes.bind ((newhash_runs hbits).mono (fun _ _ after => after) fun e s' raises => raises.mono ?_) ?_
  · rintro u point ⟨rfl, failing, rfl⟩
    rw [allocs] at failing
    exact ⟨grows, failing, grew⟩
  rintro _ s₂ ⟨makes, emptied⟩
  rw [allocs] at makes
  obtain ⟨fresh, isMax, cut⟩ := GCtab.fresh_of_newhash wf grew emptied
  let base : GCtab := { s₂.t with asize := asize }
  have limited₂ : s₂.t.Limited := (GCtab.newhash_limits s₁.t hbits).value emptied
  have limitedBase : base.Limited := limited₂
  have start := GCtab.lacking_start wf fresh limitedBase
  rw [← cut] at start
  refine Finishes.bind ((shrinkArray_runs new wf wf.small isMax start).mono (fun _ _ after => after)
    fun e s' raises => raises.mono ?_) ?_
  · rintro u point (⟨loses, rfl⟩ | ⟨lacking, rfl⟩)
    · exact ⟨grows, makes, loses⟩
    · exact ⟨grows, makes, base, fresh, lacking⟩
  intro _ s₃ before
  apply Finishes.ite
  · intro _
    let loopInv : List TabNode → TabState → Prop := fun rest s' =>
      (∀ n ∈ rest, n.val ≠ .nil → n.key.IsKey) ∧
        GCtab.Lacking s.t base (rest.filterMap GCtab.nodePair) s'.t
    have loop : Finishes (fun _ => loopInv []) (RaisesAs fun u point => GCtab.Loses s.t u ∧ point = .pair)
        (((List.range (s.t.hmask + 1)).map s.t.node).forM (reinsertNode nk)) s₃ := by
      apply Finishes.forM
      · intro n rest s' ⟨keys, before⟩
        obtain ⟨isKey, keys⟩ := List.forall_mem_cons.mp keys
        have round := reinsertNode_runs new wf isKey before
        exact round.mono (fun _ _ after => ⟨keys, after⟩) fun _ _ raises => raises
      · refine ⟨fun n member valued => ?_, before⟩
        obtain ⟨i, -, rfl⟩ := List.mem_map.mp member
        exact (wf.keys i fun isNil => valued (wf.valued i isNil)).1
    refine loop.mono (fun _ s' after => ⟨GCtab.Lacking.keeps after.2 fresh, after.2.limited⟩) ?_
    intro e s' raises
    refine raises.mono ?_
    rintro u point ⟨loses, rfl⟩
    exact ⟨grows, makes, loses⟩
  · intro none
    have none : s.t.hmask = 0 := by omega
    have noPairs : s.t.nodePairs = [] := by
      rw [GCtab.nodePairs, none, List.range_one, List.map_singleton, (wf.shared none).2 0]
      rfl
    rw [noPairs] at before
    exact ⟨before.keeps fresh, before.limited⟩

end

/-! ## New keys -/

theorem leaves_of_failedAt (wf : s.t.Wf) {asize hbits : Nat} {u : GCtab} {point : ResizePoint}
    (failed : s.FailedAt fails asize hbits u point) : GCtab.Leaves s.t u := by
  cases point with
  | array => exact failed.2.symm ▸ .refl wf
  | hash =>
      have grew := failed.2.2
      unfold GCtab.growArray at grew
      split at grew
      · split at grew
        · cases grew
        · cases grew
          refine ⟨fun k slot entry value => ?_, fun i used => (wf.keys i used).1⟩
          cases slot with
          | array i =>
              by_cases inside : i < s.t.asize
              · exact ⟨.array i, ⟨inside, entry.2⟩, (if_pos inside).symm⟩
              · exact absurd (if_neg inside) value
          | node i => exact ⟨.node i, entry, rfl⟩
      · cases grew
        exact .refl wf
  | shrink =>
      obtain ⟨-, -, base, -, lacking⟩ := failed
      exact lacking.leaves wf
  | value => exact failed.2.2.1
  | pair => exact failed.2.2.1

theorem rehashtab_runs (new : StoresNew nk) (wf : s.t.Wf) (k : TValue) :
    Finishes (fun _ s' => GCtab.Keeps s.t s'.t ∧ s'.t.Limited) (RaisesAs fun u _ => GCtab.Leaves s.t u)
      (rehashtab fails nk k) s := by
  have same : rehashtab fails nk k s = resize fails nk (s.t.newSizes k).1 (s.t.newSizes k).2 s := rfl
  rw [Finishes, same]
  apply (resize_runs new wf (s.t.newSizes k).1 (s.t.newSizes k).2).mono
  · exact fun _ _ after => after
  · exact fun e s' raises => raises.mono fun u point => leaves_of_failedAt wf

/-- What `newkey` does when the main position is taken, with the free node that it gets. -/
def collideOrRehash (fails : Nat → Bool) (depth : Nat) (t : GCtab) (k : TValue) : Option Nat → TabM TabSlot
  | none => rehashtab fails (newkey fails depth) k >>= fun _ => set (newkey fails depth) k
  | some f => lift .value (t.collide (t.hashkey k) f k) >>= fun r => put r.2 >>= fun _ => pure r.1

theorem newkey_stores (depth : Nat) : StoresNew (newkey fails depth) := by
  induction depth with
  | zero => exact fun s k _ _ _ _ => Finishes.throw fun _ _ same => by cases same
  | succ depth induction =>
      intro s k wf limited hashed absent
      have cases := GCtab.newkey_cases depth wf hashed absent
      have limits := GCtab.newkey_limits (depth + 1) s.t k limited
      rw [GCtab.newkey] at cases limits
      change Finishes _ _ (if (s.t.node (s.t.hashkey k)).val ≠ .nil ∨ s.t.hmask = 0 then
          collideOrRehash fails depth s.t k (s.t.freenode s.t.freetop)
        else put (s.t.claim (s.t.hashkey k) k).2 >>= fun _ => pure (s.t.claim (s.t.hashkey k) k).1) s
      by_cases taken : (s.t.node (s.t.hashkey k)).val ≠ .nil ∨ s.t.hmask = 0
      · rw [if_pos taken] at cases limits ⊢
        cases search : s.t.freenode s.t.freetop with
        | none =>
            rw [collideOrRehash]
            apply Finishes.bind (rehashtab_runs induction wf k)
            rintro _ s' ⟨keeps, limited'⟩
            have stores : Finishes (fun slot s'' => GCtab.Adds s'.t k slot s''.t ∧ s''.t.Limited)
                (RaisesAs fun u _ => GCtab.Leaves s'.t u) (set (newkey fails depth) k) s' :=
              set_runs keeps.wf hashed.1 (fun _ entry => ⟨⟨.refl keeps.wf, entry⟩, limited'⟩)
                (induction s' k keeps.wf limited')
            refine stores.mono (fun slot s'' after => ?_) fun e s'' raises => raises.mono fun u _ => ?_
            · exact ⟨⟨keeps.trans after.1.keeps, after.1.entry⟩, after.2⟩
            · exact (keeps.leaves wf).trans
        | some f =>
            rw [search] at cases limits
            rcases cases with ⟨slot, t', run, fits⟩ | ⟨⟨-, none⟩, -⟩
            · rw [collideOrRehash]
              dsimp only at run limits ⊢
              rw [run] at limits ⊢
              exact ⟨fits.adds, limits⟩
            · cases none
      · rw [if_neg taken] at cases limits ⊢
        rcases cases with ⟨slot, t', run, fits⟩ | ⟨⟨isTaken, -⟩, -⟩
        · rw [Except.ok.inj run] at limits ⊢
          exact ⟨fits.adds, limits⟩
        · exact absurd isTaken taken

end TabM

end TvmJit.Tab
