import TvmJit.Tab.Newkey
import TvmJit.Foundation.Ends

/-! The setters and resizing keep what a table holds, as long as storing a new key does. -/

namespace TvmJit.Tab

open Foundation Function

/-- The key an integer is stored as. -/
theorem stored_of_eq {n : Num} (equal : n.eq (.ofInt n.num2int) = true) :
    (TValue.num n).stored = .num (.ofInt n.num2int) := by
  have range := n.num2int_range
  have isKey : (TValue.num (.ofInt n.num2int)).IsKey := isKey_ofInt (by omega)
  obtain ⟨-, -, same | ⟨zero, -⟩⟩ := Num.eq_true_iff.mp equal
  · rw [← same] at isKey
    rw [isKey.stored, ← same]
  · rcases Num.isZero_iff.mp zero with rfl | rfl
    · decide
    · decide

/-- A number that is no integer is stored as it is. -/
theorem isKey_of_ne {n : Num} (different : n.eq (.ofInt n.num2int) = false) (notNan : n.isNan = false) :
    (TValue.num n).IsKey := by
  refine ⟨notNan, ?_⟩
  rw [Num.isMzero, beq_eq_false_iff_ne]
  rintro rfl
  revert different
  decide

namespace GCtab

variable [StrHash] {t : GCtab} {k : TValue} {may : TabError → Prop}
  {nk : GCtab → TValue → Except TabError (TabSlot × GCtab)}

/-! ## Setters

A setter finds the key or calls the function that stores new keys. -/

section

variable (good : TabSlot × GCtab → Prop)

theorem find_or_new (wf : t.Wf) (hashed : t.Hashed k) {search : TValue → Bool}
    (finds : ∀ k', k'.IsKey → (search k' = true ↔ k' = k)) (notNil : search .nil = false)
    (found : ∀ slot, t.Entry k slot → good (slot, t))
    (new : (∀ i, (t.node i).key ≠ k) → Foundation.Ends good may (nk t k)) :
    Foundation.Ends good may (do
      match ← t.findNode search (t.hashkey k) with
      | some n => return (.node n, t)
      | none => nk t k) := by
  rcases wf.findNode hashed.1 finds notNil with ⟨i, result, entry⟩ | ⟨result, absent⟩
  · rw [result]
    exact found _ entry
  · rw [result]
    exact new absent

theorem setinth_ends (wf : t.Wf) {key : Int} (low : -2147483648 ≤ key) (high : key < 2147483648)
    (outside : t.inarray key = false)
    (found : ∀ slot, t.Entry (.num (.ofInt key)) slot → good (slot, t))
    (new : t.Hashed (.num (.ofInt key)) → (∀ i, (t.node i).key ≠ .num (.ofInt key)) →
      Foundation.Ends good may (nk t (.num (.ofInt key)))) :
    Foundation.Ends good may (t.setinth nk key) := by
  have isKey : (TValue.num (.ofInt key)).IsKey := isKey_ofInt (by omega)
  have hashed : t.Hashed (.num (.ofInt key)) := ⟨isKey, (arrayKey_ofInt low high).trans outside⟩
  exact find_or_new good wf hashed (fun k' isKey' => isNumKey_iff isKey' isKey) rfl found (new hashed)

theorem setint_ends (wf : t.Wf) {key : Int} (low : -2147483648 ≤ key) (high : key < 2147483648)
    (found : ∀ slot, t.Entry (.num (.ofInt key)) slot → good (slot, t))
    (new : t.Hashed (.num (.ofInt key)) → (∀ i, (t.node i).key ≠ .num (.ofInt key)) →
      Foundation.Ends good may (nk t (.num (.ofInt key)))) :
    Foundation.Ends good may (t.setint nk key) := by
  unfold setint
  split
  · next inside =>
      obtain ⟨positive, bound⟩ := inarray_iff.mp inside
      refine found (.array key.toNat) ⟨?_, ?_⟩
      · omega
      · rw [Int.toNat_of_nonneg positive]
  · next outside => exact setinth_ends good wf low high (by simpa using outside) found new

theorem setstr_ends (wf : t.Wf) {s : GCstr} (found : ∀ slot, t.Entry (.str s) slot → good (slot, t))
    (new : t.Hashed (.str s) → (∀ i, (t.node i).key ≠ .str s) → Foundation.Ends good may (nk t (.str s))) :
    Foundation.Ends good may (t.setstr nk s) := by
  have hashed : t.Hashed (.str s) := ⟨trivial, rfl⟩
  exact find_or_new good wf hashed (fun _ _ => beq_iff_eq) rfl found (new hashed)

theorem setgen_ends (wf : t.Wf) (hashed : t.Hashed k) (found : ∀ slot, t.Entry k slot → good (slot, t))
    (new : t.Hashed k → (∀ i, (t.node i).key ≠ k) → Foundation.Ends good may (nk t k)) :
    Foundation.Ends good may (t.setgen nk k) := by
  refine find_or_new good wf hashed (fun k' isKey' => ljObjEqual_iff isKey' hashed.1) ?_ found (new hashed)
  cases k with
  | nil => exact hashed.1.elim
  | _ => rfl

/-- The setters store under what the key is stored as. -/
theorem set_ends (wf : t.Wf) (settable : k.stored.IsKey)
    (found : ∀ slot, t.Entry k.stored slot → good (slot, t))
    (new : t.Hashed k.stored → (∀ i, (t.node i).key ≠ k.stored) → Foundation.Ends good may (nk t k.stored)) :
    Foundation.Ends good may (t.set nk k) := by
  cases k with
  | nil => exact settable.elim
  | bool b => exact setgen_ends good wf ⟨trivial, rfl⟩ found new
  | str s => exact setstr_ends good wf found new
  | gcref it ref => exact setgen_ends good wf ⟨trivial, rfl⟩ found new
  | num n =>
      change Foundation.Ends _ _ (if n.eq (.ofInt n.num2int) then t.setint nk n.num2int
        else if n.isNan then .error .nanidx else t.setgen nk (.num n))
      split
      · next equal =>
          have range := n.num2int_range
          rw [stored_of_eq equal] at found new
          exact setint_ends good wf range.1 range.2 found new
      · next different =>
          have different : n.eq (.ofInt n.num2int) = false := by simpa using different
          have notNan : n.isNan = false := by
            cases isNan : n.isNan with
            | false => rfl
            | true =>
                have notZero : n.isMzero = false := by
                  rw [Num.isMzero, beq_eq_false_iff_ne]
                  rintro rfl
                  revert isNan
                  decide
                have notNan := settable.1
                rw [notZero, if_neg Bool.false_ne_true, isNan] at notNan
                exact notNan
          have isKey := isKey_of_ne different notNan
          rw [isKey.stored] at found new
          rw [if_neg (by simp [notNan])]
          refine setgen_ends good wf ⟨isKey, ?_⟩ found new
          rw [arrayKey, different, Bool.false_and]

end

/-- What is asked of the function that stores new keys. -/
def KeepsNew (may : TabError → Prop) (nk : GCtab → TValue → Except TabError (TabSlot × GCtab)) : Prop :=
  ∀ t k, t.Wf → t.Hashed k → (∀ i, (t.node i).key ≠ k) →
    Foundation.Ends (fun r => Adds t k r.1 r.2) may (nk t k)

theorem setinth_adds (spec : KeepsNew may nk) (wf : t.Wf) {key : Int} (low : -2147483648 ≤ key)
    (high : key < 2147483648) (outside : t.inarray key = false) :
    Foundation.Ends (fun r => Adds t (.num (.ofInt key)) r.1 r.2) may (t.setinth nk key) :=
  setinth_ends _ wf low high outside (fun _ entry => ⟨.refl wf, entry⟩) (spec t _ wf)

theorem set_adds (spec : KeepsNew may nk) (wf : t.Wf) (settable : k.stored.IsKey) :
    Foundation.Ends (fun r => Adds t k.stored r.1 r.2) may (t.set nk k) :=
  set_ends _ wf settable (fun _ entry => ⟨.refl wf, entry⟩) (spec t _ wf)

/-! ## Resizing -/

/-- The pair of a node that has a value. -/
def nodePair (n : TabNode) : Option (TValue × TValue) := if n.val = .nil then none else some (n.key, n.val)

/-- The pair of an array index that has a value. -/
def indexPair (array : Nat → TValue) (i : Nat) : Option (TValue × TValue) :=
  if array i = .nil then none else some (.num (.ofInt i), array i)

/-- The pairs of the array values from `asize` on. -/
def cutPairs (t : GCtab) (asize : Nat) : List (TValue × TValue) :=
  (List.range' asize (t.asize - asize)).filterMap (indexPair t.array)

/-- The pairs of the hash part. -/
def nodePairs (t : GCtab) : List (TValue × TValue) :=
  ((List.range (t.hmask + 1)).map t.node).filterMap nodePair

/-- What a table goes through while pairs from the array and pairs from the hash part are
stored in it. `base` is the table before the first of them. -/
structure Refills (nk : GCtab → TValue → Except TabError (TabSlot × GCtab)) (may : TabError → Prop)
    (base : GCtab) (inv : List (TValue × TValue) → List (TValue × TValue) → GCtab → Prop) : Prop where
  index : ∀ (i : Nat) v cut pairs u, base.asize ≤ i → i < maxAsize → u.block = base.block →
    inv ((.num (.ofInt i), v) :: cut) pairs u →
    Foundation.Ends (fun r => inv cut pairs (r.2.store r.1 v) ∧ (r.2.block = base.block ∨ may .staleArray)) may
      (u.setinth nk i)
  pair : ∀ k v pairs u, k.IsKey → inv [] ((k, v) :: pairs) u →
    Foundation.Ends (fun r => inv [] pairs (r.2.store r.1 v)) may (u.set nk k)
  realloc : ∀ pairs u, inv [] pairs u → inv [] pairs { u with block := u.block + 1 }

section

variable {base u : GCtab} {inv : List (TValue × TValue) → List (TValue × TValue) → GCtab → Prop}
  {pairs : List (TValue × TValue)}

theorem reinsertArray_ends (refills : Refills nk may base inv) {array : Nat → TValue} {i : Nat}
    {rest : List Nat} (outside : base.asize ≤ i) (small : i < maxAsize)
    (before : inv ((i :: rest).filterMap (indexPair array)) pairs u)
    (current : u.block = base.block ∨ may .staleArray) :
    Foundation.Ends (fun u => inv (rest.filterMap (indexPair array)) pairs u ∧
      (u.block = base.block ∨ may .staleArray)) may (reinsertArray nk base.block array u i) := by
  unfold reinsertArray
  split
  · next stale => exact .throw (current.resolve_left stale)
  · next same =>
      split
      · next isNil =>
          have noPair : indexPair array i = none := if_pos isNil
          rw [List.filterMap_cons_none noPair] at before
          exact ⟨before, current⟩
      · next notNil =>
          have isPair : indexPair array i = some (.num (.ofInt i), array i) := if_neg notNil
          rw [List.filterMap_cons_some isPair] at before
          refine (refills.index i _ _ _ u outside small (not_not.mp same) before).bind
            fun ⟨slot, u'⟩ _ ⟨after, current⟩ => ?_
          dsimp only at current ⊢
          split
          · next stale => exact .throw (current.resolve_left stale)
          · next same =>
              refine ⟨after, .inl ?_⟩
              cases slot <;> exact not_not.mp same

theorem reinsertNode_ends (refills : Refills nk may base inv) {n : TabNode} {rest : List TabNode}
    (isKey : n.val ≠ .nil → n.key.IsKey) (before : inv [] ((n :: rest).filterMap nodePair) u) :
    Foundation.Ends (inv [] (rest.filterMap nodePair)) may (reinsertNode nk u n) := by
  unfold reinsertNode
  split
  · next isNil =>
      have noPair : nodePair n = none := if_pos isNil
      rw [List.filterMap_cons_none noPair] at before
      exact before
  · next notNil =>
      have isPair : nodePair n = some (n.key, n.val) := if_neg notNil
      rw [List.filterMap_cons_some isPair] at before
      exact (refills.pair _ _ _ u (isKey notNil) before).bind fun _ _ after => after

theorem shrinkArray_ends {oldasize asize : Nat} (refills : Refills nk may { u with asize := asize } inv)
    (small : oldasize ≤ maxAsize) (isMax : u.asize = max oldasize asize)
    (before : inv ((List.range' asize (oldasize - asize)).filterMap (indexPair u.array)) pairs
      { u with asize := asize }) :
    Foundation.Ends (inv [] pairs) may (u.shrinkArray nk oldasize asize) := by
  unfold shrinkArray
  split
  · next shrinks =>
      let loopInv : List Nat → GCtab → Prop := fun rest u' =>
        (∀ i ∈ rest, asize ≤ i ∧ i < oldasize) ∧ inv (rest.filterMap (indexPair u.array)) pairs u' ∧
          (u'.block = u.block ∨ may .staleArray)
      have loop : Foundation.Ends (loopInv []) may
          ((List.range' asize (oldasize - asize)).foldlM (reinsertArray nk u.block u.array)
            { u with asize := asize }) := by
        apply Foundation.Ends.foldlM
        · intro i rest u' ⟨places, before, current⟩
          obtain ⟨place, places⟩ := List.forall_mem_cons.mp places
          have round := reinsertArray_ends refills place.1 (place.2.trans_le small) before current
          exact round.mono (fun _ _ after => ⟨places, after⟩) fun _ allowed => allowed
        · refine ⟨fun i member => ?_, before, .inl rfl⟩
          rw [List.mem_range'_1] at member
          omega
      refine loop.bind fun u' _ ⟨_, after, current⟩ => ?_
      split
      · exact after
      · split
        · next stale => exact .throw (current.resolve_left stale)
        · exact refills.realloc _ _ after
  · next grows =>
      have noPlaces : oldasize - asize = 0 := by omega
      have sameSize : u.asize = asize := by omega
      have same : { u with asize := asize } = u := by rw [← sameSize]
      rw [noPlaces, same] at before
      exact before

end

/-- How many nodes a hash part has. -/
def nodesOf (hbits : Nat) : Nat := if hbits = 0 then 0 else 2 ^ hbits

omit [StrHash] in
theorem nodesOf_ne_one (hbits : Nat) : nodesOf hbits ≠ 1 := by
  unfold nodesOf
  split
  · omega
  · next some =>
      have large : 2 ≤ 2 ^ hbits := Nat.le_self_pow some 2
      omega

/-- A table without anything in its hash part. -/
theorem wf_fresh {asize block hmask freetop : Nat} {array : Nat → TValue} {colo : Bool}
    (small : asize ≤ maxAsize) (top : freetop = if hmask = 0 then 0 else hmask + 1) :
    Wf { asize, array, block, colo, hmask, node := fun _ => {}, freetop } where
  small := small
  table := .empty _
  outside _ _ := rfl
  valued _ _ := rfl
  keys _ used := absurd rfl used
  top := by
    change freetop ≤ hmask + 1
    split at top <;> omega
  taken some i low high := by
    change hmask ≠ 0 at some
    change freetop ≤ i at low
    change i ≤ hmask at high
    rw [if_neg some] at top
    omega
  shared none := by
    change hmask = 0 at none
    rw [if_pos none] at top
    exact ⟨top, fun _ => rfl⟩

/-- A resized table before anything is stored in it again. -/
structure Fresh (t : GCtab) (size hbits : Nat) (base : GCtab) : Prop where
  wf : base.Wf
  node : base.node = fun _ => {}
  asize : base.asize = size
  hmask : base.hmask = nodesOf hbits - 1
  new : ∀ i, t.asize ≤ i → i < size → base.array i = .nil
  old : ∀ i, i < t.asize → base.array i = t.array i
  block : t.block ≤ base.block
  grew : base.block = t.block → size ≤ t.asize

/-- The array grows by places without a value. -/
theorem growArray_ends (wf : t.Wf) {asize : Nat} (tabov : maxAsize < asize → may .tabov) :
    Foundation.Ends (fun u => u.asize = max t.asize asize ∧ u.asize ≤ maxAsize ∧
      (∀ i, u.array i = if i < t.asize ∨ asize ≤ t.asize then t.array i else .nil) ∧
      t.block ≤ u.block ∧ (u.block = t.block → asize ≤ t.asize)) may (t.growArray asize) := by
  unfold growArray
  split
  · next grows =>
      split
      · next large => exact .throw (tabov large)
      · next fits =>
          have notFit : ¬asize ≤ t.asize := by omega
          refine ⟨(Nat.max_eq_right (Nat.le_of_lt grows)).symm, Nat.le_of_not_lt fits, fun i => ?_,
            Nat.le_succ _, fun same => absurd same (Nat.succ_ne_self _)⟩
          simp only [notFit, or_false]
  · next notGrows =>
      exact ⟨by omega, wf.small, fun i => by rw [if_pos (by omega)], le_rfl, fun _ => by omega⟩

omit [StrHash] in
theorem newhash_ends (hbits : Nat) (tabov : maxHbits < hbits → may .tabov) :
    Foundation.Ends (fun u => u = { t with
      node := fun _ => {}, freetop := nodesOf hbits, hmask := nodesOf hbits - 1 }) may
      (t.newhash hbits) := by
  by_cases none : hbits = 0
  · rw [newhash, if_neg (not_not.mpr none), none]
    exact rfl
  · rw [newhash, if_pos none, newhpart, nodesOf, if_neg none]
    split
    · next large => exact .throw (tabov large)
    · exact rfl

/-- A table with a new hash part, before the array shrinks. -/
theorem fresh_of_newhash (wf : t.Wf) {asize hbits : Nat} {u₁ u₂ : GCtab} (grew : t.growArray asize = .ok u₁)
    (emptied : u₁.newhash hbits = .ok u₂) :
    Fresh t asize hbits { u₂ with asize := asize } ∧ u₂.asize = max t.asize asize ∧
      (List.range' asize (t.asize - asize)).filterMap (indexPair u₂.array) = t.cutPairs asize := by
  let anyError : TabError → Prop := fun _ => True
  have tabov : anyError .tabov := trivial
  obtain ⟨isMax, small, array, low, grew⟩ := (growArray_ends wf fun _ => tabov).value grew
  have isU₂ := (newhash_ends hbits fun _ => tabov).value emptied
  subst isU₂
  refine ⟨⟨wf_fresh (by omega) ?_, rfl, rfl, rfl, fun i above below => ?_, fun i inside => ?_, low, grew⟩,
    isMax, ?_⟩
  · have notOne := nodesOf_ne_one hbits
    change nodesOf hbits = if nodesOf hbits - 1 = 0 then 0 else nodesOf hbits - 1 + 1
    split <;> omega
  · exact (array i).trans (if_neg (by omega))
  · exact (array i).trans (if_pos (.inl inside))
  · apply List.filterMap_congr
    intro i member
    rw [List.mem_range'_1] at member
    have same : u₁.array i = t.array i := (array i).trans (if_pos (.inl (by omega)))
    rw [indexPair, indexPair, same]

/-- Resizing stores the pairs again that have lost their places. -/
theorem resize_ends (wf : t.Wf) {asize hbits : Nat}
    (tabov : maxAsize < asize ∨ maxHbits < hbits → may .tabov)
    (inv : GCtab → List (TValue × TValue) → List (TValue × TValue) → GCtab → Prop)
    (refills : ∀ base, Fresh t asize hbits base → Refills nk may base (inv base))
    (start : ∀ base, Fresh t asize hbits base → inv base (t.cutPairs asize) t.nodePairs base) :
    Foundation.Ends (fun u => ∃ base, Fresh t asize hbits base ∧ inv base [] [] u) may (t.resize nk asize hbits) := by
  unfold resize
  refine (growArray_ends wf fun large => tabov (.inl large)).bind fun u₁ grew _ => ?_
  refine (newhash_ends hbits fun large => tabov (.inr large)).bind fun u₂ emptied _ => ?_
  obtain ⟨fresh, isMax, cut⟩ := fresh_of_newhash wf grew emptied
  let base : GCtab := { u₂ with asize := asize }
  have refills := refills base fresh
  have start := start base fresh
  rw [← cut] at start
  refine (shrinkArray_ends refills wf.small isMax start).bind fun u₃ _ before => ?_
  split
  · let loopInv : List TabNode → GCtab → Prop := fun rest u =>
      (∀ n ∈ rest, n.val ≠ .nil → n.key.IsKey) ∧ inv base [] (rest.filterMap nodePair) u
    have loop : Foundation.Ends (loopInv []) may
        (((List.range (t.hmask + 1)).map t.node).foldlM (reinsertNode nk) u₃) := by
      apply Foundation.Ends.foldlM
      · intro n rest u ⟨keys, before⟩
        obtain ⟨isKey, keys⟩ := List.forall_mem_cons.mp keys
        have round := reinsertNode_ends refills isKey before
        exact round.mono (fun _ _ after => ⟨keys, after⟩) fun _ allowed => allowed
      · refine ⟨fun n member valued => ?_, before⟩
        obtain ⟨i, -, rfl⟩ := List.mem_map.mp member
        exact (wf.keys i fun isNil => valued (wf.valued i isNil)).1
    exact loop.mono (fun u _ after => ⟨base, fresh, after.2⟩) fun _ allowed => allowed
  · next none =>
      have none : t.hmask = 0 := by omega
      have noPairs : t.nodePairs = [] := by
        rw [nodePairs, none, List.range_one, List.map_singleton, (wf.shared none).2 0]
        rfl
      rw [noPairs] at before
      exact ⟨base, fresh, before⟩

/-! ## What a resized table holds -/

theorem Wf.realloc (wf : t.Wf) (block : Nat) : Wf { t with block := block } :=
  ⟨wf.small, wf.table, wf.outside, wf.valued, wf.keys, wf.top, wf.taken, wf.shared⟩

/-- The map after stores of these pairs. -/
def putAll (m : TValue → TValue) (pairs : List (TValue × TValue)) : TValue → TValue :=
  pairs.foldl (fun m pair => update m pair.1 pair.2) m

omit [StrHash] in
theorem putAll_eq {m m₀ : TValue → TValue} {pairs : List (TValue × TValue)}
    (same : ∀ pair ∈ pairs, pair.2 = m pair.1)
    (others : (∀ pair ∈ pairs, pair.1 ≠ k) → m₀ k = m k) : putAll m₀ pairs k = m k := by
  induction pairs generalizing m₀ with
  | nil => exact others (List.forall_mem_nil _)
  | cons pair pairs induction =>
      obtain ⟨first, rest⟩ := List.forall_mem_cons.mp same
      refine induction rest fun notRest => ?_
      change update m₀ pair.1 pair.2 k = m k
      by_cases isKey : pair.1 = k
      · rw [isKey, update_self, first, isKey]
      · rw [update_of_ne (Ne.symm isKey)]
        exact others (List.forall_mem_cons.mpr ⟨isKey, notRest⟩)

/-- What the table `t` held is in `u` and in pairs that are still to be stored. -/
structure Refilled (t base : GCtab) (pairs : List (TValue × TValue)) (u : GCtab) : Prop where
  wf : u.Wf
  pending : ∀ m, t.Holds m → ∃ m₀, u.Holds m₀ ∧ ∀ k, k.IsKey → putAll m₀ pairs k = m k
  block : base.block ≤ u.block
  asize : u.block = base.block → u.asize ≤ base.asize

theorem Refilled.store {base u u' : GCtab} {pairs : List (TValue × TValue)} {slot : TabSlot} {v : TValue}
    (refilled : Refilled t base ((k, v) :: pairs) u) (adds : Adds u k slot u') :
    Refilled t base pairs (u'.store slot v) where
  wf := adds.keeps.wf.store adds.entry v
  pending m holds := by
    obtain ⟨m₀, holdsU, same⟩ := refilled.pending m holds
    exact ⟨_, (adds.keeps.holds m₀ holdsU).store adds.keeps.wf adds.entry v, same⟩
  block := by
    have low := adds.keeps.block
    cases slot <;> exact refilled.block.trans low
  asize same := by
    have low := adds.keeps.block
    have lowBase := refilled.block
    have same : u'.block = base.block := by cases slot <;> exact same
    have small := (adds.keeps.asize (by omega)).trans (refilled.asize (by omega))
    cases slot <;> exact small

omit [StrHash] in
theorem arrayKey_index (t : GCtab) {i : Nat} (small : i < maxAsize) :
    t.arrayKey (.num (.ofInt i)) = true ↔ i < t.asize := by
  have limit : maxAsize < 2147483648 := by decide
  rw [arrayKey_ofInt (by omega) (by omega), inarray_iff]
  omega

/-- The array values there is a place for. -/
def keptArray (t base : GCtab) (m : TValue → TValue) (k : TValue) : TValue :=
  if t.arrayKey k && base.arrayKey k then m k else .nil

/-- They are what a table with an empty hash part holds. -/
theorem Fresh.holds {base : GCtab} {asize hbits : Nat} {m : TValue → TValue}
    (fresh : Fresh t asize hbits base) (holds : t.Holds m) : base.Holds (keptArray t base m) := by
  obtain ⟨wfBase, noNodes, rfl, -, new, old, -, -⟩ := fresh
  refine fun k isKey => ⟨?_, ?_⟩
  · intro slot entry
    cases slot with
    | array i =>
        obtain ⟨inside, rfl⟩ := entry
        have small : i < maxAsize := inside.trans_le wfBase.small
        have inBase := (base.arrayKey_index small).mpr inside
        rw [keptArray, inBase, Bool.and_true]
        split
        · next inT =>
            have inside' := (t.arrayKey_index small).mp inT
            exact (old i inside').trans ((holds _ isKey).1 (.array i) ⟨inside', rfl⟩)
        · next notInT => exact new i (by rw [t.arrayKey_index small] at notInT; omega) inside
    | node i =>
        obtain ⟨isKeyI, notNil⟩ := entry
        rw [noNodes] at isKeyI
        exact absurd isKeyI.symm notNil
  · intro none
    refine if_neg fun both => ?_
    rw [Bool.and_eq_true] at both
    obtain ⟨i, inside, same⟩ := eq_of_arrayKey isKey both.2
    exact none (.array i) ⟨inside, same⟩

/-- A pair that is to be stored again has lost its place. -/
theorem pending_pair {asize : Nat} {base : GCtab} (wf : t.Wf) (size : base.asize = asize)
    {pair : TValue × TValue} (member : pair ∈ t.cutPairs asize ++ t.nodePairs) :
    pair.1.IsKey ∧ pair.2 ≠ .nil ∧ (t.arrayKey pair.1 && base.arrayKey pair.1) = false ∧
      ∃ slot, t.Entry pair.1 slot ∧ t.read slot = pair.2 := by
  rcases List.mem_append.mp member with member | member
  · obtain ⟨i, place, isPair⟩ := List.mem_filterMap.mp member
    rw [List.mem_range'_1] at place
    unfold indexPair at isPair
    split at isPair
    · cases isPair
    · next valued =>
        cases isPair
        have inside : i < t.asize := by omega
        have small := wf.index_small inside
        have outside : base.arrayKey (.num (.ofInt i)) = false := by
          rw [Bool.eq_false_iff, ne_eq, base.arrayKey_index (inside.trans_le wf.small)]
          omega
        exact ⟨isKey_ofInt (by omega), valued, by rw [outside, Bool.and_false],
          .array i, ⟨inside, rfl⟩, rfl⟩
  · obtain ⟨n, place, isPair⟩ := List.mem_filterMap.mp member
    obtain ⟨i, -, rfl⟩ := List.mem_map.mp place
    unfold nodePair at isPair
    split at isPair
    · cases isPair
    · next valued =>
        cases isPair
        have used : (t.node i).key ≠ .nil := fun isNil => valued (wf.valued i isNil)
        have hashed := wf.keys i used
        exact ⟨hashed.1, valued, by rw [hashed.2, Bool.false_and], .node i, ⟨rfl, used⟩, rfl⟩

/-- What is not stored again has its place still. -/
theorem Fresh.kept {base : GCtab} {asize hbits : Nat} {m : TValue → TValue} (wf : t.Wf)
    (fresh : Fresh t asize hbits base) (holds : t.Holds m) (isKey : k.IsKey)
    (notPair : ∀ pair ∈ t.cutPairs asize ++ t.nodePairs, pair.1 ≠ k) : keptArray t base m k = m k := by
  obtain ⟨wfBase, noNodes, rfl, -, new, old, -, -⟩ := fresh
  by_cases both : (t.arrayKey k && base.arrayKey k) = true
  · exact if_pos both
  · refine (if_neg both).trans ?_
    by_cases stored : ∃ slot, t.Entry k slot
    · obtain ⟨slot, entry⟩ := stored
      refine Eq.trans ?_ ((holds k isKey).1 slot entry)
      by_contra valued
      cases slot with
      | array i =>
          obtain ⟨inside, rfl⟩ := entry
          have small : i < maxAsize := inside.trans_le wf.small
          rw [(t.arrayKey_index small).mpr inside, Bool.true_and, base.arrayKey_index small] at both
          apply notPair (.num (.ofInt i), t.array i) _ rfl
          apply List.mem_append_left
          apply List.mem_filterMap.mpr ⟨i, _, if_neg (Ne.symm valued)⟩
          rw [List.mem_range'_1]
          omega
      | node i =>
          obtain ⟨isKeyI, notNil⟩ := entry
          apply notPair ((t.node i).key, (t.node i).val) _ isKeyI
          apply List.mem_append_right
          apply List.mem_filterMap.mpr ⟨t.node i, _, if_neg (Ne.symm valued)⟩
          apply List.mem_map.mpr ⟨i, _, rfl⟩
          have low := wf.le_of_key (isKeyI ▸ notNil)
          rw [List.mem_range]
          omega
    · exact ((holds k isKey).2 (not_exists.mp stored)).symm

/-- What is left to store in a table that has the array values there is a place for, and an
empty hash part. -/
theorem refilled_start (wf : t.Wf) {base : GCtab} {asize hbits : Nat} (fresh : Fresh t asize hbits base) :
    Refilled t base (t.cutPairs asize ++ t.nodePairs) base := by
  refine ⟨fresh.wf, fun m holds => ?_, le_rfl, fun _ => le_rfl⟩
  refine ⟨keptArray t base m, fresh.holds holds, fun k isKey => putAll_eq ?_ (fresh.kept wf holds isKey)⟩
  intro pair member
  obtain ⟨isKeyPair, -, -, slot, entry, value⟩ := pending_pair wf fresh.asize member
  exact value.symm.trans ((holds _ isKeyPair).1 slot entry)

theorem refilled_refills (spec : KeepsNew may nk) (stale : may .staleArray) (base : GCtab) :
    Refills nk may base (fun cut pairs => Refilled t base (cut ++ pairs)) where
  index i v cut pairs u outside small current refilled := by
    have limit : maxAsize < 2147483648 := by decide
    have notIn : u.inarray i = false := by
      rw [Bool.eq_false_iff, ne_eq, inarray_iff]
      have bound := refilled.asize current
      omega
    exact (setinth_adds spec refilled.wf (by omega) (by omega) notIn).mono
      (fun r _ adds => ⟨refilled.store adds, .inr stale⟩) fun _ allowed => allowed
  pair k v pairs u isKey refilled := by
    have sets := set_adds spec refilled.wf (k := k) (isKey.stored.symm ▸ isKey)
    rw [isKey.stored] at sets
    exact sets.mono (fun r _ adds => refilled.store adds) fun _ allowed => allowed
  realloc pairs u refilled := by
    have low := refilled.block
    refine ⟨refilled.wf.realloc _, refilled.pending, Nat.le_succ_of_le low, fun same => ?_⟩
    change u.block + 1 = base.block at same
    omega

/-- Resizing keeps what a table holds. -/
theorem resize_keeps (spec : KeepsNew may nk) (tabov : may .tabov) (stale : may .staleArray) (wf : t.Wf)
    (asize hbits : Nat) : Foundation.Ends (Keeps t) may (t.resize nk asize hbits) := by
  refine (resize_ends wf (fun _ => tabov) (fun base cut pairs => Refilled t base (cut ++ pairs))
    (fun base _ => refilled_refills spec stale base)
    fun base (fresh : Fresh t asize hbits base) => refilled_start wf fresh).mono
    (fun u _ ⟨base, fresh, all⟩ => ?_) fun _ allowed => allowed
  refine ⟨all.wf, fun m holds => ?_, fresh.block.trans all.block, fun same => ?_⟩
  · obtain ⟨m₀, holds₀, same⟩ := all.pending m holds
    intro k isKey
    rw [← same k isKey]
    exact holds₀ k isKey
  · have low := fresh.block
    have high := all.block
    have bound := all.asize (by omega)
    rw [fresh.asize] at bound
    exact bound.trans (fresh.grew (by omega))

end GCtab

end TvmJit.Tab
