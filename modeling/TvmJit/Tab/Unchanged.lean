import TvmJit.Tab.Failed

/-! Which resizes that fail leave a table as it was. -/

namespace TvmJit.Tab

open Foundation Function

namespace GCtab

variable [StrHash] {t u : GCtab} {k v : TValue}

/-! ## Lookups -/

/-- Nothing is stored under nil and NaN. -/
theorem ljTabGet_unsettable (wf : t.Wf) (unsettable : ¬k.Settable) : t.ljTabGet k = .ok .nil := by
  cases k with
  | nil => rfl
  | num n =>
      have isNan : n.isNan = true := by
        by_contra notNan
        refine unsettable ⟨by simp, fun n' same => ?_⟩
        cases same
        simpa using notNan
      have different : n.eq (.ofInt n.num2int) = false := by simp [Num.eq, isNan]
      have found : ∃ v, t.genlookup (.num n) = .ok v := by
        have ends := wf.search_ends (ljObjEqual · (.num n)) (.num n)
        unfold genlookup GCtab.findNode
        cases search : searchChain t.nextnode (fun i => ljObjEqual (t.node i).key (.num n)) (t.hmask + 1)
            (t.hashkey (.num n)) with
        | none => exact absurd search ends
        | some r => exact ⟨_, rfl⟩
      obtain ⟨v, found⟩ := found
      change (if n.eq (.ofInt n.num2int) then _ else t.genlookup (.num n)) = _
      rw [different, if_neg Bool.false_ne_true, found, genlookup_nan isNan found]
  | bool b => exact absurd ⟨by simp, by simp⟩ unsettable
  | str s => exact absurd ⟨by simp, by simp⟩ unsettable
  | gcref it ref => exact absurd ⟨by simp, by simp⟩ unsettable

theorem Keeps.get_all (keeps : Keeps t u) (wf : t.Wf) (k : TValue) : u.ljTabGet k = t.ljTabGet k := by
  by_cases settable : k.Settable
  · exact keeps.get wf settable
  · rw [ljTabGet_unsettable wf settable, ljTabGet_unsettable keeps.wf settable]

omit [StrHash] in
theorem findNode_key (keys : ∀ i, (t.node i).key ≠ .nil → (t.node i).key.IsKey) {search : TValue → Bool}
    (finds : ∀ k', k'.IsKey → (search k' = true ↔ k' = k)) (notNil : search .nil = false) {n i : Nat}
    (found : t.findNode search n = .ok (some i)) : (t.node i).key = k := by
  unfold GCtab.findNode at found
  cases result : searchChain t.nextnode (fun i => search (t.node i).key) (t.hmask + 1) n with
  | none =>
      rw [result] at found
      cases found
  | some r =>
      rw [result] at found
      cases found
      have isFound := (searchChain_found result).2
      have used : (t.node i).key ≠ .nil := by
        intro isNil
        rw [isNil, notNil] at isFound
        cases isFound
      exact (finds _ (keys i used)).mp isFound

/-- A value that is found under a key is stored under it. -/
theorem stored_of_get (keys : ∀ i, (t.node i).key ≠ .nil → (t.node i).key.IsKey) (isKey : k.IsKey)
    (found : t.ljTabGet k = .ok v) (present : v ≠ .nil) : ∃ slot, t.Entry k slot ∧ t.read slot = v := by
  have ofNode {search : TValue → Bool} (finds : ∀ k', k'.IsKey → (search k' = true ↔ k' = k))
      (notNil : search .nil = false) {n : Nat}
      (found : (t.findNode search n >>= fun n =>
        pure ((n.map fun n => (t.node n).val).getD .nil)) = .ok v) :
      ∃ slot, t.Entry k slot ∧ t.read slot = v := by
    cases result : t.findNode search n with
    | error e =>
        rw [result] at found
        cases found
    | ok r =>
        rw [result] at found
        cases r with
        | none =>
            cases found
            exact absurd rfl present
        | some i =>
            have same := findNode_key keys finds notNil result
            exact ⟨.node i, ⟨same, isKey.ne_nil⟩, Except.ok.inj found⟩
  have generic (notNil : ljObjEqual .nil k = false) (found : t.genlookup k = .ok v) :
      ∃ slot, t.Entry k slot ∧ t.read slot = v :=
    ofNode (fun k' isKey' => ljObjEqual_iff isKey' isKey) notNil found
  cases k with
  | nil => exact isKey.elim
  | bool b => exact generic rfl found
  | gcref it ref => exact generic rfl found
  | str s =>
      have found' : (t.findNode (· == .str s) (t.hashstr s) >>= fun n =>
          pure ((n.map fun n => (t.node n).val).getD .nil)) = .ok v := by
        rw [← found]
        change _ = t.findNode (· == .str s) (t.hashstr s) >>= _ >>= _
        cases t.findNode (· == .str s) (t.hashstr s) <;> rfl
      exact ofNode (fun _ _ => beq_iff_eq) rfl found'
  | num n =>
      change (if n.eq (.ofInt n.num2int) then t.ljTabGetint n.num2int >>= fun tv => pure (tv.getD .nil)
        else t.genlookup (.num n)) = _ at found
      split at found
      · next equal =>
          have same : (TValue.num n) = .num (.ofInt n.num2int) := isKey.stored.symm.trans (stored_of_eq equal)
          unfold ljTabGetint at found
          split at found
          · next inside =>
              obtain ⟨positive, bound⟩ := inarray_iff.mp inside
              refine ⟨.array n.num2int.toNat, ⟨by omega, ?_⟩, Except.ok.inj found⟩
              rw [Int.toNat_of_nonneg positive]
              exact same
          · have isKey' : (TValue.num (.ofInt n.num2int)).IsKey := same ▸ isKey
            have found' : (t.findNode (isNumKey (.ofInt n.num2int)) (t.hashnum (.ofInt n.num2int)) >>=
                fun n => pure ((n.map fun n => (t.node n).val).getD .nil)) = .ok v := by
              rw [← found, ljTabGetinth]
              cases t.findNode (isNumKey (.ofInt n.num2int)) (t.hashnum (.ofInt n.num2int)) <;> rfl
            refine ofNode (fun k' isKey'' => ?_) rfl found'
            rw [isNumKey_iff isKey'' isKey', ← same]
      · exact generic rfl found

/-! ## Traversals -/

/-- What calls of `lj_tab_next` return after a key, until the end. -/
inductive Enumerates (t : GCtab) : TValue → List (TValue × TValue) → Prop
  | stop {k : TValue} (ends : t.ljTabNext k = .ok none) : Enumerates t k []
  | next {k k' v : TValue} {pairs : List (TValue × TValue)} (found : t.ljTabNext k = .ok (some (k', v)))
      (rest : Enumerates t k' pairs) : Enumerates t k ((k', v) :: pairs)

/-- Every key has the value it had, and a traversal returns the pairs it did. -/
structure Unchanged (t u : GCtab) : Prop where
  values : ∀ k, u.ljTabGet k = t.ljTabGet k
  pairs : ∃ before after, t.Enumerates .nil before ∧ u.Enumerates .nil after ∧ after.Perm before

/-- The pairs at the full places from `i` on. -/
theorem enumerates_from (wf : t.Wf) (limited : t.Limited) {i : Nat} (here : t.ljTabNext k = .ok (t.nextFrom i)) :
    ∃ places : List Nat, t.Enumerates k (places.map fun j => (t.keyAt j, t.read (t.slotAt j))) ∧
      places.Pairwise (· < ·) ∧ ∀ j, j ∈ places ↔ i ≤ j ∧ t.FullAt j := by
  generalize left : t.places - i = steps
  induction steps using Nat.strong_induction_on generalizing i k with
  | _ steps induction =>
      rcases t.nextFrom_cases i with ⟨j, ahead, full, first, returned⟩ | ⟨none, returned⟩
      · have inside := full.1
        have entry := wf.entry_keyAt full
        have next := ljTabNext_entry wf limited entry
        rw [indexOf_slotAt] at next
        obtain ⟨places, enumerates, increasing, member⟩ := induction _ (by omega) next rfl
        refine ⟨j :: places, .next (here.trans (congrArg _ returned)) enumerates, ?_, fun j' => ?_⟩
        · exact .cons (fun j' inPlaces => ((member j').mp inPlaces).1) increasing
        · rw [List.mem_cons, member]
          constructor
          · rintro (rfl | ⟨after, full'⟩)
            · exact ⟨ahead, full⟩
            · exact ⟨by omega, full'⟩
          · rintro ⟨from', full'⟩
            rcases Nat.lt_trichotomy j' j with before | same | after
            · exact absurd full' (first j' from' before)
            · exact .inl same
            · exact .inr ⟨after, full'⟩
      · refine ⟨[], .stop (here.trans (congrArg _ returned)), .nil, fun j => ?_⟩
        exact ⟨nofun, fun ⟨from', full⟩ => absurd full (none j from')⟩

/-- A traversal returns every pair once. -/
theorem exists_enumerates (wf : t.Wf) (limited : t.Limited) :
    ∃ pairs, t.Enumerates .nil pairs ∧ pairs.Nodup ∧
      ∀ k v, (k, v) ∈ pairs ↔ k.IsKey ∧ v ≠ .nil ∧ t.ljTabGet k = .ok v := by
  obtain ⟨places, enumerates, increasing, member⟩ := enumerates_from wf limited t.ljTabNext_nil
  refine ⟨_, enumerates, ?_, fun k v => ?_⟩
  · apply List.Nodup.map_on
    · intro j inPlaces j' inPlaces' same
      have entry := wf.entry_keyAt ((member j).mp inPlaces).2
      have entry' := wf.entry_keyAt ((member j').mp inPlaces').2
      rw [(Prod.mk.inj same).1] at entry
      rw [← t.indexOf_slotAt j, wf.entry_unique entry entry', t.indexOf_slotAt]
    · exact increasing.imp fun less => Nat.ne_of_lt less
  · rw [List.mem_map]
    constructor
    · rintro ⟨j, inPlaces, same⟩
      cases same
      have full := ((member j).mp inPlaces).2
      have entry := wf.entry_keyAt full
      have isKey := wf.isKey_of_entry entry
      exact ⟨isKey, full.2, get_entry wf isKey.settable (isKey.stored.symm ▸ entry)⟩
    · rintro ⟨isKey, present, found⟩
      obtain ⟨-, slot, entry, value⟩ := entry_of_get wf found present
      rw [isKey.stored] at entry
      have isSlot := t.slotAt_indexOf entry
      refine ⟨t.indexOf slot, (member _).mpr ⟨Nat.zero_le _, wf.indexOf_lt entry, ?_⟩, ?_⟩
      · rw [isSlot, value]
        exact present
      · rw [t.keyAt_indexOf entry, isSlot, value]

theorem Keeps.unchanged (keeps : Keeps t u) (wf : t.Wf) (limited : t.Limited) (limitedU : u.Limited) :
    Unchanged t u := by
  obtain ⟨before, enumerates, nodup, member⟩ := exists_enumerates wf limited
  obtain ⟨after, enumeratesU, nodupU, memberU⟩ := exists_enumerates keeps.wf limitedU
  refine ⟨keeps.get_all wf, before, after, enumerates, enumeratesU, ?_⟩
  rw [List.perm_ext_iff_of_nodup nodupU nodup]
  rintro ⟨k, v⟩
  rw [member, memberU, keeps.get_all wf]

/-- A pair that is lost is not found. -/
theorem Loses.changed (loses : Loses t u) (wf : t.Wf) : ¬Unchanged t u := by
  obtain ⟨leaves, k, slot, isKey, entry, value, missing⟩ := loses
  intro unchanged
  have found := unchanged.values k
  rw [get_entry wf isKey.settable (isKey.stored.symm ▸ entry)] at found
  obtain ⟨slot', entry', value'⟩ := stored_of_get leaves.keys isKey found value
  exact value (value'.symm.trans (missing slot' entry'))

/-! ## A table whose array has grown -/

/-- The table with an array of that size. -/
def grown (t : GCtab) (asize : Nat) : GCtab :=
  { t with
    array := fun i => if i < t.asize then t.array i else .nil
    block := t.block + 1
    colo := false
    asize := asize }

omit [StrHash] in
theorem growArray_ok {asize : Nat} (grew : t.growArray asize = .ok u) :
    u = t ∧ asize ≤ t.asize ∨ u = t.grown asize ∧ t.asize < asize ∧ asize ≤ maxAsize := by
  unfold growArray at grew
  split at grew
  · next grows =>
      split at grew
      · cases grew
      · next fits =>
          cases grew
          exact .inr ⟨rfl, grows, Nat.le_of_not_lt fits⟩
  · next notGrows =>
      cases grew
      exact .inl ⟨rfl, Nat.le_of_not_lt notGrows⟩

/-- No value is found under the new indices. -/
def NoIndices (t : GCtab) (asize : Nat) : Prop :=
  ∀ i, t.asize ≤ i → i < asize → t.ljTabGet (.num (.ofInt i)) = .ok .nil

variable {asize : Nat}

theorem grown_index {i : Nat} (small : asize ≤ maxAsize) (low : t.asize ≤ i) (inside : i < asize) :
    (t.grown asize).ljTabGet (.num (.ofInt i)) = .ok .nil := by
  have limit : maxAsize < 2147483648 := by decide
  have notNan : Num.isNan (.ofInt i) = false := (isKey_ofInt (by omega)).1
  have sameIndex : (Num.ofInt i).num2int = i := Num.num2int_ofInt (by omega) (by omega)
  have inArray : (t.grown asize).inarray i = true := inarray_iff.mpr ⟨by omega, by exact_mod_cast inside⟩
  change (if (Num.ofInt i).eq (.ofInt (Num.ofInt i).num2int) then
    (t.grown asize).ljTabGetint (Num.ofInt i).num2int >>= fun tv => pure (tv.getD .nil) else _) = _
  rw [sameIndex, Num.eq_self_of_not_nan notNan, if_pos rfl, ljTabGetint, if_pos inArray]
  exact congrArg Except.ok (if_neg (by omega))

theorem grown_get (wf : t.Wf) (grows : t.asize < asize) (none : t.NoIndices asize) (k : TValue) :
    (t.grown asize).ljTabGet k = t.ljTabGet k := by
  cases k with
  | num n =>
      have whole (tab : GCtab) : tab.ljTabGet (.num n) = if n.eq (.ofInt n.num2int) then
        tab.ljTabGetint n.num2int >>= fun tv => pure (tv.getD .nil) else tab.genlookup (.num n) := rfl
      by_cases equal : n.eq (.ofInt n.num2int) = true
      · by_cases inside : t.inarray n.num2int = true
        · obtain ⟨positive, bound⟩ := inarray_iff.mp inside
          have inside' : (t.grown asize).inarray n.num2int = true :=
            inarray_iff.mpr ⟨positive, bound.trans (by exact_mod_cast grows)⟩
          have same : (t.grown asize).array n.num2int.toNat = t.array n.num2int.toNat := if_pos (by omega)
          rw [whole, whole, if_pos equal, if_pos equal, ljTabGetint, ljTabGetint, if_pos inside,
            if_pos inside', same]
        · by_cases inside' : (t.grown asize).inarray n.num2int = true
          · obtain ⟨positive, bound⟩ := inarray_iff.mp inside'
            have settable : (TValue.num n).Settable := by
              refine ⟨nofun, fun n' same => ?_⟩
              cases same
              exact (Num.eq_true_iff.mp equal).1
            have isIndex : (n.num2int.toNat : Int) = n.num2int := Int.toNat_of_nonneg positive
            have low : t.asize ≤ n.num2int.toNat := by
              rw [inarray_iff] at inside
              omega
            have noValue := none n.num2int.toNat low (by change n.num2int < (asize : Int) at bound; omega)
            rw [isIndex, ← stored_of_eq equal, get_stored wf settable] at noValue
            have same : (t.grown asize).array n.num2int.toNat = .nil := if_neg (by omega)
            rw [noValue, whole, if_pos equal, ljTabGetint, if_pos inside', same]
            rfl
          · rw [whole, whole, if_pos equal, if_pos equal, ljTabGetint, ljTabGetint, if_neg inside,
              if_neg inside']
            rfl
      · rw [whole, whole, if_neg equal, if_neg equal]
        rfl
  | _ => rfl

omit [StrHash] in
theorem grown_nextFrom (grows : t.asize < asize) {i : Nat} (low : i ≤ t.asize) :
    (t.grown asize).nextFrom i = t.nextFrom i := by
  have array : firstFull (fun i => (t.grown asize).array i != .nil) i asize =
      firstFull (fun i => t.array i != .nil) i t.asize := by
    apply firstFull_empty (Nat.le_of_lt grows)
    · intro j inside
      exact congrArg (· != TValue.nil) (if_pos inside)
    · intro j outside _
      exact congrArg (· != TValue.nil) (if_neg (Nat.not_lt_of_le outside))
  have noNodes : i - asize = i - t.asize := by omega
  have isAsize : (t.grown asize).asize = asize := rfl
  have isHmask : (t.grown asize).hmask = t.hmask := rfl
  have isNode : (t.grown asize).node = t.node := rfl
  rw [nextFrom, isAsize, isHmask, isNode, array, noNodes, nextFrom]
  cases found : firstFull (fun i => t.array i != .nil) i t.asize with
  | some j =>
      have same : (t.grown asize).array j = t.array j := if_pos (firstFull_some found).2.1
      dsimp only
      rw [same]
  | none => rfl

omit [StrHash] in
theorem grown_nextFrom_node (t : GCtab) (asize n : Nat) :
    (t.grown asize).nextFrom (asize + n) = t.nextFrom (t.asize + n) := by
  have noArray := firstFull_past (fun i => (t.grown asize).array i != .nil) (Nat.le_add_right asize n)
  have noArray' := firstFull_past (fun i => t.array i != .nil) (Nat.le_add_right t.asize n)
  have isAsize : (t.grown asize).asize = asize := rfl
  have isHmask : (t.grown asize).hmask = t.hmask := rfl
  have isNode : (t.grown asize).node = t.node := rfl
  rw [nextFrom, isAsize, isHmask, isNode, noArray, nextFrom, noArray', Nat.add_sub_cancel_left,
    Nat.add_sub_cancel_left]

/-- A field whose key is no new index has the same one behind it. -/
theorem grown_next (wf : t.Wf) (limited : t.Limited) (grows : t.asize < asize) (small : asize ≤ maxAsize)
    (none : t.NoIndices asize) {slot : TabSlot} (entry : t.Entry k slot) (value : t.read slot ≠ .nil) :
    (t.grown asize).ljTabNext k = t.ljTabNext k := by
  have limit : maxAsize + 2 ^ maxHbits < 2 ^ 32 := by decide
  have isKey := wf.isKey_of_entry entry
  rw [ljTabNext_entry wf limited entry]
  cases slot with
  | array i =>
      obtain ⟨inside, rfl⟩ := entry
      have bound := wf.index_small inside
      have index : (t.grown asize).keyindex (.num (.ofInt i)) = .ok i :=
        keyindex_array (inside.trans grows) bound
      rw [ljTabNext, index]
      change Except.ok ((t.grown asize).nextFrom ((i + 1) % 2 ^ 32)) = _
      rw [Nat.mod_eq_of_lt (by omega), grown_nextFrom grows inside]
      rfl
  | node n =>
      have low := wf.le_of_key (fun isNil => entry.2 (entry.1.symm.trans isNil))
      have bound : t.hmask < 2 ^ maxHbits := limited
      obtain ⟨rfl, notNil⟩ := entry
      have outside : (t.grown asize).arrayKey (t.node n).key = false := by
        rw [Bool.eq_false_iff]
        intro inside
        obtain ⟨i, inside', same⟩ := eq_of_arrayKey isKey inside
        have notInT := (wf.keys n notNil).2
        rw [same, Bool.eq_false_iff, ne_eq, t.arrayKey_index (Nat.lt_of_lt_of_le inside' small)] at notInT
        have noValue := none i (Nat.le_of_not_lt notInT) inside'
        rw [← same, get_entry wf isKey.settable (isKey.stored.symm ▸ ⟨rfl, notNil⟩ : t.Entry _ (.node n))] at noValue
        exact value (Except.ok.inj noValue)
      have index : (t.grown asize).keyindex (t.node n).key = .ok (asize + n) := by
        have found : (t.grown asize).findNode (ljObjEqual · (t.node n).key)
            ((t.grown asize).hashkey (t.node n).key) = .ok (some n) := findNode_node wf notNil
        rw [keyindex, arrayIndex_none outside]
        dsimp only
        rw [if_neg notNil, found]
        exact congrArg Except.ok (Nat.mod_eq_of_lt (by change asize + n < 2 ^ 32; omega))
      rw [ljTabNext, index]
      change Except.ok ((t.grown asize).nextFrom ((asize + n + 1) % 2 ^ 32)) = Except.ok (t.nextFrom (t.asize + n + 1))
      rw [Nat.mod_eq_of_lt (by omega), Nat.add_assoc, Nat.add_assoc, grown_nextFrom_node]

theorem grown_enumerates (wf : t.Wf) (limited : t.Limited) (grows : t.asize < asize) (small : asize ≤ maxAsize)
    (none : t.NoIndices asize) {pairs : List (TValue × TValue)} (enumerates : t.Enumerates k pairs)
    (here : k = .nil ∨ ∃ slot, t.Entry k slot ∧ t.read slot ≠ .nil) : (t.grown asize).Enumerates k pairs := by
  have from' {k : TValue} (here : k = .nil ∨ ∃ slot, t.Entry k slot ∧ t.read slot ≠ .nil) :
      (t.grown asize).ljTabNext k = t.ljTabNext k ∧ ∃ i, t.ljTabNext k = .ok (t.nextFrom i) := by
    rcases here with rfl | ⟨slot, entry, value⟩
    · refine ⟨?_, _, t.ljTabNext_nil⟩
      rw [ljTabNext_nil, ljTabNext_nil, grown_nextFrom grows (Nat.zero_le _)]
    · exact ⟨grown_next wf limited grows small none entry value, _, ljTabNext_entry wf limited entry⟩
  induction enumerates with
  | stop ends => exact .stop ((from' here).1.trans ends)
  | next found rest induction =>
      obtain ⟨same, i, next⟩ := from' here
      refine .next (same.trans found) (induction (.inr ?_))
      rcases t.nextFrom_cases i with ⟨j, -, full, -, returned⟩ | ⟨-, returned⟩
      · rw [next, returned] at found
        cases found
        exact ⟨_, wf.entry_keyAt full, full.2⟩
      · rw [next, returned] at found
        cases found

theorem grown_unchanged_iff (wf : t.Wf) (limited : t.Limited) (grows : t.asize < asize) (small : asize ≤ maxAsize) :
    Unchanged t (t.grown asize) ↔ t.NoIndices asize := by
  constructor
  · intro unchanged i low inside
    rw [← unchanged.values, grown_index small low inside]
  · intro none
    obtain ⟨pairs, enumerates, -⟩ := exists_enumerates wf limited
    have enumerates' := grown_enumerates wf limited grows small none enumerates (.inl rfl)
    exact ⟨grown_get wf grows none, pairs, pairs, enumerates, enumerates', .refl _⟩

theorem unchanged_refl (wf : t.Wf) (limited : t.Limited) : Unchanged t t :=
  (Keeps.refl wf).unchanged wf limited limited

omit [StrHash] in
theorem nodePairs_nil : t.nodePairs = [] ↔ ∀ i ≤ t.hmask, (t.node i).val = .nil := by
  rw [nodePairs, List.filterMap_eq_nil_iff, List.forall_mem_map]
  constructor
  · intro noPair i low
    by_contra valued
    have isPair : nodePair (t.node i) = some _ := if_neg valued
    rw [noPair i (List.mem_range.mpr (by omega))] at isPair
    cases isPair
  · intro noValue i member
    exact if_pos (noValue i (by rw [List.mem_range] at member; omega))

end GCtab

/-- A resize that fails does no harm: the array does not grow; or there is no new hash part
and nothing is stored under the indices the array has grown by; or it is the array that is
not shrunk and the old hash part has no values. -/
def TabState.Harmless [StrHash] (fails : Nat → Bool) (s : TabState) (asize hbits : Nat) (point : ResizePoint) :
    Prop :=
  s.GrowFails fails asize ∨ s.HashFails fails asize hbits ∧ s.t.NoIndices asize ∨
    point = .shrink ∧ ∀ i ≤ s.t.hmask, (s.t.node i).val = .nil

/-- An empty table with two nodes. -/
def twoNodes : GCtab :=
  { asize := 0, array := fun _ => .nil, block := 0, colo := false, hmask := 1, node := fun _ => {}, freetop := 2 }

/-- The table with `true` stored under 5. -/
def fiveTable : GCtab :=
  let empty : TabNode := { key := .num (.ofInt 5) }
  { twoNodes with node := update (update (fun _ => {}) 0 empty) 0 { empty with val := .bool true } }

theorem fiveTable_reached [StrHash] : Reached 2 fiveTable := by
  have new : Reached 2 twoNodes := .new (rfl : GCtab.ljTabNew 0 1 = .ok twoNodes)
  have stored : TabCall.run 2 twoNodes (.set (.num (.ofInt 5)) (.bool true)) = .ok fiveTable := rfl
  exact new.call stored

/-- No allocation fails. -/
def neverFails (_ : Nat) : Bool := false

end TvmJit.Tab
