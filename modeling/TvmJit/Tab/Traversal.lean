import TvmJit.Tab.Next

/-! A traversal visits every pair once, also when fields are overwritten or set to nil on
the way: that leaves all keys at their places. -/

namespace TvmJit.Tab

open Foundation Function

/-! ## Fields -/

namespace GCtab

variable [StrHash] {t t' : GCtab} {k v : TValue} {slot : TabSlot}

/-- The values of a table are those of a map. -/
theorem Wf.exists_holds (wf : t.Wf) : ∃ m, t.Holds m := by
  classical
  refine ⟨fun k => if stored : ∃ slot, t.Entry k slot then t.read stored.choose else .nil,
    fun k _ => ⟨fun slot entry => ?_, fun none => dif_neg (not_exists.mpr none)⟩⟩
  have stored : ∃ slot, t.Entry k slot := ⟨slot, entry⟩
  dsimp only
  rw [dif_pos stored, wf.entry_unique entry stored.choose_spec]

theorem get_entry (wf : t.Wf) (settable : k.Settable) (entry : t.Entry k.stored slot) :
    t.ljTabGet k = .ok (t.read slot) := by
  obtain ⟨m, holds⟩ := wf.exists_holds
  rw [ljTabGet_value wf holds settable, (holds _ settable.isKey).1 slot entry]

theorem get_stored (wf : t.Wf) (settable : k.Settable) : t.ljTabGet k.stored = t.ljTabGet k := by
  obtain ⟨m, holds⟩ := wf.exists_holds
  rw [ljTabGet_value wf holds settable, ljTabGet_value wf holds settable.isKey.settable,
    settable.isKey.stored]

/-- Nothing is found under NaN. -/
theorem genlookup_nan {n : Num} (isNan : n.isNan = true) (found : t.genlookup (.num n) = .ok v) :
    v = .nil := by
  unfold genlookup GCtab.findNode at found
  cases search : searchChain t.nextnode (fun i => ljObjEqual (t.node i).key (.num n)) (t.hmask + 1)
      (t.hashkey (.num n)) with
  | none =>
      rw [search] at found
      cases found
  | some r =>
      rw [search] at found
      cases r with
      | none =>
          cases found
          rfl
      | some i =>
          have isFound := (searchChain_found search).2
          cases isKey : (t.node i).key with
          | num n' => simp [isKey, ljObjEqual, Num.eq, isNan] at isFound
          | _ => simp [isKey, ljObjEqual] at isFound

/-- A field with a value has a place. -/
theorem entry_of_get (wf : t.Wf) (found : t.ljTabGet k = .ok v) (present : v ≠ .nil) :
    k.Settable ∧ ∃ slot, t.Entry k.stored slot ∧ t.read slot = v := by
  have settable : k.Settable := by
    refine ⟨?_, ?_⟩
    · rintro rfl
      cases found
      exact present rfl
    · rintro n rfl
      by_contra isNan
      have isNan : n.isNan = true := by simpa using isNan
      have different : n.eq (.ofInt n.num2int) = false := by simp [Num.eq, isNan]
      change (if n.eq (.ofInt n.num2int) then _ else t.genlookup (.num n)) = .ok v at found
      rw [different, if_neg Bool.false_ne_true] at found
      exact present (genlookup_nan isNan found)
  obtain ⟨m, holds⟩ := wf.exists_holds
  rw [ljTabGet_value wf holds settable] at found
  have value : m k.stored = v := Except.ok.inj found
  refine ⟨settable, ?_⟩
  by_contra none
  have noEntry : ∀ slot, ¬t.Entry k.stored slot := by
    intro slot entry
    exact none ⟨slot, entry, ((holds _ settable.isKey).1 slot entry).trans value⟩
  exact present (value.symm.trans ((holds _ settable.isKey).2 noEntry))

/-! ## Tables with the same keys -/

/-- The keys are where they were. -/
structure SameKeys (t t' : GCtab) : Prop where
  asize : t'.asize = t.asize
  hmask : t'.hmask = t.hmask
  keys : ∀ i, (t'.node i).key = (t.node i).key

omit [StrHash] in
theorem SameKeys.trans {t'' : GCtab} (first : SameKeys t t') (second : SameKeys t' t'') :
    SameKeys t t'' where
  asize := second.asize.trans first.asize
  hmask := second.hmask.trans first.hmask
  keys i := (second.keys i).trans (first.keys i)

section

variable (same : SameKeys t t')
include same

omit [StrHash] in
theorem SameKeys.entry (k : TValue) (slot : TabSlot) : t'.Entry k slot ↔ t.Entry k slot := by
  cases slot with
  | array i => rw [Entry, Entry, same.asize]
  | node i => rw [Entry, Entry, same.keys]

omit [StrHash] in
theorem SameKeys.places : t'.places = t.places := by
  rw [GCtab.places, GCtab.places, same.asize, same.hmask]

omit [StrHash] in
theorem SameKeys.keyAt : t'.keyAt = t.keyAt := by
  funext i
  rw [GCtab.keyAt, GCtab.keyAt, same.asize, same.keys]

omit [StrHash] in
theorem SameKeys.slotAt : t'.slotAt = t.slotAt := by
  funext i
  rw [GCtab.slotAt, GCtab.slotAt, same.asize]

omit [StrHash] in
theorem SameKeys.indexOf : t'.indexOf = t.indexOf := by
  funext slot
  cases slot with
  | array i => rfl
  | node i => rw [GCtab.indexOf, GCtab.indexOf, same.asize]

omit [StrHash] in
theorem SameKeys.limited (limited : t.Limited) : t'.Limited := by
  rw [Limited, same.hmask]
  exact limited

end

omit [StrHash] in
theorem store_sameKeys (t : GCtab) (slot : TabSlot) (v : TValue) : SameKeys t (t.store slot v) := by
  cases slot with
  | array i => exact ⟨rfl, rfl, fun _ => rfl⟩
  | node i =>
      refine ⟨rfl, rfl, fun j => ?_⟩
      change (update t.node i { t.node i with val := v } j).key = _
      by_cases here : j = i
      · rw [here, update_self]
      · rw [update_of_ne here]

/-- A key that has a place is not new. -/
theorem Entry.not_new (entry : t.Entry k slot) (wf : t.Wf) (hashed : t.Hashed k)
    (absent : ∀ i, (t.node i).key ≠ k) : False := by
  cases slot with
  | node i => exact absent i entry.1
  | array i =>
      have small := wf.index_small entry.1
      have outside := hashed.2
      rw [entry.2, arrayKey_ofInt (by omega) small, Bool.eq_false_iff] at outside
      exact outside (inarray_iff.mpr ⟨by omega, by exact_mod_cast entry.1⟩)

end GCtab

/-! ## Assignments to fields -/

namespace TabCall

/-- The key a call assigns to. -/
def assigned : TabCall → Option TValue
  | set key _ => some key
  | setint key _ => some (.num (.ofInt key.toInt))
  | setstr key _ => some (.str key)
  | _ => none

variable [StrHash] {t t' : GCtab} {depth : Nat} {call : TabCall}

/-- The call assigns to a field that exists. -/
def Overwrites (call : TabCall) (t : GCtab) : Prop :=
  ∃ k v, call.assigned = some k ∧ t.ljTabGet k = .ok v ∧ v ≠ .nil

/-- It stores to the place of the field, and that is all it does. -/
theorem Overwrites.store (overwrites : call.Overwrites t) (wf : t.Wf)
    (ran : call.run depth t = .ok t') : ∃ k slot v, t.Entry k slot ∧ t' = t.store slot v := by
  obtain ⟨k, v, assigned, found, present⟩ := overwrites
  obtain ⟨settable, slot, entry, -⟩ := GCtab.entry_of_get wf found present
  have noNew {may : TabError → Prop} {r : Except TabError (TabSlot × GCtab)}
      {good : TabSlot × GCtab → Prop} (hashed : t.Hashed k.stored)
      (absent : ∀ i, (t.node i).key ≠ k.stored) : Foundation.Ends good may r :=
    (entry.not_new wf hashed absent).elim
  have stores {v : TValue} {r : Except TabError (TabSlot × GCtab)}
      (finds : Foundation.Ends (fun r => t.Entry k.stored r.1 ∧ r.2 = t) (fun _ => True) r)
      (ran : (r >>= fun r => pure (r.2.store r.1 v)) = .ok t') :
      ∃ k slot v, t.Entry k slot ∧ t' = t.store slot v := by
    cases r with
    | error e => cases ran
    | ok r =>
        obtain ⟨entry, same⟩ := finds
        cases ran
        exact ⟨_, r.1, v, entry, by rw [same]⟩
  cases call with
  | set key v =>
      cases assigned
      exact stores (GCtab.set_ends _ wf settable.isKey (fun _ entry => ⟨entry, rfl⟩) noNew) ran
  | setint key v =>
      cases assigned
      have low := BitVec.le_toInt key
      have high := BitVec.toInt_lt (x := key)
      have same : (TValue.num (.ofInt key.toInt)).stored = .num (.ofInt key.toInt) :=
        (isKey_ofInt (by omega)).stored
      rw [same] at noNew stores
      exact stores (GCtab.setint_ends _ wf (by omega) (by omega) (fun _ entry => ⟨entry, rfl⟩) noNew) ran
  | setstr key v =>
      cases assigned
      exact stores (GCtab.setstr_ends _ wf (fun _ entry => ⟨entry, rfl⟩) noNew) ran
  | resize asize hbits => cases assigned
  | reasize nasize => cases assigned
  | clear => cases assigned

end TabCall

/-! ## Runs -/

/-- A traversal that has come from key `key` of the table `t` to key `last` of the table
`u`: the tables on the way and the pairs that were returned. -/
inductive Traversal [StrHash] (depth : Nat) :
    GCtab → TValue → List GCtab → List (TValue × TValue) → GCtab → TValue → Prop
  | stop {t : GCtab} {key : TValue} : Traversal depth t key [t] [] t key
  | assign {t t' u : GCtab} {key last : TValue} {call : TabCall} {tables : List GCtab}
      {visited : List (TValue × TValue)} (overwrites : call.Overwrites t)
      (ran : call.run depth t = .ok t') (rest : Traversal depth t' key tables visited u last) :
      Traversal depth t key (t :: tables) visited u last
  | next {t u : GCtab} {key last k v : TValue} {tables : List GCtab}
      {visited : List (TValue × TValue)} (found : t.ljTabNext key = .ok (some (k, v)))
      (rest : Traversal depth t k tables visited u last) :
      Traversal depth t key (t :: tables) ((k, v) :: visited) u last

namespace Traversal

variable [StrHash] {depth : Nat} {t t' u : GCtab} {key last : TValue} {tables : List GCtab}
  {visited : List (TValue × TValue)} {i : Nat}

/-- The place a traversal goes on from after a key. -/
def At (t : GCtab) (key : TValue) (i : Nat) : Prop :=
  (key = .nil ∧ i = 0) ∨ ∃ slot, t.Entry key slot ∧ i = t.indexOf slot + 1

omit [StrHash] in
theorem At.sameKeys (here : At t key i) (same : GCtab.SameKeys t t') : At t' key i := by
  rcases here with isNil | ⟨slot, entry, isIndex⟩
  · exact .inl isNil
  · refine .inr ⟨slot, (same.entry _ _).mpr entry, ?_⟩
    rw [same.indexOf]
    exact isIndex

theorem At.next (here : At t key i) (wf : t.Wf) (limited : t.Limited) :
    t.ljTabNext key = .ok (t.nextFrom i) := by
  rcases here with ⟨rfl, rfl⟩ | ⟨slot, entry, rfl⟩
  · exact t.ljTabNext_nil
  · exact GCtab.ljTabNext_entry wf limited entry

theorem At.le_places (here : At t key i) (wf : t.Wf) : i ≤ t.places := by
  rcases here with ⟨-, rfl⟩ | ⟨slot, entry, rfl⟩
  · exact Nat.zero_le _
  · exact wf.indexOf_lt entry

/-- What a traversal does: the cursor sweeps over the places of the table. -/
structure Swept (t : GCtab) (i : Nat) (tables : List GCtab) (visited : List (TValue × TValue))
    (u : GCtab) (last : TValue) (places : List Nat) (i' : Nat) : Prop where
  sweep : Sweep (fun t j => t.FullAt j) i tables places i'
  keys : GCtab.SameKeys t u
  wf : u.Wf
  here : At u last i'
  reached : u ∈ tables
  returned : visited.map Prod.fst = places.map t.keyAt
  entries : ∀ j ∈ places, t.Entry (t.keyAt j) (t.slotAt j)
  values : ∀ p ∈ visited, p.1.IsKey ∧ ∃ t' ∈ tables, t'.ljTabGet p.1 = .ok p.2 ∧ p.2 ≠ .nil

theorem swept (run : Traversal depth t key tables visited u last) (wf : t.Wf)
    (limited : t.Limited) (here : At t key i) :
    ∃ places i', Swept t i tables visited u last places i' := by
  induction run generalizing i with
  | @stop t key =>
      exact ⟨[], i, .stop, ⟨rfl, rfl, fun _ => rfl⟩, wf, here, List.mem_singleton_self _, rfl, nofun,
        nofun⟩
  | @assign t t' u key last call tables visited overwrites ran rest induction =>
      obtain ⟨k, slot, v, entry, rfl⟩ := overwrites.store wf ran
      have same := t.store_sameKeys slot v
      obtain ⟨places, i', after⟩ := induction (wf.store entry v) (same.limited limited)
        (here.sameKeys same)
      refine ⟨places, i', .change after.sweep, same.trans after.keys, after.wf, after.here,
        List.mem_cons_of_mem _ after.reached, ?_, ?_, ?_⟩
      · rw [after.returned, same.keyAt]
      · intro j member
        have entryJ := after.entries j member
        rwa [same.entry, same.keyAt, same.slotAt] at entryJ
      · intro p member
        obtain ⟨isKey, t', inTables, value⟩ := after.values p member
        exact ⟨isKey, t', List.mem_cons_of_mem _ inTables, value⟩
  | @next t u key last k v tables visited found rest induction =>
      rw [here.next wf limited] at found
      rcases t.nextFrom_cases i with ⟨j, ahead, full, first, returned⟩ | ⟨-, returned⟩
      · rw [returned] at found
        cases found
        have entry := wf.entry_keyAt full
        have isKey := wf.isKey_of_entry entry
        obtain ⟨places, i', after⟩ := induction wf limited
          (.inr ⟨t.slotAt j, entry, congrArg (· + 1) (t.indexOf_slotAt j).symm⟩)
        refine ⟨j :: places, i', .visit ahead full first after.sweep, after.keys, after.wf,
          after.here, List.mem_cons_of_mem _ after.reached, ?_, ?_, ?_⟩
        · rw [List.map_cons, List.map_cons, after.returned]
        · exact List.forall_mem_cons.mpr ⟨entry, after.entries⟩
        · refine List.forall_mem_cons.mpr ⟨⟨isKey, t, List.mem_cons_self, ?_, full.2⟩, ?_⟩
          · exact GCtab.get_entry wf isKey.settable (isKey.stored.symm ▸ entry)
          · intro p member
            obtain ⟨isKey, t', inTables, value⟩ := after.values p member
            exact ⟨isKey, t', List.mem_cons_of_mem _ inTables, value⟩
      · rw [returned] at found
        cases found

section

variable {places : List Nat} {i' : Nat} (swept : Swept t i tables visited u last places i')
include swept

/-- The fields that are visited are different ones. -/
theorem Swept.nodup (wf : t.Wf) : (visited.map Prod.fst).Nodup := by
  rw [swept.returned]
  apply List.Nodup.map_on
  · intro j member j' member' sameKey
    have entry := swept.entries j member
    rw [sameKey] at entry
    have sameSlot := wf.entry_unique entry (swept.entries j' member')
    rw [← t.indexOf_slotAt j, sameSlot, t.indexOf_slotAt]
  · exact swept.sweep.increasing.imp fun less => Nat.ne_of_lt less

theorem Swept.length_le : visited.length ≤ t.places := by
  have count := congrArg List.length swept.returned
  rw [List.length_map, List.length_map] at count
  have ends := swept.sweep.length_le
  have bound := swept.here.le_places swept.wf
  rw [swept.keys.places] at bound
  omega

/-- A field that exists all the time, has been visited where nothing comes next. -/
theorem Swept.complete (limited : t.Limited) (fromStart : i = 0) {k : TValue}
    (wfs : ∀ t' ∈ tables, t'.Wf ∧ GCtab.SameKeys t t')
    (always : ∀ t' ∈ tables, ∃ v, t'.ljTabGet k = .ok v ∧ v ≠ .nil)
    (ends : u.ljTabNext last = .ok none) : k.stored ∈ visited.map Prod.fst := by
  rw [swept.here.next swept.wf (swept.keys.limited limited)] at ends
  obtain ⟨v, found, present⟩ := always u swept.reached
  obtain ⟨settable, slot, entry, -⟩ := GCtab.entry_of_get swept.wf found present
  have full (t' : GCtab) (member : t' ∈ tables) : t'.FullAt (u.indexOf slot) := by
    obtain ⟨wf', same⟩ := wfs t' member
    obtain ⟨v', found', present'⟩ := always t' member
    obtain ⟨-, slot', entry', value'⟩ := GCtab.entry_of_get wf' found' present'
    have here : slot' = slot := by
      apply wf'.entry_unique entry'
      rw [same.entry, ← swept.keys.entry]
      exact entry
    subst here
    have index : u.indexOf slot' = t'.indexOf slot' := by rw [swept.keys.indexOf, same.indexOf]
    rw [index]
    refine ⟨wf'.indexOf_lt entry', ?_⟩
    rw [t'.slotAt_indexOf entry', value']
    exact present'
  have passed : u.indexOf slot < i' := by
    rcases u.nextFrom_cases i' with ⟨j, -, -, -, returned⟩ | ⟨empty, -⟩
    · rw [returned] at ends
      cases ends
    · by_contra ahead
      exact empty _ (Nat.le_of_not_lt ahead) (full u swept.reached)
  have visitedPlace := swept.sweep.complete (k := u.indexOf slot) (by omega) passed full
  rw [swept.returned, ← u.keyAt_indexOf entry, swept.keys.keyAt]
  exact List.mem_map_of_mem visitedPlace

end

/-- On the way the keys stay where they are. -/
theorem wfs (run : Traversal depth t key tables visited u last) (wf : t.Wf) :
    ∀ t' ∈ tables, t'.Wf ∧ GCtab.SameKeys t t' := by
  have start : t.Wf ∧ GCtab.SameKeys t t := ⟨wf, rfl, rfl, fun _ => rfl⟩
  induction run with
  | stop => exact fun t' member => List.mem_singleton.mp member ▸ start
  | @assign t t' u key last call tables visited overwrites ran rest induction =>
      obtain ⟨k, slot, v, entry, rfl⟩ := overwrites.store wf ran
      have same := t.store_sameKeys slot v
      have wf' := wf.store entry v
      refine List.forall_mem_cons.mpr ⟨start, fun t' member => ?_⟩
      obtain ⟨wf'', same'⟩ := induction wf' ⟨wf', rfl, rfl, fun _ => rfl⟩ t' member
      exact ⟨wf'', same.trans same'⟩
  | next _ _ induction => exact List.forall_mem_cons.mpr ⟨start, induction wf start⟩

end Traversal

/-- A traversal of a table of a program, on which existing fields are overwritten or set
to nil between calls: no call fails and there are no more of them than the table has
places; what is returned is in the table; no field is returned twice; and at the end
every field that was there all the time has been returned, with its value where that did
not change. -/
theorem traversal_complete [StrHash] {depth depth' : Nat} {t u : GCtab} {last : TValue}
    {tables : List GCtab} {visited : List (TValue × TValue)} (reached : Reached depth t)
    (run : Traversal depth' t .nil tables visited u last) :
    (∃ r, u.ljTabNext last = .ok r) ∧
    visited.length ≤ t.asize + t.hmask + 1 ∧
    (∀ p ∈ visited, ∃ t' ∈ tables, t'.ljTabGet p.1 = .ok p.2 ∧ p.2 ≠ .nil) ∧
    (visited.Pairwise fun p p' => ljObjEqual p.1 p'.1 = false) ∧
    (u.ljTabNext last = .ok none → ∀ k,
      ((∀ t' ∈ tables, ∃ v, t'.ljTabGet k = .ok v ∧ v ≠ .nil) →
        visited.countP (fun p => ljObjEqual p.1 k) = 1) ∧
      ∀ v ≠ .nil, (∀ t' ∈ tables, t'.ljTabGet k = .ok v) →
        visited.countP (fun p => ljObjEqual p.1 k && p.2 == v) = 1) := by
  obtain ⟨wf, limited⟩ := reached.wf
  obtain ⟨places, i', swept⟩ := run.swept wf limited (.inl ⟨rfl, rfl⟩)
  have wfs := run.wfs wf
  have nodup := swept.nodup wf
  refine ⟨⟨_, swept.here.next swept.wf (swept.keys.limited limited)⟩, swept.length_le,
    fun p member => (swept.values p member).2, ?_, fun ends k => ?_⟩
  · have different := List.pairwise_map.mp nodup
    apply different.imp_of_mem
    intro p p' member member' keys
    rw [Bool.eq_false_iff, ne_eq,
      ljObjEqual_iff (swept.values p member).1 (swept.values p' member').1]
    exact keys
  · have equal (settable : k.Settable) (p : TValue × TValue) (member : p ∈ visited) :
        ljObjEqual p.1 k = true ↔ p.1 = k.stored := by
      have isKey := (swept.values p member).1
      rw [TValue.ljObjEqual_iff_stored isKey.settable settable, isKey.stored]
    have once (always : ∀ t' ∈ tables, ∃ v, t'.ljTabGet k = .ok v ∧ v ≠ .nil) :
        visited.countP (fun p => ljObjEqual p.1 k) = 1 := by
      obtain ⟨v, found, present⟩ := always u swept.reached
      have settable := (GCtab.entry_of_get swept.wf found present).1
      have counts : visited.countP (fun p => ljObjEqual p.1 k) =
          (visited.map Prod.fst).count k.stored := by
        rw [List.count, List.countP_map]
        apply List.countP_congr
        intro p member
        rw [equal settable p member]
        exact beq_iff_eq.symm
      rw [counts]
      exact List.count_eq_one_of_mem nodup (swept.complete limited rfl wfs always ends)
    refine ⟨once, fun v present always => ?_⟩
    rw [← once fun t' member => ⟨v, always t' member, present⟩]
    have settable := (GCtab.entry_of_get swept.wf (always u swept.reached) present).1
    apply List.countP_congr
    intro p member
    rw [Bool.and_eq_true, and_iff_left_iff_imp]
    intro isField
    obtain ⟨-, t', inTables, value, -⟩ := swept.values p member
    rw [(equal settable p member).mp isField, GCtab.get_stored (wfs t' inTables).1 settable,
      always t' inTables] at value
    exact beq_iff_eq.mpr (Except.ok.inj value).symm

/-- A field of the array is visited and set to nil, and nothing comes after it. -/
theorem traversal_complete_cleared :
    ∃ t u, ∃ hash : StrHash, @Reached hash 2 t ∧
      @Traversal hash 2 t .nil [t, t, u] [(.num (.ofInt 2), .bool true)] u (.num (.ofInt 2)) ∧
      (∃ r, @GCtab.ljTabNext hash u (.num (.ofInt 2)) = .ok r) ∧ 1 ≤ t.asize + t.hmask + 1 := by
  let _ : StrHash := ⟨fun _ => 0⟩
  let table (array : Nat → TValue) : GCtab :=
    { asize := 3, array := array, block := 0, colo := true, hmask := 0, node := fun _ => {}, freetop := 0 }
  let full := table (update (fun _ => .nil) 2 (.bool true))
  let cleared := table (update (update (fun _ => .nil) 2 (.bool true)) 2 .nil)
  have new : Reached 2 (table fun _ => .nil) := .new (rfl : GCtab.ljTabNew 3 0 = .ok _)
  have stored : TabCall.run 2 (table fun _ => .nil) (.setint 2 (.bool true)) = .ok full := rfl
  have reached : Reached 2 full := new.call stored
  have found : full.ljTabNext .nil = .ok (some (.num (.ofInt 2), .bool true)) := rfl
  have clears : TabCall.run 2 full (.setint 2 .nil) = .ok cleared := rfl
  have overwrites : (TabCall.setint 2 .nil).Overwrites full :=
    ⟨.num (.ofInt 2), .bool true, rfl, rfl, nofun⟩
  have run : Traversal 2 full .nil [full, full, cleared] [(.num (.ofInt 2), .bool true)] cleared
      (.num (.ofInt 2)) := .next found (.assign overwrites clears .stop)
  obtain ⟨noError, bound, -⟩ := traversal_complete reached run
  exact ⟨full, cleared, _, reached, run, noError, bound⟩

end TvmJit.Tab
