import TvmJit.Tab.Rehash

/-! Tables that hold some of the pairs of another one: what is left on the way when storing
a key or resizing fails. -/

namespace TvmJit.Tab

open Foundation Function

namespace GCtab

variable [StrHash] {t u : GCtab} {k v : TValue}

/-- All pairs of the table `u` are pairs of the table `t`. -/
structure Leaves (t u : GCtab) : Prop where
  pairs : ∀ k slot, u.Entry k slot → u.read slot ≠ .nil → ∃ slot', t.Entry k slot' ∧ t.read slot' = u.read slot
  keys : ∀ i, (u.node i).key ≠ .nil → (u.node i).key.IsKey

/-- The key has no value. -/
def Missing (u : GCtab) (k : TValue) : Prop := ∀ slot, u.Entry k slot → u.read slot = .nil

omit [StrHash] in
theorem Leaves.trans {t' : GCtab} (first : Leaves t t') (second : Leaves t' u) : Leaves t u where
  pairs k slot entry value := by
    obtain ⟨slot', entry', same⟩ := second.pairs k slot entry value
    obtain ⟨slot'', entry'', same'⟩ := first.pairs k slot' entry' (same.symm ▸ value)
    exact ⟨slot'', entry'', same'.trans same⟩
  keys := second.keys

omit [StrHash] in
theorem Leaves.missing (leaves : Leaves t u) (missing : t.Missing k) : u.Missing k := by
  intro slot entry
  by_contra value
  obtain ⟨slot', entry', same⟩ := leaves.pairs k slot entry value
  exact value (same.symm.trans (missing slot' entry'))

theorem Leaves.refl (wf : t.Wf) : Leaves t t :=
  ⟨fun _ slot entry _ => ⟨slot, entry, rfl⟩, fun i used => (wf.keys i used).1⟩

/-- The pairs of a table are those of the map it holds. -/
theorem Leaves.of_holds (wf : t.Wf) (wfU : u.Wf)
    (values : ∀ m, t.Holds m → ∃ m₀, u.Holds m₀ ∧ ∀ k, k.IsKey → m₀ k = .nil ∨ m₀ k = m k) : Leaves t u where
  pairs k slot entry value := by
    obtain ⟨m, holds⟩ := wf.exists_holds
    obtain ⟨m₀, holdsU, same⟩ := values m holds
    have isKey := wfU.isKey_of_entry entry
    have reads := (holdsU k isKey).1 slot entry
    have isValue : m₀ k = m k := (same k isKey).resolve_left fun isNil => value (reads.trans isNil)
    have stored : ∃ slot', t.Entry k slot' := by
      by_contra none
      exact value (reads.trans (isValue.trans ((holds k isKey).2 (not_exists.mp none))))
    obtain ⟨slot', entry'⟩ := stored
    exact ⟨slot', entry', ((holds k isKey).1 slot' entry').trans (isValue.symm.trans reads.symm)⟩
  keys i used := (wfU.keys i used).1

theorem Keeps.leaves (keeps : Keeps t u) (wf : t.Wf) : Leaves t u :=
  .of_holds wf keeps.wf fun m holds => ⟨m, keeps.holds m holds, fun _ _ => .inr rfl⟩

/-! ## On the way -/

variable {base : GCtab} {pairs : List (TValue × TValue)}

/-- The table `u` holds what `t` held, but for pairs of `t` that are still to be stored. -/
structure Lacking (t base : GCtab) (pairs : List (TValue × TValue)) (u : GCtab) : Prop where
  wf : u.Wf
  limited : u.Limited
  values : ∀ m, t.Holds m → ∃ m₀, u.Holds m₀ ∧
    ∀ k, k.IsKey → (k ∈ pairs.map Prod.fst → m₀ k = .nil) ∧ (k ∉ pairs.map Prod.fst → m₀ k = m k)
  distinct : (pairs.map Prod.fst).Nodup
  theirs : ∀ pair ∈ pairs, pair.1.IsKey ∧ pair.2 ≠ .nil ∧ ∃ slot, t.Entry pair.1 slot ∧ t.read slot = pair.2
  block : base.block ≤ u.block
  asize : u.block = base.block → u.asize ≤ base.asize

theorem Lacking.leaves (lacking : Lacking t base pairs u) (wf : t.Wf) : Leaves t u := by
  apply Leaves.of_holds wf lacking.wf
  intro m holds
  obtain ⟨m₀, holdsU, same⟩ := lacking.values m holds
  refine ⟨m₀, holdsU, fun k isKey => ?_⟩
  by_cases pending : k ∈ pairs.map Prod.fst
  · exact .inl ((same k isKey).1 pending)
  · exact .inr ((same k isKey).2 pending)

/-- What is still to be stored has no value. -/
theorem Lacking.missing (lacking : Lacking t base ((k, v) :: pairs) u) (wf : t.Wf) : u.Missing k := by
  obtain ⟨m, holds⟩ := wf.exists_holds
  obtain ⟨m₀, holdsU, same⟩ := lacking.values m holds
  have isKey := (lacking.theirs (k, v) List.mem_cons_self).1
  intro slot entry
  exact ((holdsU k isKey).1 slot entry).trans ((same k isKey).1 List.mem_cons_self)

theorem Lacking.store {u' : GCtab} {slot : TabSlot} (lacking : Lacking t base ((k, v) :: pairs) u)
    (adds : Adds u k slot u') (limited : u'.Limited) : Lacking t base pairs (u'.store slot v) where
  wf := adds.keeps.wf.store adds.entry v
  limited := limited.store slot v
  values m holds := by
    obtain ⟨m₀, holdsU, same⟩ := lacking.values m holds
    have stored := (adds.keeps.holds m₀ holdsU).store adds.keeps.wf adds.entry v
    obtain ⟨-, -, slot', entry', value⟩ := lacking.theirs (k, v) List.mem_cons_self
    have fresh := (List.nodup_cons.mp lacking.distinct).1
    refine ⟨_, stored, fun k' isKey' => ?_⟩
    by_cases here : k' = k
    · subst here
      refine ⟨fun pending => absurd pending fresh, fun _ => ?_⟩
      rw [update_self]
      exact value.symm.trans ((holds k' isKey').1 slot' entry')
    · rw [update_of_ne here]
      refine ⟨fun pending => (same k' isKey').1 (List.mem_cons_of_mem _ pending), fun notPending => ?_⟩
      exact (same k' isKey').2 fun pending => notPending (List.mem_of_ne_of_mem here pending)
  distinct := (List.nodup_cons.mp lacking.distinct).2
  theirs pair member := lacking.theirs pair (List.mem_cons_of_mem _ member)
  block := by
    have low := adds.keeps.block
    cases slot <;> exact lacking.block.trans low
  asize same := by
    have low := adds.keeps.block
    have lowBase := lacking.block
    have same : u'.block = base.block := by cases slot <;> exact same
    have small := (adds.keeps.asize (by omega)).trans (lacking.asize (by omega))
    cases slot <;> exact small

theorem Lacking.realloc (lacking : Lacking t base pairs u) : Lacking t base pairs { u with block := u.block + 1 } where
  wf := lacking.wf.realloc _
  limited := lacking.limited
  values := lacking.values
  distinct := lacking.distinct
  theirs := lacking.theirs
  block := Nat.le_succ_of_le lacking.block
  asize same := by
    have low := lacking.block
    change u.block + 1 = base.block at same
    omega

/-- Nothing is stored twice. -/
theorem pending_distinct (wf : t.Wf) (asize : Nat) :
    ((t.cutPairs asize ++ t.nodePairs).map Prod.fst).Nodup := by
  rw [List.map_append, cutPairs_keys, nodePairs_keys, List.nodup_append]
  refine ⟨?_, ?_, ?_⟩
  · apply List.Nodup.map_on
    · intro i member j member' same
      have inside {i : Nat} (member : i ∈ (List.range' asize (t.asize - asize)).filter fun i => t.array i ≠ .nil) :
          i < t.asize := by
        have place := List.mem_range'_1.mp (List.mem_of_mem_filter member)
        omega
      have entry : t.Entry (.num (.ofInt i)) (.array i) := ⟨inside member, rfl⟩
      have entry' : t.Entry (.num (.ofInt i)) (.array j) := ⟨inside member', same⟩
      exact TabSlot.array.inj (wf.entry_unique entry entry')
    · exact List.Nodup.filter _ List.nodup_range'
  · rw [nodeKeys, List.filterMap_map]
    apply List.Nodup.filterMap
    · intro i j k isKey isKey'
      have entry {i : Nat} (isKey : k ∈ (if (t.node i).val = .nil then none else some (t.node i).key)) :
          t.Entry k (.node i) := by
        split at isKey
        · cases isKey
        · next valued =>
            cases isKey
            exact ⟨rfl, fun isNil => valued (wf.valued i isNil)⟩
      exact TabSlot.node.inj (wf.entry_unique (entry isKey) (entry isKey'))
    · exact List.nodup_range
  · rintro k inCut _ inNodes rfl
    obtain ⟨i, member, rfl⟩ := List.mem_map.mp inCut
    have place := List.mem_range'_1.mp (List.mem_of_mem_filter member)
    obtain ⟨n, inTable, isKey⟩ := List.mem_filterMap.mp inNodes
    obtain ⟨j, -, rfl⟩ := List.mem_map.mp inTable
    split at isKey
    · cases isKey
    · next valued =>
        have same : (t.node j).key = .num (.ofInt i) := Option.some.inj isKey
        have entry : t.Entry (.num (.ofInt i)) (.array i) := ⟨by omega, rfl⟩
        have entry' : t.Entry (.num (.ofInt i)) (.node j) := ⟨same, by simp⟩
        cases wf.entry_unique entry entry'

theorem lacking_start (wf : t.Wf) {asize hbits : Nat} (fresh : Fresh t asize hbits base)
    (limited : base.Limited) : Lacking t base (t.cutPairs asize ++ t.nodePairs) base where
  wf := fresh.wf
  limited := limited
  values m holds := by
    refine ⟨_, fresh.holds holds, fun k isKey => ⟨fun pending => ?_, fun notPending => ?_⟩⟩
    · obtain ⟨pair, member, rfl⟩ := List.mem_map.mp pending
      obtain ⟨-, -, noPlace, -⟩ := pending_pair wf fresh.asize member
      exact if_neg (by rw [noPlace]; exact Bool.false_ne_true)
    · exact fresh.kept wf holds isKey fun pair member same => notPending (List.mem_map.mpr ⟨pair, member, same⟩)
  distinct := pending_distinct wf asize
  theirs pair member := by
    obtain ⟨isKey, value, -, stored⟩ := pending_pair wf fresh.asize member
    exact ⟨isKey, value, stored⟩
  block := le_rfl
  asize _ := le_rfl

/-- A table that lacks nothing. -/
theorem Lacking.keeps {asize hbits : Nat} (lacking : Lacking t base [] u) (fresh : Fresh t asize hbits base) :
    Keeps t u where
  wf := lacking.wf
  holds m holds := by
    obtain ⟨m₀, holdsU, same⟩ := lacking.values m holds
    intro k isKey
    rw [← (same k isKey).2 (List.not_mem_nil (a := k))]
    exact holdsU k isKey
  block := fresh.block.trans lacking.block
  asize same := by
    have low := fresh.block
    have high := lacking.block
    have bound := lacking.asize (by omega)
    rw [fresh.asize] at bound
    exact bound.trans (fresh.grew (by omega))

/-- A pair of the table `t` is lost. -/
def Loses (t u : GCtab) : Prop :=
  Leaves t u ∧ ∃ k slot, k.IsKey ∧ t.Entry k slot ∧ t.read slot ≠ .nil ∧ u.Missing k

theorem Lacking.loses (lacking : Lacking t base ((k, v) :: pairs) u) (wf : t.Wf) {u' : GCtab}
    (leaves : Leaves u u') : Loses t u' := by
  obtain ⟨isKey, value, slot, entry, same⟩ := lacking.theirs (k, v) List.mem_cons_self
  exact ⟨(lacking.leaves wf).trans leaves, k, slot, isKey, entry, same.symm ▸ value,
    leaves.missing (lacking.missing wf)⟩

end GCtab

end TvmJit.Tab
