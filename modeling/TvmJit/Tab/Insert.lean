import TvmJit.Tab.Table
import TvmJit.Foundation.Scatter

/-! What a table holds, and that a new key leaves it as it is. -/

namespace TvmJit.Tab

open Foundation Function

namespace TabNode

/-- The key of a node, dead or alive. -/
def key? (n : TabNode) : Option TValue := if n.key = .nil then none else some n.key

theorem key?_eq_some {n : TabNode} {k : TValue} : n.key? = some k ↔ n.key = k ∧ k ≠ .nil := by
  unfold key?
  split
  · next isNil => simp [isNil, eq_comm]
  · next notNil =>
      rw [Option.some.injEq]
      exact ⟨fun same => ⟨same, same ▸ notNil⟩, And.left⟩

theorem key?_eq_none {n : TabNode} : n.key? = none ↔ n.key = .nil := by
  unfold key?
  split <;> simp [*]

theorem key?_isSome {n : TabNode} : n.key?.isSome = true ↔ n.key ≠ .nil := by
  rw [Option.isSome_iff_ne_none, ne_eq, key?_eq_none]

end TabNode

/-! ## Keys -/

/-- What a key is stored as: `-0` is `+0`. -/
def TValue.stored : TValue → TValue
  | .num n => .num (if n.isMzero then 0 else n)
  | k => k

/-- The key may be stored, and is stored as it is. -/
def TValue.IsKey : TValue → Prop
  | .nil => False
  | .num n => n.isNan = false ∧ n.isMzero = false
  | _ => True

theorem TValue.IsKey.ne_nil {k : TValue} (isKey : k.IsKey) : k ≠ .nil := by
  rintro rfl
  exact isKey

theorem TValue.IsKey.stored {k : TValue} (isKey : k.IsKey) : k.stored = k := by
  cases k with
  | num n => simp [TValue.stored, isKey.2]
  | _ => rfl

/-- Keys that may be stored are equal only if they are the same. -/
theorem ljObjEqual_iff {k k' : TValue} (isKey : k.IsKey) (isKey' : k'.IsKey) :
    ljObjEqual k k' = true ↔ k = k' := by
  have same (n n' : Num) (notNan : n.isNan = false) (notZero : n.isMzero = false)
      (notZero' : n'.isMzero = false) (equal : n.eq n' = true) : n = n' := by
    obtain ⟨-, -, same | ⟨zero, zero'⟩⟩ := Num.eq_true_iff.mp equal
    · exact same
    · rcases Num.isZero_iff.mp zero with rfl | rfl
      · rcases Num.isZero_iff.mp zero' with rfl | rfl
        · rfl
        · cases notZero'
      · cases notZero
  cases k with
  | num n =>
      cases k' with
      | num n' =>
          constructor
          · intro equal
            rw [same n n' isKey.1 isKey.2 isKey'.2 equal]
          · intro same
            cases same
            exact Num.eq_self_of_not_nan isKey.1
      | _ => simp [ljObjEqual]
  | _ => cases k' <;> simp [ljObjEqual]

theorem isNumKey_iff {n : Num} {k : TValue} (isKey : k.IsKey) (isKey' : (TValue.num n).IsKey) :
    isNumKey n k = true ↔ k = .num n := by
  cases k with
  | num n' => exact ljObjEqual_iff isKey isKey'
  | _ => simp [isNumKey]

theorem isKey_ofInt {k : Int} (small : k.natAbs < 2 ^ 53) : (TValue.num (Num.ofInt k)).IsKey := by
  refine ⟨Num.isNan_ofInt small, ?_⟩
  by_cases zero : k = 0
  · rw [zero]
    decide
  · have exponent := (Num.fields_ofInt zero small).1
    rw [Num.isMzero, beq_eq_false_iff_ne]
    intro same
    rw [same] at exponent
    have none : Num.expBits 0x8000000000000000 = 0 := by decide
    omega

namespace GCtab

/-- The place of an integer key is in the array. -/
def arrayKey (t : GCtab) : TValue → Bool
  | .num n => n.eq (.ofInt n.num2int) && t.inarray n.num2int
  | _ => false

/-- The key belongs to the hash part. -/
def Hashed (t : GCtab) (k : TValue) : Prop := k.IsKey ∧ t.arrayKey k = false

theorem inarray_iff {t : GCtab} {k : Int} : t.inarray k = true ↔ 0 ≤ k ∧ k < t.asize := by
  simp [inarray]

theorem arrayKey_ofInt {t : GCtab} {k : Int} (low : -2147483648 ≤ k) (high : k < 2147483648) :
    t.arrayKey (.num (.ofInt k)) = t.inarray k := by
  rw [arrayKey, Num.num2int_ofInt low high, Num.eq_self_of_not_nan (Num.isNan_ofInt (by omega)),
    Bool.true_and]

/-- A key of the array is its index. -/
theorem eq_of_arrayKey {t : GCtab} {k : TValue} (isKey : k.IsKey) (inArray : t.arrayKey k = true) :
    ∃ i : Nat, i < t.asize ∧ k = .num (.ofInt i) := by
  cases k with
  | num n =>
      rw [arrayKey, Bool.and_eq_true, inarray_iff] at inArray
      obtain ⟨equal, low, high⟩ := inArray
      refine ⟨n.num2int.toNat, by omega, ?_⟩
      rw [Int.toNat_of_nonneg low]
      have range := n.num2int_range
      exact (ljObjEqual_iff isKey (isKey_ofInt (by omega))).mp equal
  | _ => cases inArray

/-! ## The invariant -/

variable [StrHash]

structure Wf (t : GCtab) : Prop where
  small : t.asize ≤ maxAsize
  table : Scattered t.hashkey (fun i => (t.node i).key?) t.nextnode
  /-- There are no other nodes. -/
  outside : ∀ i, t.hmask < i → t.node i = {}
  valued : ∀ i, (t.node i).key = .nil → (t.node i).val = .nil
  keys : ∀ i, (t.node i).key ≠ .nil → t.Hashed (t.node i).key
  /-- The nodes from `freetop` on are taken. -/
  top : t.freetop ≤ t.hmask + 1
  taken : t.hmask ≠ 0 → ∀ i, t.freetop ≤ i → i ≤ t.hmask → (t.node i).key ≠ .nil
  /-- The shared node is never written to. -/
  shared : t.hmask = 0 → t.freetop = 0 ∧ ∀ i, t.node i = {}

/-- The values with the key. -/
def Entry (t : GCtab) (k : TValue) : TabSlot → Prop
  | .array i => i < t.asize ∧ k = .num (.ofInt i)
  | .node i => (t.node i).key = k ∧ k ≠ .nil

/-- The table holds the values of the map. -/
def Holds (t : GCtab) (m : TValue → TValue) : Prop :=
  ∀ k, k.IsKey → (∀ slot, t.Entry k slot → t.read slot = m k) ∧
    ((∀ slot, ¬t.Entry k slot) → m k = .nil)

omit [StrHash] in
theorem hashmask_le (t : GCtab) (hash : BitVec 32) : t.hashmask hash ≤ t.hmask :=
  Nat.and_le_right

theorem hashkey_le (t : GCtab) (k : TValue) : t.hashkey k ≤ t.hmask := by
  cases k <;> exact t.hashmask_le _

namespace Wf

variable {t : GCtab} {k : TValue}

theorem le_of_key (wf : t.Wf) {i : Nat} (used : (t.node i).key ≠ .nil) : i ≤ t.hmask := by
  by_contra high
  rw [wf.outside i (by omega)] at used
  exact used rfl

theorem next_le (wf : t.Wf) {a b : Nat} (link : t.nextnode a = some b) : b ≤ t.hmask :=
  wf.le_of_key (TabNode.key?_isSome.mp (wf.table.linked a b link).2)

/-- Array indices are numbers of 32 bits. -/
theorem index_small (wf : t.Wf) {i : Nat} (inside : i < t.asize) : (i : Int) < 2147483648 := by
  have bound := wf.small
  have limit : maxAsize < 2147483648 := by decide
  omega

theorem entry_unique (wf : t.Wf) {slot slot' : TabSlot} (entry : t.Entry k slot)
    (entry' : t.Entry k slot') : slot = slot' := by
  have apart {i j : Nat} (inside : i < t.asize) (isKey : k = .num (.ofInt i))
      (isNode : (t.node j).key = k) (notNil : k ≠ .nil) : False := by
    have hashed := (wf.keys j (isNode ▸ notNil)).2
    have small := wf.index_small inside
    rw [isNode, isKey, arrayKey_ofInt (by omega) small, Bool.eq_false_iff] at hashed
    exact hashed (inarray_iff.mpr ⟨by omega, by omega⟩)
  cases slot with
  | array i =>
      cases slot' with
      | array j =>
          have small := wf.index_small entry.1
          have small' := wf.index_small entry'.1
          have same := entry.2.symm.trans entry'.2
          have equal : (i : Int) = j := by
            rw [← Num.num2int_ofInt (k := (i : Int)) (by omega) small, TValue.num.inj same,
              Num.num2int_ofInt (by omega) small']
          rw [Int.ofNat_inj.mp equal]
      | node j => exact (apart entry.1 entry.2 entry'.1 entry'.2).elim
  | node i =>
      cases slot' with
      | array j => exact (apart entry'.1 entry'.2 entry.1 entry.2).elim
      | node j =>
          rw [wf.table.unique i j k (TabNode.key?_eq_some.mpr entry) (TabNode.key?_eq_some.mpr entry')]

/-! ## Search -/

/-- A search comes to an end. -/
theorem search_ends (wf : t.Wf) (found : TValue → Bool) (k : TValue) :
    searchChain t.nextnode (fun i => found (t.node i).key) (t.hmask + 1) (t.hashkey k) ≠ none := by
  apply searchChain_ends wf.table.chains (Finset.range (t.hmask + 1))
  · exact Finset.mem_range.mpr (Nat.lt_succ_of_le (t.hashkey_le k))
  · exact fun a b link => Finset.mem_range.mpr (Nat.lt_succ_of_le (wf.next_le link))
  · rw [Finset.card_range]

/-- What a chain is searched for. -/
theorem findNode (wf : t.Wf) (isKey : k.IsKey) {found : TValue → Bool}
    (finds : ∀ k', k'.IsKey → (found k' = true ↔ k' = k)) (notNil : found .nil = false) :
    (∃ i, t.findNode found (t.hashkey k) = .ok (some i) ∧ t.Entry k (.node i)) ∨
      (t.findNode found (t.hashkey k) = .ok none ∧ ∀ i, (t.node i).key ≠ k) := by
  have ends := wf.search_ends found k
  unfold GCtab.findNode
  cases search : searchChain t.nextnode (fun i => found (t.node i).key) (t.hmask + 1)
      (t.hashkey k) with
  | none => exact absurd search ends
  | some r =>
      cases r with
      | some i =>
          have isFound := (searchChain_found search).2
          have used : (t.node i).key ≠ .nil := fun isNil => by
            rw [isNil, notNil] at isFound
            cases isFound
          exact .inl ⟨i, rfl, (finds _ (wf.keys i used).1).mp isFound, isKey.ne_nil⟩
      | none =>
          have absent := wf.table.absent_of_missed search fun a stored => by
            rw [(TabNode.key?_eq_some.mp stored).1]
            exact (finds k isKey).mpr rfl
          exact .inr ⟨rfl, fun i same => absent i (TabNode.key?_eq_some.mpr ⟨same, isKey.ne_nil⟩)⟩

end Wf

/-! ## Changes that keep what a table holds -/

/-- The table holds what it did. The array is the same allocation only if it did not
grow. -/
structure Keeps (t t' : GCtab) : Prop where
  wf : t'.Wf
  holds : ∀ m, t.Holds m → t'.Holds m
  block : t.block ≤ t'.block
  asize : t'.block = t.block → t'.asize ≤ t.asize

theorem Keeps.refl {t : GCtab} (wf : t.Wf) : Keeps t t :=
  ⟨wf, fun _ holds => holds, le_rfl, fun _ => le_rfl⟩

theorem Keeps.trans {t t' t'' : GCtab} (first : Keeps t t') (second : Keeps t' t'') : Keeps t t'' where
  wf := second.wf
  holds m holds := second.holds m (first.holds m holds)
  block := first.block.trans second.block
  asize same := by
    have low := first.block
    have high := second.block
    exact (second.asize (by omega)).trans (first.asize (by omega))

omit [StrHash] in
/-- Values may move, appear as nil and disappear as nil. -/
theorem Holds.move {t t' : GCtab} {m : TValue → TValue} (holds : t.Holds m)
    (arrives : ∀ k slot', k.IsKey → t'.Entry k slot' →
      (∃ slot, t.Entry k slot ∧ t'.read slot' = t.read slot) ∨
        (t'.read slot' = .nil ∧ ∀ slot, ¬t.Entry k slot))
    (leaves : ∀ k slot, k.IsKey → t.Entry k slot → (∃ slot', t'.Entry k slot') ∨ t.read slot = .nil) :
    t'.Holds m := by
  intro k isKey
  obtain ⟨values, absent⟩ := holds k isKey
  refine ⟨fun slot' entry => ?_, fun none => ?_⟩
  · rcases arrives k slot' isKey entry with ⟨slot, old, same⟩ | ⟨isNil, new⟩
    · rw [same, values slot old]
    · rw [isNil, absent new]
  · by_cases stored : ∃ slot, t.Entry k slot
    · obtain ⟨slot, old⟩ := stored
      rcases leaves k slot isKey old with ⟨slot', new⟩ | isNil
      · exact absurd new (none slot')
      · rw [← values slot old, isNil]
    · exact absent (not_exists.mp stored)

/-- A store changes the value of the key. -/
theorem Holds.store {t : GCtab} {m : TValue → TValue} {k : TValue} {slot : TabSlot} (holds : t.Holds m)
    (wf : t.Wf) (entry : t.Entry k slot) (v : TValue) :
    (t.store slot v).Holds (update m k v) := by
  have sameEntries (k' : TValue) (slot' : TabSlot) :
      (t.store slot v).Entry k' slot' ↔ t.Entry k' slot' := by
    cases slot with
    | array i => cases slot' <;> exact Iff.rfl
    | node i =>
        cases slot' with
        | array j => exact Iff.rfl
        | node j =>
            change (update t.node i { t.node i with val := v } j).key = k' ∧ _ ↔ _
            by_cases same : j = i
            · rw [same, update_self]
              exact Iff.rfl
            · rw [update_of_ne same]
              exact Iff.rfl
  have reads (slot' : TabSlot) :
      (t.store slot v).read slot' = if slot' = slot then v else t.read slot' := by
    cases slot <;> cases slot' <;> simp [GCtab.store, read, update_apply]
    split <;> rfl
  intro k' isKey
  obtain ⟨values, absent⟩ := holds k' isKey
  by_cases same : k' = k
  · subst same
    rw [update_self]
    refine ⟨fun slot' entry' => ?_, fun none => ?_⟩
    · rw [reads, if_pos (wf.entry_unique ((sameEntries _ _).mp entry') entry)]
    · exact absurd ((sameEntries _ _).mpr entry) (none slot)
  · rw [update_of_ne same]
    refine ⟨fun slot' entry' => ?_, fun none => absent fun slot' => ?_⟩
    · have other : slot' ≠ slot := by
        rintro rfl
        have entry' := (sameEntries _ _).mp entry'
        cases slot' with
        | array i => exact same (entry'.2.trans entry.2.symm)
        | node i => exact same (entry'.1.symm.trans entry.1)
      rw [reads, if_neg other, values slot' ((sameEntries _ _).mp entry')]
    · exact fun entry' => none slot' ((sameEntries _ _).mpr entry')

theorem Wf.store {t : GCtab} {k : TValue} {slot : TabSlot} (wf : t.Wf) (entry : t.Entry k slot)
    (v : TValue) : (t.store slot v).Wf := by
  cases slot with
  | array i => exact ⟨wf.small, wf.table, wf.outside, wf.valued, wf.keys, wf.top, wf.taken, wf.shared⟩
  | node i =>
      have used : (t.node i).key ≠ .nil := fun isNil => entry.2 (entry.1.symm.trans isNil)
      have keys (j : Nat) : (update t.node i { t.node i with val := v } j).key = (t.node j).key := by
        by_cases same : j = i
        · rw [same, update_self]
        · rw [update_of_ne same]
      have nexts (j : Nat) : (update t.node i { t.node i with val := v } j).next = (t.node j).next := by
        by_cases same : j = i
        · rw [same, update_self]
        · rw [update_of_ne same]
      refine ⟨wf.small, ?_, fun j high => ?_, fun j isNil => ?_, fun j => ?_, wf.top, fun some j => ?_,
        fun none => ?_⟩
      · have sameKeys : (fun j => ((t.store (.node i) v).node j).key?) = fun j => (t.node j).key? := by
          funext j
          simp only [TabNode.key?, GCtab.store, keys]
        have sameNexts : (t.store (.node i) v).nextnode = t.nextnode := funext nexts
        rw [sameKeys, sameNexts]
        exact wf.table
      · have other : j ≠ i := by
          rintro rfl
          exact used (by rw [wf.outside _ high])
        change update t.node i _ j = _
        rw [update_of_ne other, wf.outside j high]
      · have oldNil : (t.node j).key = .nil := (keys j).symm.trans isNil
        have other : j ≠ i := fun same => used (same ▸ oldNil)
        change (update t.node i _ j).val = _
        rw [update_of_ne other, wf.valued j oldNil]
      · change (update t.node i _ j).key ≠ _ → Hashed _ (update t.node i _ j).key
        rw [keys]
        exact wf.keys j
      · change _ → _ → (update t.node i _ j).key ≠ _
        rw [keys]
        exact wf.taken some j
      · exact absurd (by rw [(wf.shared none).2 i]) used

end GCtab

end TvmJit.Tab
