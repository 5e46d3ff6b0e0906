import TvmJit.Tab.Limit
import TvmJit.Foundation.Sweep

/-! Table traversal: `lj_tab_next` finds the key it is given again, and goes on from its
place. The places of a table are those of the array and behind them those of the nodes. -/

namespace TvmJit.Tab

open Foundation Function

inductive NextError
  | tab (e : TabError)
  /-- `LJ_ERR_NEXTIDX`. -/
  | nextidx
  deriving DecidableEq, Repr

namespace GCtab

section

variable [StrHash]

/-- The array index of a key, where it is one. -/
def arrayIndex (t : GCtab) : TValue → Option Nat
  | .num nk =>
      let k := nk.num2int
      if t.inarray k && nk.eq (.ofInt k) then some k.toNat else none
  | _ => none

/-- What a despecialized ITERN has as its control variable: the low word is the index of
the next place. -/
def iternIndex : TValue → Option (BitVec 32)
  | .num n => if n.extractLsb' 32 32 = 0xfffe7fff then some (n.extractLsb' 0 32) else none
  | _ => none

/-- `keyindex`: the traversal index of a key, a number of 32 bits. -/
def keyindex (t : GCtab) (key : TValue) : Except NextError Nat :=
  match t.arrayIndex key with
  | some k => .ok k
  | none =>
      if key = .nil then .ok (2 ^ 32 - 1)
      else
        match t.findNode (ljObjEqual · key) (t.hashkey key) with
        | .error e => .error (.tab e)
        | .ok (some n) => .ok ((t.asize + n) % 2 ^ 32)
        | .ok none =>
            match iternIndex key with
            | some next => .ok (next - 1).toNat
            | none => .error .nextidx

/-- The part of `lj_tab_next` after `keyindex`: from the place `i` on, first the array,
then the nodes. -/
def nextFrom (t : GCtab) (i : Nat) : Option (TValue × TValue) :=
  match firstFull (fun i => t.array i != .nil) i t.asize with
  | some i => some (.num (.ofInt i), t.array i)
  | none =>
      (firstFull (fun i => (t.node i).val != .nil) (i - t.asize) (t.hmask + 1)).map fun n =>
        ((t.node n).key, (t.node n).val)

/-- `lj_tab_next`: the next key and its value, or nothing at the end. -/
def ljTabNext (t : GCtab) (key : TValue) : Except NextError (Option (TValue × TValue)) := do
  let i ← t.keyindex key
  return t.nextFrom ((i + 1) % 2 ^ 32)

end

/-! ## Places -/

/-- How many places there are. -/
def places (t : GCtab) : Nat := t.asize + t.hmask + 1

def slotAt (t : GCtab) (i : Nat) : TabSlot :=
  if i < t.asize then .array i else .node (i - t.asize)

def keyAt (t : GCtab) (i : Nat) : TValue :=
  if i < t.asize then .num (.ofInt i) else (t.node (i - t.asize)).key

/-- The place has a value. -/
def FullAt (t : GCtab) (i : Nat) : Prop := i < t.places ∧ t.read (t.slotAt i) ≠ .nil

/-- Which place a slot is. -/
def indexOf (t : GCtab) : TabSlot → Nat
  | .array i => i
  | .node i => t.asize + i

theorem indexOf_slotAt (t : GCtab) (i : Nat) : t.indexOf (t.slotAt i) = i := by
  unfold slotAt
  split
  · rfl
  · change t.asize + (i - t.asize) = i
    omega

theorem slotAt_indexOf (t : GCtab) {slot : TabSlot} {k : TValue} (entry : t.Entry k slot) :
    t.slotAt (t.indexOf slot) = slot := by
  cases slot with
  | array i => exact if_pos entry.1
  | node i =>
      change (if t.asize + i < t.asize then _ else TabSlot.node (t.asize + i - t.asize)) = _
      rw [if_neg (by omega), Nat.add_sub_cancel_left]

section

variable [StrHash] {t : GCtab} {k : TValue}

theorem Wf.indexOf_lt (wf : t.Wf) {slot : TabSlot} (entry : t.Entry k slot) :
    t.indexOf slot < t.places := by
  cases slot with
  | array i =>
      have inside := entry.1
      change i < t.asize + t.hmask + 1
      omega
  | node i =>
      have low := wf.le_of_key (fun isNil => entry.2 (entry.1.symm.trans isNil))
      change t.asize + i < t.asize + t.hmask + 1
      omega

/-- A full place has a key. -/
theorem Wf.entry_keyAt (wf : t.Wf) {i : Nat} (full : t.FullAt i) :
    t.Entry (t.keyAt i) (t.slotAt i) := by
  have value := full.2
  unfold keyAt slotAt at *
  split
  · next inside => exact ⟨inside, rfl⟩
  · next outside =>
      rw [if_neg outside] at value
      exact ⟨rfl, fun isNil => value (wf.valued _ isNil)⟩

theorem Wf.isKey_of_entry (wf : t.Wf) {slot : TabSlot} (entry : t.Entry k slot) : k.IsKey := by
  cases slot with
  | array i =>
      have small := wf.index_small entry.1
      rw [entry.2]
      exact isKey_ofInt (by omega)
  | node i =>
      obtain ⟨isKeyI, notNil⟩ := entry
      rw [← isKeyI] at notNil ⊢
      exact (wf.keys i notNil).1

omit [StrHash] in
/-- A key has one place. -/
theorem keyAt_indexOf (t : GCtab) {slot : TabSlot} (entry : t.Entry k slot) :
    t.keyAt (t.indexOf slot) = k := by
  cases slot with
  | array i => exact (if_pos entry.1).trans entry.2.symm
  | node i =>
      change (if t.asize + i < t.asize then _ else (t.node (t.asize + i - t.asize)).key) = _
      rw [if_neg (by omega), Nat.add_sub_cancel_left]
      exact entry.1

/-- Indices fit in 32 bits. -/
theorem Wf.places_lt (wf : t.Wf) (limited : t.Limited) : t.places < 2 ^ 32 := by
  have asize := wf.small
  have limit : maxAsize + 2 ^ maxHbits < 2 ^ 32 := by decide
  unfold Limited at limited
  unfold places
  omega

/-! ## One call -/

omit [StrHash] in
theorem arrayIndex_none (outside : t.arrayKey k = false) : t.arrayIndex k = none := by
  cases k with
  | num n =>
      rw [arrayKey, Bool.and_comm] at outside
      rw [arrayIndex, outside]
      rfl
  | _ => rfl

theorem keyindex_array {i : Nat} (inside : i < t.asize) (small : (i : Int) < 2147483648) :
    t.keyindex (.num (.ofInt i)) = .ok i := by
  have notNan : Num.isNan (.ofInt i) = false := (isKey_ofInt (by omega)).1
  have isIndex : t.arrayIndex (.num (.ofInt i)) = some i := by
    rw [arrayIndex, Num.num2int_ofInt (by omega) small, Num.eq_self_of_not_nan notNan,
      inarray_iff.mpr ⟨by omega, by omega⟩]
    rfl
  rw [keyindex, isIndex]

/-- The key of a node is found. -/
theorem findNode_node (wf : t.Wf) {i : Nat} (notNil : (t.node i).key ≠ .nil) :
    t.findNode (ljObjEqual · (t.node i).key) (t.hashkey (t.node i).key) = .ok (some i) := by
  have isKey := (wf.keys i notNil).1
  have nilDiffers : ljObjEqual .nil (t.node i).key = false := by
    cases isKeyI : (t.node i).key with
    | nil => exact absurd isKeyI notNil
    | _ => rfl
  rcases wf.findNode isKey (fun k' isKey' => ljObjEqual_iff isKey' isKey) nilDiffers with
    ⟨i', result, entry'⟩ | ⟨-, absent⟩
  · have here : t.Entry (t.node i).key (.node i) := ⟨rfl, notNil⟩
    cases wf.entry_unique entry' here
    exact result
  · exact absurd rfl (absent i)

/-- The traversal index of a key of the table is its place. -/
theorem keyindex_entry (wf : t.Wf) (limited : t.Limited) {slot : TabSlot} (entry : t.Entry k slot) :
    t.keyindex k = .ok (t.indexOf slot) := by
  have bound := wf.indexOf_lt entry
  have fits := wf.places_lt limited
  cases slot with
  | array i =>
      obtain ⟨inside, rfl⟩ := entry
      exact keyindex_array inside (wf.index_small inside)
  | node i =>
      obtain ⟨rfl, notNil⟩ := entry
      rw [keyindex, arrayIndex_none (wf.keys i notNil).2]
      dsimp only
      rw [if_neg notNil, findNode_node wf notNil]
      exact congrArg Except.ok (Nat.mod_eq_of_lt (Nat.lt_trans bound fits))

omit [StrHash] in
theorem fullAt_array {i : Nat} (inside : i < t.asize) : t.FullAt i ↔ t.array i ≠ .nil := by
  have place : i < t.places := by
    unfold places
    omega
  rw [FullAt, slotAt, if_pos inside]
  exact and_iff_right place

omit [StrHash] in
theorem fullAt_node {n : Nat} : t.FullAt (t.asize + n) ↔ n < t.hmask + 1 ∧ (t.node n).val ≠ .nil := by
  have place : t.asize + n < t.places ↔ n < t.hmask + 1 := by
    unfold places
    omega
  rw [FullAt, slotAt, if_neg (by omega), Nat.add_sub_cancel_left, place]
  rfl

omit [StrHash] in
/-- From a place on, the first full one is found. -/
theorem nextFrom_cases (t : GCtab) (i : Nat) :
    (∃ j, i ≤ j ∧ t.FullAt j ∧ (∀ i', i ≤ i' → i' < j → ¬t.FullAt i') ∧
      t.nextFrom i = some (t.keyAt j, t.read (t.slotAt j))) ∨
    ((∀ i', i ≤ i' → ¬t.FullAt i') ∧ t.nextFrom i = none) := by
  unfold nextFrom
  cases inArray : firstFull (fun i => t.array i != .nil) i t.asize with
  | some j =>
      obtain ⟨ahead, inside, full, first⟩ := firstFull_some inArray
      refine .inl ⟨j, ahead, (fullAt_array inside).mpr (by simpa using full), ?_, ?_⟩
      · intro i' low high fullHere
        have := first i' low high
        exact (fullAt_array (high.trans inside)).mp fullHere (by simpa using this)
      · rw [keyAt, slotAt, if_pos inside, if_pos inside]
        rfl
  | none =>
      have noArray := firstFull_none inArray
      have notInArray (i' : Nat) (low : i ≤ i') (inside : i' < t.asize) : ¬t.FullAt i' := by
        rw [fullAt_array inside, not_not]
        simpa using noArray i' low inside
      cases inNodes : firstFull (fun i => (t.node i).val != .nil) (i - t.asize) (t.hmask + 1) with
      | some n =>
          obtain ⟨ahead, inside, full, first⟩ := firstFull_some inNodes
          refine .inl ⟨t.asize + n, by omega, fullAt_node.mpr ⟨inside, by simpa using full⟩, ?_, ?_⟩
          · intro i' low high fullHere
            rcases Nat.lt_or_ge i' t.asize with before | behind
            · exact notInArray i' low before fullHere
            · obtain ⟨n', rfl⟩ : ∃ n', i' = t.asize + n' := ⟨i' - t.asize, by omega⟩
              have none := first n' (by omega) (by omega)
              exact (fullAt_node.mp fullHere).2 (by simpa using none)
          · rw [keyAt, slotAt, if_neg (by omega), if_neg (by omega), Nat.add_sub_cancel_left]
            rfl
      | none =>
          refine .inr ⟨fun i' low fullHere => ?_, rfl⟩
          rcases Nat.lt_or_ge i' t.asize with before | behind
          · exact notInArray i' low before fullHere
          · obtain ⟨n', rfl⟩ : ∃ n', i' = t.asize + n' := ⟨i' - t.asize, by omega⟩
            obtain ⟨inside, value⟩ := fullAt_node.mp fullHere
            have none := firstFull_none inNodes n' (by omega) inside
            exact value (by simpa using none)

/-- A call with a key of the table goes on behind its place. -/
theorem ljTabNext_entry (wf : t.Wf) (limited : t.Limited) {slot : TabSlot} (entry : t.Entry k slot) :
    t.ljTabNext k = .ok (t.nextFrom (t.indexOf slot + 1)) := by
  have bound := wf.indexOf_lt entry
  have fits := wf.places_lt limited
  rw [ljTabNext, keyindex_entry wf limited entry]
  change Except.ok (t.nextFrom ((t.indexOf slot + 1) % 2 ^ 32)) = _
  rw [Nat.mod_eq_of_lt (by omega)]

/-- Nil starts the traversal. -/
theorem ljTabNext_nil (t : GCtab) : t.ljTabNext .nil = .ok (t.nextFrom 0) := rfl

end

end GCtab

end TvmJit.Tab
