import TvmJit.Tab.Length
import TvmJit.Foundation.Copies

/-! `table.insert`, `table.remove` and `table.move` of `lib_table.c`. Integers of a program are
those that doubles have exactly. -/

namespace TvmJit.Tab

open Foundation Function

section

variable [StrHash] (depth : Nat)

namespace GCtab

/-- One round of the loop of `table_insert`. The set may invalidate the get pointer. -/
def shiftUp (t : GCtab) (i : Int) : Except TabError GCtab := do
  let (dst, t) ← t.ljTabSetint depth i
  let src ← t.ljTabGetint (i - 1)
  return t.store dst (src.getD .nil)

/-- `table_insert`, with a position or without one. -/
def tableInsert (t : GCtab) (pos : Option Int) (v : TValue) (fuel : Nat) : Fueled TabError GCtab := do
  let len ← t.ljTabLen fuel
  let i := len.toInt + 1
  match pos with
  | none => ExceptT.mk (some do
      let (dst, t) ← t.ljTabSetint depth i
      return t.store dst v)
  | some n => ExceptT.mk (some do
      let t ← (downTo i (n + 1)).foldlM (shiftUp depth) t
      let (dst, t) ← t.ljTabSetint depth n
      return t.store dst v)

/-- `BC_TGETR`, with an integer in a double as the key. -/
def tgetr (t : GCtab) (key : Int) : Except TabError TValue := do
  let tv ← t.ljTabGetint (Num.ofInt key).num2int
  return tv.getD .nil

/-- `BC_TSETR`. -/
def tsetr (t : GCtab) (key : Int) (v : TValue) : Except TabError GCtab := do
  let (dst, t) ← t.ljTabSetint depth (Num.ofInt key).num2int
  return t.store dst v

/-- `t[i-1] = t[i]`. -/
def shiftDown (t : GCtab) (i : Int) : Except TabError GCtab := do
  let tv ← t.tgetr i
  t.tsetr depth (i - 1) tv

/-- `table_remove`: what it returns, if anything, and the table. `CHECK_tab` makes all accesses
raw ones. -/
def tableRemove (t : GCtab) (pos : Option Int) (fuel : Nat) :
    Fueled TabError (Option TValue × GCtab) := do
  let len ← t.ljTabLen fuel
  let len := len.toInt
  match pos with
  | none => ExceptT.mk (some (
      if len ≠ 0 then do
        let old ← t.tgetr len
        let t ← t.tsetr depth len .nil
        return (some old, t)
      else return (none, t)))
  | some pos => ExceptT.mk (some (
      if pos ≥ 1 ∧ pos ≤ len then do
        let old ← t.tgetr pos
        let t ← (upTo (pos + 1) len).foldlM (shiftDown depth) t
        let t ← t.tsetr depth len .nil
        return (some old, t)
      else return (none, t)))

/-- What a raw read finds under a key. -/
def index (t : GCtab) (k : TValue) : TValue := (t.ljTabGet k).toOption.getD .nil

end GCtab

/-- The tables of a program. -/
abbrev Tables := Nat → GCtab

/-- `a2[i+d] = a1[i]`. -/
def moveOne (a1 a2 : Nat) (d : Int) (tables : Tables) (i : Int) : Except TabError Tables := do
  let tv ← (tables a1).tgetr i
  let t ← (tables a2).tsetr depth (i + d) tv
  return update tables a2 t

/-- `table_move`. An `__eq` metamethod may answer that different tables are equal. -/
def tableMove (equal : Nat → Nat → Bool) (tables : Tables) (a1 : Nat) (f e t : Int) (a2 : Option Nat) :
    Except TabError (Nat × Tables) := do
  let a2 := a2.getD a1
  if e ≥ f then
    let d := t - f
    if t > e ∨ t ≤ f ∨ ¬(a2 = a1 ∨ equal a2 a1) then
      let tables ← (upTo f e).foldlM (moveOne depth a1 a2 d) tables
      return (a2, tables)
    else
      let tables ← (downTo e f).foldlM (moveOne depth a1 a2 d) tables
      return (a2, tables)
  else return (a2, tables)

end

/-! ## Integer keys -/

/-- Doubles have the integers below `2 ^ 53`. -/
theorem ofInt_inj {k k' : Int} (small : k.natAbs < 2 ^ 53) (small' : k'.natAbs < 2 ^ 53)
    (same : Num.ofInt k = Num.ofInt k') : k = k' := by
  have notZero {k k' : Int} (small : k.natAbs < 2 ^ 53) (zero : k' = 0)
      (same : Num.ofInt k = Num.ofInt k') : k = 0 := by
    by_contra some
    have exp := (Num.fields_ofInt some small).1
    rw [same, zero] at exp
    have none : (Num.ofInt 0).expBits = 0 := by decide
    omega
  by_cases zero' : k' = 0
  · rw [zero', notZero small zero' same]
  · by_cases zero : k = 0
    · exact absurd (notZero small' zero same.symm) zero'
    · have ⟨exp, mant, lower, sign⟩ := Num.fields_ofInt zero small
      have ⟨exp', mant', lower', sign'⟩ := Num.fields_ofInt zero' small'
      rw [same] at exp mant sign
      have equal : k.natAbs.log2 = k'.natAbs.log2 := by omega
      have scaled : k.natAbs * 2 ^ (52 - k'.natAbs.log2) = k'.natAbs * 2 ^ (52 - k'.natAbs.log2) := by
        rw [equal] at mant lower
        omega
      have magnitude := Nat.eq_of_mul_eq_mul_right (Nat.two_pow_pos _) scaled
      have signs : k < 0 ↔ k' < 0 := by
        rw [← decide_eq_decide, ← sign, sign']
      omega

/-- The key of an integer. -/
def intKey (k : Int) : TValue := .num (.ofInt k)

/-- An integer of 32 bits. -/
def Small (k : Int) : Prop := -2147483648 ≤ k ∧ k < 2147483648

theorem isKey_intKey {k : Int} (small : k.natAbs < 2 ^ 53) : (intKey k).IsKey := isKey_ofInt small

theorem Small.exact {k : Int} (small : Small k) : k.natAbs < 2 ^ 53 := by
  have ⟨low, high⟩ := small
  omega

theorem intKey_inj {k k' : Int} (small : k.natAbs < 2 ^ 53) (small' : k'.natAbs < 2 ^ 53)
    (same : intKey k = intKey k') : k = k' := ofInt_inj small small' (TValue.num.inj same)

/-! ## Sequences -/

section

variable {m : TValue → TValue}

/-- The values from 1 to `n` are all there are for positive integers. -/
def Sequence (m : TValue → TValue) (n : Nat) : Prop :=
  ∀ k : Int, 1 ≤ k → k < 2 ^ 53 → (m (intKey k) ≠ .nil ↔ k ≤ n)

/-- What `table.insert` does to the values of a sequence. -/
structure Inserted (m m' : TValue → TValue) (n : Nat) (pos : Int) (v : TValue) : Prop where
  value : m' (intKey pos) = v
  shifted : ∀ j, pos ≤ j → j ≤ n → m' (intKey (j + 1)) = m (intKey j)
  others : ∀ k : TValue, (∀ j, pos ≤ j → j ≤ n + 1 → k.stored ≠ intKey j) → m' k = m k

/-- What `table.remove` does to them. -/
structure Removed (m m' : TValue → TValue) (n : Nat) (pos : Int) : Prop where
  shifted : ∀ j, pos ≤ j → j < n → m' (intKey j) = m (intKey (j + 1))
  last : m' (intKey n) = .nil
  others : ∀ k : TValue, (∀ j, pos ≤ j → j ≤ n → k.stored ≠ intKey j) → m' k = m k

/-- Keys of a sequence are apart. -/
theorem apart {n : Nat} (room : n + 1 < 2 ^ 31) {i j : Int} (first : 0 ≤ i ∧ i ≤ n + 1)
    (second : 0 ≤ j ∧ j ≤ n + 1) (other : i ≠ j) : intKey i ≠ intKey j :=
  fun same => other (intKey_inj (by omega) (by omega) same)

theorem stored_intKey {k : Int} (small : k.natAbs < 2 ^ 53) : (intKey k).stored = intKey k :=
  (isKey_intKey small).stored

theorem inserted_copies {n : Nat} (room : n + 1 < 2 ^ 31) {pos : Int} (low : 1 ≤ pos)
    (high : pos ≤ n + 1) (v : TValue) :
    Inserted m (update ((downTo (n + 1) (pos + 1)).foldl
      (copyOne (fun i => intKey (i - 1)) intKey none) m) (intKey pos) v) n pos v := by
  have pairs := List.Pairwise.and_mem.mp (downTo_pairwise (n + 1) (pos + 1))
  have once : (downTo (n + 1) (pos + 1)).Pairwise fun i j => intKey j ≠ intKey i :=
    pairs.imp fun ⟨first, second, above⟩ => by
      rw [mem_downTo] at first second
      exact apart room (by omega) (by omega) (by omega)
  have unread : (downTo (n + 1) (pos + 1)).Pairwise fun i j => intKey (j - 1) ≠ intKey i :=
    pairs.imp fun ⟨first, second, above⟩ => by
      rw [mem_downTo] at first second
      exact apart room (by omega) (by omega) (by omega)
  have moved := copies_moved (m := m) once fun _ : none = none => unread
  constructor
  · exact update_self ..
  · intro j least most
    have arrived := moved (j + 1) (mem_downTo.mpr (by omega))
    rw [Option.getD_none, Int.add_sub_cancel] at arrived
    rw [update_of_ne (apart room (by omega) (by omega) (by omega)), arrived]
  · intro k other
    have away (j : Int) (least : pos ≤ j) (most : j ≤ n + 1) : k ≠ intKey j := by
      intro same
      apply other j least most
      rw [same, stored_intKey (by omega)]
    rw [update_of_ne (away pos le_rfl high)]
    apply copies_other
    intro i member
    have ⟨least, most⟩ := mem_downTo.mp member
    exact away i (by omega) (by omega)

theorem removed_copies {n : Nat} (room : n + 1 < 2 ^ 31) {pos : Int} (low : 1 ≤ pos) (high : pos ≤ n) :
    Removed m (update ((upTo (pos + 1) n).foldl
      (copyOne intKey (fun i => intKey (i - 1)) none) m) (intKey n) .nil) n pos := by
  have pairs := List.Pairwise.and_mem.mp (upTo_pairwise (pos + 1) n)
  have once : (upTo (pos + 1) n).Pairwise fun i j => intKey (j - 1) ≠ intKey (i - 1) :=
    pairs.imp fun ⟨first, second, above⟩ => by
      rw [mem_upTo] at first second
      exact apart room (by omega) (by omega) (by omega)
  have unread : (upTo (pos + 1) n).Pairwise fun i j => intKey j ≠ intKey (i - 1) :=
    pairs.imp fun ⟨first, second, above⟩ => by
      rw [mem_upTo] at first second
      exact apart room (by omega) (by omega) (by omega)
  have moved := copies_moved (m := m) once fun _ : none = none => unread
  constructor
  · intro j least most
    have arrived := moved (j + 1) (mem_upTo.mpr (by omega))
    rw [Int.add_sub_cancel, Option.getD_none] at arrived
    rw [update_of_ne (apart room (by omega) (by omega) (by omega)), arrived]
  · exact update_self ..
  · intro k other
    have away (j : Int) (least : pos ≤ j) (most : j ≤ n) : k ≠ intKey j := by
      intro same
      apply other j least most
      rw [same, stored_intKey (by omega)]
    rw [update_of_ne (away n high le_rfl)]
    apply copies_other
    intro i member
    have ⟨least, most⟩ := mem_upTo.mp member
    exact away (i - 1) (by omega) (by omega)

/-- Inserting a value makes a sequence longer. -/
theorem Inserted.sequence {m' : TValue → TValue} {n : Nat} {pos : Int} {v : TValue}
    (inserted : Inserted m m' n pos v) (sequence : Sequence m n) (room : n + 1 < 2 ^ 31)
    (low : 1 ≤ pos) (high : pos ≤ n + 1) (some : v ≠ .nil) : Sequence m' (n + 1) := by
  intro k positive exact
  have outside (beyond : k < pos ∨ n + 1 < k) : m' (intKey k) = m (intKey k) := by
    apply inserted.others
    intro j least most
    rw [stored_intKey (by omega)]
    intro same
    have equal := intKey_inj (by omega) (by omega) same
    omega
  rcases lt_trichotomy k pos with below | same | above
  · rw [outside (.inl below), sequence k positive exact]
    omega
  · rw [same, inserted.value]
    exact iff_of_true some (by omega)
  · by_cases inside : k ≤ n + 1
    · have shifted := inserted.shifted (k - 1) (by omega) (by omega)
      rw [Int.sub_add_cancel] at shifted
      rw [shifted, sequence (k - 1) (by omega) (by omega)]
      omega
    · rw [outside (.inr (by omega)), sequence k positive exact]
      omega

/-- Removing takes back what inserting did. -/
theorem Removed.undoes {m' m'' : TValue → TValue} {n : Nat} {pos : Int} {v : TValue}
    (removed : Removed m' m'' (n + 1) pos) (inserted : Inserted m m' n pos v) (sequence : Sequence m n)
    (room : n + 1 < 2 ^ 31) {k : TValue} (isKey : k.IsKey) : m'' k = m k := by
  by_cases moved : ∃ j, pos ≤ j ∧ j ≤ n + 1 ∧ k = intKey j
  · have ⟨j, least, most, same⟩ := moved
    rw [same]
    rcases Int.lt_or_eq_of_le most with inner | isLast
    · rw [removed.shifted j least (by omega), inserted.shifted j least (by omega)]
    · have absent : m (intKey j) = .nil := by
        by_contra present
        have inside := (sequence j (by omega) (by omega)).mp present
        omega
      rw [absent, isLast]
      exact removed.last
  · have away (j : Int) (least : pos ≤ j) (most : j ≤ n + 1) : k.stored ≠ intKey j := by
      rw [isKey.stored]
      exact fun same => moved ⟨j, least, most, same⟩
    rw [removed.others k away, inserted.others k away]

/-- What `table.move` does to the values of `a2`. -/
structure Moved (m1 m2 m2' : TValue → TValue) (f e t : Int) : Prop where
  arrived : ∀ i, 0 ≤ i → i ≤ e - f → m2' (intKey (t + i)) = m1 (intKey (f + i))
  others : ∀ k : TValue, (∀ i, 0 ≤ i → i ≤ e - f → k.stored ≠ intKey (t + i)) → m2' k = m2 k

/-- All integers of a move have 32 bits. -/
structure InRange (f e t : Int) : Prop where
  first : Small f
  last : Small e
  target : Small t
  targetLast : Small (t + (e - f))

theorem InRange.small {f e t : Int} (inRange : InRange f e t) {i : Int} (low : f ≤ i) (high : i ≤ e) :
    Small i ∧ Small (i + (t - f)) := by
  have ⟨⟨_, _⟩, ⟨_, _⟩, ⟨_, _⟩, ⟨_, _⟩⟩ := inRange
  constructor <;> constructor <;> omega

/-- Copies in an order that does not write to a place before it is read. -/
theorem moved_copies {f e t : Int} (inRange : InRange f e t) {l : List Int}
    (all : ∀ i, i ∈ l ↔ f ≤ i ∧ i ≤ e) (once : l.Pairwise (· ≠ ·)) (source : Option (TValue → TValue))
    (unread : source = none → l.Pairwise fun i j => j ≠ i + (t - f)) :
    Moved (source.getD m) m (l.foldl (copyOne intKey (fun i => intKey (i + (t - f))) source) m) f e t := by
  have small {i : Int} (member : i ∈ l) : Small i ∧ Small (i + (t - f)) := by
    have ⟨low, high⟩ := (all i).mp member
    exact inRange.small low high
  have targets : l.Pairwise fun i j => intKey (j + (t - f)) ≠ intKey (i + (t - f)) := by
    apply (List.Pairwise.and_mem.mp once).imp
    intro i j ⟨first, second, other⟩ same
    have equal := intKey_inj (small second).2.exact (small first).2.exact same
    omega
  have sources (isNone : source = none) : l.Pairwise fun i j => intKey j ≠ intKey (i + (t - f)) := by
    apply (List.Pairwise.and_mem.mp (unread isNone)).imp
    intro i j ⟨first, second, other⟩ same
    exact other (intKey_inj (small second).1.exact (small first).2.exact same)
  have moved (i : Int) (member : i ∈ l) :
      l.foldl (copyOne intKey (fun i => intKey (i + (t - f))) source) m (intKey (i + (t - f))) =
        source.getD m (intKey i) := copies_moved targets sources i member
  constructor
  · intro i low high
    have arrived := moved (f + i) ((all _).mpr (by omega))
    rw [show f + i + (t - f) = t + i by omega] at arrived
    exact arrived
  · intro k other
    apply copies_other
    intro i member same
    have ⟨low, high⟩ := (all i).mp member
    apply other (i - f) (by omega) (by omega)
    rw [same, stored_intKey (small member).2.exact, show t + (i - f) = i + (t - f) by omega]

end

/-! ## Tables of integer keys -/

namespace GCtab

variable [StrHash] {t : GCtab} {m : TValue → TValue}

/-- A table that holds the values of a map. -/
structure Is (t : GCtab) (m : TValue → TValue) : Prop where
  wf : t.Wf
  limited : t.Limited
  holds : t.Holds m

theorem Is.index (is : t.Is m) {k : TValue} (settable : k.Settable) : t.index k = m k.stored := by
  rw [GCtab.index, ljTabGet_value is.wf is.holds settable]
  rfl

theorem Is.index_unsettable (is : t.Is m) {k : TValue} (unsettable : ¬k.Settable) : t.index k = .nil := by
  by_contra present
  rw [GCtab.index] at present
  cases found : t.ljTabGet k with
  | error e =>
      rw [found] at present
      exact present rfl
  | ok v =>
      rw [found] at present
      exact unsettable (entry_of_get is.wf found present).1

theorem Is.index_intKey (is : t.Is m) {k : Int} (small : k.natAbs < 2 ^ 53) :
    t.index (intKey k) = m (intKey k) := by
  rw [is.index (isKey_intKey small).settable, stored_intKey small]

theorem Is.getint (is : t.Is m) {k : Int} (small : Small k) :
    ∃ tv, t.ljTabGetint k = .ok tv ∧ tv.getD .nil = m (intKey k) :=
  ljTabGetint_value is.wf is.holds small.1 small.2

theorem Is.tgetr (is : t.Is m) {k : Int} (small : Small k) : t.tgetr k = .ok (m (intKey k)) := by
  have ⟨tv, found, value⟩ := is.getint small
  rw [GCtab.tgetr, Num.num2int_ofInt small.1 small.2, found, ← value]
  rfl

/-- A setter finds a place for the key. -/
theorem Is.setint (is : t.Is m) (depth : Nat) {k : Int} (small : Small k) :
    Foundation.Ends (fun r => r.2.Is m ∧ r.2.Entry (intKey k) r.1) (· = .tabov)
      (t.ljTabSetint (depth + 2) k) := by
  have spec : KeepsNew (· = .tabov) (newkey (depth + 2)) := newkey_ends depth rfl
  have adds : Foundation.Ends (fun r => Adds t (intKey k) r.1 r.2) (· = .tabov)
      (t.ljTabSetint (depth + 2) k) :=
    setint_ends _ is.wf small.1 small.2 (fun _ entry => ⟨.refl is.wf, entry⟩) (spec t _ is.wf)
  have limits : Limits Prod.snd (t.ljTabSetint (depth + 2) k) :=
    setint_limits (newkey_limits (depth + 2)) is.limited k
  apply (adds.and limits).mono
  · intro r _ ⟨adds, limited⟩
    exact ⟨⟨adds.keeps.wf, limited, adds.keeps.holds m is.holds⟩, adds.entry⟩
  · exact fun e both => both.1

theorem Is.store (is : t.Is m) {k : TValue} {slot : TabSlot} (entry : t.Entry k slot) (v : TValue) :
    (t.store slot v).Is (update m k v) :=
  ⟨is.wf.store entry v, is.limited.store slot v, is.holds.store is.wf entry v⟩

theorem Is.set (is : t.Is m) (depth : Nat) {k : Int} (small : Small k) (v : TValue) :
    Foundation.Ends (fun t' => t'.Is (update m (intKey k) v)) (· = .tabov) (do
      let (dst, t) ← t.ljTabSetint (depth + 2) k
      return t.store dst v) :=
  (is.setint depth small).bind fun _ _ ⟨is', entry⟩ => is'.store entry v

theorem Is.tsetr (is : t.Is m) (depth : Nat) {k : Int} (small : Small k) (v : TValue) :
    Foundation.Ends (fun t' => t'.Is (update m (intKey k) v)) (· = .tabov) (t.tsetr (depth + 2) k v) := by
  rw [GCtab.tsetr, Num.num2int_ofInt small.1 small.2]
  exact is.set depth small v

/-- Where there is a value already, storing never fails. -/
theorem Is.tsetr_present (is : t.Is m) (depth : Nat) {k : Int} (small : Small k)
    (present : m (intKey k) ≠ .nil) (v : TValue) :
    Foundation.Ends (fun t' => t'.Is (update m (intKey k) v)) (fun _ => False) (t.tsetr depth k v) := by
  have found : Foundation.Ends (fun r => r.2.Is m ∧ r.2.Entry (intKey k) r.1) (fun _ => False)
      (t.ljTabSetint depth k) := by
    apply setint_ends _ is.wf small.1 small.2
    · exact fun slot entry => ⟨is, entry⟩
    · intro hashed absent
      apply absurd ((is.holds _ (isKey_intKey small.exact)).2 fun slot entry => ?_) present
      cases slot with
      | array i =>
          have inArray := hashed.2
          have ⟨inside, same⟩ := entry
          have below := is.wf.index_small inside
          have isIndex : TValue.num (Num.ofInt k) = .num (Num.ofInt i) := same
          rw [isIndex, arrayKey_ofInt (by omega) below, Bool.eq_false_iff] at inArray
          exact inArray (inarray_iff.mpr ⟨by omega, by omega⟩)
      | node i => exact absent i entry.1
  rw [GCtab.tsetr, Num.num2int_ofInt small.1 small.2]
  exact found.bind fun _ _ ⟨is', entry⟩ => is'.store entry v

/-! ## Loops -/

/-- A loop of copies inside of a table, whose maps keep a property. -/
theorem Is.copies {step : GCtab → Int → Except TabError GCtab} {src dst : Int → TValue}
    {may : TabError → Prop} {l : List Int} (kept : (TValue → TValue) → Prop)
    (each : ∀ i ∈ l, ∀ (t : GCtab) (m : TValue → TValue), t.Is m → kept m →
      kept (copyOne src dst none m i) ∧
        Foundation.Ends (fun t' => t'.Is (copyOne src dst none m i)) may (step t i))
    (is : t.Is m) (start : kept m) :
    Foundation.Ends
      (fun t' => t'.Is (l.foldl (copyOne src dst none) m) ∧ kept (l.foldl (copyOne src dst none) m)) may
      (l.foldlM step t) := by
  induction l generalizing t m with
  | nil => exact ⟨is, start⟩
  | cons i rest induction =>
      have ⟨here, later⟩ := List.forall_mem_cons.mp each
      have ⟨stays, ends⟩ := here t m is start
      rw [List.foldlM_cons]
      exact ends.bind fun t' _ is' => induction later is' stays

theorem Is.shiftUp (is : t.Is m) (depth : Nat) {i : Int} (small : Small i) (small' : Small (i - 1)) :
    Foundation.Ends
      (fun t' => t'.Is (copyOne (fun i => intKey (i - 1)) intKey none m i)) (· = .tabov)
      (t.shiftUp (depth + 2) i) := by
  apply (is.setint depth small).bind
  intro ⟨slot, t'⟩ _ ⟨is', entry⟩
  have ⟨tv, found, value⟩ := is'.getint small'
  dsimp only
  rw [found, copyOne, Option.getD_none, ← value]
  exact is'.store entry _

/-- Down to what has a value already. -/
theorem Is.shiftDown (is : t.Is m) (depth : Nat) {i : Int} (small : Small i)
    (small' : Small (i - 1)) (present : m (intKey (i - 1)) ≠ .nil) :
    Foundation.Ends
      (fun t' => t'.Is (copyOne intKey (fun i => intKey (i - 1)) none m i)) (fun _ => False)
      (t.shiftDown depth i) := by
  rw [GCtab.shiftDown, is.tgetr small]
  exact is.tsetr_present depth small' present _

/-- A sequence has the length that is found. -/
theorem Is.len (is : t.Is m) {n : Nat} (sequence : Sequence m n) :
    n + 1 < 2 ^ 31 ∧ ∃ len : MSize, Settles t.ljTabLen (.ok len) ∧ len.toInt = n := by
  have found {k : Nat} (low : 1 ≤ k) (high : k < 2 ^ 53) : foundInt m k = true ↔ k ≤ n := by
    have isPlace := sequence k (by omega) (by omega)
    rw [foundInt, decide_eq_true_eq]
    exact isPlace.trans Int.ofNat_le
  have places := is.wf.places_small is.limited
  obtain ⟨absent, first, few, isAbsent⟩ := exists_absent is.wf is.limited is.holds
  have few' : n < absent := by
    by_contra inside
    rw [(found first (by omega)).mpr (by omega)] at isAbsent
    cases isAbsent
  obtain ⟨len, settles, low, high⟩ := ljTabLen_settles is.wf is.limited is.holds
  have wide := len.isLt
  have most : len.toNat ≤ n := by
    rcases low with zero | isFound
    · omega
    · rcases Nat.eq_zero_or_pos len.toNat with zero | positive
      · omega
      · exact (found positive (by omega)).mp isFound
  have least : n ≤ len.toNat := by
    by_contra less
    rw [(found (by omega) (by omega)).mpr (by omega)] at high
    cases high
  refine ⟨by omega, len, settles, ?_⟩
  rw [BitVec.toInt_eq_toNat_of_lt (by omega)]
  omega

theorem Is.insert (is : t.Is m) (depth : Nat) {n : Nat} (sequence : Sequence m n) {pos : Int}
    (low : 1 ≤ pos) (high : pos ≤ n + 1) (v : TValue) :
    ∃ r, Settles (t.tableInsert (depth + 2) (some pos) v) r ∧
      Foundation.Ends (fun t' => ∃ m', t'.Is m' ∧ Inserted m m' n pos v) (· = .tabov) r := by
  have ⟨room, len, settles, isLen⟩ := is.len sequence
  have small {i : Int} (least : 0 ≤ i) (most : i ≤ n + 1) : Small i := by constructor <;> omega
  have each : ∀ i ∈ downTo (n + 1) (pos + 1), ∀ (t : GCtab) (m : TValue → TValue), t.Is m → True →
      True ∧ Foundation.Ends (fun t' => t'.Is (copyOne (fun i => intKey (i - 1)) intKey none m i))
        (· = .tabov) (t.shiftUp (depth + 2) i) := by
    intro i member t m is _
    have ⟨least, most⟩ := mem_downTo.mp member
    exact ⟨trivial, is.shiftUp depth (small (by omega) most) (small (by omega) (by omega))⟩
  refine ⟨_, settles.bind _ _ fun _ _ => .const, ?_⟩
  change Foundation.Ends _ _ ((downTo (len.toInt + 1) (pos + 1)).foldlM (GCtab.shiftUp (depth + 2)) t >>= _)
  rw [isLen]
  apply (is.copies (fun _ => True) each trivial).bind
  intro t' _ ⟨is', _⟩
  apply (is'.set depth (small (by omega) high) v).mono _ fun _ isTabov => isTabov
  exact fun t'' _ is'' => ⟨_, is'', inserted_copies room low high v⟩

theorem Is.remove (is : t.Is m) (depth : Nat) {n : Nat} (sequence : Sequence m n) {pos : Int}
    (low : 1 ≤ pos) (high : pos ≤ n) :
    ∃ t' m', Settles (t.tableRemove depth (some pos)) (.ok (some (m (intKey pos)), t')) ∧ t'.Is m' ∧
      Removed m m' n pos := by
  obtain ⟨room, len, settles, isLen⟩ := is.len sequence
  have small {i : Int} (least : 0 ≤ i) (most : i ≤ n) : Small i := by constructor <;> omega
  let kept (m : TValue → TValue) : Prop := ∀ j : Int, 1 ≤ j → j ≤ n → m (intKey j) ≠ .nil
  have start : kept m := fun j least most => (sequence j least (by omega)).mpr most
  have each : ∀ i ∈ upTo (pos + 1) n, ∀ (t : GCtab) (m : TValue → TValue), t.Is m → kept m →
      kept (copyOne intKey (fun i => intKey (i - 1)) none m i) ∧
        Foundation.Ends (fun t' => t'.Is (copyOne intKey (fun i => intKey (i - 1)) none m i))
          (fun _ => False) (t.shiftDown depth i) := by
    intro i member t m is kept
    obtain ⟨least, most⟩ := mem_upTo.mp member
    constructor
    · intro j first last
      rw [copyOne, update_apply]
      split
      · exact kept i (by omega) most
      · exact kept j first last
    · exact is.shiftDown depth (small (by omega) most) (small (by omega) (by omega))
        (kept (i - 1) (by omega) (by omega))
  obtain ⟨t', ran, is', stays⟩ := (is.copies kept each start).exists_ok
  obtain ⟨t'', ends, is''⟩ := (is'.tsetr_present depth (small (by omega) le_rfl)
    (stays n (by omega) le_rfl) .nil).exists_ok
  refine ⟨t'', _, ?_, is'', removed_copies room low high⟩
  have result : (if pos ≥ 1 ∧ pos ≤ len.toInt then do
        let old ← t.tgetr pos
        let t ← (upTo (pos + 1) len.toInt).foldlM (GCtab.shiftDown depth) t
        let t ← t.tsetr depth len.toInt .nil
        return (some old, t)
      else return (none, t) : Except TabError _) = .ok (some (m (intKey pos)), t'') := by
    rw [if_pos ⟨low, by omega⟩, is.tgetr (small (by omega) high), isLen]
    change ((upTo (pos + 1) n).foldlM (GCtab.shiftDown depth) t >>= _) = _
    rw [ran]
    change (t'.tsetr depth n .nil >>= _) = _
    rw [ends]
    rfl
  rw [← result]
  exact settles.bind _ _ fun _ _ => .const

end GCtab

/-! ## Moves -/

section

variable [StrHash] {tables : Tables}

/-- Copies between tables, or inside of one, which has no other source than itself. -/
theorem moves_copies (depth : Nat) {m1 m2 : TValue → TValue} {a1 a2 : Nat} {d : Int} {l : List Int}
    (small : ∀ i ∈ l, Small i ∧ Small (i + d)) (from1 : a1 ≠ a2 → (tables a1).Is m1)
    (is : (tables a2).Is m2) :
    Foundation.Ends (fun tables' => (∀ j, j ≠ a2 → tables' j = tables j) ∧
        (tables' a2).Is (l.foldl
          (copyOne intKey (fun i => intKey (i + d)) (if a1 = a2 then none else some m1)) m2))
      (· = .tabov) (l.foldlM (moveOne (depth + 2) a1 a2 d) tables) := by
  induction l generalizing tables m2 with
  | nil => exact ⟨fun _ _ => rfl, is⟩
  | cons i rest induction =>
      have ⟨⟨small, small'⟩, others⟩ := List.forall_mem_cons.mp small
      have reads : (tables a1).tgetr i =
          .ok ((if a1 = a2 then none else some m1 : Option (TValue → TValue)).getD m2 (intKey i)) := by
        split
        · next same =>
            rw [same]
            exact is.tgetr small
        · next other => exact (from1 other).tgetr small
      have here : Foundation.Ends (fun tables' => (∀ j, j ≠ a2 → tables' j = tables j) ∧
          (tables' a2).Is (copyOne intKey (fun i => intKey (i + d)) (if a1 = a2 then none else some m1) m2 i))
          (· = .tabov) (moveOne (depth + 2) a1 a2 d tables i) := by
        rw [moveOne, reads]
        apply (is.tsetr depth small' _).bind
        intro t _ is'
        constructor
        · exact fun j other => update_of_ne other _ _
        · rw [update_self]
          exact is'
      rw [List.foldlM_cons]
      apply here.bind
      intro tables' _ ⟨stay, is'⟩
      have from1' (other : a1 ≠ a2) : (tables' a1).Is m1 := by
        rw [stay a1 other]
        exact from1 other
      have later := induction others from1' is'
      apply later.mono _ fun _ isTabov => isTabov
      intro tables'' _ ⟨stay', is''⟩
      exact ⟨fun j other => (stay' j other).trans (stay j other), is''⟩

/-- A loop of `table_move` in either direction. -/
theorem moves_moved (depth : Nat) {maps : Nat → TValue → TValue} (is : ∀ j, (tables j).Is (maps j))
    {a1 a2 : Nat} {f e t : Int} (inRange : InRange f e t) {l : List Int}
    (all : ∀ i, i ∈ l ↔ f ≤ i ∧ i ≤ e) (once : l.Pairwise (· ≠ ·))
    (unread : a1 = a2 → l.Pairwise fun i j => j ≠ i + (t - f)) :
    Foundation.Ends (fun r => r.1 = a2 ∧ (∀ j, j ≠ a2 → r.2 j = tables j) ∧
        ∃ m, (r.2 a2).Is m ∧ Moved (maps a1) (maps a2) m f e t)
      (· = .tabov) (do
        let tables ← l.foldlM (moveOne (depth + 2) a1 a2 (t - f)) tables
        return (a2, tables)) := by
  have copies := moves_copies depth
    (fun i member => inRange.small ((all i).mp member).1 ((all i).mp member).2) (fun _ => is a1) (is a2)
  apply copies.bind
  intro tables' _ ⟨stay, is'⟩
  refine ⟨rfl, stay, _, is', ?_⟩
  split
  · next same =>
      rw [same]
      exact moved_copies inRange all once none fun _ => unread same
  · next other => exact moved_copies inRange all once (some (maps a1)) fun isNone => nomatch isNone

theorem tableMove_moves (depth : Nat) (equal : Nat → Nat → Bool) {maps : Nat → TValue → TValue}
    (is : ∀ j, (tables j).Is (maps j)) (a1 : Nat) {f e t : Int} (inRange : InRange f e t) (a2 : Option Nat) :
    Foundation.Ends (fun r => r.1 = a2.getD a1 ∧ (∀ j, j ≠ a2.getD a1 → r.2 j = tables j) ∧
        ∃ m, (r.2 (a2.getD a1)).Is m ∧ Moved (maps a1) (maps (a2.getD a1)) m f e t)
      (· = .tabov) (tableMove (depth + 2) equal tables a1 f e t a2) := by
  rw [tableMove]
  split
  · split
    · next upwards =>
        have pairs := List.Pairwise.and_mem.mp (upTo_pairwise f e)
        apply moves_moved depth is inRange (fun _ => mem_upTo)
          ((upTo_pairwise f e).imp fun below => below.ne)
        intro same
        apply pairs.imp
        intro i j ⟨first, second, below⟩
        rw [mem_upTo] at first second
        rcases upwards with above | down | other
        · omega
        · omega
        · exact absurd (.inl same.symm) other
    · next downwards =>
        have pairs := List.Pairwise.and_mem.mp (downTo_pairwise e f)
        apply moves_moved depth is inRange (fun _ => mem_downTo)
          ((downTo_pairwise e f).imp fun above => above.ne')
        intro same
        apply pairs.imp
        intro i j ⟨first, second, above⟩
        rw [mem_downTo] at first second
        have ahead : ¬t ≤ f := fun down => downwards (.inr (.inl down))
        omega
  · next none =>
      refine ⟨rfl, fun _ _ => rfl, _, is _, ?_⟩
      constructor
      · intro i low high
        omega
      · exact fun _ _ => rfl

/-! ## What a program sees -/

section

variable {t t' t'' : GCtab} {m m' m'' : TValue → TValue}

theorem Sequence.of_index (is : t.Is m) {n : Nat} (sequence : Sequence t.index n) : Sequence m n := by
  intro k low high
  rw [← is.index_intKey (by omega)]
  exact sequence k low high

/-- Places that a map keeps are kept for a program. -/
theorem index_kept (is : t.Is m) (is' : t'.Is m') {k : TValue}
    (kept : k.Settable → m' k.stored = m k.stored) : t'.index k = t.index k := by
  by_cases settable : k.Settable
  · rw [is.index settable, is'.index settable, kept settable]
  · rw [is.index_unsettable settable, is'.index_unsettable settable]

theorem Inserted.index {n : Nat} {pos : Int} {v : TValue} (inserted : Inserted m m' n pos v) (is : t.Is m) (is' : t'.Is m')
    (room : n + 1 < 2 ^ 31) (low : 1 ≤ pos) (high : pos ≤ n + 1) : Inserted t.index t'.index n pos v := by
  constructor
  · rw [is'.index_intKey (by omega)]
    exact inserted.value
  · intro j least most
    rw [is.index_intKey (by omega), is'.index_intKey (by omega)]
    exact inserted.shifted j least most
  · intro k other
    apply index_kept is is'
    intro settable
    apply inserted.others
    rw [settable.isKey.stored]
    exact other

theorem Moved.index {t1 t2 t2' : GCtab} {m1 m2 m2' : TValue → TValue} {f e t : Int}
    (moved : Moved m1 m2 m2' f e t) (inRange : InRange f e t) (is1 : t1.Is m1) (is2 : t2.Is m2)
    (is2' : t2'.Is m2') : Moved t1.index t2.index t2'.index f e t := by
  constructor
  · intro i low high
    have ⟨read, written⟩ := inRange.small (i := f + i) (by omega) (by omega)
    rw [show f + i + (t - f) = t + i by omega] at written
    rw [is1.index_intKey read.exact, is2'.index_intKey written.exact]
    exact moved.arrived i low high
  · intro k other
    apply index_kept is2 is2'
    intro settable
    apply moved.others
    rw [settable.isKey.stored]
    exact other

end

end

/-- Inserting into a sequence, and what removing makes of it again, and moves between tables
or inside of one. -/
theorem table_library [StrHash] (depth : Nat) {tables : Tables}
    (reached : ∀ j, Reached (depth + 2) (tables j)) :
    (∀ (j n : Nat) (pos : Int) (v : TValue), Sequence (tables j).index n → 1 ≤ pos → pos ≤ n + 1 →
      ∃ r, Settles ((tables j).tableInsert (depth + 2) (some pos) v) r ∧
        Foundation.Ends (fun t' => Inserted (tables j).index t'.index n pos v ∧
            (v ≠ .nil → ∃ t'', Settles (t'.tableRemove (depth + 2) (some pos)) (.ok (some v, t'')) ∧
              ∀ k, t''.index k = (tables j).index k))
          (· = .tabov) r) ∧
    ∀ (equal : Nat → Nat → Bool) (a1 : Nat) (f e t : Int) (a2 : Option Nat), InRange f e t →
      Foundation.Ends (fun r => r.1 = a2.getD a1 ∧ (∀ j, j ≠ a2.getD a1 → r.2 j = tables j) ∧
          Moved (tables a1).index (tables (a2.getD a1)).index (r.2 (a2.getD a1)).index f e t)
        (· = .tabov) (tableMove (depth + 2) equal tables a1 f e t a2) := by
  have maps (j : Nat) : ∃ m, (tables j).Is m := by
    have ⟨wf, limited⟩ := (reached j).wf
    have ⟨m, holds⟩ := wf.exists_holds
    exact ⟨m, wf, limited, holds⟩
  choose maps is using maps
  constructor
  · intro j n pos v seen low high
    have sequence := Sequence.of_index (is j) seen
    have ⟨room, _⟩ := (is j).len sequence
    have ⟨r, settles, ends⟩ := (is j).insert depth sequence low high v
    refine ⟨r, settles, ends.mono ?_ fun _ isTabov => isTabov⟩
    intro t' _ ⟨m', is', inserted⟩
    refine ⟨inserted.index (is j) is' room low high, fun present => ?_⟩
    have longer := inserted.sequence sequence room low high present
    have ⟨t'', m'', ran, is'', removed⟩ := is'.remove (depth + 2) longer low high
    rw [inserted.value] at ran
    refine ⟨t'', ran, fun k => ?_⟩
    apply index_kept (is j) is''
    exact fun settable => removed.undoes inserted sequence room settable.isKey
  · intro equal a1 f e t a2 inRange
    apply (tableMove_moves depth equal is a1 inRange a2).mono _ fun _ isTabov => isTabov
    intro r _ ⟨isTarget, stay, m', is', moved⟩
    exact ⟨isTarget, stay, moved.index inRange (is a1) (is _) is'⟩

/-- The table with one value, at 1. -/
def oneTable : GCtab := fourPlaces.store (.array 1) (.bool true)

section

variable [StrHash]

theorem oneTable_reached : Reached 2 oneTable := by
  have new : Reached 2 fourPlaces := .new (rfl : GCtab.ljTabNew 4 0 = .ok fourPlaces)
  exact new.call (rfl : TabCall.run 2 fourPlaces (.setint 1 (.bool true)) = .ok oneTable)

theorem oneTable_sequence : Sequence oneTable.index 1 := by
  have ⟨wf, holds⟩ := GCtab.ljTabNew_empty (rfl : GCtab.ljTabNew 4 0 = .ok fourPlaces)
  have limited := (GCtab.ljTabNew_limits _ _).value (rfl : GCtab.ljTabNew 4 0 = .ok fourPlaces)
  have empty : fourPlaces.Is fun _ => .nil := ⟨wf, limited, holds⟩
  have entry : fourPlaces.Entry (intKey 1) (.array 1) := ⟨(by decide : 1 < 4), rfl⟩
  have is : oneTable.Is (update (fun _ => .nil) (intKey 1) (.bool true)) := empty.store entry _
  intro k low high
  rw [is.index_intKey (by omega), update_apply]
  split
  · next same =>
      have isOne := intKey_inj (by omega) (by omega) same
      exact iff_of_true (fun isNil => nomatch isNil) (by omega)
  · next other =>
      have more : k ≠ 1 := fun same => other (congrArg intKey same)
      exact iff_of_false (fun present => present rfl) (by omega)

end

theorem table_library_one : ∃ _ : StrHash,
    (∃ r, Settles (oneTable.tableInsert 2 (some 1) (.bool false)) r ∧
      Foundation.Ends (fun t' => Inserted oneTable.index t'.index 1 1 (.bool false) ∧
          (TValue.bool false ≠ .nil → ∃ t'', Settles (t'.tableRemove 2 (some 1)) (.ok (some (.bool false), t'')) ∧
            ∀ k, t''.index k = oneTable.index k))
        (· = .tabov) r) ∧
    Foundation.Ends (fun r => r.1 = 1 ∧ (∀ j, j ≠ 1 → r.2 j = oneTable) ∧
        Moved oneTable.index oneTable.index (r.2 1).index 1 3 2)
      (· = .tabov) (tableMove 2 (fun _ _ => false) (fun _ => oneTable) 0 1 3 2 (some 1)) := by
  let _ : StrHash := ⟨fun _ => 0⟩
  have reached (j : Nat) : Reached 2 ((fun _ => oneTable : Tables) j) := oneTable_reached
  have ⟨inserts, moves⟩ := table_library 0 reached
  have inRange : InRange 1 3 2 := by constructor <;> constructor <;> decide
  exact ⟨_, inserts 0 1 1 (.bool false) oneTable_sequence (by decide) (by decide),
    moves (fun _ _ => false) 0 1 3 2 (some 1) inRange⟩

/-- The same table after nothing was inserted at 1. -/
def nilTable : GCtab := (oneTable.store (.array 2) (.bool true)).store (.array 1) .nil

theorem oneTable_insert [StrHash] : Settles (oneTable.tableInsert 2 (some 1) .nil) (.ok nilTable) := by
  refine ⟨4, fun fuel enough => ?_⟩
  rw [← Nat.sub_add_cancel enough]
  rfl

theorem nilTable_remove [StrHash] : Settles (nilTable.tableRemove 2 (some 1)) (.ok (none, nilTable)) := by
  refine ⟨4, fun fuel enough => ?_⟩
  rw [← Nat.sub_add_cancel enough]
  rfl

/-- The table with two nodes, and one value, at 1. -/
def nodesTable : GCtab :=
  { asize := 4, array := update (fun _ => .nil) 1 (.bool true), block := 0, colo := true, hmask := 1
    node := fun _ => {}, freetop := 2 }

/-- All strings have one hash value. -/
abbrev oneHash : StrHash := ⟨fun _ => 0⟩

theorem nodesTable_move : (@tableMove oneHash 2 (fun _ _ => false) (fun _ => nodesTable) 0 1 1
    2147483648 none).toOption.map (fun r => @GCtab.index oneHash (r.2 0) (intKey 2147483648)) =
      some .nil := by
  decide +kernel

/-- After nothing is inserted, the border that is found may be in front of it. Moves to where
32 bits do not reach get lost. -/
theorem table_library_fails : ∃ _ : StrHash,
    (Sequence oneTable.index 1 ∧ Settles (oneTable.tableInsert 2 (some 1) .nil) (.ok nilTable) ∧
      Settles (nilTable.tableRemove 2 (some 1)) (.ok (none, nilTable)) ∧
      nilTable.index (intKey 1) ≠ oneTable.index (intKey 1)) ∧
    nodesTable.index (intKey 1) = .bool true ∧
    (tableMove 2 (fun _ _ => false) (fun _ => nodesTable) 0 1 1 2147483648 none).toOption.map
      (fun r => (r.2 0).index (intKey 2147483648)) = some .nil := by
  let _ := oneHash
  have different : nilTable.index (intKey 1) ≠ oneTable.index (intKey 1) := fun same => nomatch same
  exact ⟨_, ⟨oneTable_sequence, oneTable_insert, nilTable_remove, different⟩, rfl, nodesTable_move⟩

end TvmJit.Tab
