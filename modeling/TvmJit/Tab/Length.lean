import TvmJit.Tab.Traversal
import TvmJit.Foundation.Bisect

/-! The length of a table: a border between values and nothing, wherever its integer keys are. -/

namespace TvmJit.Tab

open Foundation

abbrev MSize := BitVec 32

namespace GCtab

variable [StrHash]

/-! ## The searches -/

/-- `(tv = lj_tab_getint(t, (int32_t)j)) && !tvisnil(tv)`. -/
def presentInt (t : GCtab) : Lookup TabError 32 := fun j => do
  let tv ← ExceptT.mk (some (t.ljTabGetint j.toInt))
  return tv.getD .nil ≠ .nil

omit [StrHash] in
/-- `!tvisnil(arrayslot(t, m-1))`. -/
def presentSlot (t : GCtab) : Lookup TabError 32 := fun m => return t.array (m - 1).toNat ≠ .nil

/-- The loops of `unbound_search`. -/
def unboundLoop (t : GCtab) : Nat → MSize → MSize → Fueled TabError MSize
  | 0, _, _ => ExceptT.mk none
  | fuel + 1, i, j => do
      if ← t.presentInt j then
        let i := j
        let j := j * 2
        if j > 2147483647 - 2 then do
          -- Table was built with bad purposes: resort to linear search.
          let i ← firstAbsent t.presentInt fuel 1
          return i - 1
        else t.unboundLoop fuel i j
      else bisect t.presentInt fuel i j

/-- `unbound_search`. -/
def unboundSearch (t : GCtab) (fuel : Nat) (j : MSize) : Fueled TabError MSize :=
  t.unboundLoop fuel j (j + 1)

/-- `lj_tab_len`. -/
def ljTabLen (t : GCtab) (fuel : Nat) : Fueled TabError MSize :=
  let j : MSize := .ofNat 32 t.asize
  if j > 1 ∧ t.array (j - 1).toNat = .nil then do
    let i ← bisect t.presentSlot fuel 1 j
    return i - 1
  else
    let j := if j ≠ 0 then j - 1 else j
    if t.hmask = 0 then return j else t.unboundSearch fuel j

/-- A border of a table: 0 or an index with a value, with no value behind it. -/
def Boundary (t : GCtab) (n : Nat) : Prop :=
  (n = 0 ∨ ∃ v, v ≠ .nil ∧ t.ljTabGet (.num (.ofInt n)) = .ok v) ∧
    t.ljTabGet (.num (.ofInt (n + 1 : Nat))) = .ok .nil

/-! ## Integer keys -/

/-- There is a value for the key. -/
def foundInt (m : TValue → TValue) (n : Nat) : Bool := m (.num (.ofInt n)) ≠ .nil

/-- There is a value in front of the array slot. -/
def foundSlot (m : TValue → TValue) (n : Nat) : Bool := decide (1 ≤ n) && foundInt m (n - 1)

variable {t : GCtab} {m : TValue → TValue}

theorem boundary_of_found (wf : t.Wf) (holds : t.Holds m) {n : Nat} (small : n + 1 < 2 ^ 53)
    (low : n = 0 ∨ foundInt m n = true) (high : foundInt m (n + 1) = false) : t.Boundary n := by
  have value {k : Nat} (small : k < 2 ^ 53) : t.ljTabGet (.num (.ofInt k)) = .ok (m (.num (.ofInt k))) := by
    have isKey : (TValue.num (.ofInt k)).IsKey := isKey_ofInt (by omega)
    have result := ljTabGet_value wf holds isKey.settable
    rw [isKey.stored] at result
    exact result
  constructor
  · rcases low with zero | found
    · exact .inl zero
    · exact .inr ⟨_, of_decide_eq_true found, value (by omega)⟩
  · have none : m (.num (.ofInt (n + 1 : Nat))) = .nil := Decidable.not_not.mp (of_decide_eq_false high)
    rw [value small, none]

theorem presentInt_eq (wf : t.Wf) (holds : t.Holds m) {j : MSize} (small : j.toNat < 2 ^ 31) :
    t.presentInt j = pure (foundInt m j.toNat) := by
  have same : j.toInt = j.toNat := BitVec.toInt_eq_toNat_of_lt (by omega)
  have ⟨tv, result, value⟩ : ∃ tv, t.ljTabGetint j.toNat = .ok tv ∧ tv.getD .nil = m (.num (.ofInt j.toNat)) :=
    ljTabGetint_value wf holds (by omega) (by omega)
  rw [presentInt, same, result, foundInt, ← value]
  rfl

omit [StrHash] in
theorem presentSlot_eq (holds : ∀ i : Nat, i < t.asize → t.array i = m (.num (.ofInt i))) {j : MSize}
    (some : 0 < j.toNat) (inside : j.toNat ≤ t.asize) :
    t.presentSlot j = pure (foundInt m (j.toNat - 1)) := by
  have before : (j - 1).toNat = j.toNat - 1 := BitVec.toNat_sub_of_le some
  rw [presentSlot, before, holds _ (by omega)]
  rfl

/-- Places have indices that are not negative in 32 bits. -/
theorem Wf.places_small (wf : t.Wf) (limited : t.Limited) : t.places + 1 < 2 ^ 31 := by
  have asize := wf.small
  have limit : maxAsize + 2 ^ maxHbits + 1 < 2 ^ 31 := by decide
  unfold Limited at limited
  unfold places
  omega

/-- There cannot be more indices with values than places. -/
theorem exists_absent (wf : t.Wf) (limited : t.Limited) (holds : t.Holds m) :
    ∃ n, 1 ≤ n ∧ n ≤ t.places + 1 ∧ foundInt m n = false := by
  have small := wf.places_small limited
  by_contra none
  have entry (n : Fin (t.places + 1)) : ∃ slot, t.Entry (.num (.ofInt (n + 1 : Nat))) slot := by
    by_contra noEntry
    have isKey : (TValue.num (.ofInt (n + 1 : Nat))).IsKey := isKey_ofInt (by omega)
    have absent := (holds _ isKey).2 fun slot entry => noEntry ⟨slot, entry⟩
    exact none ⟨n + 1, by omega, by omega, by rw [foundInt, absent]; rfl⟩
  choose slot isEntry using entry
  let place (n : Fin (t.places + 1)) : Fin t.places := ⟨t.indexOf (slot n), wf.indexOf_lt (isEntry n)⟩
  have injective : Function.Injective place := by
    intro n n' same
    have sameKey := congrArg t.keyAt (Fin.mk.inj same)
    rw [keyAt_indexOf t (isEntry n), keyAt_indexOf t (isEntry n')] at sameKey
    have sameIndex := congrArg Num.num2int (TValue.num.inj sameKey)
    rw [Num.num2int_ofInt (by omega) (by omega), Num.num2int_ofInt (by omega) (by omega)] at sameIndex
    apply Fin.ext
    omega
  have few := Fintype.card_le_of_injective place injective
  rw [Fintype.card_fin, Fintype.card_fin] at few
  omega

/-! ## Each search finds a border -/

/-- 0 or an index with a value. -/
def LowInt (m : TValue → TValue) (n : Nat) : Prop := n = 0 ∨ foundInt m n = true

def BorderInt (m : TValue → TValue) (n : Nat) : Prop := LowInt m n ∧ foundInt m (n + 1) = false

theorem linear_settles (wf : t.Wf) (limited : t.Limited) (holds : t.Holds m) :
    ∃ n : MSize, Settles (firstAbsent t.presentInt · 1) (.ok n) ∧ BorderInt m (n - 1).toNat := by
  have small := wf.places_small limited
  have ⟨last, first, few, ends⟩ := exists_absent wf limited holds
  have ⟨n, settles, absent, low, high, passed⟩ :=
    firstAbsent_settles (i := (1 : MSize)) (fun j _ below => presentInt_eq wf holds (by omega)) first (by omega) ends
  have low : 1 ≤ n.toNat := low
  have before : (n - 1).toNat = n.toNat - 1 := BitVec.toNat_sub_of_le low
  refine ⟨n, settles, ?_, ?_⟩
  · rcases Nat.eq_or_lt_of_le low with isFirst | more
    · exact .inl (by omega)
    · apply Or.inr
      rw [before]
      exact passed _ (Nat.le_sub_one_of_lt more) (by omega)
  · rw [before, Nat.sub_add_cancel low]
    exact absent

/-- Doubling keeps `i` low. It ends with a binary search, or a linear one. -/
theorem unboundLoop_settles (wf : t.Wf) (limited : t.Limited) (holds : t.Holds m) {i j : MSize}
    (ordered : i.toNat < j.toNat) (small : j.toNat ≤ 2147483645) (low : LowInt m i.toNat) :
    ∃ n : MSize, Settles (t.unboundLoop · i j) (.ok n) ∧ BorderInt m n.toNat := by
  obtain ⟨room, isRoom⟩ : ∃ r, r = 2 ^ 31 - j.toNat := ⟨_, rfl⟩
  induction room using Nat.strong_induction_on generalizing i j with
  | _ room induction =>
      have reads := presentInt_eq wf holds (j := j) (by omega)
      have double : (j * 2).toNat = j.toNat * 2 := by
        have two : (2 : MSize).toNat = 2 := rfl
        rw [BitVec.toNat_mul, two, Nat.mod_eq_of_lt (by omega)]
      have overflow : j * 2 > 2147483647 - 2 ↔ 2147483645 < j.toNat * 2 := by
        rw [← double]
        rfl
      cases there : foundInt m j.toNat with
      | true =>
          have turn (fuel : Nat) : t.unboundLoop (fuel + 1) i j =
              if j * 2 > 2147483647 - 2 then do
                let n ← firstAbsent t.presentInt fuel 1
                return n - 1
              else t.unboundLoop fuel j (j * 2) := by
            rw [unboundLoop, reads, there]
            rfl
          by_cases large : 2147483645 < j.toNat * 2
          · have ⟨n, settles, border⟩ := linear_settles wf limited holds
            have last := settles.bind (fun _ n => return n - 1) (fun n => .ok (n - 1)) fun _ _ => .pure
            refine ⟨n - 1, last.succ fun fuel => ?_, border⟩
            rw [turn, if_pos (overflow.mpr large)]
          · have ⟨n, settles, border⟩ := induction (2 ^ 31 - (j * 2).toNat) (by omega) (i := j) (j := j * 2)
              (by omega) (by omega) (.inr there) rfl
            refine ⟨n, settles.succ fun fuel => ?_, border⟩
            rw [turn, if_neg fun beyond => large (overflow.mp beyond)]
      | false =>
          have ⟨n, settles, border⟩ := bisect_settles (LowInt m) (fun n found => .inr found)
            (fun k above below => presentInt_eq wf holds (by omega)) ordered (by omega) low there
          refine ⟨n, settles.succ fun fuel => ?_, border⟩
          rw [unboundLoop, reads, there]
          rfl

omit [StrHash] in
/-- The binary search in the array, where index `i - 1` is in slot `i - 1`. -/
theorem slots_settle (slots : ∀ i : Nat, i < t.asize → t.array i = m (.num (.ofInt i)))
    (small : t.asize < 2 ^ 31) (more : 1 < t.asize) (ends : t.array (t.asize - 1) = .nil) :
    ∃ n : MSize, Settles (fun fuel => bisect t.presentSlot fuel 1 (.ofNat 32 t.asize)) (.ok n) ∧
      BorderInt m (n - 1).toNat := by
  have size : (BitVec.ofNat 32 t.asize).toNat = t.asize := toNat_literal (by omega)
  have one : (1 : MSize).toNat = 1 := rfl
  have absent : foundInt m (t.asize - 1) = false := by
    rw [foundInt, ← slots _ (by omega), ends]
    rfl
  have reads (j : MSize) (above : (1 : MSize).toNat < j.toNat) (below : j.toNat < (BitVec.ofNat 32 t.asize).toNat) :
      t.presentSlot j = pure (foundSlot m j.toNat) := by
    have first : 1 ≤ j.toNat := by omega
    rw [presentSlot_eq slots first (by omega), foundSlot, decide_eq_true first, Bool.true_and]
  have present_low (n : Nat) (found : foundSlot m n = true) :
      1 ≤ n ∧ LowInt m (n - 1) := by
    have ⟨first, found⟩ := (Bool.and_eq_true _ _).mp found
    exact ⟨of_decide_eq_true first, .inr found⟩
  have ⟨n, settles, low, high⟩ := bisect_settles (fun n => 1 ≤ n ∧ LowInt m (n - 1)) present_low reads
    (by omega) (by omega) ⟨Nat.le_refl _, .inl rfl⟩ (by rw [size, foundSlot, absent, Bool.and_false])
  have before : (n - 1).toNat = n.toNat - 1 := BitVec.toNat_sub_of_le low.1
  refine ⟨n, settles, ?_, ?_⟩
  · rw [before]
    exact low.2
  · have behind := Bool.and_eq_false_iff.mp high
    rw [before, Nat.sub_add_cancel low.1]
    rcases behind with none | absent
    · exact absurd (Nat.le_add_left ..) (of_decide_eq_false none)
    · exact absent

/-! ## The length -/

/-- Without a hash part there is nothing behind the array. -/
theorem absent_behind (wf : t.Wf) (holds : t.Holds m) (noNodes : t.hmask = 0) {n : Nat} (behind : t.asize ≤ n)
    (small : n < 2 ^ 31) : foundInt m n = false := by
  have isKey : (TValue.num (.ofInt n)).IsKey := isKey_ofInt (by omega)
  have absent := (holds _ isKey).2 fun slot entry => by
    cases slot with
    | array i =>
        have ⟨inside, same⟩ := entry
        have sameIndex := congrArg Num.num2int (TValue.num.inj same)
        rw [Num.num2int_ofInt (by omega) (by omega), Num.num2int_ofInt (by omega) (by omega)] at sameIndex
        omega
    | node i =>
        have isNil := congrArg TabNode.key ((wf.shared noNodes).2 i)
        exact entry.2 (entry.1.symm.trans isNil)
  rw [foundInt, absent]
  rfl

theorem ljTabLen_settles (wf : t.Wf) (limited : t.Limited) (holds : t.Holds m) :
    ∃ n : MSize, Settles t.ljTabLen (.ok n) ∧ BorderInt m n.toNat := by
  have small : t.asize < 2 ^ 30 := wf.small.trans_lt (by decide)
  have slots (i : Nat) (inside : i < t.asize) : t.array i = m (.num (.ofInt i)) :=
    (holds _ (isKey_ofInt (by omega))).1 (.array i) ⟨inside, rfl⟩
  have size : (BitVec.ofNat 32 t.asize).toNat = t.asize := toNat_literal (by omega)
  have many : BitVec.ofNat 32 t.asize > 1 ↔ 1 < t.asize := by
    change (1 : MSize).toNat < (BitVec.ofNat 32 t.asize).toNat ↔ _
    rw [size]
    rfl
  have before (some : 1 ≤ t.asize) : (BitVec.ofNat 32 t.asize - 1).toNat = t.asize - 1 := by
    have one : (1 : MSize).toNat = 1 := rfl
    rw [BitVec.toNat_sub_of_le (by change (1 : MSize).toNat ≤ _; omega), size, one]
  by_cases inArray : 1 < t.asize ∧ t.array (t.asize - 1) = .nil
  · have ⟨n, settles, border⟩ := slots_settle slots (by omega) inArray.1 inArray.2
    have last := settles.bind (fun _ n => return n - 1) (fun n => .ok (n - 1)) fun _ _ => .pure
    have taken : BitVec.ofNat 32 t.asize > 1 ∧ t.array (BitVec.ofNat 32 t.asize - 1).toNat = .nil :=
      ⟨many.mpr inArray.1, by rw [before (by omega)]; exact inArray.2⟩
    have runs (fuel : Nat) : t.ljTabLen fuel = do
        let i ← bisect t.presentSlot fuel 1 (.ofNat 32 t.asize)
        return i - 1 := by
      rw [ljTabLen, if_pos taken]
    rw [funext runs]
    exact ⟨n - 1, last, border⟩
  · have notTaken : ¬(BitVec.ofNat 32 t.asize > 1 ∧ t.array (BitVec.ofNat 32 t.asize - 1).toNat = .nil) := by
      rintro ⟨large, isNil⟩
      have more := many.mp large
      rw [before (by omega)] at isNil
      exact inArray ⟨more, isNil⟩
    have ⟨j, isStart, start⟩ : ∃ j : MSize, j = (if BitVec.ofNat 32 t.asize ≠ 0 then BitVec.ofNat 32 t.asize - 1
        else BitVec.ofNat 32 t.asize) ∧ j.toNat = t.asize - 1 := by
      refine ⟨_, rfl, ?_⟩
      split
      · next some => exact before (Nat.pos_of_ne_zero fun zero => some (by rw [zero]; rfl))
      · next none =>
          have zero := congrArg BitVec.toNat (Decidable.not_not.mp none)
          rw [size] at zero
          rw [size, zero]
          rfl
    have low : LowInt m j.toNat := by
      rcases Nat.lt_or_ge 1 t.asize with more | few
      · apply Or.inr
        rw [start, foundInt, ← slots _ (by omega)]
        exact decide_eq_true fun isNil => inArray ⟨more, isNil⟩
      · exact .inl (by omega)
    by_cases noNodes : t.hmask = 0
    · have runs (fuel : Nat) : t.ljTabLen fuel = pure j := by
        rw [ljTabLen, if_neg notTaken, if_pos noNodes, isStart]
      rw [funext runs]
      exact ⟨j, .pure, low, absent_behind wf holds noNodes (by omega) (by omega)⟩
    · have next : (j + 1).toNat = j.toNat + 1 := by
        have one : (1 : MSize).toNat = 1 := rfl
        rw [BitVec.toNat_add, one, Nat.mod_eq_of_lt (by omega)]
      have ⟨n, settles, border⟩ := unboundLoop_settles wf limited holds (i := j) (j := j + 1)
        (by omega) (by omega) low
      have runs (fuel : Nat) : t.ljTabLen fuel = t.unboundLoop fuel j (j + 1) := by
        rw [ljTabLen, if_neg notTaken, if_neg noNodes, isStart]
        rfl
      rw [funext runs]
      exact ⟨n, settles, border⟩

end GCtab

/-- The length of a table is found, and it is a border. -/
theorem length_is_boundary [StrHash] {depth : Nat} {t : GCtab} (reached : Reached depth t) :
    ∃ n : MSize, Settles t.ljTabLen (.ok n) ∧ t.Boundary n.toNat := by
  have ⟨wf, limited⟩ := reached.wf
  have ⟨m, holds⟩ := wf.exists_holds
  have ⟨n, settles, low, high⟩ := GCtab.ljTabLen_settles wf limited holds
  exact ⟨n, settles, GCtab.boundary_of_found wf holds (by omega) low high⟩

/-- A table with four places in its array. -/
def fourPlaces : GCtab :=
  { asize := 4, array := fun _ => .nil, block := 0, colo := true, hmask := 0, node := fun _ => {}, freetop := 0 }

/-- The table with values at 1 and 3 and a hole between them. -/
def holeTable : GCtab :=
  (fourPlaces.store (.array 1) (.bool true)).store (.array 3) (.bool false)

theorem holeTable_reached [StrHash] : Reached 0 holeTable := by
  have new : Reached 0 fourPlaces := .new (rfl : GCtab.ljTabNew 4 0 = .ok fourPlaces)
  have first : TabCall.run 0 fourPlaces (.setint 1 (.bool true)) = .ok (fourPlaces.store (.array 1) (.bool true)) := rfl
  have second : TabCall.run 0 (fourPlaces.store (.array 1) (.bool true)) (.setint 3 (.bool false)) = .ok holeTable := rfl
  exact (new.call first).call second

theorem length_is_boundary_hole :
    ∃ hash : StrHash, ∃ n : MSize, Settles holeTable.ljTabLen (.ok n) ∧
      @GCtab.Boundary hash holeTable n.toNat := by
  let _ : StrHash := ⟨fun _ => 0⟩
  exact ⟨_, length_is_boundary holeTable_reached⟩

end TvmJit.Tab
