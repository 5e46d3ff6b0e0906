import TvmJit.Tab.Resize
import Mathlib.Algebra.BigOperators.Group.Finset.Piecewise

/-! What `rehashtab` counts: how many keys there are, how many of them have an array index
in each bin, and that the new sizes have room for all of them. -/

namespace TvmJit.Tab

open Function

/-- The bin of a key, if it has an array index. -/
def binOfKey : TValue → Option Nat
  | .num nk =>
      if 0 ≤ nk.num2int ∧ nk.num2int < maxAsize ∧ nk.eq (.ofInt nk.num2int) then
        some (GCtab.binOf nk.num2int.toNat)
      else none
  | _ => none

/-- How many of the keys are in the bin. -/
def tally (keys : List TValue) (b : Nat) : Nat := keys.countP fun k => binOfKey k = some b

theorem tally_append (keys keys' : List TValue) (b : Nat) :
    tally (keys ++ keys') b = tally keys b + tally keys' b :=
  List.countP_append ..

theorem binOf_le_iff {j b : Nat} : GCtab.binOf j ≤ b ↔ j ≤ 2 * 2 ^ b := by
  have positive : 0 < 2 ^ b := Nat.two_pow_pos b
  unfold GCtab.binOf GCtab.ljFls
  split
  · rw [← Nat.lt_succ_iff, Nat.log2_lt (by omega), Nat.pow_succ]
    omega
  · omega

theorem tally_single {key : TValue} (b : Nat) : tally [key] b = if binOfKey key = some b then 1 else 0 := by
  simp [tally, List.countP_cons]

/-- Keys of the first bins. -/
theorem sum_tally (keys : List TValue) (n : Nat) :
    ∑ b ∈ Finset.range n, tally keys b = keys.countP fun k => (binOfKey k).any (· < n) := by
  induction keys with
  | nil => simp [tally]
  | cons key keys induction =>
      have split (b : Nat) : tally (key :: keys) b = tally [key] b + tally keys b :=
        tally_append [key] keys b
      simp only [split, Finset.sum_add_distrib, induction, tally_single, List.countP_cons]
      rw [Nat.add_comm]
      congr 1
      cases binOfKey key with
      | none => simp
      | some b =>
          simp only [Option.some.injEq, Option.any_some, decide_eq_true_eq]
          simp only [Finset.sum_ite_eq, Finset.mem_range]

namespace GCtab

/-- `countint` counts one key. -/
theorem countint_eq (key : TValue) (bins : Nat → Nat) :
    countint key bins = ((if (binOfKey key).isSome then 1 else 0), fun b => bins b + tally [key] b) := by
  have cases : countint key bins =
      (binOfKey key).elim (0, bins) fun b => (1, update bins b (bins b + 1)) := by
    cases key with
    | num nk =>
        simp only [countint, binOfKey]
        split <;> rfl
    | _ => rfl
  rw [cases]
  cases isBin : binOfKey key with
  | none => simp [tally_single, isBin]
  | some b =>
      refine Prod.ext rfl ?_
      funext b'
      simp only [tally_single, isBin, Option.some.injEq, update_apply]
      by_cases same : b' = b
      · simp [same]
      · simp [same, Ne.symm same]

/-! ## The pairs -/

/-- The keys of nodes that have a value. -/
def nodeKeys (nodes : List TabNode) : List TValue :=
  nodes.filterMap fun n => if n.val = .nil then none else some n.key

theorem countnodes_eq (nodes : List TabNode) (total na : Nat) (bins : Nat → Nat) :
    ∃ na', nodes.foldl countnode (total, na, bins) =
      (total + (nodeKeys nodes).length, na', fun b => bins b + tally (nodeKeys nodes) b) := by
  induction nodes generalizing total na bins with
  | nil => exact ⟨na, rfl⟩
  | cons n nodes induction =>
      rw [List.foldl_cons]
      by_cases isNil : n.val = .nil
      · have noKey : nodeKeys (n :: nodes) = nodeKeys nodes := List.filterMap_cons_none (if_pos isNil)
        have passed : countnode (total, na, bins) n = (total, na, bins) := if_pos isNil
        rw [noKey, passed]
        exact induction total na bins
      · have isKey : nodeKeys (n :: nodes) = n.key :: nodeKeys nodes :=
          List.filterMap_cons_some (if_neg isNil)
        have counted : countnode (total, na, bins) n =
            (total + 1, na + (countint n.key bins).1, (countint n.key bins).2) := if_neg isNil
        rw [isKey, counted, countint_eq]
        obtain ⟨na', run⟩ := induction (total + 1) _ fun b => bins b + tally [n.key] b
        refine ⟨na', run.trans ?_⟩
        have split (b : Nat) : tally (n.key :: nodeKeys nodes) b =
            tally [n.key] b + tally (nodeKeys nodes) b := tally_append [_] _ b
        simp only [split, List.length_cons, Nat.add_assoc, Nat.add_comm 1]

/-- `counthash` counts the keys of the nodes. -/
theorem counthash_eq (t : GCtab) (bins : Nat → Nat) (narray : Nat) :
    ∃ narray', t.counthash bins narray =
      ((nodeKeys ((List.range (t.hmask + 1)).map t.node)).length, narray',
        fun b => bins b + tally (nodeKeys ((List.range (t.hmask + 1)).map t.node)) b) := by
  obtain ⟨na, run⟩ := countnodes_eq ((List.range (t.hmask + 1)).map t.node) 0 0 bins
  rw [Nat.zero_add] at run
  refine ⟨narray + na, ?_⟩
  rw [counthash, run]

/-! ## The array -/

/-- The keys of array values from `i` on. -/
def slotKeys (t : GCtab) (i count : Nat) : List TValue :=
  ((List.range' i count).filter fun i => t.array i ≠ .nil).map fun i : Nat => TValue.num (.ofInt (i : Int))

theorem slotKeys_length (t : GCtab) (i count : Nat) : (t.slotKeys i count).length = t.countvalues i count :=
  List.length_map ..

theorem slotKeys_add (t : GCtab) (i count count' : Nat) :
    t.slotKeys i (count + count') = t.slotKeys i count ++ t.slotKeys (i + count) count' := by
  rw [slotKeys, ← List.range'_append_1, List.filter_append, List.map_append]
  rfl

theorem binOfKey_ofInt {i : Nat} (small : i < maxAsize) :
    binOfKey (.num (.ofInt i)) = some (binOf i) := by
  have limit : maxAsize < 2147483648 := by decide
  have range : (Num.ofInt (i : Int)).num2int = i := Num.num2int_ofInt (by omega) (by omega)
  have equal : (Num.ofInt (i : Int)).eq (.ofInt i) = true :=
    Num.eq_self_of_not_nan (Num.isNan_ofInt (by omega))
  rw [binOfKey, range, if_pos ⟨by omega, by omega, equal⟩, Int.toNat_natCast]

/-- The keys of one bin. -/
theorem tally_slotKeys {t : GCtab} {i count b : Nat} (small : i + count ≤ maxAsize)
    (inBin : ∀ j, i ≤ j → j < i + count → binOf j = b) (b' : Nat) :
    tally (t.slotKeys i count) b' = if b' = b then t.countvalues i count else 0 := by
  have each : ∀ k ∈ t.slotKeys i count, binOfKey k = some b := by
    intro k member
    obtain ⟨j, place, rfl⟩ := List.mem_map.mp member
    have bounds := List.mem_range'_1.mp (List.mem_filter.mp place).1
    rw [binOfKey_ofInt (by omega), inBin j bounds.1 bounds.2]
  split
  · next same =>
      rw [← slotKeys_length, tally, List.countP_eq_length]
      intro k member
      simp [each k member, same]
  · next different =>
      rw [tally, List.countP_eq_zero]
      intro k member
      simp [each k member, Ne.symm different]

/-- The loop of `countarray` counts the values from `i` on, where the values of bin `b`
start unless there are none left. -/
theorem countarrayLoop_eq {t : GCtab} (small : t.asize ≤ maxAsize) {steps b i : Nat} (bins : Nat → Nat)
    (na : Nat) (some : t.asize ≠ 0) (enough : t.asize ≤ 2 ^ (b + steps) + 1)
    (place : i = t.asize ∨ (b = 0 ∧ i = 0 ∧ 0 < steps) ∨ (0 < b ∧ i = 2 ^ b + 1 ∧ i ≤ t.asize)) :
    t.countarrayLoop steps b i bins na =
      (na + (t.slotKeys i (t.asize - i)).length,
        fun b' => bins b' + tally (t.slotKeys i (t.asize - i)) b') := by
  have none (noMore : t.asize - i = 0) :
      (na, bins) = (na + (t.slotKeys i (t.asize - i)).length,
        fun b' => bins b' + tally (t.slotKeys i (t.asize - i)) b') := by
    rw [noMore]
    rfl
  induction steps generalizing b i bins na with
  | zero =>
      apply none
      simp only [Nat.add_zero] at enough
      omega
  | succ steps induction =>
      have double : 2 ^ (b + 1) = 2 * 2 ^ b := Nat.pow_succ'
      have positive : 0 < 2 ^ b := Nat.two_pow_pos b
      rw [countarrayLoop]
      dsimp only
      split
      · next done => exact none (by omega)
      · next more =>
          -- The last value of the bin, or of the array.
          generalize isTop : (if 2 * 2 ^ b ≥ t.asize then t.asize - 1 else 2 * 2 ^ b) = top
          have next : i + (top + 1 - i) = max i (top + 1) := by omega
          have inside : top + 1 ≤ t.asize := by
            split at isTop <;> omega
          have inBin (j : Nat) (low : i ≤ j) (high : j < i + (top + 1 - i)) : binOf j = b := by
            refine Nat.le_antisymm (binOf_le_iff.mpr ?_) ?_
            · split at isTop <;> omega
            · rcases place with isEnd | ⟨isZero, -, -⟩ | ⟨positive, isStart, -⟩
              · omega
              · omega
              · by_contra below
                obtain ⟨b, rfl⟩ : ∃ c, b = c + 1 := ⟨b - 1, by omega⟩
                have early := binOf_le_iff.mp (by omega : binOf j ≤ b)
                rw [Nat.pow_succ] at isStart
                omega
          have place' : max i (top + 1) = t.asize ∨ (b + 1 = 0 ∧ max i (top + 1) = 0 ∧ 0 < steps) ∨
              (0 < b + 1 ∧ max i (top + 1) = 2 ^ (b + 1) + 1 ∧ max i (top + 1) ≤ t.asize) := by
            split at isTop <;> omega
          have whole : t.asize - i = (top + 1 - i) + (t.asize - max i (top + 1)) := by omega
          rw [induction _ _ (by rwa [Nat.add_right_comm]) place' ?_, whole, slotKeys_add, next, List.length_append,
            slotKeys_length t i, Nat.add_assoc]
          · refine Prod.ext rfl (funext fun b' => ?_)
            dsimp only
            rw [tally_append, tally_slotKeys (by omega) inBin, ← Nat.add_assoc, update_apply]
            split
            · next same => rw [same]
            · rfl
          · intro noMore
            rw [noMore]
            rfl

theorem countarray_eq {t : GCtab} (small : t.asize ≤ maxAsize) :
    t.countarray (fun _ => 0) = ((t.slotKeys 0 t.asize).length, tally (t.slotKeys 0 t.asize)) := by
  unfold countarray
  split
  · next none =>
      rw [none]
      rfl
  · next some =>
      have limit : maxAsize ≤ 2 ^ (0 + maxAbits) + 1 := by decide
      rw [countarrayLoop_eq small _ _ some (small.trans limit) (.inr (.inl ⟨rfl, rfl, by decide⟩))]
      simp only [Nat.sub_zero, Nat.zero_add]

/-! ## The new sizes -/

/-- The values for the array are those of the first bins, which are more than half of a
power of two. -/
theorem bestasizeLoop_eq (bins : Nat → Nat) (nn : Nat) (good : Nat → Nat → Prop)
    (chosen : ∀ b, 0 < bins b → 2 ^ b < 2 * ∑ b' ∈ Finset.range (b + 1), bins b' →
      good (∑ b' ∈ Finset.range (b + 1), bins b') (2 * 2 ^ b + 1)) (steps b na sz : Nat)
    (before : good na sz) :
    good (bestasizeLoop bins nn steps b (∑ b' ∈ Finset.range b, bins b') na sz).1
      (bestasizeLoop bins nn steps b (∑ b' ∈ Finset.range b, bins b') na sz).2 := by
  induction steps generalizing b na sz with
  | zero => exact before
  | succ steps induction =>
      rw [bestasizeLoop]
      dsimp only
      rw [← Finset.sum_range_succ]
      split
      · split
        · next many => exact induction (b + 1) _ _ (chosen b many.1 many.2)
        · exact induction (b + 1) _ _ before
      · exact before

/-- The indices of the first bins are those of an array of their size. -/
theorem arrayKey_iff_bin {t : GCtab} {k : TValue} {b : Nat} (size : t.asize = 2 * 2 ^ b + 1)
    (small : t.asize ≤ maxAsize) : t.arrayKey k = (binOfKey k).any (· < b + 1) := by
  cases k with
  | num nk =>
      by_cases isIndex : 0 ≤ nk.num2int ∧ nk.num2int < maxAsize ∧ nk.eq (.ofInt nk.num2int) = true
      · rw [arrayKey, binOfKey, if_pos isIndex, isIndex.2.2, Bool.true_and, Option.any_some,
          Bool.eq_iff_iff, inarray_iff, decide_eq_true_iff, Nat.lt_succ_iff, binOf_le_iff]
        omega
      · rw [arrayKey, binOfKey, if_neg isIndex, Option.any_none, Bool.eq_false_iff, ne_eq,
          Bool.and_eq_true, inarray_iff]
        rintro ⟨equal, low, high⟩
        exact isIndex ⟨low, by omega, equal⟩
  | _ => rfl

/-- Bins of keys are those of array indices. -/
theorem bin_of_tally {keys : List TValue} {b : Nat} (some : 0 < tally keys b) : b ≤ 26 := by
  obtain ⟨k, -, inBin⟩ := List.countP_pos_iff.mp some
  have inBin : binOfKey k = .some b := of_decide_eq_true inBin
  cases k with
  | num nk =>
      by_cases isIndex : 0 ≤ nk.num2int ∧ nk.num2int < maxAsize ∧ nk.eq (.ofInt nk.num2int) = true
      · have limit : maxAsize = 2 * 2 ^ 26 + 1 := rfl
        rw [binOfKey, if_pos isIndex] at inBin
        rw [← Option.some.inj inBin, binOf_le_iff]
        omega
      · rw [binOfKey, if_neg isIndex] at inBin
        cases inBin
  | _ => cases inBin

/-- The keys that are counted for the array are those it has places for. -/
theorem bestasize_taken (keys : List TValue) (nn : Nat) (t : GCtab)
    (size : t.asize = (bestasize (tally keys) nn).2) :
    keys.countP t.arrayKey = (bestasize (tally keys) nn).1 ∧
      (t.asize = 0 ∨ ∃ b ≤ 26, t.asize = 2 * 2 ^ b + 1 ∧ 2 ^ b < 2 * keys.countP t.arrayKey) := by
  have taken := bestasizeLoop_eq (tally keys) nn
    (fun na sz => ∀ t : GCtab, t.asize = sz → keys.countP t.arrayKey = na ∧
      (t.asize = 0 ∨ ∃ b ≤ 26, t.asize = 2 * 2 ^ b + 1 ∧ 2 ^ b < 2 * keys.countP t.arrayKey))
    (fun b some many t size => ?_) maxAbits 0 0 0 fun t none => ⟨?_, .inl none⟩
  · exact taken t size
  · have small := bin_of_tally some
    have power : 2 ^ b ≤ 2 ^ 26 := Nat.pow_le_pow_right (by decide) small
    have limit : maxAsize = 2 * 2 ^ 26 + 1 := rfl
    rw [sum_tally] at many ⊢
    have same : t.arrayKey = fun k => (binOfKey k).any (· < b + 1) :=
      funext fun k => arrayKey_iff_bin size (by omega)
    rw [same]
    exact ⟨rfl, .inr ⟨b, small, size, many⟩⟩
  · rw [List.countP_eq_zero]
    intro k _
    have noArray (i : Int) : t.inarray i = false := by
      rw [Bool.eq_false_iff, ne_eq, inarray_iff]
      omega
    cases k <;> simp [arrayKey, noArray]

theorem le_nodesOf_hsize2hbits (s : Nat) : s ≤ nodesOf (hsize2hbits s) := by
  unfold nodesOf hsize2hbits
  split
  · next none =>
      rw [none]
      exact Nat.zero_le _
  · split
    · next one =>
        rw [one]
        decide
    · have below := Nat.lt_log2_self (n := s - 1)
      rw [if_neg (by omega), ljFls, Nat.add_comm]
      omega

end GCtab

end TvmJit.Tab
