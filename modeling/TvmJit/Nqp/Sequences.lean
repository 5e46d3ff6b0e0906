import TvmJit.Nqp.Array
import Mathlib.Data.List.GetD
import Mathlib.Tactic.Ring

/-! Arrays of NQP as sequences, as long as nothing of what is behind their end, and no table that
two of them share, is looked at. -/

namespace TvmJit.Nqp

open Foundation Function

variable {V : Type}

/-! ## Lists -/

/-- Groups of `k` values, the last one padded with nil. -/
def groups (k : Nat) (l : List (Option V)) : List (List (Option V)) :=
  (List.range ((l.length + k - 1) / k)).map fun g => (List.range k).map fun j => l.getD (g * k + j) none

/-- Index `k` of a list, from its end if it is negative. -/
def position (l : List (Option V)) (k : Int) : Nat := (if k < 0 then l.length + k else k).toNat

/-- What is written behind the end makes the list longer. -/
def write (l : List (Option V)) (i : Nat) (v : Option V) : List (Option V) :=
  (l ++ List.replicate (i + 1 - l.length) none).set i v

/-- The same calls on lists. -/
def ArrayCall.spec (S : List (List (Option V))) : ArrayCall V → Answer V × List (List (Option V))
  | new vs => (.object S.length, S ++ [vs])
  | clone o => (.object S.length, S ++ [S.getD o []])
  | push o v => (.done, S.set o (S.getD o [] ++ [v]))
  | pop o =>
      match (S.getD o []).getLast? with
      | some v => (.value v, S.set o (S.getD o []).dropLast)
      | none => (.error "can't pop from empty array", S)
  | unshift o v => (.done, S.set o (v :: S.getD o []))
  | shift o =>
      match S.getD o [] with
      | v :: l => (.value v, S.set o l)
      | [] => (.error "can't shift from empty array", S)
  | read o k => (.value ((S.getD o []).getD (position (S.getD o []) k.unbox) none), S)
  | write o k v => (.done, S.set o (Nqp.write (S.getD o []) (position (S.getD o []) k.unbox) v))
  | elems o => (.number (S.getD o []).length, S)
  | iter1 o => (.groups (groups 1 (S.getD o [])), S)
  | iter2 o => (.groups (groups 2 (S.getD o [])), S)
  | itern o n => if 0 < n then (.groups (groups n (S.getD o [])), S) else (.error "assertion failed!", S)

def specCalls (S : List (List (Option V))) : List (ArrayCall V) → List (Answer V) × List (List (Option V))
  | [] => ([], S)
  | call :: calls =>
      let (answer, S) := call.spec S
      let (answers, S) := specCalls S calls
      (answer :: answers, S)

/-! ## One array -/

namespace Values

/-- The first `n` values are those of the list. -/
structure Rep (t : Values V) (l : List (Option V)) : Prop where
  n : t.n = l.length
  values : ∀ i : Nat, i < l.length → t.rawget i = l.getD i none

variable {t : Values V} {l : List (Option V)}

theorem rawget_newindex (t : Values V) (k : Int) (v : Option V) :
    (t.newindex k v).rawget = update t.rawget k v := by
  rw [newindex]
  split <;> rfl

theorem n_newindex (t : Values V) (k : Int) (v : Option V) : (t.newindex k v).n = max t.n (k + 1) := by
  rw [newindex]
  split
  · next outside => exact (max_eq_right (by omega : t.n ≤ k + 1)).symm
  · next inside => exact (max_eq_left (by omega : k + 1 ≤ t.n)).symm

theorem index_of_nonneg (t : Values V) {k : Int} (low : 0 ≤ k) : t.index k = t.rawget k := by
  rw [index, if_neg (Int.not_lt.mpr low)]

theorem Rep.ofList (l : List (Option V)) : (Values.ofList l).Rep l := by
  constructor
  · rfl
  · intro i _
    change (if (0 : Int) ≤ i then l.getD (i : Int).toNat none else none) = _
    rw [if_pos (Int.natCast_nonneg i), Int.toNat_natCast]

/-- Values that are written one after the other. -/
theorem newindex_copies (t : Values V) {src dst : Int → Int} {l : List Int} (low : ∀ i ∈ l, 0 ≤ src i) :
    (l.foldl (fun t i => t.newindex (dst i) (t.index (src i))) t).rawget =
      l.foldl (copyOne src dst none) t.rawget := by
  induction l generalizing t with
  | nil => rfl
  | cons i rest induction =>
      have ⟨here, others⟩ := List.forall_mem_cons.mp low
      rw [List.foldl_cons, List.foldl_cons, induction _ others, rawget_newindex, index_of_nonneg t here]
      rfl

/-- The count after them. -/
theorem n_copies (t : Values V) {src dst : Int → Int} {l : List Int} :
    (l.foldl (fun t i => t.newindex (dst i) (t.index (src i))) t).n =
      l.foldl (fun n i => max n (dst i + 1)) t.n := by
  induction l generalizing t with
  | nil => rfl
  | cons i rest induction => rw [List.foldl_cons, List.foldl_cons, induction, n_newindex]

/-- The count is not below any that is written behind, and not above what all of them allow. -/
theorem n_copies_bounds {dst : Int → Int} {l : List Int} {n most : Int} (below : n ≤ most)
    (all : ∀ i ∈ l, dst i + 1 ≤ most) :
    n ≤ l.foldl (fun n i => max n (dst i + 1)) n ∧ l.foldl (fun n i => max n (dst i + 1)) n ≤ most ∧
      ∀ i ∈ l, dst i + 1 ≤ l.foldl (fun n i => max n (dst i + 1)) n := by
  induction l generalizing n with
  | nil => exact ⟨le_rfl, below, fun i member => nomatch member⟩
  | cons i rest induction =>
      have ⟨here, others⟩ := List.forall_mem_cons.mp all
      have ⟨least, highest, each⟩ := induction (max_le below here) others
      rw [List.foldl_cons]
      exact ⟨(le_max_left _ _).trans least, highest,
        List.forall_mem_cons.mpr ⟨(le_max_right _ _).trans least, each⟩⟩

theorem Rep.push (rep : t.Rep l) (v : Option V) : (t.push v).Rep (l ++ [v]) := by
  constructor
  · rw [Values.push, n_newindex, rep.n, List.length_append, List.length_singleton]
    omega
  · intro i inside
    rw [List.length_append, List.length_singleton] at inside
    rw [Values.push, rawget_newindex, rep.n, update_apply]
    split
    · next last =>
        have isLast : i = l.length := by omega
        rw [isLast, List.getD_append_right _ _ _ _ le_rfl, Nat.sub_self]
        rfl
    · next other =>
        rw [rep.values i (by omega), List.getD_append _ _ _ _ (by omega)]

theorem Rep.pop (rep : t.Rep l) : t.pop = match l.getLast? with
    | some v => .ok (v, { t with n := t.n - 1 })
    | none => .error "can't pop from empty array" := by
  rw [Values.pop, rep.n]
  rcases List.eq_nil_or_concat l with isNil | ⟨l', v, same⟩
  · rw [isNil]
    rfl
  · have length : l.length = l'.length + 1 := by rw [same, List.concat_eq_append, List.length_append]; rfl
    have value := rep.values l'.length (by omega)
    have last : (l.length : Int) - 1 = l'.length := by omega
    dsimp only
    rw [last, if_neg (by omega), index_of_nonneg t (by omega), value, same, List.concat_eq_append,
      List.getLast?_concat, List.getD_append_right _ _ _ _ le_rfl, Nat.sub_self]
    rfl

theorem Rep.dropLast (rep : t.Rep l) (some : l ≠ []) : Rep { t with n := t.n - 1 } l.dropLast := by
  have positive := List.length_pos_iff.mpr some
  constructor
  · change t.n - 1 = _
    rw [List.length_dropLast, rep.n]
    omega
  · intro i inside
    rw [List.length_dropLast] at inside
    rw [List.dropLast_eq_take, List.getD_eq_getElem?_getD, List.getElem?_take, if_pos inside,
      ← List.getD_eq_getElem?_getD]
    exact rep.values i (by omega)

/-- The loop of `unshift` leaves the first place for the value. -/
theorem Rep.unshift (rep : t.Rep l) (v : Option V) : (t.unshift v).Rep (v :: l) := by
  have pairs := downTo_pairwise (t.n - 1) 0
  have once : (downTo (t.n - 1) 0).Pairwise fun i j => j + 1 ≠ i + 1 := pairs.imp fun above => by omega
  have unread : (downTo (t.n - 1) 0).Pairwise fun i j => j ≠ i + 1 := pairs.imp fun above => by omega
  have low : ∀ i ∈ downTo (t.n - 1) 0, 0 ≤ i := fun i member => (mem_downTo.mp member).1
  have moved := copies_moved (m := t.rawget) once fun _ : none = none => unread
  have length := rep.n
  constructor
  · have high : ∀ i ∈ downTo (t.n - 1) 0, i + 1 + 1 ≤ t.n + 1 := by
      intro i member
      have := (mem_downTo.mp member).2
      omega
    have ⟨least, most, each⟩ := n_copies_bounds (by omega : t.n ≤ t.n + 1) high
    rw [Values.unshift, n_newindex, n_copies, List.length_cons]
    rcases Nat.eq_zero_or_pos l.length with none | some
    · omega
    · have last := each (t.n - 1) (mem_downTo.mpr ⟨by omega, le_rfl⟩)
      omega
  · intro i inside
    rw [List.length_cons] at inside
    rw [Values.unshift, rawget_newindex, newindex_copies t low]
    cases i with
    | zero => rfl
    | succ i =>
        have arrived := moved i (mem_downTo.mpr (by omega))
        rw [update_of_ne (by omega), List.getD_cons_succ, ← rep.values i (by omega)]
        exact arrived

/-- The loop of `shift` takes each value one place down, and the first one away. -/
theorem Rep.shift (rep : t.Rep l) : t.shift = .error "can't shift from empty array" ∧ l = [] ∨
    ∃ v l' t', l = v :: l' ∧ t.shift = .ok (v, t') ∧ t'.Rep l' := by
  have length := rep.n
  rw [Values.shift]
  cases l with
  | nil =>
      rw [List.length_nil] at length
      exact .inl ⟨if_pos (by omega), rfl⟩
  | cons v rest =>
      rw [List.length_cons] at length
      have first := rep.values 0 (Nat.succ_pos _)
      have pairs := upTo_pairwise 0 (t.n - 1)
      have once : (upTo 0 (t.n - 1)).Pairwise fun i j => j ≠ i := pairs.imp fun below => by omega
      have unread : (upTo 0 (t.n - 1)).Pairwise fun i j => j + 1 ≠ i := pairs.imp fun below => by omega
      have low : ∀ i ∈ upTo 0 (t.n - 1), 0 ≤ i + 1 := by
        intro i member
        have := (mem_upTo.mp member).1
        omega
      have moved := copies_moved (m := t.rawget) once fun _ : none = none => unread
      let shifted := (upTo 0 (t.n - 1)).foldl (fun t i => t.newindex i (t.index (i + 1))) t
      refine .inr ⟨v, rest, { shifted with n := t.n - 1 }, rfl, ?_, ?_, ?_⟩
      · rw [if_neg (by omega), index_of_nonneg t le_rfl]
        exact congrArg (fun v => Except.ok (v, _)) first
      · change t.n - 1 = _
        omega
      · intro i inside
        change (List.foldl _ t _).rawget i = _
        rw [newindex_copies t low]
        have arrived := moved i (mem_upTo.mpr (by omega))
        have value := rep.values (i + 1) (by rw [List.length_cons]; omega)
        rw [List.getD_cons_succ] at value
        rw [← value]
        exact arrived

/-- Writing at a place that is not behind values that were removed. -/
theorem Rep.newindex (rep : t.Rep l) (i : Nat) (v : Option V)
    (clean : ∀ j : Nat, l.length ≤ j → j < i → t.rawget j = none) : (t.newindex i v).Rep (write l i v) := by
  constructor
  · rw [n_newindex, rep.n, write, List.length_set, List.length_append, List.length_replicate]
    omega
  · intro j inside
    rw [write, List.length_set, List.length_append, List.length_replicate] at inside
    rw [rawget_newindex, update_apply, write, List.getD_eq_getElem?_getD, List.getElem?_set]
    by_cases here : i = j
    · rw [if_pos (by omega), if_pos here, if_pos (by rw [List.length_append, List.length_replicate]; omega)]
      rfl
    · rw [if_neg (by omega), if_neg here]
      rcases Nat.lt_or_ge j l.length with old | new
      · rw [List.getElem?_append_left old, rep.values j old, List.getD_eq_getElem?_getD]
      · rw [List.getElem?_append_right new, List.getElem?_replicate, if_pos (by omega), clean j new (by omega)]
        rfl

end Values

/-! ## Iterations -/

theorem Iterator.run_none (it : Iterator V) {i : Int} (stop : it.next i = none) : it.run i = [] := by
  rw [Iterator.run]
  split
  · rfl
  · next step => cases stop.symm.trans step

theorem Iterator.run_some (it : Iterator V) {i i' : Int} {vs : List (Option V)}
    (goes : it.next i = some (i', vs)) : it.run i = vs :: it.run i' := by
  rw [Iterator.run]
  split
  · next step => cases goes.symm.trans step
  · next step =>
      cases goes.symm.trans step
      rfl

/-- The number of groups. -/
def count (k size : Nat) : Nat := (size + k - 1) / k

theorem lt_count {k size : Nat} (positive : 0 < k) (g : Nat) : g < count k size ↔ g * k < size := by
  rw [count, Nat.lt_div_iff_mul_lt positive]
  omega

/-- Groups of `k` values are read until the end is reached. -/
theorem Iterator.run_groups (it : Iterator V) {k : Nat} (positive : 0 < k) (size : Nat)
    (group : Int → List (Option V))
    (next : ∀ i, it.next i = if i ≥ size then none else some (i + k, group i)) (g : Nat) :
    it.run (g * k : Nat) = (List.range (count k size - g)).map fun h => group ((g + h) * k : Nat) := by
  generalize isLeft : count k size - g = left
  induction left generalizing g with
  | zero =>
      have behind : ¬g < count k size := by omega
      rw [lt_count positive] at behind
      apply it.run_none
      rw [next, if_pos (by omega)]
  | succ left induction =>
      have before : g < count k size := by omega
      rw [lt_count positive] at before
      have behind : ((g * k : Nat) : Int) + k = ((g + 1) * k : Nat) := by
        rw [Nat.add_mul, Nat.one_mul, Int.natCast_add]
      have goes : it.next (g * k : Nat) = some ((((g + 1) * k : Nat) : Int), group (g * k : Nat)) := by
        rw [next, if_neg (by omega), behind]
      rw [it.run_some goes, induction (g + 1) (by omega), List.range_succ_eq_map, List.map_cons, List.map_map]
      congr 1
      apply List.map_congr_left
      intro h _
      change group ((g + 1 + h) * k : Nat) = group ((g + (h + 1)) * k : Nat)
      rw [Nat.add_assoc, Nat.add_comm 1]

/-- Values up to the first nil stay in their places without those that are nil. -/
theorem getD_filter {vs : List (Option V)} (trailing : vs.Pairwise fun v v' => v = none → v' = none) (j : Nat) :
    (vs.filter Option.isSome).getD j none = vs.getD j none := by
  induction vs generalizing j with
  | nil => rfl
  | cons v rest induction =>
      have ⟨here, others⟩ := List.pairwise_cons.mp trailing
      cases v with
      | some v =>
          cases j with
          | zero => rfl
          | succ j => exact induction others j
      | none =>
          have allNil : rest.filter Option.isSome = [] := by
            rw [List.filter_eq_nil_iff]
            intro v member
            rw [here v member rfl]
            exact Bool.false_ne_true
          cases j with
          | zero =>
              change (rest.filter Option.isSome).getD 0 none = none
              rw [allNil]
              rfl
          | succ j =>
              rw [List.getD_cons_succ, ← induction others j]
              change (rest.filter Option.isSome).getD (j + 1) none = _
              rw [allNil]
              rfl

namespace Values

variable {t : Values V} {l : List (Option V)}

/-- No value that was removed is left behind the end, in front of a place. -/
def Clean (t : Values V) (place : Nat) : Prop := ∀ j : Nat, t.n ≤ j → j < place → t.rawget j = none

/-- In each group there is nothing behind a nil. -/
def Trailing (t : Values V) (k : Nat) : Prop :=
  ∀ g j j' : Nat, j < j' → j' < k → (g * k : Nat) < t.n →
    t.rawget (g * k + j : Nat) = none → t.rawget (g * k + j' : Nat) = none

theorem Rep.getD (rep : t.Rep l) {place : Nat} (clean : t.Clean place) {i : Nat} (inside : i < place) :
    t.rawget i = l.getD i none := by
  have length := rep.n
  rcases Nat.lt_or_ge i l.length with old | new
  · exact rep.values i old
  · rw [clean i (by omega) inside, List.getD_eq_default _ _ new]

theorem Rep.iter1 (rep : t.Rep l) : Iterator.run ⟨t.iter1, t.n, t.iter1_advances⟩ 0 = groups 1 l := by
  have next (i : Int) : t.iter1 i = if i ≥ l.length then none else some (i + 1, [t.rawget i]) := by
    rw [← rep.n]
    rfl
  have runs := Iterator.run_groups ⟨t.iter1, t.n, t.iter1_advances⟩ Nat.one_pos l.length _ next 0
  rw [Nat.zero_mul] at runs
  refine runs.trans (List.map_congr_left fun g member => ?_)
  have inside := (lt_count Nat.one_pos g).mp (List.mem_range.mp member)
  rw [Nat.zero_add, rep.values _ inside]
  rfl

theorem Rep.iter2 (rep : t.Rep l) (clean : t.Clean (count 2 l.length * 2)) :
    Iterator.run ⟨t.iter2, t.n, t.iter2_advances⟩ 0 = groups 2 l := by
  have next (i : Int) : t.iter2 i =
      if i ≥ l.length then none else some (i + 2, [t.rawget i, t.rawget (i + 1)]) := by
    have twice : i + 1 + 1 = i + 2 := by omega
    rw [Values.iter2, ← rep.n, ← twice]
  have runs := Iterator.run_groups ⟨t.iter2, t.n, t.iter2_advances⟩ Nat.two_pos l.length _ next 0
  rw [Nat.zero_mul] at runs
  refine runs.trans (List.map_congr_left fun g member => ?_)
  have inside : g < count 2 l.length := List.mem_range.mp member
  have first : t.rawget (g * 2 : Nat) = l.getD (g * 2) none := rep.getD clean (by omega)
  have second : t.rawget (g * 2 + 1 : Nat) = l.getD (g * 2 + 1) none := rep.getD clean (by omega)
  rw [Nat.zero_add, first]
  change [_, t.rawget (g * 2 + 1 : Nat)] = _
  rw [second]
  rfl

theorem Rep.itern (rep : t.Rep l) {k : Nat} (positive : 0 < k) (clean : t.Clean (count k l.length * k))
    (trailing : t.Trailing k) :
    (Iterator.run ⟨t.itern k, t.n, t.itern_advances positive⟩ 0).map (adjust k) = groups k l := by
  have next (i : Int) : t.itern k i = if i ≥ l.length then none
      else some (i + k, ((List.range k).map fun j : Nat => t.rawget (i + j)).filter Option.isSome) := by
    rw [Values.itern, group_eq, ← rep.n]
    rfl
  have runs := Iterator.run_groups ⟨t.itern k, t.n, t.itern_advances positive⟩ positive l.length _ next 0
  rw [Nat.zero_mul] at runs
  change (Iterator.run _ ((0 : Nat) : Int)).map _ = _
  rw [runs, List.map_map]
  refine List.map_congr_left fun g member => ?_
  have inside : g < count k l.length := List.mem_range.mp member
  have start := (lt_count positive g).mp inside
  have length := rep.n
  have pairs : ((List.range k).map fun j : Nat => t.rawget ((0 + g) * k + j : Nat)).Pairwise
      fun v v' => v = none → v' = none := by
    apply List.pairwise_map.mpr
    apply (List.Pairwise.and_mem.mp List.pairwise_lt_range).imp
    rintro j j' ⟨_, below, less⟩
    rw [Nat.zero_add]
    exact trailing g j j' less (List.mem_range.mp below) (by omega)
  apply List.map_congr_left
  intro j below
  have isBelow := List.mem_range.mp below
  change (((List.range k).map fun j : Nat => t.rawget ((0 + g) * k + j : Nat)).filter Option.isSome).getD j none = _
  rw [getD_filter pairs, List.getD_eq_getElem?_getD, List.getElem?_map, List.getElem?_range isBelow, Nat.zero_add]
  exact rep.getD clean (by
    have := Nat.mul_le_mul_right k (Nat.succ_le_of_lt inside)
    rw [Nat.succ_mul] at this
    omega)

end Values

/-! ## Runs -/

/-- No other object has the same table. -/
def Heap.Unshared (H : Heap V) (o : Nat) : Prop :=
  ∀ o', o' < H.objects.length → o' ≠ o → H.objects.getD o' 0 ≠ H.objects.getD o 0

/-- The object is there, and an index is not too far from the end. -/
def ArrayCall.Valid (H : Heap V) : ArrayCall V → Prop
  | new _ => True
  | read o k | write o k _ => o < H.objects.length ∧ -(H.table o).n ≤ k.unbox
  | clone o | push o _ | pop o | unshift o _ | shift o | elems o | iter1 o | iter2 o | itern o _ =>
      o < H.objects.length

/-- No table that is shared is changed, no value that was removed is found, nothing is written
with a negative index, and no group has a nil between its values. -/
def ArrayCall.Met (H : Heap V) : ArrayCall V → Prop
  | new _ | clone _ | elems _ | iter1 _ => True
  | push o _ | unshift o _ => H.Unshared o
  | pop o | shift o => (H.table o).n = 0 ∨ H.Unshared o
  | read o k => k.unbox < (H.table o).n ∨ (H.table o).rawget k.unbox = none
  | write o k _ => H.Unshared o ∧ 0 ≤ k.unbox ∧ (H.table o).Clean k.unbox.toNat
  | iter2 o => (H.table o).Clean (count 2 (H.table o).n.toNat * 2)
  | itern o n => (H.table o).Clean (count n (H.table o).n.toNat * n) ∧ (H.table o).Trailing n

/-- All calls of a sequence meet the condition. -/
def AllMet (H : Heap V) : List (ArrayCall V) → Prop
  | [] => True
  | call :: calls => call.Valid H ∧ call.Met H ∧ AllMet (call.run H).2 calls

theorem AllMet.cons {H : Heap V} {call : ArrayCall V} {calls : List (ArrayCall V)} (valid : call.Valid H)
    (met : call.Met H) (rest : AllMet (call.run H).2 calls) : AllMet H (call :: calls) :=
  ⟨valid, met, rest⟩

/-- Each object has the values of a list in its table. -/
structure HeapRep (H : Heap V) (S : List (List (Option V))) : Prop where
  objects : H.objects.length = S.length
  tables : ∀ o, o < H.objects.length → H.objects.getD o 0 < H.tables.length
  rep : ∀ o, o < H.objects.length → (H.table o).Rep (S.getD o [])

namespace HeapRep

variable {H : Heap V} {S : List (List (Option V))}

/-- One object of a table that is not shared is changed. -/
theorem store (rep : HeapRep H S) {o : Nat} (alive : o < H.objects.length) (unshared : H.Unshared o)
    {t : Values V} {l : List (Option V)} (isRep : t.Rep l) : HeapRep (H.store o t) (S.set o l) := by
  have inTables := rep.tables o alive
  refine ⟨?_, ?_, ?_⟩
  · rw [List.length_set]
    exact rep.objects
  · intro o' alive'
    change _ < (H.tables.set _ _).length
    rw [List.length_set]
    exact rep.tables o' alive'
  · intro o' alive'
    replace alive' : o' < H.objects.length := alive'
    change ((H.tables.set _ _).getD (H.objects.getD o' 0) _).Rep _
    rw [List.getD_eq_getElem?_getD, List.getElem?_set, List.getD_eq_getElem?_getD (l := S.set o l), List.getElem?_set]
    by_cases same : o = o'
    · rw [if_pos (congrArg (H.objects.getD · 0) same), if_pos inTables, if_pos same,
        if_pos (rep.objects ▸ alive)]
      exact isRep
    · rw [if_neg fun shared => unshared o' alive' (fun equal => same equal.symm) shared.symm, if_neg same,
        ← List.getD_eq_getElem?_getD, ← List.getD_eq_getElem?_getD]
      exact rep.rep o' alive'

theorem new (rep : HeapRep H S) (vs : List (Option V)) :
    HeapRep { tables := H.tables ++ [.ofList vs], objects := H.objects ++ [H.tables.length] } (S ++ [vs]) := by
  refine ⟨?_, ?_, ?_⟩
  · rw [List.length_append, List.length_append, rep.objects]
    rfl
  · intro o alive
    rw [List.length_append, List.length_singleton] at alive ⊢
    rcases Nat.lt_or_ge o H.objects.length with old | new
    · have := rep.tables o old
      rw [List.getD_append _ _ _ _ old]
      omega
    · rw [List.getD_append_right _ _ _ _ new, show o - H.objects.length = 0 by omega]
      exact Nat.lt_succ_self _
  · intro o alive
    rw [List.length_append, List.length_singleton] at alive
    change ((H.tables ++ _).getD ((H.objects ++ _).getD o 0) _).Rep _
    rcases Nat.lt_or_ge o H.objects.length with old | new
    · rw [List.getD_append _ _ _ _ old, List.getD_append _ _ _ _ (rep.tables o old),
        List.getD_append _ _ _ _ (rep.objects ▸ old)]
      exact rep.rep o old
    · have first : o - H.objects.length = 0 := by omega
      rw [List.getD_append_right _ _ _ _ new, first, List.getD_append_right S _ _ _ (rep.objects ▸ new),
        ← rep.objects, first]
      change ((H.tables ++ [_]).getD H.tables.length _).Rep vs
      rw [List.getD_append_right _ _ _ _ le_rfl, Nat.sub_self]
      exact .ofList vs

theorem clone (rep : HeapRep H S) {o : Nat} (alive : o < H.objects.length) :
    HeapRep { H with objects := H.objects ++ [H.objects.getD o 0] } (S ++ [S.getD o []]) := by
  refine ⟨?_, ?_, ?_⟩
  · rw [List.length_append, List.length_append, rep.objects]
    rfl
  · intro o' alive'
    rw [List.length_append, List.length_singleton] at alive'
    rcases Nat.lt_or_ge o' H.objects.length with old | new
    · rw [List.getD_append _ _ _ _ old]
      exact rep.tables o' old
    · rw [List.getD_append_right _ _ _ _ new, show o' - H.objects.length = 0 by omega]
      exact rep.tables o alive
  · intro o' alive'
    rw [List.length_append, List.length_singleton] at alive'
    change (H.tables.getD ((H.objects ++ _).getD o' 0) _).Rep _
    rcases Nat.lt_or_ge o' H.objects.length with old | new
    · rw [List.getD_append _ _ _ _ old, List.getD_append _ _ _ _ (rep.objects ▸ old)]
      exact rep.rep o' old
    · have first : o' - H.objects.length = 0 := by omega
      rw [List.getD_append_right _ _ _ _ new, first, List.getD_append_right S _ _ _ (rep.objects ▸ new),
        ← rep.objects, first]
      exact rep.rep o alive

end HeapRep

theorem position_of_nonneg (l : List (Option V)) {k : Int} (low : 0 ≤ k) : position l k = k.toNat := by
  rw [position, if_neg (Int.not_lt.mpr low)]

/-- A call on an object does what it does on its list. -/
theorem ArrayCall.run_rep {H : Heap V} {S : List (List (Option V))} (rep : HeapRep H S) (call : ArrayCall V)
    (valid : call.Valid H) (met : call.Met H) :
    (call.run H).1 = (call.spec S).1 ∧ HeapRep (call.run H).2 (call.spec S).2 := by
  cases call with
  | new vs => exact ⟨congrArg Answer.object rep.objects, rep.new vs⟩
  | clone o => exact ⟨congrArg Answer.object rep.objects, rep.clone valid⟩
  | push o v => exact ⟨rfl, rep.store valid met ((rep.rep o valid).push v)⟩
  | unshift o v => exact ⟨rfl, rep.store valid met ((rep.rep o valid).unshift v)⟩
  | pop o =>
      have here := rep.rep o valid
      rw [run, spec, here.pop]
      cases last : (S.getD o []).getLast? with
      | none => exact ⟨rfl, rep⟩
      | some v =>
          have some : S.getD o [] ≠ [] := by
            intro isNil
            rw [isNil] at last
            cases last
          have positive := List.length_pos_iff.mpr some
          have length := here.n
          rcases met with none | unshared
          · omega
          · exact ⟨rfl, rep.store valid unshared (here.dropLast some)⟩
  | shift o =>
      have here := rep.rep o valid
      rw [run, spec]
      rcases here.shift with ⟨failed, isNil⟩ | ⟨v, l, t, isCons, shifted, isRep⟩
      · rw [failed, isNil]
        exact ⟨rfl, rep⟩
      · rw [shifted, isCons]
        have length := here.n
        rw [isCons, List.length_cons] at length
        rcases met with none | unshared
        · omega
        · exact ⟨rfl, rep.store valid unshared isRep⟩
  | read o k =>
      obtain ⟨alive, low⟩ := valid
      have here := rep.rep o alive
      have length := here.n
      refine ⟨congrArg Answer.value ?_, rep⟩
      rw [Values.index, position]
      have place (i : Nat) (inside : i < (S.getD o []).length ∨ (H.table o).rawget i = none) :
          (H.table o).rawget i = (S.getD o []).getD i none := by
        rcases Nat.lt_or_ge i (S.getD o []).length with old | new
        · exact here.values i old
        · rcases inside with old | absent
          · omega
          · rw [absent, List.getD_eq_default _ _ new]
      split
      · next negative =>
          have isNat : (H.table o).n + k.unbox = (((S.getD o []).length + k.unbox).toNat : Nat) := by omega
          rw [isNat]
          exact place _ (.inl (by omega))
      · next positive =>
          have isNat : k.unbox = (k.unbox.toNat : Nat) := by omega
          have met' : k.unbox.toNat < (S.getD o []).length ∨ (H.table o).rawget k.unbox.toNat = none := by
            rw [← isNat]
            exact met.imp (fun inside => by omega) fun absent => absent
          rw [isNat]
          exact place _ met'
  | write o k v =>
      obtain ⟨alive, _⟩ := valid
      obtain ⟨unshared, low, clean⟩ := met
      have here := rep.rep o alive
      have length := here.n
      have isNat : k.unbox = (k.unbox.toNat : Nat) := by omega
      have written := here.newindex k.unbox.toNat v fun j old below => clean j (by omega) below
      rw [← isNat] at written
      rw [run, spec, position_of_nonneg _ low]
      exact ⟨rfl, rep.store alive unshared written⟩
  | elems o => exact ⟨congrArg Answer.number (rep.rep o valid).n, rep⟩
  | iter1 o => exact ⟨congrArg Answer.groups (rep.rep o valid).iter1, rep⟩
  | iter2 o =>
      have here := rep.rep o valid
      rw [Met, here.n, Int.toNat_natCast] at met
      exact ⟨congrArg Answer.groups (here.iter2 met), rep⟩
  | itern o n =>
      have here := rep.rep o valid
      rw [Met, here.n, Int.toNat_natCast] at met
      rw [run, spec]
      split
      · next positive => exact ⟨congrArg Answer.groups (here.itern positive met.1 met.2), rep⟩
      · exact ⟨rfl, rep⟩

theorem runCalls_rep {H : Heap V} {S : List (List (Option V))} (rep : HeapRep H S) (calls : List (ArrayCall V))
    (met : AllMet H calls) :
    (runCalls H calls).1 = (specCalls S calls).1 ∧ HeapRep (runCalls H calls).2 (specCalls S calls).2 := by
  induction calls generalizing H S with
  | nil => exact ⟨rfl, rep⟩
  | cons call calls induction =>
      have ⟨valid, here, later⟩ := met
      have ⟨answer, rep'⟩ := call.run_rep rep valid here
      have ⟨answers, rep''⟩ := induction rep' later
      rw [runCalls, specCalls]
      exact ⟨congrArg₂ List.cons answer answers, rep''⟩

/-- Arrays answer all calls as lists do, in every run that meets the condition. -/
theorem arrays_are_sequences (calls : List (ArrayCall V)) (met : AllMet ⟨[], []⟩ calls) :
    (runCalls ⟨[], []⟩ calls).1 = (specCalls [] calls).1 ∧
      HeapRep (runCalls ⟨[], []⟩ calls).2 (specCalls [] calls).2 := by
  have empty : HeapRep (⟨[], []⟩ : Heap V) [] :=
    ⟨rfl, fun o alive => absurd alive (Nat.not_lt_zero o), fun o alive => absurd alive (Nat.not_lt_zero o)⟩
  exact runCalls_rep empty calls met

def fewCalls : List (ArrayCall Nat) :=
  [.new [some 1, some 2], .push 0 (some 3), .shift 0, .read 0 (.number (-1))]

theorem arrays_are_sequences_few : (runCalls ⟨[], []⟩ fewCalls).1 = (specCalls [] fewCalls).1 := by
  have alone {H : Heap Nat} (one : H.objects.length = 1) : H.Unshared 0 := fun o' alive other => by omega
  have first : 0 < 1 := Nat.one_pos
  have met : AllMet ⟨[], []⟩ fewCalls := by
    refine .cons ?_ ?_ (.cons ?_ ?_ (.cons ?_ ?_ (.cons ?_ ?_ ?_)))
    · trivial
    · trivial
    · exact first
    · exact alone rfl
    · exact first
    · exact .inr (alone rfl)
    · exact ⟨first, by decide⟩
    · exact .inl (by decide)
    · trivial
  exact (arrays_are_sequences fewCalls met).1

/-- A clone has the table of the original, and a value that was removed is still read. A negative
index is not counted from the end when something is written. -/
theorem arrays_differ :
    (runCalls ⟨[], []⟩ [.new [some 1], .clone 0, .push 1 (some 2), .elems 0]).1 =
        [.object 0, .object 1, .done, .number 2] ∧
      (specCalls [] [.new [some 1], .clone 0, .push 1 (some 2), .elems 0]).1 =
        [.object 0, .object 1, .done, .number 1] ∧
    (runCalls ⟨[], []⟩ [.new [some 1], .pop 0, .read 0 (.number 0)]).1 =
        [.object 0, .value (some 1), .value (some 1)] ∧
      (specCalls [] [.new [some 1], .pop 0, .read 0 (.number 0)]).1 =
        [.object 0, .value (some 1), .value none] ∧
    (runCalls ⟨[], []⟩ [.new [some 1], .write 0 (.number (-1)) (some 2), .read 0 (.number 0)]).1 =
        [.object 0, .done, .value (some 1)] ∧
      (specCalls [] [.new [some 1], .write 0 (.number (-1)) (some 2), .read 0 (.number 0)]).1 =
        [.object 0, .done, .value (some 2)] := by
  decide

end TvmJit.Nqp
