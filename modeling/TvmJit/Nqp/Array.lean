import TvmJit.Foundation.Copies

/-! The class `Array` of the run-time prelude of NQP. Its objects have a table `_VALUES`, which
counts its elements in a field `n`. -/

namespace TvmJit.Nqp

open Foundation Function

variable {V : Type}

/-- A table `_VALUES`. There is nothing where there is nil. -/
structure Values (V : Type) where
  n : Int
  rawget : Int → Option V

/-- An index, as a number or in an object. -/
inductive Key
  | number (k : Int)
  | object (k : Int)

/-- `k._VALUES or k`. -/
def Key.unbox : Key → Int
  | number k => k
  | object k => k

namespace Values

def rawset (t : Values V) (k : Int) (v : Option V) : Values V := { t with rawget := update t.rawget k v }

/-- `__index` with a number. -/
def index (t : Values V) (k : Int) : Option V :=
  let k := if k < 0 then t.n + k else k
  t.rawget k

/-- `__newindex`. -/
def newindex (t : Values V) (k : Int) (v : Option V) : Values V :=
  let t := if k ≥ t.n then { t with n := k + 1 } else t
  t.rawset k v

def elems (t : Values V) : Int := t.n

def push (t : Values V) (v : Option V) : Values V := t.newindex t.n v

def pop (t : Values V) : Except String (Option V × Values V) :=
  let n := t.n - 1
  if n < 0 then .error "can't pop from empty array"
  else
    let v := t.index n
    .ok (v, { t with n := n })

def unshift (t : Values V) (v : Option V) : Values V :=
  let t := (downTo (t.n - 1) 0).foldl (fun t i => t.newindex (i + 1) (t.index i)) t
  t.newindex 0 v

def shift (t : Values V) : Except String (Option V × Values V) :=
  let n := t.n - 1
  if n < 0 then .error "can't shift from empty array"
  else
    let v := t.index 0
    let t := (upTo 0 n).foldl (fun t i => t.newindex i (t.index (i + 1))) t
    .ok (v, { t with n := n })

/-- The function that `_iter1` returns, which counts with `i`. -/
def iter1 (t : Values V) (i : Int) : Option (Int × List (Option V)) :=
  if i ≥ t.n then none
  else some (i + 1, [t.rawget i])

/-- The function that `_iter2` returns. -/
def iter2 (t : Values V) (i : Int) : Option (Int × List (Option V)) :=
  if i ≥ t.n then none
  else
    let v1 := t.rawget i
    let i := i + 1
    let v2 := t.rawget i
    let i := i + 1
    some (i, [v1, v2])

/-- `t[#t + 1] = v`. -/
def append (t : List (Option V)) (v : Option V) : List (Option V) := if v.isSome then t ++ [v] else t

/-- The function that `_itern` returns. -/
def itern (t : Values V) (n : Nat) (i : Int) : Option (Int × List (Option V)) :=
  if i ≥ t.n then none
  else
    let r := (List.range n).foldl (fun (t', i) _ => (append t' (t.rawget i), i + 1)) ([], i)
    some (r.2, r.1)

/-- The table of a list, as the compiler writes it. -/
def ofList (vs : List (Option V)) : Values V :=
  { n := vs.length, rawget := fun i => if 0 ≤ i then vs.getD i.toNat none else none }

end Values

/-- What a loop calls until there is nothing. -/
structure Iterator (V : Type) where
  next : Int → Option (Int × List (Option V))
  stop : Int
  advances : ∀ {i i' : Int} {vs : List (Option V)}, next i = some (i', vs) → i < stop ∧ i < i'

/-- The values that a loop gets. -/
def Iterator.run (it : Iterator V) (i : Int) : List (List (Option V)) :=
  match step : it.next i with
  | none => []
  | some (i', vs) => vs :: it.run i'
termination_by (it.stop - i).toNat
decreasing_by
  have ⟨below, more⟩ := it.advances step
  omega

/-- Variables without a value are nil. -/
def adjust (n : Nat) (vs : List (Option V)) : List (Option V) := (List.range n).map fun j => vs.getD j none

namespace Values

theorem iter1_advances (t : Values V) {i i' : Int} {vs : List (Option V)} (step : t.iter1 i = some (i', vs)) :
    i < t.n ∧ i < i' := by
  rw [iter1] at step
  split at step
  · cases step
  · cases step
    omega

theorem iter2_advances (t : Values V) {i i' : Int} {vs : List (Option V)} (step : t.iter2 i = some (i', vs)) :
    i < t.n ∧ i < i' := by
  rw [iter2] at step
  split at step
  · cases step
  · cases step
    omega

/-- The values of a group that are not nil, and where the next one starts. -/
theorem group_eq (t : Values V) (n : Nat) (i : Int) (t' : List (Option V)) :
    (List.range n).foldl (fun (t', i) _ => (append t' (t.rawget i), i + 1)) (t', i) =
      (t' ++ ((List.range n).map fun j : Nat => t.rawget (i + j)).filter Option.isSome, i + n) := by
  induction n with
  | zero => simp
  | succ n induction =>
      rw [List.range_succ, List.foldl_append, induction, List.map_append, List.filter_append]
      cases value : t.rawget (i + n) with
      | none => simp [append, value, Int.add_assoc]
      | some v => simp [append, value, Int.add_assoc]

theorem itern_advances (t : Values V) {n : Nat} (positive : 0 < n) {i i' : Int} {vs : List (Option V)}
    (step : t.itern n i = some (i', vs)) : i < t.n ∧ i < i' := by
  rw [itern, group_eq] at step
  split at step
  · cases step
  · cases step
    omega

end Values

/-- `Array` objects and the tables in their `_VALUES`. -/
structure Heap (V : Type) where
  tables : List (Values V)
  objects : List Nat

inductive ArrayCall (V : Type)
  | new (vs : List (Option V))
  | clone (o : Nat)
  | push (o : Nat) (v : Option V)
  | pop (o : Nat)
  | unshift (o : Nat) (v : Option V)
  | shift (o : Nat)
  | read (o : Nat) (k : Key)
  | write (o : Nat) (k : Key) (v : Option V)
  | elems (o : Nat)
  | iter1 (o : Nat)
  | iter2 (o : Nat)
  | itern (o n : Nat)

inductive Answer (V : Type)
  | object (o : Nat)
  | done
  | value (v : Option V)
  | number (n : Int)
  | groups (vs : List (List (Option V)))
  | error (message : String)
  deriving DecidableEq

namespace Heap

def table (H : Heap V) (o : Nat) : Values V := H.tables.getD (H.objects.getD o 0) ⟨0, fun _ => none⟩

def store (H : Heap V) (o : Nat) (t : Values V) : Heap V :=
  { H with tables := H.tables.set (H.objects.getD o 0) t }

end Heap

/-- A method or an access of an object. The `new` of a `clone` takes `_VALUES` as it is. -/
def ArrayCall.run (H : Heap V) : ArrayCall V → Answer V × Heap V
  | new vs =>
      (.object H.objects.length,
        { tables := H.tables ++ [.ofList vs], objects := H.objects ++ [H.tables.length] })
  | clone o => (.object H.objects.length, { H with objects := H.objects ++ [H.objects.getD o 0] })
  | push o v => (.done, H.store o ((H.table o).push v))
  | pop o =>
      match (H.table o).pop with
      | .ok (v, t) => (.value v, H.store o t)
      | .error message => (.error message, H)
  | unshift o v => (.done, H.store o ((H.table o).unshift v))
  | shift o =>
      match (H.table o).shift with
      | .ok (v, t) => (.value v, H.store o t)
      | .error message => (.error message, H)
  | read o k => (.value ((H.table o).index k.unbox), H)
  | write o k v => (.done, H.store o ((H.table o).newindex k.unbox v))
  | elems o => (.number (H.table o).elems, H)
  | iter1 o => (.groups (Iterator.run ⟨(H.table o).iter1, (H.table o).n, (H.table o).iter1_advances⟩ 0), H)
  | iter2 o => (.groups (Iterator.run ⟨(H.table o).iter2, (H.table o).n, (H.table o).iter2_advances⟩ 0), H)
  | itern o n =>
      if positive : 0 < n then
        (.groups ((Iterator.run ⟨(H.table o).itern n, (H.table o).n, (H.table o).itern_advances positive⟩ 0).map
          (adjust n)), H)
      else (.error "assertion failed!", H)

def runCalls (H : Heap V) : List (ArrayCall V) → List (Answer V) × Heap V
  | [] => ([], H)
  | call :: calls =>
      let (answer, H) := call.run H
      let (answers, H) := runCalls H calls
      (answer :: answers, H)

end TvmJit.Nqp
