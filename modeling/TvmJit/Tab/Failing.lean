import TvmJit.Tab.Rehash
import TvmJit.Foundation.Raises

/-! Resizing with an allocator that may fail: the functions of `lj_tab.c` that get to
`lj_tab_resize`, with the table that they leave behind when an error is raised. -/

namespace TvmJit.Tab

open Foundation Function

/-- The errors that resizing raises. -/
inductive RaisedError
  /-- `LJ_ERR_TABOV`. -/
  | tabov
  /-- `LJ_ERR_ERRMEM`. -/
  | errmem
  deriving DecidableEq, Repr

/-- What `lj_tab_resize` was at when an error was raised. -/
inductive ResizePoint
  /-- Growing the array. -/
  | array
  /-- Creating the new hash part. -/
  | hash
  /-- Reinserting an old array value. -/
  | value
  /-- Shrinking the array physically. -/
  | shrink
  /-- Reinserting a pair from the old hash part. -/
  | pair
  deriving DecidableEq, Repr

inductive ResizeError
  | raised (point : ResizePoint) (e : RaisedError)
  /-- No error of the program: a chain without an end, a read of an array that was freed. -/
  | broken (e : TabError)
  deriving DecidableEq, Repr

/-- A table, and how many times the allocator was called. -/
structure TabState where
  t : GCtab
  allocs : Nat := 0

abbrev TabM := EStateM ResizeError TabState

namespace TabM

def table : TabM GCtab := fun s => .ok s.t s

def put (t : GCtab) : TabM Unit := fun s => .ok () { s with t := t }

/-- A step that can only fail before it changes the table. -/
def lift {α : Type} (point : ResizePoint) : Except TabError α → TabM α
  | .ok a => pure a
  | .error .tabov => throw (.raised point .tabov)
  | .error e => throw (.broken e)

/-- Errors raised in calls inside of a call are raised at the point of that call. -/
def within {α : Type} (point : ResizePoint) (x : TabM α) : TabM α := fun s =>
  match x s with
  | .error (.raised _ e) s' => .error (.raised point e) s'
  | r => r

variable (fails : Nat → Bool)

/-- `lj_mem_realloc` for some bytes. -/
def realloc (point : ResizePoint) : TabM Unit := fun s =>
  if fails s.allocs then .error (.raised point .errmem) { s with allocs := s.allocs + 1 }
  else .ok () { s with allocs := s.allocs + 1 }

/-! ## Setters -/

section

variable [StrHash] (newkey : TValue → TabM TabSlot)

/-- The node with a key, or a new one. -/
def findOrNew (found : TValue → Bool) (n : Nat) (key : TValue) : TabM TabSlot := do
  let t ← table
  match ← lift .value (t.findNode found n) with
  | some n => return .node n
  | none => newkey key

/-- `lj_tab_setinth`. -/
def setinth (key : Int) : TabM TabSlot := do
  let t ← table
  let k := Num.ofInt key
  findOrNew newkey (isNumKey k) (t.hashnum k) (.num k)

/-- `lj_tab_setint`. -/
def setint (key : Int) : TabM TabSlot := do
  let t ← table
  if t.inarray key then return .array key.toNat else setinth newkey key

/-- `lj_tab_setstr`. -/
def setstr (key : GCstr) : TabM TabSlot := do
  let t ← table
  findOrNew newkey (· == .str key) (t.hashstr key) (.str key)

/-- The generic lookup of `lj_tab_set`. -/
def setgen (key : TValue) : TabM TabSlot := do
  let t ← table
  findOrNew newkey (ljObjEqual · key) (t.hashkey key) key

/-- `lj_tab_set`. -/
def set (key : TValue) : TabM TabSlot :=
  match key with
  | .str s => setstr newkey s
  | .num nk =>
      let k := nk.num2int
      if nk.eq (.ofInt k) then setint newkey k
      else if nk.isNan then throw (.broken .nanidx)
      else setgen newkey key
  | .nil => throw (.broken .nilidx)
  | _ => setgen newkey key

/-! ## Resizing -/

/-- Array part grows. -/
def growArray (asize : Nat) : TabM Unit := do
  let t ← table
  let grown ← lift .array (t.growArray asize)
  if asize > t.asize then realloc fails .array
  put grown

/-- Create new (empty) hash part. -/
def newhash (hbits : Nat) : TabM Unit := do
  let t ← table
  let emptied ← lift .hash (t.newhash hbits)
  if hbits ≠ 0 then realloc fails .hash
  put emptied

/-- Reinsert old array values. -/
def reinsertArray (block : Nat) (array : Nat → TValue) (i : Nat) : TabM Unit := do
  let t ← table
  if t.block ≠ block then throw (.broken .staleArray)
  else if array i = .nil then return
  else do
    let slot ← within .value (setinth newkey i)
    let t ← table
    if t.block ≠ block then throw (.broken .staleArray) else put (t.store slot (array i))

/-- Reinsert a pair from the old hash part. -/
def reinsertNode (n : TabNode) : TabM Unit :=
  if n.val = .nil then return
  else do
    let slot ← within .pair (set newkey n.key)
    let t ← table
    put (t.store slot n.val)

/-- Array part shrinks. Nothing fails that frees all of the array. -/
def shrinkArray (oldasize asize : Nat) : TabM Unit :=
  if asize < oldasize then do
    let t ← table
    let array := t.array
    let block := t.block
    put { t with asize := asize }
    (List.range' asize (oldasize - asize)).forM (reinsertArray newkey block array)
    let t ← table
    if t.colo then return
    else if t.block ≠ block then throw (.broken .staleArray)
    else do
      if asize ≠ 0 then realloc fails .shrink
      put { t with block := t.block + 1 }
  else return

/-- `lj_tab_resize`. -/
def resize (asize hbits : Nat) : TabM Unit := do
  let old ← table
  growArray fails asize
  newhash fails hbits
  shrinkArray fails newkey old.asize asize
  if old.hmask > 0 then ((List.range (old.hmask + 1)).map old.node).forM (reinsertNode newkey)
  else return

/-- `rehashtab`. -/
def rehashtab (ek : TValue) : TabM Unit := do
  let t ← table
  let (values, bins) := t.countarray fun _ => 0
  let (pairs, asize, bins) := t.counthash bins values
  let (one, bins) := GCtab.countint ek bins
  let (na, asize) := GCtab.bestasize bins (asize + one)
  resize fails newkey asize (GCtab.hsize2hbits (1 + values + pairs - na))

end

/-- `lj_tab_newkey`, with calls of it inside of it `depth` deep. -/
def newkey [StrHash] : Nat → TValue → TabM TabSlot
  | 0, _ => throw (.broken .outOfFuel)
  | depth + 1, key => do
      let t ← table
      let n := t.hashkey key
      if (t.node n).val ≠ .nil ∨ t.hmask = 0 then
        match t.freenode t.freetop with
        | none => do
            rehashtab fails (newkey depth) key
            set (newkey depth) key
        | some f => do
            let (slot, t) ← lift .value (t.collide n f key)
            put t
            return slot
      else do
        let (slot, t) := t.claim n key
        put t
        return slot

/-- `lj_tab_resize` as it is called. -/
def ljTabResize [StrHash] (depth asize hbits : Nat) : TabM Unit :=
  resize fails (newkey fails depth) asize hbits

end TabM

end TvmJit.Tab
