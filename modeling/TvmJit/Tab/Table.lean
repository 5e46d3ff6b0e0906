import TvmJit.Number
import TvmJit.Token
import TvmJit.Foundation.Links
import Mathlib.Logic.Function.Basic

/-! Tables: the array part, the hash part and the functions of `lj_tab.c` on them, for
a 64 bit x86 build with 32 bit references. Running out of memory is left out. -/

namespace TvmJit.Tab

open Foundation Function

/-! ## Values -/

/-- A tagged value. -/
inductive TValue
  | nil
  | bool (b : Bool)
  | str (s : GCstr)
  | num (n : Num)
  /-- A light userdata or an object that is not a string: its tag and its reference. -/
  | gcref (it ref : BitVec 32)
  deriving DecidableEq, Repr

/-- `lj_obj_equal`. Strings are interned. -/
def ljObjEqual : TValue → TValue → Bool
  | .num n, .num n' => n.eq n'
  | o, o' => o == o'

/-- `tvisnum(&n->key) && n->key.n == k`. -/
def isNumKey (k : Num) : TValue → Bool
  | .num n => n.eq k
  | _ => false

/-- What string hashes are when they are interned. -/
class StrHash where
  hash : GCstr → BitVec 32

inductive TabError
  /-- `LJ_ERR_TABOV`. -/
  | tabov
  /-- `LJ_ERR_NILIDX`. -/
  | nilidx
  /-- `LJ_ERR_NANIDX`. -/
  | nanidx
  /-- A chain that does not end, or ends before the node it has to lead to. -/
  | chain
  /-- Access to an array that is not the table's any more. -/
  | staleArray
  /-- The bound on calls inside of each other is used up. -/
  | outOfFuel
  deriving DecidableEq, Repr

/-! ## Tables -/

structure TabNode where
  val : TValue := .nil
  key : TValue := .nil
  next : Option Nat := none

/-- The limits of `lj_def.h`. -/
def maxHbits : Nat := 26
def maxAbits : Nat := 28
def maxAsize : Nat := 2 ^ (maxAbits - 1) + 1
def maxColosize : Nat := 16

structure GCtab where
  asize : Nat
  array : Nat → TValue
  /-- Which allocation `array` is. -/
  block : Nat
  /-- The array is part of the table object. -/
  colo : Bool
  /-- No hash part for 0: `node` is the node all such tables share. -/
  hmask : Nat
  node : Nat → TabNode
  freetop : Nat

/-- A value of a table that may be stored to. -/
inductive TabSlot
  | array (i : Nat)
  | node (i : Nat)
  deriving DecidableEq, Repr

namespace GCtab

def read (t : GCtab) : TabSlot → TValue
  | .array i => t.array i
  | .node i => (t.node i).val

/-- `copyTV` to a value of the table. -/
def store (t : GCtab) (slot : TabSlot) (v : TValue) : GCtab :=
  match slot with
  | .array i => { t with array := update t.array i v }
  | .node i => { t with node := update t.node i { t.node i with val := v } }

/-- `nextnode`. -/
def nextnode (t : GCtab) (i : Nat) : Option Nat := (t.node i).next

/-! ## Object hashing -/

def hashmask (t : GCtab) (hash : BitVec 32) : Nat := hash.toNat &&& t.hmask

end GCtab

/-- `hashrot`. -/
def hashrot (lo hi : BitVec 32) : BitVec 32 :=
  let lo := lo ^^^ hi
  let hi := hi.rotateLeft 14
  let lo := lo - hi
  let hi := hi.rotateLeft 5
  let hi := hi ^^^ lo
  hi - lo.rotateLeft 13

def hashBias : BitVec 32 := -0x04c11db7

namespace GCtab

section

variable [StrHash]

def hashstr (t : GCtab) (s : GCstr) : Nat := t.hashmask (StrHash.hash s)

def hashnum (t : GCtab) (n : Num) : Nat :=
  t.hashmask (hashrot (n.extractLsb' 0 32) (n.extractLsb' 32 32 <<< 1))

def hashgcref (t : GCtab) (r : BitVec 32) : Nat := t.hashmask (hashrot r (r + hashBias))

/-- `hashkey`. There is no nil key to hash. -/
def hashkey (t : GCtab) : TValue → Nat
  | .str s => t.hashstr s
  | .num n => t.hashnum n
  | .bool b => t.hashmask (if b then 1 else 0)
  | .gcref _ r => t.hashgcref r
  | .nil => t.hashgcref 0

end

/-! ## Creation -/

/-- `newhpart` with `clearhpart`. -/
def newhpart (t : GCtab) (hbits : Nat) : Except TabError GCtab :=
  if hbits > maxHbits then .error .tabov
  else .ok { t with node := fun _ => {}, freetop := 2 ^ hbits, hmask := 2 ^ hbits - 1 }

/-- `lj_tab_new`. -/
def ljTabNew (asize hbits : Nat) : Except TabError GCtab :=
  if asize > maxAsize then .error .tabov
  else
    let t : GCtab :=
      { asize := asize, array := fun _ => .nil, block := 0
        colo := decide (0 < asize ∧ asize ≤ maxColosize), hmask := 0, node := fun _ => {}
        freetop := 0 }
    if hbits ≠ 0 then t.newhpart hbits else .ok t

/-- `lj_tab_clear`. -/
def ljTabClear (t : GCtab) : GCtab :=
  let t := { t with array := fun i => if i < t.asize then .nil else t.array i }
  if t.hmask > 0 then
    { t with
      freetop := t.hmask + 1
      node := fun i => if i ≤ t.hmask then {} else t.node i }
  else t

/-! ## Getters -/

/-- `inarray`. A negative key is a large unsigned one. -/
def inarray (t : GCtab) (key : Int) : Bool := 0 ≤ key && key < t.asize

section

variable [StrHash]

/-- `do { … } while ((n = nextnode(n)))`: the first node of a chain with a key. There are
no more nodes on a chain than in the table. -/
def findNode (t : GCtab) (found : TValue → Bool) (n : Nat) : Except TabError (Option Nat) :=
  match searchChain t.nextnode (fun i => found (t.node i).key) (t.hmask + 1) n with
  | some r => .ok r
  | none => .error .chain

/-- `lj_tab_getinth`, none for `NULL`. -/
def ljTabGetinth (t : GCtab) (key : Int) : Except TabError (Option TValue) := do
  let k := Num.ofInt key
  let n ← t.findNode (isNumKey k) (t.hashnum k)
  return n.map fun n => (t.node n).val

/-- `lj_tab_getint`. -/
def ljTabGetint (t : GCtab) (key : Int) : Except TabError (Option TValue) :=
  if t.inarray key then .ok (some (t.array key.toNat)) else t.ljTabGetinth key

/-- `lj_tab_getstr`. -/
def ljTabGetstr (t : GCtab) (key : GCstr) : Except TabError (Option TValue) := do
  let n ← t.findNode (· == .str key) (t.hashstr key)
  return n.map fun n => (t.node n).val

/-- The generic lookup of `lj_tab_get`. -/
def genlookup (t : GCtab) (key : TValue) : Except TabError TValue := do
  let n ← t.findNode (ljObjEqual · key) (t.hashkey key)
  return (n.map fun n => (t.node n).val).getD .nil

/-- `lj_tab_get`. -/
def ljTabGet (t : GCtab) (key : TValue) : Except TabError TValue :=
  match key with
  | .str s => do
      let tv ← t.ljTabGetstr s
      return tv.getD .nil
  | .num nk =>
      let k := nk.num2int
      if nk.eq (.ofInt k) then do
        let tv ← t.ljTabGetint k
        return tv.getD .nil
      else t.genlookup key
  | .nil => .ok .nil
  | _ => t.genlookup key

/-! ## Setters

Storing a new key may have to resize the table, which stores keys. The setters take
`lj_tab_newkey` as an argument; below it is defined by recursion on how deep such calls
are inside of each other. -/

variable (newkey : GCtab → TValue → Except TabError (TabSlot × GCtab))

/-- `lj_tab_setinth`. -/
def setinth (t : GCtab) (key : Int) : Except TabError (TabSlot × GCtab) := do
  let k := Num.ofInt key
  match ← t.findNode (isNumKey k) (t.hashnum k) with
  | some n => return (.node n, t)
  | none => newkey t (.num k)

/-- `lj_tab_setint`. -/
def setint (t : GCtab) (key : Int) : Except TabError (TabSlot × GCtab) :=
  if t.inarray key then .ok (.array key.toNat, t) else t.setinth newkey key

/-- `lj_tab_setstr`. -/
def setstr (t : GCtab) (key : GCstr) : Except TabError (TabSlot × GCtab) := do
  match ← t.findNode (· == .str key) (t.hashstr key) with
  | some n => return (.node n, t)
  | none => newkey t (.str key)

/-- The generic lookup of `lj_tab_set`. -/
def setgen (t : GCtab) (key : TValue) : Except TabError (TabSlot × GCtab) := do
  match ← t.findNode (ljObjEqual · key) (t.hashkey key) with
  | some n => return (.node n, t)
  | none => newkey t key

/-- `lj_tab_set`. -/
def set (t : GCtab) (key : TValue) : Except TabError (TabSlot × GCtab) :=
  match key with
  | .str s => t.setstr newkey s
  | .num nk =>
      let k := nk.num2int
      if nk.eq (.ofInt k) then t.setint newkey k
      else if nk.isNan then .error .nanidx
      else t.setgen newkey key
  | .nil => .error .nilidx
  | _ => t.setgen newkey key

/-! ## Resizing -/

/-- Reinsert old array values. `array` is what `t->array` was before, so the block has to
be the same still. (A colocated block may still be read when there is another one, but is
reallocated after the loop as if it had been separated.) -/
def reinsertArray (block : Nat) (array : Nat → TValue) (t : GCtab) (i : Nat) :
    Except TabError GCtab :=
  if t.block ≠ block then .error .staleArray
  else if array i = .nil then .ok t
  else do
    let (slot, t) ← t.setinth newkey i
    if t.block ≠ block then throw .staleArray else return t.store slot (array i)

/-- Reinsert a pair from the old hash part. -/
def reinsertNode (t : GCtab) (n : TabNode) : Except TabError GCtab :=
  if n.val = .nil then .ok t
  else do
    let (slot, t) ← t.set newkey n.key
    return t.store slot n.val

/-- Array part grows. -/
def growArray (t : GCtab) (asize : Nat) : Except TabError GCtab :=
  if asize > t.asize then
    if asize > maxAsize then .error .tabov
    else .ok
      { t with
        array := fun i => if i < t.asize then t.array i else .nil
        block := t.block + 1
        colo := false
        asize := asize }
  else .ok t

/-- Array part shrinks. Only a separated array is shrunk physically. -/
def shrinkArray (t : GCtab) (oldasize asize : Nat) : Except TabError GCtab :=
  if asize < oldasize then do
    let array := t.array
    let block := t.block
    let t := { t with asize := asize }
    let t ← (List.range' asize (oldasize - asize)).foldlM (reinsertArray newkey block array) t
    if t.colo then return t
    else if t.block ≠ block then throw .staleArray
    else return { t with block := t.block + 1 }
  else return t

/-- Create new (empty) hash part. -/
def newhash (t : GCtab) (hbits : Nat) : Except TabError GCtab :=
  if hbits ≠ 0 then t.newhpart hbits
  else .ok { t with node := fun _ => {}, freetop := 0, hmask := 0 }

/-- `lj_tab_resize`. -/
def resize (t : GCtab) (asize hbits : Nat) : Except TabError GCtab := do
  let oldnode := t.node
  let oldasize := t.asize
  let oldhmask := t.hmask
  let t ← t.growArray asize
  let t ← t.newhash hbits
  let t ← t.shrinkArray newkey oldasize asize
  if oldhmask > 0 then ((List.range (oldhmask + 1)).map oldnode).foldlM (reinsertNode newkey) t
  else return t

/-- `lj_fls`, the number of the highest bit. -/
def ljFls (x : Nat) : Nat := x.log2

/-- `hsize2hbits`. -/
def hsize2hbits (s : Nat) : Nat :=
  if s = 0 then 0 else if s = 1 then 1 else 1 + ljFls (s - 1)

/-- The bin of an array index. -/
def binOf (k : Nat) : Nat := if k > 2 then ljFls (k - 1) else 0

/-- `countint`. -/
def countint (key : TValue) (bins : Nat → Nat) : Nat × (Nat → Nat) :=
  match key with
  | .num nk =>
      let k := nk.num2int
      if 0 ≤ k ∧ k < maxAsize ∧ nk.eq (.ofInt k) then
        let b := binOf k.toNat
        (1, update bins b (bins b + 1))
      else (0, bins)
  | _ => (0, bins)

/-- The values of the array from `i` on, `count` of them. -/
def countvalues (t : GCtab) (i count : Nat) : Nat :=
  ((List.range' i count).filter fun i => t.array i ≠ .nil).length

/-- The loop of `countarray`, `steps` rounds before its end. -/
def countarrayLoop (t : GCtab) : Nat → Nat → Nat → (Nat → Nat) → Nat → Nat × (Nat → Nat)
  | 0, _, _, bins, na => (na, bins)
  | steps + 1, b, i, bins, na =>
      let top := 2 * 2 ^ b
      if top ≥ t.asize ∧ i > t.asize - 1 then (na, bins)
      else
        let top := if top ≥ t.asize then t.asize - 1 else top
        let n := t.countvalues i (top + 1 - i)
        countarrayLoop t steps (b + 1) (max i (top + 1)) (update bins b (bins b + n)) (na + n)

/-- `countarray`. -/
def countarray (t : GCtab) (bins : Nat → Nat) : Nat × (Nat → Nat) :=
  if t.asize = 0 then (0, bins) else t.countarrayLoop maxAbits 0 0 bins 0

/-- The loop of `counthash` at a node. -/
def countnode (counts : Nat × Nat × (Nat → Nat)) (n : TabNode) : Nat × Nat × (Nat → Nat) :=
  let (total, na, bins) := counts
  if n.val = .nil then (total, na, bins)
  else
    let (one, bins) := countint n.key bins
    (total + 1, na + one, bins)

/-- `counthash`: how many pairs, and how many values for the array with them. -/
def counthash (t : GCtab) (bins : Nat → Nat) (narray : Nat) : Nat × Nat × (Nat → Nat) :=
  let (total, na, bins) := ((List.range (t.hmask + 1)).map t.node).foldl countnode (0, 0, bins)
  (total, narray + na, bins)

/-- The loop of `bestasize`, with `nn` from before it. There are `LJ_MAX_ABITS` bins, and
they have all been added up when `sum` is `nn`. -/
def bestasizeLoop (bins : Nat → Nat) (nn : Nat) : Nat → Nat → Nat → Nat → Nat → Nat × Nat
  | 0, _, _, na, sz => (na, sz)
  | steps + 1, b, sum, na, sz =>
      if 2 * nn > 2 ^ b ∧ sum ≠ nn then
        let sum' := sum + bins b
        if bins b > 0 ∧ 2 * sum' > 2 ^ b then
          bestasizeLoop bins nn steps (b + 1) sum' sum' (2 * 2 ^ b + 1)
        else bestasizeLoop bins nn steps (b + 1) sum' na sz
      else (na, sz)

/-- `bestasize`: how many values go to the array, and its size. -/
def bestasize (bins : Nat → Nat) (narray : Nat) : Nat × Nat :=
  bestasizeLoop bins narray maxAbits 0 0 0 0

/-- `rehashtab`. -/
def rehashtab (t : GCtab) (ek : TValue) : Except TabError GCtab :=
  let (values, bins) := t.countarray fun _ => 0
  let (pairs, asize, bins) := t.counthash bins values
  let (one, bins) := countint ek bins
  let (na, asize) := bestasize bins (asize + one)
  t.resize newkey asize (hsize2hbits (1 + values + pairs - na))

/-- `lj_tab_reasize`. Sizes are unsigned numbers of 32 bits. -/
def reasize (t : GCtab) (nasize : Nat) : Except TabError GCtab :=
  t.resize newkey ((nasize + 1) % 2 ^ 32) (if t.hmask > 0 then ljFls t.hmask + 1 else 0)

end

/-! ## New keys -/

/-- The search for a free node, downwards from `freenode`. -/
def freenode (t : GCtab) : Nat → Option Nat
  | 0 => none
  | f + 1 => if (t.node f).key = .nil then some f else freenode t f

def setNext (t : GCtab) (i : Nat) (next : Option Nat) : GCtab :=
  { t with node := update t.node i { t.node i with next := next } }

section

variable [StrHash]

/-- Rechain pseudo-resurrected string keys with colliding hashes: `n` is the freed main
node. -/
def rechain (n : Nat) : Nat → GCtab → Nat → Except TabError GCtab
  | 0, _, _ => .error .chain
  | steps + 1, t, f =>
      match t.nextnode f with
      | none => .ok t
      | some nn =>
          let moves : Bool :=
            match (t.node nn).key with
            | .str s => (t.node nn).val != .nil && t.hashstr s == n
            | _ => false
          if moves then
            let t := t.setNext f (t.nextnode nn)
            let t := t.setNext nn (t.nextnode n)
            let t := t.setNext n (some nn)
            rechain n steps t f
          else rechain n steps t nn

/-- The end of `lj_tab_newkey`: node `n` gets the key. -/
def claim (t : GCtab) (n : Nat) (key : TValue) : TabSlot × GCtab :=
  let key :=
    match key with
    | .num k => .num (if k.isMzero then 0 else k)
    | _ => key
  (.node n, { t with node := update t.node n { t.node n with key := key } })

/-- `lj_tab_newkey` where the main node `n` of the key is taken and node `f` is free. -/
def collide (t : GCtab) (n f : Nat) (key : TValue) : Except TabError (TabSlot × GCtab) := do
  let t := { t with freetop := f }
  let main := t.hashkey (t.node n).key
  if main ≠ n then
    match searchChain t.nextnode (fun i => t.nextnode i == some n) (t.hmask + 1) main with
    | some (some pred) =>
        let t := t.setNext pred (some f)
        let t := { t with node := update t.node f (t.node n) }
        let t := { t with node := update t.node n { t.node n with next := none, val := .nil } }
        let t ← rechain n (t.hmask + 1) t f
        return t.claim n key
    | _ => throw .chain
  else
    let t := t.setNext f (t.nextnode n)
    let t := t.setNext n (some f)
    return t.claim f key

/-- `lj_tab_newkey`, with calls of it inside of it `depth` deep. -/
def newkey : Nat → GCtab → TValue → Except TabError (TabSlot × GCtab)
  | 0, _, _ => .error .outOfFuel
  | depth + 1, t, key =>
      let n := t.hashkey key
      if (t.node n).val ≠ .nil ∨ t.hmask = 0 then
        match t.freenode t.freetop with
        | none => do
            let t ← t.rehashtab (newkey depth) key
            t.set (newkey depth) key
        | some f => t.collide n f key
      else .ok (t.claim n key)

/-! ## The functions as they are called -/

variable (depth : Nat)

/-- `lj_tab_set`. -/
def ljTabSet (t : GCtab) (key : TValue) : Except TabError (TabSlot × GCtab) :=
  t.set (newkey depth) key

/-- `lj_tab_setint`. -/
def ljTabSetint (t : GCtab) (key : Int) : Except TabError (TabSlot × GCtab) :=
  t.setint (newkey depth) key

/-- `lj_tab_setstr`. -/
def ljTabSetstr (t : GCtab) (key : GCstr) : Except TabError (TabSlot × GCtab) :=
  t.setstr (newkey depth) key

/-- `lj_tab_resize`. -/
def ljTabResize (t : GCtab) (asize hbits : Nat) : Except TabError GCtab :=
  t.resize (newkey depth) asize hbits

/-- `lj_tab_reasize`. -/
def ljTabReasize (t : GCtab) (nasize : Nat) : Except TabError GCtab :=
  t.reasize (newkey depth) nasize

end

end GCtab

end TvmJit.Tab
