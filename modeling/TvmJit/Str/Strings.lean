import TvmJit.Foundation.Buckets
import TvmJit.Gc.Colours

/-! The string table of `lj_str.c`, with what the collector of `lj_gc.c` does to strings. The
chain of a bucket goes through the `nextgc` fields of its strings. -/

namespace TvmJit

open Foundation Function

/-- Addresses of strings, which are `GCRef`s. -/
abbrev StrRef := BitVec 32

/-- The byte order of the target, `LJ_LE`. -/
class Target where
  LJ_LE : Bool

/-- A `const char *`: its address and the memory from there on. -/
structure CharPtr where
  addr : Nat
  byte : Nat → BitVec 8

def LJ_MAX_STRTAB : BitVec 32 := 0x4000000
def LJ_MIN_STRTAB : BitVec 32 := 256
def LJ_PAGESIZE : Nat := 4096

/-! ## Bytes of strings -/

section

variable [Target]

def lj_getu32 (p : Nat → BitVec 8) (i : Nat) : BitVec 32 :=
  if Target.LJ_LE then p (i + 3) ++ p (i + 2) ++ p (i + 1) ++ p i
  else p i ++ p (i + 1) ++ p (i + 2) ++ p (i + 3)

/-- The hash `lj_str_new` computes. -/
def strHash (str : Nat → BitVec 8) (len : Nat) : BitVec 32 :=
  let mix (a b h : BitVec 32) :=
    let a := a ^^^ h
    let a := a - h.rotateLeft 11
    let b := b ^^^ a
    let b := b - a.rotateLeft 25
    let h := h ^^^ b
    h - b.rotateLeft 16
  let h := BitVec.ofNat 32 len
  if len ≥ 4 then
    let a := lj_getu32 str 0
    let h := h ^^^ lj_getu32 str (len - 4)
    let b := lj_getu32 str (len / 2 - 2)
    let h := h ^^^ b
    let h := h - b.rotateLeft 14
    let b := b + lj_getu32 str (len / 4 - 1)
    mix a b h
  else
    let a := (str 0).setWidth 32
    let h := h ^^^ (str (len - 1)).setWidth 32
    let b := (str (len / 2)).setWidth 32
    let h := h ^^^ b
    let h := h - b.rotateLeft 14
    mix a b h

/-- The loop of `str_fastcmp`, which looks at four bytes at a time. -/
def fastcmpLoop (a b : Nat → BitVec 8) (len i : Nat) : BitVec 32 :=
  let v := lj_getu32 a i ^^^ lj_getu32 b i
  if v ≠ 0 then
    -- Bytes behind the end do not count.
    if len - i ≤ 3 then
      if Target.LJ_LE then v <<< (32 - 8 * (len - i)) else v >>> (32 - 8 * (len - i))
    else 1
  else if i + 4 < len then fastcmpLoop a b len (i + 4)
  else 0
termination_by len - i

/-- Fast string data comparison. -/
def str_fastcmp (a b : Nat → BitVec 8) (len : Nat) : BitVec 32 := fastcmpLoop a b len 0

def memcmp (a b : Nat → BitVec 8) (len : Nat) : Bool := (List.range len).all fun i => a i = b i

/-- How `lj_str_new` compares: the fast way unless the end of the string is too close to a page
boundary. -/
def sameBytes (str : CharPtr) (data : Nat → BitVec 8) (len : Nat) : Bool :=
  if (str.addr + len - 1) % LJ_PAGESIZE ≤ LJ_PAGESIZE - 4 then str_fastcmp str.byte data len = 0
  else memcmp str.byte data len

end

/-! ## Strings -/

/-- A string object, with the memory its data is in. -/
structure StrObj where
  nextgc : StrRef
  marked : BitVec 8
  reserved : Nat
  hash : BitVec 32
  len : Nat
  data : Nat → BitVec 8

/-- Garbage collector states. -/
inductive GCState
  | pause | propagate | atomic | sweepstring | sweep | finalize
  deriving DecidableEq

inductive StrError
  /-- The string is too long. -/
  | strov
  /-- There is not enough memory. -/
  | mem
  deriving DecidableEq

/-- The parts of `global_State` that concern strings. -/
structure StrState where
  /-- The strings that are allocated. -/
  str : StrRef → Option StrObj
  strhash : BitVec 32 → StrRef
  strmask : BitVec 32
  strnum : BitVec 32
  currentwhite : BitVec 8
  state : GCState
  sweepstr : BitVec 32

/-- What the allocator does in a call. -/
structure StrAlloc where
  /-- The address of a new string, if there is memory for it. -/
  str : Option StrRef
  /-- What the memory behind the new string holds. -/
  junk : Nat → BitVec 8
  /-- Whether there is memory for a new table. -/
  table : Bool

/-- The address of `g->strempty`; NULL is 0. -/
def strempty : StrRef := 1

/-- More than the length of any chain. -/
def bucketSteps : Nat := 2 ^ 32

namespace StrState

variable (S : StrState)

/-- The string at an address. -/
def get (s : StrRef) : StrObj :=
  -- Only allocated strings are read.
  (S.str s).getD ⟨0, 0, 0, 0, 0, fun _ => 0⟩

def set (s : StrRef) (o : StrObj) : StrState := { S with str := update S.str s (some o) }

/-- The next fields of the chains. -/
def nexts (s : StrRef) : StrRef := (S.get s).nextgc

/-- The links of the chain of a bucket. -/
def links (i : BitVec 32) : Link StrRef → StrRef := chainLinks (S.strhash i) S.nexts

def setLink (i : BitVec 32) (link : Link StrRef) (ref : StrRef) : StrState :=
  match link with
  | none => { S with strhash := update S.strhash i ref }
  | some s => S.set s { S.get s with nextgc := ref }

def otherwhite : BitVec 8 := S.currentwhite ^^^ LJ_GC_WHITES

def curwhite : BitVec 8 := S.currentwhite &&& LJ_GC_WHITES

def isdead (o : StrObj) : Bool := o.marked &&& S.otherwhite &&& LJ_GC_WHITES != 0

def makewhite (marked : BitVec 8) : BitVec 8 := (marked &&& ~~~LJ_GC_COLORS) ||| S.curwhite

/-- The allocator may put a new string at the address. -/
def isFree (s : StrRef) : Bool := s ≠ 0 ∧ s ≠ strempty ∧ (S.str s).isNone

/-! ## Resizing -/

/-- A string is put in front of its chain in the new table. -/
def reinsert (newmask : BitVec 32) (rehash : StrState × (BitVec 32 → StrRef)) (p : StrRef) :
    StrState × (BitVec 32 → StrRef) :=
  let (S, newhash) := rehash
  let h := (S.get p).hash &&& newmask
  (S.set p { S.get p with nextgc := newhash h }, update newhash h p)

/-- The strings of the chains below an index, those with the greatest index first. -/
def rehashTable (newmask : BitVec 32) :
    Nat → StrState × (BitVec 32 → StrRef) → Option (StrState × (BitVec 32 → StrRef))
  | 0, rehash => some rehash
  | i + 1, rehash =>
      match drain (fun rehash p => rehash.1.nexts p) 0 (reinsert newmask) bucketSteps
        (rehash.1.strhash (BitVec.ofNat 32 i)) rehash with
      | none => none
      | some rehash => rehashTable newmask i rehash

/-- Resize the string hash table (grow and shrink). -/
def lj_str_resize (newmask : BitVec 32) (table : Bool) : Option (Except StrError StrState) :=
  -- No resizing during GC traversal or if already too big.
  if S.state = .sweepstring ∨ newmask ≥ LJ_MAX_STRTAB - 1 then some (.ok S)
  else if !table then some (.error .mem)
  else
    -- A mask of all ones stands for no table at all.
    match rehashTable newmask (S.strmask + 1).toNat (S, fun _ => 0) with
    | none => none
    | some (S, newhash) => some (.ok { S with strmask := newmask, strhash := newhash })

/-! ## Interning -/

section

variable [Target]

/-- The string at an address is the one looked for. -/
def isString (str : CharPtr) (len : Nat) (s : StrRef) : Bool :=
  (S.get s).len = len && sameBytes str (S.get s).data len

/-- A new string in front of its chain. -/
def linkNew (str : CharPtr) (len : Nat) (junk : Nat → BitVec 8) (s : StrRef) : StrState :=
  let hash := strHash str.byte len
  let data i := if i < len then str.byte i else if i = len then 0 else junk i
  let h := hash &&& S.strmask
  let S := S.set s ⟨S.strhash h, S.curwhite, 0, hash, len, data⟩
  { S with strhash := update S.strhash h s, strnum := S.strnum + 1 }

/-- The part of `lj_str_new` that creates a new string. It has no result when the allocator
returns an address that is in use. -/
def createStr (str : CharPtr) (len : Nat) (alloc : StrAlloc) :
    Option (StrState × Except StrError StrRef) :=
  match alloc.str with
  | none => some (S, .error .mem)
  | some s =>
      if !S.isFree s then none
      else
        let T := S.linkNew str len alloc.junk s
        -- Allow a 100% load factor.
        if S.strnum > S.strmask then
          match T.lj_str_resize ((T.strmask <<< 1) + 1) alloc.table with
          | none => none
          | some (.error e) => some (T, .error e)
          | some (.ok T) => some (T, .ok s)
        else some (T, .ok s)

/-- Intern a string and return string object. It has no result when the steps of a loop do not
suffice. -/
def lj_str_new (str : CharPtr) (len : Nat) (alloc : StrAlloc) :
    Option (StrState × Except StrError StrRef) :=
  if len ≥ LJ_MAX_STR then some (S, .error .strov)
  else if len = 0 then some (S, .ok strempty)
  else
    -- Check if the string has already been interned.
    match follow (S.links (strHash str.byte len &&& S.strmask)) (· ≠ 0)
        (fun o => if S.isString str len o then some () else none) bucketSteps none with
    | none => none
    | some (.hit _ o _) =>
        -- Resurrect if dead.
        if S.isdead (S.get o) then
          some (S.set o { S.get o with marked := (S.get o).marked ^^^ LJ_GC_WHITES }, .ok o)
        else some (S, .ok o)
    | some (.ended _) => S.createStr str len alloc

end

/-! ## Collection -/

def lj_str_free (s : StrRef) : StrState :=
  { S with str := update S.str s none, strnum := S.strnum - 1 }

/-- The loop of `gc_sweep` along a chain. No string is at `g->gc.root`. -/
def sweepLoop (i : BitVec 32) : Nat → Link StrRef → StrState → StrState
  | 0, _, S => S
  | lim + 1, p, S =>
      let o := S.links i p
      if o = 0 then S
      else if ((S.get o).marked ^^^ LJ_GC_WHITES) &&& S.otherwhite ≠ 0 then
        -- Value is alive, change to the current white.
        sweepLoop i lim (some o) (S.set o { S.get o with marked := S.makewhite (S.get o).marked })
      else sweepLoop i lim p ((S.setLink i p (S.get o).nextgc).lj_str_free o)

def gc_fullsweep (i : BitVec 32) : StrState := sweepLoop i (2 ^ 32 - 1) none S

/-- `gc_onestep` in the state `GCSsweepstring`. -/
def sweepstringStep : StrState :=
  -- Sweep one chain.
  let S := S.gc_fullsweep S.sweepstr
  let S := { S with sweepstr := S.sweepstr + 1 }
  if S.sweepstr > S.strmask then { S with state := .sweep } else S

/-- The end of the state `GCSsweep` in `gc_onestep`, and whether there is userdata to finalize. -/
def sweepEnd (mmudata table : Bool) : Option (Except StrError StrState) :=
  let next (S : StrState) := { S with state := if mmudata then .finalize else .pause }
  if S.strnum ≤ S.strmask >>> 2 ∧ S.strmask > LJ_MIN_STRTAB * 2 - 1 then
    match S.lj_str_resize (S.strmask >>> 1) table with
    | none => none
    | some (.error e) => some (.error e)
    | some (.ok S) => some (.ok (next S))
  else some (.ok (next S))

/-- The end of `atomic` and the start of the sweep phase. -/
def flip : StrState :=
  { S with currentwhite := S.otherwhite, state := .sweepstring, sweepstr := 0 }

/-- `gc_mark_str`. -/
def gc_mark_str (s : StrRef) : StrState :=
  S.set s { S.get s with marked := (S.get s).marked &&& ~~~LJ_GC_WHITES }

def fixstring (s : StrRef) : StrState :=
  S.set s { S.get s with marked := (S.get s).marked ||| LJ_GC_FIXED }

end StrState

end TvmJit
