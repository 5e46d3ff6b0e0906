import Mathlib.Data.List.Pairwise
import TvmJit.Ir.Buffer
import TvmJit.Foundation.Paired
import TvmJit.Foundation.Raises

/-! The rules of the fold engine: `buildvm_fold.c` puts the `LJFOLD` lines of `lj_opt_fold.c` in a
hash table, and `lj_opt_fold` looks up the rules for an instruction in it. -/

namespace TvmJit

open Foundation Function

def IROp.number (o : IROp) : BitVec 32 := .ofNat 32 o.ctorIdx

namespace Fold

/-! ## The lines -/

/-- An operand of a rule. -/
inductive FoldToken
  /-- There is no operand any more. -/
  | none
  | any
  | ins (o : IROp)
  /-- A number, or the value of an `IRFPM_`, `IRFL_`, `IRCALL_` or `IRCONV_` name. -/
  | lit (n : BitVec 32)

/-- `LJFOLD(op left right)` -/
structure FoldDef where
  op : IROp
  left : FoldToken
  right : FoldToken

inductive FoldLine (φ : Type)
  | rule (d : FoldDef)
  /-- `LJFOLDF` and `LJFOLDX`: the function of the rules in front of it. -/
  | func (f : φ)

/-! ## Building the table -/

inductive BuildError
  | badToken
  | tooManyRules
  | duplicate
  | noHash
  deriving DecidableEq

def BUILD_MAX_FOLD : Nat := 4096

def nexttoken (allowlit : Bool) (allowany : BitVec 32) : FoldToken → Except BuildError (BitVec 32)
  | .none => .ok 0
  | .any => .ok allowany
  | .ins o => .ok o.number
  | .lit n => if allowlit then .ok n else .error .badToken

def keyOf (op left right : BitVec 32) : BitVec 32 := op <<< 17 ||| left <<< 10 ||| right

/-- The keys that are sorted already, the greatest one first. -/
def insertKey (key : BitVec 32) : List (BitVec 32) → Except BuildError (List (BitVec 32))
  | [] => .ok [key]
  | k :: foldkeys =>
      if k &&& 0xffffff < key &&& 0xffffff then .ok (key :: k :: foldkeys)
      else if k &&& 0xffffff = key &&& 0xffffff then .error .duplicate
      else (insertKey key foldkeys).map (k :: ·)

def foldrule (funcidx : BitVec 32) (d : FoldDef) (foldkeys : List (BitVec 32)) :
    Except BuildError (List (BitVec 32)) := do
  let left ← nexttoken false 0x7f d.left
  let right ← nexttoken true 0x3ff d.right
  if BUILD_MAX_FOLD ≤ foldkeys.length then throw .tooManyRules
  insertKey (funcidx <<< 24 ||| keyOf d.op.number left right) foldkeys

/-- The functions and the keys. -/
def foldlines {φ : Type} (funcidx : BitVec 32) :
    List (FoldLine φ) → List (BitVec 32) → Except BuildError (List φ × List (BitVec 32))
  | [], foldkeys => .ok ([], foldkeys)
  | .rule d :: lines, foldkeys => do foldlines funcidx lines (← foldrule funcidx d foldkeys)
  | .func f :: lines, foldkeys => do
      let rest ← foldlines (funcidx + 1) lines foldkeys
      return (f :: rest.1, rest.2)

/-- How a key is hashed. -/
structure HashParams where
  sz : Nat
  r : Nat
  dorol : Bool

def HashParams.hash (p : HashParams) (k : BitVec 32) : Nat :=
  (if p.dorol then ((k.rotateLeft (p.r / 32)) - k).rotateLeft (p.r % 32)
    else ((k <<< (p.r / 32)) - k) <<< (p.r % 32)).toNat % p.sz

def tryKey (p : HashParams) (htab : Nat → BitVec 32) (key : BitVec 32) : Option (Nat → BitVec 32) :=
  let h := p.hash (key &&& 0xffffff)
  if htab h ≠ 0xffffffff then
    if htab (h + 1) ≠ 0xffffffff then
      -- Move the colliding key to its secondary slot.
      if h < p.sz - 1 ∧ htab (h + 2) = 0xffffffff then
        if p.hash (htab (h + 1) &&& 0xffffff) ≠ h + 1 then none
        else some (update (update htab (h + 2) (htab (h + 1))) (h + 1) key)
      else none
    else some (update htab (h + 1) key)
  else some (update htab h key)

def tryhash (foldkeys : List (BitVec 32)) (p : HashParams) : Option (Nat → BitVec 32) :=
  if p.dorol ∧ (p.r % 32 = 0 ∨ p.r / 32 = 0) then none
  else foldkeys.foldlM (tryKey p) fun _ => 0xffffffff

/-- The generated table, and the parameters of `fold_hashkey`. -/
structure FoldTables (φ : Type) where
  fold_func : List φ
  fold_hash : Nat → BitVec 32
  params : HashParams

def makehash (foldkeys : List (BitVec 32)) : Option (HashParams × (Nat → BitVec 32)) :=
  let try' (p : HashParams) := (tryhash foldkeys p).map fun htab => (p, htab)
  let sizes := (List.range' (foldkeys.length ||| 1) BUILD_MAX_FOLD 2).filter (· < BUILD_MAX_FOLD * 2)
  sizes.findSome? fun sz =>
    ((List.range' 0 (32 * 32)).findSome? fun r => try' ⟨sz, r, false⟩).or
      ((List.range' 0 (32 * 32)).findSome? fun r => try' ⟨sz, r, true⟩)

def printhash {φ : Type} (fold_func : List φ) :
    Option (HashParams × (Nat → BitVec 32)) → Except BuildError (FoldTables φ)
  | none => .error .noHash
  | some found => .ok ⟨fold_func, found.2, found.1⟩

def emit_fold {φ : Type} (lines : List (FoldLine φ)) : Except BuildError (FoldTables φ) := do
  let built ← foldlines 0 lines []
  printhash built.1 (makehash built.2.reverse)

/-! ## The engine -/

/-- What a function returns. -/
inductive FoldRef
  | ref (r : IRRef)
  | next
  | retry
  | kint
  | fail
  | drop

inductive TraceError (E : Type)
  | gfail
  | func (e : E)
  /-- A limit of the IR buffer. -/
  | limit
  /-- An index behind the functions. -/
  | nofunc
  | outOfFuel

/-- The instruction to be folded is beside the buffer. -/
structure FoldState where
  J : JitState
  fins : IRIns

abbrev FoldM (E α : Type) := EStateM (TraceError E) FoldState α

abbrev FoldFunc (E : Type) := FoldM E FoldRef

/-- The optimizations that the engine looks at. -/
structure FoldFlags where
  fold : Bool
  fwd : Bool
  cse : Bool
  dse : Bool

/-- `none` for `REF_DROP`. -/
abbrev TRef := Option (IRRef × IRType1)

def irm_kind (m : BitVec 8) : BitVec 8 := m &&& IRM_S

section

variable {E : Type}

def optCse : FoldM E TRef := fun s =>
  match lj_opt_cse s.J s.fins with
  | none => .error .limit s
  | some (J, r) => .ok (some (r, (J.IR r).t)) { s with J }

def irEmit : FoldM E TRef := fun s =>
  let emitted := lj_ir_emit s.J s.fins
  .ok (some (emitted.2, s.fins.t)) { s with J := emitted.1 }

def irKint : FoldM E TRef := fun s =>
  match lj_ir_kint s.J s.fins.op12 with
  | none => .error .limit s
  | some (J, r) => .ok (some (r, IRT_INT)) { s with J }

/-- The opcode of the left operand, unless it is a literal. -/
def leftKey (s : FoldState) : BitVec 32 :=
  if s.J.nk ≤ s.fins.op1.toNat then (s.J.IR s.fins.op1.toNat).o.number else 0

def rightKey (s : FoldState) : BitVec 32 :=
  if s.J.nk ≤ s.fins.op2.toNat then (s.J.IR s.fins.op2.toNat).o.number else s.fins.op2.setWidth 32 &&& 0x3ff

def instructionKey (s : FoldState) : BitVec 32 := s.fins.o.number <<< 17 + leftKey s <<< 10 + rightKey s

def callFold (fold_func : List (FoldFunc E)) (index : Nat) : FoldM E FoldRef :=
  match fold_func[index]? with
  | none => throw .nofunc
  | some f => f

/-- The entry of the semi-perfect hash table. -/
def findFold (T : FoldTables (FoldFunc E)) (k : BitVec 32) : Option (BitVec 32) :=
  let h := T.params.hash k
  if T.fold_hash h &&& 0xffffff = k then some (T.fold_hash h)
  else if T.fold_hash (h + 1) &&& 0xffffff = k then some (T.fold_hash (h + 1))
  else none

def callFound (T : FoldTables (FoldFunc E)) (k : BitVec 32) : FoldM E FoldRef :=
  match findFold T k with
  | none => pure .next
  | some fh => callFold T.fold_func (fh >>> 24).toNat

/-- The masks for the operands: none, the left one, the right one, both. -/
def nextAny (any : BitVec 32) : BitVec 32 := (any ||| (any >>> 10)) ^^^ 0xffc00

/-- The result is `NEXTFOLD` when folding is exhausted. -/
def matchLoop (T : FoldTables (FoldFunc E)) (key : BitVec 32) : Nat → BitVec 32 → FoldM E FoldRef
  | 0, _ => throw .outOfFuel
  | fuel + 1, any => do
      match ← callFound T (key ||| (any &&& 0x1ffff)) with
      | .next => if any = 0xfffff then return .next else matchLoop T key fuel (nextAny any)
      | ref => return ref

/-- The retry point, for a way to match an instruction with the rules. -/
def foldRetry (matchRules : FoldState → FoldM E FoldRef) : Nat → FoldM E TRef
  | 0 => throw .outOfFuel
  | fuel + 1 => do
      match ← matchRules (← get) with
      | .next => optCse
      | .ref r => return some (r, ((← get).J.IR r).t)
      | .retry => foldRetry matchRules fuel
      | .kint => irKint
      | .fail => throw .gfail
      | .drop => return none

/-- The checks for optimizations that are off. -/
def foldUnless (flags : FoldFlags) (engine : FoldM E TRef) : FoldM E TRef := do
  let kind := irm_kind (lj_ir_mode (← get).fins.o)
  if ¬flags.fold ∧ kind = IRM_N then optCse
  else if ¬(flags.fold ∧ flags.fwd ∧ flags.cse) ∧ kind = IRM_L ∧ (← get).fins.o ≠ .sload then irEmit
  else if ¬(flags.fold ∧ flags.dse) ∧ kind = IRM_S then irEmit
  else engine

def lj_opt_fold (T : FoldTables (FoldFunc E)) (flags : FoldFlags) (fuel : Nat) : FoldM E TRef :=
  foldUnless flags (foldRetry (fun s => matchLoop T (instructionKey s) 4 0) fuel)

/-! ## The rules -/

/-- The functions with the rules in front of them. -/
def nextFunc {φ : Type} : List (FoldLine φ) → Option φ
  | [] => none
  | .rule _ :: lines => nextFunc lines
  | .func f :: _ => some f

/-- Whether a rule is for these opcodes, or literals, of an instruction and its operands. -/
def FoldDef.Is (d : FoldDef) (op left right : BitVec 32) : Bool :=
  d.op.number = op ∧ nexttoken false 0x7f d.left = .ok left ∧ nexttoken true 0x3ff d.right = .ok right

/-- The function of the rule, if there is a rule. -/
def ruleFor {φ : Type} (op left right : BitVec 32) : List (FoldLine φ) → Option (Option φ)
  | [] => none
  | .rule d :: lines => if d.Is op left right then some (nextFunc lines) else ruleFor op left right lines
  | .func _ :: lines => ruleFor op left right lines

def callRule (lines : List (FoldLine (FoldFunc E))) (op left right : BitVec 32) : FoldM E FoldRef :=
  match ruleFor op left right lines with
  | none => pure .next
  | some none => throw .nofunc
  | some (some f) => f

/-- The second one is only tried if the first one does not fold. -/
def orElse (first second : FoldM E FoldRef) : FoldM E FoldRef := do
  match ← first with
  | .next => second
  | ref => return ref

/-- The rules that match, from the most specific one to the least specific one. -/
def matchRules (lines : List (FoldLine (FoldFunc E))) (s : FoldState) : FoldM E FoldRef :=
  let rule := callRule lines s.fins.o.number
  orElse (rule (leftKey s) (rightKey s)) (orElse (rule 0x7f (rightKey s))
    (orElse (rule (leftKey s) 0x3ff) (rule 0x7f 0x3ff)))

end

/-! ## Keys -/

theorem number_lt (o : IROp) : o.number.toNat < 0x7f := by
  cases o <;> decide

/-- The part of a key that rules are looked up by. -/
def tag (key : BitVec 32) : BitVec 32 := key &&& 0xffffff

theorem toNat_keyOf {op left right : BitVec 32} (isOp : op.toNat < 0x80) (isLeft : left.toNat < 0x80)
    (isRight : right.toNat < 0x400) :
    (keyOf op left right).toNat = op.toNat * 2 ^ 17 + left.toNat * 2 ^ 10 + right.toNat := by
  have low : (left <<< 10 ||| right).toNat = left.toNat * 2 ^ 10 + right.toNat := by
    rw [BitVec.toNat_or, BitVec.toNat_shiftLeft, Nat.shiftLeft_eq, Nat.mod_eq_of_lt (by omega), ← Nat.shiftLeft_eq,
      ← Nat.shiftLeft_add_eq_or_of_lt isRight, Nat.shiftLeft_eq]
  rw [keyOf, BitVec.or_assoc, BitVec.toNat_or, low, BitVec.toNat_shiftLeft, Nat.shiftLeft_eq,
    Nat.mod_eq_of_lt (by omega), ← Nat.shiftLeft_eq, ← Nat.shiftLeft_add_eq_or_of_lt (by omega), Nat.shiftLeft_eq]
  omega

theorem toNat_fullKey {funcidx key : BitVec 32} (isKey : key.toNat < 2 ^ 24) :
    (funcidx <<< 24 ||| key).toNat = funcidx.toNat % 256 * 2 ^ 24 + key.toNat := by
  have high : (funcidx <<< 24).toNat = (funcidx.toNat % 256) <<< 24 := by
    rw [BitVec.toNat_shiftLeft, Nat.shiftLeft_eq, Nat.shiftLeft_eq]
    omega
  rw [BitVec.toNat_or, high, ← Nat.shiftLeft_add_eq_or_of_lt isKey, Nat.shiftLeft_eq]

theorem toNat_tag (key : BitVec 32) : (tag key).toNat = key.toNat % 2 ^ 24 := by
  rw [tag, BitVec.toNat_and]
  exact Nat.and_two_pow_sub_one_eq_mod key.toNat 24

/-- A field that is full takes what is in it. -/
theorem or_full {x m : BitVec 32} (inside : x &&& m = x) : x ||| m = m := by
  have absorbed : x &&& m ||| m = m := by
    apply BitVec.eq_of_getLsbD_eq
    intro i _
    rw [BitVec.getLsbD_or, BitVec.getLsbD_and]
    cases x.getLsbD i <;> cases m.getLsbD i <;> rfl
  rwa [inside] at absorbed

theorem and_left {x : BitVec 32} (small : x.toNat < 0x80) : x &&& 0x7f = x := by
  apply BitVec.eq_of_toNat_eq
  rw [BitVec.toNat_and]
  exact Nat.and_two_pow_sub_one_of_lt_two_pow (n := 7) small

theorem and_right {x : BitVec 32} (small : x.toNat < 0x400) : x &&& 0x3ff = x := by
  apply BitVec.eq_of_toNat_eq
  rw [BitVec.toNat_and]
  exact Nat.and_two_pow_sub_one_of_lt_two_pow (n := 10) small

theorem keyOf_anyLeft {op left right : BitVec 32} (isLeft : left.toNat < 0x80) :
    keyOf op left right ||| 0x1fc00 = keyOf op 0x7f right := by
  have isAny : (0x1fc00 : BitVec 32) = (0x7f : BitVec 32) <<< 10 := rfl
  have full : left <<< 10 ||| (0x7f : BitVec 32) <<< 10 = (0x7f : BitVec 32) <<< 10 := by
    rw [← BitVec.shiftLeft_or_distrib, or_full (and_left isLeft)]
  rw [keyOf, keyOf, isAny, BitVec.or_assoc, BitVec.or_assoc, BitVec.or_comm right, ← BitVec.or_assoc (left <<< 10),
    full, ← BitVec.or_assoc]

theorem keyOf_anyRight {op left right : BitVec 32} (isRight : right.toNat < 0x400) :
    keyOf op left right ||| 0x3ff = keyOf op left 0x3ff := by
  rw [keyOf, keyOf, BitVec.or_assoc _ right, or_full (and_right isRight)]

theorem leftKey_lt (s : FoldState) : (leftKey s).toNat < 0x7f := by
  rw [leftKey]
  split
  · exact number_lt _
  · decide

theorem rightKey_lt (s : FoldState) : (rightKey s).toNat < 0x400 := by
  rw [rightKey]
  split
  · exact (number_lt _).trans (by decide)
  · rw [BitVec.toNat_and]
    exact Nat.and_lt_two_pow _ (by decide : 0x3ff < 2 ^ 10)

/-- The fields do not overlap, so that they may be added. -/
theorem instructionKey_eq (s : FoldState) : instructionKey s = keyOf s.fins.o.number (leftKey s) (rightKey s) := by
  have isOp := number_lt s.fins.o
  have isLeft := leftKey_lt s
  have isRight := rightKey_lt s
  apply BitVec.eq_of_toNat_eq
  rw [toNat_keyOf (by omega) (by omega) isRight, instructionKey, BitVec.toNat_add, BitVec.toNat_add,
    BitVec.toNat_shiftLeft, BitVec.toNat_shiftLeft, Nat.shiftLeft_eq, Nat.shiftLeft_eq]
  omega

/-! ## The engine -/

section

variable {E : Type}

theorem orElse_next (m : FoldM E FoldRef) : orElse m (pure .next) = m := by
  funext s
  cases run : m s with
  | ok r s' =>
      rw [orElse, bind_of_ok run]
      cases r <;> rfl
  | error e s' => exact bind_of_error run

theorem matchLoop_step (T : FoldTables (FoldFunc E)) (key : BitVec 32) (fuel : Nat) (any : BitVec 32) :
    matchLoop T key (fuel + 1) any = orElse (callFound T (key ||| (any &&& 0x1ffff)))
      (if any = 0xfffff then pure .next else matchLoop T key fuel (nextAny any)) := by
  rw [matchLoop]
  rfl

/-- The loop goes through the masks for the operands in this order. -/
theorem matchLoop_eq (T : FoldTables (FoldFunc E)) (key : BitVec 32) :
    matchLoop T key 4 0 = orElse (callFound T key) (orElse (callFound T (key ||| 0x1fc00))
      (orElse (callFound T (key ||| 0x3ff)) (callFound T (key ||| 0x1ffff)))) := by
  have none : key ||| (0 &&& 0x1ffff) = key := by simp
  have left : nextAny 0 = 0xffc00 := rfl
  have right : nextAny 0xffc00 = 0x3ff := rfl
  have both : nextAny 0x3ff = 0xfffff := rfl
  rw [matchLoop_step, none, if_neg (by decide), left, matchLoop_step, if_neg (by decide), right, matchLoop_step,
    if_neg (by decide), both, matchLoop_step, if_pos rfl, orElse_next]
  rfl

end

/-! ## The table -/

/-- The keys of a table, in which all bits are set where there is none. -/
def contents (htab : Nat → BitVec 32) (i : Nat) : Option (BitVec 32) :=
  if htab i = 0xffffffff then none else some (htab i)

theorem contents_free {htab : Nat → BitVec 32} {i : Nat} (free : htab i = 0xffffffff) : contents htab i = none :=
  if_pos free

theorem contents_used {htab : Nat → BitVec 32} {i : Nat} (used : htab i ≠ 0xffffffff) :
    contents htab i = some (htab i) :=
  if_neg used

theorem contents_update {htab : Nat → BitVec 32} {key : BitVec 32} (isKey : key ≠ 0xffffffff) (i : Nat) :
    contents (update htab i key) = update (contents htab) i (some key) := by
  funext j
  by_cases same : j = i
  · rw [same, update_self, contents, update_self]
    exact if_neg isKey
  · simp [contents, same]

/-- Where a key belongs. -/
def HashParams.home (p : HashParams) (key : BitVec 32) : Nat := p.hash (tag key)

theorem tryKey_paired {p : HashParams} {htab htab' : Nat → BitVec 32} {key : BitVec 32} {keys : List (BitVec 32)}
    (paired : Paired p.home keys (contents htab)) (isKey : key ≠ 0xffffffff) (put : tryKey p htab key = some htab') :
    Paired p.home (key :: keys) (contents htab') := by
  rw [tryKey] at put
  split at put
  · next first =>
      split at put
      · next second =>
          split at put
          · next room =>
              split at put
              · cases put
              · next atHome =>
                  cases put
                  rw [contents_update isKey, contents_update second]
                  exact paired.move (contents_used second) (not_not.mp atHome) (contents_free room.2) rfl
          · cases put
      · next free =>
          cases put
          rw [contents_update isKey]
          exact paired.put (contents_free (not_not.mp free)) (.inr rfl)
  · next free =>
      cases put
      rw [contents_update isKey]
      exact paired.put (contents_free (not_not.mp free)) (.inl rfl)

theorem tryKeys_paired {p : HashParams} {htab htab' : Nat → BitVec 32} {foldkeys keys : List (BitVec 32)}
    (paired : Paired p.home keys (contents htab)) (areKeys : ∀ key ∈ foldkeys, key ≠ 0xffffffff)
    (put : foldkeys.foldlM (tryKey p) htab = some htab') :
    Paired p.home (foldkeys.reverse ++ keys) (contents htab') := by
  induction foldkeys generalizing htab keys with
  | nil =>
      cases put
      exact paired
  | cons key foldkeys induction =>
      rw [List.foldlM_cons, Option.bind_eq_bind, Option.bind_eq_some_iff] at put
      obtain ⟨htab₁, first, rest⟩ := put
      have isKey := areKeys key List.mem_cons_self
      have paired₁ := tryKey_paired paired isKey first
      rw [List.reverse_cons, List.append_assoc]
      exact induction paired₁ (fun k member => areKeys k (List.mem_cons_of_mem key member)) rest

theorem tryhash_paired {p : HashParams} {htab : Nat → BitVec 32} {foldkeys : List (BitVec 32)}
    (areKeys : ∀ key ∈ foldkeys, key ≠ 0xffffffff) (found : tryhash foldkeys p = some htab) :
    Paired p.home foldkeys.reverse (contents htab) := by
  rw [tryhash] at found
  split at found
  · cases found
  · have start : contents (fun _ => 0xffffffff) = fun _ => none := rfl
    have all := tryKeys_paired (start ▸ Paired.empty p.home) areKeys found
    rwa [List.append_nil] at all

/-- Whatever table is found, it is one that `tryhash` has filled. -/
theorem makehash_found {foldkeys : List (BitVec 32)} {found : HashParams × (Nat → BitVec 32)}
    (made : makehash foldkeys = some found) : tryhash foldkeys found.1 = some found.2 := by
  have of_map {p : HashParams} (same : (tryhash foldkeys p).map (fun htab => (p, htab)) = some found) :
      tryhash foldkeys found.1 = some found.2 := by
    obtain ⟨htab, isTable, rfl⟩ := Option.map_eq_some_iff.mp same
    exact isTable
  obtain ⟨sz, -, some⟩ := List.exists_of_findSome?_eq_some made
  rcases Option.or_eq_some_iff.mp some with shifts | ⟨-, rotates⟩
  · obtain ⟨r, -, same⟩ := List.exists_of_findSome?_eq_some shifts
    exact of_map same
  · obtain ⟨r, -, same⟩ := List.exists_of_findSome?_eq_some rotates
    exact of_map same

/-! ## The keys of the lines -/

/-- No two keys are looked up by the same part. -/
def Descending (foldkeys : List (BitVec 32)) : Prop := foldkeys.Pairwise fun k k' => tag k' < tag k

theorem insertKey_spec {key : BitVec 32} {foldkeys foldkeys' : List (BitVec 32)} (descending : Descending foldkeys)
    (inserted : insertKey key foldkeys = .ok foldkeys') :
    Descending foldkeys' ∧ ∀ k, k ∈ foldkeys' ↔ k = key ∨ k ∈ foldkeys := by
  induction foldkeys generalizing foldkeys' with
  | nil =>
      cases inserted
      exact ⟨List.pairwise_singleton _ _, fun k => List.mem_cons⟩
  | cons k₀ foldkeys induction =>
      have parts := List.pairwise_cons.mp descending
      rw [insertKey] at inserted
      split at inserted
      · next above =>
          cases inserted
          refine ⟨List.pairwise_cons.mpr ⟨fun k member => ?_, descending⟩, fun k => List.mem_cons⟩
          rcases List.mem_cons.mp member with rfl | behind
          · exact above
          · exact BitVec.lt_trans (parts.1 k behind) above
      · next notAbove =>
          split at inserted
          · cases inserted
          · next different =>
              cases rest : insertKey key foldkeys with
              | error e =>
                  rw [rest] at inserted
                  cases inserted
              | ok foldkeys₁ =>
                  rw [rest] at inserted
                  cases inserted
                  have spec := induction parts.2 rest
                  refine ⟨List.pairwise_cons.mpr ⟨fun k member => ?_, spec.1⟩, fun k => ?_⟩
                  · rcases (spec.2 k).mp member with rfl | behind
                    · rw [tag, tag]
                      bv_omega
                    · exact parts.1 k behind
                  · rw [List.mem_cons, List.mem_cons, spec.2]
                    exact or_left_comm

theorem descending_inj {foldkeys : List (BitVec 32)} {k k' : BitVec 32} (descending : Descending foldkeys)
    (member : k ∈ foldkeys) (member' : k' ∈ foldkeys) (same : tag k = tag k') : k = k' := by
  by_contra other
  have different : foldkeys.Pairwise fun k k' => tag k ≠ tag k' :=
    descending.imp fun less => (BitVec.ne_of_lt less).symm
  have symm : Std.Symm fun k k' => tag k ≠ tag k' := ⟨fun _ _ => Ne.symm⟩
  exact different.forall member member' other same

theorem insertKey_rule {funcidx : BitVec 32} {d : FoldDef} {foldkeys foldkeys' : List (BitVec 32)}
    (added : foldrule funcidx d foldkeys = .ok foldkeys') :
    ∃ left right, nexttoken false 0x7f d.left = .ok left ∧ nexttoken true 0x3ff d.right = .ok right ∧
      insertKey (funcidx <<< 24 ||| keyOf d.op.number left right) foldkeys = .ok foldkeys' := by
  rw [foldrule] at added
  cases isLeft : nexttoken false 0x7f d.left with
  | error e =>
      rw [isLeft] at added
      cases added
  | ok left =>
      cases isRight : nexttoken true 0x3ff d.right with
      | error e =>
          rw [isLeft, isRight] at added
          cases added
      | ok right =>
          refine ⟨left, right, rfl, rfl, ?_⟩
          rw [isLeft, isRight] at added
          by_cases full : BUILD_MAX_FOLD ≤ foldkeys.length
          · simp [full, bind, Except.bind, throw, throwThe, MonadExceptOf.throw] at added
          · simpa [full, bind, Except.bind, pure, Except.pure] using added

/-- The literals fit in the field for the right operand. -/
def Literals {φ : Type} (lines : List (FoldLine φ)) : Prop :=
  ∀ d n, .rule d ∈ lines → d.right = .lit n → n.toNat < 0x400

theorem nexttoken_left {t : FoldToken} {v : BitVec 32} (isToken : nexttoken false 0x7f t = .ok v) :
    v.toNat < 0x80 := by
  cases t with
  | none | any =>
      cases isToken
      decide
  | ins o =>
      cases isToken
      exact (number_lt o).trans (by decide)
  | lit n => cases isToken

theorem nexttoken_right {t : FoldToken} {v : BitVec 32} (literal : ∀ n, t = .lit n → n.toNat < 0x400)
    (isToken : nexttoken true 0x3ff t = .ok v) : v.toNat < 0x400 := by
  cases t with
  | none | any =>
      cases isToken
      decide
  | ins o =>
      cases isToken
      exact (number_lt o).trans (by decide)
  | lit n =>
      cases isToken
      exact literal _ rfl

/-- An opcode is never `0x7f`, so that what is looked up is no empty entry. -/
def Proper (key : BitVec 32) : Prop := (tag key).toNat < 0x7f * 2 ^ 17

theorem Proper.ne_empty {key : BitVec 32} (proper : Proper key) : key ≠ 0xffffffff := by
  rintro rfl
  have small : (tag 0xffffffff).toNat < 0x7f * 2 ^ 17 := proper
  exact absurd small (by decide)

section

variable {op left right : BitVec 32} {n : Nat}

theorem toNat_ruleKey (isOp : op.toNat < 0x80) (isLeft : left.toNat < 0x80) (isRight : right.toNat < 0x400)
    (few : n < 256) : (BitVec.ofNat 32 n <<< 24 ||| keyOf op left right).toNat =
      n * 2 ^ 24 + (op.toNat * 2 ^ 17 + left.toNat * 2 ^ 10 + right.toNat) := by
  have isKey := toNat_keyOf isOp isLeft isRight
  rw [toNat_fullKey (by omega), isKey, BitVec.toNat_ofNat]
  omega

theorem tag_ruleKey (isOp : op.toNat < 0x80) (isLeft : left.toNat < 0x80) (isRight : right.toNat < 0x400)
    (few : n < 256) : tag (BitVec.ofNat 32 n <<< 24 ||| keyOf op left right) = keyOf op left right := by
  apply BitVec.eq_of_toNat_eq
  rw [toNat_tag, toNat_ruleKey isOp isLeft isRight few, toNat_keyOf isOp isLeft isRight]
  omega

theorem index_ruleKey (isOp : op.toNat < 0x80) (isLeft : left.toNat < 0x80) (isRight : right.toNat < 0x400)
    (few : n < 256) : ((BitVec.ofNat 32 n <<< 24 ||| keyOf op left right) >>> 24).toNat = n := by
  rw [BitVec.toNat_ushiftRight, toNat_ruleKey isOp isLeft isRight few, Nat.shiftRight_eq_div_pow]
  omega

theorem keyOf_inj {op' left' right' : BitVec 32} (isOp : op.toNat < 0x80) (isLeft : left.toNat < 0x80)
    (isRight : right.toNat < 0x400) (isOp' : op'.toNat < 0x80) (isLeft' : left'.toNat < 0x80)
    (isRight' : right'.toNat < 0x400) (same : keyOf op left right = keyOf op' left' right') :
    op = op' ∧ left = left' ∧ right = right' := by
  have numbers := congrArg BitVec.toNat same
  rw [toNat_keyOf isOp isLeft isRight, toNat_keyOf isOp' isLeft' isRight'] at numbers
  refine ⟨BitVec.eq_of_toNat_eq ?_, BitVec.eq_of_toNat_eq ?_, BitVec.eq_of_toNat_eq ?_⟩ <;> omega

end

section

variable {φ : Type} {lines : List (FoldLine φ)} {n : Nat} {acc : List (BitVec 32)}
  {built : List φ × List (BitVec 32)} {funcidx : BitVec 32}

theorem foldlines_rule {d : FoldDef} (done : foldlines funcidx (.rule d :: lines) acc = .ok built) :
    ∃ acc', foldrule funcidx d acc = .ok acc' ∧ foldlines funcidx lines acc' = .ok built := by
  rw [foldlines] at done
  cases added : foldrule funcidx d acc with
  | error e =>
      rw [added] at done
      cases done
  | ok acc' =>
      rw [added] at done
      exact ⟨acc', rfl, done⟩

theorem foldlines_func {f : φ} (done : foldlines funcidx (.func f :: lines) acc = .ok built) :
    ∃ rest, foldlines (funcidx + 1) lines acc = .ok rest ∧ built = (f :: rest.1, rest.2) := by
  rw [foldlines] at done
  cases added : foldlines (funcidx + 1) lines acc with
  | error e =>
      rw [added] at done
      cases done
  | ok rest =>
      rw [added] at done
      cases done
      exact ⟨rest, rfl, rfl⟩

theorem foldlines_nextFunc (done : foldlines funcidx lines acc = .ok built) : nextFunc lines = built.1[0]? := by
  induction lines generalizing funcidx acc built with
  | nil =>
      cases done
      rfl
  | cons line lines induction =>
      cases line with
      | rule d =>
          obtain ⟨acc', -, rest⟩ := foldlines_rule done
          exact induction rest
      | func f =>
          obtain ⟨rest, -, rfl⟩ := foldlines_func done
          rfl

/-- Keys are added, and no two of them are looked up by the same part. -/
theorem foldlines_keys (literals : Literals lines) (done : foldlines (.ofNat 32 n) lines acc = .ok built)
    (few : n + built.1.length < 256) (descending : Descending acc) (proper : ∀ k ∈ acc, Proper k) :
    Descending built.2 ∧ (∀ k ∈ acc, k ∈ built.2) ∧ ∀ k ∈ built.2, Proper k := by
  induction lines generalizing n acc built with
  | nil =>
      cases done
      exact ⟨descending, fun k member => member, proper⟩
  | cons line lines induction =>
      have literals' : Literals lines := fun d m member => literals d m (List.mem_cons_of_mem line member)
      cases line with
      | rule d =>
          obtain ⟨acc', added, rest⟩ := foldlines_rule done
          obtain ⟨left, right, isLeft, isRight, inserted⟩ := insertKey_rule added
          have spec := insertKey_spec descending inserted
          have opLt := number_lt d.op
          have leftLt := nexttoken_left isLeft
          have rightLt := nexttoken_right (fun m => literals d m List.mem_cons_self) isRight
          have proper' : ∀ k ∈ acc', Proper k := by
            intro k member
            rcases (spec.2 k).mp member with rfl | before
            · rw [Proper, tag_ruleKey (by omega) leftLt rightLt (by omega), toNat_keyOf (by omega) leftLt rightLt]
              omega
            · exact proper k before
          have result := induction literals' rest few spec.1 proper'
          exact ⟨result.1, fun k member => result.2.1 k ((spec.2 k).mpr (.inr member)), result.2.2⟩
      | func f =>
          obtain ⟨rest, done', rfl⟩ := foldlines_func done
          have next : BitVec.ofNat 32 n + 1 = BitVec.ofNat 32 (n + 1) := by simp [BitVec.ofNat_add]
          rw [next] at done'
          rw [List.length_cons] at few
          have few' : n + 1 + rest.1.length < 256 := by omega
          have result := induction literals' done' few' descending proper
          exact result

/-- The key of a rule leads to the function behind it, and there are no keys without a rule. -/
theorem foldlines_rules {op left right : BitVec 32} (literals : Literals lines)
    (done : foldlines (.ofNat 32 n) lines acc = .ok built) (few : n + built.1.length < 256)
    (descending : Descending acc) (proper : ∀ k ∈ acc, Proper k) (isOp : op.toNat < 0x80)
    (isLeft : left.toNat < 0x80) (isRight : right.toNat < 0x400) :
    (∀ f, ruleFor op left right lines = some f → ∃ k ∈ built.2, tag k = keyOf op left right ∧
      ∃ j, (k >>> 24).toNat = n + j ∧ built.1[j]? = f) ∧
    (ruleFor op left right lines = none → ∀ k ∈ built.2, tag k = keyOf op left right → k ∈ acc) := by
  induction lines generalizing n acc built with
  | nil =>
      cases done
      constructor
      · intro f impossible
        cases impossible
      · intro _ k member _
        exact member
  | cons line lines induction =>
      have literals' : Literals lines := fun d m member => literals d m (List.mem_cons_of_mem line member)
      cases line with
      | rule d =>
          obtain ⟨acc', added, rest⟩ := foldlines_rule done
          obtain ⟨left', right', isLeft', isRight', inserted⟩ := insertKey_rule added
          have spec := insertKey_spec descending inserted
          have opLt := number_lt d.op
          have leftLt := nexttoken_left isLeft'
          have rightLt := nexttoken_right (fun m => literals d m List.mem_cons_self) isRight'
          have isTag : tag (BitVec.ofNat 32 n <<< 24 ||| keyOf d.op.number left' right') =
              keyOf d.op.number left' right' := tag_ruleKey (by omega) leftLt rightLt (by omega)
          have proper' : ∀ k ∈ acc', Proper k := by
            intro k member
            rcases (spec.2 k).mp member with rfl | before
            · rw [Proper, isTag, toNat_keyOf (by omega) leftLt rightLt]
              omega
            · exact proper k before
          have result := induction literals' rest few spec.1 proper'
          rw [ruleFor]
          by_cases isRule : d.Is op left right = true
          · rw [if_pos isRule]
            have parts : d.op.number = op ∧ nexttoken false 0x7f d.left = .ok left ∧
                nexttoken true 0x3ff d.right = .ok right := of_decide_eq_true isRule
            have sameLeft : left' = left := Except.ok.inj (isLeft'.symm.trans parts.2.1)
            have sameRight : right' = right := Except.ok.inj (isRight'.symm.trans parts.2.2)
            rw [parts.1, sameLeft, sameRight] at isTag spec
            constructor
            · intro f isFunc
              have kept := (foldlines_keys literals' rest few spec.1 proper').2.1
              refine ⟨_, kept _ ((spec.2 _).mpr (.inl rfl)), isTag, 0, ?_, ?_⟩
              · exact index_ruleKey isOp isLeft isRight (by omega)
              · rw [← foldlines_nextFunc rest]
                exact Option.some.inj isFunc
            · intro impossible
              cases impossible
          · rw [if_neg isRule]
            refine ⟨result.1, fun isNone k member same => ?_⟩
            rcases (spec.2 k).mp (result.2 isNone k member same) with rfl | before
            · have parts := keyOf_inj (by omega) leftLt rightLt isOp isLeft isRight (isTag.symm.trans same)
              rw [parts.2.1] at isLeft'
              rw [parts.2.2] at isRight'
              exact absurd (decide_eq_true ⟨parts.1, isLeft', isRight'⟩) isRule
            · exact before
      | func f =>
          obtain ⟨rest, done', rfl⟩ := foldlines_func done
          have next : BitVec.ofNat 32 n + 1 = BitVec.ofNat 32 (n + 1) := by simp [BitVec.ofNat_add]
          rw [next] at done'
          rw [List.length_cons] at few
          have result := induction literals' done' (by omega) descending proper
          refine ⟨fun g isFunc => ?_, result.2⟩
          obtain ⟨k, member, isTag, j, index, func⟩ := result.1 g isFunc
          exact ⟨k, member, isTag, j + 1, by omega, func⟩

end

/-! ## The rules that are found -/

section

variable {E : Type} {T : FoldTables (FoldFunc E)} {lines : List (FoldLine (FoldFunc E))} {op left right : BitVec 32}

theorem emit_fold_built (made : emit_fold lines = .ok T) : ∃ keys, foldlines 0 lines [] = .ok (T.fold_func, keys) ∧
    tryhash keys.reverse T.params = some T.fold_hash := by
  rw [emit_fold] at made
  cases done : foldlines 0 lines [] with
  | error e =>
      rw [done] at made
      cases made
  | ok built =>
      rw [done] at made
      change printhash built.1 (makehash built.2.reverse) = .ok T at made
      cases hashed : makehash built.2.reverse with
      | none =>
          rw [hashed] at made
          cases made
      | some found =>
          rw [hashed] at made
          cases made
          exact ⟨built.2, rfl, makehash_found hashed⟩

theorem contents_tag {htab : Nat → BitVec 32} {i : Nat} {t : BitVec 32} (small : t.toNat < 0x7f * 2 ^ 17)
    (same : tag (htab i) = t) : contents htab i = some (htab i) := by
  apply contents_used
  intro free
  rw [free] at same
  rw [← same] at small
  exact absurd small (by decide)

theorem contents_some {htab : Nat → BitVec 32} {i : Nat} {k : BitVec 32} (same : contents htab i = some k) :
    htab i = k := by
  rw [contents] at same
  split at same
  · cases same
  · exact Option.some.inj same

theorem findFold_eq (k : BitVec 32) : findFold T k =
    if tag (T.fold_hash (T.params.hash k)) = k then some (T.fold_hash (T.params.hash k))
    else if tag (T.fold_hash (T.params.hash k + 1)) = k then some (T.fold_hash (T.params.hash k + 1)) else none :=
  rfl

/-- The table has the function of the rule with these opcodes, if there is one. -/
theorem callFound_rule (made : emit_fold lines = .ok T) (literals : Literals lines) (few : T.fold_func.length < 256)
    (isOp : op.toNat < 0x7f) (isLeft : left.toNat < 0x80) (isRight : right.toNat < 0x400) :
    callFound T (keyOf op left right) = callRule lines op left right := by
  obtain ⟨keys, done, hashed⟩ := emit_fold_built made
  have few' : 0 + T.fold_func.length < 256 := by omega
  have isOp' : op.toNat < 0x80 := by omega
  have none (k : BitVec 32) (member : k ∈ []) : Proper k := by cases member
  have spec := foldlines_keys (n := 0) literals done few' List.Pairwise.nil none
  have rules := foldlines_rules (n := 0) literals done few' List.Pairwise.nil none isOp' isLeft isRight
  have areKeys : ∀ key ∈ keys.reverse, key ≠ 0xffffffff := fun key member =>
    (spec.2.2 key (List.mem_reverse.mp member)).ne_empty
  have paired := tryhash_paired areKeys hashed
  rw [List.reverse_reverse] at paired
  have small : (keyOf op left right).toNat < 0x7f * 2 ^ 17 := by
    rw [toNat_keyOf (by omega) isLeft isRight]
    omega
  have isMember (i : Nat) (same : tag (T.fold_hash i) = keyOf op left right) : T.fold_hash i ∈ keys :=
    paired.member i _ (contents_tag small same)
  rw [callFound, callRule]
  cases isRule : ruleFor op left right lines with
  | none =>
      have absent (i : Nat) : tag (T.fold_hash i) ≠ keyOf op left right := by
        intro same
        have isKey := rules.2 isRule _ (isMember i same) same
        cases isKey
      have isNone : findFold T (keyOf op left right) = Option.none := by
        rw [findFold_eq, if_neg (absent _), if_neg (absent _)]
      rw [isNone]
  | some f =>
      obtain ⟨k, member, isTag, j, index, func⟩ := rules.1 f isRule
      have apart : ∀ k' ∈ keys, tag k' = tag k → k' = k := fun k' member' same =>
        descending_inj spec.1 member' member same
      have isHome : T.params.home k = T.params.hash (keyOf op left right) := by
        rw [HashParams.home, isTag]
      have found : findFold T (keyOf op left right) = some k := by
        rw [findFold_eq]
        rcases paired.lookup member apart isHome with first | second
        · have isKey := contents_some first
          rw [isKey, if_pos isTag]
        · have isKey := contents_some second.2
          have other : tag (T.fold_hash (T.params.hash (keyOf op left right))) ≠ keyOf op left right := by
            intro same
            exact second.1 _ (contents_tag small same) (same.trans isTag.symm)
          rw [if_neg other, isKey, if_pos isTag]
      rw [found]
      change callFold T.fold_func (k >>> 24).toNat = _
      rw [callFold, index, Nat.zero_add, func]
      cases f <;> rfl

theorem matchLoop_rules (made : emit_fold lines = .ok T) (literals : Literals lines) (few : T.fold_func.length < 256)
    (s : FoldState) : matchLoop T (instructionKey s) 4 0 = matchRules lines s := by
  have isOp := number_lt s.fins.o
  have isLeft : (leftKey s).toNat < 0x80 := (leftKey_lt s).trans (by decide)
  have isRight := rightKey_lt s
  have any : (0x7f : BitVec 32).toNat < 0x80 := by decide
  have any' : (0x3ff : BitVec 32).toNat < 0x400 := by decide
  have both : (0x1ffff : BitVec 32) = 0x1fc00 ||| 0x3ff := rfl
  rw [matchLoop_eq, instructionKey_eq, both, ← BitVec.or_assoc, keyOf_anyLeft isLeft, keyOf_anyRight isRight,
    keyOf_anyRight isRight, callFound_rule made literals few isOp isLeft isRight,
    callFound_rule made literals few isOp any isRight, callFound_rule made literals few isOp isLeft any',
    callFound_rule made literals few isOp any any']
  rfl

/-- The fold engine folds an instruction by the rules of the file that the table has been generated
from, whichever hash has been found for it: the most specific rules first, and each one only if the
rules before it do not fold. -/
theorem lj_opt_fold_rules (lines : List (FoldLine (FoldFunc E))) (T : FoldTables (FoldFunc E)) (flags : FoldFlags)
    (fuel : Nat) (made : emit_fold lines = .ok T) (literals : Literals lines) (few : T.fold_func.length < 256) :
    lj_opt_fold T flags fuel = foldUnless flags (foldRetry (matchRules lines) fuel) := by
  have same : (fun s => matchLoop T (instructionKey s) 4 0) = matchRules lines :=
    funext (matchLoop_rules made literals few)
  rw [lj_opt_fold, same]

end

def keepRule : FoldFunc Empty := fun s => .ok .next s
def kintRule : FoldFunc Empty := fun s => .ok .kint s

/-- Sums whose right operand is a constant, and other ones. -/
def sumLines : List (FoldLine (FoldFunc Empty)) :=
  [.rule ⟨.add, .any, .ins .kint⟩, .func keepRule, .rule ⟨.add, .any, .any⟩, .func kintRule]

/-- Both keys have the same home. -/
def sumTables : FoldTables (FoldFunc Empty) where
  fold_func := [keepRule, kintRule]
  fold_hash := update (update (fun _ => 0xffffffff) 0 0x0053fc17) 1 0x0153ffff
  params := ⟨3, 0, false⟩

theorem lj_opt_fold_rules_sums : lj_opt_fold sumTables ⟨true, true, true, true⟩ 1 =
    foldUnless ⟨true, true, true, true⟩ (foldRetry (matchRules sumLines) 1) := by
  have literals : Literals sumLines := by
    intro d n member isLiteral
    simp only [sumLines, List.mem_cons, List.not_mem_nil, or_false, reduceCtorEq, false_or, FoldLine.rule.injEq] at member
    rcases member with rfl | rfl
    · cases isLiteral
    · cases isLiteral
  exact lj_opt_fold_rules sumLines sumTables ⟨true, true, true, true⟩ 1 rfl literals (by decide)

end Fold

end TvmJit
