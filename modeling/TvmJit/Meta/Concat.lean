import TvmJit.Tab.Table
import TvmJit.Fmt.Format
import TvmJit.Foundation.Raises

/-! `lj_meta_cat` of `lj_meta.c`, and the instruction that resumes it. -/

namespace TvmJit.Meta

open Foundation Function Tab Fmt

def STRFMT_NUM : SFormat := 5
def STRFMT_T_FP_G : SFormat := 0x0030
def STRFMT_G : SFormat := STRFMT_NUM ||| STRFMT_T_FP_G
def STRFMT_G14 : SFormat := STRFMT_G ||| (14 + 1) <<< STRFMT_SH_PREC
def STRFMT_MAXBUF_NUM : Nat := 32
def LJ_MAX_STR : Nat := 0x7fffff00

/-! ## The stack -/

/-- What a build fixes: whether a frame has two slots, how `lj_cont_cat` stands in a slot, and
`lj_strfmt_putfnum`. -/
structure Build where
  fr2 : Bool
  contCat : Tab.TValue
  putfnum : SFormat → Num → GCstr

/-- `lj_meta_lookup` of `__concat`, and what a call of its result does. A call may leave any values
in the slots of its frame. -/
structure Metamethods (W E : Type) where
  lookup : Tab.TValue → W → Tab.TValue
  call : Tab.TValue → Tab.TValue → Tab.TValue → W → Except E Tab.TValue × W
  frame : W → Nat → Tab.TValue

inductive CatError (E : Type)
  /-- `lj_err_optype` with the slot that it names, and the value there. -/
  | opcat (slot : Nat) (o : Tab.TValue)
  | strov
  | call (e : E)
  | outOfFuel

structure CatState (W : Type) where
  stack : Nat → Tab.TValue
  world : W

abbrev CatM (W E : Type) := EStateM (CatError E) (CatState W)

def isStrNum : Tab.TValue → Bool
  | .str _ => true
  | .num _ => true
  | _ => false

/-- What a value adds to the length of the buffer. -/
def bufLen : Tab.TValue → Nat
  | .str s => s.length
  | _ => STRFMT_MAXBUF_NUM

section

variable (build : Build) {W E : Type} (mm : Metamethods W E)

/-- What is put in the buffer. -/
def catText : Tab.TValue → GCstr
  | .str s => s
  | .num n => build.putfnum STRFMT_G14 n
  | _ => []

/-- The inner loop goes down from `o`, and counts the length. -/
def pickStrings (stack : Nat → Tab.TValue) : Nat → Nat → Nat → Nat × Nat × Nat
  | o, 0, tlen => (o, 0, tlen)
  | o, left + 1, tlen =>
      let tlen := tlen + bufLen (stack (o - 1))
      if 0 < left ∧ isStrNum (stack (o - 2)) then pickStrings stack (o - 1) left tlen
      else (o - 1, left, tlen)

def operands (stack : Nat → Tab.TValue) (slot n : Nat) : List Tab.TValue := (List.range' slot n).map stack

/-- The handler of the left operand comes first. -/
def handler (o1 o2 : Tab.TValue) (w : W) : Tab.TValue :=
  if mm.lookup o1 w = .nil then mm.lookup o2 w else mm.lookup o1 w

/-- The stack copies that set up the frame of the metamethod. -/
def setupFrame (top : Nat) (mo : Tab.TValue) (stack : Nat → Tab.TValue) : Nat → Tab.TValue :=
  let fr2 := build.fr2.toNat
  let stack := update stack (top + 2 * fr2 + 2) (stack top)
  let stack := update stack (top + 2 * fr2 + 1) (stack (top - 1))
  let stack := update stack (top + fr2) mo
  let stack := update stack (top - 1) build.contCat
  if build.fr2 then update (update stack top .nil) (top + 2) .nil else stack

def setupCall (top : Nat) : CatM W E (Option Nat) := fun s =>
  let mo := handler mm (s.stack (top - 1)) (s.stack top) s.world
  if mo = .nil then
    let slot := if isStrNum (s.stack (top - 1)) then top else top - 1
    .error (.opcat slot (s.stack slot)) s
  else .ok (some (top + 2 * build.fr2.toNat + 1)) { s with stack := setupFrame build top mo s.stack }

/-- As many strings as possible are joined. The result is the new `top` with what is left. -/
def joinStrings (top left : Nat) : CatM W E (Nat × Nat) := fun s =>
  let picked := pickStrings s.stack top left (bufLen (s.stack top))
  if LJ_MAX_STR ≤ picked.2.2 then .error .strov s
  else
    let text := (operands s.stack picked.1 (top + 1 - picked.1)).flatMap (catText build)
    .ok (picked.1, picked.2.1) { s with stack := update s.stack picked.1 (.str text) }

def metaCatLoop : Nat → Nat → Nat → CatM W E (Option Nat)
  | 0, _, _ => throw .outOfFuel
  | fuel + 1, top, left => do
      let s ← get
      if ¬isStrNum (s.stack top) ∨ ¬isStrNum (s.stack (top - 1)) then setupCall build mm top
      else do
        let rest ← joinStrings build top left
        if 1 ≤ rest.2 then metaCatLoop fuel rest.1 rest.2 else return none

/-- The result is where a metamethod's frame starts, or `none` when the values are joined. The sign
of `left` only matters to the garbage collector. -/
def ljMetaCat (top : Nat) (left : Int) : CatM W E (Option Nat) :=
  metaCatLoop build mm (left.natAbs + 1) top left.natAbs

/-! ## The instruction -/

/-- `vmeta_binop`. What is below the continuation stays. -/
def callBinop (newbase : Nat) : CatM W E Tab.TValue := fun s =>
  let fr2 := build.fr2.toNat
  match mm.call (s.stack (newbase - 1 - fr2)) (s.stack newbase) (s.stack (newbase + 1)) s.world with
  | (.ok res, w) =>
      .ok res { stack := fun i => if i < newbase - 2 - 2 * fr2 then s.stack i else mm.frame w i, world := w }
  | (.error e, w) => .error (.call e) { s with world := w }

def setSlot (slot : Nat) (v : Tab.TValue) : CatM W E Unit :=
  modify fun s => { s with stack := update s.stack slot v }

def getSlot (slot : Nat) : CatM W E Tab.TValue := return (← get).stack slot

/-- `BC_CAT_Z`, and `cont_cat` that goes back to it. -/
def bcCatZ (ra rb : Nat) : Nat → Nat → Nat → CatM W E Unit
  | 0, _, _ => throw .outOfFuel
  | fuel + 1, top, left => do
      match ← ljMetaCat build mm top left with
      | none => setSlot ra (← getSlot rb)
      | some newbase => do
          let res ← callBinop build mm newbase
          let slot := newbase - 2 - 2 * build.fr2.toNat
          if slot = rb then setSlot ra res
          else do
            setSlot slot res
            bcCatZ ra rb fuel slot (slot - rb)

/-- The instruction calls at most one metamethod for each two neighbours. -/
def bcCat (base a b c : Nat) : CatM W E Unit :=
  bcCatZ build mm (base + a) (base + b) (c - b + 1) (base + c) (c - b)

/-- The loop of `lua_concat`, with the index above the top of the stack. The call leaves its result
in the slot of the function, from where it is copied to the one of the continuation. -/
def luaConcatLoop : Nat → Nat → Int → CatM W E Nat
  | 0, _, _ => throw .outOfFuel
  | fuel + 1, top, n => do
      match ← ljMetaCat build mm (top - 1) (-n) with
      | none => return top - n.toNat
      | some newbase => do
          let n := n - ((top : Int) - newbase)
          let res ← callBinop build mm newbase
          let top := newbase - 1 - 2 * build.fr2.toNat
          setSlot (top - 1) res
          if n - 1 > 0 then luaConcatLoop fuel top (n - 1) else return top

def luaConcat (fuel top n : Nat) : CatM W E Nat :=
  if 2 ≤ n then luaConcatLoop build mm fuel top (n - 1 : Nat)
  else if n = 0 then do
    setSlot top (.str [])
    return top + 1
  else return top

/-! ## Binary concatenation -/

def callHandler (mo o1 o2 : Tab.TValue) : EStateM (CatError E) W Tab.TValue := fun w =>
  match mm.call mo o1 o2 w with
  | (.ok res, w) => .ok res w
  | (.error e, w) => .error (.call e) w

/-- `o1 .. o2`, where `o1` is in the given slot and `o2` in the next one. -/
def concat (slot : Nat) (o1 o2 : Tab.TValue) : EStateM (CatError E) W Tab.TValue := fun w =>
  if isStrNum o1 ∧ isStrNum o2 then .ok (.str (catText build o1 ++ catText build o2)) w
  else if handler mm o1 o2 w = .nil then
    if isStrNum o1 then .error (.opcat (slot + 1) o2) w else .error (.opcat slot o1) w
  else callHandler mm (handler mm o1 o2 w) o1 o2 w

/-- `x1 .. (x2 .. (... .. last))` -/
def concatAll (slot : Nat) : List Tab.TValue → Tab.TValue → EStateM (CatError E) W Tab.TValue
  | [], last => pure last
  | x :: xs, last => do
      let res ← concatAll (slot + 1) xs last
      concat build mm slot x res

/-- A string is too long with neighbours `middle` of what is to their right, where a number counts
as 32 characters. -/
def Overlong (slot : Nat) (xs : List Tab.TValue) (last : Tab.TValue) (w w' : W) : Prop :=
  ∃ front middle rest res, xs = front ++ middle ++ rest ∧
    concatAll (E := E) build mm (slot + (front ++ middle).length) rest last w = .ok res w' ∧
    (∀ o ∈ middle ++ [res], isStrNum o = true) ∧ LJ_MAX_STR ≤ ((middle ++ [res]).map bufLen).sum

end

section

variable {build : Build} {W E : Type} {mm : Metamethods W E} {stack : Nat → Tab.TValue} {s : CatState W}

/-! ## Operands -/

theorem operands_append (slot n m : Nat) :
    operands stack slot (n + m) = operands stack slot n ++ operands stack (slot + n) m := by
  simp [operands, ← List.range'_append_1]

@[simp] theorem length_operands (slot n : Nat) : (operands stack slot n).length = n := by
  simp [operands]

theorem operands_congr {stack' : Nat → Tab.TValue} {slot n : Nat}
    (same : ∀ i, i < slot + n → stack' i = stack i) : operands stack' slot n = operands stack slot n := by
  apply List.map_congr_left
  intro i member
  have bounds := List.mem_range'_1.mp member
  exact same i (by omega)

/-- The slots that are picked go from `slot + left'` on, and all of them can be joined. -/
theorem pickStrings_spec {slot left tlen : Nat} (more : 1 ≤ left)
    (first : isStrNum (stack (slot + left - 1)) = true) :
    ∃ left' picked, left = left' + picked ∧ 1 ≤ picked ∧
      pickStrings stack (slot + left) left tlen =
        (slot + left', left', tlen + ((operands stack (slot + left') picked).map bufLen).sum) ∧
      ∀ o ∈ operands stack (slot + left') picked, isStrNum o = true := by
  induction left generalizing tlen with
  | zero => omega
  | succ left induction =>
      have below : slot + (left + 1) - 1 = slot + left := by omega
      rw [below] at first
      rw [pickStrings, below]
      split
      · next goes =>
          have next : slot + (left + 1) - 2 = slot + left - 1 := by omega
          rw [next] at goes
          obtain ⟨left', picked, isLeft, some, isPicked, all⟩ :=
            @induction (tlen + bufLen (stack (slot + left))) goes.1 goes.2
          have slots : operands stack (slot + left') (picked + 1) =
              operands stack (slot + left') picked ++ [stack (slot + left)] := by
            rw [operands_append, isLeft, ← Nat.add_assoc]
            simp [operands]
          refine ⟨left', picked + 1, by omega, by omega, ?_, ?_⟩
          · rw [isPicked, slots]
            simp
            omega
          · rw [slots]
            intro o member
            rcases List.mem_append.mp member with before | last
            · exact all o before
            · rw [List.mem_singleton.mp last]
              exact first
      · refine ⟨left, 1, rfl, le_rfl, ?_, ?_⟩
        · simp [operands]
        · simp [operands, first]

/-! ## The fold -/

theorem concatAll_append {slot : Nat} {xs ys : List Tab.TValue} {last : Tab.TValue} :
    concatAll build mm slot (xs ++ ys) last =
      concatAll build mm (slot + xs.length) ys last >>= concatAll build mm slot xs := by
  induction xs generalizing slot with
  | nil =>
      simp only [List.nil_append, List.length_nil, Nat.add_zero]
      exact (bind_pure _).symm
  | cons x xs induction =>
      have shifted : slot + (x :: xs).length = slot + 1 + xs.length := by
        simp
        omega
      rw [List.cons_append, concatAll, induction, bind_assoc, shifted]
      rfl

/-- Strings and numbers are joined whatever the order. -/
theorem concatAll_joined {slot : Nat} {xs : List Tab.TValue} {last : Tab.TValue} {w : W} (some : xs ≠ [])
    (all : ∀ o ∈ xs ++ [last], isStrNum o = true) :
    concatAll build mm slot xs last w = .ok (.str ((xs ++ [last]).flatMap (catText build))) w := by
  induction xs generalizing slot with
  | nil => exact absurd rfl some
  | cons x xs induction =>
      have isJoined := all x (by simp)
      by_cases single : xs = []
      · have lastJoined := all last (by simp)
        rw [single, concatAll, concatAll]
        have run : (pure last : EStateM (CatError E) W Tab.TValue) w = .ok last w := rfl
        rw [bind_of_ok run, concat, if_pos ⟨isJoined, lastJoined⟩]
        simp
      · have rest := @induction (slot + 1) single fun o member => all o (by simp_all)
        rw [concatAll, bind_of_ok rest, concat, if_pos ⟨isJoined, rfl⟩]
        simp [catText]

theorem Overlong.extend {slot : Nat} {xs ys : List Tab.TValue} {last res : Tab.TValue} {w w' w'' : W}
    (long : Overlong build mm slot xs res w' w'')
    (run : concatAll build mm (slot + xs.length) ys last w = .ok res w') :
    Overlong build mm slot (xs ++ ys) last w w'' := by
  obtain ⟨front, middle, rest, res', isList, value, all, tooLong⟩ := long
  refine ⟨front, middle, rest ++ ys, res', ?_, ?_, all, tooLong⟩
  · rw [isList]
    simp
  · have places : slot + (front ++ middle).length + rest.length = slot + xs.length := by
      rw [isList]
      simp
      omega
    rw [concatAll_append, places, bind_of_ok run]
    exact value

/-! ## The loop -/

/-- The frame of a call has the handler and both operands, and does not reach what is below them. -/
theorem setupFrame_spec (slot : Nat) (mo : Tab.TValue) :
    setupFrame build (slot + 1) mo stack (slot + 1 + build.fr2.toNat) = mo ∧
      setupFrame build (slot + 1) mo stack (slot + 1 + 2 * build.fr2.toNat + 1) = stack slot ∧
      setupFrame build (slot + 1) mo stack (slot + 1 + 2 * build.fr2.toNat + 1 + 1) = stack (slot + 1) ∧
      ∀ i < slot, setupFrame build (slot + 1) mo stack i = stack i := by
  have below (i : Nat) (less : i < slot) : setupFrame build (slot + 1) mo stack i = stack i := by
    have apart (k : Nat) : i ≠ slot + k := by omega
    cases double : build.fr2 <;> simp [setupFrame, double, apart, Nat.add_assoc, less.ne]
  refine ⟨?_, ?_, ?_, below⟩
  · cases double : build.fr2 <;> simp [setupFrame, double, Nat.add_assoc]
  · cases double : build.fr2 <;> simp [setupFrame, double, Nat.add_assoc]
  · cases double : build.fr2 <;> simp [setupFrame, double, Nat.add_assoc]

/-- The loop has joined everything, or it has set up the call that the fold comes to next. -/
def Pauses (build : Build) (mm : Metamethods W E) (slot left : Nat) (s : CatState W) :
    Option Nat → CatState W → Prop
  | none, s' =>
      concatAll build mm slot (operands s.stack slot left) (s.stack (slot + left)) s.world =
          .ok (s'.stack slot) s'.world ∧
        ∀ i < slot, s'.stack i = s.stack i
  | some newbase, s' =>
      ∃ left' picked, left = left' + picked ∧ 1 ≤ picked ∧
        newbase = slot + left' + 2 + 2 * build.fr2.toNat ∧ s'.world = s.world ∧
        (∀ i < slot + left', s'.stack i = s.stack i) ∧
        concatAll build mm (slot + left') (operands s.stack (slot + left') picked) (s.stack (slot + left))
            s.world =
          callHandler mm (s'.stack (newbase - 1 - build.fr2.toNat)) (s'.stack newbase)
            (s'.stack (newbase + 1)) s.world

/-- The error is that of the fold, or the length is over the limit. -/
def Fails (build : Build) (mm : Metamethods W E) (slot left : Nat) (s : CatState W) (e : CatError E)
    (s' : CatState W) : Prop :=
  concatAll build mm slot (operands s.stack slot left) (s.stack (slot + left)) s.world =
      .error e s'.world ∨
    e = .strov ∧
      Overlong build mm slot (operands s.stack slot left) (s.stack (slot + left)) s.world s'.world

theorem setupCall_finishes {slot left : Nat}
    (other : ¬isStrNum (s.stack (slot + left + 1)) ∨ ¬isStrNum (s.stack (slot + left))) :
    Finishes (Pauses build mm slot (left + 1) s) (Fails build mm slot (left + 1) s)
      (setupCall build mm (slot + left + 1)) s := by
  have noJoin : ¬(isStrNum (s.stack (slot + left)) = true ∧ isStrNum (s.stack (slot + left + 1)) = true) := by
    rintro ⟨isJoined, isJoined'⟩
    rcases other with no | no
    · exact no isJoined'
    · exact no isJoined
  have step : concatAll build mm (slot + left) (operands s.stack (slot + left) 1) (s.stack (slot + left + 1))
      s.world = concat build mm (slot + left) (s.stack (slot + left)) (s.stack (slot + left + 1)) s.world := by
    have run : (pure (s.stack (slot + left + 1)) : EStateM (CatError E) W Tab.TValue) s.world =
        .ok (s.stack (slot + left + 1)) s.world := rfl
    simp only [operands, List.range'_one, List.map_cons, List.map_nil, concatAll]
    exact bind_of_ok run
  rw [concat, if_neg noJoin] at step
  by_cases missing : handler mm (s.stack (slot + left)) (s.stack (slot + left + 1)) s.world = .nil
  · rw [if_pos missing] at step
    have run : setupCall build mm (slot + left + 1) s =
        .error (.opcat (if isStrNum (s.stack (slot + left)) then slot + left + 1 else slot + left)
          (s.stack (if isStrNum (s.stack (slot + left)) then slot + left + 1 else slot + left))) s := by
      simp only [setupCall, Nat.add_sub_cancel, missing, if_true]
    apply Finishes.of_error run
    left
    rw [operands_append, concatAll_append, length_operands]
    apply bind_of_error
    rw [← Nat.add_assoc, step]
    split <;> rfl
  · rw [if_neg missing] at step
    have run : setupCall build mm (slot + left + 1) s =
        .ok (some (slot + left + 1 + 2 * build.fr2.toNat + 1))
          ⟨setupFrame build (slot + left + 1)
            (handler mm (s.stack (slot + left)) (s.stack (slot + left + 1)) s.world) s.stack, s.world⟩ := by
      simp only [setupCall, Nat.add_sub_cancel, missing, if_false]
    apply Finishes.of_ok run
    have frame := @setupFrame_spec build s.stack (slot + left)
      (handler mm (s.stack (slot + left)) (s.stack (slot + left + 1)) s.world)
    refine ⟨left, 1, rfl, le_rfl, by omega, rfl, frame.2.2.2, ?_⟩
    have functionSlot : slot + left + 1 + 2 * build.fr2.toNat + 1 - 1 - build.fr2.toNat =
        slot + left + 1 + build.fr2.toNat := by omega
    dsimp only
    rw [functionSlot, frame.1, frame.2.1, frame.2.2.1]
    exact step

/-- What is below a slot is folded with what the slots from it on come to. -/
theorem fold_from {slot left' picked : Nat} {res : Tab.TValue} {w : W}
    (run : concatAll build mm (slot + left') (operands s.stack (slot + left') picked)
      (s.stack (slot + (left' + picked))) s.world = .ok res w) :
    concatAll build mm slot (operands s.stack slot (left' + picked)) (s.stack (slot + (left' + picked)))
        s.world =
      concatAll build mm slot (operands s.stack slot left') res w := by
  rw [operands_append, concatAll_append, length_operands]
  exact bind_of_ok run

/-- A part of the values is folded, and the loop goes on with the rest. -/
theorem Pauses.extend {slot left' picked : Nat} {s₁ : CatState W}
    (below : ∀ i < slot + left', s₁.stack i = s.stack i)
    (run : concatAll build mm (slot + left') (operands s.stack (slot + left') picked)
      (s.stack (slot + (left' + picked))) s.world = .ok (s₁.stack (slot + left')) s₁.world)
    (same : s₁.world = s.world) {newbase : Option Nat} {s' : CatState W}
    (pauses : Pauses build mm slot left' s₁ newbase s') : Pauses build mm slot (left' + picked) s newbase s' := by
  have kept := operands_congr below
  cases newbase with
  | none =>
      refine ⟨?_, fun i low => (pauses.2 i low).trans (below i (by omega))⟩
      rw [fold_from run, ← kept]
      exact pauses.1
  | some newbase =>
      obtain ⟨left'', more, rfl, some, isBase, world, unchanged, call⟩ := pauses
      refine ⟨left'', more + picked, by omega, by omega, isBase, world.trans same,
        fun i low => (unchanged i low).trans (below i (by omega)), ?_⟩
      have kept' : operands s₁.stack (slot + left'') more = operands s.stack (slot + left'') more :=
        operands_congr fun i low => below i (by omega)
      have places : slot + left'' + more = slot + (left'' + more) := by omega
      rw [operands_append, concatAll_append, length_operands, places, bind_of_ok run, ← kept', ← same]
      exact call

theorem Fails.extend {slot left' picked : Nat} {s₁ : CatState W}
    (below : ∀ i < slot + left', s₁.stack i = s.stack i)
    (run : concatAll build mm (slot + left') (operands s.stack (slot + left') picked)
      (s.stack (slot + (left' + picked))) s.world = .ok (s₁.stack (slot + left')) s₁.world)
    {e : CatError E} {s' : CatState W} (fails : Fails build mm slot left' s₁ e s') :
    Fails build mm slot (left' + picked) s e s' := by
  have kept := operands_congr below
  rcases fails with same | ⟨isStrov, long⟩
  · left
    rw [fold_from run, ← kept]
    exact same
  · right
    refine ⟨isStrov, ?_⟩
    rw [operands_append, ← kept]
    apply long.extend
    rw [length_operands]
    exact run

theorem joinStrings_finishes {slot left : Nat} (more : 1 ≤ left)
    (last : isStrNum (s.stack (slot + left)) = true) (first : isStrNum (s.stack (slot + left - 1)) = true) :
    Finishes (fun rest s₁ => ∃ left' picked, left = left' + picked ∧ 1 ≤ picked ∧ rest = (slot + left', left') ∧
        (∀ i < slot + left', s₁.stack i = s.stack i) ∧ s₁.world = s.world ∧
        concatAll build mm (slot + left') (operands s.stack (slot + left') picked)
          (s.stack (slot + (left' + picked))) s.world = .ok (s₁.stack (slot + left')) s₁.world)
      (Fails build mm slot left s) (joinStrings build (slot + left) left) s := by
  obtain ⟨left', picked, rfl, some, isPicked, all⟩ :=
    @pickStrings_spec _ _ _ (bufLen (s.stack (slot + left))) more first
  have nonempty : operands s.stack (slot + left') picked ≠ [] := by
    apply List.ne_nil_of_length_pos
    rw [length_operands]
    exact some
  have all' : ∀ o ∈ operands s.stack (slot + left') picked ++ [s.stack (slot + (left' + picked))],
      isStrNum o = true := by
    intro o member
    rcases List.mem_append.mp member with before | isLast
    · exact all o before
    · rw [List.mem_singleton.mp isLast]
      exact last
  by_cases long : LJ_MAX_STR ≤ bufLen (s.stack (slot + (left' + picked))) +
      ((operands s.stack (slot + left') picked).map bufLen).sum
  · have run : joinStrings (E := E) build (slot + (left' + picked)) (left' + picked) s = .error .strov s := by
      simp only [joinStrings, isPicked, long, if_true]
    apply Finishes.of_error run
    right
    refine ⟨rfl, operands s.stack slot left', operands s.stack (slot + left') picked, [],
      s.stack (slot + (left' + picked)), ?_, rfl, all', ?_⟩
    · rw [operands_append, List.append_nil]
    · simpa [Nat.add_comm] using long
  · have whole : operands s.stack (slot + left') (slot + (left' + picked) + 1 - (slot + left')) =
        operands s.stack (slot + left') picked ++ [s.stack (slot + (left' + picked))] := by
      have count : slot + (left' + picked) + 1 - (slot + left') = picked + 1 := by omega
      rw [count, operands_append, ← Nat.add_assoc]
      simp [operands]
    have run : joinStrings (E := E) build (slot + (left' + picked)) (left' + picked) s =
        .ok (slot + left', left') ⟨update s.stack (slot + left') (.str ((operands s.stack (slot + left') picked ++
          [s.stack (slot + (left' + picked))]).flatMap (catText build))), s.world⟩ := by
      simp only [joinStrings, isPicked, long, if_false, whole]
    apply Finishes.of_ok run
    refine ⟨left', picked, rfl, some, rfl, fun i below => update_of_ne below.ne _ _, rfl, ?_⟩
    simp [concatAll_joined nonempty all']

theorem metaCatLoop_finishes {fuel slot left : Nat} (more : 1 ≤ left) (enough : left < fuel) :
    Finishes (Pauses build mm slot left s) (Fails build mm slot left s)
      (metaCatLoop build mm fuel (slot + left) left) s := by
  induction fuel generalizing left s with
  | zero => omega
  | succ fuel induction =>
      have here : Finishes (fun s₁ s₂ => s₁ = s ∧ s₂ = s) (Fails build mm slot left s) get s := ⟨rfl, rfl⟩
      apply here.bind
      rintro _ _ ⟨rfl, rfl⟩
      apply Finishes.ite
      · intro other
        obtain ⟨left, rfl⟩ := Nat.exists_eq_add_one_of_ne_zero (Nat.ne_zero_of_lt more)
        exact setupCall_finishes other
      · intro joined
        simp only [not_or, not_not] at joined
        apply (joinStrings_finishes more joined.1 joined.2).bind
        rintro _ s₁ ⟨left', picked, rfl, some, rfl, below, same, run⟩
        apply Finishes.ite
        · intro more'
          apply (induction more' (by omega)).mono
          · intro newbase s' pauses
            exact pauses.extend below run same
          · intro e s' fails
            exact fails.extend below run
        · intro done
          have isDone : left' = 0 := by omega
          subst isDone
          apply Finishes.pure
          refine ⟨?_, fun i low => below i (by omega)⟩
          rw [fold_from run]
          rfl

theorem ljMetaCat_finishes {slot left : Nat} (more : 1 ≤ left) :
    Finishes (Pauses build mm slot left s) (Fails build mm slot left s)
      (ljMetaCat build mm (slot + left) left) s := by
  rw [ljMetaCat, Int.natAbs_natCast]
  exact metaCatLoop_finishes more (Nat.lt_succ_self left)

/-! ## The instruction -/

/-- The result of the fold is in the destination, and the slots below the operands have not
changed otherwise. -/
def Concatenates (build : Build) (mm : Metamethods W E) (ra rb left : Nat) (s s' : CatState W) : Prop :=
  concatAll build mm rb (operands s.stack rb left) (s.stack (rb + left)) s.world =
      .ok (s'.stack ra) s'.world ∧
    ∀ i < rb, i ≠ ra → s'.stack i = s.stack i

theorem callBinop_finishes (newbase : Nat) :
    Finishes (fun res s' => callHandler mm (s.stack (newbase - 1 - build.fr2.toNat)) (s.stack newbase)
          (s.stack (newbase + 1)) s.world = .ok res s'.world ∧
        ∀ i < newbase - 2 - 2 * build.fr2.toNat, s'.stack i = s.stack i)
      (fun e s' => callHandler mm (s.stack (newbase - 1 - build.fr2.toNat)) (s.stack newbase)
          (s.stack (newbase + 1)) s.world = .error e s'.world)
      (callBinop build mm newbase) s := by
  cases called : mm.call (s.stack (newbase - 1 - build.fr2.toNat)) (s.stack newbase) (s.stack (newbase + 1))
      s.world with
  | mk outcome w =>
      cases outcome with
      | ok res =>
          have run : callBinop build mm newbase s = .ok res
              ⟨fun i => if i < newbase - 2 - 2 * build.fr2.toNat then s.stack i else mm.frame w i, w⟩ := by
            simp only [callBinop, called]
          apply Finishes.of_ok run
          refine ⟨?_, fun i below => if_pos below⟩
          simp only [callHandler, called]
      | error e =>
          have run : callBinop build mm newbase s = .error (.call e) { s with world := w } := by
            simp only [callBinop, called]
          apply Finishes.of_error run
          simp only [callHandler, called]

theorem setSlot_finishes {bad : CatError E → CatState W → Prop} (slot : Nat) (v : Tab.TValue) :
    Finishes (fun _ s' => s' = { s with stack := update s.stack slot v }) bad (setSlot slot v) s := rfl

/-- The call that the loop has set up is the next one of the fold. -/
theorem Pauses.call {slot left newbase : Nat} {s₁ : CatState W}
    (pauses : Pauses build mm slot left s (some newbase) s₁) :
    ∃ left' picked, left = left' + picked ∧ 1 ≤ picked ∧ newbase = slot + left' + 2 + 2 * build.fr2.toNat ∧
      Finishes (fun res s₂ =>
          concatAll build mm (slot + left') (operands s.stack (slot + left') picked) (s.stack (slot + left))
              s.world = .ok res s₂.world ∧
            ∀ i < slot + left', s₂.stack i = s.stack i)
        (Fails build mm slot left s) (callBinop build mm newbase) s₁ := by
  obtain ⟨left', picked, rfl, some, isBase, world, kept, call⟩ := pauses
  refine ⟨left', picked, rfl, some, isBase, ?_⟩
  rw [← world] at call
  apply (callBinop_finishes newbase).mono
  · intro res s₂ result
    refine ⟨?_, fun i below => ?_⟩
    · rw [← world, call]
      exact result.1
    · exact (result.2 i (by omega)).trans (kept i below)
  · intro e s₂ raised
    left
    rw [operands_append, concatAll_append, length_operands]
    apply bind_of_error
    rw [← world, call]
    exact raised

/-- The result of a call is in the slot of the left operand, and the loop goes on from there. -/
theorem Concatenates.extend {ra slot left' picked : Nat} {res : Tab.TValue} {s₂ s' : CatState W}
    (rest : Concatenates build mm ra slot left' { s₂ with stack := update s₂.stack (slot + left') res } s')
    (run : concatAll build mm (slot + left') (operands s.stack (slot + left') picked)
      (s.stack (slot + (left' + picked))) s.world = .ok res s₂.world)
    (below : ∀ i < slot + left', s₂.stack i = s.stack i) :
    Concatenates build mm ra slot (left' + picked) s s' := by
  have below' : ∀ i < slot + left', update s₂.stack (slot + left') res i = s.stack i := by
    intro i low
    rw [update_of_ne low.ne]
    exact below i low
  have value := rest.1
  dsimp only at value
  rw [operands_congr below', update_self] at value
  refine ⟨?_, fun i low other => (rest.2 i low other).trans (below' i (by omega))⟩
  rw [fold_from run]
  exact value

theorem Fails.resume {slot left' picked : Nat} {res : Tab.TValue} {e : CatError E} {s₂ s' : CatState W}
    (rest : Fails build mm slot left' { s₂ with stack := update s₂.stack (slot + left') res } e s')
    (run : concatAll build mm (slot + left') (operands s.stack (slot + left') picked)
      (s.stack (slot + (left' + picked))) s.world = .ok res s₂.world)
    (below : ∀ i < slot + left', s₂.stack i = s.stack i) :
    Fails build mm slot (left' + picked) s e s' := by
  apply rest.extend
  · intro i low
    dsimp only
    rw [update_of_ne low.ne]
    exact below i low
  · simpa using run

/-- Nothing is left to be folded. -/
theorem Concatenates.single {ra slot : Nat} {res : Tab.TValue} :
    Concatenates build mm ra slot 0 { s with stack := update s.stack slot res }
      { s with stack := update s.stack ra res } := by
  constructor
  · simp [operands, concatAll]
    rfl
  · intro i low other
    simp [low.ne, other]

theorem bcCatZ_finishes {fuel ra rb left : Nat} (more : 1 ≤ left) (enough : left ≤ fuel) :
    Finishes (fun _ s' => Concatenates build mm ra rb left s s') (Fails build mm rb left s)
      (bcCatZ build mm ra rb fuel (rb + left) left) s := by
  induction fuel generalizing left s with
  | zero => omega
  | succ fuel induction =>
      apply (ljMetaCat_finishes more).bind
      intro newbase s₁ pauses
      cases newbase with
      | none =>
          have read : Finishes (fun v s₂ => v = s₁.stack rb ∧ s₂ = s₁) (Fails build mm rb left s)
              (getSlot rb) s₁ := ⟨rfl, rfl⟩
          apply read.bind
          rintro _ s₂ ⟨rfl, rfl⟩
          apply (setSlot_finishes ra (s₂.stack rb)).mono
          · rintro _ s' rfl
            refine ⟨?_, fun i below other => ?_⟩
            · simpa using pauses.1
            · simpa [other] using pauses.2 i below
          · exact fun _ _ fails => fails
      | some newbase =>
          obtain ⟨left', picked, rfl, some, isBase, called⟩ := pauses.call
          have isSlot : newbase - 2 - 2 * build.fr2.toNat = rb + left' := by omega
          apply called.bind
          rintro res s₂ ⟨result, below⟩
          rw [isSlot]
          apply Finishes.ite
          · intro done
            have isDone : left' = 0 := by omega
            subst isDone
            apply (setSlot_finishes ra res).mono
            · rintro _ s' rfl
              exact Concatenates.single.extend result below
            · exact fun _ _ fails => fails
          · intro notDone
            have rest : rb + left' - rb = left' := by omega
            apply (setSlot_finishes (rb + left') res).bind
            rintro _ s₃ rfl
            rw [rest]
            apply (induction (by omega) (by omega)).mono
            · intro _ s' concatenates
              exact concatenates.extend result below
            · intro e s' fails
              exact fails.resume result below

/-- `BC_CAT` folds its operands from the right, whatever their metamethods do. The result is in the
destination. Only the limit of the length is checked for several strings at once. -/
theorem bcCat_concat (build : Build) (mm : Metamethods W E) (base a b c : Nat) (s : CatState W) (some : b < c) :
    Finishes (fun _ s' => Concatenates build mm (base + a) (base + b) (c - b) s s')
      (Fails build mm (base + b) (c - b) s) (bcCat build mm base a b c) s := by
  have top : base + c = base + b + (c - b) := by omega
  rw [bcCat, top]
  exact bcCatZ_finishes (by omega) (Nat.le_succ _)

/-- A handler that notes its operands, and returns `t`. -/
def noting : Metamethods (List (Tab.TValue × Tab.TValue)) Empty where
  lookup o _ := if isStrNum o then .nil else o
  call _ o1 o2 calls := (.ok (.str [116]), (o1, o2) :: calls)
  frame _ _ := .nil

/-- `"a" .. x .. "b" .. "c"`, where `x` is an object. -/
def mixedSlots : Nat → Tab.TValue
  | 1 => .str [97]
  | 3 => .str [98]
  | 4 => .str [99]
  | _ => .gcref 0xfffffff3 1

theorem bcCat_concat_mixed :
    Finishes (fun _ s' => Concatenates ⟨true, .nil, fun _ _ => []⟩ noting (0 + 0) (0 + 1) (4 - 1) ⟨mixedSlots, []⟩ s')
      (Fails ⟨true, .nil, fun _ _ => []⟩ noting (0 + 1) (4 - 1) ⟨mixedSlots, []⟩)
      (bcCat ⟨true, .nil, fun _ _ => []⟩ noting 0 0 1 4) ⟨mixedSlots, []⟩ :=
  bcCat_concat ⟨true, .nil, fun _ _ => []⟩ noting 0 0 1 4 ⟨mixedSlots, []⟩ (by decide)

example : concatAll ⟨true, .nil, fun _ _ => []⟩ noting 1 (operands mixedSlots 1 3) (mixedSlots 4) [] =
    .ok (.str [97, 116]) [(.gcref 0xfffffff3 1, .str [98, 99])] := by rfl

/-! ## The function of the API -/

theorem ljMetaCat_neg (top left : Nat) : ljMetaCat build mm top (-(left : Int)) = ljMetaCat build mm top left := by
  rw [ljMetaCat, ljMetaCat, Int.natAbs_neg]

theorem luaConcatLoop_finishes {fuel slot left : Nat} (short : build.fr2 = false) (more : 1 ≤ left)
    (enough : left ≤ fuel) :
    Finishes (fun top s' => top = slot + 1 ∧ Concatenates build mm slot slot left s s')
      (Fails build mm slot left s) (luaConcatLoop build mm fuel (slot + left + 1) left) s := by
  induction fuel generalizing left s with
  | zero => omega
  | succ fuel induction =>
      rw [luaConcatLoop, Nat.add_sub_cancel, ljMetaCat_neg]
      apply (ljMetaCat_finishes more).bind
      intro newbase s₁ pauses
      cases newbase with
      | none =>
          apply Finishes.pure
          refine ⟨by simp; omega, pauses.1, fun i low _ => pauses.2 i low⟩
      | some newbase =>
          obtain ⟨left', picked, rfl, some, isBase, called⟩ := pauses.call
          rw [short] at isBase
          have isTop : newbase - 1 - 2 * build.fr2.toNat = slot + left' + 1 := by
            rw [isBase, short]
            simp
          have isLeft : ((left' + picked : Nat) : Int) - ((slot + (left' + picked) + 1 : Nat) - (newbase : Int)) - 1 =
              (left' : Nat) := by
            rw [isBase]
            simp
            omega
          apply called.bind
          rintro res s₂ ⟨result, below⟩
          rw [isTop, isLeft]
          apply (setSlot_finishes (slot + left') res).bind
          rintro _ s₃ rfl
          apply Finishes.ite
          · intro notDone
            apply (induction (by omega) (by omega)).mono
            · rintro top s' ⟨atTop, concatenates⟩
              exact ⟨atTop, concatenates.extend result below⟩
            · intro e s' fails
              exact fails.resume result below
          · intro done
            have isDone : left' = 0 := by omega
            subst isDone
            apply Finishes.pure
            exact ⟨rfl, Concatenates.single.extend result below⟩

/-- `lua_concat` folds the values on top of the stack in the same way, where a frame has one slot. -/
theorem luaConcat_concat (build : Build) (mm : Metamethods W E) (slot n : Nat) (s : CatState W)
    (short : build.fr2 = false) (some : 1 ≤ n) :
    Finishes (fun top s' => top = slot + 1 ∧ Concatenates build mm slot slot (n - 1) s s')
      (Fails build mm slot (n - 1) s) (luaConcat build mm n (slot + n) n) s := by
  obtain ⟨left, rfl⟩ := Nat.exists_eq_add_one_of_ne_zero (Nat.ne_zero_of_lt some)
  rw [luaConcat, Nat.add_sub_cancel]
  apply Finishes.ite
  · intro more
    exact luaConcatLoop_finishes short (by omega) (Nat.le_succ left)
  · intro single
    have isSingle : left = 0 := by omega
    subst isSingle
    apply Finishes.pure
    have same : s = { s with stack := update s.stack slot (s.stack slot) } := by simp
    refine ⟨rfl, ?_⟩
    have concatenates := @Concatenates.single build _ _ mm s slot slot (s.stack slot)
    rw [← same] at concatenates
    exact concatenates

theorem luaConcat_concat_mixed :
    Finishes (fun top s' => top = 1 + 1 ∧
        Concatenates ⟨false, .nil, fun _ _ => []⟩ noting 1 1 (4 - 1) ⟨mixedSlots, []⟩ s')
      (Fails ⟨false, .nil, fun _ _ => []⟩ noting 1 (4 - 1) ⟨mixedSlots, []⟩)
      (luaConcat ⟨false, .nil, fun _ _ => []⟩ noting 4 (1 + 4) 4) ⟨mixedSlots, []⟩ :=
  luaConcat_concat ⟨false, .nil, fun _ _ => []⟩ noting 1 4 ⟨mixedSlots, []⟩ rfl (by decide)

/-- Where a frame has two slots, `lua_concat` goes on with two values too many after a metamethod
has returned: with two that are below the operands. -/
theorem luaConcatLoop_twoSlots (build : Build) (mm : Metamethods W E) (fuel slot left newbase : Nat)
    (s s₁ s₂ : CatState W) (res : Tab.TValue) (double : build.fr2 = true) (more : 1 ≤ left)
    (pauses : ljMetaCat build mm (slot + left) left s = .ok (some newbase) s₁)
    (returns : callBinop build mm newbase s₁ = .ok res s₂) :
    ∃ left' < left, newbase = slot + left' + 4 ∧
      luaConcatLoop build mm (fuel + 1) (slot + left + 1) left s =
        luaConcatLoop build mm fuel (slot + left' + 1) (left' + 2 : Nat)
          { s₂ with stack := update s₂.stack (slot + left') res } := by
  obtain ⟨left', picked, rfl, some, isBase, called⟩ := ((ljMetaCat_finishes more).value pauses).call
  rw [double] at isBase
  have isTop : newbase - 1 - 2 * build.fr2.toNat = slot + left' + 1 := by
    rw [isBase, double]
    simp
  have isLeft : ((left' + picked : Nat) : Int) - ((slot + (left' + picked) + 1 : Nat) - (newbase : Int)) - 1 =
      (left' + 2 : Nat) := by
    rw [isBase]
    simp
    omega
  refine ⟨left', by omega, isBase, ?_⟩
  rw [luaConcatLoop, Nat.add_sub_cancel, ljMetaCat_neg, bind_of_ok pauses]
  dsimp only
  rw [bind_of_ok returns, isTop, isLeft]
  have stored : @setSlot W E (slot + left' + 1 - 1) res s₂ =
      .ok () { s₂ with stack := update s₂.stack (slot + left') res } := rfl
  rw [bind_of_ok stored, if_pos (by omega)]

/-- The slots of `x .. "b"` before the metamethod is called. -/
def calledSlots : Nat → Tab.TValue :=
  setupFrame ⟨true, .nil, fun _ _ => []⟩ 3 (mixedSlots 2) mixedSlots

def returnedSlots (i : Nat) : Tab.TValue := if i < 2 then calledSlots i else .nil

theorem luaConcatLoop_twoSlots_returned :
    ∃ left' < 1, 6 = 2 + left' + 4 ∧
      luaConcatLoop ⟨true, .nil, fun _ _ => []⟩ noting (0 + 1) (2 + 1 + 1) (1 : Nat) ⟨mixedSlots, []⟩ =
        luaConcatLoop ⟨true, .nil, fun _ _ => []⟩ noting 0 (2 + left' + 1) (left' + 2 : Nat)
          ⟨update returnedSlots (2 + left') (.str [116]), [(mixedSlots 2, .str [98])]⟩ :=
  luaConcatLoop_twoSlots ⟨true, .nil, fun _ _ => []⟩ noting 0 2 1 6 ⟨mixedSlots, []⟩ ⟨calledSlots, []⟩
    ⟨returnedSlots, [(mixedSlots 2, .str [98])]⟩ (.str [116]) rfl (by decide) rfl rfl

end

end TvmJit.Meta
