import TvmJit.Ir.Runs
import TvmJit.Ir.Fold

/-! The previous value of a table store, in `lj_opt_mem.c`: whether earlier stores and loads of a
trace tell that it is not nil. -/

namespace TvmJit

open Foundation Function

/-! ## The search -/

def irref_isk (ref : IRRef) : Bool := ref < REF_BIAS

def irt_isnil (t : IRType1) : Bool := t &&& IRT_TYPE == IRT_NIL

def irt_sametype (t t' : IRType1) : Bool := t &&& IRT_TYPE == t' &&& IRT_TYPE

/-- `loadop+IRDELTA_L2S`. -/
def IROp.store : IROp → IROp
  | .aload => .astore
  | .hload => .hstore
  | op => op

section

variable (J : JitState) (loadop : IROp) (xref : IRRef)

/-- What a store tells about the value. -/
def wasStored (ref : IRRef) : Option Bool :=
  let store := J.IR ref
  if store.op1.toNat = xref then some !irt_isnil store.t
  else if irt_isnil store.t then
    let skref := (J.IR store.op1.toNat).op2.toNat
    let xkref := (J.IR xref).op2.toNat
    -- Same key type MAY alias. Need ALOAD check due to multiple int types.
    if loadop = .aload ∨ irt_sametype (J.IR skref).t (J.IR xkref).t then
      -- Different const keys CANNOT alias.
      if skref = xkref ∨ ¬irref_isk skref ∨ ¬irref_isk xkref then some false else none
    -- Different key types CANNOT alias.
    else none
  else none

/-- What a load tells about the value. -/
def wasLoaded (ref : IRRef) : Option Bool :=
  let load := J.IR ref
  if load.op1.toNat = xref then some !irt_isnil load.t else none

/-- Check whether the previous value for a table store is non-nil. A result of 1 is exact, a result of 0 is not. -/
def lj_opt_fwd_wasnonnil : Option Bool :=
  -- First check stores.
  match follow (J.links loadop.store) (fun ref => xref < ref) (wasStored J loadop xref) chainSteps none with
  | none => none
  | some (.hit _ _ result) => some result
  | some (.ended _) =>
      -- Check loads since nothing could be derived from stores.
      match follow (J.links loadop) (fun ref => xref < ref) (wasLoaded J xref) chainSteps none with
      | none => none
      | some (.hit _ _ result) => some result
      | some (.ended _) => some false

end

/-! ## Executions -/

/-- References into the hash part. -/
def IROp.isHref : IROp → Bool
  | .href | .hrefk | .newref => true
  | _ => false

/-- Stores into tables. -/
def IROp.isTabStore : IROp → Bool
  | .astore | .hstore => true
  | _ => false

/-- Loads from tables. -/
def IROp.isTabLoad : IROp → Bool
  | .aload | .hload => true
  | _ => false

namespace JitState

variable (J : JitState)

/-- The key of a reference. KSLOT wraps a constant key. -/
def xkey (xref : IRRef) : IRRef :=
  let key := (J.IR xref).op2.toNat
  if (J.IR key).o = .kslot then (J.IR key).op1.toNat else key

/-- The table of a reference. -/
def xtab (xref : IRRef) : IRRef :=
  let xr := J.IR xref
  if xr.o = .hrefk ∨ xr.o = .aref then (J.IR xr.op1.toNat).op1.toNat else xr.op1.toNat

/-- An instruction of the trace, and not a constant. -/
def Recorded (ref : IRRef) : Prop := REF_FIRST ≤ ref ∧ ref < J.nins

/-- The loads and stores of the trace go through references of their kind, which come before them. -/
structure TableIR : Prop where
  linked : J.Linked
  older : ∀ ref, J.Recorded ref → (J.IR ref).o.isTabLoad ∨ (J.IR ref).o.isTabStore →
    REF_FIRST ≤ (J.IR ref).op1.toNat ∧ (J.IR ref).op1.toNat < ref
  array : ∀ ref, J.Recorded ref → (J.IR ref).o = .aload ∨ (J.IR ref).o = .astore →
    (J.IR (J.IR ref).op1.toNat).o = .aref
  hash : ∀ ref, J.Recorded ref → (J.IR ref).o = .hload ∨ (J.IR ref).o = .hstore →
    (J.IR (J.IR ref).op1.toNat).o.isHref

end JitState

/-- What a run of the trace finds: the tables and keys its references stand for, and which slots are nil at its
start. A key has the type of its reference, and different constants are different keys. -/
structure TableRun (J : JitState) (Object Key : Type) where
  object : IRRef → Object
  key : IRRef → Key
  type : Key → IRType1
  typed : ∀ xref, J.Recorded xref → (J.IR xref).o.isHref → type (key (J.xkey xref)) = (J.IR (J.xkey xref)).t &&& IRT_TYPE
  constants : ∀ xref xref', J.Recorded xref → J.Recorded xref' →
    (J.IR xref).o.isHref ∧ (J.IR xref').o.isHref ∨ (J.IR xref).o = .aref ∧ (J.IR xref').o = .aref →
    irref_isk (J.xkey xref) → irref_isk (J.xkey xref') → J.xkey xref ≠ J.xkey xref' → key (J.xkey xref) ≠ key (J.xkey xref')
  start : Object × Key → Bool

namespace TableRun

variable {J : JitState} {Object Key : Type} [DecidableEq Object] [DecidableEq Key] (run : TableRun J Object Key)

/-- The slot that a reference addresses. -/
def place (xref : IRRef) : Object × Key := (run.object (J.xtab xref), run.key (J.xkey xref))

/-- The slot that a store or load addresses. -/
def target (ref : IRRef) : Object × Key := run.place (J.IR ref).op1.toNat

/-- The slots that are nil after the first instructions of the trace. -/
def nilAfter : Nat → Object × Key → Bool
  | 0 => run.start
  | n + 1 =>
      let ir := J.IR (REF_FIRST + n)
      if ir.o.isTabStore then update (nilAfter n) (run.target (REF_FIRST + n)) (irt_isnil ir.t) else nilAfter n

/-- The slots that are nil before an instruction. -/
def nilAt (ref : IRRef) : Object × Key → Bool := run.nilAfter (ref - REF_FIRST)

/-- Every load finds a value of its type. -/
def GuardsHold : Prop :=
  ∀ ref, J.Recorded ref → (J.IR ref).o.isTabLoad → run.nilAt ref (run.target ref) = irt_isnil (J.IR ref).t

/-- The last store to a slot. -/
structure LastStore (slot : Object × Key) (first last store : IRRef) : Prop where
  low : first ≤ store
  high : store < last
  isStore : (J.IR store).o.isTabStore
  target : run.target store = slot
  later : ∀ ref, store < ref → ref < last → (J.IR ref).o.isTabStore → run.target ref ≠ slot

variable {run}

theorem nilAt_store {ref : IRRef} (above : REF_FIRST ≤ ref) (isStore : (J.IR ref).o.isTabStore) :
    run.nilAt (ref + 1) = update (run.nilAt ref) (run.target ref) (irt_isnil (J.IR ref).t) := by
  rw [nilAt, Nat.succ_sub above, nilAfter, Nat.add_sub_cancel' above]
  exact if_pos isStore

theorem nilAt_other {ref : IRRef} (above : REF_FIRST ≤ ref) (notStore : ¬(J.IR ref).o.isTabStore) :
    run.nilAt (ref + 1) = run.nilAt ref := by
  rw [nilAt, Nat.succ_sub above, nilAfter, Nat.add_sub_cancel' above]
  exact if_neg notStore

/-- A slot is as its last store has left it. -/
theorem nilAt_cases (slot : Object × Key) {first last : IRRef} (above : REF_FIRST ≤ first) (less : first ≤ last) :
    run.nilAt last slot = run.nilAt first slot ∨
      ∃ store, run.LastStore slot first last store ∧ run.nilAt last slot = irt_isnil (J.IR store).t := by
  induction last, less using Nat.le_induction with
  | base => exact .inl rfl
  | succ last less induction =>
      have inside : REF_FIRST ≤ last := le_trans above less
      by_cases hit : (J.IR last).o.isTabStore ∧ run.target last = slot
      · have ⟨isStore, target⟩ := hit
        refine .inr ⟨last, ⟨less, Nat.lt_succ_self _, isStore, target, ?_⟩, ?_⟩
        · intro ref above below
          exact absurd (Nat.lt_of_lt_of_le above (Nat.le_of_lt_succ below)) (lt_irrefl _)
        · rw [nilAt_store inside isStore, target, update_self]
      · have same : run.nilAt (last + 1) slot = run.nilAt last slot := by
          by_cases isStore : (J.IR last).o.isTabStore
          · rw [nilAt_store inside isStore, update_of_ne]
            intro equal
            exact hit ⟨isStore, equal.symm⟩
          · rw [nilAt_other inside isStore]
        rw [same]
        rcases induction with earlier | ⟨store, isLast, value⟩
        · exact .inl earlier
        · refine .inr ⟨store, { isLast with high := Nat.lt_succ_of_lt isLast.high, later := ?_ }, value⟩
          intro ref above below isStore target
          rcases Nat.lt_succ_iff_lt_or_eq.mp below with below | equal
          · exact isLast.later ref above below isStore target
          · exact hit ⟨equal ▸ isStore, equal ▸ target⟩

theorem LastStore.nilAt {slot : Object × Key} {first last store : IRRef} (isLast : run.LastStore slot first last store)
    (above : REF_FIRST ≤ first) : run.nilAt last slot = irt_isnil (J.IR store).t := by
  have inside : REF_FIRST ≤ store := le_trans above isLast.low
  have stored : run.nilAt (store + 1) slot = irt_isnil (J.IR store).t := by
    rw [nilAt_store inside isLast.isStore, isLast.target, update_self]
  rcases nilAt_cases slot (Nat.le_succ_of_le inside) isLast.high with same | ⟨other, otherLast, _⟩
  · exact same.trans stored
  · exact absurd otherLast.target (isLast.later other otherLast.low otherLast.high otherLast.isStore)

end TableRun

/-! ## What the search finds -/

section

variable {J : JitState} {loadop : IROp} {xref : IRRef}

/-- A nil store through another reference that the search takes for one to another key. -/
def PassedOver (J : JitState) (loadop : IROp) (xref store : IRRef) : Prop :=
  let skref := (J.IR (J.IR store).op1.toNat).op2.toNat
  let xkref := (J.IR xref).op2.toNat
  loadop = .hload ∧ irt_sametype (J.IR skref).t (J.IR xkref).t = false ∨
    skref ≠ xkref ∧ irref_isk skref ∧ irref_isk xkref

/-- The load or store that a result of 1 rests on. -/
structure Decisive (J : JitState) (loadop : IROp) (xref ref : IRRef) : Prop where
  after : xref < ref
  inside : ref < J.nins
  kind : (J.IR ref).o = loadop.store ∨ (J.IR ref).o = loadop
  same : (J.IR ref).op1.toNat = xref
  notNil : irt_isnil (J.IR ref).t = false
  stores : ∀ store, ref < store → store < J.nins → (J.IR store).o = loadop.store → irt_isnil (J.IR store).t →
    PassedOver J loadop xref store

theorem passedOver_of_none {store : IRRef} (isLoad : loadop = .aload ∨ loadop = .hload)
    (none : wasStored J loadop xref store = Option.none) (isNil : irt_isnil (J.IR store).t) :
    PassedOver J loadop xref store := by
  unfold wasStored at none
  dsimp only at none
  split at none
  · contradiction
  · split at none
    · split at none
      · contradiction
      · rename_i different
        simp only [not_or, not_not] at different
        exact .inr different
    · rename_i notType
      simp only [not_or, Bool.not_eq_true] at notType
      exact .inl ⟨isLoad.resolve_left notType.1, notType.2⟩

theorem wasStored_true {ref : IRRef} (isTrue : wasStored J loadop xref ref = some true) :
    (J.IR ref).op1.toNat = xref ∧ irt_isnil (J.IR ref).t = false := by
  unfold wasStored at isTrue
  dsimp only at isTrue
  split at isTrue
  · rename_i same
    exact ⟨same, by simpa using isTrue⟩
  · split at isTrue
    · split at isTrue
      · split at isTrue
        · simp at isTrue
        · contradiction
      · contradiction
    · contradiction

theorem wasLoaded_true {ref : IRRef} (isTrue : wasLoaded J xref ref = some true) :
    (J.IR ref).op1.toNat = xref ∧ irt_isnil (J.IR ref).t = false := by
  unfold wasLoaded at isTrue
  dsimp only at isTrue
  split at isTrue
  · rename_i same
    exact ⟨same, by simpa using isTrue⟩
  · contradiction

/-- What a search has passed when it comes to an instruction that is not newer: all newer ones. -/
theorem mem_before {op : IROp} (notConst : op.isConst = false) {before after : List IRRef} {lim other : IRRef}
    (parts : J.refs op = before ++ after) (ends : ∀ ref ∈ after.head?, ref ≤ lim) (member : other ∈ J.refs op)
    (newer : lim < other) : other ∈ before := by
  have sorted := JitState.refs_pairwise J op
  rw [notConst, parts] at sorted
  rw [parts] at member
  rcases List.mem_append.mp member with inBefore | here
  · exact inBefore
  · cases after with
    | nil => cases here
    | cons ref after =>
        have low : ref ≤ lim := ends ref rfl
        rcases List.mem_cons.mp here with equal | inAfter
        · exact absurd newer (not_lt.mpr (equal ▸ low))
        · have older := List.rel_of_pairwise_cons (List.pairwise_append.mp sorted).2.1 inAfter
          simp only [Bool.false_eq_true, if_false] at older
          exact absurd newer (not_lt.mpr (le_trans (le_of_lt older) low))

/-- A result of 1 rests on a load or store of a value that is not nil, and all newer nil stores have been passed. -/
theorem wasnonnil_decisive (linked : J.Linked) (isLoad : loadop = .aload ∨ loadop = .hload) (first : REF_FIRST ≤ xref)
    (returns : lj_opt_fwd_wasnonnil J loadop xref = some true) : ∃ ref, Decisive J loadop xref ref := by
  have kinds : loadop.store ≠ .nop ∧ loadop.store ≠ .kpri ∧ loadop.store.isConst = false ∧
      loadop ≠ .nop ∧ loadop ≠ .kpri ∧ loadop.isConst = false := by
    rcases isLoad with rfl | rfl <;> decide
  have ⟨storeNop, storePri, storeConst, loadNop, loadPri, loadConst⟩ := kinds
  have none0 : decide (xref < 0) = false := by simp
  have ⟨stored, isStored, storeSplits⟩ :=
    linked.follow loadop.store storeNop storePri (fun ref => xref < ref) (wasStored J loadop xref) none0
  have onChain {store : IRRef} (above : xref < store) (below : store < J.nins) (isStore : (J.IR store).o = loadop.store) :
      store ∈ J.refs loadop.store := by
    have low : J.nk ≤ store := le_trans linked.middle (le_trans (Nat.le_succ _) (le_trans first (le_of_lt above)))
    exact linked.mem_refs.mpr ⟨low, below, JitState.has_of_o isStore storeNop⟩
  rw [lj_opt_fwd_wasnonnil, isStored] at returns
  cases stored with
  | hit link ref result =>
      have ⟨before, after, parts, _, passed, more, decided⟩ := storeSplits
      have returns : result = true := by simpa using returns
      subst returns
      have ⟨same, notNil⟩ := wasStored_true decided
      have member : ref ∈ J.refs loadop.store := by
        rw [parts]
        exact List.mem_append_right _ List.mem_cons_self
      have ⟨_, inside, has⟩ := linked.mem_refs.mp member
      refine ⟨ref, of_decide_eq_true more, inside, .inl (JitState.has_o has), same, notNil, ?_⟩
      intro store newer below isStore isNil
      have inBefore := mem_before storeConst parts (by simp) (onChain (lt_trans (of_decide_eq_true more) newer) below isStore) newer
      exact passedOver_of_none isLoad (passed store inBefore).2 isNil
  | ended link =>
      have ⟨before, after, parts, _, passed, ends⟩ := storeSplits
      have ⟨loaded, isLoaded, loadSplits⟩ :=
        linked.follow loadop loadNop loadPri (fun ref => xref < ref) (wasLoaded J xref) none0
      dsimp only at returns
      rw [isLoaded] at returns
      cases loaded with
      | ended link => simp at returns
      | hit link ref result =>
          have ⟨before', after', parts', _, _, more, decided⟩ := loadSplits
          have returns : result = true := by simpa using returns
          subst returns
          have ⟨same, notNil⟩ := wasLoaded_true decided
          have member : ref ∈ J.refs loadop := by
            rw [parts']
            exact List.mem_append_right _ List.mem_cons_self
          have ⟨_, inside, has⟩ := linked.mem_refs.mp member
          refine ⟨ref, of_decide_eq_true more, inside, .inr (JitState.has_o has), same, notNil, ?_⟩
          intro store newer below isStore isNil
          have above : xref < store := lt_trans (of_decide_eq_true more) newer
          have inBefore := mem_before storeConst parts
            (fun r head => not_lt.mp (of_decide_eq_false (ends r head))) (onChain above below isStore) above
          exact passedOver_of_none isLoad (passed store inBefore).2 isNil

/-! ## The value in the slot -/

variable {Object Key : Type} {run : TableRun J Object Key}

/-- A store that the search takes for one to another key, or does not look at: its key is wrapped in another way than
that of the reference, or it goes into the other part of tables. -/
def Overlooked (J : JitState) (loadop : IROp) (xref store : IRRef) : Prop :=
  let skref := (J.IR (J.IR store).op1.toNat).op2.toNat
  let xkref := (J.IR xref).op2.toNat
  (J.IR store).o ≠ loadop.store ∨ skref ≠ xkref ∧ ((J.IR skref).o = .kslot ∨ (J.IR xkref).o = .kslot)

/-- Keys that are not wrapped differ when a store has been passed. -/
theorem place_ne_of_passed (isTable : J.TableIR) (recorded : J.Recorded xref) {store : IRRef} (inside : J.Recorded store)
    (kind : loadop = .aload ∧ (J.IR xref).o = .aref ∨ loadop = .hload ∧ (J.IR xref).o.isHref)
    (isStore : (J.IR store).o = loadop.store) (passed : PassedOver J loadop xref store)
    (seen : ¬Overlooked J loadop xref store) : run.target store ≠ run.place xref := by
  intro same
  have sameKey : run.key (J.xkey (J.IR store).op1.toNat) = run.key (J.xkey xref) := congrArg Prod.snd same
  simp only [Overlooked, not_or, not_and, not_not] at seen
  have ⟨_, plain⟩ := seen
  have different : (J.IR (J.IR store).op1.toNat).op2.toNat ≠ (J.IR xref).op2.toNat := by
    rcases passed with ⟨_, types⟩ | ⟨different, _⟩
    · intro equal
      rw [equal] at types
      simp [irt_sametype] at types
    · exact different
  have ⟨plainStore, plainRef⟩ := plain different
  have storeKey : J.xkey (J.IR store).op1.toNat = (J.IR (J.IR store).op1.toNat).op2.toNat := if_neg plainStore
  have refKey : J.xkey xref = (J.IR xref).op2.toNat := if_neg plainRef
  have tabStore : (J.IR store).o.isTabStore := by
    rw [isStore]
    rcases kind with ⟨rfl, _⟩ | ⟨rfl, _⟩ <;> rfl
  have ⟨low, older⟩ := isTable.older store inside (.inr tabStore)
  have operand : J.Recorded (J.IR store).op1.toNat := ⟨low, lt_trans older inside.2⟩
  rcases passed with ⟨hash, types⟩ | ⟨_, storeConst, refConst⟩
  · subst hash
    have isHref : (J.IR xref).o.isHref := by
      rcases kind with ⟨_, _⟩ | ⟨_, isHref⟩
      · contradiction
      · exact isHref
    have storeType := run.typed _ operand (isTable.hash store inside (.inr isStore))
    have refType := run.typed xref recorded isHref
    have types' := storeType.symm.trans ((congrArg run.type sameKey).trans refType)
    rw [storeKey, refKey] at types'
    simp [irt_sametype, types'] at types
  · rw [← storeKey] at storeConst different
    rw [← refKey] at refConst different
    have sameKind : (J.IR (J.IR store).op1.toNat).o.isHref ∧ (J.IR xref).o.isHref ∨
        (J.IR (J.IR store).op1.toNat).o = .aref ∧ (J.IR xref).o = .aref := by
      rcases kind with ⟨array, isAref⟩ | ⟨hash, isHref⟩
      · subst array
        exact .inr ⟨isTable.array store inside (.inr isStore), isAref⟩
      · subst hash
        exact .inl ⟨isTable.hash store inside (.inr isStore), isHref⟩
    exact run.constants _ _ operand recorded sameKind storeConst refConst different sameKey

variable [DecidableEq Object] [DecidableEq Key]

/-- A nil store to the slot of a reference, without a later store there. -/
def Cleared (run : TableRun J Object Key) (loadop : IROp) (xref : IRRef) : Prop :=
  ∃ store, run.LastStore (run.place xref) (xref + 1) J.nins store ∧ irt_isnil (J.IR store).t ∧
    Overlooked J loadop xref store

/-- Where the analysis says so, the slot is not nil, unless the last store there is an overlooked nil store. -/
theorem lj_opt_fwd_wasnonnil_iff (isTable : J.TableIR) (guards : run.GuardsHold) (recorded : J.Recorded xref)
    (kind : loadop = .aload ∧ (J.IR xref).o = .aref ∨ loadop = .hload ∧ (J.IR xref).o.isHref)
    (returns : lj_opt_fwd_wasnonnil J loadop xref = some true) :
    run.nilAt J.nins (run.place xref) = false ↔ ¬Cleared run loadop xref := by
  have isLoad : loadop = .aload ∨ loadop = .hload := kind.imp And.left And.left
  constructor
  · intro notNil ⟨store, isLast, isNil, _⟩
    rw [isLast.nilAt (Nat.le_succ_of_le recorded.1), isNil] at notNil
    contradiction
  · intro notCleared
    have ⟨ref, decisive⟩ := wasnonnil_decisive isTable.linked isLoad recorded.1 returns
    have inside : REF_FIRST ≤ ref := le_trans recorded.1 (le_of_lt decisive.after)
    have target : run.target ref = run.place xref := congrArg run.place decisive.same
    -- The value that has been stored or loaded.
    have found : run.nilAt (ref + 1) (run.place xref) = false := by
      rcases decisive.kind with isStore | isLoad'
      · have tabStore : (J.IR ref).o.isTabStore := by
          rw [isStore]
          rcases isLoad with rfl | rfl <;> rfl
        rw [TableRun.nilAt_store inside tabStore, target, update_self]
        exact decisive.notNil
      · have tabLoad : (J.IR ref).o.isTabLoad ∧ ¬(J.IR ref).o.isTabStore := by
          rw [isLoad']
          rcases isLoad with rfl | rfl <;> decide
        rw [TableRun.nilAt_other inside tabLoad.2, ← target, guards ref ⟨inside, decisive.inside⟩ tabLoad.1]
        exact decisive.notNil
    rcases TableRun.nilAt_cases (run.place xref) (Nat.le_succ_of_le inside) decisive.inside with same | ⟨store, isLast, value⟩
    · exact same.trans found
    · rw [value]
      by_contra isNil
      have isNil : irt_isnil (J.IR store).t = true := by simpa using isNil
      have after : xref + 1 ≤ store := le_trans (Nat.le_succ_of_le decisive.after) isLast.low
      apply notCleared
      refine ⟨store, { isLast with low := after }, isNil, ?_⟩
      by_contra seen
      have isStore : (J.IR store).o = loadop.store := by
        by_contra other
        exact seen (.inl other)
      have passed := decisive.stores store isLast.low isLast.high isStore isNil
      have above : J.Recorded store := ⟨le_trans (Nat.le_succ_of_le inside) isLast.low, isLast.high⟩
      exact place_ne_of_passed isTable recorded above kind isStore passed seen isLast.target

end

/-! ## A nil store through a wrapped key -/

def IRT_STR : IRType1 := 4
def IRT_TAB : IRType1 := 11

/-- The string constant and the key that wraps it. -/
def wrappedKey : JitState :=
  ((emptyTrace.addK .kgc IRT_STR (.bits 0x1000)).1.addK .kslot IRT_P32 (.bits (IRREF2 (.of (REF_TRUE - 1)) 0))).1

/-- `t2.x` is created by a NEWREF and set. Then `t1.x` is loaded with a HREFK, and `t2.x` is set to nil. -/
def aliasedCode : List IRIns :=
  [⟨IRREF2 1 0, IRT_TAB, .sload, 0⟩,
   ⟨IRREF2 2 0, IRT_TAB, .sload, 0⟩,
   ⟨IRREF2 3 0, IRT_NUM, .sload, 0⟩,
   ⟨IRREF2 (.of (REF_FIRST + 1)) (.of (REF_TRUE - 1)), IRT_P32, .newref, 0⟩,
   ⟨IRREF2 (.of (REF_FIRST + 3)) (.of (REF_FIRST + 2)), IRT_NUM, .hstore, 0⟩,
   ⟨IRREF2 (.of REF_FIRST) 3, IRT_P32, .fload, 0⟩,
   ⟨IRREF2 (.of (REF_FIRST + 5)) (.of (REF_TRUE - 2)), IRT_P32 ||| IRT_GUARD, .hrefk, 0⟩,
   ⟨IRREF2 (.of (REF_FIRST + 6)) 0, IRT_NUM ||| IRT_GUARD, .hload, 0⟩,
   ⟨IRREF2 (.of (REF_FIRST + 3)) (.of REF_NIL), IRT_NIL, .hstore, 0⟩]

def aliasedTables : JitState := aliasedCode.foldl (fun J ir => (lj_ir_emit J ir).1) wrappedKey

theorem aliasedTables_linked : aliasedTables.Linked := by
  have emitAll (code : List IRIns) (J : JitState) (linked : J.Linked) (notConst : ∀ ir ∈ code, ir.o.isConst = false)
      (room : J.nins + code.length ≤ 0x10000) : (code.foldl (fun J ir => (lj_ir_emit J ir).1) J).Linked := by
    induction code generalizing J with
    | nil => exact linked
    | cons ir code induction =>
        rw [List.length_cons] at room
        apply induction
        · exact linked.emit (notConst ir List.mem_cons_self) (by lia)
        · exact fun other member => notConst other (List.mem_cons_of_mem _ member)
        · rw [nins_emit]
          lia
  have key : (emptyTrace.addK .kgc IRT_STR (.bits 0x1000)).1.Linked :=
    JitState.Linked.addK linked_setup rfl (by decide)
  have wrapped : wrappedKey.Linked := JitState.Linked.addK key rfl (by decide)
  exact emitAll aliasedCode wrappedKey wrapped (by decide) (by decide)

theorem aliasedTables_all {P : IRRef → Prop} (all : ∀ i, i < 9 → P (REF_FIRST + i)) :
    ∀ ref, aliasedTables.Recorded ref → P ref := by
  intro ref ⟨low, high⟩
  have high : ref < REF_FIRST + 9 := high
  rw [← Nat.add_sub_cancel' low]
  exact all _ (by lia)

theorem aliasedTables_isTable : aliasedTables.TableIR where
  linked := aliasedTables_linked
  older := aliasedTables_all (by decide)
  array := aliasedTables_all (by decide)
  hash := aliasedTables_all (by decide)

/-- Both tables are one, and all keys are the string. -/
def aliasedRun : TableRun aliasedTables Unit Unit where
  object _ := ()
  key _ := ()
  type _ := IRT_STR
  typed := aliasedTables_all (by decide)
  constants := by
    have same : ∀ ref, aliasedTables.Recorded ref → (aliasedTables.IR ref).o.isHref ∨ (aliasedTables.IR ref).o = .aref →
        aliasedTables.xkey ref = REF_TRUE - 1 := aliasedTables_all (by decide)
    intro ref ref' recorded recorded' kinds _ _ different
    have key := same ref recorded (kinds.imp And.left And.left)
    have key' := same ref' recorded' (kinds.imp And.right And.right)
    exact absurd (key.trans key'.symm) different
  start _ := true

theorem aliasedRun_guards : aliasedRun.GuardsHold := aliasedTables_all (by decide)

theorem aliasedTables_returns : lj_opt_fwd_wasnonnil aliasedTables .hload (REF_FIRST + 6) = some true := by decide

theorem aliasedTables_recorded : aliasedTables.Recorded (REF_FIRST + 6) := ⟨by decide, by decide⟩

theorem aliasedTables_iff : aliasedRun.nilAt aliasedTables.nins (aliasedRun.place (REF_FIRST + 6)) = false ↔
    ¬Cleared aliasedRun .hload (REF_FIRST + 6) :=
  lj_opt_fwd_wasnonnil_iff aliasedTables_isTable aliasedRun_guards aliasedTables_recorded
    (.inr ⟨rfl, by decide⟩) aliasedTables_returns

/-- The slot is nil, although the analysis says that it is not. -/
theorem nil_store_overlooked : ¬∀ (J : JitState) (run : TableRun J Unit Unit) (xref : IRRef), J.TableIR → run.GuardsHold →
    J.Recorded xref → (J.IR xref).o.isHref → lj_opt_fwd_wasnonnil J .hload xref = some true →
    run.nilAt J.nins (run.place xref) = false := by
  intro exact
  have notNil := exact aliasedTables aliasedRun (REF_FIRST + 6) aliasedTables_isTable aliasedRun_guards
    aliasedTables_recorded (by decide) aliasedTables_returns
  revert notNil
  decide

end TvmJit
