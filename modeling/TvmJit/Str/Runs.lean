import TvmJit.Str.New
import TvmJit.Str.Sweep

/-! Interning while the collector sweeps and the table is resized. -/

namespace TvmJit

open Foundation Function

/-- What a program and the collector do with strings. -/
inductive StrAct
  | strNew (str : CharPtr) (len : Nat) (alloc : StrAlloc)
  | resize (newmask : BitVec 32) (table : Bool)
  | mark (s : StrRef)
  | fix (s : StrRef)
  /-- A new cycle starts. -/
  | markStart
  /-- Nothing gray is left. -/
  | propagated
  | atomic
  | sweepstring
  | sweepEnd (mmudata table : Bool)
  | finalized
  /-- `lj_gc_fullgc` gives up the mark phase. -/
  | fastForward

namespace StrState

variable {S S' S'' T : StrState} {lists : BitVec 32 → List StrRef} {s : StrRef} {o o' : StrObj}
  {str : CharPtr} {len : Nat} {alloc : StrAlloc} {act : StrAct} {acts later : List StrAct}

/-- The strings in the chain of a bucket. -/
def chain (S : StrState) (i : BitVec 32) : List StrRef := collect S.nexts 0 bucketSteps (S.strhash i)

section

variable [Target]

def step (S : StrState) : StrAct → Option StrState
  | .strNew str len alloc => (S.lj_str_new str len alloc).map Prod.fst
  | .resize newmask table =>
      match S.lj_str_resize newmask table with
      | none => none
      | some (.error _) => some S
      | some (.ok S') => some S'
  | .mark s => if (S.str s).isSome then some (S.gc_mark_str s) else none
  | .fix s => if (S.str s).isSome then some (S.fixstring s) else none
  | .markStart => if S.state = .pause then some { S with state := .propagate } else none
  | .propagated => if S.state = .propagate then some { S with state := .atomic } else none
  | .atomic => if S.state = .atomic then some S.flip else none
  | .sweepstring => if S.state = .sweepstring then some S.sweepstringStep else none
  | .sweepEnd mmudata table =>
      if S.state = .sweep then
        match S.sweepEnd mmudata table with
        | none => none
        | some (.error _) => some S
        | some (.ok S') => some S'
      else none
  | .finalized => if S.state = .finalize then some { S with state := .pause } else none
  | .fastForward =>
      if S.state = .pause ∨ S.state = .propagate ∨ S.state = .atomic then
        some { S with state := .sweepstring, sweepstr := 0 }
      else none

/-- What has been done from a state on, the latest first. -/
inductive Reaches (S : StrState) : List StrAct → StrState → Prop
  | start : Reaches S [] S
  | step {act : StrAct} {acts : List StrAct} {S' S'' : StrState} (before : Reaches S acts S')
      (step : S'.step act = some S'') : Reaches S (act :: acts) S''

/-- What has been done from a state on without freeing a string. -/
inductive Keeps (s : StrRef) (S : StrState) : List StrAct → StrState → Prop
  | start (isString : (S.str s).isSome = true) : Keeps s S [] S
  | step {act : StrAct} {acts : List StrAct} {S' S'' : StrState} (before : Keeps s S acts S')
      (step : S'.step act = some S'') (isString : (S''.str s).isSome = true) :
      Keeps s S (act :: acts) S''

/-- `lj_state_open` has made the first table. -/
def Start (S : StrState) : Prop :=
  ∃ S₀ : StrState, (∀ s, S₀.str s = none) ∧ S₀.strmask = ~~~0 ∧ S₀.strnum = 0 ∧
    (whites S₀.currentwhite = 1 ∨ whites S₀.currentwhite = 2) ∧ S₀.state = .pause ∧
    S₀.lj_str_resize (LJ_MIN_STRTAB - 1) true = some (.ok S)

/-! ## Steps -/

/-- What holds between any two steps. -/
structure Inv (S : StrState) : Prop where
  sound : ∃ lists, Sound S lists
  /-- The sweep has not left the table. -/
  inside : S.state = .sweepstring → S.sweepstr ≤ S.strmask

/-- What a step does. -/
structure Stepped (S S' : StrState) : Prop where
  inv : Inv S'
  strings : ∀ s o, S.str s = some o →
    (S'.str s = none ∧ S.isdead o = true) ∨ ∃ o', S'.str s = some o' ∧ core o = core o'

theorem Inv.grows (inv : Inv S) (sound : ∃ lists, Sound S' lists) (grows : Grows S S') :
    Stepped S S' where
  inv := by
    refine ⟨sound, fun sweeping => ?_⟩
    obtain ⟨-, mask, sweepstr⟩ := grows.sweeping (grows.started sweeping)
    rw [mask, sweepstr]
    exact inv.inside (grows.started sweeping)
  strings s o here := by
    obtain ⟨o', there, same, -⟩ := grows.strings s o here
    exact .inr ⟨o', there, same⟩

theorem Inv.resize (inv : Inv S) {newmask : BitVec 32} {table : Bool}
    (ran : S.lj_str_resize newmask table = some (.ok S')) : (∃ lists, Sound S' lists) ∧ Resized S S' := by
  obtain ⟨lists, sound⟩ := inv.sound
  rcases resize_spec sound newmask table with failed | ⟨T, lists', resize, sound', resized⟩
  · rw [failed] at ran
    cases ran
  · rw [resize] at ran
    cases ran
    exact ⟨⟨lists', sound'⟩, resized⟩

/-- Another phase of the collector, perhaps with another white. -/
theorem Inv.phase (inv : Inv S) (str : S'.str = S.str) (strhash : S'.strhash = S.strhash)
    (strmask : S'.strmask = S.strmask) (strnum : S'.strnum = S.strnum)
    (white : whites S'.currentwhite = whites S.currentwhite ∨
      whites S'.currentwhite = whites S.currentwhite ^^^ 3)
    (inside : S'.state = .sweepstring → S'.sweepstr ≤ S'.strmask) : Stepped S S' where
  inv := by
    obtain ⟨lists, sound⟩ := inv.sound
    have whites : whites S.currentwhite = 1 ∨ whites S.currentwhite = 2 →
        whites S'.currentwhite = 1 ∨ whites S'.currentwhite = 2 := by
      rintro (one | two)
      · rw [one] at white
        exact white.imp id fun same => same
      · rw [two] at white
        exact white.symm.imp (fun same => same) id
    have kept : Kept S S' := by
      refine ⟨fun s => by rw [str], fun s o o' here there oneWhite => ?_, strnum, whites⟩
      rw [str, here] at there
      cases there
      exact oneWhite
    have nexts (s : StrRef) : S'.nexts s = S.nexts s := by
      rw [StrState.nexts, StrState.nexts, get, get, str]
    exact ⟨⟨lists, kept.sound_of_links sound strhash (fun s _ => nexts s) strmask⟩, inside⟩
  strings s o here := .inr ⟨o, by rw [str, here], rfl⟩

theorem Inv.recolour (inv : Inv S) (isString : (S.str s).isSome = true) {marked : BitVec 8}
    (oneWhite : whites (S.get s).marked ≠ 3 → whites marked ≠ 3) :
    Stepped S (S.set s { S.get s with marked }) := by
  obtain ⟨lists, sound⟩ := inv.sound
  obtain ⟨o, here⟩ := Option.isSome_iff_exists.mp isString
  have same := get_eq here
  rw [same] at oneWhite
  rw [same]
  refine ⟨⟨⟨lists, sound.recolour here (oneWhite (sound.formed s o here).oneWhite)⟩, inv.inside⟩,
    fun w q there => .inr ?_⟩
  rw [str_set]
  split
  · rename_i isHere
    rw [isHere] at there
    cases here.symm.trans there
    exact ⟨_, rfl, rfl⟩
  · exact ⟨q, there, rfl⟩

/-- One chain is swept. -/
theorem Inv.sweepstring (inv : Inv S) (sweeping : S.state = .sweepstring) :
    Stepped S S.sweepstringStep := by
  obtain ⟨lists, sound⟩ := inv.sound
  obtain ⟨lists', sound', swept⟩ := fullsweep_spec sound S.sweepstr
  have few : (S.gc_fullsweep S.sweepstr).sweepstr ≤ (S.gc_fullsweep S.sweepstr).strmask := by
    rw [swept.sweepstr, swept.strmask]
    exact inv.inside sweeping
  have before : Inv (S.gc_fullsweep S.sweepstr) := ⟨⟨lists', sound'⟩, fun _ => few⟩
  rw [sweepstringStep]
  dsimp only
  split
  · next last =>
      have after : Stepped _ { S.gc_fullsweep S.sweepstr with
          sweepstr := (S.gc_fullsweep S.sweepstr).sweepstr + 1, state := .sweep } :=
        before.phase rfl rfl rfl rfl (.inl rfl) (fun sweeping => nomatch sweeping)
      exact ⟨after.inv, swept.strings⟩
  · next more =>
      have after : Stepped _ { S.gc_fullsweep S.sweepstr with
          sweepstr := (S.gc_fullsweep S.sweepstr).sweepstr + 1 } :=
        before.phase rfl rfl rfl rfl (.inl rfl) (fun _ => BitVec.not_lt.mp more)
      exact ⟨after.inv, swept.strings⟩

theorem Inv.sweepEnd (inv : Inv S) {mmudata table : Bool}
    (ran : S.sweepEnd mmudata table = some (.ok S')) : Stepped S S' := by
  have last (T : StrState) (inv : Inv T) :
      Stepped T { T with state := if mmudata then .finalize else .pause } := by
    refine inv.phase rfl rfl rfl rfl (.inl rfl) fun sweeping => ?_
    cases mmudata <;> cases sweeping
  rw [StrState.sweepEnd] at ran
  split at ran
  · cases resize : S.lj_str_resize (S.strmask >>> 1) table with
    | none =>
        rw [resize] at ran
        cases ran
    | some outcome =>
        rw [resize] at ran
        cases outcome with
        | error e => cases ran
        | ok T =>
            cases ran
            obtain ⟨sound, resized⟩ := inv.resize resize
            have shrunk := inv.grows sound resized.grows
            exact ⟨(last T shrunk.inv).inv, shrunk.strings⟩
  · cases ran
    exact last S inv

theorem Inv.step (inv : Inv S) (step : S.step act = some S') : Stepped S S' := by
  have same : Stepped S S := ⟨inv, fun s o here => .inr ⟨o, here, rfl⟩⟩
  cases act with
  | strNew str len alloc =>
      obtain ⟨⟨T, result⟩, ran, rfl⟩ := Option.map_eq_some_iff.mp step
      obtain ⟨lists, sound⟩ := inv.sound
      obtain ⟨sound', grows, -⟩ := new_spec sound ran
      exact inv.grows sound' grows
  | resize newmask table =>
      rw [StrState.step] at step
      cases ran : S.lj_str_resize newmask table with
      | none =>
          rw [ran] at step
          cases step
      | some outcome =>
          rw [ran] at step
          cases outcome with
          | error e =>
              cases step
              exact same
          | ok T =>
              cases step
              obtain ⟨sound, resized⟩ := inv.resize ran
              exact inv.grows sound resized.grows
  | mark s =>
      rw [StrState.step] at step
      split at step
      · next isString =>
          cases step
          refine inv.recolour isString fun _ => ?_
          rw [whites_and]
          have none : whites (~~~LJ_GC_WHITES) = 0#8 := rfl
          rw [none, BitVec.and_zero]
          decide
      · cases step
  | fix s =>
      rw [StrState.step] at step
      split at step
      · next isString =>
          cases step
          refine inv.recolour isString fun oneWhite => ?_
          rw [whites_or]
          have none : whites LJ_GC_FIXED = 0#8 := rfl
          rw [none, BitVec.or_zero]
          exact oneWhite
      · cases step
  | markStart =>
      rw [StrState.step] at step
      split at step
      · cases step
        exact inv.phase rfl rfl rfl rfl (.inl rfl) (fun sweeping => nomatch sweeping)
      · cases step
  | propagated =>
      rw [StrState.step] at step
      split at step
      · cases step
        exact inv.phase rfl rfl rfl rfl (.inl rfl) (fun sweeping => nomatch sweeping)
      · cases step
  | atomic =>
      rw [StrState.step] at step
      split at step
      · cases step
        exact inv.phase rfl rfl rfl rfl (.inr (whites_xor ..)) (fun _ => BitVec.le_def.mpr (Nat.zero_le _))
      · cases step
  | sweepstring =>
      rw [StrState.step] at step
      split at step
      · next sweeping =>
          cases step
          exact inv.sweepstring sweeping
      · cases step
  | sweepEnd mmudata table =>
      rw [StrState.step] at step
      split at step
      · cases ran : S.sweepEnd mmudata table with
        | none =>
            rw [ran] at step
            cases step
        | some outcome =>
            rw [ran] at step
            cases outcome with
            | error e =>
                cases step
                exact same
            | ok T =>
                cases step
                exact inv.sweepEnd ran
      · cases step
  | finalized =>
      rw [StrState.step] at step
      split at step
      · cases step
        exact inv.phase rfl rfl rfl rfl (.inl rfl) (fun sweeping => nomatch sweeping)
      · cases step
  | fastForward =>
      rw [StrState.step] at step
      split at step
      · cases step
        exact inv.phase rfl rfl rfl rfl (.inl rfl) (fun _ => BitVec.le_def.mpr (Nat.zero_le _))
      · cases step

/-! ## Runs -/

omit [Target] in
/-- The first table is empty. -/
theorem open_eq (mask : S.strmask = ~~~0) (state : S.state = .pause) :
    S.lj_str_resize (LJ_MIN_STRTAB - 1) true =
      some (.ok { S with strmask := LJ_MIN_STRTAB - 1, strhash := fun _ => 0 }) := by
  have small : ¬(S.state = .sweepstring ∨ LJ_MIN_STRTAB - 1 ≥ LJ_MAX_STRTAB - 1) := by
    rw [state]
    decide
  have noTable : (S.strmask + 1).toNat = 0 := by
    rw [mask]
    rfl
  rw [lj_str_resize, if_neg small, if_neg (by decide), noTable]
  rfl

theorem Start.inv (start : Start S) : Inv S := by
  obtain ⟨S₀, none, mask, num, white, state, opened⟩ := start
  rw [open_eq mask state] at opened
  cases opened
  have noStrings (s : StrRef) : ¬(S₀.str s).isSome = true := by simp [none]
  refine ⟨⟨fun _ => [], ⟨fun _ => rfl, fun i s => ?_⟩, fun s o here => ?_, fun s o _ _ here => ?_, ?_, white, ?_⟩,
    fun sweeping => ?_⟩
  · exact iff_of_false List.not_mem_nil fun both => noStrings s both.1
  · cases (none s).symm.trans here
  · cases (none s).symm.trans here
  · have empty : S₀.allocated = ∅ := Finset.filter_eq_empty_iff.mpr fun s _ => noStrings s
    change S₀.strnum.toNat = S₀.allocated.card
    rw [num, empty]
    rfl
  · change LJ_MIN_STRTAB - 1 < LJ_MAX_STRTAB - 1
    decide
  · change S₀.state = .sweepstring at sweeping
    rw [state] at sweeping
    cases sweeping

theorem Reaches.inv (inv : Inv S) (run : Reaches S acts S') : Inv S' := by
  induction run with
  | start => exact inv
  | step before step induction => exact (induction.step step).inv

/-- A string that is not freed keeps its bytes. -/
theorem Keeps.string (inv : Inv S) (run : Keeps s S acts S') (here : S.str s = some o) :
    Inv S' ∧ ∃ o', S'.str s = some o' ∧ core o = core o' := by
  induction run with
  | start isString => exact ⟨inv, o, here, rfl⟩
  | step before step isString induction =>
      obtain ⟨inv', o', there, same⟩ := induction
      have stepped := inv'.step step
      rcases stepped.strings s o' there with ⟨gone, -⟩ | ⟨o'', there', same'⟩
      · rw [gone] at isString
        cases isString
      · exact ⟨stepped.inv, o'', there', same.trans same'⟩

omit [Target] in
theorem chain_eq [Target] (sound : Sound S lists) (i : BitVec 32) : S.chain i = lists i :=
  (sound.buckets.chain i).collect_eq (sound.chain_lt i)

/-- The string table between any two steps: strings are in the chains of their hashes, no two
have equal bytes, and they are counted. A string that has been interned is returned for its bytes
as long as it is not freed, and only dead strings are freed. -/
theorem interning (start : Start S) (run : Reaches S acts S') :
    (∀ i, ∀ s ∈ S'.chain i, (S'.str s).isSome = true ∧ (S'.get s).hash &&& S'.strmask = i) ∧
    (∀ s o, S'.str s = some o →
      o.hash = strHash o.data o.len ∧ s ∈ S'.chain (o.hash &&& S'.strmask)) ∧
    (∀ s o s' o', S'.str s = some o → S'.str s' = some o' → o.len = o'.len →
      (∀ j < o.len, o.data j = o'.data j) → s = s') ∧
    S'.strnum.toNat = ((indices (S'.strmask.toNat + 1)).map fun i => (S'.chain i).length).sum ∧
    (∀ str len alloc, S'.Fresh alloc → ∃ T result, S'.lj_str_new str len alloc = some (T, result)) ∧
    (∀ str len alloc T s, S'.lj_str_new str len alloc = some (T, .ok s) →
      Returns T str len (.ok s) ∧
      ∀ later T', Keeps s T later T' → ∀ str' alloc', (∀ j < len, str'.byte j = str.byte j) →
        ∃ T'', T'.lj_str_new str' len alloc' = some (T'', .ok s) ∧ Returns T'' str' len (.ok s)) ∧
    ∀ act T s o, S'.step act = some T → S'.str s = some o → S'.isdead o = false →
      (T.str s).isSome = true := by
  have inv := run.inv start.inv
  obtain ⟨lists, sound⟩ := inv.sound
  have chains := chain_eq sound
  have below (i : BitVec 32) : i &&& S'.strmask ∈ indices (S'.strmask.toNat + 1) := by
    apply mem_indices
    rw [BitVec.toNat_and]
    exact Nat.lt_succ_of_le Nat.and_le_right
  refine ⟨fun i s member => ?_, fun s o here => ?_, fun s o s' o' here here' sameLen same => ?_, ?_,
    fun str len alloc fresh => ?_, fun str len alloc T s ran => ?_, fun act T s o step here alive => ?_⟩
  · rw [chains] at member
    exact (sound.buckets.listed i s).mp member
  · refine ⟨(sound.formed s o here).hash, ?_⟩
    rw [chains, ← get_eq here]
    exact sound.buckets.mem (by rw [here]; rfl)
  · exact sound.distinct s o s' o' here here' ⟨sameLen, same⟩
  · have counted := sound.buckets.sum_length (nodup_indices S'.strmask.isLt) fun s _ => below (S'.get s).hash
    simp only [chains]
    rw [sound.num, counted]
    rfl
  · obtain ⟨⟨T, result⟩, ran⟩ := Option.isSome_iff_exists.mp (new_isSome sound str len fresh)
    exact ⟨T, result, ran⟩
  · obtain ⟨sound', grows, returns⟩ := new_spec sound ran
    refine ⟨returns, fun later T' keeps str' alloc' sameBytes => ?_⟩
    have inv' := (inv.grows sound' grows).inv
    rcases returns with ⟨rfl, rfl⟩ | ⟨nonempty, o, here, -, rfl, same⟩
    · refine ⟨T', ?_, .inl ⟨rfl, rfl⟩⟩
      rw [lj_str_new, if_neg (by decide), if_pos rfl]
    · obtain ⟨inv'', o', there, equal⟩ := keeps.string inv' here
      obtain ⟨lists'', sound''⟩ := inv''.sound
      have sameLen := core_len equal
      have sameBytes' : ∀ j < o'.len, str'.byte j = o'.data j := fun j below => by
        rw [← sameLen] at below
        rw [← core_data equal, same j below, sameBytes j below]
      have found : ∃ T'', T'.lj_str_new str' o'.len alloc' = some (T'', .ok s) := by
        rw [new_found sound'' there sameBytes' alloc']
        split <;> exact ⟨_, rfl⟩
      obtain ⟨T'', ran'⟩ := found
      rw [← sameLen] at ran'
      exact ⟨T'', ran', (new_spec sound'' ran').2.2⟩
  · rcases (inv.step step).strings s o here with ⟨-, dead⟩ | ⟨o', there, -⟩
    · cases alive.symm.trans dead
    · rw [there]
      rfl

end

/-- The buffer that holds `a` everywhere. -/
def letters : CharPtr := ⟨0, fun _ => 0x61⟩

/-- No string has been created yet. -/
def atStart : StrState := ⟨fun _ => none, fun _ => 0, LJ_MIN_STRTAB - 1, 0, 0x21, .pause, 0⟩

/-- The string `a` is dead when it is looked for again. -/
theorem interning_again :
    let _ : Target := ⟨true⟩
    ∃ T T' : StrState, atStart.lj_str_new letters 1 ⟨some 0x100, fun _ => 0, true⟩ = some (T, .ok 0x100) ∧
      Keeps 0x100 T [.atomic, .propagated, .markStart] T' ∧ T'.isdead (T'.get 0x100) = true ∧
      ∀ alloc, ∃ T'', T'.lj_str_new letters 1 alloc = some (T'', .ok 0x100) := by
  intro _
  have start : Start atStart :=
    ⟨{ atStart with strmask := ~~~0 }, fun _ => rfl, rfl, rfl, .inl (by decide), rfl, open_eq rfl rfl⟩
  have new : ∃ T, atStart.lj_str_new letters 1 ⟨some 0x100, fun _ => 0, true⟩ = some (T, .ok 0x100) ∧
      T = atStart.linkNew letters 1 (fun _ => 0) 0x100 := ⟨_, rfl, rfl⟩
  obtain ⟨T, new, isNew⟩ := new
  have keeps : ∃ T', Keeps 0x100 T [.atomic, .propagated, .markStart] T' ∧
      T'.isdead (T'.get 0x100) = true := by
    subst isNew
    exact ⟨_, .step (.step (.step (.start rfl) rfl rfl) rfl rfl) rfl rfl, by decide⟩
  obtain ⟨T', keeps, dead⟩ := keeps
  refine ⟨T, T', new, keeps, dead, fun alloc => ?_⟩
  obtain ⟨T'', again, -⟩ := ((interning start .start).2.2.2.2.2.1 letters 1 _ T 0x100 new).2
    _ T' keeps letters alloc fun _ _ => rfl
  exact ⟨T'', again⟩

end StrState

end TvmJit
