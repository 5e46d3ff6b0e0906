import TvmJit.Str.Resize

/-! `lj_str_new` returns a live string with the bytes it is given, and the one that is there
already if there is one. -/

namespace TvmJit

open Foundation Function

/-- The allocator returns only addresses that are not in use. -/
def StrState.Fresh (S : StrState) (alloc : StrAlloc) : Prop := ∀ s, alloc.str = some s → S.isFree s = true

namespace StrState

variable {S S' S'' : StrState} {lists : BitVec 32 → List StrRef} {s : StrRef} {o : StrObj}
  {str : CharPtr} {len : Nat} {alloc : StrAlloc} {result : Except StrError StrRef}

/-! ## Strings stay -/

/-- Strings stay, with their bytes. -/
structure Grows (S S' : StrState) : Prop where
  strings : ∀ s o, S.str s = some o →
    ∃ o', S'.str s = some o' ∧ core o = core o' ∧ (S.isdead o = false → S'.isdead o' = false)
  sweeping : S.state = .sweepstring → S'.state = .sweepstring ∧ S'.strmask = S.strmask ∧
    S'.sweepstr = S.sweepstr
  started : S'.state = .sweepstring → S.state = .sweepstring

theorem Grows.refl (S : StrState) : Grows S S :=
  ⟨fun _ o here => ⟨o, here, rfl, id⟩, fun sweeping => ⟨sweeping, rfl, rfl⟩, id⟩

theorem Grows.trans (first : Grows S S') (second : Grows S' S'') : Grows S S'' where
  strings s o here := by
    obtain ⟨o', there, same, alive⟩ := first.strings s o here
    obtain ⟨o'', there', same', alive'⟩ := second.strings s o' there
    exact ⟨o'', there', same.trans same', alive' ∘ alive⟩
  sweeping sweeping := by
    obtain ⟨sweeping, mask, sweepstr⟩ := first.sweeping sweeping
    obtain ⟨sweeping, mask', sweepstr'⟩ := second.sweeping sweeping
    exact ⟨sweeping, mask'.trans mask, sweepstr'.trans sweepstr⟩
  started := first.started ∘ second.started

theorem Resized.grows (resized : Resized S S') : Grows S S' where
  strings s o here := by
    obtain ⟨o', there, same⟩ := resized.kept.forward here
    refine ⟨o', there, same, fun alive => ?_⟩
    have marked := resized.marked s
    rw [get_eq there, get_eq here] at marked
    rw [isdead, otherwhite, resized.currentwhite, marked]
    exact alive
  sweeping sweeping := by
    rw [resized.sweeping sweeping]
    exact ⟨sweeping, rfl, rfl⟩
  started sweeping := resized.state ▸ sweeping

/-- A string gets another colour and does not die of it. -/
theorem recolour_grows (here : S.str s = some o) {marked : BitVec 8}
    (alive : S.isdead o = false → S.isdead { o with marked } = false) :
    Grows S (S.set s { o with marked }) := by
  refine ⟨fun w q there => ?_, fun sweeping => ⟨sweeping, rfl, rfl⟩, id⟩
  rw [str_set]
  split
  · rename_i same
    rw [same] at there
    cases here.symm.trans there
    exact ⟨_, rfl, rfl, alive⟩
  · exact ⟨q, there, rfl, id⟩

theorem linkNew_grows [Target] (free : S.str s = none) (str : CharPtr) (len : Nat)
    (junk : Nat → BitVec 8) :
    Grows S (S.linkNew str len junk s) := by
  refine ⟨fun w q there => ?_, fun sweeping => ⟨sweeping, rfl, rfl⟩, id⟩
  rw [str_linkNew, if_neg]
  · exact ⟨q, there, rfl, id⟩
  · rintro rfl
    cases free.symm.trans there

/-- What `lj_str_new` returns is a live string with the bytes. -/
def Returns (S : StrState) (str : CharPtr) (len : Nat) : Except StrError StrRef → Prop
  | .ok s => (len = 0 ∧ s = strempty) ∨ 0 < len ∧
      ∃ o, S.str s = some o ∧ S.isdead o = false ∧ o.len = len ∧ ∀ j < len, o.data j = str.byte j
  | .error _ => True

theorem Returns.grows (returns : Returns S str len result)
    (grows : Grows S S') : Returns S' str len result := by
  cases result with
  | error e => trivial
  | ok s =>
      rcases returns with isEmpty | ⟨nonempty, o, here, alive, sameLen, same⟩
      · exact .inl isEmpty
      · obtain ⟨o', there, equal, alive'⟩ := grows.strings s o here
        refine .inr ⟨nonempty, o', there, alive' alive, core_len equal ▸ sameLen, ?_⟩
        rw [← core_data equal]
        exact same

/-! ## Interning -/

section

variable [Target]

/-- The string is already there. -/
theorem new_found (sound : Sound S lists) (here : S.str s = some o)
    (same : ∀ j < o.len, str.byte j = o.data j) (alloc : StrAlloc) :
    S.lj_str_new str o.len alloc = some
      (if S.isdead o then (S.set s { o with marked := o.marked ^^^ LJ_GC_WHITES }, .ok s)
        else (S, .ok s)) := by
  have formed := sound.formed s o here
  obtain ⟨found, run, end_⟩ := search_spec sound str formed.nonempty
  rw [lj_str_new, if_neg (Nat.not_le.mpr formed.short), if_neg (Nat.ne_of_gt formed.nonempty), run]
  cases found with
  | ended link => exact absurd ⟨rfl, same⟩ (end_ s o here)
  | hit link w result =>
      obtain ⟨q, there, sameLen, same'⟩ := end_
      obtain rfl : s = w := sound.distinct s o w q here there
        ⟨sameLen.symm, fun j below => (same j below).symm.trans (same' j below)⟩
      cases here.symm.trans there
      dsimp only
      rw [get_eq here]
      split <;> rfl

/-- The string is found, or it is created. -/
theorem new_cases (sound : Sound S lists) (nonempty : 0 < len) (short : len < LJ_MAX_STR)
    (str : CharPtr) (alloc : StrAlloc) :
    (∃ s o, S.str s = some o ∧ o.len = len ∧ ∀ j < len, str.byte j = o.data j) ∨
      S.Missing str len ∧ S.lj_str_new str len alloc = S.createStr str len alloc := by
  obtain ⟨found, run, end_⟩ := search_spec sound str nonempty
  cases found with
  | hit link s result =>
      obtain ⟨o, here, same⟩ := end_
      exact .inl ⟨s, o, here, same⟩
  | ended link =>
      refine .inr ⟨end_, ?_⟩
      rw [lj_str_new, if_neg (Nat.not_le.mpr short), if_neg (Nat.ne_of_gt nonempty), run]

theorem create_spec (sound : Sound S lists) (nonempty : 0 < len) (short : len < LJ_MAX_STR)
    (missing : S.Missing str len) (ran : S.createStr str len alloc = some (S', result)) :
    (∃ lists', Sound S' lists') ∧ Grows S S' ∧ Returns S' str len result := by
  rw [createStr] at ran
  cases isNew : alloc.str with
  | none =>
      rw [isNew] at ran
      cases ran
      exact ⟨⟨lists, sound⟩, .refl S, trivial⟩
  | some s =>
      rw [isNew] at ran
      dsimp only at ran
      cases isFree : S.isFree s with
      | false =>
          rw [isFree] at ran
          cases ran
      | true =>
          rw [isFree, if_neg (by decide)] at ran
          obtain ⟨lists', sound'⟩ := sound.linkNew alloc.junk nonempty short missing isFree
          have free : S.str s = none := by
            simp only [StrState.isFree, Option.isNone_iff_eq_none, decide_eq_true_eq] at isFree
            exact isFree.2.2
          have grows := linkNew_grows free str len alloc.junk
          have single : Alive S.currentwhite S.curwhite :=
            .current sound.white (whites_whites S.currentwhite)
          have returns : Returns (S.linkNew str len alloc.junk s) str len (.ok s) := by
            refine .inr ⟨nonempty, S.newString str len alloc.junk, ?_, ?_, rfl, ?_⟩
            · rw [str_linkNew, if_pos rfl]
            · exact (alive_iff (S := S) (o := S.newString str len alloc.junk) single.oneWhite).mpr single
            · exact fun j below => newString_data below
          split at ran
          · rcases resize_spec sound' ((S.linkNew str len alloc.junk s).strmask <<< 1 + 1)
              alloc.table with failed | ⟨T, lists'', resize, sound'', resized⟩
            · rw [failed] at ran
              cases ran
              exact ⟨⟨lists', sound'⟩, grows, trivial⟩
            · rw [resize] at ran
              cases ran
              exact ⟨⟨lists'', sound''⟩, grows.trans resized.grows, returns.grows resized.grows⟩
          · cases ran
            exact ⟨⟨lists', sound'⟩, grows, returns⟩

theorem create_isSome (sound : Sound S lists) (nonempty : 0 < len) (short : len < LJ_MAX_STR)
    (missing : S.Missing str len) (fresh : S.Fresh alloc) :
    (S.createStr str len alloc).isSome = true := by
  rw [createStr]
  cases isNew : alloc.str with
  | none => rfl
  | some s =>
      have isFree := fresh s isNew
      obtain ⟨lists', sound'⟩ := sound.linkNew alloc.junk nonempty short missing isFree
      dsimp only
      rw [isFree, if_neg (by decide)]
      split
      · rcases resize_spec sound' ((S.linkNew str len alloc.junk s).strmask <<< 1 + 1)
          alloc.table with failed | ⟨T, lists'', resize, -, -⟩
        · rw [failed]
          rfl
        · rw [resize]
          rfl
      · rfl

theorem new_spec (sound : Sound S lists) (ran : S.lj_str_new str len alloc = some (S', result)) :
    (∃ lists', Sound S' lists') ∧ Grows S S' ∧ Returns S' str len result := by
  by_cases short : len ≥ LJ_MAX_STR
  · rw [lj_str_new, if_pos short] at ran
    cases ran
    exact ⟨⟨lists, sound⟩, .refl S, trivial⟩
  · by_cases isEmpty : len = 0
    · rw [lj_str_new, if_neg short, if_pos isEmpty] at ran
      cases ran
      exact ⟨⟨lists, sound⟩, .refl S, .inl ⟨isEmpty, rfl⟩⟩
    · have nonempty := Nat.pos_of_ne_zero isEmpty
      rcases new_cases sound nonempty (Nat.not_le.mp short) str alloc with
        ⟨s, o, here, rfl, same⟩ | ⟨missing, create⟩
      · rw [new_found sound here same] at ran
        split at ran
        · next dead =>
            cases ran
            have formed := sound.formed s o here
            have alive : Alive S.currentwhite (o.marked ^^^ LJ_GC_WHITES) :=
              .flip sound.white formed.oneWhite (isdead_iff.mp dead)
            have notDead : S.isdead { o with marked := o.marked ^^^ LJ_GC_WHITES } = false :=
              (alive_iff alive.oneWhite).mpr alive
            refine ⟨⟨lists, sound.recolour here alive.oneWhite⟩, recolour_grows here fun _ => notDead,
              .inr ⟨nonempty, _, ?_, notDead, rfl, fun j below => (same j below).symm⟩⟩
            rw [str_set, if_pos rfl]
        · next alive =>
            cases ran
            exact ⟨⟨lists, sound⟩, .refl S, .inr ⟨nonempty, o, here,
              Bool.eq_false_of_not_eq_true alive, rfl, fun j below => (same j below).symm⟩⟩
      · exact create_spec sound nonempty (Nat.not_le.mp short) missing (create ▸ ran)

theorem new_isSome (sound : Sound S lists) (str : CharPtr) (len : Nat) (fresh : S.Fresh alloc) :
    (S.lj_str_new str len alloc).isSome = true := by
  by_cases short : len ≥ LJ_MAX_STR
  · rw [lj_str_new, if_pos short]
    rfl
  · by_cases isEmpty : len = 0
    · rw [lj_str_new, if_neg short, if_pos isEmpty]
      rfl
    · have nonempty := Nat.pos_of_ne_zero isEmpty
      rcases new_cases sound nonempty (Nat.not_le.mp short) str alloc with
        ⟨s, o, here, rfl, same⟩ | ⟨missing, create⟩
      · rw [new_found sound here same]
        rfl
      · rw [create]
        exact create_isSome sound nonempty (Nat.not_le.mp short) missing fresh

end

end StrState

end TvmJit
