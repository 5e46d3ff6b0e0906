import TvmJit.Str.Intern

/-! The sweep of one chain, which takes dead strings out of it. -/

namespace TvmJit

open Foundation Function

namespace StrState

variable {S S' T : StrState} {lists : BitVec 32 → List StrRef} {i : BitVec 32} {s : StrRef}
  {o : StrObj} {before after : List StrRef}

/-- Strings that are not dead are still there, and dead ones are otherwise freed. -/
structure Swept (S S' : StrState) : Prop where
  strings : ∀ s o, S.str s = some o →
    (S'.str s = none ∧ S.isdead o = true) ∨ ∃ o', S'.str s = some o' ∧ core o = core o'
  alive : ∀ s o, S.str s = some o → S.isdead o = false →
    ∃ o', S'.str s = some o' ∧ S'.isdead o' = false
  free : ∀ s, S.str s = none → S'.str s = none
  strmask : S'.strmask = S.strmask
  state : S'.state = S.state
  sweepstr : S'.sweepstr = S.sweepstr

theorem Swept.refl (S : StrState) : Swept S S :=
  ⟨fun _ o here => .inr ⟨o, here, rfl⟩, fun _ o here alive => ⟨o, here, alive⟩, fun _ => id, rfl, rfl, rfl⟩

theorem Swept.trans (first : Swept S S') (second : Swept S' T) : Swept S T where
  strings s o here := by
    rcases first.strings s o here with ⟨gone, dead⟩ | ⟨o', there, same⟩
    · exact .inl ⟨second.free s gone, dead⟩
    · rcases second.strings s o' there with ⟨gone, dead⟩ | ⟨o'', there', same'⟩
      · refine .inl ⟨gone, ?_⟩
        by_contra alive
        obtain ⟨q, also, alive'⟩ := first.alive s o here (Bool.eq_false_of_not_eq_true alive)
        cases there.symm.trans also
        cases dead.symm.trans alive'
      · exact .inr ⟨o'', there', same.trans same'⟩
  alive s o here alive := by
    obtain ⟨o', there, alive'⟩ := first.alive s o here alive
    exact second.alive s o' there alive'
  free s none := second.free s (first.free s none)
  strmask := second.strmask.trans first.strmask
  state := second.state.trans first.state
  sweepstr := second.sweepstr.trans first.sweepstr

section

variable [Target]

theorem Sound.makewhite (sound : Sound S lists) (here : S.str s = some o) :
    Sound (S.set s { o with marked := S.makewhite o.marked }) lists ∧
      Swept S (S.set s { o with marked := S.makewhite o.marked }) := by
  have alive : Alive S.currentwhite (S.makewhite o.marked) := .makewhite sound.white o.marked
  have notDead : S.isdead { o with marked := S.makewhite o.marked } = false :=
    (alive_iff alive.oneWhite).mpr alive
  refine ⟨sound.recolour here alive.oneWhite, fun w q there => .inr ?_, fun w q there white => ?_,
    fun w free => ?_, rfl, rfl, rfl⟩
  · rw [str_set]
    split
    · rename_i same
      rw [same] at there
      cases here.symm.trans there
      exact ⟨_, rfl, rfl⟩
    · exact ⟨q, there, rfl⟩
  · rw [str_set]
    split
    · exact ⟨_, rfl, notDead⟩
    · exact ⟨q, there, white⟩
  · rw [str_set, if_neg, free]
    rintro rfl
    cases here.symm.trans free

/-! ## Freeing -/

/-- The chain leads past a string; the fields are those of the table without it. -/
theorem setLink_spec (sound : Sound S lists) (split : lists i = before ++ s :: after) (nextgc : StrRef) :
    Linked S (S.setLink i (lastLink none before) nextgc) ∧
      (S.setLink i (lastLink none before) nextgc).strhash =
        (Buckets.relink S.strhash S.nexts i (lastLink none before) nextgc).1 ∧
      (S.setLink i (lastLink none before) nextgc).nexts =
        (Buckets.relink S.strhash S.nexts i (lastLink none before) nextgc).2 := by
  cases last : lastLink none before with
  | none =>
      have kept := Kept.refl S
      exact ⟨⟨⟨kept.str, kept.oneWhite, rfl, id⟩, fun _ => rfl, fun _ => rfl, rfl, rfl, rfl, rfl⟩, rfl, rfl⟩
  | some b =>
      have member : b ∈ lists i := by
        rw [split]
        exact List.mem_append_left _ (mem_of_lastLink last)
      exact ⟨.set ((sound.buckets.listed i b).mp member).1 nextgc, rfl, nexts_set ..⟩

omit [Target] in
theorem str_free (w : StrRef) : (T.lj_str_free s).str w = if w = s then none else T.str w :=
  update_apply ..

omit [Target] in
theorem get_free {w : StrRef} (other : w ≠ s) : (T.lj_str_free s).get w = T.get w := by
  rw [get, str_free, if_neg other]
  rfl

/-- A dead string is taken out of its chain and freed. -/
theorem Sound.free (sound : Sound S lists) (split : lists i = before ++ s :: after)
    (here : S.str s = some o) (dead : S.isdead o = true) :
    Sound ((S.setLink i (lastLink none before) o.nextgc).lj_str_free s)
        (update lists i (before ++ after)) ∧
      Swept S ((S.setLink i (lastLink none before) o.nextgc).lj_str_free s) := by
  obtain ⟨linked, heads, next⟩ := setLink_spec sound split o.nextgc
  let T := S.setLink i (lastLink none before) o.nextgc
  have linked : Linked S T := linked
  have nextgc : o.nextgc = S.nexts s := by rw [nexts, get_eq here]
  have removed := sound.buckets.remove split
  rw [← nextgc] at removed
  have other {w : StrRef} {q : StrObj} (there : (T.lj_str_free s).str w = some q) :
      w ≠ s ∧ T.str w = some q := by
    rw [str_free] at there
    split at there
    · cases there
    · exact ⟨‹_›, there⟩
  have back {w : StrRef} {q : StrObj} (there : (T.lj_str_free s).str w = some q) :
      ∃ q', S.str w = some q' ∧ core q' = core q := linked.kept.string (other there).2
  have isSome (w : StrRef) : ((T.lj_str_free s).str w).isSome = true ↔ w ≠ s ∧ (S.str w).isSome = true := by
    rw [str_free]
    split
    · simp [*]
    · simp [*, linked.kept.isSome]
  refine ⟨⟨removed.congr (fun j => congrFun heads j) (fun w among => ?_) (fun w among => ?_) isSome,
    fun w q there => ?_, fun w q w' q' there there' equal => ?_, ?_, linked.kept.white sound.white, ?_⟩,
    ?_, ?_, ?_, linked.strmask, linked.state, linked.sweepstr⟩
  · rw [nexts, get_free among.1]
    exact congrFun next w
  · rw [bucket, get_free among.1]
    change (T.get w).hash &&& T.strmask = _
    rw [linked.hash, linked.strmask]
    rfl
  · obtain ⟨-, there⟩ := other there
    obtain ⟨q', before, same⟩ := linked.kept.string there
    have formed := sound.formed w q' before
    refine ⟨core_len same ▸ formed.nonempty, core_len same ▸ formed.short, ?_,
      linked.kept.oneWhite w q' q before there formed.oneWhite⟩
    rw [← core_hash same, ← core_len same, ← core_data same]
    exact formed.hash
  · obtain ⟨q₀, before, same⟩ := back there
    obtain ⟨q₀', before', same'⟩ := back there'
    refine sound.distinct w q₀ w' q₀' before before' ?_
    rw [StrObj.Equal, core_len same, core_len same', core_data same, core_data same']
    exact equal
  · have strings : (T.lj_str_free s).allocated = S.allocated.erase s := by
      ext w
      rw [Finset.mem_erase, mem_allocated, mem_allocated, isSome]
    have member : s ∈ S.allocated := mem_allocated.mpr (by rw [here]; rfl)
    have positive := Finset.card_pos.mpr ⟨s, member⟩
    have num : T.strnum = S.strnum := linked.kept.num
    change (T.strnum - 1).toNat = (T.lj_str_free s).allocated.card
    rw [strings, Finset.card_erase_of_mem member, ← sound.num, num]
    rw [← sound.num] at positive
    bv_omega
  · change T.strmask < _
    rw [linked.strmask]
    exact sound.sized
  · intro w q there
    by_cases isHere : w = s
    · rw [isHere] at there
      cases here.symm.trans there
      exact .inl ⟨by rw [str_free, if_pos isHere], dead⟩
    · rw [str_free, if_neg isHere]
      exact .inr (linked.kept.forward there)
  · intro w q there alive
    have isHere : w ≠ s := by
      rintro rfl
      cases here.symm.trans there
      cases dead.symm.trans alive
    rw [str_free, if_neg isHere]
    obtain ⟨q', there', same⟩ := linked.kept.forward there
    refine ⟨q', there', ?_⟩
    have marked := linked.marked w
    rw [get_eq there', get_eq there] at marked
    have white : (T.lj_str_free s).currentwhite = S.currentwhite := linked.currentwhite
    rw [isdead, otherwhite, white, marked]
    exact alive
  · intro w free
    rw [str_free]
    split
    · rfl
    · have same := linked.kept.isSome w
      rw [free] at same
      exact Option.isSome_eq_false_iff.mp same |> Option.isNone_iff_eq_none.mp

/-! ## A chain -/

theorem sweepLoop_spec {lim : Nat} (sound : Sound S lists) (split : lists i = before ++ after)
    (enough : after.length ≤ lim) :
    ∃ lists', Sound (sweepLoop i lim (lastLink none before) S) lists' ∧
      Swept S (sweepLoop i lim (lastLink none before) S) := by
  induction lim generalizing S lists before after with
  | zero => exact ⟨lists, sound, .refl S⟩
  | succ lim induction =>
      have walk : Walk (S.links i) 0 none (lists i) := sound.buckets.chain i
      rw [split] at walk
      have behind := walk.behind
      cases after with
      | nil =>
          have last : S.links i (lastLink none before) = 0 := behind
          rw [sweepLoop, last]
          exact ⟨lists, sound, .refl S⟩
      | cons s after =>
          have isNext : S.links i (lastLink none before) = s := behind.1
          have listed := (sound.buckets.listed i s).mp (by simp [split])
          obtain ⟨o, here⟩ := Option.isSome_iff_exists.mp listed.1
          have shorter : after.length ≤ lim := Nat.le_of_succ_le_succ enough
          rw [sweepLoop, isNext]
          dsimp only
          rw [if_neg behind.2.1, get_eq here]
          by_cases swept : (o.marked ^^^ LJ_GC_WHITES) &&& S.otherwhite = 0
          · rw [if_neg (not_not_intro swept)]
            have dead : S.isdead o = true := isdead_iff.mpr (dead_of_swept sound.white swept)
            obtain ⟨sound', freed⟩ := sound.free split here dead
            obtain ⟨lists', sound'', swept'⟩ := induction sound' (update_self ..) shorter
            exact ⟨lists', sound'', freed.trans swept'⟩
          · rw [if_pos swept]
            obtain ⟨sound', kept⟩ := sound.makewhite here
            have moved : lists i = (before ++ [s]) ++ after := by simp [split]
            obtain ⟨lists', sound'', swept'⟩ := induction sound' moved shorter
            rw [lastLink_append] at sound'' swept'
            exact ⟨lists', sound'', kept.trans swept'⟩

theorem fullsweep_spec (sound : Sound S lists) (i : BitVec 32) :
    ∃ lists', Sound (S.gc_fullsweep i) lists' ∧ Swept S (S.gc_fullsweep i) :=
  sweepLoop_spec sound (show lists i = [] ++ lists i from rfl) (Nat.le_pred_of_lt (sound.chain_lt i))

end

end StrState

end TvmJit
