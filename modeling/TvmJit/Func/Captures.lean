import TvmJit.Func.Find

/-! Creation of closures, with the upvalues they capture. -/

namespace TvmJit

open Foundation Function

namespace UvState

variable {Thread TValue : Type} {S S' S'' : UvState Thread TValue} {L : Thread} {u w : UvRef}
  {lists : Thread → List UvRef} {ring : List UvRef} {slot n : Nat}

/-- The upvalue is allocated and not dead. -/
def IsAlive (S : UvState Thread TValue) (u : UvRef) : Prop :=
  ∃ p, S.uv u = some p ∧ S.isdead p = false

/-- Upvalues may have been added or resurrected. -/
structure Grows (S S' : UvState Thread TValue) : Prop where
  opened : ∀ L n u, S.IsOpen L n u → S'.IsOpen L n u
  alive : ∀ u, S.IsAlive u → S'.IsAlive u
  closed : ∀ u p, S.uv u = some p → p.closed = true → S'.uv u = some p
  fn : S'.fn = S.fn
  stack : S'.stack = S.stack

namespace Grows

theorem refl (S : UvState Thread TValue) : Grows S S :=
  ⟨fun _ _ _ => id, fun _ => id, fun _ _ here _ => here, rfl, rfl⟩

theorem trans (first : Grows S S') (second : Grows S' S'') : Grows S S'' where
  opened L n u isOpen := second.opened L n u (first.opened L n u isOpen)
  alive u alive := second.alive u (first.alive u alive)
  closed u p here closed := second.closed u p (first.closed u p here closed) closed
  fn := second.fn.trans first.fn
  stack := second.stack.trans first.stack

theorem of_opened (opened : Opened S S' L slot u) : Grows S S' where
  opened L' n w isOpen := (opened.opened L' n w).mpr (.inr isOpen)
  alive w := by
    rintro ⟨p, here, alive⟩
    by_cases same : w = u
    · rw [same]
      exact ⟨_, opened.isOpen.get.1, opened.alive⟩
    · have core := opened.others w same
      rw [here, Option.map_some] at core
      obtain ⟨p', there, sameCore⟩ := Option.map_eq_some_iff.mp core
      refine ⟨p', there, ?_⟩
      rw [isdead, otherwhite, opened.currentwhite, core_eq_marked sameCore]
      exact alive
  closed w p here closed := by
    have notU : w ≠ u := by
      rintro rfl
      rcases opened.fresh with free | isOpen
      · rw [free] at here
        cases here
      · have notClosed := isOpen.get.2.1
        rw [get_eq here, closed] at notClosed
        cases notClosed
    have core := opened.others w notU
    rw [here, Option.map_some] at core
    obtain ⟨p', there, sameCore⟩ := Option.map_eq_some_iff.mp core
    rw [there, core_eq_of_closed sameCore.symm closed]
  fn := opened.fn
  stack := opened.stack

end Grows

/-- The fields of an upvalue that `lj_func_newL_gc` and `lj_func_newL_empty` set. -/
theorem Sound.describe (sound : Sound S lists ring) {p : GCupval Thread TValue}
    (here : S.uv u = some p) (immutable : Bool) (dhash : BitVec 32) :
    Sound (S.set u { p with immutable, dhash }) lists ring ∧
      ∀ L n w, (S.set u { p with immutable, dhash }).IsOpen L n w ↔ S.IsOpen L n w :=
  sound.set here ⟨rfl, fun _ => ⟨rfl, rfl, rfl⟩,
    ⟨(sound.formed u p here).1, (sound.formed u p here).2⟩, sound.oneWhite u p here, id⟩

theorem IsAlive.describe {p : GCupval Thread TValue} (here : S.uv u = some p) (immutable : Bool)
    (dhash : BitVec 32) (alive : S.IsAlive w) :
    (S.set u { p with immutable, dhash }).IsAlive w := by
  obtain ⟨q, there, alive⟩ := alive
  rw [IsAlive, uv_set]
  split
  · rename_i same
    rw [same, here] at there
    cases there
    exact ⟨_, rfl, alive⟩
  · exact ⟨q, there, alive⟩

/-- What an upvalue of a new closure is. -/
def Captured (S : UvState Thread TValue) (L : Thread) (base : Nat) (parent : GCfuncL) (v : BitVec 16)
    (u : UvRef) : Prop :=
  if v &&& PROTO_UV_LOCAL ≠ 0 then S.IsOpen L (base + (v &&& 0xff).toNat) u
  else parent.uvptr[v.toNat]? = some u

section

variable [DecidableEq Thread] {base : Nat} {parent : GCfuncL} {v : BitVec 16} {new : UvRef}

theorem captureuv_spec (sound : Sound S lists ring) (held : ∀ w ∈ parent.uvptr, S.IsAlive w)
    (result : S.captureuv L base parent v new = some (S', u)) :
    (∃ lists' ring', Sound S' lists' ring') ∧ Grows S S' ∧ Captured S' L base parent v u ∧
      S'.IsAlive u := by
  rw [captureuv] at result
  by_cases isLocal : v &&& PROTO_UV_LOCAL ≠ 0
  · rw [if_pos isLocal] at result
    cases found : S.func_finduv L (base + (v &&& 0xff).toNat) new with
    | none =>
        rw [found] at result
        cases result
    | some pair =>
        obtain ⟨T, w⟩ := pair
        simp only [found, Option.some.injEq, Prod.mk.injEq] at result
        obtain ⟨rfl, rfl⟩ := result
        obtain ⟨⟨lists', ring', sound'⟩, opened⟩ := finduv_spec sound found
        obtain ⟨here, notClosed, -⟩ := opened.isOpen.get
        obtain ⟨sound'', still⟩ := sound'.describe here (v &&& PROTO_UV_IMMUTABLE ≠ 0)
          (parent.pc ^^^ (v.setWidth 32 <<< 24))
        refine ⟨⟨lists', ring', sound''⟩, (Grows.of_opened opened).trans ?_, ?_, ?_⟩
        · refine ⟨fun L n x => (still L n x).mpr, fun x => .describe here _ _, ?_, rfl, rfl⟩
          intro x p there closed
          rw [uv_set, if_neg, there]
          rintro rfl
          rw [get_eq there, closed] at notClosed
          cases notClosed
        · rw [Captured, if_pos isLocal]
          exact (still ..).mpr opened.isOpen
        · exact IsAlive.describe here _ _ ⟨_, here, opened.alive⟩
  · rw [if_neg isLocal] at result
    cases found : parent.uvptr[v.toNat]? with
    | none => simp [found] at result
    | some w =>
        simp only [found, Option.some.injEq, Prod.mk.injEq] at result
        obtain ⟨rfl, rfl⟩ := result
        refine ⟨⟨lists, ring, sound⟩, .refl S, ?_, held w (List.mem_of_getElem? found)⟩
        rw [Captured, if_neg isLocal, found]

omit [DecidableEq Thread] in
theorem Captured.grows (captured : Captured S L base parent v u) (grows : Grows S S') :
    Captured S' L base parent v u := by
  rw [Captured] at captured ⊢
  split at captured
  · rw [if_pos ‹_›]
    exact grows.opened _ _ _ captured
  · rw [if_neg ‹_›]
    exact captured

theorem captureuvs_spec {uv : List (BitVec 16 × UvRef)} {us : List UvRef} (sound : Sound S lists ring)
    (held : ∀ w ∈ parent.uvptr, S.IsAlive w)
    (result : captureuvs L base parent uv S = some (S', us)) :
    (∃ lists' ring', Sound S' lists' ring') ∧ Grows S S' ∧
      List.Forall₂ (fun v u => Captured S' L base parent v.1 u) uv us ∧ ∀ u ∈ us, S'.IsAlive u := by
  induction uv generalizing S lists ring us with
  | nil =>
      cases result
      exact ⟨⟨lists, ring, sound⟩, .refl _, .nil, by simp⟩
  | cons v uv induction =>
      obtain ⟨v, new⟩ := v
      rw [captureuvs] at result
      cases first : S.captureuv L base parent v new with
      | none => simp [first] at result
      | some pair =>
          obtain ⟨T, u⟩ := pair
          simp only [first] at result
          obtain ⟨⟨lists', ring', sound'⟩, grows, captured, alive⟩ := captureuv_spec sound held first
          cases rest : captureuvs L base parent uv T with
          | none => simp [rest] at result
          | some pair =>
              obtain ⟨T', us'⟩ := pair
              simp only [rest, Option.some.injEq, Prod.mk.injEq] at result
              obtain ⟨rfl, rfl⟩ := result
              obtain ⟨sound'', grows', captured', alive'⟩ :=
                induction sound' (fun w member => grows.alive w (held w member)) rest
              exact ⟨sound'', grows.trans grows', .cons (captured.grows grows') captured',
                List.forall_mem_cons.mpr ⟨grows'.alive u alive, alive'⟩⟩

end

/-- A closure whose upvalues are not dead. -/
theorem Sound.closure (sound : Sound S lists ring) (f : FnRef) {fn : GCfuncL}
    (held : ∀ u ∈ fn.uvptr, S.IsAlive u) :
    Sound { S with fn := update S.fn f (some fn) } lists ring := by
  refine sound.kept ⟨sound.null, sound.head, fun _ => rfl, rfl, rfl, rfl, Nat.le_refl _⟩
    sound.formed sound.white sound.oneWhite fun f' fn' here u member => ?_
  dsimp only at here
  rw [update_apply] at here
  split at here
  · cases here
    exact held u member
  · exact sound.held f' fn' here u member

/-- A new closure: the state without it has only grown. -/
theorem newL_gc_spec [DecidableEq Thread] {base : Nat} {parent : GCfuncL} {pc : BitVec 32}
    {uv : List (BitVec 16 × UvRef)} {f : FnRef} (sound : Sound S lists ring)
    (held : ∀ w ∈ parent.uvptr, S.IsAlive w)
    (result : S.lj_func_newL_gc L base parent pc uv f = some S') :
    (∃ lists' ring', Sound S' lists' ring') ∧ ∃ T us, Grows S T ∧
      S' = { T with fn := update T.fn f (some ⟨pc, us⟩) } ∧
      List.Forall₂ (fun v u => Captured S' L base parent v.1 u) uv us := by
  rw [lj_func_newL_gc] at result
  cases captures : captureuvs L base parent uv S with
  | none => simp [captures] at result
  | some pair =>
      obtain ⟨T, us⟩ := pair
      simp only [captures, Option.some.injEq] at result
      subst result
      obtain ⟨⟨lists', ring', sound'⟩, grows, captured, alive⟩ := captureuvs_spec sound held captures
      exact ⟨⟨lists', ring', sound'.closure f alive⟩, T, us, grows, rfl, captured⟩

/-! ## Empty upvalues -/

section

variable [Inhabited TValue] {new : UvRef}

theorem emptyuv_spec (sound : Sound S lists ring) (result : S.func_emptyuv new = some S') :
    Sound S' lists ring ∧ Grows S S' ∧ S'.IsAlive new ∧ ∃ p, S'.uv new = some p ∧ S.uv new = none := by
  rw [func_emptyuv] at result
  split at result
  · rename_i free
    obtain ⟨notNull, notHead, notHere⟩ := isFree_iff.mp free
    rw [Option.some.injEq] at result
    have uv (w : UvRef) : S'.uv w =
        if w = new then some ⟨S.root, S.curwhite, true, false, .tv default, .own, 0⟩ else S.uv w := by
      rw [← result]
      exact uv_set _ w
    have same : S'.currentwhite = S.currentwhite := by rw [← result]; rfl
    have sameFn : S'.fn = S.fn := by rw [← result]; rfl
    have sameStack : S'.stack = S.stack := by rw [← result]; rfl
    have isdead (p : GCupval Thread TValue) : S'.isdead p = S.isdead p := by
      rw [UvState.isdead, otherwhite, same]
      rfl
    have alive : Alive S.currentwhite S.curwhite :=
      .current sound.white (whites_whites S.currentwhite)
    have old {w : UvRef} {p : GCupval Thread TValue} (here : S.uv w = some p) : S'.uv w = some p := by
      rw [uv, if_neg, here]
      rintro rfl
      rw [notHere] at here
      cases here
    have kept : Kept S S' := by
      refine ⟨?_, ?_, fun w => ?_, ?_, ?_, ?_, ?_⟩
      · rw [uv, if_neg (Ne.symm notNull), sound.null]
      · rw [uv, if_neg (Ne.symm notHead), sound.head]
      · rw [opens, opens, uv]
        split
        · rename_i isNew
          rw [isNew, notHere]
          rfl
        · rfl
      all_goals rw [← result]
      all_goals first | rfl | exact Nat.le_succ _
    have newAlive : S'.IsAlive new := by
      refine ⟨_, (uv new).trans (if_pos rfl), ?_⟩
      rw [isdead]
      exact (alive_iff alive.oneWhite).mpr alive
    refine ⟨sound.kept kept (fun w p here => ?_) (same ▸ sound.white) (fun w p here => ?_)
      (fun f fn here w member => ?_), ⟨fun L n w => kept.isOpen.mpr, fun w => ?_,
      fun w p here _ => old here, sameFn, sameStack⟩, newAlive, _, (uv new).trans (if_pos rfl), notHere⟩
    · rw [uv] at here
      split at here
      · cases here
        exact ⟨fun _ => ⟨rfl, _, rfl⟩, fun impossible => by cases impossible⟩
      · exact sound.formed w p here
    · rw [uv] at here
      split at here
      · cases here
        exact alive.oneWhite
      · exact sound.oneWhite w p here
    · rw [sameFn] at here
      obtain ⟨p, there, notDead⟩ := sound.held f fn here w member
      exact ⟨p, old there, (isdead p).trans notDead⟩
    · rintro ⟨p, there, notDead⟩
      exact ⟨p, old there, (isdead p).trans notDead⟩
  · cases result

theorem emptyuvs_spec {pt : BitVec 32} {uv : List (BitVec 16 × UvRef)} {us : List UvRef}
    (sound : Sound S lists ring) (result : emptyuvs pt uv S = some (S', us)) :
    Sound S' lists ring ∧ Grows S S' ∧ ∀ u ∈ us, S'.IsAlive u := by
  induction uv generalizing S us with
  | nil =>
      cases result
      exact ⟨sound, .refl _, by simp⟩
  | cons v uv induction =>
      obtain ⟨v, new⟩ := v
      rw [emptyuvs] at result
      cases first : S.func_emptyuv new with
      | none => simp [first] at result
      | some T =>
          simp only [first] at result
          obtain ⟨sound', grows, alive, p, here, notHere⟩ := emptyuv_spec sound first
          obtain ⟨sound'', still⟩ := sound'.describe here (v &&& PROTO_UV_IMMUTABLE ≠ 0)
            (pt ^^^ (v.setWidth 32 <<< 24))
          have described : Grows S (T.set new { T.get new with
              immutable := v &&& PROTO_UV_IMMUTABLE ≠ 0, dhash := pt ^^^ (v.setWidth 32 <<< 24) }) := by
            rw [get_eq here]
            refine ⟨fun L n w isOpen => (still L n w).mpr (grows.opened L n w isOpen),
              fun w alive => .describe here _ _ (grows.alive w alive), fun w p there closed => ?_,
              grows.fn, grows.stack⟩
            rw [uv_set, if_neg, grows.closed w p there closed]
            rintro rfl
            rw [notHere] at there
            cases there
          rw [← get_eq here] at sound''
          split at result
          · cases result
          · rename_i T' us' rest
            cases result
            obtain ⟨sound₃, grows', alive'⟩ := induction sound'' rest
            refine ⟨sound₃, described.trans grows', List.forall_mem_cons.mpr ⟨grows'.alive new ?_, alive'⟩⟩
            rw [get_eq here]
            exact .describe here _ _ alive

theorem newL_empty_spec {pt pc : BitVec 32} {uv : List (BitVec 16 × UvRef)} {f : FnRef}
    (sound : Sound S lists ring) (result : S.lj_func_newL_empty pt pc uv f = some S') :
    Sound S' lists ring ∧ ∃ T us, Grows S T ∧ S' = { T with fn := update T.fn f (some ⟨pc, us⟩) } := by
  rw [lj_func_newL_empty] at result
  cases empty : emptyuvs pt uv S with
  | none => simp [empty] at result
  | some pair =>
      obtain ⟨T, us⟩ := pair
      simp only [empty, Option.some.injEq] at result
      subst result
      obtain ⟨sound', grows, alive⟩ := emptyuvs_spec sound empty
      exact ⟨sound'.closure f alive, T, us, grows, rfl⟩

end

end UvState

end TvmJit
