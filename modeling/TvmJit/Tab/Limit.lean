import TvmJit.Tab.Map

/-! The hash part of a table has no more nodes than its limit, and tables that come from
`lj_tab_new` keep their invariant. -/

namespace TvmJit.Tab

open Foundation Function

namespace GCtab

/-- What `newhpart` checks. -/
def Limited (t : GCtab) : Prop := t.hmask < 2 ^ maxHbits

/-- A computation that has a table as its result keeps to the limit. -/
abbrev Limits {α : Type} (table : α → GCtab) (r : Except TabError α) : Prop :=
  Foundation.Ends (fun a => (table a).Limited) (fun _ => True) r

variable [StrHash] {t : GCtab} {nk : GCtab → TValue → Except TabError (TabSlot × GCtab)}

/-- The function that stores new keys keeps to the limit. -/
def LimitsNew (nk : GCtab → TValue → Except TabError (TabSlot × GCtab)) : Prop :=
  ∀ t k, t.Limited → Limits Prod.snd (nk t k)

omit [StrHash] in
theorem Limited.store (limited : t.Limited) (slot : TabSlot) (v : TValue) : (t.store slot v).Limited := by
  cases slot <;> exact limited

omit [StrHash] in
/-- A loop over what has to be stored again. -/
theorem foldlM_limits {ι : Type} {step : GCtab → ι → Except TabError GCtab}
    (each : ∀ i u, u.Limited → Limits id (step u i)) (l : List ι) (limited : t.Limited) :
    Limits id (l.foldlM step t) := by
  let loopInv : List ι → GCtab → Prop := fun _ u => u.Limited
  have loop : Foundation.Ends (loopInv []) (fun _ => True) (l.foldlM step t) := by
    apply Foundation.Ends.foldlM
    · exact fun i _ u before => each i u before
    · exact limited
  exact loop

/-! ## Setters -/

omit [StrHash] in
theorem search_limits (new : LimitsNew nk) (limited : t.Limited) (found : TValue → Bool) (n : Nat)
    (k : TValue) :
    Limits Prod.snd (do
      match ← t.findNode found n with
      | some n => return (.node n, t)
      | none => nk t k) := by
  cases t.findNode found n with
  | error e => trivial
  | ok r =>
      cases r with
      | none => exact new t k limited
      | some i => exact limited

omit [StrHash] in
theorem setint_limits (new : LimitsNew nk) (limited : t.Limited) (key : Int) :
    Limits Prod.snd (t.setint nk key) := by
  unfold setint
  split
  · exact limited
  · exact search_limits new limited _ _ _

theorem set_limits (new : LimitsNew nk) (limited : t.Limited) (k : TValue) :
    Limits Prod.snd (t.set nk k) := by
  cases k with
  | nil => trivial
  | bool b => exact search_limits new limited _ _ _
  | str s => exact search_limits new limited _ _ _
  | gcref it ref => exact search_limits new limited _ _ _
  | num n =>
      change Limits _ (if n.eq (.ofInt n.num2int) then t.setint nk n.num2int
        else if n.isNan then .error .nanidx else t.setgen nk (.num n))
      split
      · exact setint_limits new limited _
      · split
        · trivial
        · exact search_limits new limited _ _ _

/-! ## Resizing -/

omit [StrHash] in
theorem reinsertArray_limits (new : LimitsNew nk) (limited : t.Limited) (block : Nat)
    (array : Nat → TValue) (i : Nat) : Limits id (reinsertArray nk block array t i) := by
  unfold reinsertArray
  split
  · trivial
  · split
    · exact limited
    · apply (search_limits new limited _ _ _).bind
      intro r _ after
      dsimp only
      split
      · trivial
      · exact after.store _ _

theorem reinsertNode_limits (new : LimitsNew nk) (limited : t.Limited) (n : TabNode) :
    Limits id (reinsertNode nk t n) := by
  unfold reinsertNode
  split
  · exact limited
  · apply (set_limits new limited _).bind
    intro r _ after
    exact after.store _ _

omit [StrHash] in
theorem growArray_limits (limited : t.Limited) (asize : Nat) : Limits id (t.growArray asize) := by
  unfold growArray
  split
  · split
    · trivial
    · exact limited
  · exact limited

omit [StrHash] in
/-- The new hash part is checked. -/
theorem newhash_limits (t : GCtab) (hbits : Nat) : Limits id (t.newhash hbits) := by
  unfold newhash
  split
  · unfold newhpart
    split
    · trivial
    · next small =>
        have positive : 0 < 2 ^ hbits := Nat.two_pow_pos hbits
        have power : 2 ^ hbits ≤ 2 ^ maxHbits := Nat.pow_le_pow_right (by decide) (by omega)
        change 2 ^ hbits - 1 < 2 ^ maxHbits
        omega
  · exact Nat.two_pow_pos maxHbits

omit [StrHash] in
theorem shrinkArray_limits (new : LimitsNew nk) (limited : t.Limited) (oldasize asize : Nat) :
    Limits id (t.shrinkArray nk oldasize asize) := by
  unfold shrinkArray
  split
  · have loop : Limits id ((List.range' asize (oldasize - asize)).foldlM
        (reinsertArray nk t.block t.array) { t with asize := asize }) :=
      foldlM_limits (fun i u before => reinsertArray_limits new before _ _ i) _ limited
    apply loop.bind
    intro u _ after
    split
    · exact after
    · split
      · trivial
      · exact after
  · exact limited

theorem resize_limits (new : LimitsNew nk) (limited : t.Limited) (asize hbits : Nat) :
    Limits id (t.resize nk asize hbits) := by
  unfold resize
  apply (growArray_limits limited asize).bind
  intro t₁ _ _
  apply (newhash_limits t₁ hbits).bind
  intro t₂ _ limited₂
  apply (shrinkArray_limits new limited₂ _ _).bind
  intro t₃ _ limited₃
  split
  · exact foldlM_limits (fun n u before => reinsertNode_limits new before n) _ limited₃
  · exact limited₃

/-! ## New keys -/

theorem rechain_limits {n f steps : Nat} (limited : t.Limited) : Limits id (rechain n steps t f) := by
  induction steps generalizing t f with
  | zero => trivial
  | succ steps induction =>
      rw [rechain]
      split
      · exact limited
      · dsimp only
        split
        · split
          · exact induction limited
          · exact induction limited
        · exact induction limited

theorem collide_limits (limited : t.Limited) (n f : Nat) (k : TValue) :
    Limits Prod.snd (t.collide n f k) := by
  unfold collide
  dsimp only
  split
  · split
    · apply (rechain_limits (by exact limited)).bind
      intro u _ after
      exact after
    · trivial
  · exact limited

theorem newkey_limits (depth : Nat) : LimitsNew (newkey depth) := by
  induction depth with
  | zero => exact fun _ _ _ => trivial
  | succ depth induction =>
      intro t k limited
      rw [newkey]
      split
      · split
        · apply (resize_limits induction limited _ _).bind
          intro u _ after
          exact set_limits induction after k
        · exact collide_limits limited _ _ _
      · exact limited

omit [StrHash] in
theorem ljTabNew_limits (asize hbits : Nat) : Limits id (ljTabNew asize hbits) := by
  unfold ljTabNew
  split
  · trivial
  · dsimp only
    split
    · next some =>
        have checked (t : GCtab) := newhash_limits t hbits
        simp only [newhash, if_pos some] at checked
        exact checked _
    · exact Nat.two_pow_pos maxHbits

end GCtab

/-! ## Tables of a program -/

/-- Tables as they are made by `lj_tab_new` and changed by calls. -/
inductive Reached [StrHash] (depth : Nat) : GCtab → Prop
  | new {t : GCtab} {asize hbits : Nat} (isNew : GCtab.ljTabNew asize hbits = .ok t) : Reached depth t
  | call {t t' : GCtab} {call : TabCall} (before : Reached depth t)
      (ran : call.run depth t = .ok t') : Reached depth t'

section

variable [StrHash] {t : GCtab} {depth : Nat}

theorem TabCall.run_limits (limited : t.Limited) (call : TabCall) :
    GCtab.Limits id (call.run depth t) := by
  have new := GCtab.newkey_limits depth
  cases call with
  | set key v => exact (GCtab.set_limits new limited key).bind fun r _ after => after.store _ _
  | setint key v => exact (GCtab.setint_limits new limited _).bind fun r _ after => after.store _ _
  | setstr key v =>
      exact (GCtab.search_limits new limited _ _ _).bind fun r _ after => after.store _ _
  | resize asize hbits => exact GCtab.resize_limits new limited _ _
  | reasize nasize => exact GCtab.resize_limits new limited _ _
  | clear =>
      change (GCtab.ljTabClear t).Limited
      unfold GCtab.ljTabClear
      dsimp only
      split
      · exact limited
      · exact limited

theorem TabCall.run_wf (wf : t.Wf) (call : TabCall) :
    Foundation.Ends GCtab.Wf (fun _ => True) (call.run depth t) := by
  have spec := GCtab.newkey_keeps depth
  have stored {k : TValue} {v : TValue} {r : Except TabError (TabSlot × GCtab)}
      (adds : Foundation.Ends (fun r => GCtab.Adds t k r.1 r.2) (fun _ => True) r) :
      Foundation.Ends GCtab.Wf (fun _ => True) (r >>= fun r => pure (r.2.store r.1 v)) :=
    adds.bind fun r _ adds => Foundation.Ends.pure (adds.keeps.wf.store adds.entry v)
  cases call with
  | set key v =>
      by_cases settable : key.Settable
      · exact stored (GCtab.set_adds spec wf settable.isKey)
      · rw [run_unsettable settable]
        trivial
  | setint key v =>
      have low := BitVec.le_toInt key
      have high := BitVec.toInt_lt (x := key)
      exact stored (GCtab.setint_ends _ wf (by omega) (by omega) (fun _ entry => ⟨.refl wf, entry⟩)
        (spec t _ wf))
  | setstr key v =>
      exact stored (GCtab.setstr_ends _ wf (fun _ entry => ⟨.refl wf, entry⟩) (spec t _ wf))
  | resize asize hbits =>
      exact (GCtab.resize_keeps spec trivial trivial wf _ _).mono (fun _ _ keeps => keeps.wf)
        fun _ allowed => allowed
  | reasize nasize =>
      exact (GCtab.resize_keeps spec trivial trivial wf _ _).mono (fun _ _ keeps => keeps.wf)
        fun _ allowed => allowed
  | clear => exact (GCtab.ljTabClear_empty wf).1

theorem Reached.wf (reached : Reached depth t) : t.Wf ∧ t.Limited := by
  induction reached with
  | new isNew => exact ⟨(GCtab.ljTabNew_empty isNew).1, (GCtab.ljTabNew_limits _ _).value isNew⟩
  | call _ ran induction =>
      exact ⟨(TabCall.run_wf induction.1 _).value ran, (TabCall.run_limits induction.2 _).value ran⟩

end

end TvmJit.Tab
