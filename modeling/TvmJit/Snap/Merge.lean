import Mathlib.Data.List.Perm.Subperm
import TvmJit.Snap.Snapshot

/-! The slots of a copied snapshot: those of the snapshot and those of the loop snapshot, in the order of
the slots, and a slot of both from the snapshot. -/

namespace TvmJit.Snap

open Foundation Function

/-! ## Slots of entries -/

theorem snap_slot_setref (sn : SnapEntry) (ref : IRRef1) : snap_slot (snap_setref sn ref) = snap_slot sn := by
  rw [snap_slot, snap_slot, snap_setref]
  congr 1
  have mask : (0xffff0000 &&& ~~~SNAP_NORESTORE : SnapEntry) >>> 24 = 0xff := by decide
  have upper : (ref.setWidth 32 : SnapEntry) >>> 24 = 0#32 := by
    apply BitVec.eq_of_toNat_eq
    have small := ref.isLt
    simp only [BitVec.toNat_ushiftRight, BitVec.toNat_setWidth, Nat.shiftRight_eq_div_pow, BitVec.toNat_ofNat]
    omega
  rw [BitVec.ushiftRight_or_distrib, BitVec.ushiftRight_and_distrib, mask, upper, BitVec.or_zero]
  apply BitVec.eq_of_toNat_eq
  have byte : (0xff : SnapEntry).toNat = 2 ^ 8 - 1 := by decide
  have small := sn.isLt
  rw [BitVec.toNat_and, byte, Nat.and_two_pow_sub_one_eq_mod, BitVec.toNat_ushiftRight, Nat.shiftRight_eq_div_pow]
  omega

theorem snap_slot_substEntry (subst : IRRef1 → IRRef1) (sn : SnapEntry) :
    snap_slot (substEntry subst sn) = snap_slot sn := by
  rw [substEntry]
  split
  · rfl
  · exact snap_slot_setref sn _

theorem snap_slot_SNAP_TR {slot : Nat} (small : slot < 256) (tr : TRef) : snap_slot (SNAP_TR slot tr) = slot := by
  have mask : (TREF_CONT ||| TREF_FRAME ||| TREF_REFMASK).toNat = 0x3ffff := by decide
  have flags : (tr &&& (TREF_CONT ||| TREF_FRAME ||| TREF_REFMASK)).toNat ≤ 0x3ffff := by
    rw [BitVec.toNat_and, mask]
    exact Nat.and_le_right
  rw [snap_slot, SNAP_TR, BitVec.toNat_ushiftRight, BitVec.toNat_add, BitVec.toNat_shiftLeft, BitVec.toNat_ofNat,
    Nat.shiftLeft_eq, Nat.shiftRight_eq_div_pow]
  omega

theorem snap_slot_norestore (sn : SnapEntry) : snap_slot (sn ||| SNAP_NORESTORE) = snap_slot sn := by
  have low : SNAP_NORESTORE >>> 24 = 0#32 := by decide
  rw [snap_slot, snap_slot, BitVec.ushiftRight_or_distrib, low, BitVec.or_zero]

theorem snap_slot_pred {sn : SnapEntry} (ref : snap_ref sn ≠ 0) : snap_slot (sn - 1) = snap_slot sn := by
  have low : sn.toNat % 2 ^ 16 ≠ 0 := by
    intro zero
    apply ref
    apply BitVec.eq_of_toNat_eq
    rw [snap_ref, BitVec.toNat_setWidth, zero]
    rfl
  have small := sn.isLt
  have one : (1 : SnapEntry).toNat = 1 := rfl
  rw [snap_slot, snap_slot, BitVec.toNat_ushiftRight, BitVec.toNat_ushiftRight, BitVec.toNat_sub, one,
    Nat.shiftRight_eq_div_pow, Nat.shiftRight_eq_div_pow]
  omega

theorem snap_slot_sentinel : snap_slot SENTINEL = 255 := by decide

/-- The entries are in the order of their slots. -/
def Sorted (entries : List SnapEntry) : Prop := entries.Pairwise fun sn sn' => snap_slot sn < snap_slot sn'

/-- A slot has one entry at most. -/
theorem Sorted.length_le {entries : List SnapEntry} {bound : Nat} (sorted : Sorted entries)
    (small : ∀ sn ∈ entries, snap_slot sn < bound) : entries.length ≤ bound := by
  have nodup : (entries.map snap_slot).Nodup := by
    rw [List.Nodup, List.pairwise_map]
    exact sorted.imp ne_of_lt
  have inside : entries.map snap_slot ⊆ List.range bound := by
    intro slot member
    have ⟨sn, isEntry, same⟩ := List.mem_map.mp member
    exact List.mem_range.mpr (same ▸ small sn isEntry)
  have shorter := (nodup.subperm inside).length_le
  rwa [List.length_map, List.length_range] at shorter

theorem slot_snapshot_slot {J : JitState} {slot : Nat → TRef} {s : Nat} {sn : SnapEntry} (small : s < 256)
    (here : snapshot_slot J slot s = some sn) : snap_slot sn = s := by
  have own := snap_slot_SNAP_TR small (slot s)
  rw [snapshot_slot] at here
  dsimp only at here
  split_ifs at here <;> cases here
  · rw [snap_slot_norestore, own]
  · exact own
  · exact own

theorem slot_snapshot_slots {J : JitState} {slot : Nat → TRef} {nslots : Nat} (le : nslots ≤ LJ_MAX_JSLOTS) :
    ∀ sn ∈ snapshot_slots J slot nslots, snap_slot sn < LJ_MAX_JSLOTS := by
  intro sn member
  have ⟨s, inRange, here⟩ := List.mem_filterMap.mp member
  have low : s < LJ_MAX_JSLOTS := lt_of_lt_of_le (List.mem_range.mp inRange) le
  rw [slot_snapshot_slot (lt_trans low (by decide)) here]
  exact low

theorem sorted_snapshot_slots {J : JitState} {slot : Nat → TRef} {nslots : Nat} (le : nslots ≤ LJ_MAX_JSLOTS) :
    Sorted (snapshot_slots J slot nslots) := by
  apply List.pairwise_filterMap.mpr
  apply List.pairwise_lt_range.imp_of_mem
  intro s s' inRange inRange' less sn here sn' here'
  have small {s : Nat} (inRange : s ∈ List.range nslots) : s < 256 :=
    lt_trans (lt_of_lt_of_le (List.mem_range.mp inRange) le) (by decide)
  rw [slot_snapshot_slot (small inRange) here, slot_snapshot_slot (small inRange') here']
  exact less

/-! ## Merging -/

/-- The entries that are put in while there are entries of the snapshot, and what is left of the loop snapshot. -/
def mergeOld (subst : IRRef1 → IRRef1) : List SnapEntry → List SnapEntry → List SnapEntry × List SnapEntry
  | [], loop => ([], loop)
  | osn :: old, [] =>
      let merged := mergeOld subst old []
      (substEntry subst osn :: merged.1, merged.2)
  | osn :: old, lsn :: loop =>
      if snap_slot lsn < snap_slot osn then
        let merged := mergeOld subst (osn :: old) loop
        (lsn :: merged.1, merged.2)
      else
        let merged := mergeOld subst old (if snap_slot lsn = snap_slot osn then loop else lsn :: loop)
        (substEntry subst osn :: merged.1, merged.2)
termination_by old loop => old.length + loop.length
decreasing_by
  · simp
  · simp
  · split
    · simp
      omega
    · simp

/-- The entries of the copy. -/
def mergeSlots (subst : IRRef1 → IRRef1) (nslots : Nat) (old loop : List SnapEntry) : List SnapEntry :=
  (mergeOld subst old loop).1 ++ (mergeOld subst old loop).2.takeWhile fun lsn => snap_slot lsn < nslots

section

variable {subst : IRRef1 → IRRef1} {nslots : Nat} {old loop : List SnapEntry} {osn lsn : SnapEntry}

theorem mergeSlots_nil : mergeSlots subst nslots [] loop = loop.takeWhile fun lsn => snap_slot lsn < nslots := by
  rw [mergeSlots, mergeOld]
  rfl

theorem mergeSlots_cons : mergeSlots subst nslots (osn :: old) [] = substEntry subst osn :: mergeSlots subst nslots old [] := by
  rw [mergeSlots, mergeOld]
  rfl

theorem mergeSlots_less (less : snap_slot lsn < snap_slot osn) :
    mergeSlots subst nslots (osn :: old) (lsn :: loop) = lsn :: mergeSlots subst nslots (osn :: old) loop := by
  rw [mergeSlots, mergeOld, if_pos less]
  rfl

theorem mergeSlots_old (notLess : ¬snap_slot lsn < snap_slot osn) :
    mergeSlots subst nslots (osn :: old) (lsn :: loop) = substEntry subst osn ::
      mergeSlots subst nslots old (if snap_slot lsn = snap_slot osn then loop else lsn :: loop) := by
  rw [mergeSlots, mergeOld, if_neg notLess]
  rfl

/-- The slots of the copy are slots of the snapshots. -/
theorem slot_mergeSlots {sn : SnapEntry} (member : sn ∈ mergeSlots subst nslots old loop) :
    ∃ sn' ∈ old ++ loop, snap_slot sn = snap_slot sn' := by
  induction old, loop using mergeOld.induct subst with
  | case1 loop =>
      rw [mergeSlots_nil] at member
      exact ⟨sn, List.mem_append_right _ (List.takeWhile_subset _ member), rfl⟩
  | case2 osn old induction =>
      rw [mergeSlots_cons] at member
      rcases List.mem_cons.mp member with equal | later
      · exact ⟨osn, by simp, equal ▸ snap_slot_substEntry subst osn⟩
      · have ⟨sn', member', same⟩ := induction later
        exact ⟨sn', List.mem_cons_of_mem _ member', same⟩
  | case3 osn old lsn loop less induction =>
      rw [mergeSlots_less less] at member
      rcases List.mem_cons.mp member with equal | later
      · exact ⟨lsn, by simp, congrArg snap_slot equal⟩
      · have ⟨sn', member', same⟩ := induction later
        refine ⟨sn', ?_, same⟩
        rw [List.mem_append] at member' ⊢
        exact member'.imp_right (List.mem_cons_of_mem _)
  | case4 osn old lsn loop notLess induction =>
      rw [mergeSlots_old notLess] at member
      rcases List.mem_cons.mp member with equal | later
      · exact ⟨osn, by simp, equal ▸ snap_slot_substEntry subst osn⟩
      · have ⟨sn', member', same⟩ := induction later
        refine ⟨sn', ?_, same⟩
        rw [List.mem_append] at member' ⊢
        refine member'.imp (List.mem_cons_of_mem _) ?_
        split
        · exact List.mem_cons_of_mem _
        · exact id

theorem sorted_mergeSlots (sorted : Sorted old) (sorted' : Sorted loop) : Sorted (mergeSlots subst nslots old loop) := by
  induction old, loop using mergeOld.induct subst with
  | case1 loop =>
      rw [mergeSlots_nil]
      exact sorted'.sublist (List.takeWhile_sublist _)
  | case2 osn old induction =>
      have ⟨first, rest⟩ := List.pairwise_cons.mp sorted
      rw [mergeSlots_cons]
      refine List.pairwise_cons.mpr ⟨?_, induction rest sorted'⟩
      intro sn member
      have ⟨sn', member', same⟩ := slot_mergeSlots member
      rw [List.append_nil] at member'
      rw [snap_slot_substEntry, same]
      exact first sn' member'
  | case3 osn old lsn loop less induction =>
      have ⟨first, rest⟩ := List.pairwise_cons.mp sorted'
      rw [mergeSlots_less less]
      refine List.pairwise_cons.mpr ⟨?_, induction sorted rest⟩
      intro sn member
      have ⟨sn', member', same⟩ := slot_mergeSlots member
      rw [same]
      rcases List.mem_append.mp member' with isOld | isLoop
      · rcases List.mem_cons.mp isOld with equal | later
        · exact equal ▸ less
        · exact lt_trans less ((List.pairwise_cons.mp sorted).1 sn' later)
      · exact first sn' isLoop
  | case4 osn old lsn loop notLess induction =>
      have ⟨first, rest⟩ := List.pairwise_cons.mp sorted
      have ⟨first', rest'⟩ := List.pairwise_cons.mp sorted'
      have le : snap_slot osn ≤ snap_slot lsn := not_lt.mp notLess
      rw [mergeSlots_old notLess]
      refine List.pairwise_cons.mpr ⟨?_, induction rest ?_⟩
      · intro sn member
        have ⟨sn', member', same⟩ := slot_mergeSlots member
        rw [snap_slot_substEntry, same]
        rcases List.mem_append.mp member' with isOld | isLoop
        · exact first sn' isOld
        · split at isLoop
          · exact lt_of_le_of_lt le (first' sn' isLoop)
          · rename_i different
            rcases List.mem_cons.mp isLoop with equal | later
            · exact equal ▸ lt_of_le_of_ne le (Ne.symm different)
            · exact lt_of_le_of_lt le (first' sn' later)
      · split
        · exact rest'
        · exact sorted'

theorem length_mergeSlots : (mergeSlots subst nslots old loop).length ≤ old.length + loop.length := by
  induction old, loop using mergeOld.induct subst with
  | case1 loop =>
      rw [mergeSlots_nil, List.length_nil, Nat.zero_add]
      exact (List.takeWhile_sublist _).length_le
  | case2 osn old induction =>
      rw [mergeSlots_cons, List.length_cons, List.length_cons, Nat.add_right_comm]
      exact Nat.succ_le_succ induction
  | case3 osn old lsn loop less induction =>
      rw [mergeSlots_less less, List.length_cons, List.length_cons]
      exact Nat.succ_le_succ induction
  | case4 osn old lsn loop notLess induction =>
      rw [mergeSlots_old notLess, List.length_cons, List.length_cons, Nat.add_right_comm]
      refine Nat.succ_le_succ (le_trans induction ?_)
      apply Nat.add_le_add_left
      split
      · exact Nat.le_succ _
      · exact le_rfl

theorem length_mergeOld_le (subst : IRRef1 → IRRef1) (old loop : List SnapEntry) :
    (mergeOld subst old loop).2.length ≤ loop.length := by
  induction old, loop using mergeOld.induct subst with
  | case1 loop =>
      rw [mergeOld]
  | case2 osn old induction =>
      rw [mergeOld]
      exact induction
  | case3 osn old lsn loop less induction =>
      rw [mergeOld, if_pos less]
      exact Nat.le_succ_of_le induction
  | case4 osn old lsn loop notLess induction =>
      rw [mergeOld, if_neg notLess]
      apply le_trans induction
      split
      · exact Nat.le_succ _
      · exact le_rfl

/-! ## The loops -/

variable (subst) in
theorem substSlots_eq {omap loopmap nmap onent : Nat} {map : Nat → SnapEntry} (steps n ln nn : Nat)
    (placed : Placed map (omap + n) old) (ends : n + old.length = onent)
    (placed' : Placed map (loopmap + ln) (loop ++ [SENTINEL])) (small : ∀ osn ∈ old, snap_slot osn < 255)
    (behind : omap + onent ≤ nmap) (behind' : loopmap + ln + loop.length + 1 ≤ nmap)
    (enough : old.length + loop.length < steps) :
    ∃ ln', substSlots subst omap loopmap nmap onent steps n ln nn map =
        some (ln', nn + (mergeOld subst old loop).1.length, written map (nmap + nn) (mergeOld subst old loop).1) ∧
      Placed (written map (nmap + nn) (mergeOld subst old loop).1) (loopmap + ln')
        ((mergeOld subst old loop).2 ++ [SENTINEL]) ∧
      loopmap + ln' + (mergeOld subst old loop).2.length + 1 ≤ nmap := by
  have length (nn : Nat) (w : List SnapEntry) : nn + 1 + w.length = nn + (w.length + 1) := by omega
  -- What is written is behind what is read.
  induction old, loop using mergeOld.induct subst generalizing map steps n ln nn with
  | case1 loop =>
      match steps, enough with
      | steps + 1, _ =>
          have notLess : ¬n < onent := by
            rw [List.length_nil] at ends
            omega
          rw [substSlots, if_neg notLess, mergeOld]
          exact ⟨ln, rfl, placed', behind'⟩
  | case2 osn old induction =>
      match steps, enough with
      | steps + 1, enough =>
          have ⟨here, rest⟩ := placed_cons.mp placed
          have ⟨here', _⟩ := placed_cons.mp placed'
          rw [List.length_cons] at ends enough
          have low : snap_slot osn < 255 := small osn List.mem_cons_self
          have notLess : ¬snap_slot SENTINEL < snap_slot osn := by
            rw [snap_slot_sentinel]
            omega
          have different : snap_slot SENTINEL ≠ snap_slot osn := by
            rw [snap_slot_sentinel]
            omega
          rw [substSlots, if_pos (by omega), here, here']
          dsimp only
          rw [if_neg notLess, if_neg different, mergeOld]
          have below : omap + n + 1 + old.length ≤ nmap + nn := by omega
          have ⟨ln', result, after⟩ := induction steps (n + 1) ln (nn + 1)
            (rest.update below (substEntry subst osn)) (by omega)
            (placed'.update (le_trans behind' (Nat.le_add_right ..)) _)
            (fun sn member => small sn (List.mem_cons_of_mem _ member)) behind' (by omega)
          exact ⟨ln', result.trans (by rw [length]; rfl), after⟩
  | case3 osn old lsn loop less induction =>
      match steps, enough with
      | steps + 1, enough =>
          have ⟨here, _⟩ := placed_cons.mp placed
          have ⟨here', rest⟩ := placed_cons.mp placed'
          have fewer : (osn :: old).length + loop.length < steps := Nat.lt_of_succ_lt_succ enough
          rw [List.length_cons] at behind'
          have more : n < onent := by
            rw [List.length_cons] at ends
            omega
          rw [substSlots, if_pos more, here, here']
          dsimp only
          rw [if_pos less, mergeOld, if_pos less]
          have below : omap + n + (osn :: old).length ≤ nmap + nn := by omega
          have below' : loopmap + ln + 1 + (loop ++ [SENTINEL]).length ≤ nmap + nn := by
            rw [List.length_append, List.length_singleton]
            omega
          have ⟨ln', result, after⟩ := induction steps n (ln + 1) (nn + 1) (placed.update below lsn) ends
            (rest.update below' lsn) small (by omega) fewer
          exact ⟨ln', result.trans (by rw [length]; rfl), after⟩
  | case4 osn old lsn loop notLess induction =>
      match steps, enough with
      | steps + 1, enough =>
          have ⟨here, rest⟩ := placed_cons.mp placed
          have ⟨here', rest'⟩ := placed_cons.mp placed'
          rw [List.length_cons] at ends
          rw [List.length_cons, List.length_cons] at enough
          rw [List.length_cons] at behind'
          rw [substSlots, if_pos (by omega), here, here']
          dsimp only
          rw [if_neg notLess, mergeOld, if_neg notLess]
          have small' : ∀ sn ∈ old, snap_slot sn < 255 := fun sn member => small sn (List.mem_cons_of_mem _ member)
          have below : omap + n + 1 + old.length ≤ nmap + nn := by omega
          by_cases same : snap_slot lsn = snap_slot osn
          · simp only [dif_pos same] at induction
            rw [if_pos same, if_pos same]
            have below' : loopmap + ln + 1 + (loop ++ [SENTINEL]).length ≤ nmap + nn := by
              rw [List.length_append, List.length_singleton]
              omega
            have ⟨ln', result, after⟩ := induction steps (n + 1) (ln + 1) (nn + 1)
              (rest.update below (substEntry subst osn)) (by omega) (rest'.update below' _) small' (by omega) (by omega)
            exact ⟨ln', result.trans (by rw [length]; rfl), after⟩
          · simp only [dif_neg same] at induction
            rw [if_neg same, if_neg same]
            have below' : loopmap + ln + (lsn :: loop ++ [SENTINEL]).length ≤ nmap + nn := by
              rw [List.length_append, List.length_cons, List.length_singleton]
              omega
            have ⟨ln', result, after⟩ := induction steps (n + 1) ln (nn + 1)
              (rest.update below (substEntry subst osn)) (by omega) (placed'.update below' _) small'
              (by rw [List.length_cons]; omega) (by rw [List.length_cons]; omega)
            exact ⟨ln', result.trans (by rw [length]; rfl), after⟩

theorem substRest_eq {loopmap nmap : Nat} {map : Nat → SnapEntry} (steps ln nn : Nat)
    (placed : Placed map (loopmap + ln) (loop ++ [SENTINEL])) (low : nslots ≤ 255)
    (behind : loopmap + ln + loop.length + 1 ≤ nmap) (enough : loop.length < steps) :
    substRest loopmap nmap nslots steps ln nn map =
      some (nn + (loop.takeWhile fun lsn => snap_slot lsn < nslots).length,
        written map (nmap + nn) (loop.takeWhile fun lsn => snap_slot lsn < nslots)) := by
  induction loop generalizing map steps ln nn with
  | nil =>
      match steps, enough with
      | steps + 1, _ =>
          have ⟨here, _⟩ := placed_cons.mp placed
          have notLess : ¬snap_slot SENTINEL < nslots := by
            rw [snap_slot_sentinel]
            omega
          rw [substRest, here, if_neg notLess]
          rfl
  | cons lsn loop induction =>
      match steps, enough with
      | steps + 1, enough =>
          have ⟨here, rest⟩ := placed_cons.mp placed
          rw [List.length_cons] at behind
          rw [substRest, here]
          by_cases less : snap_slot lsn < nslots
          · have below : loopmap + ln + 1 + (loop ++ [SENTINEL]).length ≤ nmap + nn := by
              rw [List.length_append, List.length_singleton]
              omega
            have taken : (lsn :: loop).takeWhile (fun lsn => decide (snap_slot lsn < nslots)) =
                lsn :: loop.takeWhile fun lsn => decide (snap_slot lsn < nslots) :=
              List.takeWhile_cons_of_pos (p := fun lsn => decide (snap_slot lsn < nslots)) (decide_eq_true less)
            rw [if_pos less, taken, induction steps (ln + 1) (nn + 1) (rest.update below lsn) (by omega)
              (Nat.lt_of_succ_lt_succ enough), List.length_cons, Nat.add_right_comm nn 1]
            rfl
          · have taken : (lsn :: loop).takeWhile (fun lsn => decide (snap_slot lsn < nslots)) = [] := by
              apply List.takeWhile_cons_of_neg
              rwa [decide_eq_true_eq]
            rw [if_neg less, taken]
            rfl

theorem copyLinks_eq {links : List SnapEntry} {omap nmap : Nat} {map : Nat → SnapEntry} (placed : Placed map omap links)
    (behind : omap + links.length ≤ nmap) : copyLinks omap nmap links.length map = written map nmap links := by
  induction links generalizing omap nmap map with
  | nil => rfl
  | cons sn links induction =>
      have ⟨here, rest⟩ := placed_cons.mp placed
      rw [List.length_cons] at behind
      rw [List.length_cons, copyLinks, here, written]
      exact induction (rest.update (by omega) sn) (by omega)

end

end TvmJit.Snap
