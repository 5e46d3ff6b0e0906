import TvmJit.Snap.Recording

/-! What the headers and the map hold while a loop is unrolled. The last snapshot of the recording is the loop
snapshot, which has the sentinel for its PC, and the copies are behind it. -/

namespace TvmJit.Snap

open Foundation Function

/-- The snapshots of the recording are `taken` and the loop snapshot. -/
structure Unrolling (st : SnapState) (lps : LoopState) (taken : List Taken) (loop : Taken) (copies : List Taken) : Prop
    where
  represents : Represents st (taken ++ loop.withPc SENTINEL :: copies)
  onsnap_eq : lps.onsnap = taken.length + 1
  nsnapmap_eq : lps.nsnapmap = offset taken + loop.size
  loopmap_eq : lps.loopmap = offset taken
  psentinel_eq : lps.psentinel = offset taken + loop.entries.length
  -- The PC of snapshot #0 and the loop snapshot must match.
  samePc : taken.head?.map Taken.pc = some loop.pc
  ref_eq : (st.snap taken.length).ref = lps.invar
  osnap_pos : 0 < lps.osnap
  osnap_le : lps.osnap ≤ taken.length
  -- There is no copy to overwrite before the first one, but LOOP is a guard.
  guarded : st.guardemit = true ∨ copies ≠ []
  room : offset copies + loop.entries.length ≤ offset (taken.take lps.osnap) + lps.osnap * loop.entries.length
  grown : lps.nsnapmap * 2 + (lps.onsnap - 2) * loop.entries.length ≤ st.sizesnapmap

/-- The copy of a snapshot. -/
def Taken.copied (snapshot loop : Taken) (subst : IRRef1 → IRRef1) : Taken where
  entries := mergeSlots subst snapshot.nslots snapshot.entries loop.entries
  pc := snapshot.pc
  frames := snapshot.frames
  nslots := snapshot.nslots
  topslot := snapshot.topslot
  sorted := sorted_mergeSlots snapshot.sorted loop.sorted
  slots_lt := by
    intro sn member
    have ⟨sn', member', same⟩ := slot_mergeSlots member
    rw [same]
    rcases List.mem_append.mp member' with isOld | isLoop
    · exact snapshot.slots_lt sn' isOld
    · exact loop.slots_lt sn' isLoop
  nslots_le := snapshot.nslots_le

theorem Taken.size_copied_le (snapshot loop : Taken) (subst : IRRef1 → IRRef1) :
    (snapshot.copied loop subst).size ≤ snapshot.size + loop.entries.length := by
  have entries : (mergeSlots subst snapshot.nslots snapshot.entries loop.entries).length ≤
      snapshot.entries.length + loop.entries.length := length_mergeSlots
  have same : (snapshot.copied loop subst).size =
      (mergeSlots subst snapshot.nslots snapshot.entries loop.entries).length + snapshot.links.length := rfl
  rw [same, Taken.size]
  omega

section

variable {st st' : SnapState} {lps : LoopState} {taken copies : List Taken} {snapshot loop : Taken}

/-! ## The start -/

/-- The sentinel is in the place of a PC. -/
theorem Represents.withPc (represents : Represents st (taken ++ snapshot :: copies)) (pc : SnapEntry) :
    Represents { st with snapmap := update st.snapmap (offset taken + snapshot.entries.length) pc }
      (taken ++ snapshot.withPc pc :: copies) := by
  have same : offset (taken ++ snapshot.withPc pc :: copies) = offset (taken ++ snapshot :: copies) := by
    rw [offset_append, offset_append]
    rfl
  exact {
    nsnap_eq := by
      have count := represents.nsnap_eq
      rw [List.length_append] at count ⊢
      exact count
    nsnapmap_eq := same ▸ represents.nsnapmap_eq
    ends_lt := same ▸ represents.ends_lt
    held := represents.held.setPc pc }

theorem unrolling_start {subst : IRRef1 → IRRef1} (represents : Represents st (taken ++ [loop]))
    (samePc : taken.head?.map Taken.pc = some loop.pc) (last : (st.snap (st.nsnap - 1)).ref = st.J.nins)
    (started : loop_unroll_start st subst = some (st', lps)) : Unrolling st' lps taken loop [] := by
  have ⟨snapno, header, ends⟩ := represents.last
  have ⟨grown, isGrown, result⟩ := Option.map_eq_some_iff.mp started
  have ⟨sizesnap, same⟩ := lj_snap_grow_buf_spec isGrown
  have nsnap : st.nsnap = taken.length + 1 := by
    rw [represents.nsnap_eq, List.length_append]
    rfl
  subst same
  have ⟨sizesnapmap, grownMap, more, enough⟩ := lj_snap_grow_map_spec
    { st with J := (lj_ir_emit st.J ⟨0, IRT_NIL ||| IRT_GUARD, .loop, 0⟩).1, guardemit := true, sizesnap }
    (st.nsnapmap * 2 + (st.nsnap - 2) * (st.snap (st.nsnap - 1)).nent)
  dsimp only at result
  rw [grownMap, snapno, header.mapofs_eq, header.nent_eq] at result
  cases result
  have behind : Represents { st with
      J := (lj_ir_emit st.J ⟨0, IRT_NIL ||| IRT_GUARD, .loop, 0⟩).1, guardemit := true, sizesnap, sizesnapmap }
      (taken ++ [loop]) :=
    ⟨represents.nsnap_eq, represents.nsnapmap_eq, represents.ends_lt, represents.held.mono more⟩
  exact {
    represents := behind.withPc SENTINEL
    onsnap_eq := nsnap
    nsnapmap_eq := ends
    loopmap_eq := rfl
    psentinel_eq := rfl
    samePc := samePc
    ref_eq := snapno ▸ last
    osnap_pos := Nat.one_pos
    osnap_le := by
      cases taken with
      | nil => cases samePc
      | cons first taken => exact Nat.succ_le_succ (Nat.zero_le _)
    guarded := .inl rfl
    room := by
      rw [Nat.one_mul]
      exact Nat.add_le_add_right (Nat.zero_le _) _
    grown := by
      rw [snapno, header.nent_eq] at enough
      exact enough }

/-! ## Copies -/

/-- The map of a copy is written behind the maps that it is read from. -/
theorem subst_map_eq (subst : IRRef1 → IRRef1) {map : Nat → SnapEntry} {omap loopmap : Nat} (nmap : Nat)
    (placed : Placed map omap snapshot.map) (placed' : Placed map loopmap (loop.withPc SENTINEL).map)
    (behind : omap + snapshot.size ≤ nmap) (behind' : loopmap + loop.size ≤ nmap) :
    ∃ ln nn map', substSlots subst omap loopmap nmap snapshot.entries.length substSteps 0 0 0 map = some (ln, nn, map') ∧
      ∃ map'', substRest loopmap nmap snapshot.nslots substSteps ln nn map' =
          some ((snapshot.copied loop subst).entries.length, map'') ∧
        copyLinks (omap + snapshot.entries.length) (nmap + (snapshot.copied loop subst).entries.length)
          snapshot.links.length map'' = written map nmap (snapshot.copied loop subst).map := by
  obtain ⟨entries, links⟩ := placed_append.mp placed
  have sentinel : (loop.withPc SENTINEL).map = (loop.entries ++ [SENTINEL]) ++ loop.frames := by
    rw [List.append_assoc]
    rfl
  rw [sentinel] at placed'
  obtain ⟨loopEntries, _⟩ := placed_append.mp placed'
  have count := snapshot.entries_le
  have loopCount := loop.entries_le
  have nslots := snapshot.nslots_le
  have max : LJ_MAX_JSLOTS = 250 := rfl
  have steps : substSteps = 512 := rfl
  have loopLinks : loop.links.length = loop.frames.length + 1 := rfl
  rw [Taken.size] at behind behind'
  obtain ⟨ln, slots, rest, low⟩ := substSlots_eq subst substSteps 0 0 0 entries (Nat.zero_add _) loopEntries
    (fun osn member => lt_of_lt_of_le (snapshot.slots_lt osn member) (by decide)) (show _ ≤ nmap by omega) (by omega)
    (by omega)
  have fewer : (mergeOld subst snapshot.entries loop.entries).2.length < substSteps := by
    have shorter := length_mergeOld_le subst snapshot.entries loop.entries
    omega
  have remaining := substRest_eq substSteps ln (0 + (mergeOld subst snapshot.entries loop.entries).1.length) rest
    (show snapshot.nslots ≤ 255 by omega) low fewer
  have copied : 0 + (mergeOld subst snapshot.entries loop.entries).1.length + ((mergeOld subst snapshot.entries
      loop.entries).2.takeWhile fun lsn => snap_slot lsn < snapshot.nslots).length =
      (snapshot.copied loop subst).entries.length := by
    rw [Nat.zero_add, ← List.length_append]
    rfl
  have entriesWritten : written (written map (nmap + 0) (mergeOld subst snapshot.entries loop.entries).1)
      (nmap + (0 + (mergeOld subst snapshot.entries loop.entries).1.length)) ((mergeOld subst snapshot.entries
      loop.entries).2.takeWhile fun lsn => snap_slot lsn < snapshot.nslots) =
      written map nmap (snapshot.copied loop subst).entries := by
    rw [Nat.zero_add]
    exact (written_append ..).symm
  have mapWritten : written map nmap (snapshot.copied loop subst).map =
      written (written map nmap (snapshot.copied loop subst).entries)
        (nmap + (snapshot.copied loop subst).entries.length) snapshot.links := written_append ..
  rw [copied, entriesWritten] at remaining
  refine ⟨ln, _, _, slots, _, remaining, ?_⟩
  rw [mapWritten]
  apply copyLinks_eq
  · apply links.written
    omega
  · omega

/-- The copies that stay when one is added. -/
def keptCopies (st : SnapState) (copies : List Taken) : List Taken :=
  if st.guardemit then copies else copies.dropLast

/-- The copy that is overwritten or dropped. -/
theorem Unrolling.exists_last (unrolling : Unrolling st lps taken loop copies) (guard : st.guardemit = false) :
    ∃ last, taken ++ loop.withPc SENTINEL :: copies =
      (taken ++ loop.withPc SENTINEL :: keptCopies st copies) ++ [last] := by
  have notGuard : ¬st.guardemit = true := by
    rw [guard]
    exact Bool.false_ne_true
  have ⟨copies', last, same⟩ := (List.eq_nil_or_concat copies).resolve_left (unrolling.guarded.resolve_left notGuard)
  refine ⟨last, ?_⟩
  rw [keptCopies, if_neg notGuard, same, List.concat_eq_append, List.dropLast_concat, List.append_assoc]
  rfl

/-- The place of a copy is behind those that stay. -/
theorem Unrolling.place (unrolling : Unrolling st lps taken loop copies)
    (ends : offset (taken ++ loop.withPc SENTINEL :: keptCopies st copies) + 1 < 2 ^ 16) :
    Maps st.snap st.snapmap st.sizesnapmap (taken ++ loop.withPc SENTINEL :: keptCopies st copies) ∧
      (if st.guardemit then st.nsnap else st.nsnap - 1) =
        (taken ++ loop.withPc SENTINEL :: keptCopies st copies).length ∧
      (if st.guardemit then st.nsnapmap else (st.snap (st.nsnap - 1)).mapofs) =
        offset (taken ++ loop.withPc SENTINEL :: keptCopies st copies) ∧
      (if st.guardemit then u16 (st.nsnap + 1) else st.nsnap) =
        (taken ++ loop.withPc SENTINEL :: keptCopies st copies).length + 1 := by
  have represents := unrolling.represents
  cases guard : st.guardemit with
  | true =>
      have all : keptCopies st copies = copies := if_pos guard
      have few := length_le_offset (taken ++ loop.withPc SENTINEL :: keptCopies st copies)
      rw [all] at few ends ⊢
      refine ⟨represents.held, represents.nsnap_eq, represents.nsnapmap_eq, ?_⟩
      rw [if_pos rfl, represents.nsnap_eq]
      exact u16_eq (by omega)
  | false =>
      have ⟨last, split⟩ := unrolling.exists_last guard
      rw [split] at represents
      have ⟨snapno, header, _⟩ := represents.last
      rw [if_neg Bool.false_ne_true, if_neg Bool.false_ne_true, if_neg Bool.false_ne_true, snapno]
      exact ⟨represents.held.left, rfl, header.mapofs_eq, represents.nsnap_eq.trans List.length_append⟩

/-- The map of a snapshot ends where that of the next one is. -/
theorem snap_nextofs_eq {next : Taken} (represents : Represents st (taken ++ snapshot :: next :: copies)) :
    snap_nextofs st taken.length = offset taken + snapshot.entries.length + snapshot.links.length := by
  have notLast : taken.length + 1 ≠ st.nsnap := by
    rw [represents.nsnap_eq, List.length_append, List.length_cons, List.length_cons]
    omega
  have split : taken ++ snapshot :: next :: copies = (taken ++ [snapshot]) ++ next :: copies := by simp
  have held := represents.held
  rw [split] at held
  have header := held.header.mapofs_eq
  rw [List.length_append, offset_snoc] at header
  rw [snap_nextofs, if_neg notLast, Nat.add_assoc]
  exact header

theorem offset_keptCopies_le (st : SnapState) (copies : List Taken) : offset (keptCopies st copies) ≤ offset copies := by
  rw [keptCopies]
  split
  · exact le_rfl
  · rcases List.eq_nil_or_concat copies with empty | ⟨copies, last, same⟩
    · rw [empty]
      exact le_rfl
    · rw [same, List.concat_eq_append, List.dropLast_concat, offset_append]
      exact Nat.le_add_right ..

/-- The buffer has room for a copy. -/
theorem Unrolling.copy_fits (unrolling : Unrolling st lps taken loop copies) {before after : List Taken}
    (split : taken = before ++ snapshot :: after) (count : before.length = lps.osnap) (subst : IRRef1 → IRRef1) :
    offset (taken ++ loop.withPc SENTINEL :: keptCopies st copies) + (snapshot.copied loop subst).size ≤ st.sizesnapmap := by
  have room := unrolling.room
  have grown := unrolling.grown
  have kept := offset_keptCopies_le st copies
  have copy := snapshot.size_copied_le loop subst
  have few : lps.osnap ≤ lps.onsnap - 2 := by
    rw [unrolling.onsnap_eq, split, List.length_append, List.length_cons]
    omega
  have scaled := Nat.mul_le_mul_right loop.entries.length few
  have all : offset taken = offset before + (snapshot.size + offset after) := by rw [split, offset_append, offset_cons]
  have part : taken.take lps.osnap = before := by rw [split, ← count, List.take_left]
  rw [part] at room
  rw [unrolling.nsnapmap_eq] at grown
  rw [offset_append, offset_cons, Taken.size_withPc]
  omega

theorem unrolling_copy (unrolling : Unrolling st lps taken loop copies) (here : taken[lps.osnap]? = some snapshot)
    (fits : Fits (offset (taken ++ loop.withPc SENTINEL :: keptCopies st copies)) (snapshot.copied loop lps.subst)) :
    ∃ st', loop_subst_snap lps st = some st' ∧ Unrolling st' { lps with osnap := lps.osnap + 1 } taken loop
      (keptCopies st copies ++ [snapshot.copied loop lps.subst]) := by
  have ends := fits.ends_lt
  have positive := (snapshot.copied loop lps.subst).size_pos
  have ⟨held, snapno, nmapofs, nsnap⟩ := unrolling.place (by omega)
  have ⟨before, after, split, count⟩ := exists_split here
  have represents := unrolling.represents
  have inOrder : taken ++ loop.withPc SENTINEL :: copies =
      before ++ snapshot :: (after ++ loop.withPc SENTINEL :: copies) := by rw [split, List.append_assoc]; rfl
  rw [inOrder] at represents
  have header := represents.held.header
  have map := represents.held.map
  have loopMap := unrolling.represents.held.map
  have nextofs : snap_nextofs st before.length = offset before + snapshot.entries.length + snapshot.links.length := by
    cases after with
    | nil => exact snap_nextofs_eq represents
    | cons next after => exact snap_nextofs_eq represents
  have offset_split : offset taken = offset before + (snapshot.size + offset after) := by
    rw [split, offset_append, offset_cons]
  have offset_kept : offset (taken ++ loop.withPc SENTINEL :: keptCopies st copies) =
      offset taken + (loop.size + offset (keptCopies st copies)) := by
    rw [offset_append, offset_cons, Taken.size_withPc]
  have ⟨ln, nn, map', slots, map'', rest, links⟩ :=
    subst_map_eq lps.subst (offset (taken ++ loop.withPc SENTINEL :: keptCopies st copies)) map loopMap (by omega)
      (by omega)
  have ⟨result, copied⟩ : ∃ result, loop_subst_snap lps st = result := ⟨_, rfl⟩
  have computed := copied
  rw [loop_subst_snap] at computed
  dsimp only at computed
  rw [snapno, nmapofs, nsnap, ← count, header.mapofs_eq, header.nent_eq, header.nslots_eq, header.topslot_eq,
    unrolling.loopmap_eq, nextofs, slots] at computed
  dsimp only [Option.bind_eq_bind, Option.bind_some] at computed
  rw [rest] at computed
  dsimp only [Option.bind_eq_bind, Option.bind_some] at computed
  rw [Nat.add_sub_cancel_left, links] at computed
  rw [← computed] at copied
  refine ⟨_, copied, ?_⟩
  have inside := unrolling.copy_fits split count lps.subst
  have few := (snapshot.copied loop lps.subst).entries_le
  have holds : (SnapShot.mk (u16 (offset (taken ++ loop.withPc SENTINEL :: keptCopies st copies))) (u16 st.J.nins)
      snapshot.nslots snapshot.topslot (u8 (snapshot.copied loop lps.subst).entries.length) 0).Holds
      (offset (taken ++ loop.withPc SENTINEL :: keptCopies st copies)) (snapshot.copied loop lps.subst) :=
    ⟨u16_eq (by omega), u8_eq (slots_lt_u8 few), rfl, rfl⟩
  have behind : taken ++ loop.withPc SENTINEL :: (keptCopies st copies ++ [snapshot.copied loop lps.subst]) =
      (taken ++ loop.withPc SENTINEL :: keptCopies st copies) ++ [snapshot.copied loop lps.subst] := by simp
  have part : taken.take lps.osnap = before := by rw [split, ← count, List.take_left]
  have part' : taken.take (lps.osnap + 1) = before ++ [snapshot] := by
    rw [List.take_add_one, part, here]
    rfl
  exact {
    represents := by
      rw [behind]
      exact {
        nsnap_eq := (List.length_append : (_ ++ [snapshot.copied loop lps.subst]).length = _).symm
        nsnapmap_eq := by
          rw [offset_snoc]
          have same : offset (taken ++ loop.withPc SENTINEL :: keptCopies st copies) +
              (snapshot.copied loop lps.subst).entries.length + snapshot.links.length =
              offset (taken ++ loop.withPc SENTINEL :: keptCopies st copies) + (snapshot.copied loop lps.subst).size :=
            Nat.add_assoc ..
          dsimp only
          rw [same]
          exact u16_eq ends
        ends_lt := by
          rw [offset_snoc]
          exact ends
        held := held.snoc holds inside }
    onsnap_eq := unrolling.onsnap_eq
    nsnapmap_eq := unrolling.nsnapmap_eq
    loopmap_eq := unrolling.loopmap_eq
    psentinel_eq := unrolling.psentinel_eq
    samePc := unrolling.samePc
    ref_eq := by
      have low : taken.length ≠ (taken ++ loop.withPc SENTINEL :: keptCopies st copies).length := by
        rw [List.length_append, List.length_cons]
        omega
      dsimp only
      rw [update_of_ne low]
      exact unrolling.ref_eq
    osnap_pos := Nat.succ_pos _
    osnap_le := (List.getElem?_eq_some_iff.mp here).1
    guarded := .inr (by simp)
    room := by
      have room := unrolling.room
      have copy := snapshot.size_copied_le loop lps.subst
      have kept := offset_keptCopies_le st copies
      rw [part] at room
      rw [part', offset_snoc, offset_snoc, Nat.succ_mul]
      omega
    grown := unrolling.grown }

/-- Instructions are emitted between the copies. -/
theorem unrolling_emit (unrolling : Unrolling st lps taken loop copies) (J : JitState) {guardemit : Bool}
    (kept : st.guardemit = true → guardemit = true) (ins : IRRef) (subst : IRRef1 → IRRef1) :
    Unrolling { st with J, guardemit } { lps with ins, subst } taken loop copies where
  represents :=
    have represents := unrolling.represents
    ⟨represents.nsnap_eq, represents.nsnapmap_eq, represents.ends_lt, represents.held⟩
  onsnap_eq := unrolling.onsnap_eq
  nsnapmap_eq := unrolling.nsnapmap_eq
  loopmap_eq := unrolling.loopmap_eq
  psentinel_eq := unrolling.psentinel_eq
  samePc := unrolling.samePc
  ref_eq := unrolling.ref_eq
  osnap_pos := unrolling.osnap_pos
  osnap_le := unrolling.osnap_le
  guarded := unrolling.guarded.imp_left kept
  room := unrolling.room
  grown := unrolling.grown

/-- A snapshot before the end of the recording is none of the copies. -/
theorem Unrolling.exists_snapshot (unrolling : Unrolling st lps taken loop copies) (before : lps.ins < lps.invar)
    (belongs : (st.snap lps.osnap).ref ≤ lps.ins) : ∃ snapshot, taken[lps.osnap]? = some snapshot := by
  have different : lps.osnap ≠ taken.length := by
    intro same
    rw [same, unrolling.ref_eq] at belongs
    exact absurd before (not_lt.mpr belongs)
  exact ⟨_, List.getElem?_eq_getElem (lt_of_le_of_ne unrolling.osnap_le different)⟩

/-! ## The end -/

/-- The PC that is restored. -/
theorem Unrolling.pc_eq (unrolling : Unrolling st lps taken loop copies) : st.snapmap (st.snap 0).nent = loop.pc := by
  have held := unrolling.represents.held
  have samePc := unrolling.samePc
  cases taken with
  | nil => cases samePc
  | cons first taken =>
      have header : (st.snap 0).Holds 0 first := held.headers.1
      have map : Placed st.snapmap 0 first.map := (placed_append.mp held.placed).1
      have ⟨_, links⟩ := placed_append.mp map
      have ⟨pc, _⟩ := placed_cons.mp links
      rw [Nat.zero_add] at pc
      rw [header.nent_eq, pc]
      exact Option.some.inj samePc

theorem represents_end (unrolling : Unrolling st lps taken loop copies) :
    Represents (loop_unroll_end lps st) (taken ++ loop :: keptCopies st copies) := by
  have pc := unrolling.pc_eq
  have represents := unrolling.represents
  have restored : loop = (loop.withPc SENTINEL).withPc loop.pc := rfl
  cases guard : st.guardemit with
  | true =>
      have all : keptCopies st copies = copies := if_pos guard
      rw [loop_unroll_end, if_pos guard, all, restored, pc, unrolling.psentinel_eq]
      exact represents.withPc loop.pc
  | false =>
      have notGuard : ¬st.guardemit = true := by
        rw [guard]
        exact Bool.false_ne_true
      have ⟨last, split⟩ := unrolling.exists_last guard
      rw [split] at represents
      have ⟨snapno, header, _⟩ := represents.last
      have ends := represents.ends_lt
      rw [offset_snoc] at ends
      rw [loop_unroll_end, if_neg notGuard, snapno, header.mapofs_eq, u16_eq (by omega), pc, unrolling.psentinel_eq]
      have dropped : Represents { st with
          nsnap := (taken ++ loop.withPc SENTINEL :: keptCopies st copies).length
          nsnapmap := offset (taken ++ loop.withPc SENTINEL :: keptCopies st copies) }
          (taken ++ loop.withPc SENTINEL :: keptCopies st copies) :=
        ⟨rfl, rfl, by omega, represents.held.left⟩
      exact dropped.withPc loop.pc

theorem represents_undo (unrolling : Unrolling st lps taken loop copies) :
    Represents (loop_undo lps st) (taken ++ [loop]) := by
  have pc := unrolling.pc_eq
  have represents := unrolling.represents
  have ends := represents.ends_lt
  have last : lps.onsnap - 1 = taken.length := by rw [unrolling.onsnap_eq, Nat.add_sub_cancel]
  have header := represents.held.header
  rw [offset_append, offset_cons, Taken.size_withPc] at ends
  have split : taken ++ loop.withPc SENTINEL :: copies = (taken ++ [loop.withPc SENTINEL]) ++ copies := by simp
  rw [split] at represents
  have first : Represents { st with
      J := lj_ir_rollback st.J lps.invar, nsnap := lps.onsnap, nsnapmap := lps.nsnapmap, guardemit := false }
      (taken ++ [loop.withPc SENTINEL]) := {
    nsnap_eq := unrolling.onsnap_eq.trans (List.length_append : (taken ++ [loop.withPc SENTINEL]).length = _).symm
    nsnapmap_eq := by
      rw [offset_snoc, Taken.size_withPc]
      exact unrolling.nsnapmap_eq
    ends_lt := by
      rw [offset_snoc, Taken.size_withPc]
      omega
    held := represents.held.left }
  rw [loop_undo, last, header.mapofs_eq, header.nent_eq, pc, u16_eq (by rw [unrolling.nsnapmap_eq]; omega)]
  exact first.withPc loop.pc

end

end TvmJit.Snap
