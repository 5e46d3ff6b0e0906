import TvmJit.Snap.Maps

/-! What the headers and the map hold after a snapshot is added, shrunk or changed. -/

namespace TvmJit.Snap

open Foundation Function

/-- The headers, the map and the two counters are those of the snapshots. -/
structure Represents (st : SnapState) (taken : List Taken) : Prop where
  nsnap_eq : st.nsnap = taken.length
  nsnapmap_eq : st.nsnapmap = offset taken
  ends_lt : offset taken < 2 ^ 16
  held : Maps st.snap st.snapmap st.sizesnapmap taken

/-- The snapshot has an end that 16 bits can hold and frames that 8 bits can hold. -/
structure Fits (mapofs : Nat) (snapshot : Taken) : Prop where
  ends_lt : mapofs + snapshot.size < 2 ^ 16
  topslot_lt : snapshot.topslot < 2 ^ 8

theorem u16_eq {n : Nat} (small : n < 2 ^ 16) : u16 n = n := Nat.mod_eq_of_lt small

theorem u8_eq {n : Nat} (small : n < 2 ^ 8) : u8 n = n := Nat.mod_eq_of_lt small

theorem slots_lt_u8 {n : Nat} (le : n ≤ LJ_MAX_JSLOTS) : n < 2 ^ 8 := lt_of_le_of_lt le (by decide)

theorem lj_snap_grow_map_spec (st : SnapState) (need : Nat) :
    ∃ sizesnapmap, lj_snap_grow_map st need = { st with sizesnapmap } ∧ st.sizesnapmap ≤ sizesnapmap ∧ need ≤ sizesnapmap := by
  rw [lj_snap_grow_map]
  split_ifs
  · exact ⟨_, rfl, by omega, by omega⟩
  · exact ⟨_, rfl, by omega, by omega⟩
  · exact ⟨_, rfl, by omega, by omega⟩
  · exact ⟨_, rfl, le_rfl, by omega⟩

theorem snapshot_stack_J (recorder : Recorder) (st : SnapState) (snapno nsnapmap : Nat) :
    (snapshot_stack recorder st snapno nsnapmap).J = st.J := by
  have ⟨_, grown, _⟩ := lj_snap_grow_map_spec st
    (nsnapmap + (recorder.baseslot + recorder.maxslot) + (recorder.framedepth + 1))
  rw [snapshot_stack, grown]

theorem lj_snap_grow_buf_spec {st st' : SnapState} {need : Nat} (grown : lj_snap_grow_buf st need = some st') :
    ∃ sizesnap, st' = { st with sizesnap } := by
  rw [lj_snap_grow_buf] at grown
  split_ifs at grown <;> cases grown
  · exact ⟨_, rfl⟩
  · exact ⟨_, rfl⟩

/-! ## Adding -/

/-- The snapshot of the stack. -/
def takenOf (recorder : Recorder) (J : JitState) : Taken where
  entries := snapshot_slots J recorder.slot (recorder.baseslot + recorder.maxslot)
  pc := recorder.pc
  frames := recorder.frames.flatMap Frame.links
  nslots := recorder.baseslot + recorder.maxslot
  topslot := (snapshot_framelinks recorder).2
  sorted := sorted_snapshot_slots recorder.slots_le
  slots_lt := slot_snapshot_slots recorder.slots_le
  nslots_le := recorder.slots_le

/-- The estimate for the buffer is enough. -/
theorem size_takenOf_le (recorder : Recorder) (J : JitState) :
    (takenOf recorder J).size ≤ recorder.baseslot + recorder.maxslot + (recorder.framedepth + 1) := by
  have entries : (takenOf recorder J).entries.length ≤ recorder.baseslot + recorder.maxslot :=
    (List.length_filterMap_le _ _).trans List.length_range.le
  have links : (takenOf recorder J).links.length = recorder.framedepth + 1 := congrArg Nat.succ recorder.framedepth_eq
  rw [Taken.size, links]
  exact Nat.add_le_add_right entries _

section

variable {st : SnapState} {taken : List Taken} {snapshot : Taken}

/-- A header that is written with the numbers of a snapshot that fits. -/
theorem Fits.holds {mapofs : Nat} (fits : Fits mapofs snapshot) (ref : Nat) :
    (SnapShot.mk (u16 mapofs) (u16 ref) (u8 snapshot.nslots) (u8 snapshot.topslot) (u8 snapshot.entries.length) 0).Holds
      mapofs snapshot where
  mapofs_eq := u16_eq (by have ends := fits.ends_lt; omega)
  nent_eq := u8_eq (slots_lt_u8 snapshot.entries_le)
  nslots_eq := u8_eq (slots_lt_u8 snapshot.nslots_le)
  topslot_eq := u8_eq fits.topslot_lt

theorem represents_snapshot_stack (recorder : Recorder) (held : Maps st.snap st.snapmap st.sizesnapmap taken)
    (nsnap_eq : st.nsnap = taken.length + 1) (fits : Fits (offset taken) (takenOf recorder st.J)) :
    Represents (snapshot_stack recorder st taken.length (offset taken)) (taken ++ [takenOf recorder st.J]) := by
  have ⟨sizesnapmap, grown, more, enough⟩ := lj_snap_grow_map_spec st
    (offset taken + (recorder.baseslot + recorder.maxslot) + (recorder.framedepth + 1))
  have room := size_takenOf_le recorder st.J
  have snoc := (held.mono more).snoc (fits.holds st.J.nins) (by omega)
  rw [snapshot_stack, grown]
  exact {
    nsnap_eq := by
      rw [List.length_append]
      exact nsnap_eq
    nsnapmap_eq := by
      rw [offset_snoc]
      exact u16_eq fits.ends_lt
    ends_lt := by
      rw [offset_snoc]
      exact fits.ends_lt
    held := by
      rw [Taken.map, written_append] at snoc
      exact snoc }

/-- The snapshots that stay when one is added. -/
def kept (st : SnapState) (taken : List Taken) : List Taken :=
  if merges st ∧ st.nsnap ≠ 1 then taken.dropLast else taken

theorem represents_nomerge {recorder : Recorder} {st' : SnapState} (represents : Represents st taken)
    (added : nomerge recorder st = some st') (fits : Fits (offset taken) (takenOf recorder st'.J)) :
    Represents st' (taken ++ [takenOf recorder st'.J]) := by
  have ⟨grown, isGrown, result⟩ := Option.map_eq_some_iff.mp added
  have ⟨sizesnap, same⟩ := lj_snap_grow_buf_spec isGrown
  subst same
  have few := length_le_offset taken
  have ends := fits.ends_lt
  have positive := (takenOf recorder st'.J).size_pos
  have count : u16 (taken.length + 1) = taken.length + 1 := u16_eq (by omega)
  rw [represents.nsnap_eq, represents.nsnapmap_eq] at result
  subst result
  rw [snapshot_stack_J] at fits ⊢
  exact represents_snapshot_stack recorder represents.held count fits

theorem represents_add {recorder : Recorder} {st' : SnapState} (represents : Represents st taken)
    (added : lj_snap_add recorder st = some st') (fits : Fits (offset (kept st taken)) (takenOf recorder st'.J)) :
    Represents st' (kept st taken ++ [takenOf recorder st'.J]) := by
  rw [lj_snap_add] at added
  by_cases merge : merges st
  · rw [if_pos merge] at added
    by_cases first : st.nsnap = 1
    · have all : kept st taken = taken := if_neg fun both => both.2 first
      rw [if_pos first] at added
      have behind : Represents { st with J := (lj_ir_emit st.J ⟨0, IRT_NIL, .nop, 0⟩).1 } taken :=
        ⟨represents.nsnap_eq, represents.nsnapmap_eq, represents.ends_lt, represents.held⟩
      rw [all] at fits ⊢
      exact represents_nomerge behind added fits
    · have others : kept st taken = taken.dropLast := if_pos ⟨merge, first⟩
      rw [if_neg first] at added
      rw [others] at fits ⊢
      rcases List.eq_nil_or_concat taken with empty | ⟨taken, last, same⟩
      · rw [represents.nsnap_eq, empty, List.length_nil, if_pos rfl] at added
        cases added
      · subst same
        rw [List.concat_eq_append] at represents fits ⊢
        rw [List.dropLast_concat] at fits ⊢
        have count : st.nsnap = taken.length + 1 := by
          rw [represents.nsnap_eq, List.length_append]
          rfl
        have header := represents.held.header
        rw [count, if_neg (Nat.succ_ne_zero _), Nat.add_sub_cancel, header.mapofs_eq] at added
        cases added
        rw [snapshot_stack_J] at fits ⊢
        exact represents_snapshot_stack recorder represents.held.left rfl fits
  · have all : kept st taken = taken := if_neg fun both => merge both.1
    rw [if_neg merge] at added
    rw [all] at fits ⊢
    exact represents_nomerge represents added fits

/-! ## Changing the last snapshot -/

/-- The snapshot without the slots that are not used. -/
def Taken.shrunk (snapshot : Taken) (used : Nat → Bool) (maxslot : Nat) (low : maxslot ≤ LJ_MAX_JSLOTS) : Taken where
  entries := snapshot.entries.filter fun sn => used (snap_slot sn)
  pc := snapshot.pc
  frames := snapshot.frames
  nslots := maxslot
  topslot := snapshot.topslot
  sorted := snapshot.sorted.sublist List.filter_sublist
  slots_lt := fun sn member => snapshot.slots_lt sn (List.mem_of_mem_filter member)
  nslots_le := low

/-- The header of the last snapshot. -/
theorem Represents.last (represents : Represents st (taken ++ [snapshot])) :
    st.nsnap - 1 = taken.length ∧ (st.snap taken.length).Holds (offset taken) snapshot ∧
      st.nsnapmap = offset taken + snapshot.size := by
  refine ⟨?_, represents.held.header, ?_⟩
  · rw [represents.nsnap_eq, List.length_append]
    rfl
  · rw [represents.nsnapmap_eq, offset_snoc]

/-- What is read from the map of a snapshot. -/
theorem mapEntries_eq {first last : Nat} {list : List SnapEntry} (placed : Placed st.snapmap first list)
    (ends : last = first + list.length) : mapEntries st first last = list := by
  rw [mapEntries, ends, Nat.add_sub_cancel_left]
  exact placed.map_range'

theorem represents_shrink (used : Nat → Bool) {maxslot : Nat} (low : maxslot ≤ LJ_MAX_JSLOTS)
    (represents : Represents st (taken ++ [snapshot])) :
    Represents (lj_snap_shrink used maxslot st) (taken ++ [snapshot.shrunk used maxslot low]) := by
  have ⟨snapno, header, ends⟩ := represents.last
  have ⟨entries, links⟩ := placed_append.mp represents.held.map
  have inside := represents.held.inside
  have ends_lt := represents.ends_lt
  have smaller : (snapshot.shrunk used maxslot low).size ≤ snapshot.size :=
    Nat.add_le_add_right (List.length_filter_le _ _) _
  have few := (snapshot.shrunk used maxslot low).entries_le
  rw [offset_snoc] at inside ends_lt
  have behind : st.nsnapmap = offset taken + snapshot.entries.length + snapshot.links.length := by
    rw [ends, Nat.add_assoc]
    rfl
  rw [lj_snap_shrink, snapno, header.mapofs_eq, header.nent_eq, mapEntries_eq entries rfl, mapEntries_eq links behind]
  exact {
    nsnap_eq := by
      rw [List.length_append]
      have count := represents.nsnap_eq
      rwa [List.length_append] at count
    nsnapmap_eq := by
      rw [offset_snoc]
      apply u16_eq
      exact lt_of_le_of_lt (Nat.add_le_add_left smaller _) ends_lt
    ends_lt := by
      rw [offset_snoc]
      exact lt_of_le_of_lt (Nat.add_le_add_left smaller _) ends_lt
    held := by
      have holds : (SnapShot.mk (offset taken) (st.snap taken.length).ref (u8 maxslot) (st.snap taken.length).topslot
          (u8 (snapshot.shrunk used maxslot low).entries.length) (st.snap taken.length).count).Holds (offset taken)
          (snapshot.shrunk used maxslot low) :=
        ⟨rfl, u8_eq (slots_lt_u8 few), u8_eq (slots_lt_u8 low), header.topslot_eq⟩
      have snoc := represents.held.left.snoc holds (by omega)
      rw [Taken.map, written_append] at snoc
      exact snoc }

theorem represents_comp_fixup (npc : SnapEntry) (used : Nat → Bool) {maxslot : Nat} (low : maxslot ≤ LJ_MAX_JSLOTS)
    (represents : Represents st (taken ++ [snapshot])) :
    Represents (rec_comp_fixup npc used maxslot st) (taken ++ [(snapshot.withPc npc).shrunk used maxslot low]) := by
  have ⟨snapno, header, _⟩ := represents.last
  rw [rec_comp_fixup, snapno, header.mapofs_eq, header.nent_eq]
  apply represents_shrink
  have same : offset (taken ++ [snapshot.withPc npc]) = offset (taken ++ [snapshot]) := by
    rw [offset_append, offset_append]
    rfl
  exact {
    nsnap_eq := by
      rw [List.length_append]
      have count := represents.nsnap_eq
      rwa [List.length_append] at count
    nsnapmap_eq := same ▸ represents.nsnapmap_eq
    ends_lt := same ▸ represents.ends_lt
    held := represents.held.setPc npc }

/-- The snapshot with its last slot true instead of false. -/
def Taken.flipped (snapshot : Taken) {first : List SnapEntry} {sn : SnapEntry} (same : snapshot.entries = first ++ [sn])
    (ref : snap_ref sn ≠ 0) : Taken where
  entries := first ++ [sn - 1]
  pc := snapshot.pc
  frames := snapshot.frames
  nslots := snapshot.nslots
  topslot := snapshot.topslot
  sorted := by
    have sorted := snapshot.sorted
    rw [same] at sorted
    have ⟨before, _, less⟩ := List.pairwise_append.mp sorted
    refine List.pairwise_append.mpr ⟨before, List.pairwise_singleton _ _, ?_⟩
    intro sn' member sn'' last
    rw [List.mem_singleton.mp last, snap_slot_pred ref]
    exact less sn' member sn (List.mem_singleton_self sn)
  slots_lt := by
    have low := snapshot.slots_lt
    rw [same] at low
    intro sn' member
    rcases List.mem_append.mp member with before | last
    · exact low sn' (List.mem_append_left _ before)
    · rw [List.mem_singleton.mp last, snap_slot_pred ref]
      exact low sn (List.mem_append_right _ (List.mem_singleton_self sn))
  nslots_le := snapshot.nslots_le

theorem represents_fixguardsnap {first : List SnapEntry} {sn : SnapEntry} (same : snapshot.entries = first ++ [sn])
    (ref : snap_ref sn ≠ 0) (represents : Represents st (taken ++ [snapshot])) :
    Represents (fixguardsnap st) (taken ++ [snapshot.flipped same ref]) := by
  have ⟨snapno, header, _⟩ := represents.last
  have ⟨entries, _⟩ := placed_append.mp represents.held.map
  have ⟨before, rest⟩ := headers_append.mp represents.held.headers
  have here := rest.1
  have count : snapshot.entries.length = (snapshot.flipped same ref).entries.length := by
    rw [same, Taken.flipped, List.length_append, List.length_append]
    rfl
  have size_eq : (snapshot.flipped same ref).size = snapshot.size := congrArg (· + snapshot.links.length) count.symm
  have offset_eq : offset (taken ++ [snapshot.flipped same ref]) = offset (taken ++ [snapshot]) := by
    rw [offset_snoc, offset_snoc, size_eq]
  rw [same] at entries
  have ⟨_, last⟩ := placed_append.mp entries
  have place : offset taken + snapshot.entries.length - 1 = offset taken + first.length := by
    rw [same, List.length_append, List.length_singleton]
    rfl
  have split (sn' : SnapEntry) (rest : List SnapEntry) : maps taken ++ ((first ++ [sn']) ++ rest) =
      maps taken ++ first ++ sn' :: rest := by simp
  rw [fixguardsnap, snapno, header.mapofs_eq, header.nent_eq, place, (placed_cons.mp last).1]
  exact {
    nsnap_eq := by
      rw [List.length_append]
      have nsnap_eq := represents.nsnap_eq
      rwa [List.length_append] at nsnap_eq
    nsnapmap_eq := offset_eq ▸ represents.nsnapmap_eq
    ends_lt := offset_eq ▸ represents.ends_lt
    held := {
      headers := headers_append.mpr
        ⟨before, ⟨here.mapofs_eq, here.nent_eq.trans count, here.nslots_eq, here.topslot_eq⟩, trivial⟩
      placed := by
        have placed := represents.held.placed
        have maps_eq : maps [snapshot] = (first ++ [sn]) ++ snapshot.links := by
          rw [maps, List.flatMap_singleton, Taken.map, same]
        have maps_eq' : maps [snapshot.flipped same ref] = (first ++ [sn - 1]) ++ snapshot.links := by
          rw [maps, List.flatMap_singleton]
          rfl
        rw [maps_append, maps_eq, split] at placed
        rw [maps_append, maps_eq', split]
        have set := placed.set (sn - 1)
        rwa [List.length_append, length_maps, Nat.zero_add] at set
      inside := offset_eq ▸ represents.held.inside } }

end

end TvmJit.Snap
