import TvmJit.Snap.Merge

/-! The snapshots that a trace has taken, with offsets and sizes that have no bound, and what it is for the headers
and the map of a trace to hold them. -/

namespace TvmJit.Snap

open Foundation Function

/-- A snapshot, with the parts of its map. -/
structure Taken where
  entries : List SnapEntry
  pc : SnapEntry
  frames : List SnapEntry
  nslots : Nat
  topslot : Nat
  sorted : Sorted entries
  slots_lt : ∀ sn ∈ entries, snap_slot sn < LJ_MAX_JSLOTS
  nslots_le : nslots ≤ LJ_MAX_JSLOTS

namespace Taken

variable (snapshot : Taken)

def links : List SnapEntry := snapshot.pc :: snapshot.frames

def map : List SnapEntry := snapshot.entries ++ snapshot.links

def size : Nat := snapshot.entries.length + snapshot.links.length

theorem length_map : snapshot.map.length = snapshot.size := List.length_append

theorem entries_le : snapshot.entries.length ≤ LJ_MAX_JSLOTS := snapshot.sorted.length_le snapshot.slots_lt

theorem size_pos : 0 < snapshot.size := Nat.lt_add_left _ (Nat.succ_pos _)

/-- The same snapshot with another PC. -/
def withPc (pc : SnapEntry) : Taken := { snapshot with pc }

theorem size_withPc (pc : SnapEntry) : (snapshot.withPc pc).size = snapshot.size := rfl

end Taken

/-- The place behind the maps of the snapshots. -/
def offset (taken : List Taken) : Nat := (taken.map Taken.size).sum

def maps (taken : List Taken) : List SnapEntry := taken.flatMap Taken.map

/-- The header of a snapshot has its numbers. -/
structure SnapShot.Holds (snap : SnapShot) (mapofs : Nat) (snapshot : Taken) : Prop where
  mapofs_eq : snap.mapofs = mapofs
  nent_eq : snap.nent = snapshot.entries.length
  nslots_eq : snap.nslots = snapshot.nslots
  topslot_eq : snap.topslot = snapshot.topslot

/-- The headers from one on have the numbers of the snapshots. -/
def Headers (snap : Nat → SnapShot) (snapno mapofs : Nat) : List Taken → Prop
  | [] => True
  | snapshot :: taken =>
      (snap snapno).Holds mapofs snapshot ∧ Headers snap (snapno + 1) (mapofs + snapshot.size) taken

/-- The headers and the map hold the snapshots. -/
structure Maps (snap : Nat → SnapShot) (snapmap : Nat → SnapEntry) (sizesnapmap : Nat) (taken : List Taken) : Prop where
  headers : Headers snap 0 0 taken
  placed : Placed snapmap 0 (maps taken)
  inside : offset taken ≤ sizesnapmap

section

variable {snap snap' : Nat → SnapShot} {snapmap : Nat → SnapEntry} {sizesnapmap snapno mapofs : Nat}
variable {taken taken' : List Taken} {snapshot : Taken}

theorem offset_append : offset (taken ++ taken') = offset taken + offset taken' := by
  rw [offset, List.map_append, List.sum_append]
  rfl

theorem offset_cons : offset (snapshot :: taken) = snapshot.size + offset taken := rfl

theorem offset_snoc : offset (taken ++ [snapshot]) = offset taken + snapshot.size := offset_append

theorem maps_append : maps (taken ++ taken') = maps taken ++ maps taken' := List.flatMap_append

theorem maps_cons : maps (snapshot :: taken) = snapshot.map ++ maps taken := rfl

theorem length_maps (taken : List Taken) : (maps taken).length = offset taken := by
  induction taken with
  | nil => rfl
  | cons snapshot taken induction =>
      rw [maps_cons, List.length_append, induction, snapshot.length_map]
      rfl

theorem length_le_offset (taken : List Taken) : taken.length ≤ offset taken := by
  induction taken with
  | nil => exact le_rfl
  | cons snapshot taken induction =>
      have positive := snapshot.size_pos
      rw [List.length_cons, offset_cons]
      omega

theorem exists_split {k : Nat} (here : taken[k]? = some snapshot) :
    ∃ before after, taken = before ++ snapshot :: after ∧ before.length = k := by
  have ⟨inside, same⟩ := List.getElem?_eq_some_iff.mp here
  refine ⟨taken.take k, taken.drop (k + 1), ?_, List.length_take_of_le inside.le⟩
  rw [← same, List.cons_getElem_drop_succ, List.take_append_drop]

theorem offset_take_le {j k : Nat} (le : j ≤ k) : offset (taken.take j) ≤ offset (taken.take k) := by
  have ⟨between, same⟩ := List.take_prefix_take_left (l := taken) le
  rw [← same, offset_append]
  exact Nat.le_add_right ..

theorem offset_take_succ {k : Nat} (here : taken[k]? = some snapshot) :
    offset (taken.take (k + 1)) = offset (taken.take k) + snapshot.size := by
  rw [List.take_add_one, here]
  exact offset_snoc

/-! ## Headers -/

theorem headers_append : Headers snap snapno mapofs (taken ++ taken') ↔
    Headers snap snapno mapofs taken ∧ Headers snap (snapno + taken.length) (mapofs + offset taken) taken' := by
  induction taken generalizing snapno mapofs with
  | nil => exact ⟨fun headers => ⟨trivial, headers⟩, And.right⟩
  | cons snapshot taken induction =>
      rw [List.cons_append, Headers, Headers, induction, and_assoc, List.length_cons, offset_cons, Nat.add_assoc mapofs,
        Nat.add_assoc snapno, Nat.add_comm 1]

theorem Headers.congr (headers : Headers snap snapno mapofs taken)
    (same : ∀ i, i < snapno + taken.length → snap' i = snap i) : Headers snap' snapno mapofs taken := by
  induction taken generalizing snapno mapofs with
  | nil => trivial
  | cons snapshot taken induction =>
      rw [List.length_cons] at same
      refine ⟨?_, induction headers.2 fun i low => same i (by omega)⟩
      rw [same snapno (by omega)]
      exact headers.1

theorem Headers.get (headers : Headers snap snapno mapofs taken) {k : Nat} (here : taken[k]? = some snapshot) :
    (snap (snapno + k)).Holds (mapofs + offset (taken.take k)) snapshot := by
  induction taken generalizing snapno mapofs k with
  | nil => cases here
  | cons first taken induction =>
      cases k with
      | zero => exact Option.some.inj here ▸ headers.1
      | succ k =>
          have later := induction headers.2 here
          rw [List.take_succ_cons, offset_cons]
          rwa [Nat.add_right_comm, Nat.add_assoc, Nat.add_assoc] at later

/-! ## Maps -/

theorem Maps.nil : Maps snap snapmap sizesnapmap [] := ⟨trivial, placed_nil _ _, Nat.zero_le _⟩

theorem Maps.mono (held : Maps snap snapmap sizesnapmap taken) {size : Nat} (le : sizesnapmap ≤ size) :
    Maps snap snapmap size taken := ⟨held.headers, held.placed, le_trans held.inside le⟩

theorem Maps.left (held : Maps snap snapmap sizesnapmap (taken ++ taken')) : Maps snap snapmap sizesnapmap taken where
  headers := (headers_append.mp held.headers).1
  placed := by
    have placed := held.placed
    rw [maps_append] at placed
    exact (placed_append.mp placed).1
  inside := by
    have inside := held.inside
    rw [offset_append] at inside
    omega

/-- The header of one of the snapshots. -/
theorem Maps.header (held : Maps snap snapmap sizesnapmap (taken ++ snapshot :: taken')) :
    (snap taken.length).Holds (offset taken) snapshot := by
  have holds := (headers_append.mp held.headers).2.1
  rwa [Nat.zero_add, Nat.zero_add] at holds

/-- The map of one of the snapshots. -/
theorem Maps.map (held : Maps snap snapmap sizesnapmap (taken ++ snapshot :: taken')) :
    Placed snapmap (offset taken) snapshot.map := by
  have placed := held.placed
  rw [maps_append, maps_cons] at placed
  have behind := (placed_append.mp placed).2
  rw [Nat.zero_add, length_maps] at behind
  exact (placed_append.mp behind).1

/-- A new snapshot behind the others. -/
theorem Maps.snoc (held : Maps snap snapmap sizesnapmap taken) {header : SnapShot}
    (holds : header.Holds (offset taken) snapshot) (fits : offset taken + snapshot.size ≤ sizesnapmap) :
    Maps (update snap taken.length header) (written snapmap (offset taken) snapshot.map) sizesnapmap (taken ++ [snapshot])
    where
  headers := by
    apply headers_append.mpr
    refine ⟨held.headers.congr fun i low => update_of_ne (by omega) .., ?_, trivial⟩
    rw [Nat.zero_add, Nat.zero_add, update_self]
    exact holds
  placed := by
    rw [maps_append]
    apply placed_append.mpr
    have place : 0 + (maps taken).length = offset taken := by rw [Nat.zero_add, length_maps]
    refine ⟨held.placed.written (.inl place.le), ?_⟩
    rw [place, maps, List.flatMap_singleton]
    exact placed_written _ _ _
  inside := by
    rw [offset_snoc]
    exact fits

/-- Another PC is put into the map of a snapshot. -/
theorem Maps.setPc (held : Maps snap snapmap sizesnapmap (taken ++ snapshot :: taken')) (pc : SnapEntry) :
    Maps snap (update snapmap (offset taken + snapshot.entries.length) pc) sizesnapmap
      (taken ++ snapshot.withPc pc :: taken') where
  headers := by
    have ⟨first, here, rest⟩ := headers_append.mp held.headers
    apply headers_append.mpr
    exact ⟨first, ⟨here.mapofs_eq, here.nent_eq, here.nslots_eq, here.topslot_eq⟩, rest⟩
  placed := by
    have split (pc : SnapEntry) : maps (taken ++ snapshot.withPc pc :: taken') =
        maps taken ++ snapshot.entries ++ pc :: (snapshot.frames ++ maps taken') := by
      rw [maps_append, maps_cons, Taken.map, Taken.links]
      simp only [List.append_assoc, List.cons_append]
      rfl
    have placed := held.placed
    have same : taken ++ snapshot :: taken' = taken ++ snapshot.withPc snapshot.pc :: taken' := rfl
    rw [same, split] at placed
    rw [split]
    have set := placed.set pc
    rwa [List.length_append, length_maps, Nat.zero_add] at set
  inside := by
    have inside := held.inside
    rw [offset_append, offset_cons] at inside ⊢
    exact inside

end

end TvmJit.Snap
