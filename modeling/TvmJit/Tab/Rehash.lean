import TvmJit.Tab.Traversal

/-! Rehashing makes room for the key it is done for, and the array part it chooses has
places for more keys than half of a power of two. -/

namespace TvmJit.Tab

open Foundation Function

namespace GCtab

variable [StrHash] {t u : GCtab} {k : TValue}

/-- The main node of the key is taken and there is no free one. -/
def NeedsRehash (t : GCtab) (k : TValue) : Prop :=
  ((t.node (t.hashkey k)).val ≠ .nil ∨ t.hmask = 0) ∧ t.freenode t.freetop = none

/-- More keys do not go to the new array than the largest hash part has nodes. -/
def Overflows (t : GCtab) (k : TValue) : Prop :=
  2 ^ maxHbits <
    (t.countedKeys k).countP fun k' => !arrayKey { t with asize := (t.newSizes k).1 } k'

/-- A table that has been rehashed for a key. -/
structure Rehashed (t : GCtab) (k : TValue) (u : GCtab) : Prop where
  /-- There is an array slot or a node for the key. -/
  room : u.arrayKey k = true ∨ ¬u.NeedsRehash k
  kept : ∀ k' : TValue, k'.Settable → u.ljTabGet k' = t.ljTabGet k'
  full : u.asize = 0 ∨
    ∃ b, u.asize = 2 * 2 ^ b + 1 ∧ 2 ^ b < 2 * (t.countedKeys k).countP u.arrayKey

/-- The key has been inserted and may be stored to. -/
structure Inserted (t : GCtab) (k : TValue) (slot : TabSlot) (u : GCtab) : Prop where
  stores : ∀ v, (u.store slot v).ljTabGet k = .ok v
  kept : ∀ k' : TValue, k'.Settable → u.ljTabGet k' = t.ljTabGet k'

theorem Keeps.get (keeps : Keeps t u) (wf : t.Wf) (settable : k.Settable) :
    u.ljTabGet k = t.ljTabGet k := by
  obtain ⟨m, holds⟩ := wf.exists_holds
  rw [ljTabGet_value wf holds settable, ljTabGet_value keeps.wf (keeps.holds m holds) settable]

theorem Adds.inserted {slot : TabSlot} (adds : Adds t k slot u) (wf : t.Wf) (isKey : k.IsKey) :
    Inserted t k slot u where
  stores v := by
    have wfU := adds.keeps.wf
    have stored : (u.store slot v).Entry k.stored slot := by
      rw [isKey.stored, (u.store_sameKeys slot v).entry]
      exact adds.entry
    rw [get_entry (wfU.store adds.entry v) isKey.settable stored]
    cases slot with
    | array i => exact congrArg Except.ok (update_self ..)
    | node i => exact congrArg (fun n : TabNode => Except.ok n.val) (update_self i _ u.node)
  kept _ settable := adds.keeps.get wf settable

omit [StrHash] in
/-- The largest hash part is too small for the hash part that is asked for. -/
theorem hsize2hbits_le {s : Nat} (small : s ≤ 2 ^ maxHbits) : hsize2hbits s ≤ maxHbits := by
  unfold hsize2hbits
  split
  · exact Nat.zero_le _
  · split
    · decide
    · have below : (s - 1).log2 < maxHbits := (Nat.log2_lt (by omega)).mpr (by omega)
      unfold ljFls
      omega

theorem Room.spare (room : u.Room k) (wf : u.Wf) : u.arrayKey k = true ∨ ¬u.NeedsRehash k := by
  cases inArray : u.arrayKey k with
  | true => exact .inl rfl
  | false =>
      obtain ⟨hasNodes, spare⟩ := room inArray
      obtain ⟨f, search⟩ := wf.freenode_some hasNodes spare
      exact .inr fun needs => absurd (search.symm.trans needs.2) (Option.some_ne_none f)

/-- What `rehashtab` does. -/
theorem rehashtab_ends (depth : Nat) (wf : t.Wf) (k : TValue) :
    Foundation.Ends (fun u => Keeps t u ∧ u.Room k ∧ Rehashed t k u)
      (fun e => e = .tabov ∧ t.Overflows k) (t.rehashtab (newkey (depth + 1)) k) := by
  obtain ⟨hbits, full⟩ := newSizes_spec wf.small k
  let may : TabError → Prop := fun e => e = .tabov ∧ t.Overflows k
  have tabov : maxHbits < (t.newSizes k).2 → may .tabov := by
    intro large
    refine ⟨rfl, ?_⟩
    by_contra fits
    have small := hsize2hbits_le (Nat.le_of_not_lt fits)
    omega
  have keeps : Foundation.Ends (Keeps t) (fun _ => True) (t.rehashtab (newkey (depth + 1)) k) :=
    resize_keeps (newkey_keeps _) trivial trivial wf _ _
  apply (keeps.and (rehashtab_room depth wf k tabov)).mono
  · rintro u - ⟨keeps, room, size⟩
    refine ⟨keeps, room, room.spare keeps.wf, fun k' settable => keeps.get wf settable, ?_⟩
    have sameKeys : u.arrayKey = arrayKey { t with asize := (t.newSizes k).1 } := arrayKey_congr size
    rw [size, sameKeys]
    exact full.imp_right fun ⟨b, _, isSize, many⟩ => ⟨b, isSize, many⟩
  · exact fun _ both => both.2

end GCtab

/-- Storing a key that a table of a program does not have comes to an end with the key
inserted and no pair lost, except where more keys are left for the hash part than it may
have nodes. Before that the table is rehashed if there is no node for the key, and then
there is an array slot or a node for it. -/
theorem rehash_makes_room [StrHash] {depth : Nat} {t : GCtab} {k : TValue} (reached : Reached depth t)
    (hashed : t.Hashed k) (absent : ∀ i, (t.node i).key ≠ k) (depth' : Nat) :
    Foundation.Ends (fun r => GCtab.Inserted t k r.1 r.2) (fun e => e = .tabov ∧ t.Overflows k)
      (GCtab.newkey (depth' + 2) t k) ∧
    Foundation.Ends (GCtab.Rehashed t k) (fun e => e = .tabov ∧ t.Overflows k)
      (t.rehashtab (GCtab.newkey (depth' + 1)) k) := by
  have wf := reached.wf.1
  have isKey := hashed.1
  have rehash := GCtab.rehashtab_ends depth' wf k
  refine ⟨?_, rehash.mono (fun _ _ after => after.2.2) fun _ allowed => allowed⟩
  rcases GCtab.newkey_cases (depth' + 1) wf hashed absent with ⟨slot, u, run, fits⟩ | ⟨-, run⟩
  · rw [run]
    exact fits.adds.inserted wf isKey
  · rw [run]
    apply rehash.bind
    rintro u - ⟨keeps, room, -⟩
    have same := isKey.stored
    have within : Foundation.Ends (fun r => GCtab.Within u k.stored r.1 r.2)
        (fun e => e = .tabov ∧ t.Overflows k) (u.set (GCtab.newkey (depth' + 1)) k) :=
      GCtab.set_ends _ keeps.wf (same.symm ▸ isKey) (fun _ entry => .found keeps.wf entry)
        (GCtab.newkey_within depth' keeps.wf (same.symm ▸ room))
    rw [same] at within
    exact within.mono
      (fun r _ within => GCtab.Adds.inserted ⟨keeps.trans within.adds.keeps, within.adds.entry⟩ wf isKey)
      fun _ allowed => allowed

/-- The table `{}`. -/
def emptyTable : GCtab :=
  { asize := 0, array := fun _ => .nil, block := 0, colo := false, hmask := 0, node := fun _ => {}, freetop := 0 }

theorem emptyTable_reached [StrHash] (depth : Nat) : Reached depth emptyTable :=
  .new (rfl : GCtab.ljTabNew 0 0 = .ok emptyTable)

theorem emptyTable_hashed [StrHash] : emptyTable.Hashed (.num (.ofInt 2)) := by
  refine ⟨isKey_ofInt (by decide), ?_⟩
  rw [GCtab.arrayKey_ofInt (by decide) (by decide)]
  rfl

/-- The key 2 of an empty table needs neither a node nor a second try. -/
theorem rehash_makes_room_empty :
    ∃ hash : StrHash, Foundation.Ends (@GCtab.Rehashed hash emptyTable (.num (.ofInt 2)))
      (fun e => e = .tabov ∧ emptyTable.Overflows (.num (.ofInt 2)))
      (@GCtab.rehashtab hash (@GCtab.newkey hash 1) emptyTable (.num (.ofInt 2))) := by
  let _ : StrHash := ⟨fun _ => 0⟩
  exact ⟨_, (rehash_makes_room (emptyTable_reached 0) emptyTable_hashed (fun _ => nofun) 0).2⟩

/-- The array has more than half of the places up to a power of two in use. -/
def HalfFull (keys : List TValue) (u : GCtab) : Prop :=
  u.asize = 0 ∨
    ∃ j, 2 ^ j < 2 * keys.countP (GCtab.arrayKey { u with asize := min u.asize (2 ^ j + 1) })

/-- With 2 as its only key the array has the indices 0, 1 and 2. -/
theorem rehash_not_half_full :
    ¬∀ (_ : StrHash) (t u : GCtab) (k : TValue), Reached 0 t → t.Hashed k →
      (∀ i, (t.node i).key ≠ k) → t.rehashtab (GCtab.newkey 1) k = .ok u →
        HalfFull (t.countedKeys k) u := by
  intro claim
  let _ : StrHash := ⟨fun _ => 0⟩
  let u : GCtab :=
    { asize := 3, array := fun i => if i < 0 then .nil else .nil, block := 1, colo := false, hmask := 0
      node := fun _ => {}, freetop := 0 }
  have rehashed : emptyTable.rehashtab (GCtab.newkey 1) (.num (.ofInt 2)) = .ok u := rfl
  have keys : emptyTable.countedKeys (.num (.ofInt 2)) = [.num (.ofInt 2)] := rfl
  have halfFull := claim _ emptyTable u (.num (.ofInt 2)) (emptyTable_reached 0) emptyTable_hashed
    (fun _ => nofun) rehashed
  rw [keys] at halfFull
  rcases halfFull with none | ⟨j, many⟩
  · cases none
  · have atMost : [TValue.num (.ofInt 2)].countP
        (GCtab.arrayKey { u with asize := min u.asize (2 ^ j + 1) }) ≤ 1 := List.countP_le_length
    have power : 2 ^ j < 2 ^ 1 := by omega
    have isZero : j = 0 := by
      have := (Nat.pow_lt_pow_iff_right (by decide)).mp power
      omega
    subst isZero
    revert many
    decide

end TvmJit.Tab
