import TvmJit.Tab.Count

/-! A hash part with a node to spare takes a new key as it is, and after `rehashtab` there
are as many nodes as keys to store, so that resizing does not get in its own way. -/

namespace TvmJit.Tab

open Foundation Function

namespace GCtab

variable [StrHash] {t : GCtab} {k : TValue} {may : TabError → Prop}
  {nk : GCtab → TValue → Except TabError (TabSlot × GCtab)}

/-- How many nodes have a key. -/
def used (t : GCtab) : Nat :=
  ((Finset.range (t.hmask + 1)).filter fun i => (t.node i).key ≠ .nil).card

omit [StrHash] in
theorem used_le_succ {t t' : GCtab} (hmask : t'.hmask = t.hmask)
    (one : ∃ x, ∀ i, (t'.node i).key ≠ .nil → i = x ∨ (t.node i).key ≠ .nil) : t'.used ≤ t.used + 1 := by
  obtain ⟨x, one⟩ := one
  refine (Finset.card_le_card fun i member => ?_).trans (Finset.card_insert_le x _)
  obtain ⟨low, isUsed⟩ := Finset.mem_filter.mp member
  rw [hmask] at low
  rcases one i isUsed with rfl | old
  · exact Finset.mem_insert_self _ _
  · exact Finset.mem_insert_of_mem (Finset.mem_filter.mpr ⟨low, old⟩)

omit [StrHash] in
theorem used_store (t : GCtab) (slot : TabSlot) (v : TValue) : (t.store slot v).used = t.used := by
  cases slot with
  | array i => rfl
  | node i =>
      unfold used
      refine congrArg Finset.card (Finset.filter_congr fun j _ => ?_)
      change (update t.node i { t.node i with val := v } j).key ≠ _ ↔ _
      by_cases same : j = i
      · rw [same, update_self]
      · rw [update_of_ne same]

/-- There is a free node below `freetop` where not all nodes have a key. -/
theorem Wf.freenode_some (wf : t.Wf) (hasNodes : t.hmask ≠ 0) (room : t.used ≤ t.hmask) :
    ∃ f, t.freenode t.freetop = some f := by
  cases search : t.freenode t.freetop with
  | some f => exact ⟨f, rfl⟩
  | none =>
      have all : t.used = t.hmask + 1 := by
        rw [used, Finset.filter_true_of_mem, Finset.card_range]
        intro i member
        rw [Finset.mem_range] at member
        rcases Nat.lt_or_ge i t.freetop with below | above
        · exact freenode_none search i below
        · exact wf.taken hasNodes i above (by omega)
      omega

/-- A new key goes to a node, or the table is resized for it. -/
theorem newkey_cases (depth : Nat) (wf : t.Wf) (hashed : t.Hashed k)
    (absent : ∀ i, (t.node i).key ≠ k) :
    (∃ slot t', newkey (depth + 1) t k = .ok (slot, t') ∧ Fits t k slot t') ∨
      ((((t.node (t.hashkey k)).val ≠ .nil ∨ t.hmask = 0) ∧ t.freenode t.freetop = none) ∧
        newkey (depth + 1) t k = t.rehashtab (newkey depth) k >>= fun t => t.set (newkey depth) k) := by
  rw [newkey]
  by_cases noValue : (t.node (t.hashkey k)).val = .nil ∧ t.hmask ≠ 0
  · obtain ⟨noValue, hasNodes⟩ := noValue
    have nodes := nodes_at_home wf hashed absent noValue
    rw [if_neg (by simp [noValue, hasNodes]), claim_eq, hashed.1.stored]
    refine .inl ⟨_, _, rfl, nodes.fits wf hashed absent hasNodes wf.top ?_ ?_⟩
    · intro i low high
      rw [update_apply]
      split
      · exact hashed.1.ne_nil
      · exact wf.taken hasNodes i low high
    · rw [update_self]
  · have taken : (t.node (t.hashkey k)).val ≠ .nil ∨ t.hmask = 0 := by tauto
    rw [if_pos taken]
    cases search : t.freenode t.freetop with
    | none => exact .inr ⟨⟨taken, rfl⟩, rfl⟩
    | some f =>
        have hasNodes : t.hmask ≠ 0 := by
          intro none
          rw [(wf.shared none).1] at search
          cases search
        have value : (t.node (t.hashkey k)).val ≠ .nil := fun isNil => noValue ⟨isNil, hasNodes⟩
        exact .inl (collide_fits wf hashed absent hasNodes value search)

/-! ## Storing a key there is room for -/

/-- The key is in the table, and nothing but nodes changed. -/
structure Within (t : GCtab) (k : TValue) (slot : TabSlot) (t' : GCtab) : Prop where
  adds : Adds t k slot t'
  asize : t'.asize = t.asize
  hmask : t'.hmask = t.hmask
  block : t'.block = t.block
  used : t'.used ≤ t.used + if t.arrayKey k then 0 else 1

theorem Within.found (wf : t.Wf) {slot : TabSlot} (entry : t.Entry k slot) : Within t k slot t :=
  ⟨⟨.refl wf, entry⟩, rfl, rfl, rfl, Nat.le_add_right _ _⟩

theorem Fits.within {slot : TabSlot} {t' : GCtab} (fits : Fits t k slot t') (hashed : t.Hashed k) :
    Within t k slot t' := by
  refine ⟨fits.adds, fits.asize, fits.hmask, fits.block, ?_⟩
  rw [hashed.2]
  exact used_le_succ fits.hmask fits.one

/-- A key of the array needs no node. -/
def Room (t : GCtab) (k : TValue) : Prop := t.arrayKey k = false → t.hmask ≠ 0 ∧ t.used ≤ t.hmask

theorem newkey_within (depth : Nat) (wf : t.Wf) (room : t.Room k) (hashed : t.Hashed k)
    (absent : ∀ i, (t.node i).key ≠ k) :
    Foundation.Ends (fun r => Within t k r.1 r.2) may (newkey (depth + 1) t k) := by
  obtain ⟨hasNodes, spare⟩ := room hashed.2
  rcases newkey_cases depth wf hashed absent with ⟨slot, t', run, fits⟩ | ⟨⟨-, none⟩, -⟩
  · rw [run]
    exact fits.within hashed
  · obtain ⟨f, search⟩ := wf.freenode_some hasNodes spare
    rw [none] at search
    cases search

/-! ## Refilling a table there is room in -/

/-- How many of the pairs do not belong in the array. -/
def outside (t : GCtab) (pairs : List (TValue × TValue)) : Nat :=
  pairs.countP fun pair => !t.arrayKey pair.1

omit [StrHash] in
theorem arrayKey_congr {t t' : GCtab} (same : t'.asize = t.asize) : t'.arrayKey = t.arrayKey := by
  funext k
  cases k <;> simp [arrayKey, inarray, same]

/-- The nodes of the table are enough for the pairs that are still to be stored. -/
structure Roomy (base : GCtab) (limit : Nat) (pairs : List (TValue × TValue)) (u : GCtab) : Prop where
  wf : u.Wf
  asize : u.asize = base.asize
  hmask : u.hmask = base.hmask
  room : u.used + base.outside pairs ≤ limit

variable {base u : GCtab} {limit : Nat} {pairs : List (TValue × TValue)} {v : TValue}

omit [StrHash] in
theorem outside_cons (t : GCtab) (k v : TValue) (pairs : List (TValue × TValue)) :
    t.outside ((k, v) :: pairs) = (if t.arrayKey k then 0 else 1) + t.outside pairs := by
  rw [outside, List.countP_cons, Nat.add_comm]
  cases t.arrayKey k <;> rfl

theorem Roomy.of_pair (roomy : Roomy base limit ((k, v) :: pairs) u)
    (enough : limit ≤ if base.hmask = 0 then 0 else base.hmask + 1) : u.Room k := by
  intro isHashed
  have room := roomy.room
  rw [arrayKey_congr roomy.asize] at isHashed
  rw [outside_cons, isHashed, if_neg Bool.false_ne_true] at room
  rw [roomy.hmask]
  split at enough <;> omega

theorem Roomy.store {slot : TabSlot} {u' : GCtab} (roomy : Roomy base limit ((k, v) :: pairs) u)
    (within : Within u k slot u') : Roomy base limit pairs (u'.store slot v) := by
  have room := roomy.room
  have used := within.used
  rw [outside_cons] at room
  rw [arrayKey_congr roomy.asize] at used
  refine ⟨within.adds.keeps.wf.store within.adds.entry v, ?_, ?_, ?_⟩
  · cases slot <;> exact within.asize.trans roomy.asize
  · cases slot <;> exact within.hmask.trans roomy.hmask
  · rw [used_store]
    omega

theorem roomy_refills (depth : Nat) (enough : limit ≤ if base.hmask = 0 then 0 else base.hmask + 1) :
    Refills (newkey (depth + 1)) may base (fun cut pairs => Roomy base limit (cut ++ pairs)) where
  index i v cut pairs u outside small current roomy := by
    have limit : maxAsize < 2147483648 := by decide
    have notIn : u.inarray i = false := by
      rw [Bool.eq_false_iff, ne_eq, inarray_iff, roomy.asize]
      omega
    refine (setinth_ends (fun r => Within u (.num (.ofInt i)) r.1 r.2) roomy.wf (by omega)
      (by omega) notIn (fun _ entry => .found roomy.wf entry)
      (newkey_within depth roomy.wf (roomy.of_pair enough))).mono (fun r _ within => ?_)
      fun _ allowed => allowed
    exact ⟨roomy.store within, .inl (within.block.trans current)⟩
  pair k v pairs u isKey roomy := by
    have same := isKey.stored
    have room := roomy.of_pair enough
    refine (set_ends (fun r => Within u k.stored r.1 r.2) roomy.wf (same.symm ▸ isKey)
      (fun _ entry => .found roomy.wf entry)
      (newkey_within depth roomy.wf (same.symm ▸ room))).mono (fun r _ within => ?_)
      fun _ allowed => allowed
    rw [same] at within
    exact roomy.store within
  realloc pairs u roomy := ⟨roomy.wf.realloc _, roomy.asize, roomy.hmask, roomy.room⟩

theorem Fresh.used {size hbits : Nat} (fresh : Fresh t size hbits base) : base.used = 0 := by
  rw [GCtab.used, fresh.node, Finset.card_eq_zero, Finset.filter_eq_empty_iff]
  exact fun i _ isUsed => isUsed rfl

theorem Fresh.nodes {size hbits : Nat} (fresh : Fresh t size hbits base) :
    nodesOf hbits ≤ if base.hmask = 0 then 0 else base.hmask + 1 := by
  have notOne := nodesOf_ne_one hbits
  rw [fresh.hmask]
  split <;> omega

/-- A table that is resized to one with enough nodes. -/
theorem resize_roomy (depth : Nat) (wf : t.Wf) {asize hbits : Nat}
    (tabov : maxAsize < asize ∨ maxHbits < hbits → may .tabov)
    (enough : outside { t with asize := asize } (t.cutPairs asize ++ t.nodePairs) ≤ nodesOf hbits) :
    Foundation.Ends (fun u => u.asize = asize ∧ u.hmask = nodesOf hbits - 1 ∧
      u.used ≤ outside { t with asize := asize } (t.cutPairs asize ++ t.nodePairs)) may
      (t.resize (newkey (depth + 1)) asize hbits) := by
  have same {base : GCtab} (fresh : Fresh t asize hbits base) (pairs : List (TValue × TValue)) :
      base.outside pairs = outside { t with asize := asize } pairs := by
    have sameKeys : base.arrayKey = arrayKey { t with asize := asize } := arrayKey_congr fresh.asize
    rw [outside, outside, sameKeys]
  generalize isLimit : outside { t with asize := asize } (t.cutPairs asize ++ t.nodePairs) = limit at *
  refine (resize_ends wf tabov (fun base cut pairs => Roomy base limit (cut ++ pairs))
    (fun base fresh => roomy_refills depth (enough.trans fresh.nodes)) fun base fresh =>
    ⟨fresh.wf, rfl, rfl, ?_⟩).mono (fun u _ ⟨base, fresh, roomy⟩ => ?_) fun _ allowed => allowed
  · rw [fresh.used, same fresh, Nat.zero_add, isLimit]
  · exact ⟨roomy.asize.trans fresh.asize, roomy.hmask.trans fresh.hmask,
      (Nat.le_add_right _ _).trans roomy.room⟩

/-! ## New sizes -/

/-- The keys that `rehashtab` counts. -/
def countedKeys (t : GCtab) (ek : TValue) : List TValue :=
  t.slotKeys 0 t.asize ++ nodeKeys ((List.range (t.hmask + 1)).map t.node) ++ [ek]

/-- The sizes that `rehashtab` resizes the table to. -/
def newSizes (t : GCtab) (ek : TValue) : Nat × Nat :=
  let (values, bins) := t.countarray fun _ => 0
  let (pairs, asize, bins) := t.counthash bins values
  let (one, bins) := countint ek bins
  let (na, asize) := bestasize bins (asize + one)
  (asize, hsize2hbits (1 + values + pairs - na))

theorem rehashtab_eq (nk : GCtab → TValue → Except TabError (TabSlot × GCtab)) (t : GCtab)
    (ek : TValue) : t.rehashtab nk ek = t.resize nk (t.newSizes ek).1 (t.newSizes ek).2 := rfl

omit [StrHash] in
theorem newSizes_eq (small : t.asize ≤ maxAsize) (ek : TValue) :
    ∃ nn, t.newSizes ek = ((bestasize (tally (t.countedKeys ek)) nn).2,
      hsize2hbits ((t.countedKeys ek).length - (bestasize (tally (t.countedKeys ek)) nn).1)) := by
  obtain ⟨asize, hash⟩ := t.counthash_eq (tally (t.slotKeys 0 t.asize)) (t.slotKeys 0 t.asize).length
  have bins : (fun b => tally (t.slotKeys 0 t.asize) b +
      tally (nodeKeys ((List.range (t.hmask + 1)).map t.node)) b + tally [ek] b) =
        tally (t.countedKeys ek) := by
    funext b
    rw [countedKeys, tally_append, tally_append]
  have length : 1 + (t.slotKeys 0 t.asize).length +
      (nodeKeys ((List.range (t.hmask + 1)).map t.node)).length = (t.countedKeys ek).length := by
    simp only [countedKeys, List.length_append, List.length_singleton]
    omega
  refine ⟨asize + (countint ek fun _ => 0).1, ?_⟩
  rw [newSizes, countarray_eq small]
  dsimp only
  rw [hash]
  dsimp only
  rw [countint_eq, countint_eq]
  dsimp only
  rw [bins, length]

omit [StrHash] in
/-- The array takes the keys that are counted for it: more than half of a power of two. -/
theorem newSizes_spec (small : t.asize ≤ maxAsize) (ek : TValue) :
    (t.newSizes ek).2 = hsize2hbits
      ((t.countedKeys ek).countP fun k => !arrayKey { t with asize := (t.newSizes ek).1 } k) ∧
    ((t.newSizes ek).1 = 0 ∨ ∃ b ≤ 26, (t.newSizes ek).1 = 2 * 2 ^ b + 1 ∧
      2 ^ b < 2 * (t.countedKeys ek).countP fun k => arrayKey { t with asize := (t.newSizes ek).1 } k) := by
  obtain ⟨nn, sizes⟩ := newSizes_eq small ek
  obtain ⟨taken, full⟩ := bestasize_taken (t.countedKeys ek) nn
    { t with asize := (bestasize (tally (t.countedKeys ek)) nn).2 } rfl
  have whole := List.length_eq_countP_add_countP (l := t.countedKeys ek)
    fun k => arrayKey { t with asize := (bestasize (tally (t.countedKeys ek)) nn).2 } k
  simp only [Bool.not_eq_true, Bool.decide_eq_false] at whole
  rw [sizes]
  refine ⟨congrArg hsize2hbits ?_, full⟩
  rw [whole, taken, Nat.add_sub_cancel_left]

omit [StrHash] in
theorem cutPairs_keys (t : GCtab) (asize : Nat) :
    (t.cutPairs asize).map Prod.fst = t.slotKeys asize (t.asize - asize) := by
  unfold cutPairs slotKeys
  induction List.range' asize (t.asize - asize) with
  | nil => rfl
  | cons i l induction =>
      by_cases isNil : t.array i = .nil
      · have noPair : indexPair t.array i = none := if_pos isNil
        rw [List.filterMap_cons_none noPair, List.filter_cons_of_neg (by simp [isNil]), induction]
      · have isPair : indexPair t.array i = some (.num (.ofInt i), t.array i) := if_neg isNil
        rw [List.filterMap_cons_some isPair, List.filter_cons_of_pos (by simp [isNil]),
          List.map_cons, List.map_cons, induction]

omit [StrHash] in
theorem nodePairs_keys (t : GCtab) :
    t.nodePairs.map Prod.fst = nodeKeys ((List.range (t.hmask + 1)).map t.node) := by
  rw [nodeKeys, nodePairs, List.map_filterMap]
  apply List.filterMap_congr
  intro n _
  unfold nodePair
  split <;> rfl

omit [StrHash] in
/-- The keys to be stored again and the new one are counted. -/
theorem outside_le (t : GCtab) (asize : Nat) (ek : TValue) :
    outside { t with asize := asize } (t.cutPairs asize ++ t.nodePairs) +
        (if arrayKey { t with asize := asize } ek then 0 else 1) ≤
      (t.countedKeys ek).countP fun k => !arrayKey { t with asize := asize } k := by
  have pairs : outside { t with asize := asize } (t.cutPairs asize ++ t.nodePairs) =
      ((t.cutPairs asize ++ t.nodePairs).map Prod.fst).countP fun k => !arrayKey { t with asize := asize } k := by
    rw [List.countP_map]
    rfl
  have cut : (t.slotKeys asize (t.asize - asize)).Sublist (t.slotKeys 0 t.asize) := by
    rcases Nat.le_total asize t.asize with shrinks | grows
    · have whole := t.slotKeys_add 0 asize (t.asize - asize)
      rw [Nat.add_sub_of_le shrinks, Nat.zero_add] at whole
      rw [whole]
      exact List.sublist_append_right ..
    · rw [Nat.sub_eq_zero_of_le grows]
      exact List.nil_sublist _
  have first := cut.countP_le (p := fun k => !arrayKey { t with asize := asize } k)
  have last : [ek].countP (fun k => !arrayKey { t with asize := asize } k) =
      if arrayKey { t with asize := asize } ek then 0 else 1 := by
    rw [List.countP_singleton]
    cases arrayKey { t with asize := asize } ek <;> rfl
  rw [pairs, List.map_append, cutPairs_keys, nodePairs_keys, List.countP_append, countedKeys, List.countP_append, List.countP_append, last]
  omega

/-- After `rehashtab` there is room for the key it was called for. -/
theorem rehashtab_room (depth : Nat) (wf : t.Wf) (ek : TValue)
    (tabov : maxHbits < (t.newSizes ek).2 → may .tabov) :
    Foundation.Ends (fun u => u.Room ek ∧ u.asize = (t.newSizes ek).1) may
      (t.rehashtab (newkey (depth + 1)) ek) := by
  obtain ⟨hbits, array⟩ := newSizes_spec wf.small ek
  have counted := t.outside_le (t.newSizes ek).1 ek
  have nodes := le_nodesOf_hsize2hbits
    ((t.countedKeys ek).countP fun k => !arrayKey { t with asize := (t.newSizes ek).1 } k)
  rw [← hbits] at nodes
  have fits : (t.newSizes ek).1 ≤ maxAsize := by
    rcases array with none | ⟨b, small, size, -⟩
    · omega
    · have power : 2 ^ b ≤ 2 ^ 26 := Nat.pow_le_pow_right (by decide) small
      rw [size]
      exact Nat.succ_le_succ (Nat.mul_le_mul_left 2 power)
  rw [rehashtab_eq]
  refine (resize_roomy depth wf (fun large => tabov (large.resolve_left (by omega))) (by omega)).mono
    (fun u _ ⟨asize, hmask, used⟩ => ⟨fun isHashed => ?_, asize⟩) fun _ allowed => allowed
  have isOutside : arrayKey { t with asize := (t.newSizes ek).1 } ek = false := by
    rw [← isHashed]
    exact congrFun (arrayKey_congr asize).symm ek
  rw [isOutside, if_neg Bool.false_ne_true] at counted
  have notOne := nodesOf_ne_one (t.newSizes ek).2
  omega

/-! ## New keys -/

/-- Where storing new keys comes to an end it keeps what a table holds. -/
theorem newkey_keeps (depth : Nat) : KeepsNew (fun _ => True) (newkey depth) := by
  induction depth with
  | zero => exact fun _ _ _ _ _ => trivial
  | succ depth induction =>
      intro t k wf hashed absent
      rcases newkey_cases depth wf hashed absent with ⟨slot, t', run, fits⟩ | ⟨-, run⟩
      · rw [run]
        exact fits.adds
      · rw [run]
        have same := hashed.1.stored
        refine (resize_keeps induction trivial trivial wf _ _).bind fun u _ keeps => ?_
        refine (set_adds induction keeps.wf (k := k) (same.symm ▸ hashed.1)).mono (fun r _ adds => ?_)
          fun _ allowed => allowed
        rw [same] at adds
        exact ⟨keeps.trans adds.keeps, adds.entry⟩

/-- Calls two deep are enough: resizing for a new key has room for all keys. -/
theorem newkey_ends (depth : Nat) (tabov : may .tabov) : KeepsNew may (newkey (depth + 2)) := by
  intro t k wf hashed absent
  rcases newkey_cases (depth + 1) wf hashed absent with ⟨slot, t', run, fits⟩ | ⟨-, run⟩
  · rw [run]
    exact fits.adds
  · rw [run]
    have same := hashed.1.stored
    have keeps : Foundation.Ends (Keeps t) (fun _ => True) (t.rehashtab (newkey (depth + 1)) k) :=
      resize_keeps (newkey_keeps _) trivial trivial wf _ _
    have resized : Foundation.Ends (fun u => Keeps t u ∧ u.Room k) may (t.rehashtab (newkey (depth + 1)) k) :=
      (keeps.and (rehashtab_room depth wf k fun _ => tabov)).mono
        (fun _ _ both => ⟨both.1, both.2.1⟩) fun _ both => both.2
    refine resized.bind fun u _ ⟨keeps, room⟩ => ?_
    refine (set_ends (fun r => Within u k.stored r.1 r.2) keeps.wf (same.symm ▸ hashed.1)
      (fun _ entry => .found keeps.wf entry)
      (newkey_within depth keeps.wf (same.symm ▸ room))).mono (fun r _ within => ?_)
      fun _ allowed => allowed
    rw [same] at within
    exact ⟨keeps.trans within.adds.keeps, within.adds.entry⟩

/-! ## Arrays that shrink -/

omit [StrHash] in
theorem length_cutPairs (t : GCtab) (asize : Nat) :
    (t.cutPairs asize).length = t.countvalues asize (t.asize - asize) := by
  have keys := congrArg List.length (t.cutPairs_keys asize)
  rw [List.length_map, slotKeys_length] at keys
  exact keys

/-- The array values that are cut off go to nodes of the new hash part. Only after them is
the hash part stored again, which may resize the table. -/
theorem resize_cut (depth : Nat) (wf : t.Wf) {asize hbits : Nat}
    (room : t.countvalues asize (t.asize - asize) ≤ nodesOf hbits) :
    Foundation.Ends (fun _ => True) (· ≠ .staleArray) (t.resize (newkey (depth + 2)) asize hbits) := by
  have notStale : TabError.tabov ≠ .staleArray := by decide
  refine (resize_ends wf (fun _ => notStale)
    (fun base cut _ u => u.Wf ∧ (cut ≠ [] → Roomy base (nodesOf hbits) cut u)) (fun base fresh => ?_)
    fun base fresh => ⟨fresh.wf, fun _ => ⟨fresh.wf, rfl, rfl, ?_⟩⟩).mono (fun _ _ _ => trivial)
    fun _ allowed => allowed
  · have refills : Refills (newkey (depth + 2)) (· ≠ .staleArray) base
        fun cut pairs => Roomy base (nodesOf hbits) (cut ++ pairs) :=
      roomy_refills (depth + 1) fresh.nodes
    refine ⟨fun i v cut pairs u outside small current ⟨_, roomy⟩ => ?_,
      fun k v pairs u isKey ⟨wfU, _⟩ => ?_, fun pairs u ⟨wfU, _⟩ => ⟨wfU.realloc _, (absurd rfl ·)⟩⟩
    · have before : Roomy base (nodesOf hbits) (((.num (.ofInt i), v) :: cut) ++ []) u := by
        rw [List.append_nil]
        exact roomy (List.cons_ne_nil _ _)
      refine (refills.index i v cut [] u outside small current before).mono
        (fun r _ ⟨after, same⟩ => ?_) fun _ allowed => allowed
      rw [List.append_nil] at after
      exact ⟨⟨after.wf, fun _ => after⟩, same⟩
    · have same := isKey.stored
      refine (set_adds (newkey_ends depth notStale) wfU (k := k) (same.symm ▸ isKey)).mono
        (fun r _ adds => ?_) fun _ allowed => allowed
      exact ⟨adds.keeps.wf.store adds.entry v, (absurd rfl ·)⟩
  · have bound : base.outside (t.cutPairs asize) ≤ (t.cutPairs asize).length := List.countP_le_length
    rw [length_cutPairs] at bound
    rw [fresh.used]
    omega

theorem resize_ends_ok (depth : Nat) (wf : t.Wf) {asize hbits : Nat}
    (room : t.countvalues asize (t.asize - asize) ≤ nodesOf hbits) :
    Foundation.Ends (Keeps t) (· = .tabov) (t.resize (newkey (depth + 2)) asize hbits) := by
  have keeps : Foundation.Ends (Keeps t) (fun e => e = .tabov ∨ e = .staleArray)
      (t.resize (newkey (depth + 2)) asize hbits) :=
    resize_keeps (newkey_ends depth (.inl rfl)) (.inl rfl) (.inr rfl) wf asize hbits
  exact (keeps.and (resize_cut depth wf room)).mono (fun _ _ both => both.1)
    fun _ both => both.1.resolve_right both.2

end GCtab

end TvmJit.Tab
