import TvmJit.Str.Intern

/-! `lj_str_resize`: all strings are put into the chains of a new table, through the fields
that made up the chains of the old one. -/

namespace TvmJit

open Foundation Function

namespace StrState

variable {S : StrState} {lists : BitVec 32 → List StrRef} {newmask : BitVec 32}
  {rehash : StrState × (BitVec 32 → StrRef)}

/-! ## One chain -/

/-- The bucket of a string in the new table. -/
def newBucket (S : StrState) (newmask : BitVec 32) (s : StrRef) : BitVec 32 := (S.get s).hash &&& newmask

/-- The new table as it is so far. -/
def newTable (rehash : StrState × (BitVec 32 → StrRef)) : (BitVec 32 → StrRef) × (StrRef → StrRef) :=
  (rehash.2, rehash.1.nexts)

theorem newTable_reinsert (p : StrRef) :
    newTable (reinsert newmask rehash p) =
      Buckets.pushEntry (rehash.1.newBucket newmask) (newTable rehash) p := by
  obtain ⟨S, newhash⟩ := rehash
  exact Prod.ext rfl (nexts_set S p _)

/-- The strings of a list are pushed to their new buckets. -/
theorem reinsertAll {entries : List StrRef} (strings : ∀ s ∈ entries, (rehash.1.str s).isSome = true) :
    Linked rehash.1 (entries.foldl (reinsert newmask) rehash).1 ∧
      newTable (entries.foldl (reinsert newmask) rehash) =
        entries.foldl (Buckets.pushEntry (rehash.1.newBucket newmask)) (newTable rehash) := by
  induction entries generalizing rehash with
  | nil => exact ⟨.refl _, rfl⟩
  | cons p entries induction =>
      obtain ⟨isString, strings⟩ := List.forall_mem_cons.mp strings
      have step : Linked rehash.1 (reinsert newmask rehash p).1 := .set isString _
      obtain ⟨rest, pushed⟩ := @induction (reinsert newmask rehash p)
        fun s member => (step.kept.isSome s).trans (strings s member)
      have sameBucket : (reinsert newmask rehash p).1.newBucket newmask = rehash.1.newBucket newmask := by
        funext s
        rw [newBucket, newBucket, step.hash]
      rw [List.foldl_cons, List.foldl_cons, ← newTable_reinsert, ← sameBucket]
      exact ⟨step.trans rest, pushed⟩

theorem reinsertAll_strhash (entries : List StrRef) :
    (entries.foldl (reinsert newmask) rehash).1.strhash = rehash.1.strhash := by
  induction entries generalizing rehash with
  | nil => rfl
  | cons p entries induction => exact induction

/-- Other strings keep their links. -/
theorem reinsertAll_frame {entries : List StrRef} {s : StrRef} (other : s ∉ entries) :
    (entries.foldl (reinsert newmask) rehash).1.nexts s = rehash.1.nexts s := by
  induction entries generalizing rehash with
  | nil => rfl
  | cons p entries induction =>
      obtain ⟨ne, other⟩ := List.ne_and_not_mem_of_not_mem_cons other
      rw [List.foldl_cons, induction other]
      refine (congrFun (nexts_set ..) s).trans ?_
      exact update_of_ne ne ..

/-! ## The whole table -/

/-- The indices below a bound, in the order in which the chains are rehashed. -/
def indices : Nat → List (BitVec 32)
  | 0 => []
  | i + 1 => BitVec.ofNat 32 i :: indices i

theorem mem_indices {n : Nat} {i : BitVec 32} (below : i.toNat < n) : i ∈ indices n := by
  induction n with
  | zero => omega
  | succ n induction =>
      rcases Nat.lt_succ_iff_lt_or_eq.mp below with less | same
      · exact List.mem_cons_of_mem _ (induction less)
      · rw [← same, indices, BitVec.ofNat_toNat, BitVec.setWidth_eq]
        exact List.mem_cons_self

theorem lt_of_mem_indices {n : Nat} {i : BitVec 32} (fits : n ≤ 2 ^ 32) (member : i ∈ indices n) :
    i.toNat < n := by
  induction n with
  | zero => cases member
  | succ n induction =>
      rcases List.mem_cons.mp member with rfl | member
      · rw [BitVec.toNat_ofNat, Nat.mod_eq_of_lt (by omega)]
        exact Nat.lt_succ_self n
      · exact Nat.lt_succ_of_lt (induction (by omega) member)

theorem nodup_indices {n : Nat} (fits : n ≤ 2 ^ 32) : (indices n).Nodup := by
  induction n with
  | zero => exact List.nodup_nil
  | succ n induction =>
      refine List.nodup_cons.mpr ⟨fun member => ?_, induction (by omega)⟩
      have below := lt_of_mem_indices (by omega) member
      rw [BitVec.toNat_ofNat, Nat.mod_eq_of_lt (by omega)] at below
      exact Nat.lt_irrefl n below

section

variable [Target]

/-- The chains are taken apart one after the other. -/
theorem rehashTable_eq (sound : Sound S lists) {n : Nat} (fits : n ≤ 2 ^ 32)
    (linked : Linked S rehash.1) (strhash : rehash.1.strhash = S.strhash)
    (left : ∀ i ∈ indices n, ∀ s ∈ lists i, rehash.1.nexts s = S.nexts s) :
    rehashTable newmask n rehash = some (((indices n).flatMap lists).foldl (reinsert newmask) rehash) := by
  induction n generalizing rehash with
  | zero => rfl
  | succ n induction =>
      let i := BitVec.ofNat 32 n
      obtain ⟨here, left⟩ := List.forall_mem_cons.mp left
      have chain : Chain rehash.1.nexts 0 (rehash.1.strhash i) (lists i) := by
        rw [strhash]
        exact (sound.buckets.chain i).congr here
      have frame (x : StrState × (BitVec 32 → StrRef)) (a b : StrRef) (ne : a ≠ b) :
          (reinsert newmask x a).1.nexts b = x.1.nexts b := by
        refine (congrFun (nexts_set ..) b).trans ?_
        exact update_of_ne ne.symm ..
      have strings : ∀ s ∈ lists i, (rehash.1.str s).isSome = true := fun s member =>
        (linked.kept.isSome s).trans ((sound.buckets.listed i s).mp member).1
      have drained : drain (fun rehash p => rehash.1.nexts p) 0 (reinsert newmask) bucketSteps
          (rehash.1.strhash i) rehash = some ((lists i).foldl (reinsert newmask) rehash) :=
        drain_eq frame chain (sound.chain_lt i)
      rw [rehashTable, drained]
      dsimp only
      rw [indices, List.flatMap_cons, List.foldl_append]
      apply induction (by omega) (linked.trans (reinsertAll strings).1)
        ((reinsertAll_strhash _).trans strhash)
      intro j listed s member
      rw [reinsertAll_frame fun both => ?_, left j listed s member]
      -- A string is in one chain only.
      have same := ((sound.buckets.listed i s).mp both).2.symm.trans ((sound.buckets.listed j s).mp member).2
      have nodup := nodup_indices fits
      rw [indices, show BitVec.ofNat 32 n = j from same] at nodup
      exact (List.nodup_cons.mp nodup).1 listed

/-- The table has another size; nothing else has changed. -/
structure Resized (S S' : StrState) : Prop where
  kept : Kept S S'
  marked : ∀ s, (S'.get s).marked = (S.get s).marked
  currentwhite : S'.currentwhite = S.currentwhite
  state : S'.state = S.state
  /-- A sweep goes on in the table it has started in. -/
  sweeping : S.state = .sweepstring → S' = S

theorem resize_spec (sound : Sound S lists) (newmask : BitVec 32) (table : Bool) :
    S.lj_str_resize newmask table = some (.error .mem) ∨
      ∃ S' lists', S.lj_str_resize newmask table = some (.ok S') ∧ Sound S' lists' ∧ Resized S S' := by
  rw [lj_str_resize]
  split
  · exact .inr ⟨S, lists, rfl, sound, .refl S, fun _ => rfl, rfl, rfl, fun _ => rfl⟩
  · next fits =>
      split
      · exact .inl rfl
      · obtain ⟨notSweeping, small⟩ := not_or.mp fits
        have size : (S.strmask + 1).toNat = S.strmask.toNat + 1 := by
          have sized := sound.sized
          rw [LJ_MAX_STRTAB] at sized
          bv_omega
        have bound : S.strmask.toNat + 1 ≤ 2 ^ 32 := S.strmask.isLt
        have all (s : StrRef) (_ : (S.str s).isSome = true) : S.bucket s ∈ indices (S.strmask.toNat + 1) := by
          apply mem_indices
          rw [bucket, BitVec.toNat_and]
          exact Nat.lt_succ_of_le Nat.and_le_right
        have members := sound.buckets.mem_flatMap all
        have strings : ∀ s ∈ (indices (S.strmask.toNat + 1)).flatMap lists, (S.str s).isSome = true :=
          fun s member => (members s).mp member
        obtain ⟨linked, pushed⟩ := @reinsertAll newmask (S, fun _ => 0) _ strings
        obtain ⟨lists', full⟩ := sound.buckets.rehash (nodup_indices bound) all (S.newBucket newmask)
        rw [size, rehashTable_eq sound bound (.refl S) rfl fun _ _ _ _ => rfl]
        obtain ⟨heads, next⟩ := Prod.ext_iff.mp pushed
        refine .inr ⟨_, lists', rfl, ?_, ?_⟩
        · refine Kept.sound ?_ sound (full.congr (fun i => congrFun heads i) (fun s _ => congrFun next s)
            (fun s _ => ?_) fun s => ?_) (BitVec.not_le.mp small)
          · exact ⟨linked.kept.str, linked.kept.oneWhite, linked.kept.num, linked.kept.white⟩
          · exact congrArg (· &&& newmask) (linked.hash s)
          · exact (linked.kept.isSome s).congr_left
        · exact ⟨⟨linked.kept.str, linked.kept.oneWhite, linked.kept.num, linked.kept.white⟩,
            linked.marked, linked.currentwhite, linked.state, fun sweeping => absurd sweeping notSweeping⟩

end

end StrState

end TvmJit
