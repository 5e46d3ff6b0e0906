import TvmJit.Str.Compare
import Mathlib.Data.FinEnum

/-! What holds of the string table between calls, and `lj_str_new` up to the growth of the
table. -/

namespace TvmJit

open Foundation Function

namespace StrState

variable {S S' T : StrState} {lists : BitVec 32 → List StrRef} {s w : StrRef} {o o' : StrObj}

/-! ## Fields -/

theorem get_eq (here : S.str s = some o) : S.get s = o := by rw [get, here]; rfl

theorem str_set (S : StrState) (s : StrRef) (o : StrObj) (w : StrRef) :
    (S.set s o).str w = if w = s then some o else S.str w := update_apply ..

theorem get_set (S : StrState) (s : StrRef) (o : StrObj) (w : StrRef) :
    (S.set s o).get w = if w = s then o else S.get w := by
  rw [get, str_set]
  split
  · rfl
  · rfl

theorem nexts_set (S : StrState) (s : StrRef) (o : StrObj) :
    (S.set s o).nexts = update S.nexts s o.nextgc := by
  funext w
  rw [nexts, get_set, update_apply]
  split
  · rfl
  · rfl

/-! ## The table between calls -/

/-- The strings that are allocated. -/
def allocated (S : StrState) : Finset StrRef := Finset.univ.filter fun s => (S.str s).isSome

theorem mem_allocated : s ∈ S.allocated ↔ (S.str s).isSome = true := by simp [allocated]

/-- The bucket of a string. -/
def bucket (S : StrState) (s : StrRef) : BitVec 32 := (S.get s).hash &&& S.strmask

/-- The bytes of two strings are equal. -/
def StrObj.Equal (o o' : StrObj) : Prop := o.len = o'.len ∧ ∀ j < o.len, o.data j = o'.data j

section

variable [Target]

/-- A string that has been interned. -/
structure Formed (o : StrObj) : Prop where
  nonempty : 0 < o.len
  short : o.len < LJ_MAX_STR
  hash : o.hash = strHash o.data o.len
  oneWhite : whites o.marked ≠ 3

structure Sound (S : StrState) (lists : BitVec 32 → List StrRef) : Prop where
  buckets : Buckets S.strhash S.nexts 0 S.bucket (fun s => (S.str s).isSome = true) lists
  formed : ∀ s o, S.str s = some o → Formed o
  distinct : ∀ s o s' o', S.str s = some o → S.str s' = some o' → StrObj.Equal o o' → s = s'
  num : S.strnum.toNat = S.allocated.card
  white : whites S.currentwhite = 1 ∨ whites S.currentwhite = 2
  sized : S.strmask < LJ_MAX_STRTAB - 1

end

/-- What the collector's colours and the links of the chains leave as it is. -/
def core (o : StrObj) : StrObj := { o with marked := 0, nextgc := 0 }

theorem core_len (same : core o = core o') : o.len = o'.len := by
  have fields := congrArg StrObj.len same
  exact fields

theorem core_data (same : core o = core o') : o.data = o'.data := by
  have fields := congrArg StrObj.data same
  exact fields

theorem core_hash (same : core o = core o') : o.hash = o'.hash := by
  have fields := congrArg StrObj.hash same
  exact fields

/-- The strings are the same but for colours and links. -/
structure Kept (S S' : StrState) : Prop where
  str : ∀ s, (S'.str s).map core = (S.str s).map core
  oneWhite : ∀ s o o', S.str s = some o → S'.str s = some o' → whites o.marked ≠ 3 → whites o'.marked ≠ 3
  num : S'.strnum = S.strnum
  white : whites S.currentwhite = 1 ∨ whites S.currentwhite = 2 →
    whites S'.currentwhite = 1 ∨ whites S'.currentwhite = 2

namespace Kept

theorem isSome (kept : Kept S S') (s : StrRef) : (S'.str s).isSome = (S.str s).isSome := by
  have same := congrArg Option.isSome (kept.str s)
  simpa using same

theorem string (kept : Kept S S') (here : S'.str s = some o') : ∃ o, S.str s = some o ∧ core o = core o' := by
  have same := kept.str s
  rw [here, Option.map_some] at same
  obtain ⟨o, there, same⟩ := Option.map_eq_some_iff.mp same.symm
  exact ⟨o, there, same⟩

theorem forward (kept : Kept S S') (here : S.str s = some o) : ∃ o', S'.str s = some o' ∧ core o = core o' := by
  have same := kept.str s
  rw [here, Option.map_some] at same
  obtain ⟨o', there, same⟩ := Option.map_eq_some_iff.mp same
  exact ⟨o', there, same.symm⟩

theorem hash (kept : Kept S S') (isString : (S'.str s).isSome = true) :
    (S'.get s).hash = (S.get s).hash := by
  obtain ⟨o', here⟩ := Option.isSome_iff_exists.mp isString
  obtain ⟨o, there, same⟩ := kept.string here
  rw [get_eq here, get_eq there, core_hash same]

theorem allocated (kept : Kept S S') : S'.allocated = S.allocated := by
  ext s
  rw [mem_allocated, mem_allocated, kept.isSome]

theorem sound [Target] (kept : Kept S S') (sound : Sound S lists) {lists' : BitVec 32 → List StrRef}
    (buckets : Buckets S'.strhash S'.nexts 0 S'.bucket (fun s => (S'.str s).isSome = true) lists')
    (sized : S'.strmask < LJ_MAX_STRTAB - 1) : Sound S' lists' where
  buckets := buckets
  formed s o' here := by
    obtain ⟨o, there, same⟩ := kept.string here
    have formed := sound.formed s o there
    refine ⟨?_, ?_, ?_, kept.oneWhite s o o' there here formed.oneWhite⟩
    · exact core_len same ▸ formed.nonempty
    · exact core_len same ▸ formed.short
    · rw [← core_hash same, ← core_len same, ← core_data same]
      exact formed.hash
  distinct s o' s' q' here here' equal := by
    obtain ⟨o, there, same⟩ := kept.string here
    obtain ⟨q, there', same'⟩ := kept.string here'
    refine sound.distinct s o s' q there there' ?_
    rw [StrObj.Equal, core_len same, core_len same', core_data same, core_data same']
    exact equal
  num := by
    rw [kept.num, sound.num, kept.allocated]
  white := kept.white sound.white
  sized := sized

/-- The links are the same, too. -/
theorem sound_of_links [Target] (kept : Kept S S') (sound : Sound S lists)
    (heads : S'.strhash = S.strhash) (next : ∀ s, (S.str s).isSome = true → S'.nexts s = S.nexts s)
    (mask : S'.strmask = S.strmask) : Sound S' lists := by
  refine kept.sound sound (sound.buckets.congr (fun i => congrFun heads i) next (fun s isString => ?_)
    fun s => ?_) (mask ▸ sound.sized)
  · rw [bucket, bucket, mask, kept.hash ((kept.isSome s).trans isString)]
  · rw [kept.isSome]

theorem refl (S : StrState) : Kept S S :=
  ⟨fun _ => rfl, fun s o o' here here' white => by rwa [Option.some.inj (here'.symm.trans here)], rfl, id⟩

theorem trans (first : Kept S S') (second : Kept S' T) : Kept S T where
  str s := (second.str s).trans (first.str s)
  oneWhite s o o'' here there white := by
    obtain ⟨o', mid, -⟩ := first.forward here
    exact second.oneWhite s o' o'' mid there (first.oneWhite s o o' here mid white)
  num := second.num.trans first.num
  white isWhite := second.white (first.white isWhite)

end Kept

/-- Only links of chains have changed. -/
structure Linked (S S' : StrState) : Prop where
  kept : Kept S S'
  hash : ∀ s, (S'.get s).hash = (S.get s).hash
  marked : ∀ s, (S'.get s).marked = (S.get s).marked
  strmask : S'.strmask = S.strmask
  currentwhite : S'.currentwhite = S.currentwhite
  state : S'.state = S.state
  sweepstr : S'.sweepstr = S.sweepstr

theorem Linked.refl (S : StrState) : Linked S S :=
  ⟨.refl S, fun _ => rfl, fun _ => rfl, rfl, rfl, rfl, rfl⟩

theorem Linked.trans (first : Linked S S') (second : Linked S' T) : Linked S T :=
  ⟨first.kept.trans second.kept, fun s => (second.hash s).trans (first.hash s),
    fun s => (second.marked s).trans (first.marked s), second.strmask.trans first.strmask,
    second.currentwhite.trans first.currentwhite, second.state.trans first.state,
    second.sweepstr.trans first.sweepstr⟩

/-- A string gets another next string. -/
theorem Linked.set (isString : (S.str s).isSome = true) (nextgc : StrRef) :
    Linked S (S.set s { S.get s with nextgc }) := by
  obtain ⟨o, here⟩ := Option.isSome_iff_exists.mp isString
  have same : S.get s = o := get_eq here
  refine ⟨⟨fun w => ?_, fun w q q' there there' white => ?_, rfl, id⟩, fun w => ?_, fun w => ?_,
    rfl, rfl, rfl, rfl⟩
  · rw [str_set, same]
    split
    · rename_i isHere
      rw [isHere, here]
      rfl
    · rfl
  · rw [str_set, same] at there'
    split at there'
    · rename_i isHere
      rw [isHere] at there
      cases there'
      cases here.symm.trans there
      exact white
    · cases there.symm.trans there'
      exact white
  · rw [get_set]
    split
    · rename_i isHere
      rw [isHere]
    · rfl
  · rw [get_set]
    split
    · rename_i isHere
      rw [isHere]
    · rfl

/-- A string gets another colour. -/
theorem Sound.recolour [Target] (sound : Sound S lists) (here : S.str s = some o) {marked : BitVec 8}
    (oneWhite : whites marked ≠ 3) : Sound (S.set s { o with marked }) lists := by
  have kept : Kept S (S.set s { o with marked }) := by
    refine ⟨fun w => ?_, fun w q q' there there' white => ?_, rfl, id⟩
    · rw [str_set]
      split
      · rename_i same
        rw [same, here]
        rfl
      · rfl
    · rw [str_set] at there'
      split at there'
      · cases there'
        exact oneWhite
      · rw [there] at there'
        cases there'
        exact white
  refine kept.sound_of_links sound rfl (fun w _ => ?_) rfl
  rw [nexts_set, update_apply]
  split
  · rename_i same
    rw [same, nexts, get_eq here]
  · rfl

theorem isdead_iff : S.isdead o = true ↔ whites o.marked &&& (whites S.currentwhite ^^^ 3) ≠ 0 := by
  rw [isdead, otherwhite, dead_bits, bne_iff_ne]

theorem alive_iff (oneWhite : whites o.marked ≠ 3) :
    S.isdead o = false ↔ Alive S.currentwhite o.marked := by
  rw [← Bool.not_eq_true, isdead_iff, not_not]
  exact ⟨fun notDead => ⟨oneWhite, notDead⟩, Alive.notDead⟩

/-! ## Counting -/

theorem length_lt {l : List StrRef} (nodup : l.Nodup) (notNull : ∀ s ∈ l, s ≠ 0) : l.length < bucketSteps := by
  have all : (0 :: l).Nodup := List.nodup_cons.mpr ⟨fun member => notNull 0 member rfl, nodup⟩
  have mapped := all.map BitVec.toNat_injective
  have inside : (0 :: l).map BitVec.toNat ⊆ List.range (2 ^ 32) := by
    intro n member
    obtain ⟨s, -, rfl⟩ := List.mem_map.mp member
    exact List.mem_range.mpr s.isLt
  have fits := (mapped.subperm inside).length_le
  rw [List.length_map, List.length_range, List.length_cons] at fits
  exact fits

theorem card_lt {strings : Finset StrRef} (notNull : 0 ∉ strings) : strings.card < 2 ^ 32 := by
  rw [← Finset.length_toList]
  apply length_lt strings.nodup_toList
  rintro s member rfl
  exact notNull (Finset.mem_toList.mp member)

section

variable [Target]

theorem Sound.chain_lt (sound : Sound S lists) (i : BitVec 32) : (lists i).length < bucketSteps :=
  length_lt (sound.buckets.chain i).nodup fun _ => (sound.buckets.chain i).ne_null

theorem Sound.null (sound : Sound S lists) : S.str 0 = none := by
  by_contra isString
  exact sound.buckets.ne_null (a := 0) (Option.isSome_iff_ne_none.mpr isString) rfl

/-! ## Looking for a string -/

/-- No string has the bytes looked for. -/
def Missing (S : StrState) (str : CharPtr) (len : Nat) : Prop :=
  ∀ s o, S.str s = some o → ¬(o.len = len ∧ ∀ j < len, str.byte j = o.data j)

theorem isString_iff {str : CharPtr} {len : Nat} (nonempty : 0 < len) :
    S.isString str len s = true ↔
      (S.get s).len = len ∧ ∀ j < len, str.byte j = (S.get s).data j := by
  rw [isString, Bool.and_eq_true, decide_eq_true_iff, sameBytes_iff nonempty]

/-- The search ends at the string with the bytes, if there is one. -/
theorem search_spec (sound : Sound S lists) (str : CharPtr) {len : Nat} (nonempty : 0 < len) :
    ∃ found, follow (S.links (strHash str.byte len &&& S.strmask)) (· ≠ 0)
        (fun o => if S.isString str len o then some () else none) bucketSteps none = some found ∧
      match found with
      | .hit _ s _ => ∃ o, S.str s = some o ∧ o.len = len ∧ ∀ j < len, str.byte j = o.data j
      | .ended _ => S.Missing str len := by
  let h := strHash str.byte len &&& S.strmask
  have walk : Walk (S.links h) 0 none (lists h) := sound.buckets.chain h
  obtain ⟨found, run, splits⟩ : ∃ found,
      follow (S.links h) (· ≠ 0) (fun o => if S.isString str len o then some () else none) bucketSteps
        none = some found ∧
      found.Splits (· ≠ 0) (fun o => if S.isString str len o then some () else none) none (lists h) :=
    walk.follow (by simp) (sound.chain_lt h)
  refine ⟨found, run, ?_⟩
  cases found with
  | hit link s result =>
      obtain ⟨before, after, split, -, -, -, decided⟩ := splits
      have isString : S.isString str len s = true := by
        by_contra other
        cases (if_neg other).symm.trans decided
      have listed := (sound.buckets.listed h s).mp (by simp [split])
      obtain ⟨o, here⟩ := Option.isSome_iff_exists.mp listed.1
      rw [isString_iff nonempty, get_eq here] at isString
      exact ⟨o, here, isString⟩
  | ended link =>
      obtain ⟨before, after, split, last, passed, stop⟩ := splits
      intro s o here equal
      -- An equal string has the same hash and is therefore in this chain.
      have hash : o.hash = strHash str.byte len := by
        rw [(sound.formed s o here).hash, equal.1]
        exact strHash_congr (fun j below => (equal.2 j below).symm) nonempty
      have member : s ∈ lists h := by
        refine (sound.buckets.listed h s).mpr ⟨by rw [here]; rfl, ?_⟩
        rw [bucket, get_eq here, hash]
      have passedAll : after = [] := by
        cases after with
        | nil => rfl
        | cons a after =>
            have member : a ∈ lists h := by simp [split]
            have notNull := (sound.buckets.chain h).ne_null member
            exact absurd (of_decide_eq_false (stop a rfl)) (not_not_intro notNull)
      rw [split, passedAll, List.append_nil] at member
      have isString : S.isString str len s = true := by
        rw [isString_iff nonempty, get_eq here]
        exact equal
      cases (if_pos isString).symm.trans (passed s member).2

/-! ## A new string -/

section

variable {str : CharPtr} {len : Nat} {junk : Nat → BitVec 8}

/-- The object of a new string. -/
def newString (S : StrState) (str : CharPtr) (len : Nat) (junk : Nat → BitVec 8) : StrObj where
  nextgc := S.strhash (strHash str.byte len &&& S.strmask)
  marked := S.curwhite
  reserved := 0
  hash := strHash str.byte len
  len := len
  data i := if i < len then str.byte i else if i = len then 0 else junk i

theorem str_linkNew (w : StrRef) :
    (S.linkNew str len junk s).str w = if w = s then some (S.newString str len junk) else S.str w :=
  str_set ..

theorem get_linkNew (w : StrRef) :
    (S.linkNew str len junk s).get w = if w = s then S.newString str len junk else S.get w :=
  get_set ..

theorem newString_data {j : Nat} (below : j < len) : (S.newString str len junk).data j = str.byte j :=
  if_pos below

theorem Sound.linkNew (sound : Sound S lists) (junk : Nat → BitVec 8) (nonempty : 0 < len)
    (short : len < LJ_MAX_STR) (missing : S.Missing str len) (isFree : S.isFree s = true) :
    ∃ lists', Sound (S.linkNew str len junk s) lists' := by
  simp only [StrState.isFree, Option.isNone_iff_eq_none, decide_eq_true_eq] at isFree
  obtain ⟨notNull, -, free⟩ := isFree
  let T := S.linkNew str len junk s
  have new : ¬(S.str s).isSome = true := by simp [free]
  have ne {w : StrRef} (isString : (S.str w).isSome = true) : w ≠ s := by
    rintro rfl
    exact new isString
  have entries (w : StrRef) : (T.str w).isSome = true ↔ w = s ∨ (S.str w).isSome = true := by
    rw [str_linkNew]
    split
    · simp [*]
    · simp [*]
  have sameBucket (w : StrRef) (isString : (S.str w).isSome = true) : T.bucket w = S.bucket w := by
    rw [bucket, get_linkNew, if_neg (ne isString)]
    rfl
  have hashed := (sound.buckets.congr (fun _ => rfl) (fun _ _ => rfl) sameBucket
    fun _ => Iff.rfl).push notNull new
  have bucket_s : T.bucket s = strHash str.byte len &&& S.strmask := by
    rw [bucket, get_linkNew, if_pos rfl]
    rfl
  refine ⟨_, hashed.congr (fun i => ?_) (fun w _ => ?_) (fun _ _ => rfl) entries, fun w o here => ?_,
    fun w o w' o' here here' equal => ?_, ?_, sound.white, sound.sized⟩
  · rw [bucket_s]
    rfl
  · rw [bucket_s]
    exact congrFun (nexts_set S s (S.newString str len junk)) w
  · rw [str_linkNew] at here
    split at here
    · cases here
      refine ⟨nonempty, short, strHash_congr (fun j below => (newString_data below).symm) nonempty, ?_⟩
      have single : Alive S.currentwhite S.curwhite := .current sound.white (whites_whites S.currentwhite)
      exact single.oneWhite
    · exact sound.formed w o here
  · have unlike {w : StrRef} {o : StrObj} (here : S.str w = some o) :
        ¬StrObj.Equal (S.newString str len junk) o := by
      rintro ⟨sameLen, same⟩
      refine missing w o here ⟨sameLen.symm, fun j below => ?_⟩
      rw [← same j below, newString_data below]
    rw [str_linkNew] at here here'
    split at here <;> split at here'
    · rename_i first second
      rw [first, second]
    · cases here
      exact absurd equal (unlike here')
    · cases here'
      refine absurd ⟨equal.1.symm, fun j below => (equal.2 j ?_).symm⟩ (unlike here)
      rw [equal.1]
      exact below
    · exact sound.distinct w o w' o' here here' equal
  · have strings : T.allocated = insert s S.allocated := by
      ext w
      rw [Finset.mem_insert, mem_allocated, mem_allocated, entries]
    have notIn : s ∉ S.allocated := fun member => new (mem_allocated.mp member)
    have few : (insert s S.allocated).card < 2 ^ 32 := by
      apply card_lt
      rw [Finset.mem_insert, mem_allocated, sound.null]
      exact not_or.mpr ⟨notNull.symm, by simp⟩
    change (S.strnum + 1).toNat = T.allocated.card
    rw [strings, Finset.card_insert_of_notMem notIn] at *
    rw [BitVec.toNat_add, sound.num]
    exact Nat.mod_eq_of_lt few

end

end

end StrState

end TvmJit
