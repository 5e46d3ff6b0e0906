import TvmJit.Dump.Uleb128
import TvmJit.Foundation.Codec
import TvmJit.Tab.Rehash
import TvmJit.Tab.Limit

/-! Template tables in bytecode dumps: `bcwrite_ktab` and `bcread_ktab`. -/

namespace TvmJit.Dump

open Foundation Function Tab

inductive BcError
  | bcbad
  | bcfmt
  /-- A read behind the end of the buffer. -/
  | overread
  | table (e : TabError)

/-- The input, and a state beside it. -/
abbrev BcReader (σ α : Type) := Reader UInt8 BcError σ α

section

variable {σ : Type}

def bcread_byte : BcReader σ UInt8 :=
  Reader.ofInput .overread fun
    | [] => none
    | b :: p => some (b, p)

def bcread_uleb128 : BcReader σ (BitVec 32) := Reader.ofInput .overread lj_buf_ruleb128

def bcread_mem (len : Nat) : BcReader σ GCstr := Reader.take .overread len

def ofTable {α : Type} : Except TabError α → BcReader σ α
  | .ok a => pure a
  | .error e => throw (.table e)

end

/-! ## Writing -/

def BCDUMP_KTAB_INT : UInt8 := 3
def BCDUMP_KTAB_NUM : UInt8 := 4
def BCDUMP_KTAB_STR : BitVec 32 := 5

/-- `bcwrite_ktabk`. There are no other objects than strings in a template table. -/
def bcwrite_ktabk (narrow : Bool) : Tab.TValue → GCstr
  | .str s => lj_strfmt_wuleb128 (BCDUMP_KTAB_STR + .ofNat 32 s.length) ++ s
  | .num n =>
      if narrow ∧ n.eq (.ofInt n.num2int) then
        BCDUMP_KTAB_INT :: lj_strfmt_wuleb128 (.ofInt 32 n.num2int)
      else
        BCDUMP_KTAB_NUM :: (lj_strfmt_wuleb128 (n.extractLsb' 0 32) ++ lj_strfmt_wuleb128 (n.extractLsb' 32 32))
  | .nil => [0]
  | .bool false => [1]
  | .bool true => [2]
  | .gcref _ _ => []

/-- The length of the array without the nils at its end. -/
def narray (t : Tab.GCtab) : Nat → Nat
  | 0 => 0
  | i + 1 => if t.array i ≠ .nil then i + 1 else narray t i

def bcwrite_khash (entry : Tab.TValue × Tab.TValue) : GCstr :=
  bcwrite_ktabk false entry.1 ++ bcwrite_ktabk true entry.2

/-- `bcwrite_ktab`. The nodes are written from the last one on, those that have a value. -/
def bcwrite_ktab (t : Tab.GCtab) : GCstr :=
  let narray := narray t t.asize
  let nhash := if t.hmask > 0 then t.nodePairs.length else 0
  lj_strfmt_wuleb128 (.ofNat 32 narray) ++ lj_strfmt_wuleb128 (.ofNat 32 nhash) ++
    ((List.range narray).map t.array).flatMap (bcwrite_ktabk true) ++
    (t.nodePairs.reverse.take nhash).flatMap bcwrite_khash

/-! ## Reading -/

section

variable [StrHash] {σ : Type}

def bcread_ktabk : BcReader σ Tab.TValue := do
  let tp ← bcread_uleb128
  if tp ≥ BCDUMP_KTAB_STR then return .str (← bcread_mem (tp - BCDUMP_KTAB_STR).toNat)
  else if tp = 3 then return .num (.ofInt (← bcread_uleb128).toInt)
  else if tp = 4 then do
    let lo ← bcread_uleb128
    let hi ← bcread_uleb128
    return .num (hi ++ lo)
  else return if tp = 0 then .nil else .bool (tp = 2)

def readArray : Nat → Nat → Tab.GCtab → BcReader σ Tab.GCtab
  | 0, _, t => return t
  | n + 1, i, t => do
      let v ← bcread_ktabk
      readArray n (i + 1) (t.store (.array i) v)

def readHash (depth : Nat) : Nat → Tab.GCtab → BcReader σ Tab.GCtab
  | 0, t => return t
  | n + 1, t => do
      let key ← bcread_ktabk
      let r ← ofTable (t.ljTabSet depth key)
      let v ← bcread_ktabk
      readHash depth n (r.2.store r.1 v)

def bcread_ktab (depth : Nat) : BcReader σ Tab.GCtab := do
  let narray ← bcread_uleb128
  let nhash ← bcread_uleb128
  let t ← ofTable (Tab.GCtab.ljTabNew narray.toNat (Tab.GCtab.hsize2hbits nhash.toNat))
  let t ← readArray narray.toNat 0 t
  readHash depth nhash.toNat t

end

/-! ## Single values -/

/-- What a template table may hold. -/
def Constant : Tab.TValue → Prop
  | .gcref _ _ => False
  | .str s => s.length < 2 ^ 31
  | _ => True

section

variable {σ : Type} {s : σ}

theorem uleb128_decodes (v : BitVec 32) : Decodes bcread_uleb128 (lj_strfmt_wuleb128 v) s v s := by
  apply Decodes.ofInput
  intro rest
  exact ruleb128_wuleb128 v rest

theorem byte_decodes (b : UInt8) : Decodes bcread_byte [b] s b s := by
  apply Decodes.ofInput
  intro rest
  rfl

theorem mem_decodes {word : GCstr} {len : Nat} (length : word.length = len) :
    Decodes (bcread_mem len) word s word s := Decodes.take len length

theorem ofTable_decodes {α : Type} {a : α} {r : Except TabError α} (isOk : r = .ok a) :
    Decodes (ofTable r) [] s a s := by
  rw [isOk]
  exact Decodes.pure

/-- The number of a type is written in one byte. -/
theorem type_decodes (b : UInt8) (small : b < 0x80) : Decodes bcread_uleb128 [b] s (b.toBitVec.setWidth 32) s := by
  apply Decodes.ofInput
  intro rest
  have small : ¬(0x80 : BitVec 32) ≤ b.toBitVec.setWidth 32 := by
    have less : b.toNat < 128 := small
    rw [BitVec.le_def, BitVec.toNat_setWidth]
    change ¬128 ≤ b.toNat % 2 ^ 32
    omega
  rw [List.singleton_append, lj_buf_ruleb128]
  exact if_neg small

/-- The type of a string has its length. -/
theorem str_type {len : Nat} (short : len < 2 ^ 31) :
    (5 + BitVec.ofNat 32 len) ≥ 5 ∧ (5 + BitVec.ofNat 32 len - 5).toNat = len := by
  have isLength : (5 + BitVec.ofNat 32 len).toNat = 5 + len := by
    rw [BitVec.toNat_add, BitVec.toNat_ofNat]
    change (5 + len % 2 ^ 32) % 2 ^ 32 = _
    omega
  constructor
  · rw [ge_iff_le, BitVec.le_def, isLength]
    exact Nat.le_add_right 5 len
  · rw [BitVec.add_comm, BitVec.add_sub_cancel, BitVec.toNat_ofNat]
    omega

/-- A number that has the value of an integer. -/
theorem narrow_value {n : Num} (integer : n.eq (.ofInt n.num2int) = true) :
    Tab.TValue.num (.ofInt (BitVec.ofInt 32 n.num2int).toInt) = (Tab.TValue.num n).stored := by
  have range := n.num2int_range
  rw [BitVec.toInt_ofInt, Int.bmod_eq_of_le (by omega) (by omega), stored_of_eq integer]

theorem stored_of_ne {n : Num} (different : ¬n.eq (.ofInt n.num2int) = true) : (Tab.TValue.num n).stored = .num n := by
  have notZero : n.isMzero = false := by
    rw [Num.isMzero, beq_eq_false_iff_ne]
    rintro rfl
    exact different (by decide)
  simp [Tab.TValue.stored, notZero]

theorem append_halves (n : Num) : n.extractLsb' 32 32 ++ n.extractLsb' 0 32 = n := by
  apply BitVec.eq_of_getLsbD_eq
  intro i low
  rw [BitVec.getLsbD_append, BitVec.getLsbD_extractLsb', BitVec.getLsbD_extractLsb']
  split
  · next below => simp [below]
  · next above =>
      have inside : i - 32 < 32 := by omega
      have place : 32 + (i - 32) = i := by omega
      simp [inside, place]

/-- Numbers are narrowed to integers, where `-0` becomes `0` as it does in a key. -/
theorem ktabk_decodes (narrow : Bool) {o : Tab.TValue} (constant : Constant o) :
    Decodes bcread_ktabk (bcwrite_ktabk narrow o) s (if narrow then o.stored else o) s := by
  cases o with
  | nil =>
      apply (type_decodes 0 (by decide)).bind_nil
      cases narrow <;> exact Decodes.pure
  | bool b =>
      cases b with
      | false =>
          apply (type_decodes 1 (by decide)).bind_nil
          cases narrow <;> exact Decodes.pure
      | true =>
          apply (type_decodes 2 (by decide)).bind_nil
          cases narrow <;> exact Decodes.pure
  | gcref it ref => exact constant.elim
  | str text =>
      have isType := str_type (constant : text.length < 2 ^ 31)
      have same : (if narrow then (Tab.TValue.str text).stored else .str text) = .str text := by
        cases narrow <;> rfl
      rw [same]
      apply (uleb128_decodes _).bind
      rw [BCDUMP_KTAB_STR, if_pos isType.1, isType.2]
      exact (mem_decodes rfl).bind_nil Decodes.pure
  | num n =>
      rw [bcwrite_ktabk]
      split
      · next integer =>
          rw [integer.1, if_pos rfl, ← narrow_value integer.2]
          apply (@type_decodes σ _ 3 (by decide)).bind
          exact (uleb128_decodes _).bind_nil Decodes.pure
      · next notInteger =>
          have same : (if narrow then (Tab.TValue.num n).stored else .num n) = .num n := by
            cases narrow with
            | false => rfl
            | true => exact stored_of_ne fun integer => notInteger ⟨rfl, integer⟩
          rw [same]
          apply (@type_decodes σ _ 4 (by decide)).bind
          apply (uleb128_decodes _).bind
          apply (uleb128_decodes _).bind_nil
          rw [append_halves]
          exact Decodes.pure

/-! ## The array -/

/-- The values of an array replace those from `i` on. -/
theorem readArray_decodes {array : Nat → Tab.TValue} (n i : Nat) (t : Tab.GCtab)
    (constant : ∀ j, i ≤ j → j < i + n → Constant (array j)) :
    ∃ u, (∀ s : σ, Decodes (readArray n i t) (((List.range' i n).map array).flatMap (bcwrite_ktabk true)) s u s) ∧
      u = { t with array := u.array } ∧
      ∀ j, u.array j = if i ≤ j ∧ j < i + n then (array j).stored else t.array j := by
  induction n generalizing i t with
  | zero =>
      refine ⟨t, fun _ => Decodes.pure, rfl, fun j => ?_⟩
      rw [if_neg (by omega)]
  | succ n induction =>
      obtain ⟨u, decodes, same, values⟩ :=
        induction (i + 1) (t.store (.array i) (array i).stored) fun j low high => constant j (by omega) (by omega)
      refine ⟨u, fun s => ?_, same, fun j => ?_⟩
      · rw [List.range'_succ, List.map_cons, List.flatMap_cons]
        exact (ktabk_decodes true (constant i le_rfl (by omega))).bind (decodes s)
      · rw [values j]
        change (if i + 1 ≤ j ∧ j < i + 1 + n then (array j).stored
          else update t.array i (array i).stored j) = _
        by_cases first : j = i
        · rw [first, if_neg (by omega), if_pos (by omega), update_self]
        · rw [update_of_ne first]
          by_cases inside : i + 1 ≤ j ∧ j < i + 1 + n
          · rw [if_pos inside, if_pos (by omega)]
          · rw [if_neg inside, if_neg (by omega)]

theorem narray_le (t : Tab.GCtab) (n : Nat) : narray t n ≤ n := by
  induction n with
  | zero => exact le_rfl
  | succ n induction =>
      rw [narray]
      split
      · exact le_rfl
      · omega

theorem narray_nil (t : Tab.GCtab) {n i : Nat} (behind : narray t n ≤ i) (inside : i < n) : t.array i = .nil := by
  induction n with
  | zero => omega
  | succ n induction =>
      rw [narray] at behind
      split at behind
      · omega
      · next isNil =>
          by_cases last : i = n
          · rw [last]
            simpa using isNil
          · exact induction behind (by omega)

/-! ## The hash part -/

variable [StrHash]

/-- Entries for which there are nodes are stored one after the other. -/
theorem readHash_decodes (depth : Nat) {base u : Tab.GCtab} {limit : Nat}
    (enough : limit ≤ if base.hmask = 0 then 0 else base.hmask + 1) (entries : List (Tab.TValue × Tab.TValue))
    (keys : ∀ entry ∈ entries, entry.1.IsKey)
    (constant : ∀ entry ∈ entries, Constant entry.1 ∧ Constant entry.2)
    (roomy : Tab.GCtab.Roomy base limit (entries.map fun entry => (entry.1, entry.2.stored)) u) :
    ∃ u', (∀ s : σ, Decodes (readHash (depth + 1) entries.length u) (entries.flatMap bcwrite_khash) s u' s) ∧
      u'.Wf ∧
      ∀ m, u.Holds m → u'.Holds (Tab.GCtab.putAll m (entries.map fun entry => (entry.1, entry.2.stored))) := by
  induction entries generalizing u with
  | nil => exact ⟨u, fun _ => Decodes.pure, roomy.wf, fun _ holds => holds⟩
  | cons entry entries induction =>
      have isKey := keys entry List.mem_cons_self
      have isConstant := constant entry List.mem_cons_self
      have same := isKey.stored
      have within : Foundation.Ends (fun r => Tab.GCtab.Within u entry.1.stored r.1 r.2) (fun _ => False)
          (u.ljTabSet (depth + 1) entry.1) := by
        have room := roomy.of_pair enough
        apply Tab.GCtab.set_ends _ roomy.wf (same.symm ▸ isKey) (fun _ found => .found roomy.wf found)
        exact Tab.GCtab.newkey_within depth roomy.wf (same.symm ▸ room)
      obtain ⟨r, isSlot, within⟩ := within.exists_ok
      rw [same] at within
      obtain ⟨u', decodes, wf, holds'⟩ :=
        induction (fun entry member => keys entry (List.mem_cons_of_mem _ member))
          (fun entry member => constant entry (List.mem_cons_of_mem _ member)) (roomy.store within)
      refine ⟨u', fun s => ?_, wf, fun m holds => holds' _
        ((within.adds.keeps.holds m holds).store within.adds.keeps.wf within.adds.entry entry.2.stored)⟩
      rw [List.flatMap_cons, bcwrite_khash, List.append_assoc]
      apply (ktabk_decodes false isConstant.1).bind
      apply (ofTable_decodes isSlot).nil_bind
      exact (ktabk_decodes true isConstant.2).bind (decodes s)

/-! ## Tables -/

/-- A template table, in its array and its hash part. -/
structure Template (t : Tab.GCtab) : Prop where
  wf : t.Wf
  limited : t.Limited
  array : ∀ i < t.asize, Constant (t.array i)
  entries : ∀ entry ∈ t.nodePairs, Constant entry.1 ∧ Constant entry.2

/-- What is loaded holds the values that were dumped, but for the sign of a zero. -/
def Loads (t u : Tab.GCtab) : Prop := u.Wf ∧ ∀ m, t.Holds m → u.Holds fun k => (m k).stored

omit [StrHash] in
theorem mem_nodePairs {t : Tab.GCtab} {entry : Tab.TValue × Tab.TValue} (member : entry ∈ t.nodePairs) :
    ∃ i ≤ t.hmask, entry = ((t.node i).key, (t.node i).val) ∧ (t.node i).val ≠ .nil := by
  rw [Tab.GCtab.nodePairs, List.filterMap_map, List.mem_filterMap] at member
  obtain ⟨i, inside, isPair⟩ := member
  rw [Function.comp_apply, Tab.GCtab.nodePair] at isPair
  split at isPair
  · cases isPair
  · next some => exact ⟨i, Nat.lt_succ_iff.mp (List.mem_range.mp inside), (Option.some.inj isPair).symm, some⟩

omit [StrHash] in
theorem nodePairs_mem {t : Tab.GCtab} {i : Nat} (inside : i ≤ t.hmask) (some : (t.node i).val ≠ .nil) :
    ((t.node i).key, (t.node i).val) ∈ t.nodePairs := by
  rw [Tab.GCtab.nodePairs, List.filterMap_map, List.mem_filterMap]
  exact ⟨i, List.mem_range.mpr (Nat.lt_succ_iff.mpr inside), if_neg some⟩

theorem entry_value {t : Tab.GCtab} {m : Tab.TValue → Tab.TValue} (wf : t.Wf) (holds : t.Holds m)
    {entry : Tab.TValue × Tab.TValue}
    (member : entry ∈ t.nodePairs) : entry.1.IsKey ∧ entry.2 = m entry.1 := by
  obtain ⟨i, -, rfl, some⟩ := mem_nodePairs member
  have isKey : (t.node i).key.IsKey := (wf.keys i fun isNil => some (wf.valued i isNil)).1
  exact ⟨isKey, (holds _ isKey).1 (.node i) ⟨rfl, isKey.ne_nil⟩⟩

/-- The number of entries is that of the nodes with a value. -/
theorem nhash_eq {t : Tab.GCtab} (wf : t.Wf) : (if t.hmask > 0 then t.nodePairs.length else 0) = t.nodePairs.length := by
  split
  · rfl
  · next none =>
      have empty := (wf.shared (by omega)).2
      symm
      rw [List.length_eq_zero_iff, List.eq_nil_iff_forall_not_mem]
      intro entry member
      obtain ⟨i, -, -, some⟩ := mem_nodePairs member
      rw [empty i] at some
      exact some rfl

omit [StrHash] in
/-- A new table has nodes for the entries. -/
theorem ljTabNew_nodes {asize n : Nat} (small : asize ≤ maxAsize) (few : n ≤ 2 ^ maxHbits) :
    ∃ t, Tab.GCtab.ljTabNew asize (Tab.GCtab.hsize2hbits n) = .ok t ∧ t.asize = asize ∧ t.node = (fun _ => {}) ∧
      (∀ i, t.array i = .nil) ∧ t.freetop = (if t.hmask = 0 then 0 else t.hmask + 1) ∧
      n ≤ if t.hmask = 0 then 0 else t.hmask + 1 := by
  have enough := Tab.GCtab.le_nodesOf_hsize2hbits n
  have bits := Tab.GCtab.hsize2hbits_le few
  rw [Tab.GCtab.nodesOf] at enough
  rw [Tab.GCtab.ljTabNew, if_neg (Nat.not_lt.mpr small)]
  by_cases none : Tab.GCtab.hsize2hbits n = 0
  · rw [if_pos none] at enough
    simp only [none, ne_eq, not_true_eq_false, if_false]
    exact ⟨_, rfl, rfl, rfl, fun _ => rfl, rfl, enough⟩
  · rw [if_neg none] at enough
    have large : 2 ≤ 2 ^ Tab.GCtab.hsize2hbits n := Nat.le_self_pow none 2
    have some : ¬2 ^ Tab.GCtab.hsize2hbits n - 1 = 0 := by omega
    simp only [ne_eq, none, not_false_eq_true, if_true, Tab.GCtab.newhpart, if_neg (Nat.not_lt.mpr bits)]
    refine ⟨_, rfl, rfl, rfl, fun _ => rfl, ?_, ?_⟩
    · change 2 ^ _ = if 2 ^ Tab.GCtab.hsize2hbits n - 1 = 0 then 0 else 2 ^ Tab.GCtab.hsize2hbits n - 1 + 1
      rw [if_neg some]
      omega
    · change n ≤ if 2 ^ Tab.GCtab.hsize2hbits n - 1 = 0 then 0 else 2 ^ Tab.GCtab.hsize2hbits n - 1 + 1
      rw [if_neg some]
      omega

omit [StrHash] in
theorem used_empty {t : Tab.GCtab} (empty : t.node = fun _ => {}) : t.used = 0 := by
  rw [Tab.GCtab.used, empty, Finset.card_eq_zero, Finset.filter_eq_empty_iff]
  exact fun i _ isUsed => isUsed rfl

/-- The array of the loaded table, before the entries are stored. -/
theorem array_holds {t u : Tab.GCtab} {m : Tab.TValue → Tab.TValue} (wf : t.Wf) (holds : t.Holds m)
    (small : u.asize ≤ t.asize)
    (empty : u.node = fun _ => {}) (values : ∀ i < u.asize, u.array i = (t.array i).stored) :
    u.Holds fun k => if u.arrayKey k then (m k).stored else .nil := by
  have bound : maxAsize < 2147483648 := by decide
  have limit := wf.small
  intro k isKey
  refine ⟨fun slot entry => ?_, fun absent => ?_⟩
  · cases slot with
    | node i =>
        obtain ⟨isNode, some⟩ := entry
        rw [empty] at isNode
        exact absurd isNode.symm some
    | array i =>
        obtain ⟨inside, rfl⟩ := entry
        have inArray : u.arrayKey (.num (.ofInt i)) = true := by
          rw [Tab.GCtab.arrayKey_ofInt (by omega) (by omega), Tab.GCtab.inarray_iff]
          omega
        have value := (holds _ isKey).1 (.array i) ⟨by omega, rfl⟩
        dsimp only
        rw [if_pos inArray, ← value]
        exact values i inside
  · dsimp only
    split
    · next inArray =>
        obtain ⟨i, inside, rfl⟩ := Tab.GCtab.eq_of_arrayKey isKey inArray
        exact absurd ⟨inside, rfl⟩ (absent (.array i))
    · rfl

/-- With the entries stored it holds everything. -/
theorem entries_hold {t u : Tab.GCtab} {m : Tab.TValue → Tab.TValue} (wf : t.Wf) (holds : t.Holds m)
    (isArray : u.asize = narray t t.asize) {k : Tab.TValue} (isKey : k.IsKey) :
    Tab.GCtab.putAll (fun k => if u.arrayKey k then (m k).stored else .nil)
      (t.nodePairs.reverse.map fun entry => (entry.1, entry.2.stored)) k = (m k).stored := by
  apply Tab.GCtab.putAll_eq (m := fun k => (m k).stored)
  · intro pair member
    obtain ⟨entry, isEntry, rfl⟩ := List.mem_map.mp member
    exact congrArg Tab.TValue.stored (entry_value wf holds (List.mem_reverse.mp isEntry)).2
  · intro other
    split
    · rfl
    · next notIn =>
        have isNil : m k = .nil := by
          by_cases found : ∃ slot, t.Entry k slot
          · obtain ⟨slot, entry⟩ := found
            rw [← (holds k isKey).1 slot entry]
            cases slot with
            | array i =>
                obtain ⟨inside, rfl⟩ := entry
                apply narray_nil t (n := t.asize) _ inside
                by_contra below
                have limit := wf.small
                have bound : maxAsize < 2147483648 := by decide
                apply notIn
                rw [Tab.GCtab.arrayKey_ofInt (by omega) (by omega), Tab.GCtab.inarray_iff, isArray]
                omega
            | node i =>
                by_contra some
                have inside : i ≤ t.hmask := by
                  by_contra outside
                  have empty := wf.outside i (by omega)
                  rw [Tab.GCtab.read, empty] at some
                  exact some rfl
                apply other ((t.node i).key, (t.node i).val.stored) _ entry.1
                apply List.mem_map.mpr
                exact ⟨_, List.mem_reverse.mpr (nodePairs_mem inside some), rfl⟩
          · exact (holds k isKey).2 (not_exists.mp found)
        rw [isNil]
        rfl

/-- A template table that is written and read again holds the same values. -/
theorem ktab_decodes (depth : Nat) {t : Tab.GCtab} (template : Template t) :
    ∃ u, (∀ s : σ, Decodes (bcread_ktab (depth + 1)) (bcwrite_ktab t) s u s) ∧ Loads t u := by
  obtain ⟨wf, limited, constant, entries⟩ := template
  have bound : maxAsize < 2 ^ 31 := by decide
  have small := wf.small
  have short := narray_le t t.asize
  have few : t.nodePairs.length ≤ 2 ^ maxHbits := by
    have length : t.nodePairs.length ≤ t.hmask + 1 := by
      rw [Tab.GCtab.nodePairs]
      apply (List.length_filterMap_le ..).trans
      simp
    have isLimited : t.hmask < 2 ^ maxHbits := limited
    omega
  have bits : (2 : Nat) ^ maxHbits < 2 ^ 32 := by decide
  have isArray : (BitVec.ofNat 32 (narray t t.asize)).toNat = narray t t.asize := by
    rw [BitVec.toNat_ofNat]
    omega
  have isHash : (BitVec.ofNat 32 t.nodePairs.length).toNat = t.nodePairs.length := by
    rw [BitVec.toNat_ofNat]
    omega
  obtain ⟨base, new, asize, empty, noValues, top, enough⟩ := ljTabNew_nodes (short.trans small) few
  obtain ⟨u, array, same, values⟩ := @readArray_decodes σ t.array (narray t t.asize) 0 base
    fun j _ inside => constant j (by omega)
  have asizeU : u.asize = narray t t.asize := by rw [same]; exact asize
  have emptyU : u.node = fun _ => {} := by rw [same]; exact empty
  have hmaskU : u.hmask = base.hmask := by rw [same]
  have wfU : u.Wf := by
    rw [same, empty]
    exact Tab.GCtab.wf_fresh (by omega) top
  have roomy : Tab.GCtab.Roomy base t.nodePairs.length
      (t.nodePairs.reverse.map fun entry => (entry.1, entry.2.stored)) u := by
    refine ⟨wfU, by rw [same], hmaskU, ?_⟩
    rw [used_empty emptyU, Nat.zero_add, Tab.GCtab.outside]
    apply List.countP_le_length.trans
    simp
  obtain ⟨m₀, holds₀⟩ := wf.exists_holds
  have keys : ∀ entry ∈ t.nodePairs.reverse, entry.1.IsKey := fun entry member =>
    (entry_value wf holds₀ (List.mem_reverse.mp member)).1
  rw [← List.length_reverse] at enough roomy
  obtain ⟨u', hash, wfU', holdsU'⟩ := @readHash_decodes σ _ depth _ _ _ enough t.nodePairs.reverse keys
    (fun entry member => entries entry (List.mem_reverse.mp member)) roomy
  refine ⟨u', fun s => ?_, wfU', fun m holds k isKey => ?_⟩
  · rw [bcwrite_ktab, nhash_eq wf, List.range_eq_range', List.take_of_length_le (by simp), List.append_assoc,
      List.append_assoc]
    apply (uleb128_decodes _).bind
    apply (uleb128_decodes _).bind
    rw [isArray, isHash]
    apply (ofTable_decodes new).nil_bind
    apply (array s).bind
    rw [← List.length_reverse]
    exact hash s
  · have arrayHolds : u.Holds fun k => if u.arrayKey k then (m k).stored else .nil := by
      apply array_holds wf holds (by omega) emptyU
      intro i inside
      rw [values i, if_pos (by omega)]
    have final := holdsU' _ arrayHolds k isKey
    rw [entries_hold wf holds asizeU isKey] at final
    exact final

end

end TvmJit.Dump
