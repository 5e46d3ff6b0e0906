import TvmJit.Tab.Room

/-! A table is a map: after any calls a lookup gives what was stored last under the key. -/

namespace TvmJit.Tab

open Foundation Function

/-! ## Keys -/

namespace TValue

/-- Neither nil nor NaN. -/
def Settable (k : TValue) : Prop := k ≠ .nil ∧ ∀ n, k = .num n → n.isNan = false

variable {k k' : TValue}

theorem Settable.isKey (settable : k.Settable) : k.stored.IsKey := by
  cases k with
  | nil => exact settable.1 rfl
  | num n =>
      change (TValue.num (if n.isMzero then 0 else n)).IsKey
      split
      · exact ⟨by decide, by decide⟩
      · next notZero => exact ⟨settable.2 n rfl, by simpa using notZero⟩
  | _ => trivial

theorem num_eq_comm (n n' : Num) : n.eq n' = n'.eq n := by
  rw [Bool.eq_iff_iff, Num.eq_true_iff, Num.eq_true_iff]
  constructor
  · rintro ⟨notNan, notNan', same | ⟨isZero, isZero'⟩⟩
    · exact ⟨notNan', notNan, .inl same.symm⟩
    · exact ⟨notNan', notNan, .inr ⟨isZero', isZero⟩⟩
  · rintro ⟨notNan, notNan', same | ⟨isZero, isZero'⟩⟩
    · exact ⟨notNan', notNan, .inl same.symm⟩
    · exact ⟨notNan', notNan, .inr ⟨isZero', isZero⟩⟩

/-- `-0` equals what `+0` does. -/
theorem num_eq_stored (n n' : Num) : Num.eq (if n.isMzero then 0 else n) n' = n.eq n' := by
  split
  · next isMzero =>
      rw [Num.isMzero, beq_iff_eq] at isMzero
      have zero : Num.isZero 0 = true := by decide
      have mzero : Num.isZero 0x8000000000000000 = true := by decide
      have notNan : Num.isNan 0 = false := by decide
      have notNan' : Num.isNan 0x8000000000000000 = false := by decide
      rw [Bool.eq_iff_iff, Num.eq_true_iff, Num.eq_true_iff, isMzero]
      constructor
      · rintro ⟨-, other, rfl | ⟨-, isZero⟩⟩
        · exact ⟨notNan', other, .inr ⟨mzero, zero⟩⟩
        · exact ⟨notNan', other, .inr ⟨mzero, isZero⟩⟩
      · rintro ⟨-, other, rfl | ⟨-, isZero⟩⟩
        · exact ⟨notNan, other, .inr ⟨zero, mzero⟩⟩
        · exact ⟨notNan, other, .inr ⟨zero, isZero⟩⟩
  · rfl

theorem IsKey.settable (isKey : k.IsKey) : k.Settable := by
  cases k with
  | nil => exact isKey.elim
  | num n =>
      refine ⟨nofun, fun n' same => ?_⟩
      cases same
      exact isKey.1
  | _ => exact ⟨nofun, nofun⟩

/-- Keys are the same in a table if they are equal. -/
theorem ljObjEqual_iff_stored (settable : k.Settable) (settable' : k'.Settable) :
    ljObjEqual k k' = true ↔ k.stored = k'.stored := by
  have equal : ljObjEqual k.stored k'.stored = ljObjEqual k k' := by
    cases k with
    | num n =>
        cases k' with
        | num n' =>
            change Num.eq (if n.isMzero then 0 else n) (if n'.isMzero then 0 else n') = n.eq n'
            rw [num_eq_stored, num_eq_comm, num_eq_stored, num_eq_comm]
        | _ => simp [stored, ljObjEqual]
    | _ => cases k' <;> simp [stored, ljObjEqual]
  rw [← equal, ljObjEqual_iff settable.isKey settable'.isKey]

end TValue

/-! ## Lookups -/

namespace GCtab

variable [StrHash] {t : GCtab} {m : TValue → TValue} {k : TValue}

theorem findNode_value (wf : t.Wf) (holds : t.Holds m) (hashed : t.Hashed k) (search : TValue → Bool)
    (finds : ∀ k', k'.IsKey → (search k' = true ↔ k' = k)) (notNil : search .nil = false) :
    ∃ n : Option Nat, t.findNode search (t.hashkey k) = .ok n ∧
      (n.map fun n => (t.node n).val).getD .nil = m k := by
  rcases wf.findNode hashed.1 finds notNil with ⟨i, result, entry⟩ | ⟨result, absent⟩
  · exact ⟨_, result, (holds k hashed.1).1 _ entry⟩
  · refine ⟨_, result, ((holds k hashed.1).2 fun slot entry => ?_).symm⟩
    cases slot with
    | array i =>
        obtain ⟨inside, isIndex⟩ := entry
        have small := wf.index_small inside
        have notIn := hashed.2
        rw [isIndex, arrayKey_ofInt (by omega) small, Bool.eq_false_iff] at notIn
        exact notIn (inarray_iff.mpr ⟨by omega, by omega⟩)
    | node i => exact absent i entry.1

theorem ljTabGetint_value (wf : t.Wf) (holds : t.Holds m) {key : Int} (low : -2147483648 ≤ key)
    (high : key < 2147483648) :
    ∃ tv, t.ljTabGetint key = .ok tv ∧ tv.getD .nil = m (.num (.ofInt key)) := by
  have isKey : (TValue.num (.ofInt key)).IsKey := isKey_ofInt (by omega)
  unfold ljTabGetint
  split
  · next inside =>
      obtain ⟨positive, bound⟩ := inarray_iff.mp inside
      refine ⟨_, rfl, (holds _ isKey).1 (.array key.toNat) ⟨by omega, ?_⟩⟩
      rw [Int.toNat_of_nonneg positive]
  · next outside =>
      have hashed : t.Hashed (.num (.ofInt key)) :=
        ⟨isKey, (arrayKey_ofInt low high).trans (by simpa using outside)⟩
      obtain ⟨n, result, value⟩ := findNode_value wf holds hashed (isNumKey (.ofInt key))
        (fun k' isKey' => isNumKey_iff isKey' isKey) rfl
      refine ⟨_, ?_, value⟩
      change t.findNode _ (t.hashkey (.num (.ofInt key))) >>= _ = _
      rw [result]
      rfl

theorem ljTabGetstr_value (wf : t.Wf) (holds : t.Holds m) (s : GCstr) :
    ∃ tv, t.ljTabGetstr s = .ok tv ∧ tv.getD .nil = m (.str s) := by
  have hashed : t.Hashed (.str s) := ⟨trivial, rfl⟩
  obtain ⟨n, result, value⟩ := findNode_value wf holds hashed (· == .str s)
    (fun _ _ => beq_iff_eq) rfl
  refine ⟨_, ?_, value⟩
  change t.findNode _ (t.hashkey (.str s)) >>= _ = _
  rw [result]
  rfl

theorem genlookup_value (wf : t.Wf) (holds : t.Holds m) (hashed : t.Hashed k) :
    t.genlookup k = .ok (m k) := by
  have notNil : ljObjEqual .nil k = false := by
    cases k with
    | nil => exact hashed.1.elim
    | _ => rfl
  obtain ⟨n, result, value⟩ := findNode_value wf holds hashed (ljObjEqual · k)
    (fun k' isKey' => ljObjEqual_iff isKey' hashed.1) notNil
  rw [← value]
  change t.findNode _ (t.hashkey k) >>= _ = _
  rw [result]
  rfl

theorem ljTabGet_value (wf : t.Wf) (holds : t.Holds m) (settable : k.Settable) :
    t.ljTabGet k = .ok (m k.stored) := by
  cases k with
  | nil => exact absurd rfl settable.1
  | bool b => exact genlookup_value wf holds ⟨trivial, rfl⟩
  | gcref it ref => exact genlookup_value wf holds ⟨trivial, rfl⟩
  | str s =>
      obtain ⟨tv, result, value⟩ := ljTabGetstr_value wf holds s
      change t.ljTabGetstr s >>= _ = _
      rw [result]
      exact congrArg Except.ok value
  | num n =>
      change (if n.eq (.ofInt n.num2int) then t.ljTabGetint n.num2int >>= fun tv => pure (tv.getD .nil)
        else t.genlookup (.num n)) = _
      split
      · next equal =>
          have range := n.num2int_range
          obtain ⟨tv, result, value⟩ := ljTabGetint_value wf holds range.1 range.2
          rw [result, stored_of_eq equal]
          exact congrArg Except.ok value
      · next different =>
          have different : n.eq (.ofInt n.num2int) = false := by simpa using different
          have isKey := isKey_of_ne different (settable.2 n rfl)
          rw [isKey.stored]
          refine genlookup_value wf holds ⟨isKey, ?_⟩
          rw [arrayKey, different, Bool.false_and]

/-! ## Empty tables -/

omit [StrHash] in
theorem holds_empty (noValues : ∀ i, i < t.asize → t.array i = .nil) (noNodes : t.node = fun _ => {}) :
    t.Holds fun _ => .nil := by
  refine fun k isKey => ⟨fun slot entry => ?_, fun _ => rfl⟩
  cases slot with
  | array i => exact noValues i entry.1
  | node i =>
      obtain ⟨isKeyI, notNil⟩ := entry
      rw [noNodes] at isKeyI
      exact absurd isKeyI.symm notNil

theorem ljTabNew_empty {asize hbits : Nat} (new : ljTabNew asize hbits = .ok t) :
    t.Wf ∧ t.Holds fun _ => .nil := by
  unfold ljTabNew at new
  split at new
  · cases new
  · next fits =>
      have small : asize ≤ maxAsize := by omega
      dsimp only at new
      split at new
      · next some =>
          unfold newhpart at new
          split at new
          · cases new
          · have large : 2 ≤ 2 ^ hbits := Nat.le_self_pow some 2
            cases new
            refine ⟨wf_fresh small ?_, holds_empty (fun _ _ => rfl) rfl⟩
            rw [if_neg (by omega)]
            omega
      · cases new
        exact ⟨wf_fresh small rfl, holds_empty (fun _ _ => rfl) rfl⟩

theorem ljTabClear_empty (wf : t.Wf) : (ljTabClear t).Wf ∧ (ljTabClear t).Holds fun _ => .nil := by
  unfold ljTabClear
  dsimp only
  split
  · next some =>
      have nodes : (fun i => if i ≤ t.hmask then ({} : TabNode) else t.node i) = fun _ => {} := by
        funext i
        split
        · rfl
        · next high => exact wf.outside i (by omega)
      rw [nodes]
      exact ⟨wf_fresh wf.small (by rw [if_neg (by omega)]),
        holds_empty (fun i inside => if_pos inside) rfl⟩
  · next none =>
      have none : t.hmask = 0 := by omega
      obtain ⟨top, nodes⟩ := wf.shared none
      have nodes : t.node = fun _ => {} := funext nodes
      rw [nodes]
      exact ⟨wf_fresh wf.small (by rw [if_pos none, top]),
        holds_empty (fun i inside => if_pos inside) rfl⟩

end GCtab

/-! ## Calls -/

/-- A call of one of the functions that change a table, with the value stored after it. -/
inductive TabCall
  | set (key v : TValue)
  | setint (key : BitVec 32) (v : TValue)
  | setstr (key : GCstr) (v : TValue)
  | resize (asize hbits : Nat)
  | reasize (nasize : Nat)
  | clear

namespace TabCall

variable [StrHash]

def run (depth : Nat) (t : GCtab) : TabCall → Except TabError GCtab
  | set key v => do
      let (slot, t) ← t.ljTabSet depth key
      return t.store slot v
  | setint key v => do
      let (slot, t) ← t.ljTabSetint depth key.toInt
      return t.store slot v
  | setstr key v => do
      let (slot, t) ← t.ljTabSetstr depth key
      return t.store slot v
  | resize asize hbits => t.ljTabResize depth asize hbits
  | reasize nasize => t.ljTabReasize depth nasize
  | clear => .ok (GCtab.ljTabClear t)

/-- The only error of a call. -/
def error : TabCall → TabError
  | set .nil _ => .nilidx
  | set (.num n) _ => if n.isNan then .nanidx else .tabov
  | _ => .tabov

/-- What is stored under a key after a call, given what was stored there before. -/
def overlay (k : TValue) (last : TValue) : TabCall → TValue
  | set key v => if ljObjEqual key k then v else last
  | setint key v => if ljObjEqual (.num (.ofInt key.toInt)) k then v else last
  | setstr key v => if ljObjEqual (.str key) k then v else last
  | clear => .nil
  | _ => last

/-- Where a call makes the array smaller, the new hash part has a node for each value that
is cut off. -/
def LeavesRoom (t : GCtab) : TabCall → Prop
  | resize asize hbits => t.countvalues asize (t.asize - asize) ≤ GCtab.nodesOf hbits
  | reasize nasize =>
      t.countvalues ((nasize + 1) % 2 ^ 32) (t.asize - (nasize + 1) % 2 ^ 32) ≤
        if t.hmask = 0 then 0 else t.hmask + 1
  | _ => True

end TabCall

/-- A sequence of calls. -/
def runCalls [StrHash] (depth : Nat) (t : GCtab) (calls : List TabCall) : Except TabError GCtab :=
  calls.foldlM (TabCall.run depth) t

/-- All calls of a sequence leave room. -/
def LeaveRoom [StrHash] (depth : Nat) : GCtab → List TabCall → Prop
  | _, [] => True
  | t, call :: calls =>
      call.LeavesRoom t ∧ ∀ t', call.run depth t = .ok t' → LeaveRoom depth t' calls

/-- The value stored last under a key. -/
def lastStored (calls : List TabCall) (k : TValue) : TValue := calls.foldl (TabCall.overlay k) .nil

namespace GCtab

/-- Lookups give the values of the map. -/
def Looks [StrHash] (t : GCtab) (m : TValue → TValue) : Prop :=
  ∀ k : TValue, k.Settable →
    t.ljTabGet k = .ok (m k) ∧
      (∀ s, k = .str s → ∃ tv, t.ljTabGetstr s = .ok tv ∧ tv.getD .nil = m k) ∧
      ∀ key : BitVec 32, k = .num (.ofInt key.toInt) →
        ∃ tv, t.ljTabGetint key.toInt = .ok tv ∧ tv.getD .nil = m k

end GCtab

namespace TabCall

variable [StrHash] {t : GCtab} {m : TValue → TValue}

/-- A store after a setter changes the value of the key. -/
theorem store_holds {k : TValue} {v : TValue} {may : TabError → Prop}
    {r : Except TabError (TabSlot × GCtab)} (settable : k.Settable) (holds : t.Holds m)
    (adds : Foundation.Ends (fun r => GCtab.Adds t k.stored r.1 r.2) may r) :
    Foundation.Ends (fun t' => t'.Wf ∧ ∃ m', t'.Holds m' ∧ ∀ k' : TValue, k'.Settable →
      m' k'.stored = if ljObjEqual k k' then v else m k'.stored) may
      (r >>= fun r => pure (r.2.store r.1 v)) := by
  refine adds.bind fun r _ adds => ?_
  refine ⟨adds.keeps.wf.store adds.entry v, _, (adds.keeps.holds m holds).store adds.keeps.wf adds.entry v,
    fun k' settable' => ?_⟩
  rw [update_apply]
  have same := TValue.ljObjEqual_iff_stored settable settable'
  by_cases equal : ljObjEqual k k' = true
  · rw [if_pos equal, if_pos (same.mp equal).symm]
  · rw [if_neg equal, if_neg fun stored => equal (same.mpr stored.symm)]

/-- Neither nil nor NaN is stored under. -/
theorem run_unsettable {k : TValue} (unsettable : ¬k.Settable) (v : TValue) (depth : Nat) :
    (set k v).run depth t = .error (set k v).error := by
  cases k with
  | nil => rfl
  | num n =>
      have isNan : n.isNan = true := by
        by_contra notNan
        refine unsettable ⟨nofun, fun n' same => ?_⟩
        cases same
        simpa using notNan
      have different : n.eq (.ofInt n.num2int) = false := by simp [Num.eq, isNan]
      have noSlot : t.ljTabSet depth (.num n) = .error .nanidx := by
        change (if n.eq (.ofInt n.num2int) then _ else if n.isNan then Except.error TabError.nanidx else _) = _
        rw [different, isNan]
        rfl
      rw [run, noSlot, error, if_pos isNan]
      rfl
  | bool b => exact absurd ⟨by simp, by simp⟩ unsettable
  | str s => exact absurd ⟨by simp, by simp⟩ unsettable
  | gcref it ref => exact absurd ⟨by simp, by simp⟩ unsettable

/-- What a call does to a table that holds the values of a map. -/
theorem run_holds (depth : Nat) (call : TabCall) (wf : t.Wf) (holds : t.Holds m)
    (room : call.LeavesRoom t) :
    Foundation.Ends (fun t' => t'.Wf ∧ ∃ m', t'.Holds m' ∧ ∀ k : TValue, k.Settable →
      m' k.stored = call.overlay k (m k.stored)) (· = call.error) (call.run (depth + 2) t) := by
  have spec : GCtab.KeepsNew (· = .tabov) (GCtab.newkey (depth + 2)) := GCtab.newkey_ends depth rfl
  cases call with
  | set key v =>
      by_cases settable : key.Settable
      · have isTabov : (set key v).error = .tabov := by
          cases key with
          | nil => exact absurd rfl settable.1
          | num n => exact if_neg (by simp [settable.2 n rfl])
          | _ => rfl
        rw [isTabov]
        exact store_holds settable holds (GCtab.set_adds spec wf settable.isKey)
      · rw [run_unsettable settable]
        exact rfl
  | setint key v =>
      have low := BitVec.le_toInt key
      have high := BitVec.toInt_lt (x := key)
      have isKey : (TValue.num (.ofInt key.toInt)).IsKey := isKey_ofInt (by omega)
      have settable : (TValue.num (.ofInt key.toInt)).Settable := isKey.settable
      have adds : Foundation.Ends (fun r => GCtab.Adds t (TValue.num (.ofInt key.toInt)).stored r.1 r.2) (· = .tabov)
          (t.ljTabSetint (depth + 2) key.toInt) := by
        rw [isKey.stored]
        exact GCtab.setint_ends _ wf (by omega) (by omega) (fun _ entry => ⟨.refl wf, entry⟩)
          (spec t _ wf)
      exact store_holds settable holds adds
  | setstr key v =>
      have settable : (TValue.str key).Settable := TValue.IsKey.settable trivial
      have adds : Foundation.Ends (fun r => GCtab.Adds t (TValue.str key).stored r.1 r.2) (· = .tabov)
          (t.ljTabSetstr (depth + 2) key) :=
        GCtab.setstr_ends _ wf (fun _ entry => ⟨.refl wf, entry⟩) (spec t _ wf)
      exact store_holds settable holds adds
  | resize asize hbits =>
      exact (GCtab.resize_ends_ok depth wf room).mono
        (fun t' _ keeps => ⟨keeps.wf, m, keeps.holds m holds, fun _ _ => rfl⟩) fun _ isTabov => isTabov
  | reasize nasize =>
      have room : t.countvalues ((nasize + 1) % 2 ^ 32) (t.asize - (nasize + 1) % 2 ^ 32) ≤
          GCtab.nodesOf (if t.hmask > 0 then GCtab.ljFls t.hmask + 1 else 0) := by
        refine room.trans ?_
        split
        · exact Nat.zero_le _
        · next some =>
            have below := Nat.lt_log2_self (n := t.hmask)
            rw [if_pos (by omega), GCtab.nodesOf, if_neg (by omega)]
            exact below
      exact (GCtab.resize_ends_ok depth wf room).mono
        (fun t' _ keeps => ⟨keeps.wf, m, keeps.holds m holds, fun _ _ => rfl⟩) fun _ isTabov => isTabov
  | clear =>
      obtain ⟨wf, empty⟩ := GCtab.ljTabClear_empty wf
      exact ⟨wf, _, empty, fun _ _ => rfl⟩

end TabCall

namespace GCtab

variable [StrHash] {t : GCtab} {m : TValue → TValue}

theorem looks_of_holds {m' : TValue → TValue} (wf : t.Wf) (holds : t.Holds m')
    (same : ∀ k : TValue, k.Settable → m' k.stored = m k) : t.Looks m := by
  intro k settable
  rw [← same k settable]
  refine ⟨ljTabGet_value wf holds settable, fun s isStr => ?_, fun key isInt => ?_⟩
  · subst isStr
    exact ljTabGetstr_value wf holds s
  · subst isInt
    have low := BitVec.le_toInt key
    have high := BitVec.toInt_lt (x := key)
    rw [(isKey_ofInt (by omega)).stored]
    exact ljTabGetint_value wf holds (by omega) (by omega)

/-- What a sequence of calls does to a table that holds the values of a map. -/
theorem runCalls_looks (depth : Nat) (calls : List TabCall) (wf : t.Wf) (holds : t.Holds m)
    (room : LeaveRoom (depth + 2) t calls) :
    Foundation.Ends (fun t' => t'.Looks fun k => calls.foldl (TabCall.overlay k) (m k.stored))
      (fun e => ∃ call ∈ calls, e = call.error) (runCalls (depth + 2) t calls) := by
  induction calls generalizing t m with
  | nil => exact looks_of_holds wf holds fun _ _ => rfl
  | cons call calls induction =>
      obtain ⟨roomCall, roomCalls⟩ := room
      rw [runCalls, List.foldlM_cons]
      have first := TabCall.run_holds depth call wf holds roomCall
      refine (first.mono (fun _ _ after => after)
        fun e isError => ⟨call, List.mem_cons_self, isError⟩).bind fun t' run ⟨wf', m', holds', same⟩ => ?_
      refine (induction wf' holds' (roomCalls t' run)).mono (fun u _ looks k settable => ?_)
        fun e ⟨call', member, isError⟩ => ⟨call', List.mem_cons_of_mem _ member, isError⟩
      have found := looks k settable
      dsimp only at found
      rw [same k settable] at found
      exact found

end GCtab

/-- From a new table on, a lookup gives what was stored last, as long as arrays that are
made smaller leave room for what is cut off them. A call fails only where a key is nil or
NaN or the table overflows. -/
theorem table_is_map [StrHash] (depth : Nat) {asize hbits : Nat} {t : GCtab} (calls : List TabCall)
    (new : GCtab.ljTabNew asize hbits = .ok t) (room : LeaveRoom (depth + 2) t calls) :
    Foundation.Ends (fun t' => t'.Looks (lastStored calls)) (fun e => ∃ call ∈ calls, e = call.error)
      (runCalls (depth + 2) t calls) := by
  obtain ⟨wf, holds⟩ := GCtab.ljTabNew_empty new
  exact GCtab.runCalls_looks depth calls wf holds room

/-- An array that is cut to one value moves the other one to a node. -/
theorem table_is_map_cut :
    ∃ t calls, GCtab.ljTabNew 3 0 = .ok t ∧
      calls = [.setint 2 (.bool true), .resize 1 1, .set (.num 0x8000000000000000) (.bool false)] ∧
      Foundation.Ends (fun t' => @GCtab.Looks ⟨fun _ => 0⟩ t' (lastStored calls))
        (fun e => ∃ call ∈ calls, e = call.error) (@runCalls ⟨fun _ => 0⟩ 2 t calls) := by
  let _ : StrHash := ⟨fun _ => 0⟩
  have new : GCtab.ljTabNew 3 0 = .ok (GCtab.mk 3 (fun _ => .nil) 0 true 0 (fun _ => {}) 0) := rfl
  have room : LeaveRoom 2 (GCtab.mk 3 (fun _ => .nil) 0 true 0 (fun _ => {}) 0)
      [.setint 2 (.bool true), .resize 1 1, .set (.num 0x8000000000000000) (.bool false)] := by
    refine ⟨trivial, fun t' run => ⟨?_, fun _ _ => ⟨trivial, fun _ _ => trivial⟩⟩⟩
    have stored : TabCall.run 2 (GCtab.mk 3 (fun _ => .nil) 0 true 0 (fun _ => {}) 0)
        (.setint 2 (.bool true)) =
          .ok (GCtab.mk 3 (update (fun _ => .nil) 2 (.bool true)) 0 true 0 (fun _ => {}) 0) := rfl
    cases stored.symm.trans run
    change List.length _ ≤ 2 ^ 1
    exact List.length_filter_le ..
  exact ⟨_, _, new, rfl, table_is_map 0 _ new room⟩

/-- Values that are cut off and have no node make the array grow again, and the next value
is read from the array there was. -/
theorem cut_without_room :
    ∃ t, GCtab.ljTabNew 17 0 = .ok t ∧ ∀ (hash : StrHash) (depth : Nat),
      @runCalls hash (depth + 2) t [.setint 1 (.bool true), .reasize 0] = .error .staleArray :=
  ⟨_, rfl, fun _ _ => rfl⟩

end TvmJit.Tab
