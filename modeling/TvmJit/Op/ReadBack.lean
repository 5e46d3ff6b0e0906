import TvmJit.Op.Parsed

/-! Which op trees `tvm.parse` reads back from the text `tostring` writes for them. -/

namespace TvmJit

open Lexer

/-! ## The same tree -/

mutual
/-- The same expression. The entries of tables may be in another order: a key tells
where each belongs. -/
def OpExpr.Same : OpExpr → OpExpr → Prop
  | .name s, e => e = .name s
  | .number n, e => e = .number n
  | .str s, e => e = .str s
  | .op o, e => ∃ o' l, e = .op o' ∧ List.Perm l o' ∧ sameEntries o l

def OpEntry.Same : OpEntry → OpEntry → Prop
  | .item k v, e => ∃ v', e = .item k v' ∧ v.Same v'
  | .pair k v, e => ∃ k' v', e = .pair k' v' ∧ k.Same k' ∧ v.Same v'

def sameEntries : List OpEntry → List OpEntry → Prop
  | [], l => l = []
  | e :: rest, l => ∃ e' rest', l = e' :: rest' ∧ e.Same e' ∧ sameEntries rest rest'
end

theorem sameEntries_iff (o l : List OpEntry) :
    sameEntries o l ↔ List.Forall₂ OpEntry.Same o l := by
  induction o generalizing l with
  | nil => rw [sameEntries, List.forall₂_nil_left_iff]
  | cons e o induction =>
      rw [sameEntries, List.forall₂_cons_left_iff]
      constructor
      · rintro ⟨e', rest', rfl, same, rest⟩
        exact ⟨e', rest', same, (induction rest').mp rest, rfl⟩
      · rintro ⟨e', rest', same, rest, rfl⟩
        exact ⟨e', rest', rfl, same, (induction rest').mpr rest⟩

/-! ## What prints -/

/-- What the printer relies on in `tostring` of a number, which prints 14 digits, and in
`tonumber`. -/
structure PrintsNumbers [Tonumber] [Tostring] : Prop where
  /-- A finite number prints as a numeral. -/
  numeral : ∀ n : Num, n.expBits ≠ 2047 → P.wholeNumeral (Tostring.tostring n) = true
  /-- An integer prints with all its digits. -/
  integer : ∀ k : Int, -2147483648 ≤ k → k < 2147483648 →
    Tonumber.tonumber (Tostring.tostring (Num.ofInt k)) = some (Num.ofInt k)
  zero : Tonumber.tonumber (.ofString "0") = some 0

/-- What the printer relies on in tables. -/
structure LuaTable.Lawful [LuaTable] : Prop where
  /-- `#` is a boundary, as `lj_tab_len` documents. -/
  boundary : ∀ o : Op, (LuaTable.len o = 0 ∨ (o.get (LuaTable.len o)).isSome = true) ∧
    o.get (LuaTable.len o + 1) = none
  /-- `pairs` visits each entry once. -/
  visits : ∀ o : Op, (LuaTable.order o).Perm (List.range o.length)

/-- The entries written with their key, in the order they are written. -/
def Op.printedPairs [LuaTable] (o : Op) : List OpEntry :=
  ((LuaTable.order o).filterMap (o[·]?)).filter (·.isPair (LuaTable.len o))

/-- The layout of a table is what its text shows. -/
structure Op.Plain [LuaTable] (o : Op) : Prop where
  /-- There is an item at each place the length covers, -/
  items : ∀ i : Int, 1 ≤ i → i ≤ LuaTable.len o → (o.get i).isSome = true
  /-- no other number is passed over for one of them, -/
  numbers : ∀ n v, .pair (.number n) v ∈ o →
    (OpEntry.pair (.number n) v).isPair (LuaTable.len o) = true
  /-- and no key follows that hides the method storing it. -/
  method : ∀ front v back,
    o.printedPairs = front ++ .pair (.name (.ofString "addkv")) v :: back → back = []

section

variable [Tonumber] [Tostring] [LuaTable]

mutual
/-- The text of the expression shows it whole. -/
def OpExpr.Plain : OpExpr → Prop
  | .name s => P.plainName s = true
  | .number n => n.expBits ≠ 2047 ∧ Tonumber.tonumber (Tostring.tostring n) = some n
  | .str s => ∃ t, tvmQuote s = .ok t
  | .op o => Op.Plain o ∧ allPlain o

def OpEntry.Plain : OpEntry → Prop
  | .item _ v => v.Plain
  | .pair k v => k.Plain ∧ v.Plain

def allPlain : List OpEntry → Prop
  | [] => True
  | e :: rest => e.Plain ∧ allPlain rest
end

/-- The text is written, and read as the same expression. -/
def OpExpr.Prints (e : OpExpr) : Prop :=
  ∃ text e', e.tostring = .ok text ∧ e.Same e' ∧ P.ReadsBack text e'

def OpEntry.Prints : OpEntry → Prop
  | .item _ v => v.Prints
  | .pair k v => k.Prints ∧ v.Prints

end

/-! ## Layout -/

theorem rows_eq [Tostring] [LuaTable] (o : Op) : rows o = o.map OpEntry.row := by
  induction o with
  | nil => rfl
  | cons e o induction => rw [rows, induction, List.map_cons]

theorem row_entry [Tostring] [LuaTable] (e : OpEntry) : e.row.entry = e := by
  cases e <;> rfl

theorem find_row [Tostring] [LuaTable] (o : Op) (k : Int) :
    (rows o).find? (·.entry.isItem k) = (o.get k).map fun v => OpEntry.row (.item k v) := by
  induction o with
  | nil => rfl
  | cons e o induction =>
      rw [rows, List.find?_cons, row_entry, Op.get_cons]
      cases e with
      | item k' v =>
          dsimp only [OpEntry.isItem]
          by_cases same : k' = k
          · subst same
            rw [beq_self_eq_true, if_pos rfl]
            rfl
          · rw [if_neg same, beq_false_of_ne same]
            exact induction
      | pair k' v => exact induction

/-- Where the items go from 1 on, the length is their number. -/
theorem len_of_items [LuaTable] (tables : LuaTable.Lawful) {o : Op} {n : Nat}
    (items : ∀ i : Int, 1 ≤ i → ((o.get i).isSome = true ↔ i ≤ n)) : LuaTable.len o = n := by
  obtain ⟨present, absent⟩ := tables.boundary o
  have notLess : ¬LuaTable.len o < n := by
    intro less
    have isSome := (items (LuaTable.len o + 1) (by omega)).mpr (by omega)
    rw [absent] at isSome
    cases isSome
  have notMore : ¬n < LuaTable.len o := by
    intro more
    have isSome := present.resolve_left (by omega)
    have within := (items (LuaTable.len o) (by omega)).mp isSome
    omega
  omega

theorem rawequal_of_same {a b a' b' : OpExpr} (sameA : a.Same a') (sameB : b.Same b')
    (different : a.rawequal b = false) : a'.rawequal b' = false := by
  cases a with
  | name s =>
      obtain rfl := sameA
      cases b with
      | name s' =>
          obtain rfl := sameB
          exact different
      | number n => obtain rfl := sameB; rfl
      | str s' => obtain rfl := sameB; rfl
      | op o => obtain ⟨o', l, rfl, -⟩ := sameB; rfl
  | number n =>
      obtain rfl := sameA
      cases b with
      | name s => obtain rfl := sameB; rfl
      | number n' =>
          obtain rfl := sameB
          exact different
      | str s => obtain rfl := sameB; rfl
      | op o => obtain ⟨o', l, rfl, -⟩ := sameB; rfl
  | str s => obtain rfl := sameA; rfl
  | op o => obtain ⟨o', l, rfl, -⟩ := sameA; rfl

theorem sameKey_of_same {a b a' b' : OpEntry} (sameA : a.Same a') (sameB : b.Same b')
    (different : a.sameKey b = false) : a'.sameKey b' = false := by
  cases a with
  | item k v =>
      obtain ⟨v', rfl, -⟩ := sameA
      cases b with
      | item k₂ v₂ =>
          obtain ⟨v₂', rfl, -⟩ := sameB
          exact different
      | pair k₂ v₂ =>
          obtain ⟨k₂', v₂', rfl, -⟩ := sameB
          rfl
  | pair k v =>
      obtain ⟨k', v', rfl, sameK, -⟩ := sameA
      cases b with
      | item k₂ v₂ =>
          obtain ⟨v₂', rfl, -⟩ := sameB
          rfl
      | pair k₂ v₂ =>
          obtain ⟨k₂', v₂', rfl, sameK₂, -⟩ := sameB
          exact rawequal_of_same sameK sameK₂ different

/-- An integer key goes back to its entry. -/
theorem setIndex_ofInt (o : Op) {k : Int} (low : -2147483648 ≤ k) (high : k < 2147483648)
    (v : OpExpr) : o.setIndex (.number (Num.ofInt k)) v = .ok (o.set (.item k v)) := by
  have notNan : (Num.ofInt k).isNan = false := Num.isNan_ofInt (by omega)
  rw [Op.setIndex, Num.num2int_ofInt low high, Num.eq_self_of_not_nan notNan, if_pos rfl]

/-! ## Entries -/

section

variable [Tonumber] [Tostring] [LuaTable]

theorem readsBack_number (numbers : PrintsNumbers) {n : Num} (finite : n.expBits ≠ 2047)
    (value : Tonumber.tonumber (Tostring.tostring n) = some n) :
    P.ReadsBack (Tostring.tostring n) (.number n) := by
  rintro tail ⟨d, more, rfl, delimiter⟩
  exact P.readsExpr_token (P.reads_number (numbers.numeral n finite) value delimiter)
    (.inr (.inl ⟨n, rfl, rfl⟩))

theorem readsBack_integer (numbers : PrintsNumbers) {k : Int} (low : -2147483648 ≤ k)
    (high : k < 2147483648) :
    P.ReadsBack (Tostring.tostring (Num.ofInt k)) (.number (Num.ofInt k)) :=
  readsBack_number numbers (Num.finite_ofInt (by omega)) (numbers.integer k low high)

/-- The text of an entry written with its key. -/
def OpEntry.pairText (e : OpEntry) : Except LibError GCstr := do
  let k ← e.row.key
  let v ← e.row.value
  return k ++ .ofString ": " ++ v

/-- An entry written with its key is read for a call that stores it. -/
theorem pairText_reads (numbers : PrintsNumbers) {e : OpEntry} (stored : e.Stored)
    (prints : e.Prints) :
    ∃ text k v e', e.pairText = .ok text ∧ P.ReadsAct text (.addkv k v) ∧ e.Same e' ∧
      ∀ t : Op, t.setIndex k v = .ok (t.set e') := by
  cases e with
  | item k v =>
      obtain ⟨text, v', written, same, reads⟩ := prints
      refine ⟨_, .number (Num.ofInt k), v', .item k v', ?_, ⟨_, text, rfl,
        readsBack_integer numbers stored.1 stored.2, reads⟩, ⟨v', rfl, same⟩,
        fun t => setIndex_ofInt t stored.1 stored.2 v'⟩
      rw [OpEntry.pairText, OpEntry.row]
      dsimp only
      rw [written]
      rfl
  | pair k v =>
      obtain ⟨⟨keyText, k', writtenKey, sameKey, readsKey⟩, text, v', written, same, reads⟩ := prints
      refine ⟨_, k', v', .pair k' v', ?_, ⟨keyText, text, rfl, readsKey, reads⟩,
        ⟨k', v', rfl, sameKey, same⟩, fun t => ?_⟩
      · rw [OpEntry.pairText, OpEntry.row]
        dsimp only
        rw [writtenKey, written]
        rfl
      · cases k with
        | name s => obtain rfl := sameKey; rfl
        | number n =>
            obtain rfl := sameKey
            rw [Op.setIndex, stored.2, stored.1]
            rfl
        | str s => obtain rfl := sameKey; rfl
        | op o => obtain ⟨o', l, rfl, -⟩ := sameKey; rfl

/-! ## The parts of a text -/

/-- The text of the item `k`. -/
def itemText (o : Op) (k : Int) : Except LibError GCstr :=
  match (rows o).find? (·.entry.isItem k) with
  | some row => row.value
  | none => .ok (.ofString "nil")

omit [Tonumber] in
theorem itemText_eq {o : Op} {k : Int} {v : OpExpr} (isItem : o.get k = some v) :
    itemText o k = v.tostring := by
  rw [itemText, find_row, isItem]
  rfl

/-- The text of the item 0, which has its key written. -/
def zeroText (o : Op) : Except LibError (List GCstr) :=
  if (o.get 0).isSome then do
    let v ← itemText o 0
    return [.ofString "0: " ++ v]
  else return []

def Op.zeroEntries (o : Op) : List OpEntry := (o.get 0).toList.map (.item 0)

/-- Entries are written and read for calls that add the same entries to `base`. -/
structure EntriesWrite (base : Op) (entries : List OpEntry) (texts : List GCstr) (entries' : Op) : Prop where
  ofActs : ∃ acts, List.Forall₂ P.ReadsAct texts acts ∧
    acts.foldlM OpAct.run base = .ok (base ++ entries')
  same : List.Forall₂ OpEntry.Same entries entries'

theorem zero_writes (numbers : PrintsNumbers) {o : Op} (wf : o.Wf) (prints : ∀ e ∈ o, e.Prints) :
    ∃ texts entries', zeroText o = .ok texts ∧ EntriesWrite [] o.zeroEntries texts entries' := by
  cases isZero : o.get 0 with
  | none =>
      refine ⟨[], [], ?_, ⟨[], .nil, rfl⟩, ?_⟩
      · rw [zeroText, isZero]
        rfl
      · rw [Op.zeroEntries, isZero]
        exact .nil
  | some v =>
      have member := (Op.get_eq_some_iff wf.distinct).mp isZero
      obtain ⟨text, v', written, same, reads⟩ := prints _ member
      have readsZero : P.ReadsBack (.ofString "0") (.number 0) := by
        rintro tail ⟨d, more, rfl, delimiter⟩
        exact P.readsExpr_token (P.reads_number (by decide +kernel) numbers.zero delimiter)
          (.inr (.inl ⟨0, rfl, rfl⟩))
      refine ⟨[.ofString "0: " ++ text], [.item 0 v'], ?_, ⟨[.addkv (.number 0) v'], ?_, ?_⟩, ?_⟩
      · rw [zeroText, isZero, itemText_eq isZero, written]
        rfl
      · refine .cons ⟨.ofString "0", text, ?_, readsZero, reads⟩ .nil
        have separate : GCstr.ofString "0: " = .ofString "0" ++ .ofString ": " := by decide +kernel
        rw [separate]
      · have stored := setIndex_ofInt [] (k := 0) (by decide) (by decide) v'
        change (Op.addkv [] (.number 0) v' >>= pure) = _
        rw [bind_pure]
        exact stored
      · rw [Op.zeroEntries, isZero]
        exact .cons ⟨v', rfl, same⟩ .nil

/-- The items up to `m`. -/
structure ItemsWrite (o base : Op) (m : Nat) (entries : List OpEntry) (texts : List GCstr)
    (entries' : Op) : Prop extends EntriesWrite base entries texts entries' where
  mem : ∀ e, e ∈ entries ↔ e ∈ o ∧ ∃ (i : Int) (v : OpExpr), 1 ≤ i ∧ i ≤ m ∧ e = .item i v
  nodup : entries.Nodup
  items : ∀ e ∈ entries', ∃ (i : Int) (v : OpExpr), 1 ≤ i ∧ i ≤ m ∧ e = .item i v
  present : ∀ i : Int, 1 ≤ i → i ≤ m → ∃ v, .item i v ∈ entries'

theorem items_write (tables : LuaTable.Lawful) {o base : Op} (wf : o.Wf) (plain : o.Plain)
    (prints : ∀ e ∈ o, e.Prints) (zeros : ∀ e ∈ base, ∃ v, e = .item 0 v) {m : Nat}
    (within : m ≤ LuaTable.len o) :
    ∃ entries texts entries', (List.range m).mapM (fun i : Nat => itemText o (i + 1)) = .ok texts ∧
      ItemsWrite o base m entries texts entries' := by
  induction m with
  | zero =>
      refine ⟨[], [], [], rfl, ⟨⟨[], .nil, by rw [List.append_nil]; rfl⟩, .nil⟩, ?_, List.nodup_nil,
        ?_, ?_⟩
      · intro e
        constructor
        · exact (nomatch ·)
        · rintro ⟨-, i, v, low, high, -⟩
          omega
      · exact fun e member => nomatch member
      · intro i low high
        omega
  | succ m induction =>
      obtain ⟨entries, texts, entries', written, write⟩ := induction (by omega)
      obtain ⟨v, isItem⟩ := Option.isSome_iff_exists.mp (plain.items (m + 1) (by omega) (by omega))
      have member := (Op.get_eq_some_iff wf.distinct).mp isItem
      have stored : -2147483648 ≤ (m + 1 : Int) ∧ (m + 1 : Int) < 2147483648 := wf.stored _ member
      obtain ⟨text, v', writtenItem, same, reads⟩ := prints _ member
      obtain ⟨acts, readsActs, run⟩ := write.ofActs
      -- The table has the items up to `m` when the next is pushed.
      have length : LuaTable.len (base ++ entries') = m := by
        apply len_of_items tables
        intro i low
        rw [Op.get_isSome_iff]
        constructor
        · rintro ⟨v, member⟩
          rcases List.mem_append.mp member with old | new
          · obtain ⟨v, same⟩ := zeros _ old
            rw [OpEntry.item.injEq] at same
            omega
          · obtain ⟨i', v, -, high, same⟩ := write.items _ new
            rw [OpEntry.item.injEq] at same
            omega
        · intro high
          obtain ⟨v, member⟩ := write.present i low high
          exact ⟨v, List.mem_append_right base member⟩
      have keys : ∀ e ∈ base ++ entries', ∃ (i : Int) (v : OpExpr), i ≤ m ∧ e = .item i v := by
        intro e member
        rcases List.mem_append.mp member with old | new
        · obtain ⟨v, same⟩ := zeros e old
          exact ⟨0, v, by omega, same⟩
        · obtain ⟨i, v, -, high, same⟩ := write.items e new
          exact ⟨i, v, high, same⟩
      have pushed : Op.push (base ++ entries') v' = .ok (base ++ (entries' ++ [.item (m + 1) v'])) := by
        have noMethod : Op.field (base ++ entries') (.ofString "push") = none := by
          rw [Op.field_eq_none_iff]
          intro v member
          obtain ⟨i, v, -, same⟩ := keys _ member
          cases same
        have new : ∀ e ∈ base ++ entries', (OpEntry.item (m + 1) v').sameKey e = false := by
          intro e member
          obtain ⟨i, v, high, rfl⟩ := keys e member
          exact beq_false_of_ne (by omega)
        rw [Op.push, Op.callMethod, noMethod, length]
        dsimp only
        rw [setIndex_ofInt _ stored.1 stored.2, Op.set_of_new new, List.append_assoc]
      have readsItem : P.ReadsAct text (.push v') := reads
      have sameItem : (OpEntry.item (m + 1) v).Same (.item (m + 1) v') := ⟨v', rfl, same⟩
      refine ⟨entries ++ [.item (m + 1) v], texts ++ [text], entries' ++ [.item (m + 1) v'], ?_,
        ⟨⟨acts ++ [.push v'], List.rel_append readsActs (.cons readsItem .nil), ?_⟩,
          List.rel_append write.same (.cons sameItem .nil)⟩, ?_, ?_, ?_, ?_⟩
      · rw [List.range_succ, List.mapM_append, written]
        change ((do let r ← itemText o (m + 1); return [r]) >>= fun r => pure (texts ++ r)) = _
        rw [itemText_eq isItem, writtenItem]
        rfl
      · rw [List.foldlM_append, run]
        change (Op.push (base ++ entries') v' >>= pure) = _
        rw [bind_pure, pushed]
      · intro e
        rw [List.mem_append, write.mem, List.mem_singleton]
        constructor
        · rintro (⟨member, i, v, low, high, same⟩ | rfl)
          · exact ⟨member, i, v, low, by omega, same⟩
          · exact ⟨member, m + 1, v, by omega, by omega, rfl⟩
        · rintro ⟨memberE, i, v₂, low, high, rfl⟩
          by_cases last : i = m + 1
          · subst last
            have same := (Op.get_eq_some_iff wf.distinct).mpr memberE
            rw [isItem] at same
            rw [Option.some.inj same]
            exact .inr rfl
          · exact .inl ⟨memberE, i, v₂, low, by omega, rfl⟩
      · apply List.nodup_append.mpr ⟨write.nodup, List.nodup_singleton _, ?_⟩
        rintro e memberE e' memberE' rfl
        obtain ⟨-, i, v₂, -, high, same⟩ := (write.mem e).mp memberE
        rw [List.mem_singleton.mp memberE', OpEntry.item.injEq] at same
        omega
      · intro e memberE
        rcases List.mem_append.mp memberE with old | new
        · obtain ⟨i, v, low, high, same⟩ := write.items e old
          exact ⟨i, v, low, by omega, same⟩
        · exact ⟨m + 1, v', by omega, by omega, List.mem_singleton.mp new⟩
      · intro i low high
        by_cases last : i = m + 1
        · exact ⟨v', List.mem_append_right _ (by rw [last]; exact List.mem_singleton_self _)⟩
        · obtain ⟨v, memberV⟩ := write.present i low (by omega)
          exact ⟨v, List.mem_append_left _ memberV⟩

omit [Tonumber] [Tostring] [LuaTable] in
theorem forall₂_mem_right {α β : Type} {R : α → β → Prop} {l : List α} {l' : List β}
    (related : List.Forall₂ R l l') {b : β} (member : b ∈ l') : ∃ a ∈ l, R a b := by
  induction related with
  | nil => cases member
  | @cons a b' l l' first rest induction =>
      rcases List.mem_cons.mp member with rfl | later
      · exact ⟨a, List.mem_cons_self, first⟩
      · obtain ⟨a', memberA, related⟩ := induction later
        exact ⟨a', List.mem_cons_of_mem a memberA, related⟩

omit [Tonumber] [Tostring] [LuaTable] in
theorem isField_of_same {e : OpEntry} {s : GCstr} {v : OpExpr}
    (same : e.Same (.pair (.name s) v)) : ∃ v₀, e = .pair (.name s) v₀ := by
  cases e with
  | item k v₀ =>
      obtain ⟨v', equal, -⟩ := same
      cases equal
  | pair k v₀ =>
      obtain ⟨k', v', equal, sameK, -⟩ := same
      cases equal
      cases k with
      | name s' =>
          cases sameK
          exact ⟨v₀, rfl⟩
      | number n => cases sameK
      | str s' => cases sameK
      | op o =>
          obtain ⟨o', l, equal, -⟩ := sameK
          cases equal

theorem pairs_write (numbers : PrintsNumbers) {o base entries : Op} (wf : o.Wf) (plain : o.Plain)
    (prints : ∀ e ∈ o, e.Prints) (same : List.Forall₂ OpEntry.Same entries base)
    (items : ∀ e ∈ base, ∃ i v, e = .item i v) {front : List OpEntry}
    (isFront : front <+: o.printedPairs) (members : ∀ e ∈ o.printedPairs, e ∈ o)
    (distinct : (entries ++ o.printedPairs).Pairwise fun e e' => e.sameKey e' = false) :
    ∃ texts entries', front.mapM OpEntry.pairText = .ok texts ∧
      EntriesWrite base front texts entries' := by
  induction front using List.reverseRecOn with
  | nil => exact ⟨[], [], rfl, ⟨[], .nil, by rw [List.append_nil]; rfl⟩, .nil⟩
  | append_singleton front e induction =>
      obtain ⟨back, shape⟩ := isFront
      have isFront : front <+: o.printedPairs := ⟨e :: back, by rw [← shape]; simp⟩
      obtain ⟨texts, entries', written, write⟩ := induction isFront
      have memberE : e ∈ o := members e (by rw [← shape]; simp)
      obtain ⟨acts, readsActs, run⟩ := write.ofActs
      obtain ⟨text, k, v, e', writtenE, readsE, sameE, stores⟩ :=
        pairText_reads numbers (wf.stored e memberE) (prints e memberE)
      have new : ∀ x ∈ base ++ entries', e'.sameKey x = false := by
        intro x memberX
        obtain ⟨y, memberY, sameY⟩ := forall₂_mem_right (List.rel_append same write.same) memberX
        have apart : entries ++ o.printedPairs = entries ++ front ++ e :: back := by
          rw [← shape]
          simp
        rw [apart] at distinct
        rw [OpEntry.sameKey_symm]
        exact sameKey_of_same sameY sameE
          ((List.pairwise_append.mp distinct).2.2 y memberY e List.mem_cons_self)
      have noMethod : Op.field (base ++ entries') (.ofString "addkv") = none := by
        rw [Op.field_eq_none_iff]
        intro v' member
        rcases List.mem_append.mp member with old | earlier
        · obtain ⟨i, v, same⟩ := items _ old
          cases same
        · obtain ⟨y, memberY, sameY⟩ := forall₂_mem_right write.same earlier
          obtain ⟨v₀, rfl⟩ := isField_of_same sameY
          obtain ⟨front₁, front₂, split⟩ := List.append_of_mem memberY
          have last := plain.method front₁ v₀ (front₂ ++ e :: back) (by rw [← shape, split]; simp)
          simp at last
      have added : Op.addkv (base ++ entries') k v = .ok (base ++ (entries' ++ [e'])) := by
        rw [Op.addkv, Op.callMethod, noMethod]
        dsimp only
        rw [stores, Op.set_of_new new, List.append_assoc]
      refine ⟨texts ++ [text], entries' ++ [e'], ?_, ⟨acts ++ [.addkv k v],
        List.rel_append readsActs (.cons readsE .nil), ?_⟩,
        List.rel_append write.same (.cons sameE .nil)⟩
      · rw [List.mapM_append, written]
        change ((do let r ← e.pairText; return [r]) >>= fun r => pure (texts ++ r)) = _
        rw [writtenE]
        rfl
      · rw [List.foldlM_append, run]
        change (Op.addkv (base ++ entries') k v >>= pure) = _
        rw [bind_pure, added]

/-! ## All entries -/

omit [Tonumber] [Tostring] in
theorem printedPairs_perm (tables : LuaTable.Lawful) (o : Op) :
    o.printedPairs.Perm (o.filter (·.isPair (LuaTable.len o))) := by
  have inOrder (o : Op) : (List.range o.length).filterMap (o[·]?) = o := by
    induction o with
    | nil => rfl
    | cons e o induction =>
        rw [List.length_cons, List.range_succ_eq_map, List.filterMap_cons, List.filterMap_map]
        exact congrArg (e :: ·) induction
  have visited : ((LuaTable.order o).filterMap (o[·]?)).Perm o := by
    have perm := (tables.visits o).filterMap (o[·]?)
    rwa [inOrder] at perm
  exact visited.filter _

omit [Tonumber] [Tostring] in
/-- The entries that are written are those of the table. -/
theorem written_perm (tables : LuaTable.Lawful) {o : Op} (wf : o.Wf) (plain : o.Plain)
    {items : List OpEntry} (nodup : items.Nodup)
    (mem : ∀ e, e ∈ items ↔ e ∈ o ∧
      ∃ (i : Int) (v : OpExpr), 1 ≤ i ∧ i ≤ LuaTable.len o ∧ e = .item i v) :
    (o.zeroEntries ++ items ++ o.printedPairs).Perm o := by
  have memZero (e : OpEntry) : e ∈ o.zeroEntries ↔ e ∈ o ∧ ∃ v, e = .item 0 v := by
    rw [Op.zeroEntries, List.mem_map]
    constructor
    · rintro ⟨v, isZero, rfl⟩
      exact ⟨(Op.get_eq_some_iff wf.distinct).mp (Option.mem_toList.mp isZero), v, rfl⟩
    · rintro ⟨member, v, rfl⟩
      exact ⟨v, Option.mem_toList.mpr ((Op.get_eq_some_iff wf.distinct).mpr member), rfl⟩
  have isItem (e : OpEntry) (member : e ∈ o) (notPair : e.isPair (LuaTable.len o) = false) :
      ∃ (i : Int) (v : OpExpr), 0 ≤ i ∧ i ≤ LuaTable.len o ∧ e = .item i v := by
    cases e with
    | item k v =>
        simp only [OpEntry.isPair, Bool.or_eq_false_iff, decide_eq_false_iff_not] at notPair
        exact ⟨k, v, by omega, by omega, rfl⟩
    | pair k v =>
        cases k with
        | number n =>
            rw [plain.numbers n v member] at notPair
            cases notPair
        | name s => cases notPair
        | str s => cases notPair
        | op o' => cases notPair
  have notPairs : (o.zeroEntries ++ items).Perm
      (o.filter fun e => !e.isPair (LuaTable.len o)) := by
    have nodupZero : o.zeroEntries.Nodup := by
      rw [Op.zeroEntries]
      cases o.get 0 with
      | none => exact List.nodup_nil
      | some v => exact List.nodup_singleton _
    have nodupLeft : (o.zeroEntries ++ items).Nodup := by
      apply List.nodup_append.mpr ⟨nodupZero, nodup, ?_⟩
      rintro e memberZ e' memberI rfl
      obtain ⟨-, v, rfl⟩ := (memZero e).mp memberZ
      obtain ⟨-, i, v', low, -, same⟩ := (mem _).mp memberI
      rw [OpEntry.item.injEq] at same
      omega
    have nodupRight : (o.filter fun e => !e.isPair (LuaTable.len o)).Nodup := by
      apply (List.Pairwise.filter _ wf.distinct).imp_of_mem
      rintro a b memberA - different rfl
      obtain ⟨member, notPair⟩ := List.mem_filter.mp memberA
      obtain ⟨i, v, -, -, rfl⟩ := isItem a member (by simpa using notPair)
      simp [OpEntry.sameKey] at different
    rw [List.perm_ext_iff_of_nodup nodupLeft nodupRight]
    intro e
    rw [List.mem_append, memZero, mem, List.mem_filter]
    constructor
    · rintro (⟨member, v, rfl⟩ | ⟨member, i, v, low, high, rfl⟩)
      · exact ⟨member, by simp [OpEntry.isPair]⟩
      · refine ⟨member, ?_⟩
        simp only [OpEntry.isPair, Bool.not_eq_true', Bool.or_eq_false_iff,
          decide_eq_false_iff_not]
        omega
    · rintro ⟨member, notPair⟩
      obtain ⟨i, v, low, high, rfl⟩ := isItem e member (by simpa using notPair)
      by_cases zero : i = 0
      · rw [zero] at member ⊢
        exact .inl ⟨member, v, rfl⟩
      · exact .inr ⟨member, i, v, by omega, high, rfl⟩
  have split := List.filter_append_perm (·.isPair (LuaTable.len o)) o
  exact ((notPairs.append (printedPairs_perm tables o)).trans List.perm_append_comm).trans split

omit [Tonumber] in
/-- The text of a table in its parts. -/
theorem opTostring_eq (o : Op) :
    (OpExpr.op o).tostring = (do
      let zero ← zeroText o
      let items ← (List.range (LuaTable.len o)).mapM fun i : Nat => itemText o (i + 1)
      let pairs ← o.printedPairs.mapM OpEntry.pairText
      let start := if needNewline (o.get 1) then GCstr.ofString "\n(" else .ofString "("
      return start ++ tconcat (zero ++ items ++ pairs) ++ .ofString ")") := by
  have pairRows : ((LuaTable.order o).filterMap ((rows o)[·]?)).filter
      (·.entry.isPair (LuaTable.len o)) = o.printedPairs.map OpEntry.row := by
    have lookup (i : Nat) : (rows o)[i]? = (o[i]?).map OpEntry.row := by
      rw [rows_eq, List.getElem?_map]
    have entry : (fun row : OpRow => row.entry.isPair (LuaTable.len o)) ∘ OpEntry.row =
        (·.isPair (LuaTable.len o)) := by
      funext e
      exact congrArg (OpEntry.isPair (LuaTable.len o)) (row_entry e)
    simp only [lookup]
    rw [← List.map_filterMap, List.filter_map, entry]
    rfl
  rw [OpExpr.tostring, opTostring, pairRows]
  simp only [List.mapM_map]
  rfl

/-- A table whose entries print prints, with anything behind it. -/
theorem op_prints (numbers : PrintsNumbers) (tables : LuaTable.Lawful) {o : Op} (wf : o.Wf)
    (plain : o.Plain) (prints : ∀ e ∈ o, e.Prints) :
    ∃ text e', (OpExpr.op o).tostring = .ok text ∧ (OpExpr.op o).Same e' ∧
      (text.head? = some (ch '(') ∨ text.head? = some (ch '\n')) ∧
      ∀ tail, P.ReadsTable (text ++ tail) e' tail := by
  obtain ⟨zeroTexts, base, writtenZero, writeZero⟩ := zero_writes numbers wf prints
  have zeros : ∀ e ∈ base, ∃ v, e = .item 0 v := by
    intro e member
    obtain ⟨y, memberY, same⟩ := forall₂_mem_right writeZero.same member
    obtain ⟨v, -, rfl⟩ := List.mem_map.mp memberY
    obtain ⟨v', rfl, -⟩ := same
    exact ⟨v', rfl⟩
  obtain ⟨items, itemTexts, items', writtenItems, writeItems⟩ :=
    items_write tables wf plain prints zeros le_rfl
  have perm := written_perm tables wf plain writeItems.nodup writeItems.mem
  have distinct : (o.zeroEntries ++ items ++ o.printedPairs).Pairwise
      fun e e' => e.sameKey e' = false := by
    apply wf.distinct.perm perm.symm
    intro e e' different
    rwa [OpEntry.sameKey_symm]
  have noPairs : ∀ e ∈ base ++ items', ∃ i v, e = .item i v := by
    intro e member
    rcases List.mem_append.mp member with old | new
    · obtain ⟨v, same⟩ := zeros e old
      exact ⟨0, v, same⟩
    · obtain ⟨i, v, -, -, same⟩ := writeItems.items e new
      exact ⟨i, v, same⟩
  have members : ∀ e ∈ o.printedPairs, e ∈ o := fun e member =>
    perm.subset (List.mem_append_right _ member)
  obtain ⟨pairTexts, pairs', writtenPairs, writePairs⟩ :=
    pairs_write numbers wf plain prints (List.rel_append writeZero.same writeItems.same)
      noPairs (List.prefix_refl o.printedPairs) members distinct
  obtain ⟨zeroActs, readsZero, runZero⟩ := writeZero.ofActs
  obtain ⟨itemActs, readsItems, runItems⟩ := writeItems.ofActs
  obtain ⟨pairActs, readsPairs, runPairs⟩ := writePairs.ofActs
  have run : (zeroActs ++ itemActs ++ pairActs).foldlM OpAct.run [] =
      .ok (base ++ items' ++ pairs') := by
    rw [List.foldlM_append, List.foldlM_append, runZero]
    change (itemActs.foldlM OpAct.run base >>= _) = _
    rw [runItems]
    exact runPairs
  have same : (OpExpr.op o).Same (.op (base ++ items' ++ pairs')) := by
    obtain ⟨l, sameL, permL⟩ := List.perm_comp_forall₂ perm.symm
      (List.rel_append (List.rel_append writeZero.same writeItems.same) writePairs.same)
    exact ⟨_, l, rfl, permL, (sameEntries_iff o l).mpr sameL⟩
  have starts : ∃ start, (if needNewline (o.get 1) then GCstr.ofString "\n(" else .ofString "(") =
      start ∧ (start = [ch '('] ∨ start = [ch '\n', ch '(']) := by
    refine ⟨_, rfl, ?_⟩
    split
    · exact .inr (by decide +kernel)
    · exact .inl (by decide +kernel)
  obtain ⟨start, isStart, starts⟩ := starts
  have close := rparen_bytes
  refine ⟨start ++ tconcat (zeroTexts ++ itemTexts ++ pairTexts) ++ [ch ')'], _, ?_, same, ?_,
    P.readsTable_text starts (List.rel_append (List.rel_append readsZero readsItems) readsPairs)
      run⟩
  · rw [opTostring_eq, writtenZero, writtenItems, writtenPairs, isStart, close]
    rfl
  · rcases starts with rfl | rfl
    · exact .inl rfl
    · exact .inr rfl

mutual
theorem OpExpr.prints (numbers : PrintsNumbers) (tables : LuaTable.Lawful) :
    (e : OpExpr) → e.Wf → e.Plain → e.Prints
  | .name s, _, plain => by
      refine ⟨s, .name s, rfl, rfl, ?_⟩
      rintro tail ⟨d, more, rfl, delimiter⟩
      exact P.readsExpr_token (P.reads_name plain delimiter) (.inl ⟨s, rfl, rfl⟩)
  | .number n, _, plain =>
      ⟨Tostring.tostring n, .number n, rfl, rfl, readsBack_number numbers plain.1 plain.2⟩
  | .str s, _, plain => by
      obtain ⟨t, quoted⟩ := plain
      exact ⟨t, .str s, quoted, rfl, fun tail _ =>
        P.readsExpr_token (P.reads_quoted quoted) (.inr (.inr ⟨s, rfl, rfl⟩))⟩
  | .op o, wf, plain => by
      obtain ⟨text, e', written, same, -, reads⟩ :=
        op_prints numbers tables wf.1 plain.1 (entries_print numbers tables o wf.2 plain.2)
      exact ⟨text, e', written, same, fun tail _ => (reads tail).expr⟩

theorem OpEntry.prints (numbers : PrintsNumbers) (tables : LuaTable.Lawful) :
    (e : OpEntry) → e.Wf → e.Plain → e.Prints
  | .item _ v, wf, plain => OpExpr.prints numbers tables v wf plain
  | .pair k v, wf, plain =>
      ⟨OpExpr.prints numbers tables k wf.1 plain.1, OpExpr.prints numbers tables v wf.2 plain.2⟩

theorem entries_print (numbers : PrintsNumbers) (tables : LuaTable.Lawful) :
    (o : List OpEntry) → allWf o → allPlain o → ∀ e ∈ o, e.Prints
  | [], _, _ => List.forall_mem_nil _
  | e :: o, wf, plain => List.forall_mem_cons.mpr
      ⟨OpEntry.prints numbers tables e wf.1 plain.1, entries_print numbers tables o wf.2 plain.2⟩
end

/-- The texts of tables, one behind the other, are read as a program. -/
theorem ops_print (numbers : PrintsNumbers) (tables : LuaTable.Lawful) {ast : List OpExpr}
    (wf : ∀ e ∈ ast, e.Wf ∧ ∃ o, e = .op o) (plain : ∀ e ∈ ast, e.Plain) :
    ∃ texts ast', ast.mapM OpExpr.tostring = .ok texts ∧ List.Forall₂ OpExpr.Same ast ast' ∧
      (texts.flatten = [] ∨ texts.flatten.head? = some (ch '(') ∨
        texts.flatten.head? = some (ch '\n')) ∧ P.ReadsOps texts.flatten ast' := by
  induction ast with
  | nil => exact ⟨[], [], rfl, .nil, .inl rfl, .done⟩
  | cons e ast induction =>
      obtain ⟨wfE, wf⟩ := List.forall_mem_cons.mp wf
      obtain ⟨plainE, plain⟩ := List.forall_mem_cons.mp plain
      obtain ⟨texts, ast', written, same, -, reads⟩ := induction wf plain
      obtain ⟨wfE, o, rfl⟩ := wfE
      obtain ⟨text, e', writtenE, sameE, start, readsE⟩ :=
        op_prints numbers tables wfE.1 plainE.1 (entries_print numbers tables o wfE.2 plainE.2)
      refine ⟨text :: texts, e' :: ast', ?_, .cons sameE same, ?_, .cons (readsE _) reads⟩
      · rw [List.mapM_cons, writtenE, written]
        rfl
      · cases text with
        | nil => rcases start with start | start <;> cases start
        | cons b text => exact .inr start

end

end TvmJit
