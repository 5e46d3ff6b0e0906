import TvmJit.Op.Tree
import Mathlib.Data.List.Perm.Basic
import Mathlib.Data.List.Nodup

/-! The tables of op trees: each key has one entry, and integers are stored as such. -/

namespace TvmJit

/-! ## Keys -/

namespace OpExpr

theorem rawequal_symm (a b : OpExpr) : a.rawequal b = b.rawequal a := by
  cases a <;> cases b <;> try rfl
  · exact Bool.beq_comm
  · next n n' =>
      rw [rawequal, rawequal, Bool.eq_iff_iff, Num.eq_true_iff, Num.eq_true_iff]
      exact ⟨fun ⟨notNan, notNan', same⟩ => ⟨notNan', notNan, same.imp Eq.symm And.symm⟩,
        fun ⟨notNan, notNan', same⟩ => ⟨notNan', notNan, same.imp Eq.symm And.symm⟩⟩

theorem rawequal_congr {a b : OpExpr} (same : a.rawequal b = true) (c : OpExpr) :
    a.rawequal c = b.rawequal c := by
  cases a <;> cases b <;> try cases same
  · cases c <;> try rfl
    rw [rawequal, beq_iff_eq] at same
    rw [same]
  · cases c <;> try rfl
    rw [rawequal, Num.eq_true_iff] at same
    obtain ⟨notNan, notNan', same⟩ := same
    rw [rawequal, rawequal, Bool.eq_iff_iff, Num.eq_true_iff, Num.eq_true_iff]
    rcases same with rfl | ⟨zero, zero'⟩
    · exact Iff.rfl
    · constructor
      · rintro ⟨-, notNanC, same⟩
        refine ⟨notNan', notNanC, .inr ⟨zero', ?_⟩⟩
        rcases same with rfl | both
        · exact zero
        · exact both.2
      · rintro ⟨-, notNanC, same⟩
        refine ⟨notNan, notNanC, .inr ⟨zero, ?_⟩⟩
        rcases same with rfl | both
        · exact zero'
        · exact both.2

end OpExpr

namespace OpEntry

theorem sameKey_symm (a b : OpEntry) : a.sameKey b = b.sameKey a := by
  cases a <;> cases b <;> try rfl
  · exact Bool.beq_comm
  · exact OpExpr.rawequal_symm _ _

theorem sameKey_congr {a b : OpEntry} (same : a.sameKey b = true) (c : OpEntry) :
    a.sameKey c = b.sameKey c := by
  cases a <;> cases b <;> try cases same
  · cases c <;> try rfl
    rw [sameKey, beq_iff_eq] at same
    rw [same]
    rfl
  · cases c <;> try rfl
    exact OpExpr.rawequal_congr same _

/-- A key as `lj_tab_set` stores it: an integer apart from other numbers, and no NaN. -/
def Stored : OpEntry → Prop
  | .item k _ => -2147483648 ≤ k ∧ k < 2147483648
  | .pair (.number n) _ => n.isNan = false ∧ (Num.ofInt n.num2int).eq n = false
  | .pair _ _ => True

end OpEntry

namespace Op

/-- No two entries have one key. -/
def Distinct (o : Op) : Prop := o.Pairwise fun e e' => e.sameKey e' = false

/-- The table holds what its operations store. -/
structure Wf (o : Op) : Prop where
  distinct : o.Distinct
  stored : ∀ e ∈ o, e.Stored

theorem wf_empty : Wf [] := ⟨List.Pairwise.nil, fun _ member => nomatch member⟩

theorem set_of_new {o : Op} {entry : OpEntry} (new : ∀ e ∈ o, entry.sameKey e = false) :
    o.set entry = o ++ [entry] := by
  rw [set, if_neg]
  simpa using new

theorem Wf.set {o : Op} (wf : o.Wf) {entry : OpEntry} (stored : entry.Stored) :
    (o.set entry).Wf := by
  by_cases present : o.any entry.sameKey = true
  · rw [Op.set, if_pos present]
    constructor
    · apply List.Pairwise.map _ _ wf.distinct
      intro a b different
      by_cases sameA : entry.sameKey a = true
      · rw [if_pos sameA]
        have sameB : entry.sameKey b = false := by
          rw [OpEntry.sameKey_congr sameA]
          exact different
        rw [if_neg (by simp [sameB])]
        exact sameB
      · rw [if_neg sameA]
        split
        · rw [OpEntry.sameKey_symm]
          simpa using sameA
        · exact different
    · intro e member
      obtain ⟨e', member', rfl⟩ := List.mem_map.mp member
      split
      · exact stored
      · exact wf.stored e' member'
  · have new : ∀ e ∈ o, entry.sameKey e = false := by simpa using present
    rw [set_of_new new]
    constructor
    · apply List.pairwise_append.mpr ⟨wf.distinct, List.pairwise_singleton _ _, ?_⟩
      intro e member e' member'
      rw [List.mem_singleton.mp member', OpEntry.sameKey_symm]
      exact new e member
    · intro e member
      rcases List.mem_append.mp member with old | fresh
      · exact wf.stored e old
      · rw [List.mem_singleton.mp fresh]
        exact stored

theorem Wf.setIndex {o o' : Op} (wf : o.Wf) {k v : OpExpr} (stored : o.setIndex k v = .ok o') :
    o'.Wf := by
  unfold Op.setIndex at stored
  split at stored
  · next n =>
      split at stored
      · next isInt =>
          rw [← Except.ok.inj stored]
          exact wf.set (Num.num2int_range n)
      · next notInt =>
          split at stored
          · cases stored
          · next notNan =>
              rw [← Except.ok.inj stored]
              exact wf.set ⟨by simpa using notNan, by simpa using notInt⟩
  · next notNumber =>
      rw [← Except.ok.inj stored]
      apply wf.set
      cases k with
      | number n => exact absurd rfl (notNumber n)
      | name s => trivial
      | str s => trivial
      | op o => trivial

theorem get_cons (entry : OpEntry) (o : Op) (k : Int) :
    get (entry :: o) k =
      match entry with
      | .item k' v => if k' = k then some v else o.get k
      | .pair _ _ => o.get k := by
  cases entry with
  | item k' v =>
      rw [get, List.findSome?_cons]
      dsimp only
      split
      · next found =>
          split at found
          · next same => rw [if_pos same, found]
          · cases found
      · next notFound =>
          split at notFound
          · cases notFound
          · next other => rw [if_neg other]; rfl
  | pair k' v => rfl

theorem get_eq_some_iff {o : Op} (distinct : o.Distinct) {k : Int} {v : OpExpr} :
    o.get k = some v ↔ .item k v ∈ o := by
  induction o with
  | nil => exact ⟨(nomatch ·), (nomatch ·)⟩
  | cons entry o induction =>
      obtain ⟨different, distinctRest⟩ := List.pairwise_cons.mp distinct
      rw [get_cons, List.mem_cons]
      cases entry with
      | item k' v' =>
          dsimp only
          split
          · next same =>
              subst same
              constructor
              · intro isValue
                rw [Option.some.inj isValue]
                exact .inl rfl
              · rintro (same | member)
                · rw [OpEntry.item.injEq] at same
                  rw [same.2]
                · have other := different _ member
                  simp [OpEntry.sameKey] at other
          · next other =>
              rw [induction distinctRest, OpEntry.item.injEq]
              exact ⟨.inr, fun either => either.resolve_left fun same => other same.1.symm⟩
      | pair k' v' =>
          rw [induction distinctRest]
          exact ⟨.inr, fun either => either.resolve_left fun same => nomatch same⟩

theorem get_isSome_iff (o : Op) (k : Int) : (o.get k).isSome = true ↔ ∃ v, .item k v ∈ o := by
  induction o with
  | nil => simp [get]
  | cons entry o induction =>
      rw [get_cons]
      cases entry with
      | item k' v' =>
          dsimp only
          split
          · next same =>
              subst same
              simp
          · next other =>
              rw [induction]
              simp [Ne.symm other]
      | pair k' v' =>
          rw [induction]
          simp

theorem field_eq_none_iff (o : Op) (s : GCstr) :
    o.field s = none ↔ ∀ v, .pair (.name s) v ∉ o := by
  rw [field, List.findSome?_eq_none_iff]
  constructor
  · intro none_ v member
    have found := none_ _ member
    simp at found
  · intro noField e member
    cases e with
    | item k v => rfl
    | pair k v =>
        cases k with
        | name s' =>
            dsimp only
            split
            · next same =>
                subst same
                exact absurd member (noField v)
            · rfl
        | number n => rfl
        | str s' => rfl
        | op o' => rfl

theorem mem_set {o : Op} {entry e : OpEntry} (member : e ∈ o.set entry) : e = entry ∨ e ∈ o := by
  unfold set at member
  split at member
  · obtain ⟨e', member', rfl⟩ := List.mem_map.mp member
    split
    · exact .inl rfl
    · exact .inr member'
  · rcases List.mem_append.mp member with old | fresh
    · exact .inr old
    · exact .inl (List.mem_singleton.mp fresh)

/-- What is stored are the old entries and the one of the key and the value. -/
theorem mem_setIndex {o o' : Op} {k v : OpExpr} (stored : o.setIndex k v = .ok o') {e : OpEntry}
    (member : e ∈ o') : e ∈ o ∨ e = .pair k v ∨ ∃ i, e = .item i v := by
  unfold setIndex at stored
  split at stored
  · split at stored
    · rw [← Except.ok.inj stored] at member
      exact (mem_set member).elim (fun same => .inr (.inr ⟨_, same⟩)) .inl
    · split at stored
      · cases stored
      · rw [← Except.ok.inj stored] at member
        exact (mem_set member).elim (fun same => .inr (.inl same)) .inl
  · rw [← Except.ok.inj stored] at member
    exact (mem_set member).elim (fun same => .inr (.inl same)) .inl

theorem callMethod_ok {o o' : Op} {name : String} {method : Except LibError Op}
    (called : o.callMethod name method = .ok o') : method = .ok o' := by
  unfold callMethod at called
  split at called
  · cases called
  · exact called

end Op

/-! ## What the parser builds -/

mutual
/-- Every table in the expression is one the operations build. -/
def OpExpr.Wf : OpExpr → Prop
  | .op o => Op.Wf o ∧ allWf o
  | _ => True

def OpEntry.Wf : OpEntry → Prop
  | .item _ v => v.Wf
  | .pair k v => k.Wf ∧ v.Wf

def allWf : List OpEntry → Prop
  | [] => True
  | e :: rest => e.Wf ∧ allWf rest
end

theorem allWf_iff (o : Op) : allWf o ↔ ∀ e ∈ o, e.Wf := by
  induction o with
  | nil => simp [allWf]
  | cons e o induction => rw [allWf, induction, List.forall_mem_cons]

theorem wf_setIndex {o o' : Op} {k v : OpExpr} (wf : (OpExpr.op o).Wf) (wfKey : k.Wf) (wfValue : v.Wf)
    (stored : o.setIndex k v = .ok o') : (OpExpr.op o').Wf := by
  rw [OpExpr.Wf, allWf_iff] at wf ⊢
  refine ⟨wf.1.setIndex stored, fun e member => ?_⟩
  rcases Op.mem_setIndex stored member with old | rfl | ⟨i, rfl⟩
  · exact wf.2 e old
  · exact ⟨wfKey, wfValue⟩
  · exact wfValue

namespace P

theorem liftLib_ok {α : Type} {r : Except LibError α} {a : α} (ok : liftLib r = .ok a) : r = .ok a := by
  cases r with
  | ok b =>
      cases ok
      rfl
  | error e => cases ok

theorem bind_ok {ε α β : Type} {r : Except ε α} {next : α → Except ε β} {b : β}
    (run : (r >>= next) = .ok b) : ∃ a, r = .ok a ∧ next a = .ok b := by
  cases r with
  | ok a => exact ⟨a, rfl, run⟩
  | error e => cases run

variable [Tonumber] [LuaTable]

theorem table_wf (fuel steps : Nat) :
    (∀ {tok p e tok' p'}, expr fuel steps tok p = .ok (e, tok', p') → e.Wf) ∧
      (∀ {p e tok' p'}, table fuel steps p = .ok (e, tok', p') → e.Wf ∧ ∃ o, e = .op o) ∧
      ∀ {t tok p t' p'}, (OpExpr.op t).Wf → tableLoop fuel steps t tok p = .ok (t', p') →
        (OpExpr.op t').Wf := by
  induction steps with
  | zero => exact ⟨(nomatch ·), (nomatch ·), fun _ run => nomatch run⟩
  | succ steps induction =>
      obtain ⟨exprWf, tableWf, loopWf⟩ := induction
      refine ⟨fun {tok} {p} {e} {tok'} {p'} run => ?_, fun {p} {e} {tok'} {p'} run => ?_,
        fun {t} {tok} {p} {t'} {p'} wf run => ?_⟩
      · cases tok with
        | lparen => exact (tableWf run).1
        | string s =>
            obtain ⟨r, -, done⟩ := bind_ok run
            cases done
            trivial
        | number n =>
            obtain ⟨r, -, done⟩ := bind_ok run
            cases done
            trivial
        | name s =>
            obtain ⟨r, -, done⟩ := bind_ok run
            cases done
            trivial
        | rparen => cases run
        | colon => cases run
        | cdata cd => cases run
        | eof => cases run
      · obtain ⟨r, -, run⟩ := bind_ok run
        obtain ⟨⟨t, q⟩, loop, run⟩ := bind_ok run
        obtain ⟨r', -, done⟩ := bind_ok run
        cases done
        exact ⟨loopWf ⟨Op.wf_empty, trivial⟩ loop, t, rfl⟩
      · rw [tableLoop] at run
        split at run
        · cases run
          exact wf
        · obtain ⟨⟨v, tok, q⟩, first, run⟩ := bind_ok run
          dsimp only at run
          split at run
          · obtain ⟨⟨tok, q⟩, -, run⟩ := bind_ok run
            obtain ⟨⟨v', tok, q⟩, second, run⟩ := bind_ok run
            obtain ⟨t₁, stored, run⟩ := bind_ok run
            exact loopWf (wf_setIndex wf (exprWf first) (exprWf second)
              (Op.callMethod_ok (liftLib_ok stored))) run
          · obtain ⟨t₁, stored, run⟩ := bind_ok run
            have wfKey : (OpExpr.number (Num.ofInt (LuaTable.len t + 1))).Wf := trivial
            exact loopWf (wf_setIndex wf wfKey (exprWf first)
              (Op.callMethod_ok (liftLib_ok stored))) run

theorem opsLoop_wf (fuel : Nat) {steps : Nat} {ast ast' : List OpExpr} {tok : Token} {p : P}
    (wf : ∀ e ∈ ast, e.Wf ∧ ∃ o, e = .op o) (run : opsLoop fuel steps ast tok p = .ok ast') :
    ∀ e ∈ ast', e.Wf ∧ ∃ o, e = .op o := by
  induction steps generalizing ast tok p with
  | zero => cases run
  | succ steps induction =>
      rw [opsLoop] at run
      split at run
      · obtain ⟨⟨t, tok, q⟩, table, run⟩ := bind_ok run
        refine induction (fun e member => ?_) run
        rcases List.mem_append.mp member with old | new
        · exact wf e old
        · rw [List.mem_singleton.mp new]
          exact (table_wf fuel steps).2.1 table
      · split at run
        · cases run
          exact wf
        · cases run

end P

/-- Everything `tvm.parse` returns is a table its operations build. -/
theorem tvmParse_wf [Tonumber] [LuaTable] {fuel : Nat} {s : GCstr} {ast : List OpExpr}
    (parsed : tvmParse fuel s = .ok ast) : ∀ e ∈ ast, e.Wf ∧ ∃ o, e = .op o := by
  obtain ⟨p, -, run⟩ := P.bind_ok parsed
  obtain ⟨⟨tok, q⟩, -, run⟩ := P.bind_ok run
  exact P.opsLoop_wf fuel (List.forall_mem_nil _) run

end TvmJit
