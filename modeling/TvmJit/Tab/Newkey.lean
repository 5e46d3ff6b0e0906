import TvmJit.Tab.Insert

/-! Storing a new key: in its free main node, in a free node behind it, or in its main
node after the key there has moved. -/

namespace TvmJit.Tab

open Foundation Function

namespace GCtab

variable [StrHash] {t : GCtab} {k : TValue}

omit [StrHash] in
theorem claim_eq (t : GCtab) (n : Nat) (k : TValue) :
    t.claim n k =
      (.node n, { t with node := update t.node n { t.node n with key := k.stored } }) := by
  cases k <;> rfl

omit [StrHash] in
theorem freenode_some {top f : Nat} (search : t.freenode top = some f) :
    f < top ∧ (t.node f).key = .nil ∧ ∀ i, f < i → i < top → (t.node i).key ≠ .nil := by
  induction top with
  | zero => cases search
  | succ top induction =>
      rw [freenode] at search
      split at search
      · next isNil =>
          cases search
          exact ⟨Nat.lt_succ_self _, isNil, fun i low high => by omega⟩
      · next used =>
          obtain ⟨low, isNil, above⟩ := induction search
          refine ⟨Nat.lt_succ_of_lt low, isNil, fun i lowI high => ?_⟩
          rcases Nat.lt_succ_iff_lt_or_eq.mp high with high | rfl
          · exact above i lowI high
          · exact used

omit [StrHash] in
theorem freenode_none {top : Nat} (search : t.freenode top = none) :
    ∀ i < top, (t.node i).key ≠ .nil := by
  induction top with
  | zero => exact fun i low => absurd low (Nat.not_lt_zero i)
  | succ top induction =>
      rw [freenode] at search
      split at search
      · cases search
      · next used =>
          intro i high
          rcases Nat.lt_succ_iff_lt_or_eq.mp high with high | rfl
          · exact induction search i high
          · exact used

/-- The nodes of a table with a new key. -/
structure NodesAdd (t : GCtab) (k : TValue) (node : Nat → TabNode) : Prop where
  table : Scattered t.hashkey (fun i => (node i).key?) fun i => (node i).next
  outside : ∀ i, t.hmask < i → node i = {}
  valued : ∀ i, (node i).key = .nil → (node i).val = .nil
  arrives : ∀ i, (node i).key ≠ .nil →
    (∃ j, (t.node j).key = (node i).key ∧ (node i).val = (t.node j).val) ∨
      ((node i).key = k ∧ (node i).val = .nil)
  leaves : ∀ j, (t.node j).key ≠ .nil → (t.node j).val ≠ .nil → ∃ i, (node i).key = (t.node j).key
  /-- No more than one node is used that was not. -/
  one : ∃ x, ∀ i, (node i).key ≠ .nil → i = x ∨ (t.node i).key ≠ .nil

theorem NodesAdd.keeps {node : Nat → TabNode} {f : Nat} (adds : NodesAdd t k node) (wf : t.Wf)
    (hashed : t.Hashed k) (absent : ∀ i, (t.node i).key ≠ k) (hasNodes : t.hmask ≠ 0)
    (top : f ≤ t.hmask + 1) (taken : ∀ i, f ≤ i → i ≤ t.hmask → (node i).key ≠ .nil) :
    Keeps t { t with node := node, freetop := f } := by
  have notArray {i : Nat} (inside : i < t.asize) : k ≠ .num (.ofInt i) := by
    intro isIndex
    have notIn := hashed.2
    have small := wf.index_small inside
    rw [isIndex, arrayKey_ofInt (by omega) small, Bool.eq_false_iff] at notIn
    exact notIn (inarray_iff.mpr ⟨by omega, by omega⟩)
  refine ⟨⟨wf.small, adds.table, adds.outside, adds.valued, fun i used => ?_, top, fun _ => taken,
    fun none => absurd none hasNodes⟩, fun m holds => holds.move ?_ ?_, le_rfl, fun _ => le_rfl⟩
  · change Hashed t (node i).key
    rcases adds.arrives i used with ⟨j, same, -⟩ | ⟨same, -⟩
    · rw [← same]
      exact wf.keys j (same ▸ used)
    · rw [same]
      exact hashed
  · intro k' slot' isKey entry
    cases slot' with
    | array i => exact .inl ⟨.array i, entry, rfl⟩
    | node i =>
        obtain ⟨isKeyI, notNil⟩ : (node i).key = k' ∧ k' ≠ .nil := entry
        rcases adds.arrives i (isKeyI ▸ notNil) with ⟨j, same, value⟩ | ⟨same, value⟩
        · exact .inl ⟨.node j, ⟨same.trans isKeyI, notNil⟩, value⟩
        · refine .inr ⟨value, fun slot old => ?_⟩
          have isNew : k' = k := isKeyI.symm.trans same
          cases slot with
          | array j => exact notArray old.1 (isNew.symm.trans old.2)
          | node j => exact absent j (old.1.trans isNew)
  · intro k' slot isKey entry
    cases slot with
    | array i => exact .inl ⟨.array i, entry⟩
    | node j =>
        obtain ⟨isKeyJ, notNil⟩ : (t.node j).key = k' ∧ k' ≠ .nil := entry
        by_cases noValue : (t.node j).val = .nil
        · exact .inr noValue
        · obtain ⟨i, same⟩ := adds.leaves j (isKeyJ ▸ notNil) noValue
          exact .inl ⟨.node i, same.trans isKeyJ, notNil⟩

omit [StrHash] in
/-- The keys of nodes one of which has changed. -/
theorem key?_update (node : Nat → TabNode) (n : Nat) (x : TabNode) :
    (fun i => (update node n x i).key?) = update (fun i => (node i).key?) n x.key? :=
  Function.comp_update TabNode.key? node n x

omit [StrHash] in
theorem next_update (node : Nat → TabNode) (n : Nat) (x : TabNode) :
    (fun i => (update node n x i).next) = update (fun i => (node i).next) n x.next :=
  Function.comp_update TabNode.next node n x

omit [StrHash] in
theorem key?_of_isKey {n : TabNode} (isKey : k.IsKey) (same : n.key = k) : n.key? = some k :=
  TabNode.key?_eq_some.mpr ⟨same, isKey.ne_nil⟩

/-- A key whose main node has no value takes that node. -/
theorem nodes_at_home (wf : t.Wf) (hashed : t.Hashed k) (absent : ∀ i, (t.node i).key ≠ k)
    (noValue : (t.node (t.hashkey k)).val = .nil) :
    NodesAdd t k (update t.node (t.hashkey k) { t.node (t.hashkey k) with key := k }) := by
  have isKey := hashed.1
  have other {i : Nat} {x : TabNode} (away : i ≠ t.hashkey k) :
      update t.node (t.hashkey k) x i = t.node i := update_of_ne away ..
  have low := t.hashkey_le k
  refine ⟨?_, fun i high => ?_, fun i isNil => ?_, fun i used => ?_, fun j used value => ?_,
    t.hashkey k, fun i used => ?_⟩
  · have table := wf.table.at_home (k := k) fun i stored => absent i (TabNode.key?_eq_some.mp stored).1
    rw [key?_update, next_update, key?_of_isKey isKey rfl]
    change Scattered _ _ (update t.nextnode _ (t.nextnode _))
    rwa [update_eq_self]
  · rw [other (by omega), wf.outside i high]
  · by_cases isHome : i = t.hashkey k
    · rw [isHome, update_self] at isNil
      exact absurd isNil isKey.ne_nil
    · rw [other isHome] at isNil ⊢
      exact wf.valued i isNil
  · by_cases isHome : i = t.hashkey k
    · rw [isHome, update_self]
      exact .inr ⟨rfl, noValue⟩
    · rw [other isHome]
      exact .inl ⟨i, rfl, rfl⟩
  · have away : j ≠ t.hashkey k := by
      rintro rfl
      exact value noValue
    exact ⟨j, by rw [other away]⟩
  · by_cases isHome : i = t.hashkey k
    · exact .inl isHome
    · rw [other isHome] at used
      exact .inr used

/-- The nodes with the key in node `f`, behind its main node. -/
def nodesBehind (t : GCtab) (k : TValue) (f : Nat) : Nat → TabNode :=
  update (update t.node f { t.node f with next := t.nextnode (t.hashkey k), key := k })
    (t.hashkey k) { t.node (t.hashkey k) with next := some f }

/-- The nodes with the key in its main node, and what was there in node `f`, behind node
`p`. -/
def nodesDisplaced (t : GCtab) (k : TValue) (f p : Nat) : Nat → TabNode :=
  update (update (update t.node p { t.node p with next := some f }) f (t.node (t.hashkey k)))
    (t.hashkey k) { key := k, val := .nil, next := none }

theorem nodesBehind_apply (t : GCtab) (k : TValue) (f i : Nat) :
    t.nodesBehind k f i =
      if i = t.hashkey k then { t.node (t.hashkey k) with next := some f }
      else if i = f then { t.node f with next := t.nextnode (t.hashkey k), key := k }
      else t.node i := by
  simp only [nodesBehind, update_apply]

theorem nodesDisplaced_apply (t : GCtab) (k : TValue) (f p i : Nat) :
    t.nodesDisplaced k f p i =
      if i = t.hashkey k then { key := k, val := .nil, next := none }
      else if i = f then t.node (t.hashkey k)
      else if i = p then { t.node p with next := some f }
      else t.node i := by
  simp only [nodesDisplaced, update_apply]

/-- A key whose main node is taken by a key that belongs there goes behind it. -/
theorem nodes_behind (wf : t.Wf) (hashed : t.Hashed k) (absent : ∀ i, (t.node i).key ≠ k) {f : Nat}
    (free : (t.node f).key = .nil) (low : f ≤ t.hmask)
    (value : (t.node (t.hashkey k)).val ≠ .nil)
    (owns : t.hashkey (t.node (t.hashkey k)).key = t.hashkey k) :
    NodesAdd t k (t.nodesBehind k f) := by
  have isKey := hashed.1
  have used : (t.node (t.hashkey k)).key ≠ .nil := fun isNil => value (wf.valued _ isNil)
  have different : f ≠ t.hashkey k := fun same => used (same ▸ free)
  have nodes := t.nodesBehind_apply k f
  have lowHome := t.hashkey_le k
  refine ⟨?_, fun i high => ?_, fun i isNil => ?_, fun i usedI => ?_, fun j usedJ valueJ => ?_,
    f, fun i usedI => ?_⟩
  · have table := wf.table.behind_home
      (fun i stored => absent i (TabNode.key?_eq_some.mp stored).1) (TabNode.key?_eq_none.mpr free)
      (TabNode.key?_eq_some.mpr ⟨rfl, used⟩) owns
    rw [nodesBehind, key?_update, key?_update, next_update, next_update, key?_of_isKey isKey rfl]
    change Scattered _ (update _ _ (t.node (t.hashkey k)).key?) (insertAfter t.nextnode _ f)
    have same : update (fun i => (t.node i).key?) f (some k) (t.hashkey k) =
        (t.node (t.hashkey k)).key? := update_of_ne different.symm ..
    rwa [← same, update_eq_self]
  · rw [nodes, if_neg (by omega), if_neg (by omega), wf.outside i high]
  · rw [nodes] at isNil ⊢
    split at isNil
    · exact absurd isNil used
    · split at isNil
      · exact absurd isNil isKey.ne_nil
      · next notHome notFree =>
          rw [if_neg notHome, if_neg notFree]
          exact wf.valued i isNil
  · rw [nodes]
    split
    · exact .inl ⟨t.hashkey k, rfl, rfl⟩
    · split
      · exact .inr ⟨rfl, wf.valued f free⟩
      · exact .inl ⟨i, rfl, rfl⟩
  · have notFree : j ≠ f := fun same => usedJ (same ▸ free)
    refine ⟨j, ?_⟩
    rw [nodes, if_neg notFree]
    split
    · next isHome => rw [isHome]
    · rfl
  · rw [nodes] at usedI
    split at usedI
    · next isHome => exact .inr (isHome ▸ used)
    · split at usedI
      · next isFree => exact .inl isFree
      · exact .inr usedI

/-- A key whose main node is taken by a key that does not belong there takes the node, and
the other key moves to a free one. -/
theorem nodes_displace (wf : t.Wf) (hashed : t.Hashed k) (absent : ∀ i, (t.node i).key ≠ k) {f p : Nat}
    (free : (t.node f).key = .nil) (low : f ≤ t.hmask)
    (value : (t.node (t.hashkey k)).val ≠ .nil)
    (away : t.hashkey (t.node (t.hashkey k)).key ≠ t.hashkey k)
    (front : t.nextnode p = some (t.hashkey k)) :
    NodesAdd t k (t.nodesDisplaced k f p) := by
  have isKey := hashed.1
  have used : (t.node (t.hashkey k)).key ≠ .nil := fun isNil => value (wf.valued _ isNil)
  have different : f ≠ t.hashkey k := fun same => used (same ▸ free)
  have notHome : p ≠ t.hashkey k := wf.table.chains.ne front
  have usedFront : (t.node p).key ≠ .nil :=
    TabNode.key?_isSome.mp (wf.table.linked p _ front).1
  have notFree : p ≠ f := fun same => usedFront (same ▸ free)
  have lowFront : p ≤ t.hmask := wf.le_of_key usedFront
  have nodes := t.nodesDisplaced_apply k f p
  have lowHome := t.hashkey_le k
  refine ⟨?_, fun i high => ?_, fun i isNil => ?_, fun i usedI => ?_, fun j usedJ valueJ => ?_,
    f, fun i usedI => ?_⟩
  · have table := wf.table.displace
      (fun i stored => absent i (TabNode.key?_eq_some.mp stored).1) (TabNode.key?_eq_none.mpr free)
      (TabNode.key?_eq_some.mpr ⟨rfl, used⟩) away front
    have isNew : TabNode.key? { key := k, val := .nil, next := none } = some k :=
      key?_of_isKey isKey rfl
    rw [nodesDisplaced, key?_update, key?_update, key?_update, next_update, next_update,
      next_update, isNew]
    change Scattered _ (update (update (update _ p (t.node p).key?) f _) _ _)
      (replaceLink t.nextnode p (t.hashkey k) f)
    rw [update_eq_self, TabNode.key?_eq_some.mpr ⟨rfl, used⟩]
    exact table
  · rw [nodes, if_neg (by omega), if_neg (by omega), if_neg (by omega), wf.outside i high]
  · rw [nodes] at isNil ⊢
    split at isNil
    · exact absurd isNil isKey.ne_nil
    · split at isNil
      · exact absurd isNil used
      · split at isNil
        · exact absurd isNil usedFront
        · next notHomeI notFreeI notFrontI =>
            rw [if_neg notHomeI, if_neg notFreeI, if_neg notFrontI]
            exact wf.valued i isNil
  · rw [nodes]
    split
    · exact .inr ⟨rfl, rfl⟩
    · split
      · exact .inl ⟨t.hashkey k, rfl, rfl⟩
      · split
        · next isFront => exact .inl ⟨p, rfl, rfl⟩
        · exact .inl ⟨i, rfl, rfl⟩
  · have notFreeJ : j ≠ f := fun same => usedJ (same ▸ free)
    by_cases isHome : j = t.hashkey k
    · exact ⟨f, by rw [nodes, if_neg different, if_pos rfl, isHome]⟩
    · refine ⟨j, ?_⟩
      rw [nodes, if_neg isHome, if_neg notFreeJ]
      split
      · next isFront => rw [isFront]
      · rfl
  · rw [nodes] at usedI
    split at usedI
    · next isHome => exact .inr (isHome ▸ used)
    · split at usedI
      · next isFree => exact .inl isFree
      · split at usedI
        · next isFront => exact .inr (isFront ▸ usedFront)
        · exact .inr usedI

/-! ## The new key -/

/-- The key is in the table, which holds what it did. -/
structure Adds (t : GCtab) (k : TValue) (slot : TabSlot) (t' : GCtab) : Prop where
  keeps : Keeps t t'
  entry : t'.Entry k slot

/-- Nothing but nodes changed, and no more than one node is used that was not. -/
structure Fits (t : GCtab) (k : TValue) (slot : TabSlot) (t' : GCtab) : Prop where
  adds : Adds t k slot t'
  asize : t'.asize = t.asize
  hmask : t'.hmask = t.hmask
  block : t'.block = t.block
  one : ∃ x, ∀ i, (t'.node i).key ≠ .nil → i = x ∨ (t.node i).key ≠ .nil

theorem NodesAdd.fits {node : Nat → TabNode} {f n : Nat} (adds : NodesAdd t k node) (wf : t.Wf)
    (hashed : t.Hashed k) (absent : ∀ i, (t.node i).key ≠ k) (hasNodes : t.hmask ≠ 0)
    (top : f ≤ t.hmask + 1) (taken : ∀ i, f ≤ i → i ≤ t.hmask → (node i).key ≠ .nil)
    (isKey : (node n).key = k) :
    Fits t k (.node n) { t with node := node, freetop := f } :=
  ⟨⟨adds.keeps wf hashed absent hasNodes top taken, isKey, hashed.1.ne_nil⟩, rfl, rfl, rfl, adds.one⟩

/-- No string with a value belongs to the freed node. -/
theorem rechain_stays {n f steps : Nat}
    (ends : searchChain t.nextnode (fun _ => false) steps f ≠ none)
    (still : ∀ i s, (t.node i).key = .str s → (t.node i).val ≠ .nil → t.hashstr s ≠ n) :
    rechain n steps t f = .ok t := by
  induction steps generalizing f with
  | zero => exact absurd rfl ends
  | succ steps induction =>
      rw [searchChain, if_neg Bool.false_ne_true] at ends
      rw [rechain]
      cases link : t.nextnode f with
      | none => rfl
      | some nn =>
          rw [link] at ends
          refine (if_neg fun moves => ?_).trans (induction ends)
          split at moves
          · next s isString =>
              rw [Bool.and_eq_true, bne_iff_ne, beq_iff_eq] at moves
              exact still nn s isString moves.1 moves.2
          · cases moves

/-- The key of a node that does not belong there has a node in front of it. -/
theorem Wf.find_front (wf : t.Wf) {n : Nat} (used : (t.node n).key ≠ .nil)
    (away : t.hashkey (t.node n).key ≠ n) :
    ∃ p, t.nextnode p = some n ∧
      searchChain t.nextnode (fun i => t.nextnode i == some n) (t.hmask + 1)
        (t.hashkey (t.node n).key) = some (some p) := by
  have leads := wf.table.reached n _ (TabNode.key?_eq_some.mpr ⟨rfl, used⟩)
  cases search : searchChain t.nextnode (fun i => t.nextnode i == some n) (t.hmask + 1)
      (t.hashkey (t.node n).key) with
  | none =>
      refine absurd search (searchChain_ends wf.table.chains (Finset.range (t.hmask + 1))
        ?_ ?_ ?_)
      · exact Finset.mem_range.mpr (Nat.lt_succ_of_le (t.hashkey_le _))
      · exact fun a b link => Finset.mem_range.mpr (Nat.lt_succ_of_le (wf.next_le link))
      · rw [Finset.card_range]
  | some r =>
      cases r with
      | some p => exact ⟨p, beq_iff_eq.mp (searchChain_found search).2, rfl⟩
      | none =>
          rcases Relation.ReflTransGen.cases_tail leads with same | ⟨b, before, link⟩
          · exact absurd same.symm away
          · have missed := searchChain_missed search before
            rw [link, beq_self_eq_true] at missed
            cases missed

theorem collide_fits (wf : t.Wf) (hashed : t.Hashed k) (absent : ∀ i, (t.node i).key ≠ k)
    (hasNodes : t.hmask ≠ 0) (value : (t.node (t.hashkey k)).val ≠ .nil) {f : Nat}
    (search : t.freenode t.freetop = .some f) :
    ∃ slot t', t.collide (t.hashkey k) f k = .ok (slot, t') ∧ Fits t k slot t' := by
  obtain ⟨lowTop, free, above⟩ := freenode_some search
  have top := wf.top
  have low : f ≤ t.hmask := by omega
  have used : (t.node (t.hashkey k)).key ≠ .nil := fun isNil => value (wf.valued _ isNil)
  have different : f ≠ t.hashkey k := fun same => used (same ▸ free)
  have taken (node : Nat → TabNode) (usedF : (node f).key ≠ .nil)
      (still : ∀ i, (t.node i).key ≠ .nil → (node i).key ≠ .nil) :
      ∀ i, f ≤ i → i ≤ t.hmask → (node i).key ≠ .nil := by
    intro i lowI high
    rcases Nat.lt_or_ge i t.freetop with below | beyond
    · rcases Nat.lt_or_eq_of_le lowI with lowI | rfl
      · exact still i (above i lowI below)
      · exact usedF
    · exact still i (wf.taken hasNodes i beyond high)
  by_cases owns : t.hashkey (t.node (t.hashkey k)).key = t.hashkey k
  · have adds := nodes_behind wf hashed absent free low value owns
    have isKey : (t.nodesBehind k f f).key = k := by
      rw [nodesBehind_apply, if_neg different, if_pos rfl]
    have still (i : Nat) (usedI : (t.node i).key ≠ .nil) : (t.nodesBehind k f i).key ≠ .nil := by
      rw [nodesBehind_apply]
      split
      · exact used
      · split
        · exact hashed.1.ne_nil
        · exact usedI
    have run : t.collide (t.hashkey k) f k =
        .ok (.node f, { t with node := t.nodesBehind k f, freetop := f }) := by
      have nodes : update (update (update t.node f { t.node f with next := t.nextnode (t.hashkey k) })
          (t.hashkey k) { t.node (t.hashkey k) with next := .some f }) f
          { t.node f with next := t.nextnode (t.hashkey k), key := k } = t.nodesBehind k f := by
        funext i
        rw [nodesBehind_apply, update_apply, update_apply, update_apply]
        by_cases isFree : i = f
        · simp [isFree, different]
        · simp [isFree]
      rw [← nodes]
      refine (if_neg (not_not.mpr owns)).trans ?_
      change Except.ok (claim _ f k) = _
      rw [claim_eq, hashed.1.stored]
      simp only [setNext, update_of_ne different, update_of_ne different.symm, update_self]
      rfl
    exact ⟨_, _, run, adds.fits wf hashed absent hasNodes (by omega)
      (taken _ (by rw [isKey]; exact hashed.1.ne_nil) still) isKey⟩
  · obtain ⟨p, front, search'⟩ := wf.find_front used owns
    have adds := nodes_displace wf hashed absent free low value owns front
    have usedP : (t.node p).key ≠ .nil := TabNode.key?_isSome.mp (wf.table.linked p _ front).1
    have notHome : p ≠ t.hashkey k := wf.table.chains.ne front
    have isKey : (t.nodesDisplaced k f p (t.hashkey k)).key = k := by
      rw [nodesDisplaced_apply, if_pos rfl]
    have usedF : (t.nodesDisplaced k f p f).key ≠ .nil := by
      rw [nodesDisplaced_apply, if_neg different, if_pos rfl]
      exact used
    have still (i : Nat) (usedI : (t.node i).key ≠ .nil) : (t.nodesDisplaced k f p i).key ≠ .nil := by
      rw [nodesDisplaced_apply]
      split
      · exact hashed.1.ne_nil
      · split
        · exact used
        · split
          · exact usedP
          · exact usedI
    -- The table before the key is stored in its main node.
    let moved : GCtab :=
      { t with
        node := update (update (update t.node p { t.node p with next := .some f }) f
          (t.node (t.hashkey k))) (t.hashkey k)
          { t.node (t.hashkey k) with next := none, val := .nil }
        freetop := f }
    have nodes : update moved.node (t.hashkey k) { moved.node (t.hashkey k) with key := k } =
        t.nodesDisplaced k f p := by
      simp only [moved, update_self, update_idem]
      rfl
    have nexts : moved.nextnode = fun i => (t.nodesDisplaced k f p i).next := by
      rw [← nodes, next_update]
      exact (update_eq_self _ _).symm
    have stays : rechain (t.hashkey k) (moved.hmask + 1) moved f = .ok moved := by
      apply rechain_stays
      · rw [nexts]
        apply searchChain_ends adds.table.chains (Finset.range (t.hmask + 1))
        · exact Finset.mem_range.mpr (Nat.lt_succ_of_le low)
        · intro a b link
          have usedB := TabNode.key?_isSome.mp (adds.table.linked a b link).2
          by_contra high
          rw [Finset.mem_range] at high
          rw [adds.outside b (by omega)] at usedB
          exact usedB rfl
        · rw [Finset.card_range]
      · intro i s isString valued
        have stored : ∃ j, (t.node j).key = .str s := by
          simp only [moved, update_apply] at isString valued
          split at isString
          · next isHome => simp [isHome] at valued
          · split at isString
            · exact ⟨_, isString⟩
            · split at isString
              · exact ⟨_, isString⟩
              · exact ⟨_, isString⟩
        obtain ⟨j, stored⟩ := stored
        exact wf.table.at_home_of_stranger (TabNode.key?_eq_some.mpr ⟨rfl, used⟩) owns
          (TabNode.key?_eq_some.mpr ⟨stored, by simp⟩)
    have run : t.collide (t.hashkey k) f k =
        .ok (.node (t.hashkey k), { t with node := t.nodesDisplaced k f p, freetop := f }) := by
      refine (if_pos owns).trans ?_
      split
      · next pred search'' =>
          cases (search''.symm.trans search' : some (some pred) = some (some p))
          have sameMain : update t.node p { t.node p with next := .some f } (t.hashkey k) =
              t.node (t.hashkey k) := update_of_ne notHome.symm ..
          have sameTable : ({ t with
              node := update (update (update t.node p { t.node p with next := some f }) f
                (update t.node p { t.node p with next := some f } (t.hashkey k))) (t.hashkey k)
                { update (update t.node p { t.node p with next := some f }) f
                  (update t.node p { t.node p with next := some f } (t.hashkey k)) (t.hashkey k)
                  with next := none, val := .nil }
              freetop := f } : GCtab) = moved := by
            simp only [moved, sameMain, update_of_ne different.symm]
          change (rechain _ (t.hmask + 1) _ f >>= fun t : GCtab => pure (t.claim _ k)) = _
          refine (congrArg (fun t' : GCtab => rechain (t.hashkey k) (t.hmask + 1) t' f >>= fun t' : GCtab =>
            pure (t'.claim (t.hashkey k) k)) sameTable).trans ?_
          refine (congrArg (· >>= fun t' : GCtab => pure (t'.claim (t.hashkey k) k)) stays).trans ?_
          change Except.ok (moved.claim (t.hashkey k) k) = _
          rw [claim_eq, hashed.1.stored, nodes]
      · next missed => exact absurd search' (missed p)
    exact ⟨_, _, run, adds.fits wf hashed absent hasNodes (by omega) (taken _ usedF still) isKey⟩

end GCtab

end TvmJit.Tab
