import TvmJit.Foundation.Walk
import Mathlib.Algebra.GroupWithZero.Nat
import Mathlib.Data.Finset.Card
import Mathlib.Data.Fintype.Basic
import Mathlib.Data.List.Nodup

/-! Hash tables whose chains go through a field of the entries. A bucket has the first entry of
its chain, and every entry has the next one. -/

namespace Foundation

open Function

universe u v w

variable {α : Type u} {ι : Type v} {σ : Type w}

/-- The links of the chain of a bucket. -/
def chainLinks (head : α) (next : α → α) : Link α → α
  | none => head
  | some a => next a

def Chain (next : α → α) (null head : α) (entries : List α) : Prop :=
  Walk (chainLinks head next) null none entries

namespace Chain

variable {next next' : α → α} {null head a : α} {entries : List α}

theorem cons_iff : Chain next null head (a :: entries) ↔
    head = a ∧ a ≠ null ∧ Chain next null (next a) entries := by
  have rest : Walk (chainLinks head next) null (some a) entries ↔ Chain next null (next a) entries :=
    ⟨fun walk => walk.congr rfl fun _ _ => rfl, fun walk => walk.congr rfl fun _ _ => rfl⟩
  exact ⟨fun walk => ⟨walk.1, walk.2.1, rest.mp walk.2.2⟩,
    fun chain => ⟨chain.1, chain.2.1, rest.mpr chain.2.2⟩⟩

theorem congr (chain : Chain next null head entries) (same : ∀ b ∈ entries, next' b = next b) :
    Chain next' null head entries :=
  Walk.congr chain rfl same

theorem ne_null (chain : Chain next null head entries) (member : a ∈ entries) : a ≠ null :=
  Walk.ne_null chain member

theorem nodup (chain : Chain next null head entries) : entries.Nodup := Walk.nodup chain

end Chain

section

variable [DecidableEq α]

/-- The entries of a chain, as far as the steps suffice. -/
def collect (next : α → α) (null : α) : Nat → α → List α
  | 0, _ => []
  | steps + 1, p => if p = null then [] else p :: collect next null steps (next p)

theorem Chain.collect_eq {next : α → α} {null head : α} {entries : List α} {steps : Nat}
    (chain : Chain next null head entries) (enough : entries.length < steps) :
    collect next null steps head = entries := by
  induction entries generalizing steps head with
  | nil =>
      obtain ⟨steps, rfl⟩ := Nat.exists_eq_add_one_of_ne_zero (Nat.ne_zero_of_lt enough)
      have field : head = null := chain
      simp [collect, field]
  | cons a entries induction =>
      obtain ⟨steps, rfl⟩ := Nat.exists_eq_add_one_of_ne_zero (Nat.ne_zero_of_lt enough)
      obtain ⟨rfl, notNull, rest⟩ := Chain.cons_iff.mp chain
      rw [collect, if_neg notNull, induction rest (Nat.lt_of_succ_lt_succ enough)]

theorem Chain.push {next : α → α} {null head a : α} {entries : List α}
    (chain : Chain next null head entries) (notNull : a ≠ null) (new : a ∉ entries) :
    Chain (update next a head) null a (a :: entries) := by
  refine cons_iff.mpr ⟨rfl, notNull, ?_⟩
  rw [update_self]
  apply chain.congr
  intro b member
  apply update_of_ne
  rintro rfl
  exact new member

/-! ## Loops that take a chain apart -/

/-- A loop along a chain, `while (p) { q = p->next; step(p); p = q; }`. It has no result when
the steps do not suffice. -/
def drain (next : σ → α → α) (null : α) (step : σ → α → σ) : Nat → α → σ → Option σ
  | 0, _, _ => none
  | steps + 1, p, s =>
      if p = null then some s else drain next null step steps (next s p) (step s p)

/-- A step on one entry leaves the chain behind it as it is. -/
theorem drain_eq {next : σ → α → α} {null : α} {step : σ → α → σ}
    (frame : ∀ s a b, a ≠ b → next (step s a) b = next s b) {entries : List α} {steps : Nat} {p : α}
    {s : σ} (chain : Chain (next s) null p entries) (enough : entries.length < steps) :
    drain next null step steps p s = some (entries.foldl step s) := by
  induction entries generalizing steps p s with
  | nil =>
      obtain ⟨steps, rfl⟩ := Nat.exists_eq_add_one_of_ne_zero (Nat.ne_zero_of_lt enough)
      have field : p = null := chain
      simp [drain, field]
  | cons a entries induction =>
      obtain ⟨steps, rfl⟩ := Nat.exists_eq_add_one_of_ne_zero (Nat.ne_zero_of_lt enough)
      have first := chain.nodup
      obtain ⟨rfl, notNull, rest⟩ := Chain.cons_iff.mp chain
      rw [drain, if_neg notNull, List.foldl_cons]
      refine induction (rest.congr fun b member => frame s p b ?_) (Nat.lt_of_succ_lt_succ enough)
      rintro rfl
      exact (List.nodup_cons.mp first).1 member

end

/-! ## Tables -/

/-- The chains of a table go through the entries of their buckets. -/
structure Buckets (heads : ι → α) (next : α → α) (null : α) (bucket : α → ι) (entries : α → Prop)
    (lists : ι → List α) : Prop where
  chain : ∀ i, Chain next null (heads i) (lists i)
  listed : ∀ i a, a ∈ lists i ↔ entries a ∧ bucket a = i

namespace Buckets

variable {heads : ι → α} {next : α → α} {null a : α} {bucket bucket' : α → ι} {entries : α → Prop}
  {lists : ι → List α} {i : ι} {before after : List α}

theorem empty (next : α → α) (null : α) (bucket : α → ι) :
    Buckets (fun _ => null) next null bucket (fun _ => False) fun _ => [] where
  chain _ := rfl
  listed _ _ := by simp

theorem congr (buckets : Buckets heads next null bucket entries lists) {heads' : ι → α} {next' : α → α}
    {entries' : α → Prop} (sameHeads : ∀ i, heads' i = heads i)
    (sameNext : ∀ a, entries a → next' a = next a) (sameBucket : ∀ a, entries a → bucket' a = bucket a)
    (sameEntries : ∀ a, entries' a ↔ entries a) :
    Buckets heads' next' null bucket' entries' lists where
  chain i := by
    rw [sameHeads]
    exact (buckets.chain i).congr fun a member => sameNext a ((buckets.listed i a).mp member).1
  listed i a := by
    rw [buckets.listed, sameEntries]
    refine and_congr_right fun isEntry => ?_
    rw [sameBucket a isEntry]

theorem mem (buckets : Buckets heads next null bucket entries lists) (isEntry : entries a) :
    a ∈ lists (bucket a) :=
  (buckets.listed _ a).mpr ⟨isEntry, rfl⟩

theorem ne_null (buckets : Buckets heads next null bucket entries lists) (isEntry : entries a) :
    a ≠ null :=
  (buckets.chain _).ne_null (buckets.mem isEntry)

/-- The lists of some buckets, one after the other, have no entry twice. -/
theorem nodup_flatMap (buckets : Buckets heads next null bucket entries lists) {is : List ι}
    (nodup : is.Nodup) : (is.flatMap lists).Nodup := by
  refine List.nodup_flatMap.mpr ⟨fun i _ => (buckets.chain i).nodup, ?_⟩
  refine nodup.imp fun {i j} ne a first second => ne ?_
  exact ((buckets.listed i a).mp first).2.symm.trans ((buckets.listed j a).mp second).2

theorem mem_flatMap (buckets : Buckets heads next null bucket entries lists) {is : List ι}
    (all : ∀ a, entries a → bucket a ∈ is) (a : α) : a ∈ is.flatMap lists ↔ entries a := by
  rw [List.mem_flatMap]
  constructor
  · rintro ⟨i, -, member⟩
    exact ((buckets.listed i a).mp member).1
  · exact fun isEntry => ⟨bucket a, all a isEntry, buckets.mem isEntry⟩

/-- The lengths of all chains together count the entries. -/
theorem sum_length [Fintype α] [DecidableEq α] [DecidablePred entries]
    (buckets : Buckets heads next null bucket entries lists) {is : List ι} (nodup : is.Nodup)
    (all : ∀ a, entries a → bucket a ∈ is) :
    (is.map fun i => (lists i).length).sum = (Finset.univ.filter entries).card := by
  have same : (is.flatMap lists).toFinset = Finset.univ.filter entries := by
    ext a
    rw [List.mem_toFinset, buckets.mem_flatMap all]
    simp
  rw [← same, List.toFinset_card_of_nodup (buckets.nodup_flatMap nodup), List.length_flatMap]

section

variable [DecidableEq α] [DecidableEq ι]

/-- A new entry is the first of its chain. -/
theorem push (buckets : Buckets heads next null bucket entries lists) (notNull : a ≠ null)
    (new : ¬entries a) :
    Buckets (update heads (bucket a) a) (update next a (heads (bucket a))) null bucket
      (fun b => b = a ∨ entries b) (update lists (bucket a) (a :: lists (bucket a))) where
  chain i := by
    have notHere (j : ι) : a ∉ lists j := fun member => new ((buckets.listed j a).mp member).1
    by_cases same : i = bucket a
    · subst same
      rw [update_self, update_self]
      exact (buckets.chain _).push notNull (notHere _)
    · rw [update_of_ne same, update_of_ne same]
      apply (buckets.chain i).congr
      intro b member
      apply update_of_ne
      rintro rfl
      exact notHere i member
  listed i b := by
    by_cases same : i = bucket a
    · subst same
      rw [update_self, List.mem_cons, buckets.listed]
      grind
    · rw [update_of_ne same, buckets.listed]
      grind

/-- The chain of a bucket leads past one of its entries. -/
def relink (heads : ι → α) (next : α → α) (i : ι) (link : Link α) (a : α) : (ι → α) × (α → α) :=
  match link with
  | none => (update heads i a, next)
  | some b => (heads, update next b a)

theorem relink_links (heads : ι → α) (next : α → α) (i : ι) (link : Link α) (a : α) :
    chainLinks ((relink heads next i link a).1 i) (relink heads next i link a).2 =
      update (chainLinks (heads i) next) link a := by
  funext p
  cases link with
  | none =>
      cases p with
      | none => simp [relink, chainLinks]
      | some b => rfl
  | some c =>
      cases p with
      | none => rfl
      | some b => simp [relink, chainLinks, update_apply]

theorem remove (buckets : Buckets heads next null bucket entries lists)
    (split : lists i = before ++ a :: after) :
    Buckets (relink heads next i (lastLink none before) (next a)).1
      (relink heads next i (lastLink none before) (next a)).2 null bucket
      (fun b => b ≠ a ∧ entries b) (update lists i (before ++ after)) where
  chain j := by
    have walk := buckets.chain i
    rw [split] at walk
    by_cases same : j = i
    · subst same
      rw [update_self, Chain, relink_links]
      exact Walk.remove walk
    · rw [update_of_ne same]
      have other (b : α) (member : b ∈ lists j) : b ∉ before := by
        intro here
        have first := ((buckets.listed i b).mp (by simp [split, here])).2
        exact same (((buckets.listed j b).mp member).2.symm.trans first)
      cases last : lastLink none before with
      | none =>
          change Chain next null (update heads i (next a) j) (lists j)
          rw [update_of_ne same]
          exact buckets.chain j
      | some c =>
          apply (buckets.chain j).congr
          intro b member
          apply update_of_ne
          rintro rfl
          exact other b member (mem_of_lastLink last)
  listed j b := by
    have nodup := (buckets.chain i).nodup
    rw [split] at nodup
    by_cases same : j = i
    · subst same
      have listed := buckets.listed j b
      rw [split] at listed
      rw [update_self]
      grind [List.nodup_append, List.nodup_cons]
    · rw [update_of_ne same, buckets.listed]
      have aHere := ((buckets.listed i a).mp (by simp [split])).2
      grind

end

/-! ## Rehashing -/

variable [DecidableEq α] [DecidableEq ι]

/-- An entry is put in front of its chain. -/
def pushEntry (bucket : α → ι) (table : (ι → α) × (α → α)) (a : α) : (ι → α) × (α → α) :=
  (update table.1 (bucket a) a, update table.2 a (table.1 (bucket a)))

theorem pushAll {entries : List α} {old : α → Prop}
    (buckets : Buckets heads next null bucket old lists) (nodup : entries.Nodup)
    (notNull : ∀ a ∈ entries, a ≠ null) (new : ∀ a ∈ entries, ¬old a) :
    ∃ lists', Buckets (entries.foldl (pushEntry bucket) (heads, next)).1
      (entries.foldl (pushEntry bucket) (heads, next)).2 null bucket
      (fun b => b ∈ entries ∨ old b) lists' := by
  induction entries generalizing heads next old lists with
  | nil =>
      refine ⟨lists, buckets.congr (fun _ => rfl) (fun _ _ => rfl) (fun _ _ => rfl) fun a => ?_⟩
      simp
  | cons a entries induction =>
      obtain ⟨notHere, nodup⟩ := List.nodup_cons.mp nodup
      obtain ⟨aNotNull, notNull⟩ := List.forall_mem_cons.mp notNull
      obtain ⟨aNew, new⟩ := List.forall_mem_cons.mp new
      have pushed := buckets.push aNotNull aNew
      have stillNew : ∀ b ∈ entries, ¬(b = a ∨ old b) := by
        rintro b member (rfl | isOld)
        · exact notHere member
        · exact new b member isOld
      obtain ⟨lists', all⟩ := induction pushed nodup notNull stillNew
      refine ⟨lists', all.congr (fun _ => rfl) (fun _ _ => rfl) (fun _ _ => rfl) fun b => ?_⟩
      rw [List.mem_cons]
      tauto

/-- All entries put one after the other into an empty table are its entries. -/
theorem rehash (buckets : Buckets heads next null bucket entries lists) {is : List ι}
    (nodup : is.Nodup) (all : ∀ a, entries a → bucket a ∈ is) (bucket' : α → ι) :
    ∃ lists',
      Buckets ((is.flatMap lists).foldl (pushEntry bucket') (fun _ => null, next)).1
        ((is.flatMap lists).foldl (pushEntry bucket') (fun _ => null, next)).2 null bucket' entries
        lists' := by
  have members := buckets.mem_flatMap all
  obtain ⟨lists', full⟩ := (empty next null bucket').pushAll (buckets.nodup_flatMap nodup)
    (fun a member => buckets.ne_null ((members a).mp member)) fun _ _ => id
  refine ⟨lists', full.congr (fun _ => rfl) (fun _ _ => rfl) (fun _ _ => rfl) fun a => ?_⟩
  rw [members, or_false]

end Buckets

end Foundation
