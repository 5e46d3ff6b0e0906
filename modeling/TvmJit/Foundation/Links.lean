import Mathlib.Logic.Relation
import Mathlib.Data.Finset.Card

/-! Singly linked chains of places. A place has at most one successor; chains neither
meet nor come back to themselves, so that a place can be put behind another one, or take
its place, without cutting off the places behind it. -/

namespace Foundation

open Relation Function

universe u

variable {α : Type u}

/-- Place `b` is on the chain from `a`. -/
def Leads (next : α → Option α) : α → α → Prop :=
  ReflTransGen fun a b => next a = some b

/-- No two places have the same successor and no chain comes back. -/
structure Chains (next : α → Option α) : Prop where
  injective : ∀ a b c, next a = some c → next b = some c → a = b
  ranked : ∃ rank : α → Nat, ∀ a b, next a = some b → rank b < rank a

/-- Nothing is in front of the place and nothing behind it. -/
structure Unlinked (next : α → Option α) (f : α) : Prop where
  last : next f = none
  first : ∀ a, next a ≠ some f

theorem Chains.empty : Chains fun _ : α => none :=
  ⟨nofun, fun _ => 0, nofun⟩

theorem Chains.ne {next : α → Option α} (chains : Chains next) {a b : α} (link : next a = some b) :
    a ≠ b := by
  rintro rfl
  obtain ⟨rank, decreases⟩ := chains.ranked
  exact Nat.lt_irrefl _ (decreases a a link)

section

variable [DecidableEq α] {next : α → Option α} {n p f : α}

/-! ## A place put behind another one -/

def insertAfter (next : α → Option α) (n f : α) : α → Option α :=
  update (update next f (next n)) n (some f)

theorem insertAfter_of_ne {a : α} (notN : a ≠ n) (notF : a ≠ f) : insertAfter next n f a = next a := by
  rw [insertAfter, update_of_ne notN, update_of_ne notF]

theorem insertAfter_front : insertAfter next n f n = some f := update_self ..

theorem insertAfter_new (different : f ≠ n) : insertAfter next n f f = next n := by
  rw [insertAfter, update_of_ne different, update_self]

theorem Chains.insertAfter (chains : Chains next) (unlinked : Unlinked next f) (different : f ≠ n) :
    Chains (insertAfter next n f) where
  injective a b c linkA linkB := by
    have cases (a : α) (link : Foundation.insertAfter next n f a = some c) :
        (a = n ∧ c = f) ∨ (a = f ∧ next n = some c) ∨ (a ≠ n ∧ a ≠ f ∧ next a = some c) := by
      by_cases isN : a = n
      · rw [isN, insertAfter_front] at link
        exact .inl ⟨isN, (Option.some.inj link).symm⟩
      · by_cases isF : a = f
        · rw [isF, insertAfter_new different] at link
          exact .inr (.inl ⟨isF, link⟩)
        · rw [insertAfter_of_ne isN isF] at link
          exact .inr (.inr ⟨isN, isF, link⟩)
    rcases cases a linkA with ⟨rfl, rfl⟩ | ⟨rfl, link⟩ | ⟨notN, notF, link⟩ <;>
      rcases cases b linkB with ⟨rfl, isC⟩ | ⟨rfl, link'⟩ | ⟨notN', notF', link'⟩
    · rfl
    · exact absurd link' (unlinked.first _)
    · exact absurd link' (unlinked.first _)
    · exact absurd (isC ▸ link) (unlinked.first _)
    · rfl
    · exact absurd (chains.injective _ _ _ link link') notN'.symm
    · exact absurd (isC ▸ link) (unlinked.first _)
    · exact absurd (chains.injective _ _ _ link link') notN
    · exact chains.injective _ _ _ link link'
  ranked := by
    obtain ⟨rank, decreases⟩ := chains.ranked
    -- Doubling the ranks makes room for the new place between its neighbours.
    refine ⟨fun a => if a = f then 2 * rank n else 2 * rank a + 1, fun a b link => ?_⟩
    by_cases isN : a = n
    · rw [isN, insertAfter_front] at link
      cases link
      simp [isN, different.symm]
    · by_cases isF : a = f
      · rw [isF, insertAfter_new different] at link
        have notF : b ≠ f := fun same => unlinked.first n (same ▸ link)
        have lower := decreases n b link
        simp only [if_pos isF, if_neg notF]
        omega
      · rw [insertAfter_of_ne isN isF] at link
        have notF : b ≠ f := fun same => unlinked.first a (same ▸ link)
        have lower := decreases a b link
        simp only [if_neg isF, if_neg notF]
        omega

theorem Leads.insertAfter (unlinked : Unlinked next f) (different : f ≠ n) {a b : α}
    (leads : Leads next a b) : Leads (insertAfter next n f) a b := by
  induction leads with
  | refl => exact .refl
  | @tail b c _ link induction =>
      have notF : b ≠ f := by
        rintro rfl
        rw [unlinked.last] at link
        cases link
      by_cases isN : b = n
      · have front : Foundation.insertAfter next n f b = some f := isN ▸ insertAfter_front
        have behind : Foundation.insertAfter next n f f = some c := by
          rw [insertAfter_new different, ← isN, link]
        exact (induction.tail front).tail behind
      · exact induction.tail ((insertAfter_of_ne isN notF).trans link)

/-! ## A place taking the place of another one -/

/-- Place `f` takes the place of `n`, which is behind `p`. -/
def replaceLink (next : α → Option α) (p n f : α) : α → Option α :=
  update (update (update next p (some f)) f (next n)) n none

theorem replaceLink_of_ne {a : α} (notN : a ≠ n) (notF : a ≠ f) (notP : a ≠ p) :
    replaceLink next p n f a = next a := by
  rw [replaceLink, update_of_ne notN, update_of_ne notF, update_of_ne notP]

theorem replaceLink_old : replaceLink next p n f n = none := update_self ..

theorem replaceLink_new (different : f ≠ n) : replaceLink next p n f f = next n := by
  rw [replaceLink, update_of_ne different, update_self]

theorem replaceLink_front (notN : p ≠ n) (notF : p ≠ f) : replaceLink next p n f p = some f := by
  rw [replaceLink, update_of_ne notN, update_of_ne notF, update_self]

theorem Chains.replaceLink (chains : Chains next) (unlinked : Unlinked next f)
    (front : next p = some n) : Chains (replaceLink next p n f) := by
  have notN : p ≠ n := chains.ne front
  have notF : p ≠ f := fun same => by
    rw [same, unlinked.last] at front
    cases front
  have different : f ≠ n := fun same => unlinked.first p (same ▸ front)
  have cases (a c : α) (link : Foundation.replaceLink next p n f a = some c) :
      (a = p ∧ c = f) ∨ (a = f ∧ next n = some c) ∨
        (a ≠ p ∧ a ≠ f ∧ a ≠ n ∧ next a = some c) := by
    by_cases isN : a = n
    · rw [isN, replaceLink_old] at link
      cases link
    · by_cases isF : a = f
      · rw [isF, replaceLink_new different] at link
        exact .inr (.inl ⟨isF, link⟩)
      · by_cases isP : a = p
        · rw [isP, replaceLink_front notN notF] at link
          exact .inl ⟨isP, (Option.some.inj link).symm⟩
        · rw [replaceLink_of_ne isN isF isP] at link
          exact .inr (.inr ⟨isP, isF, isN, link⟩)
  refine ⟨fun a b c linkA linkB => ?_, ?_⟩
  · rcases cases a c linkA with ⟨rfl, rfl⟩ | ⟨rfl, link⟩ | ⟨notP, _, isOther, link⟩ <;>
      rcases cases b c linkB with ⟨rfl, isC⟩ | ⟨rfl, link'⟩ | ⟨notP', _, isOther', link'⟩
    · rfl
    · exact absurd link' (unlinked.first _)
    · exact absurd link' (unlinked.first _)
    · exact absurd (isC ▸ link) (unlinked.first _)
    · rfl
    · exact absurd (chains.injective _ _ _ link link') isOther'.symm
    · exact absurd (isC ▸ link) (unlinked.first _)
    · exact absurd (chains.injective _ _ _ link link') isOther
    · exact chains.injective _ _ _ link link'
  · obtain ⟨rank, decreases⟩ := chains.ranked
    refine ⟨fun a => if a = f then rank n else rank a, fun a b link => ?_⟩
    rcases cases a b link with ⟨isP, isF⟩ | ⟨isF, behind⟩ | ⟨_, isF, _, link⟩
    · simpa [isP, isF, notF] using decreases p n front
    · have notF' : b ≠ f := fun same => unlinked.first n (same ▸ behind)
      simpa [isF, notF'] using decreases n b behind
    · have notF' : b ≠ f := fun same => unlinked.first a (same ▸ link)
      simpa [isF, notF'] using decreases a b link

/-- What was behind the place is behind the new one. -/
theorem Leads.replaceLink (chains : Chains next) (unlinked : Unlinked next f)
    (front : next p = some n) {a b : α} (leads : Leads next a b) (start : a ≠ n) :
    Leads (replaceLink next p n f) a (if b = n then f else b) := by
  have notN : p ≠ n := chains.ne front
  have notF : p ≠ f := fun same => by
    rw [same, unlinked.last] at front
    cases front
  have different : f ≠ n := fun same => unlinked.first p (same ▸ front)
  induction leads with
  | refl =>
      rw [if_neg start]
      exact .refl
  | @tail b c _ link induction =>
      have isLinked : b ≠ f := by
        rintro rfl
        rw [unlinked.last] at link
        cases link
      by_cases isN : b = n
      · have other : c ≠ n := fun same => chains.ne link (isN.trans same.symm)
        have behind : Foundation.replaceLink next p n f f = some c := by
          rw [replaceLink_new different, ← isN, link]
        rw [if_pos isN] at induction
        rw [if_neg other]
        exact induction.tail behind
      · rw [if_neg isN] at induction
        by_cases isP : b = p
        · rw [isP, front] at link
          cases link
          rw [isP] at induction
          rw [if_pos rfl]
          exact induction.tail (replaceLink_front notN notF)
        · have other : c ≠ n := fun same => isP (chains.injective _ _ _ (same ▸ link) front)
          rw [if_neg other]
          exact induction.tail ((replaceLink_of_ne isN isLinked isP).trans link)

end

/-! ## Search -/

/-- The first place found on the chain from `a`, looking at no more than `steps` places. -/
def searchChain (next : α → Option α) (found : α → Bool) : Nat → α → Option (Option α)
  | 0, _ => none
  | steps + 1, a =>
      if found a then some (some a)
      else
        match next a with
        | none => some none
        | some b => searchChain next found steps b

section

variable {next : α → Option α} {found : α → Bool} {steps : Nat} {a b : α}

theorem searchChain_found (search : searchChain next found steps a = some (some b)) :
    Leads next a b ∧ found b = true := by
  induction steps generalizing a with
  | zero => cases search
  | succ steps induction =>
      rw [searchChain] at search
      split at search
      · next isFound =>
          cases search
          exact ⟨.refl, isFound⟩
      · cases link : next a with
        | none =>
            rw [link] at search
            cases search
        | some c =>
            rw [link] at search
            exact ⟨.head link (induction search).1, (induction search).2⟩

theorem searchChain_missed (search : searchChain next found steps a = some none)
    (leads : Leads next a b) : found b = false := by
  induction steps generalizing a with
  | zero => cases search
  | succ steps induction =>
      rw [searchChain] at search
      split at search
      · cases search
      · next notFound =>
          rcases ReflTransGen.cases_head leads with rfl | ⟨c, link, rest⟩
          · simpa using notFound
          · rw [link] at search
            exact induction search rest

/-- A search that used up its steps has seen that many places, and another one. -/
theorem searchChain_unfinished {rank : α → Nat} (decreases : ∀ a b, next a = some b → rank b < rank a)
    (search : searchChain next found steps a = none) :
    ∃ seen : List α, seen.length = steps + 1 ∧ seen.Nodup ∧
      ∀ c ∈ seen, Leads next a c ∧ rank c ≤ rank a := by
  induction steps generalizing a with
  | zero => exact ⟨[a], rfl, List.nodup_singleton a, by simp [Leads, ReflTransGen.refl]⟩
  | succ steps induction =>
      rw [searchChain] at search
      split at search
      · cases search
      · cases link : next a with
        | none =>
            rw [link] at search
            cases search
        | some b =>
            rw [link] at search
            obtain ⟨seen, count, nodup, below⟩ := induction search
            have lower := decreases a b link
            have new : a ∉ seen := fun member => by
              have := (below a member).2
              omega
            refine ⟨a :: seen, by rw [List.length_cons, count], List.nodup_cons.mpr ⟨new, nodup⟩, ?_⟩
            intro c member
            rcases List.mem_cons.mp member with rfl | member
            · exact ⟨.refl, le_rfl⟩
            · have ⟨leads, lowerC⟩ := below c member
              exact ⟨.head link leads, by omega⟩

/-- As many steps as there are places are enough. -/
theorem searchChain_ends [DecidableEq α] (chains : Chains next) (places : Finset α)
    (start : a ∈ places) (within : ∀ a b, next a = some b → b ∈ places)
    (enough : places.card ≤ steps) : searchChain next found steps a ≠ none := by
  intro search
  obtain ⟨rank, decreases⟩ := chains.ranked
  obtain ⟨seen, count, nodup, below⟩ := searchChain_unfinished decreases search
  have inside : seen.toFinset ⊆ places := by
    intro c member
    have leads := (below c (List.mem_toFinset.mp member)).1
    rcases ReflTransGen.cases_tail leads with rfl | ⟨b, -, link⟩
    · exact start
    · exact within b c link
  have bound := Finset.card_le_card inside
  rw [List.toFinset_card_of_nodup nodup, count] at bound
  omega

end

end Foundation
