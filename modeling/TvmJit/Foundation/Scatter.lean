import TvmJit.Foundation.Links

/-! Chained scatter tables without buckets. Every key has a home; it is stored there or on
the chain from there. A place that is used keeps a key, and a key that is stored away from
its home finds a key of the same home in its home. -/

namespace Foundation

open Relation Function

universe u v

variable {α : Type u} {κ : Type v}

/-- Every key stored is on the chain from its home. -/
structure Scattered (home : κ → α) (key : α → Option κ) (next : α → Option α) : Prop where
  chains : Chains next
  linked : ∀ a b, next a = some b → (key a).isSome = true ∧ (key b).isSome = true
  reached : ∀ a k, key a = some k → Leads next (home k) a
  homed : ∀ a k, key a = some k → a ≠ home k → ∃ k', key (home k) = some k' ∧ home k' = home k
  unique : ∀ a b k, key a = some k → key b = some k → a = b

namespace Scattered

variable {home : κ → α} {key : α → Option κ} {next : α → Option α} {k c : κ} {n f p : α}

theorem empty (home : κ → α) : Scattered home (fun _ => none) fun _ => none :=
  ⟨.empty, nofun, nofun, nofun, nofun⟩

theorem unlinked (table : Scattered home key next) (free : key f = none) : Unlinked next f := by
  constructor
  · cases link : next f with
    | none => rfl
    | some b =>
        have isUsed := (table.linked f b link).1
        rw [free] at isUsed
        cases isUsed
  · intro a link
    have isUsed := (table.linked a f link).2
    rw [free] at isUsed
    cases isUsed

/-- No key is stored elsewhere whose home has a key that does not belong there. -/
theorem at_home_of_stranger (table : Scattered home key next) (stranger : key n = some c)
    (away : home c ≠ n) {a : α} (stored : key a = some k) : home k ≠ n := by
  intro isHome
  by_cases atHome : a = home k
  · rw [atHome, isHome, stranger] at stored
    cases stored
    exact away isHome
  · obtain ⟨k', isKey, same⟩ := table.homed a k stored atHome
    rw [isHome, stranger] at isKey
    cases isKey
    exact away (same.trans isHome)

/-- A key that the search from its home does not find is nowhere. -/
theorem absent_of_missed {found : α → Bool} {steps : Nat} (table : Scattered home key next)
    (search : searchChain next found steps (home k) = some none)
    (finds : ∀ a, key a = some k → found a = true) : ∀ a, key a ≠ some k := by
  intro a stored
  have missed := searchChain_missed search (table.reached a k stored)
  rw [finds a stored] at missed
  cases missed

variable [DecidableEq α]

theorem isSome_update (used : (key n).isSome = true ∨ n = f) :
    (update key f (some k) n).isSome = true := by
  by_cases same : n = f
  · rw [same, update_self]
    rfl
  · rw [update_of_ne same]
    exact used.resolve_right same

/-- A new key in its home, over the key that was there. -/
theorem at_home (table : Scattered home key next) (new : ∀ a, key a ≠ some k) :
    Scattered home (update key (home k) (some k)) next where
  chains := table.chains
  linked a b link := by
    have used := table.linked a b link
    exact ⟨isSome_update (.inl used.1), isSome_update (.inl used.2)⟩
  reached a k' stored := by
    by_cases isHome : a = home k
    · rw [isHome, update_self] at stored
      cases stored
      exact isHome ▸ .refl
    · rw [update_of_ne isHome] at stored
      exact table.reached a k' stored
  homed a k' stored away := by
    by_cases isHome : a = home k
    · rw [isHome, update_self] at stored
      cases stored
      exact absurd isHome away
    · rw [update_of_ne isHome] at stored
      obtain ⟨k₂, isKey, same⟩ := table.homed a k' stored away
      by_cases meets : home k' = home k
      · exact ⟨k, by rw [meets, update_self], meets.symm⟩
      · exact ⟨k₂, by rw [update_of_ne meets, isKey], same⟩
  unique a b k' storedA storedB := by
    by_cases homeA : a = home k <;> by_cases homeB : b = home k
    · exact homeA.trans homeB.symm
    · rw [homeA, update_self] at storedA
      cases storedA
      rw [update_of_ne homeB] at storedB
      exact absurd storedB (new b)
    · rw [homeB, update_self] at storedB
      cases storedB
      rw [update_of_ne homeA] at storedA
      exact absurd storedA (new a)
    · rw [update_of_ne homeA] at storedA
      rw [update_of_ne homeB] at storedB
      exact table.unique a b k' storedA storedB

/-- A new key in a free place behind its home. -/
theorem behind_home (table : Scattered home key next) (new : ∀ a, key a ≠ some k) (free : key f = none)
    (owner : key (home k) = some c) (owns : home c = home k) :
    Scattered home (update key f (some k)) (insertAfter next (home k) f) := by
  have unlinked := table.unlinked free
  have different : f ≠ home k := fun same => by
    rw [same, owner] at free
    cases free
  have used {a b : α} (link : insertAfter next (home k) f a = some b) :
      ((key a).isSome = true ∨ a = f) ∧ ((key b).isSome = true ∨ b = f) := by
    by_cases isHome : a = home k
    · rw [isHome, insertAfter_front] at link
      cases link
      exact ⟨.inl (by rw [isHome, owner]; rfl), .inr rfl⟩
    · by_cases isNew : a = f
      · rw [isNew, insertAfter_new different] at link
        exact ⟨.inr isNew, .inl (table.linked _ _ link).2⟩
      · rw [insertAfter_of_ne isHome isNew] at link
        exact ⟨.inl (table.linked _ _ link).1, .inl (table.linked _ _ link).2⟩
  constructor
  · exact table.chains.insertAfter unlinked different
  · exact fun a b link => ⟨isSome_update (used link).1, isSome_update (used link).2⟩
  · intro a k' stored
    by_cases isNew : a = f
    · rw [isNew, update_self] at stored
      cases stored
      exact .single (isNew ▸ insertAfter_front)
    · rw [update_of_ne isNew] at stored
      exact (table.reached a k' stored).insertAfter unlinked different
  · intro a k' stored away
    by_cases isNew : a = f
    · rw [isNew, update_self] at stored
      cases stored
      exact ⟨c, by rw [update_of_ne different.symm, owner], owns⟩
    · rw [update_of_ne isNew] at stored
      obtain ⟨k₂, isKey, same⟩ := table.homed a k' stored away
      have notNew : home k' ≠ f := fun same' => by
        rw [same', free] at isKey
        cases isKey
      exact ⟨k₂, by rw [update_of_ne notNew, isKey], same⟩
  · intro a b k' storedA storedB
    by_cases newA : a = f <;> by_cases newB : b = f
    · exact newA.trans newB.symm
    · rw [newA, update_self] at storedA
      cases storedA
      rw [update_of_ne newB] at storedB
      exact absurd storedB (new b)
    · rw [newB, update_self] at storedB
      cases storedB
      rw [update_of_ne newA] at storedA
      exact absurd storedA (new a)
    · rw [update_of_ne newA] at storedA
      rw [update_of_ne newB] at storedB
      exact table.unique a b k' storedA storedB

/-- A new key in its home. The key there, which does not belong there, moves to a free
place, which takes its place in its chain. -/
theorem displace (table : Scattered home key next) (new : ∀ a, key a ≠ some k) (free : key f = none)
    (stranger : key (home k) = some c) (away : home c ≠ home k) (front : next p = some (home k)) :
    Scattered home (update (update key f (some c)) (home k) (some k))
      (replaceLink next p (home k) f) := by
  have unlinked := table.unlinked free
  have different : f ≠ home k := fun same => by
    rw [same, stranger] at free
    cases free
  have notHome : p ≠ home k := table.chains.ne front
  have notFree : p ≠ f := fun same => by
    rw [same, unlinked.last] at front
    cases front
  -- Where a key is stored now, and where it was.
  have cases (a : α) (k' : κ) (stored : update (update key f (some c)) (home k) (some k) a = some k') :
      (a = home k ∧ k' = k) ∨ (a = f ∧ k' = c) ∨ (a ≠ home k ∧ a ≠ f ∧ key a = some k') := by
    by_cases isHome : a = home k
    · rw [isHome, update_self] at stored
      exact .inl ⟨isHome, (Option.some.inj stored).symm⟩
    · by_cases isFree : a = f
      · rw [update_of_ne isHome, isFree, update_self] at stored
        exact .inr (.inl ⟨isFree, (Option.some.inj stored).symm⟩)
      · rw [update_of_ne isHome, update_of_ne isFree] at stored
        exact .inr (.inr ⟨isHome, isFree, stored⟩)
  have usedOld {a b : α} (link : replaceLink next p (home k) f a = some b) :
      ((key a).isSome = true ∨ a = f) ∧ ((key b).isSome = true ∨ b = f) := by
    by_cases isHome : a = home k
    · rw [isHome, replaceLink_old] at link
      cases link
    · by_cases isFree : a = f
      · rw [isFree, replaceLink_new different] at link
        exact ⟨.inr isFree, .inl (table.linked _ _ link).2⟩
      · by_cases isFront : a = p
        · rw [isFront, replaceLink_front notHome notFree] at link
          cases link
          exact ⟨.inl (isFront ▸ (table.linked _ _ front).1), .inr rfl⟩
        · rw [replaceLink_of_ne isHome isFree isFront] at link
          exact ⟨.inl (table.linked _ _ link).1, .inl (table.linked _ _ link).2⟩
  have notFreeOfHome {a : α} {k' : κ} (stored : key a = some k') : home k' ≠ f := by
    intro same
    by_cases atHome : a = home k'
    · rw [atHome, same, free] at stored
      cases stored
    · obtain ⟨k₂, isKey, -⟩ := table.homed a k' stored atHome
      rw [same, free] at isKey
      cases isKey
  constructor
  · exact table.chains.replaceLink unlinked front
  · intro a b link
    have ⟨usedA, usedB⟩ := usedOld link
    exact ⟨isSome_update (.inl (isSome_update usedA)), isSome_update (.inl (isSome_update usedB))⟩
  · intro a k' stored
    rcases cases a k' stored with ⟨rfl, rfl⟩ | ⟨rfl, rfl⟩ | ⟨notA, _, old⟩
    · exact .refl
    · have moved := (table.reached _ _ stranger).replaceLink table.chains unlinked front away
      rwa [if_pos rfl] at moved
    · have start := table.at_home_of_stranger stranger away old
      have moved := (table.reached a k' old).replaceLink table.chains unlinked front start
      rwa [if_neg notA] at moved
  · intro a k' stored awayK
    rcases cases a k' stored with ⟨rfl, rfl⟩ | ⟨rfl, rfl⟩ | ⟨_, _, old⟩
    · exact absurd rfl awayK
    · obtain ⟨k₂, isKey, same⟩ := table.homed _ _ stranger (Ne.symm away)
      have notFree := notFreeOfHome stranger
      exact ⟨k₂, by rw [update_of_ne away, update_of_ne notFree, isKey], same⟩
    · have start := table.at_home_of_stranger stranger away old
      obtain ⟨k₂, isKey, same⟩ := table.homed a k' old awayK
      exact ⟨k₂, by rw [update_of_ne start, update_of_ne (notFreeOfHome old), isKey], same⟩
  · intro a b k' storedA storedB
    rcases cases a k' storedA with ⟨rfl, rfl⟩ | ⟨rfl, rfl⟩ | ⟨notA, _, oldA⟩ <;>
      rcases cases b _ storedB with ⟨rfl, isK⟩ | ⟨rfl, isK⟩ | ⟨notB, _, oldB⟩
    · rfl
    · exact absurd (stranger.trans (congrArg some isK.symm)) (new _)
    · exact absurd oldB (new b)
    · exact absurd (stranger.trans (congrArg some isK)) (new _)
    · rfl
    · exact absurd (table.unique _ _ _ oldB stranger) notB
    · exact absurd (isK ▸ oldA) (new a)
    · exact absurd (table.unique _ _ _ (isK ▸ oldA) stranger) notA
    · exact table.unique a b k' oldA oldB

end Scattered

end Foundation
