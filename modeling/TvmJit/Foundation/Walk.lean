import Mathlib.Logic.Function.Basic
import Mathlib.Data.List.Basic

/-! Lists in memory as C programs keep them. A list starts at a head field and every place
has a field for the next one; a null place ends it. A link is one of these fields, the head
or the next field of a place, and programs hold pointers to links to put a place in or to
take one out. -/

namespace Foundation

open Function

universe u v

variable {α : Type u} {β : Type v}

/-- The head field is `none`; the next field of place `a` is `some a`. -/
abbrev Link (α : Type u) := Option α

/-- From the link, the fields lead through the places of the list and then to null. -/
def Walk (links : Link α → α) (null : α) : Link α → List α → Prop
  | link, [] => links link = null
  | link, a :: rest => links link = a ∧ a ≠ null ∧ Walk links null (some a) rest

/-- The link behind the places of the list. -/
def lastLink : Link α → List α → Link α
  | link, [] => link
  | _, a :: rest => lastLink (some a) rest

section

variable {links links' : Link α → α} {null : α} {link : Link α} {before after : List α} {a : α}

theorem lastLink_append (link : Link α) (before after : List α) :
    lastLink link (before ++ after) = lastLink (lastLink link before) after := by
  induction before generalizing link with
  | nil => rfl
  | cons a before induction => exact induction (some a)

theorem lastLink_eq (link : Link α) (places : List α) :
    lastLink link places = link ∨ ∃ a ∈ places, lastLink link places = some a := by
  induction places generalizing link with
  | nil => exact .inl rfl
  | cons a places induction =>
      rcases induction (some a) with same | ⟨b, member, same⟩
      · exact .inr ⟨a, List.mem_cons_self, same⟩
      · exact .inr ⟨b, List.mem_cons_of_mem _ member, same⟩

theorem lastLink_ne_some (notHere : a ∉ before) (notLink : link ≠ some a) :
    lastLink link before ≠ some a := by
  rcases lastLink_eq link before with same | ⟨b, member, same⟩ <;> rw [same]
  · exact notLink
  · rintro ⟨⟩
    exact notHere member

theorem mem_of_lastLink (last : lastLink none before = some a) : a ∈ before := by
  rcases lastLink_eq none before with same | ⟨b, member, same⟩
  · rw [same] at last
    cases last
  · obtain rfl : b = a := Option.some.inj (same.symm.trans last)
    exact member

namespace Walk

theorem congr {link' : Link α} (walk : Walk links null link before)
    (here : links' link' = links link) (behind : ∀ a ∈ before, links' (some a) = links (some a)) :
    Walk links' null link' before := by
  induction before generalizing link link' with
  | nil => exact here.trans walk
  | cons a before induction =>
      obtain ⟨field, notNull, rest⟩ := walk
      exact ⟨here.trans field, notNull, induction rest (behind a List.mem_cons_self)
        fun b member => behind b (List.mem_cons_of_mem _ member)⟩

theorem unique (walk : Walk links null link before) (other : Walk links null link after) :
    before = after := by
  induction before generalizing link after with
  | nil =>
      cases after with
      | nil => rfl
      | cons b after => exact absurd (other.1.symm.trans walk) other.2.1
  | cons a before induction =>
      cases after with
      | nil => exact absurd (walk.1.symm.trans other) walk.2.1
      | cons b after =>
          obtain rfl : a = b := walk.1.symm.trans other.1
          rw [induction walk.2.2 other.2.2]

theorem ne_null (walk : Walk links null link before) (member : a ∈ before) : a ≠ null := by
  induction before generalizing link with
  | nil => cases member
  | cons b before induction =>
      rcases List.mem_cons.mp member with rfl | member
      · exact walk.2.1
      · exact induction walk.2.2 member

theorem behind (walk : Walk links null link (before ++ after)) :
    Walk links null (lastLink link before) after := by
  induction before generalizing link with
  | nil => exact walk
  | cons a before induction => exact induction walk.2.2

/-- A place met again would be followed by two different lists. -/
theorem not_mem (walk : Walk links null (some a) after) : a ∉ after := by
  intro member
  obtain ⟨first, last, rfl⟩ := List.append_of_mem member
  have again : Walk links null (some a) last := (walk.behind ).2.2
  have longer := congrArg List.length (walk.unique again)
  simp only [List.length_append, List.length_cons] at longer
  omega

theorem nodup (walk : Walk links null link before) : before.Nodup := by
  induction before generalizing link with
  | nil => exact List.nodup_nil
  | cons a before induction =>
      exact List.nodup_cons.mpr ⟨walk.2.2.not_mem, induction walk.2.2⟩

theorem ne_lastLink (walk : Walk links null link (a :: before ++ after)) :
    link ≠ lastLink (some a) before := by
  rintro same
  rcases lastLink_eq (some a) before with last | ⟨b, member, last⟩ <;>
    rw [last] at same <;> subst same
  · exact walk.not_mem List.mem_cons_self
  · exact walk.not_mem (List.mem_cons_of_mem _ (List.mem_append_left _ member))

/-- The link behind the first places is not in a later place. -/
theorem some_ne_lastLink (walk : Walk links null link (before ++ after)) (member : a ∈ after) :
    some a ≠ lastLink link before := by
  obtain ⟨first, last, rfl⟩ := List.append_of_mem member
  rintro same
  have walk : Walk links null (some a) (first ++ a :: last) := by
    rw [same]
    exact walk.behind
  exact walk.not_mem (by simp)

/-- What follows the first places of a list is exchanged. -/
theorem rejoin (walk : Walk links null link (before ++ after))
    (frame : ∀ p, p ≠ lastLink link before → p = link ∨ (∃ b ∈ before, p = some b) →
      links' p = links p)
    {after' : List α} (rest : Walk links' null (lastLink link before) after') :
    Walk links' null link (before ++ after') := by
  induction before generalizing link with
  | nil => exact rest
  | cons b before induction =>
      refine ⟨(frame link walk.ne_lastLink (.inl rfl)).trans walk.1, walk.2.1,
        induction walk.2.2 ?_ rest⟩
      rintro p notLast (rfl | ⟨c, member, rfl⟩)
      · exact frame _ notLast (.inr ⟨b, List.mem_cons_self, rfl⟩)
      · exact frame _ notLast (.inr ⟨c, List.mem_cons_of_mem _ member, rfl⟩)

end Walk

/-! ## Places put in and taken out -/

section

variable [DecidableEq α]

/-- Another place in front of what the link leads to. -/
def insertAt (links : Link α → α) (link : Link α) (a : α) : Link α → α :=
  update (update links (some a) (links link)) link a

/-- The link leads past the place it led to. -/
def removeAt (links : Link α → α) (link : Link α) (a : α) : Link α → α :=
  update links link (links (some a))

theorem insertAt_link (links : Link α → α) (link : Link α) (a : α) :
    insertAt links link a link = a := update_self ..

theorem insertAt_place (links : Link α → α) (notHere : some a ≠ link) :
    insertAt links link a (some a) = links link := by
  rw [insertAt, update_of_ne notHere, update_self]

theorem insertAt_of_ne (links : Link α → α) {p : Link α} (notHere : p ≠ link) (notPlace : p ≠ some a) :
    insertAt links link a p = links p := by
  rw [insertAt, update_of_ne notHere, update_of_ne notPlace]

theorem removeAt_link (links : Link α → α) (link : Link α) (a : α) :
    removeAt links link a link = links (some a) := update_self ..

theorem removeAt_of_ne (links : Link α → α) {p : Link α} (notHere : p ≠ link) :
    removeAt links link a p = links p := update_of_ne notHere ..

namespace Walk

theorem insert (walk : Walk links null link (before ++ after)) (notNull : a ≠ null)
    (notLink : link ≠ some a) (new : a ∉ before ++ after) :
    Walk (insertAt links (lastLink link before) a) null link (before ++ a :: after) := by
  simp only [List.mem_append, not_or] at new
  have notLast : some a ≠ lastLink link before := (lastLink_ne_some new.1 notLink).symm
  refine walk.rejoin (fun p notLast among => insertAt_of_ne links notLast ?_)
    ⟨insertAt_link .., notNull, ?_⟩
  · rcases among with rfl | ⟨b, member, rfl⟩
    · exact notLink
    · rintro ⟨⟩
      exact new.1 member
  · cases after with
    | nil => exact (insertAt_place links notLast).trans walk.behind
    | cons b after =>
        obtain ⟨field, bNotNull, rest⟩ := walk.behind
        refine ⟨(insertAt_place links notLast).trans field, bNotNull, rest.congr ?_ ?_⟩
        · exact insertAt_of_ne links (walk.some_ne_lastLink List.mem_cons_self) (by grind)
        · intro c member
          exact insertAt_of_ne links (walk.some_ne_lastLink (List.mem_cons_of_mem _ member)) (by grind)

theorem remove (walk : Walk links null link (before ++ a :: after)) :
    Walk (removeAt links (lastLink link before) a) null link (before ++ after) := by
  refine walk.rejoin (fun p notLast _ => removeAt_of_ne links notLast) ?_
  have rest := walk.behind.2.2
  cases after with
  | nil => exact (removeAt_link ..).trans rest
  | cons b after =>
      obtain ⟨field, notNull, rest⟩ := rest
      refine ⟨(removeAt_link ..).trans field, notNull, rest.congr ?_ ?_⟩
      · exact removeAt_of_ne links (walk.some_ne_lastLink (by simp))
      · intro c member
        exact removeAt_of_ne links (walk.some_ne_lastLink (by simp [member]))

end Walk

end

/-! ## Loops along a list -/

/-- Where a loop along a list comes to its end: at a link it does not follow, or at a place
that decides the matter, with the link to it. -/
inductive Found (α : Type u) (δ : Type v)
  | ended (link : Link α)
  | hit (link : Link α) (place : α) (result : δ)
  deriving DecidableEq

/-- A loop along a list, `while (more(a = *link)) { decide(a); link = &a->next; }`. It has no
result when the steps do not suffice. -/
def follow {δ : Type v} (links : Link α → α) (more : α → Bool) (decide : α → Option δ) :
    Nat → Link α → Option (Found α δ)
  | 0, _ => none
  | steps + 1, link =>
      if more (links link) then
        match decide (links link) with
        | some result => some (.hit link (links link) result)
        | none => follow links more decide steps (some (links link))
      else some (.ended link)

/-- What the loop has seen at its end. -/
def Found.Splits {δ : Type v} (more : α → Bool) (decide : α → Option δ) (start : Link α)
    (places : List α) : Found α δ → Prop
  | .ended link => ∃ before after, places = before ++ after ∧ link = lastLink start before ∧
      (∀ a ∈ before, more a ∧ decide a = none) ∧ ∀ a ∈ after.head?, more a = false
  | .hit link a result => ∃ before after, places = before ++ a :: after ∧
      link = lastLink start before ∧ (∀ b ∈ before, more b ∧ decide b = none) ∧
      more a ∧ decide a = some result

/-- A loop that does not go on at null ends, having seen the places in the order of the list. -/
theorem Walk.follow {δ : Type v} {more : α → Bool} {decide : α → Option δ}
    {places : List α} {steps : Nat} (walk : Walk links null link places)
    (stops : more null = false) (enough : places.length < steps) :
    ∃ found, Foundation.follow links more decide steps link = some found ∧
      found.Splits more decide link places := by
  induction places generalizing link steps with
  | nil =>
      obtain ⟨steps, rfl⟩ := Nat.exists_eq_add_one_of_ne_zero (Nat.ne_zero_of_lt enough)
      have field : links link = null := walk
      refine ⟨.ended link, ?_, [], [], rfl, rfl, by simp, by simp⟩
      simp [Foundation.follow, field, stops]
  | cons a places induction =>
      obtain ⟨steps, rfl⟩ := Nat.exists_eq_add_one_of_ne_zero (Nat.ne_zero_of_lt enough)
      obtain ⟨field, -, rest⟩ := walk
      simp only [Foundation.follow, field]
      cases goesOn : more a with
      | false => exact ⟨.ended link, by simp, [], a :: places, rfl, rfl, by simp, by simp [goesOn]⟩
      | true =>
          cases decided : decide a with
          | some result =>
              exact ⟨.hit link a result, by simp, [], places, rfl, rfl, by simp, goesOn, decided⟩
          | none =>
              obtain ⟨found, same, splits⟩ :=
                induction rest (Nat.lt_of_succ_lt_succ enough) 
              refine ⟨found, by simpa using same, ?_⟩
              cases found with
              | ended link =>
                  obtain ⟨before, after, rfl, last, passed, stop⟩ := splits
                  exact ⟨a :: before, after, rfl, last,
                    List.forall_mem_cons.mpr ⟨⟨goesOn, decided⟩, passed⟩, stop⟩
              | hit link b result =>
                  obtain ⟨before, after, rfl, last, passed, here⟩ := splits
                  exact ⟨a :: before, after, rfl, last,
                    List.forall_mem_cons.mpr ⟨⟨goesOn, decided⟩, passed⟩, here⟩

end

end Foundation
