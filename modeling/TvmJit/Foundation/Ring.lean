import TvmJit.Foundation.Walk

/-! Doubly linked rings. A ring goes through a head place, which is not one of its members, and
is walked along both of its fields. -/

namespace Foundation

open Function

universe u

variable {α : Type u}

/-- The next fields lead from the head through the members and back to the head, and the
previous fields lead through them the other way. -/
structure Ring (next prev : Link α → α) (head : α) (members : List α) : Prop where
  forward : Walk next head none members
  backward : Walk prev head none members.reverse

namespace Ring

variable {next prev next' prev' : Link α → α} {head a : α} {members before after : List α}

theorem symm (ring : Ring next prev head members) : Ring prev next head members.reverse :=
  ⟨ring.backward, by rw [List.reverse_reverse]; exact ring.forward⟩

theorem congr (ring : Ring next prev head members)
    (same : ∀ p, p = none ∨ (∃ a ∈ members, p = some a) → next' p = next p ∧ prev' p = prev p) :
    Ring next' prev' head members where
  forward := ring.forward.congr (same none (.inl rfl)).1
    fun a member => (same _ (.inr ⟨a, member, rfl⟩)).1
  backward := ring.backward.congr (same none (.inl rfl)).2
    fun a member => (same _ (.inr ⟨a, List.mem_reverse.mp member, rfl⟩)).2

end Ring

section

variable [DecidableEq α]

/-- The field of a place. -/
def placeLink (head a : α) : Link α := if a = head then none else some a

namespace Ring

variable {next prev next' prev' : Link α → α} {head a : α} {members before after : List α}

/-- What the next field of the last place before `after` names is the last place from behind. -/
theorem link_after {link : Link α} (walk : Walk next head link after) :
    placeLink head (next link) = lastLink none after.reverse := by
  cases after with
  | nil => rw [show next link = head from walk, placeLink, if_pos rfl]; rfl
  | cons b after =>
      rw [walk.1, placeLink, if_neg walk.2.1, List.reverse_cons, lastLink_append]
      rfl

theorem next_link (ring : Ring next prev head (before ++ a :: after)) :
    placeLink head (next (some a)) = lastLink none after.reverse :=
  link_after ring.forward.behind.2.2

theorem prev_link (ring : Ring next prev head (before ++ a :: after)) :
    placeLink head (prev (some a)) = lastLink none before := by
  have split : (before ++ a :: after).reverse = after.reverse ++ a :: before.reverse := by simp
  have other := ring.symm
  rw [split] at other
  rw [other.next_link, List.reverse_reverse]

/-- The previous field of the first member, or of the head of an empty ring. -/
theorem prev_first (ring : Ring next prev head members) :
    prev (placeLink head (next none)) = head := by
  rw [link_after ring.forward]
  have backward : Walk prev head none (members.reverse ++ []) := by
    rw [List.append_nil]
    exact ring.backward
  exact backward.behind

/-- `uvnext(a)->prev = a->prev; uvprev(a)->next = a->next`: the neighbours of a member are linked
to each other. -/
theorem remove (ring : Ring next prev head (before ++ a :: after)) :
    Ring (removeAt next (placeLink head (prev (some a))) a)
      (removeAt prev (placeLink head (next (some a))) a) head (before ++ after) := by
  have split : (before ++ a :: after).reverse = after.reverse ++ a :: before.reverse := by simp
  have backward := ring.backward
  rw [split] at backward
  refine ⟨?_, ?_⟩
  · rw [ring.prev_link]
    exact ring.forward.remove
  · rw [ring.next_link, List.reverse_append]
    exact backward.remove

/-- A new first member. -/
theorem push (ring : Ring next prev head members) (notHead : a ≠ head) (new : a ∉ members) :
    Ring (insertAt next none a) (insertAt prev (placeLink head (next none)) a) head (a :: members) := by
  refine ⟨?_, ?_⟩
  · have forward : Walk next head none ([] ++ members) := ring.forward
    exact forward.insert notHead (by simp) new
  · have backward : Walk prev head none (members.reverse ++ []) := by
      rw [List.append_nil]
      exact ring.backward
    rw [link_after ring.forward, List.reverse_cons]
    exact backward.insert notHead (by simp) (by simpa using new)

end Ring

end

end Foundation
