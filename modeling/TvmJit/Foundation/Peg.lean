import Mathlib.Data.List.Basic

/-! Searches and substitutions with patterns that match at the start of a text. -/

namespace Foundation.Peg

universe u

variable {α : Type u}

/-- How many characters a pattern matches at the start of a text, and what it captures. -/
abbrev Pattern (α : Type u) := List α → Option (Nat × List α)

/-- The pattern matches somewhere. -/
def find (patt : Pattern α) : List α → Bool
  | [] => (patt []).isSome
  | c :: s => (patt (c :: s)).isSome || find patt s

/-- The substitution, where some characters have been matched already. -/
def gsubFrom (patt : Pattern α) (repl : List α → List α) : Nat → List α → List α
  | _, [] => []
  | skip + 1, _ :: s => gsubFrom patt repl skip s
  | 0, c :: s =>
      match patt (c :: s) with
      | some (n, capture) => repl capture ++ gsubFrom patt repl (n - 1) s
      | none => c :: gsubFrom patt repl 0 s

/-- Every match that is found from the end of the previous one on is replaced. Other characters stay. -/
def gsub (patt : Pattern α) (repl : List α → List α) (s : List α) : List α := gsubFrom patt repl 0 s

/-- The substitution where a replacement may be an error. The first error is that of the whole. -/
def gsubFromE {ε : Type} (patt : Pattern α) (repl : List α → Except ε (List α)) : Nat → List α → Except ε (List α)
  | _, [] => .ok []
  | skip + 1, _ :: s => gsubFromE patt repl skip s
  | 0, c :: s =>
      match patt (c :: s) with
      | some (n, capture) => do
          let v ← repl capture
          let rest ← gsubFromE patt repl (n - 1) s
          return v ++ rest
      | none => do
          let rest ← gsubFromE patt repl 0 s
          return c :: rest

def gsubE {ε : Type} (patt : Pattern α) (repl : List α → Except ε (List α)) (s : List α) : Except ε (List α) :=
  gsubFromE patt repl 0 s

section

variable {patt : Pattern α} {repl : List α → List α}

theorem find_iff {s : List α} : find patt s = true ↔ ∃ front rest, s = front ++ rest ∧ (patt rest).isSome = true := by
  induction s with
  | nil =>
      constructor
      · intro here
        exact ⟨[], [], rfl, here⟩
      · intro ⟨front, rest, parts, here⟩
        have ⟨_, isRest⟩ := List.append_eq_nil_iff.mp parts.symm
        rwa [isRest] at here
  | cons c s induction =>
      rw [find, Bool.or_eq_true, induction]
      constructor
      · intro found
        rcases found with here | ⟨front, rest, parts, there⟩
        · exact ⟨[], c :: s, rfl, here⟩
        · exact ⟨c :: front, rest, congrArg (c :: ·) parts, there⟩
      · intro ⟨front, rest, parts, found⟩
        cases front with
        | nil =>
            left
            rwa [parts]
        | cons c' front =>
            right
            exact ⟨front, rest, (List.cons.inj parts).2, found⟩

@[simp] theorem gsub_nil : gsub patt repl [] = [] := rfl

theorem gsubFrom_append (xs s : List α) : gsubFrom patt repl xs.length (xs ++ s) = gsub patt repl s := by
  induction xs with
  | nil => rfl
  | cons c xs induction => exact induction

theorem gsub_some {c : α} {xs s capture : List α} (found : patt (c :: (xs ++ s)) = some (xs.length + 1, capture)) :
    gsub patt repl (c :: (xs ++ s)) = repl capture ++ gsub patt repl s := by
  rw [gsub, gsubFrom, found]
  dsimp only
  rw [Nat.add_sub_cancel, gsubFrom_append]

theorem gsub_none {c : α} {s : List α} (absent : patt (c :: s) = none) :
    gsub patt repl (c :: s) = c :: gsub patt repl s := by
  rw [gsub, gsubFrom, absent]
  rfl

end

section

variable {ε : Type} {patt : Pattern α} {repl : List α → Except ε (List α)}

@[simp] theorem gsubE_nil : gsubE patt repl [] = .ok [] := rfl

theorem gsubFromE_append (xs s : List α) : gsubFromE patt repl xs.length (xs ++ s) = gsubE patt repl s := by
  induction xs with
  | nil => rfl
  | cons c xs induction => exact induction

theorem gsubE_some {c : α} {xs s capture : List α} (found : patt (c :: (xs ++ s)) = some (xs.length + 1, capture)) :
    gsubE patt repl (c :: (xs ++ s)) = (repl capture).bind fun v => (gsubE patt repl s).map (v ++ ·) := by
  rw [gsubE, gsubFromE, found]
  dsimp only
  rw [Nat.add_sub_cancel, gsubFromE_append]
  cases repl capture with
  | error e => rfl
  | ok v => cases gsubE patt repl s <;> rfl

theorem gsubE_none {c : α} {s : List α} (absent : patt (c :: s) = none) :
    gsubE patt repl (c :: s) = (gsubE patt repl s).map (c :: ·) := by
  rw [gsubE, gsubFromE, absent]
  dsimp only
  rw [gsubE]
  cases gsubFromE patt repl 0 s <;> rfl

/-- Replacements that are no errors. -/
theorem gsubE_ok {repl : List α → List α} (s : List α) :
    gsubE (ε := ε) patt (fun s => .ok (repl s)) s = .ok (gsub patt repl s) := by
  rw [gsubE, gsub]
  generalize 0 = skip
  induction s generalizing skip with
  | nil => rfl
  | cons c s induction =>
      cases skip with
      | succ skip => exact induction skip
      | zero =>
          rw [gsubFromE, gsubFrom]
          cases patt (c :: s) with
          | none =>
              dsimp only
              rw [induction 0]
              rfl
          | some found =>
              dsimp only
              rw [induction (found.1 - 1)]
              rfl

end

end Foundation.Peg
