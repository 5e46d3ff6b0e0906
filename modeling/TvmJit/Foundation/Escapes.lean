import TvmJit.Foundation.Peg

/-! Texts with escapes that are decoded by one substitution for each kind of escape, and a last one for those of one
character. When the result is that of reading the text once. -/

namespace Foundation.Escapes

open Peg

variable {α ι ε : Type}

/-! ## Digits -/

/-- The digits at the start of a text, at most `n` of them. -/
def digits (digit : α → Bool) : Nat → List α → List α
  | n + 1, c :: s => if digit c then c :: digits digit n s else []
  | _, _ => []

theorem digits_split (digit : α → Bool) (n : Nat) (s : List α) : ∃ rest, s = digits digit n s ++ rest := by
  induction n generalizing s with
  | zero => exact ⟨s, rfl⟩
  | succ n induction =>
      cases s with
      | nil => exact ⟨[], rfl⟩
      | cons c s =>
          rw [digits]
          split
          · have ⟨rest, parts⟩ := induction s
            exact ⟨rest, congrArg (c :: ·) parts⟩
          · exact ⟨c :: s, rfl⟩

theorem digit_of_mem {digit : α → Bool} {n : Nat} {s : List α} {c : α} (member : c ∈ digits digit n s) :
    digit c = true := by
  induction n generalizing s with
  | zero => nomatch member
  | succ n induction =>
      cases s with
      | nil => nomatch member
      | cons c' s =>
          rw [digits] at member
          split at member
          · rename_i isDigit
            rcases List.mem_cons.mp member with same | member
            · rwa [same]
            · exact induction member
          · nomatch member

theorem length_digits (digit : α → Bool) (n : Nat) (s : List α) : (digits digit n s).length ≤ n := by
  induction n generalizing s with
  | zero => exact Nat.le_refl 0
  | succ n induction =>
      cases s with
      | nil => exact Nat.zero_le _
      | cons c s =>
          rw [digits]
          split
          · exact Nat.succ_le_succ (induction s)
          · exact Nat.zero_le _

/-- Digits that are followed by others go on with these. -/
theorem digits_append {digit : α → Bool} {n : Nat} {ds : List α} (all : digits digit n ds = ds) (s : List α) :
    digits digit n (ds ++ s) = ds ++ digits digit (n - ds.length) s := by
  induction ds generalizing n with
  | nil => rfl
  | cons c ds induction =>
      cases n with
      | zero => nomatch all
      | succ n =>
          rw [digits] at all
          split at all
          · rename_i isDigit
            rw [List.cons_append, digits, if_pos isDigit, induction (List.cons.inj all).2, List.length_cons,
              Nat.add_sub_add_right, List.cons_append]
          · nomatch all

/-! ## Escapes -/

/-- Escapes that have a letter and some digits. -/
structure EscapeKind (α ε : Type) where
  mark : α
  digit : α → Bool
  least : Nat
  most : Nat
  value : List α → Except ε (List α)

/-- The escapes of a language: after `esc` there is either a character that stands for another one or the letter of a
kind. -/
structure Escaping (α ι ε : Type) where
  esc : α
  special : α → Option α
  kind : ι → EscapeKind α ε
  special_esc : special esc = some esc
  special_mark : ∀ i, special (kind i).mark = none
  mark_injective : ∀ i j, (kind i).mark = (kind j).mark → i = j
  digit_esc : ∀ i, (kind i).digit esc = false
  /-- A value is no longer than its digits. -/
  length_value : ∀ i ds v, (kind i).least ≤ ds.length → (kind i).value ds = .ok v → v.length ≤ ds.length
  /-- More digits do not make a value as much longer. -/
  length_more : ∀ i ds more v v', (kind i).least ≤ ds.length → (ds ++ more).length ≤ (kind i).most → more ≠ [] →
    (kind i).value ds = .ok v → (kind i).value (ds ++ more) = .ok v' → v'.length < v.length + more.length

/-- What a text is read as: a character that stands for itself, an escape of one character, or one of a kind with its
digits and its value. -/
inductive Token (α ι : Type)
  | lit (c : α)
  | pair (c : α)
  | num (i : ι) (ds v : List α)

namespace Escaping

variable (l : Escaping α ι ε)

def text : List (Token α ι) → List α
  | [] => []
  | .lit c :: ps => c :: text ps
  | .pair c :: ps => l.esc :: c :: text ps
  | .num i ds _ :: ps => l.esc :: (l.kind i).mark :: (ds ++ text ps)

def decoded : List (Token α ι) → List α
  | [] => []
  | .lit c :: ps => c :: decoded ps
  | .pair c :: ps => (l.special c).getD c :: decoded ps
  | .num _ _ v :: ps => v ++ decoded ps

def Valid : Token α ι → Prop
  | .lit _ => True
  | .pair c => (l.special c).isSome
  | .num i ds v => digits (l.kind i).digit (l.kind i).most ds = ds ∧ (l.kind i).least ≤ ds.length ∧ (l.kind i).value ds = .ok v

variable [DecidableEq α] [DecidableEq ι]

def escape (i : ι) : Pattern α
  | b :: m :: s =>
      if b = l.esc ∧ m = (l.kind i).mark ∧ (l.kind i).least ≤ (digits (l.kind i).digit (l.kind i).most s).length then
        some (2 + (digits (l.kind i).digit (l.kind i).most s).length, digits (l.kind i).digit (l.kind i).most s)
      else none
  | _ => none

/-- The substitution of the escapes of a kind. -/
def pass (i : ι) : List α → Except ε (List α) := gsubE (l.escape i) (l.kind i).value

/-- All escapes of the kind are read, and nothing else is. -/
def Clean (i : ι) : List (Token α ι) → Prop
  | [] => True
  | .lit c :: ps | .pair c :: ps => (c = l.esc → l.escape i (l.esc :: text l ps) = none) ∧ Clean i ps
  | .num j ds _ :: ps => (j = i → digits (l.kind i).digit (l.kind i).most (ds ++ text l ps) = ds) ∧ Clean i ps

end Escaping

/-- The escapes of the kind are replaced. -/
def decode [DecidableEq ι] (i : ι) : List (Token α ι) → List (Token α ι)
  | [] => []
  | .num j ds v :: ps => if j = i then v.map .lit ++ decode i ps else .num j ds v :: decode i ps
  | p :: ps => p :: decode i ps

section

variable {l : Escaping α ι ε} {i : ι}

/-! ## Tokens -/

theorem text_lits (v : List α) (ps : List (Token α ι)) : l.text (v.map .lit ++ ps) = v ++ l.text ps := by
  induction v with
  | nil => rfl
  | cons c v induction => exact congrArg (c :: ·) induction

theorem decoded_lits (v : List α) (ps : List (Token α ι)) : l.decoded (v.map .lit ++ ps) = v ++ l.decoded ps := by
  induction v with
  | nil => rfl
  | cons c v induction => exact congrArg (c :: ·) induction

theorem decoded_append (front ps : List (Token α ι)) : l.decoded (front ++ ps) = l.decoded front ++ l.decoded ps := by
  induction front with
  | nil => rfl
  | cons p front induction =>
      cases p with
      | lit c => exact congrArg (c :: ·) induction
      | pair c => exact congrArg ((l.special c).getD c :: ·) induction
      | num j ds v =>
          rw [List.cons_append, Escaping.decoded, Escaping.decoded, induction, List.append_assoc]

theorem decoded_map (v : List α) : l.decoded (v.map .lit) = v := by
  have lits := decoded_lits (l := l) v []
  rwa [List.append_nil, Escaping.decoded, List.append_nil] at lits

/-- Characters that are no start of an escape stand for themselves. -/
theorem lits_of_text {xs s : List α} {ps : List (Token α ι)} (plain : ∀ c ∈ xs, c ≠ l.esc) (parts : l.text ps = xs ++ s) :
    ∃ rest, ps = xs.map .lit ++ rest ∧ l.text rest = s := by
  induction xs generalizing ps with
  | nil => exact ⟨ps, rfl, parts⟩
  | cons x xs induction =>
      have different := plain x List.mem_cons_self
      cases ps with
      | nil => nomatch parts
      | cons p ps =>
          cases p with
          | lit c =>
              have ⟨same, tail⟩ := List.cons.inj parts
              have ⟨rest, isRest, text⟩ := induction (fun c member => plain c (List.mem_cons_of_mem x member)) tail
              exact ⟨rest, by rw [same, isRest]; rfl, text⟩
          | pair c => exact absurd (List.cons.inj parts).1.symm different
          | num j ds v => exact absurd (List.cons.inj parts).1.symm different

theorem special_ne_mark {c : α} (valid : (l.special c).isSome) : c ≠ (l.kind i).mark := by
  intro same
  rw [same, l.special_mark] at valid
  nomatch valid

theorem esc_ne_mark : l.esc ≠ (l.kind i).mark := by
  apply special_ne_mark
  rw [l.special_esc]
  rfl

theorem digits_plain {ds : List α} (all : digits (l.kind i).digit (l.kind i).most ds = ds) : ∀ c ∈ ds, c ≠ l.esc := by
  intro c member same
  rw [← all] at member
  have isDigit := digit_of_mem member
  rw [same, l.digit_esc] at isDigit
  nomatch isDigit

/-! ## Matches -/

variable [DecidableEq α]

theorem escape_other {c : α} (other : c ≠ l.esc) (s : List α) : l.escape i (c :: s) = none := by
  cases s with
  | nil => rfl
  | cons m s => exact if_neg fun both => other both.1

theorem escape_mark {m : α} (other : m ≠ (l.kind i).mark) (s : List α) : l.escape i (l.esc :: m :: s) = none :=
  if_neg fun both => other both.2.1

theorem escape_nil : l.escape i [l.esc] = none := rfl

/-- What is matched is a letter and digits, which are characters that stand for themselves. -/
theorem escape_some {ps : List (Token α ι)} (found : l.escape i (l.esc :: l.text ps) ≠ none) :
    ∃ ds rest, ps = .lit (l.kind i).mark :: ds.map .lit ++ rest ∧ (l.kind i).least ≤ ds.length ∧
      l.escape i (l.esc :: (((l.kind i).mark :: ds) ++ l.text rest)) = some (((l.kind i).mark :: ds).length + 1, ds) := by
  cases isText : l.text ps with
  | nil =>
      rw [isText] at found
      exact absurd escape_nil found
  | cons m s =>
      rw [isText] at found
      have matched : l.esc = l.esc ∧ m = (l.kind i).mark ∧
          (l.kind i).least ≤ (digits (l.kind i).digit (l.kind i).most s).length := by
        by_contra none
        exact found (if_neg none)
      have ⟨tail, parts⟩ := digits_split (l.kind i).digit (l.kind i).most s
      have plain : ∀ c ∈ m :: digits (l.kind i).digit (l.kind i).most s, c ≠ l.esc := by
        intro c member
        rcases List.mem_cons.mp member with same | member
        · rw [same, matched.2.1]
          exact esc_ne_mark.symm
        · intro same
          have isDigit := digit_of_mem member
          rw [same, l.digit_esc] at isDigit
          nomatch isDigit
      have ⟨rest, isRest, text⟩ := lits_of_text plain (isText.trans (congrArg (m :: ·) parts))
      refine ⟨digits (l.kind i).digit (l.kind i).most s, rest, ?_, matched.2.2, ?_⟩
      · rw [isRest, matched.2.1]
        rfl
      · rw [text, ← matched.2.1, List.cons_append, ← parts]
        rw [Escaping.escape, if_pos matched, List.length_cons, Nat.add_comm 2]

/-! ## One pass -/

theorem pass_none {c : α} {s : List α} (absent : l.escape i (c :: s) = none) :
    l.pass i (c :: s) = (l.pass i s).map (c :: ·) := gsubE_none absent

theorem pass_plain {xs : List α} (plain : ∀ c ∈ xs, c ≠ l.esc) (s : List α) :
    l.pass i (xs ++ s) = (l.pass i s).map (xs ++ ·) := by
  induction xs with
  | nil =>
      cases isPass : l.pass i s with
      | error e => exact isPass
      | ok v => exact isPass
  | cons x xs induction =>
      rw [List.cons_append, pass_none (escape_other (plain x List.mem_cons_self) _),
        induction fun c member => plain c (List.mem_cons_of_mem x member)]
      cases l.pass i s <;> rfl

theorem pass_some {xs s : List α} (ds : List α) (found : l.escape i (l.esc :: (xs ++ s)) = some (xs.length + 1, ds)) :
    l.pass i (l.esc :: (xs ++ s)) = ((l.kind i).value ds).bind fun v => (l.pass i s).map (v ++ ·) := gsubE_some found

/-- An escape of one character is left alone by the passes. -/
theorem pass_pair {c : α} (valid : (l.special c).isSome) (s : List α) :
    l.pass i (l.esc :: c :: s) = (l.pass i (c :: s)).map (l.esc :: ·) := pass_none (escape_mark (special_ne_mark valid) s)

theorem pass_other {j : ι} (other : j ≠ i) {ds v : List α} (valid : l.Valid (.num j ds v)) (s : List α) :
    l.pass i (l.esc :: (l.kind j).mark :: (ds ++ s)) = (l.pass i s).map (l.esc :: (l.kind j).mark :: ds ++ ·) := by
  have different : (l.kind j).mark ≠ (l.kind i).mark := fun same => other (l.mark_injective j i same)
  rw [pass_none (escape_mark different _), pass_none (escape_other esc_ne_mark.symm _), pass_plain (digits_plain valid.1)]
  cases l.pass i s <;> rfl

/-- The escape of the kind itself, whose digits may go on. -/
theorem escape_num {ds v : List α} (valid : l.Valid (.num i ds v)) (s : List α) :
    l.escape i (l.esc :: (l.kind i).mark :: (ds ++ s)) =
      some (2 + (digits (l.kind i).digit (l.kind i).most (ds ++ s)).length,
        digits (l.kind i).digit (l.kind i).most (ds ++ s)) := by
  apply if_pos
  refine ⟨rfl, rfl, ?_⟩
  rw [digits_append valid.1, List.length_append]
  exact Nat.le_trans valid.2.1 (Nat.le_add_right _ _)

/-- A clean text keeps its tokens. -/
theorem pass_clean [DecidableEq ι] {ps : List (Token α ι)} (valid : ∀ p ∈ ps, l.Valid p) (clean : l.Clean i ps) :
    l.pass i (l.text ps) = .ok (l.text (decode i ps)) := by
  induction ps with
  | nil => rfl
  | cons p ps induction =>
      have first := valid p List.mem_cons_self
      have rest := fun clean => induction (fun q member => valid q (List.mem_cons_of_mem p member)) clean
      cases p with
      | lit c =>
          have absent : l.escape i (c :: l.text ps) = none := by
            by_cases isEsc : c = l.esc
            · rw [isEsc]
              exact clean.1 isEsc
            · exact escape_other isEsc _
          rw [Escaping.text, pass_none absent, rest clean.2]
          rfl
      | pair c =>
          have absent : l.escape i (c :: l.text ps) = none := by
            by_cases isEsc : c = l.esc
            · rw [isEsc]
              exact clean.1 isEsc
            · exact escape_other isEsc _
          rw [Escaping.text, pass_pair first, pass_none absent, rest clean.2]
          rfl
      | num j ds v =>
          rw [Escaping.text, decode]
          split_ifs with same
          · have exact_ := clean.1 same
            rw [same] at first ⊢
            have found := escape_num first (l.text ps)
            rw [exact_] at found
            have parts : (l.kind i).mark :: (ds ++ l.text ps) = ((l.kind i).mark :: ds) ++ l.text ps := rfl
            rw [parts] at found ⊢
            rw [pass_some ds (by rw [found, List.length_cons, Nat.add_comm 2]), first.2.2, rest clean.2, text_lits]
            rfl
          · rw [pass_other same first, rest clean.2]
            rfl

/-! ## Texts that are not clean -/

theorem map_eq_ok {β γ : Type} {f : β → γ} {x : Except ε β} {c : γ} (isOk : x.map f = .ok c) : ∃ b, x = .ok b ∧ f b = c := by
  cases x with
  | error e => nomatch isOk
  | ok b => exact ⟨b, rfl, Except.ok.inj isOk⟩

theorem bind_eq_ok {β γ : Type} {f : β → Except ε γ} {x : Except ε β} {c : γ} (isOk : x.bind f = .ok c) :
    ∃ b, x = .ok b ∧ f b = .ok c := by
  cases x with
  | error e => nomatch isOk
  | ok b => exact ⟨b, rfl, isOk⟩

/-- What a pass makes of tokens is a text of no longer tokens, and of shorter ones if it reads what is no escape. -/
structure Shrinks (l : Escaping α ι ε) (i : ι) (ps qs : List (Token α ι)) (s : List α) : Prop where
  valid : ∀ q ∈ qs, l.Valid q
  kinds : ∀ j ds v, .num j ds v ∈ qs → j ≠ i ∧ .num j ds v ∈ ps
  text : s = l.text qs
  le : (l.decoded qs).length ≤ (l.decoded ps).length
  lt : ¬l.Clean i ps → (l.decoded qs).length < (l.decoded ps).length

variable {ps qs : List (Token α ι)} {s : List α}

/-- A token that stays. -/
theorem Shrinks.cons {p : Token α ι} (shrinks : Shrinks l i ps qs s) (valid : l.Valid p)
    (other : ∀ j ds v, p = .num j ds v → j ≠ i) (clean : l.Clean i ps → l.Clean i (p :: ps)) :
    Shrinks l i (p :: ps) (p :: qs) (l.text [p] ++ s) := by
  have decoded (ps : List (Token α ι)) : l.decoded (p :: ps) = l.decoded [p] ++ l.decoded ps := by
    cases p <;> simp [Escaping.decoded]
  have text : l.text (p :: qs) = l.text [p] ++ l.text qs := by
    cases p <;> simp [Escaping.text]
  refine ⟨?_, ?_, ?_, ?_, ?_⟩
  · intro q member
    rcases List.mem_cons.mp member with same | member
    · rwa [same]
    · exact shrinks.valid q member
  · intro j ds v member
    rcases List.mem_cons.mp member with same | member
    · exact ⟨other j ds v same.symm, same ▸ List.mem_cons_self⟩
    · have ⟨different, from_⟩ := shrinks.kinds j ds v member
      exact ⟨different, List.mem_cons_of_mem p from_⟩
  · rw [text, shrinks.text]
  · rw [decoded, decoded ps, List.length_append, List.length_append]
    exact Nat.add_le_add_left shrinks.le _
  · intro unclean
    rw [decoded, decoded ps, List.length_append, List.length_append]
    exact Nat.add_lt_add_left (shrinks.lt fun all => unclean (clean all)) _

/-- Tokens that are replaced by characters. -/
theorem Shrinks.replaced (front : List (Token α ι)) (shrinks : Shrinks l i ps qs s) {v : List α}
    (le : v.length ≤ (l.decoded front).length)
    (lt : ¬l.Clean i (front ++ ps) → l.Clean i ps → v.length < (l.decoded front).length) :
    Shrinks l i (front ++ ps) (v.map .lit ++ qs) (v ++ s) := by
  have least := shrinks.le
  refine ⟨?_, ?_, ?_, ?_, ?_⟩
  · intro q member
    rcases List.mem_append.mp member with member | member
    · have ⟨c, _, same⟩ := List.mem_map.mp member
      rw [← same]
      trivial
    · exact shrinks.valid q member
  · intro j ds v' member
    rcases List.mem_append.mp member with member | member
    · have ⟨c, _, same⟩ := List.mem_map.mp member
      nomatch same
    · have ⟨different, from_⟩ := shrinks.kinds j ds v' member
      exact ⟨different, List.mem_append_right front from_⟩
  · rw [text_lits, shrinks.text]
  · rw [decoded_lits, decoded_append, List.length_append, List.length_append]
    omega
  · intro unclean
    rw [decoded_lits, decoded_append, List.length_append, List.length_append]
    by_cases clean : l.Clean i ps
    · have strict := lt unclean clean
      omega
    · have strict := shrinks.lt clean
      omega

/-- A character that is no start of an escape is kept, or it is read as one with the characters behind it. -/
theorem pass_char {c : α} (isOk : l.pass i (c :: l.text ps) = .ok s) :
    ((c = l.esc → l.escape i (l.esc :: l.text ps) = none) ∧ ∃ s', l.pass i (l.text ps) = .ok s' ∧ s = c :: s') ∨
    ∃ (ds : List α) (rest : List (Token α ι)) (v s' : List α), ps = .lit (l.kind i).mark :: ds.map .lit ++ rest ∧ v.length ≤ ds.length ∧
      l.pass i (l.text rest) = .ok s' ∧ s = v ++ s' := by
  by_cases absent : c = l.esc → l.escape i (l.esc :: l.text ps) = none
  · left
    have none : l.escape i (c :: l.text ps) = none := by
      by_cases isEsc : c = l.esc
      · rw [isEsc]
        exact absent isEsc
      · exact escape_other isEsc _
    rw [pass_none none] at isOk
    have ⟨s', rest, same⟩ := map_eq_ok isOk
    exact ⟨absent, s', rest, same.symm⟩
  · right
    have ⟨isEsc, found⟩ := Classical.not_imp.mp absent
    have ⟨ds, rest, parts, least, matched⟩ := escape_some found
    have text : l.text ps = ((l.kind i).mark :: ds) ++ l.text rest := by
      rw [parts]
      exact congrArg ((l.kind i).mark :: ·) (text_lits ds rest)
    rw [isEsc, text, pass_some _ matched] at isOk
    have ⟨v, value, isOk⟩ := bind_eq_ok isOk
    have ⟨s', passed, same⟩ := map_eq_ok isOk
    exact ⟨ds, rest, v, s', parts, l.length_value i ds v least value, passed, same.symm⟩

/-- The digits that are read for an escape of the kind are its own and those behind it. -/
theorem pass_num {ds v : List α} (valid : l.Valid (.num i ds v))
    (isOk : l.pass i (l.text (.num i ds v :: ps)) = .ok s) :
    ∃ (more : List α) (rest : List (Token α ι)) (v' s' : List α), ps = more.map .lit ++ rest ∧ digits (l.kind i).digit (l.kind i).most (ds ++ l.text ps) = ds ++ more ∧
      (l.kind i).value (ds ++ more) = .ok v' ∧ (ds ++ more).length ≤ (l.kind i).most ∧
      l.pass i (l.text rest) = .ok s' ∧ s = v' ++ s' := by
  have found := escape_num valid (l.text ps)
  have most := length_digits (l.kind i).digit (l.kind i).most (ds ++ l.text ps)
  have all := digits_append valid.1 (l.text ps)
  have plain : ∀ c ∈ digits (l.kind i).digit ((l.kind i).most - ds.length) (l.text ps), c ≠ l.esc := by
    intro c member same
    have isDigit := digit_of_mem member
    rw [same, l.digit_esc] at isDigit
    nomatch isDigit
  have ⟨tail, parts⟩ := digits_split (l.kind i).digit ((l.kind i).most - ds.length) (l.text ps)
  generalize digits (l.kind i).digit ((l.kind i).most - ds.length) (l.text ps) = more at *
  have ⟨rest, isRest, isTail⟩ := lits_of_text plain parts
  rw [all] at found most
  have text : l.text (.num i ds v :: ps) = l.esc :: (((l.kind i).mark :: (ds ++ more)) ++ l.text rest) := by
    rw [Escaping.text, parts, isTail, List.cons_append, List.append_assoc]
  have matched : l.escape i (l.esc :: (((l.kind i).mark :: (ds ++ more)) ++ l.text rest)) =
      some (((l.kind i).mark :: (ds ++ more)).length + 1, ds ++ more) := by
    rw [← text, Escaping.text, found, List.length_cons, Nat.add_comm 2]
  rw [text, pass_some _ matched] at isOk
  have ⟨v', value, isOk⟩ := bind_eq_ok isOk
  have ⟨s', passed, same⟩ := map_eq_ok isOk
  exact ⟨more, rest, v', s', isRest, all, value, most, passed, same.symm⟩

theorem pass_shrinks (valid : ∀ p ∈ ps, l.Valid p) (isOk : l.pass i (l.text ps) = .ok s) : ∃ qs, Shrinks l i ps qs s := by
  induction count : ps.length using Nat.strongRecOn generalizing ps s with
  | _ n induction =>
  cases ps with
  | nil =>
      cases isOk
      exact ⟨[], nofun, nofun, rfl, Nat.le_refl 0, fun unclean => absurd trivial unclean⟩
  | cons p ps =>
      have first := valid p List.mem_cons_self
      have few : ps.length < n := by
        rw [← count]
        exact Nat.lt_succ_self _
      have others : ∀ p ∈ ps, l.Valid p := fun q member => valid q (List.mem_cons_of_mem p member)
      -- The tokens that are left after some characters.
      have behind (xs : List α) {rest : List (Token α ι)} {s' : List α} (parts : ps = xs.map .lit ++ rest)
          (passed : l.pass i (l.text rest) = .ok s') : ∃ qs, Shrinks l i rest qs s' := by
        apply induction rest.length _ (fun q member => others q (parts ▸ List.mem_append_right _ member)) passed rfl
        rw [parts, List.length_append] at few
        omega
      cases p with
      | lit c =>
          rcases pass_char isOk with ⟨absent, s', passed, same⟩ | ⟨ds, rest, v, s', parts, short, passed, same⟩
          · have ⟨qs, shrinks⟩ := induction ps.length few others passed rfl
            rw [same]
            exact ⟨_, shrinks.cons first nofun fun clean => ⟨absent, clean⟩⟩
          · have ⟨qs, shrinks⟩ := behind ((l.kind i).mark :: ds) parts passed
            have fewer : v.length < (l.decoded (.lit c :: .lit (l.kind i).mark :: ds.map .lit)).length := by
              rw [Escaping.decoded, Escaping.decoded, decoded_map, List.length_cons, List.length_cons]
              omega
            rw [same, parts]
            exact ⟨_, shrinks.replaced (.lit c :: .lit (l.kind i).mark :: ds.map .lit) (Nat.le_of_lt fewer) fun _ _ => fewer⟩
      | pair c =>
          rw [Escaping.text, pass_pair first] at isOk
          have ⟨s₁, isOk, same₁⟩ := map_eq_ok isOk
          rcases pass_char isOk with ⟨absent, s', passed, same⟩ | ⟨ds, rest, v, s', parts, short, passed, same⟩
          · have ⟨qs, shrinks⟩ := induction ps.length few others passed rfl
            rw [← same₁, same]
            exact ⟨_, shrinks.cons first nofun fun clean => ⟨absent, clean⟩⟩
          · have ⟨qs, shrinks⟩ := behind ((l.kind i).mark :: ds) parts passed
            have fewer : (l.esc :: v).length < (l.decoded (.pair c :: .lit (l.kind i).mark :: ds.map .lit)).length := by
              rw [Escaping.decoded, Escaping.decoded, decoded_map, List.length_cons, List.length_cons, List.length_cons]
              omega
            rw [← same₁, same, parts]
            exact ⟨_, shrinks.replaced (.pair c :: .lit (l.kind i).mark :: ds.map .lit) (Nat.le_of_lt fewer) fun _ _ => fewer⟩
      | num j ds v =>
          by_cases isKind : j = i
          · rw [isKind] at first isOk ⊢
            have ⟨more, rest, v', s', parts, all, value, most, passed, same⟩ := pass_num first isOk
            have ⟨qs, shrinks⟩ := behind more parts passed
            have shown : (l.decoded (.num i ds v :: more.map .lit)).length = v.length + more.length := by
              rw [Escaping.decoded, decoded_map, List.length_append]
            rw [same, parts]
            by_cases none : more = []
            · -- The escape is read as it stands.
              have values : v' = v := by
                rw [none, List.append_nil, first.2.2] at value
                exact (Except.ok.inj value).symm
              have clean : l.Clean i rest → l.Clean i (.num i ds v :: more.map .lit ++ rest) := by
                intro clean
                rw [parts, none, List.append_nil] at all
                rw [none]
                exact ⟨fun _ => all, clean⟩
              refine ⟨_, shrinks.replaced (.num i ds v :: more.map .lit) ?_ fun unclean all => absurd (clean all) unclean⟩
              rw [shown, values]
              exact Nat.le_add_right _ _
            · have fewer := l.length_more i ds more v v' first.2.1 most none first.2.2 value
              rw [← shown] at fewer
              exact ⟨_, shrinks.replaced (.num i ds v :: more.map .lit) (Nat.le_of_lt fewer) fun _ _ => fewer⟩
          · rw [Escaping.text, pass_other isKind first] at isOk
            have ⟨s', passed, same⟩ := map_eq_ok isOk
            have ⟨qs, shrinks⟩ := induction ps.length few others passed rfl
            have text : (l.esc :: (l.kind j).mark :: ds ++ s') = l.text [.num j ds v] ++ s' := by
              rw [Escaping.text, Escaping.text, List.append_nil]
            rw [← same, text]
            refine ⟨_, shrinks.cons first ?_ fun clean => ⟨fun same => absurd same isKind, clean⟩⟩
            intro j' ds' v' same'
            rwa [(Token.num.inj same').1] at isKind

end

/-! ## Escapes of one character -/

namespace Escaping

variable (l : Escaping α ι ε) [DecidableEq α]

def escapeSpecial : Pattern α
  | b :: c :: _ => if b = l.esc ∧ (l.special c).isSome then some (2, [c]) else none
  | _ => none

/-- The substitution of the escapes of one character. -/
def specials : List α → List α := gsub l.escapeSpecial (·.map fun c => (l.special c).getD c)

/-- A character that starts an escape, but stands for itself, is still read so in front of these tokens. -/
def Alone : List (Token α ι) → Prop
  | [] => True
  | .lit c :: _ => l.special c = none
  | .pair c :: ps => if c = l.esc then Alone ps else l.special c = some c
  | .num .. :: _ => True

def Kept : List (Token α ι) → Prop
  | [] => True
  | .lit c :: ps => (c = l.esc → Alone l ps) ∧ Kept ps
  | .pair _ :: ps | .num .. :: ps => Kept ps

end Escaping

section

variable {l : Escaping α ι ε} {ps : List (Token α ι)}

/-- Tokens without digits. -/
def Plain (ps : List (Token α ι)) : Prop := ∀ i ds v, .num i ds v ∉ ps

theorem Plain.tail {p : Token α ι} (plain : Plain (p :: ps)) : Plain ps :=
  fun i ds v member => plain i ds v (List.mem_cons_of_mem p member)

theorem length_decoded (plain : Plain ps) : (l.decoded ps).length = ps.length := by
  induction ps with
  | nil => rfl
  | cons p ps induction =>
      cases p with
      | lit c => exact congrArg (· + 1) (induction plain.tail)
      | pair c => exact congrArg (· + 1) (induction plain.tail)
      | num i ds v => exact absurd List.mem_cons_self (plain i ds v)

variable [DecidableEq α]

theorem specials_other {c : α} (other : c ≠ l.esc) (s : List α) : l.specials (c :: s) = c :: l.specials s := by
  apply gsub_none
  cases s with
  | nil => rfl
  | cons c' s => exact if_neg fun both => other both.1

theorem specials_some {c v : α} (value : l.special c = some v) (s : List α) :
    l.specials (l.esc :: c :: s) = v :: l.specials s := by
  have found : l.escapeSpecial (l.esc :: ([c] ++ s)) = some ([c].length + 1, [c]) := by
    apply if_pos
    rw [value]
    exact ⟨rfl, rfl⟩
  have replaced : l.specials (l.esc :: ([c] ++ s)) = [(l.special c).getD c] ++ l.specials s := gsub_some found
  rw [value] at replaced
  exact replaced

theorem specials_none {c : α} (value : l.special c = none) (s : List α) :
    l.specials (l.esc :: c :: s) = l.esc :: l.specials (c :: s) := by
  apply gsub_none
  apply if_neg
  rw [value]
  exact fun both => nomatch both.2

theorem specials_pair {c : α} (valid : (l.special c).isSome) (s : List α) :
    l.specials (l.esc :: c :: s) = (l.special c).getD c :: l.specials s := by
  have ⟨v, value⟩ := Option.isSome_iff_exists.mp valid
  rw [specials_some value, value]
  rfl

/-- A character comes from a token at least, also where the text is preceded by one that starts an escape. -/
theorem length_specials (plain : Plain ps) (valid : ∀ p ∈ ps, l.Valid p) :
    (l.specials (l.text ps)).length ≤ ps.length ∧ (l.specials (l.esc :: l.text ps)).length ≤ ps.length + 1 := by
  induction ps with
  | nil => exact ⟨Nat.le_refl 0, Nat.le_refl 1⟩
  | cons p ps induction =>
      have ⟨here, behind⟩ := induction plain.tail fun q member => valid q (List.mem_cons_of_mem p member)
      have lit (c : α) : (l.specials (c :: l.text ps)).length ≤ ps.length + 1 := by
        by_cases isEsc : c = l.esc
        · rwa [isEsc]
        · rw [specials_other isEsc]
          exact Nat.succ_le_succ here
      cases p with
      | lit c =>
          refine ⟨lit c, ?_⟩
          rw [Escaping.text, List.length_cons]
          cases value : l.special c with
          | some v =>
              rw [specials_some value, List.length_cons]
              omega
          | none =>
              rw [specials_none value, List.length_cons]
              exact Nat.succ_le_succ (lit c)
      | pair c =>
          have first : (l.special c).isSome := valid _ List.mem_cons_self
          rw [Escaping.text, specials_pair first, specials_some l.special_esc, List.length_cons, List.length_cons, List.length_cons]
          exact ⟨Nat.succ_le_succ here, Nat.succ_le_succ (lit c)⟩
      | num i ds v => exact absurd List.mem_cons_self (plain i ds v)

/-- When each token is read for itself. -/
theorem specials_iff (plain : Plain ps) (valid : ∀ p ∈ ps, l.Valid p) :
    (l.specials (l.text ps) = l.decoded ps ↔ l.Kept ps) ∧
      (l.specials (l.esc :: l.text ps) = l.esc :: l.decoded ps ↔ l.Alone ps ∧ l.Kept ps) := by
  induction ps with
  | nil => exact ⟨iff_of_true rfl trivial, iff_of_true rfl ⟨trivial, trivial⟩⟩
  | cons p ps induction =>
      have others : ∀ q ∈ ps, l.Valid q := fun q member => valid q (List.mem_cons_of_mem p member)
      have ⟨here, behind⟩ := induction plain.tail others
      have ⟨most, _⟩ := length_specials plain.tail others
      have length := length_decoded (l := l) plain.tail
      cases p with
      | lit c =>
          rw [Escaping.text, Escaping.decoded, Escaping.Kept, Escaping.Alone]
          by_cases isEsc : c = l.esc
          · rw [isEsc, behind, l.special_esc, specials_some l.special_esc]
            refine ⟨by simp, iff_of_false ?_ (by simp)⟩
            intro same
            have shorter := congrArg List.length same
            rw [List.length_cons, List.length_cons, List.length_cons] at shorter
            omega
          · rw [specials_other isEsc]
            refine ⟨by simp [here, isEsc], ?_⟩
            cases value : l.special c with
            | some v =>
                rw [specials_some value]
                refine iff_of_false ?_ (by simp)
                intro same
                have shorter := congrArg List.length same
                rw [List.length_cons, List.length_cons, List.length_cons] at shorter
                omega
            | none =>
                rw [specials_none value, specials_other isEsc]
                simp [here, isEsc]
      | pair c =>
          have first : (l.special c).isSome := valid _ List.mem_cons_self
          have ⟨v, value⟩ := Option.isSome_iff_exists.mp first
          rw [Escaping.text, Escaping.decoded, Escaping.Kept, Escaping.Alone, specials_pair first,
            specials_some l.special_esc, value]
          refine ⟨by simp [here], ?_⟩
          by_cases isEsc : c = l.esc
          · have values : v = l.esc := by
              rw [isEsc, l.special_esc] at value
              exact (Option.some.inj value).symm
            rw [isEsc, values, if_pos rfl]
            simp [behind]
          · rw [specials_other isEsc, if_neg isEsc]
            simp only [Option.getD_some, List.cons.injEq, true_and, Option.some.injEq, here]
            exact and_congr_left fun _ => eq_comm
      | num i ds v => exact absurd List.mem_cons_self (plain i ds v)

end

/-! ## All passes -/

section

variable {l : Escaping α ι ε} [DecidableEq ι] {ps : List (Token α ι)}

/-- The passes one after another. -/
def Escaping.passes [DecidableEq α] (l : Escaping α ι ε) : List ι → List α → Except ε (List α)
  | [], s => .ok s
  | i :: is, s => (l.pass i s).bind (Escaping.passes l is)

/-- Each pass reads its escapes and nothing else. -/
def Escaping.AllClean [DecidableEq α] (l : Escaping α ι ε) : List ι → List (Token α ι) → Prop
  | [], _ => True
  | i :: is, ps => l.Clean i ps ∧ Escaping.AllClean l is (decode i ps)

def decodeAll : List ι → List (Token α ι) → List (Token α ι)
  | [], ps => ps
  | i :: is, ps => decodeAll is (decode i ps)

/-- All kinds are among those of the passes. -/
def Covered (is : List ι) (ps : List (Token α ι)) : Prop := ∀ j ds v, .num j ds v ∈ ps → j ∈ is

theorem mem_decode {i : ι} {q : Token α ι} (member : q ∈ decode i ps) :
    (∃ c, q = .lit c) ∨ q ∈ ps ∧ ∀ ds v, q ≠ .num i ds v := by
  induction ps with
  | nil => nomatch member
  | cons p ps induction =>
      have behind (member : q ∈ decode i ps) : (∃ c, q = .lit c) ∨ q ∈ p :: ps ∧ ∀ ds v, q ≠ .num i ds v :=
        (induction member).imp_right fun both => ⟨List.mem_cons_of_mem p both.1, both.2⟩
      cases p with
      | num j ds v =>
          rw [decode] at member
          split at member
          · rcases List.mem_append.mp member with member | member
            · have ⟨c, _, same⟩ := List.mem_map.mp member
              exact .inl ⟨c, same.symm⟩
            · exact behind member
          · rename_i other
            rcases List.mem_cons.mp member with same | member
            · right
              rw [same]
              refine ⟨List.mem_cons_self, ?_⟩
              intro ds' v' same'
              exact other (Token.num.inj same').1
            · exact behind member
      | lit c =>
          rcases List.mem_cons.mp member with same | member
          · exact .inl ⟨c, same⟩
          · exact behind member
      | pair c =>
          rcases List.mem_cons.mp member with same | member
          · right
            rw [same]
            exact ⟨List.mem_cons_self, nofun⟩
          · exact behind member

theorem valid_decode {i : ι} (valid : ∀ p ∈ ps, l.Valid p) : ∀ p ∈ decode i ps, l.Valid p := by
  intro p member
  rcases mem_decode member with ⟨c, same⟩ | ⟨before, _⟩
  · rw [same]
    trivial
  · exact valid p before

theorem covered_decode {i : ι} {is : List ι} (covered : Covered (i :: is) ps) : Covered is (decode i ps) := by
  intro j ds v member
  rcases mem_decode member with ⟨c, same⟩ | ⟨before, other⟩
  · nomatch same
  · apply (List.mem_cons.mp (covered j ds v before)).resolve_left
    intro same
    exact other ds v (by rw [same])

theorem decoded_decode (i : ι) (ps : List (Token α ι)) : l.decoded (decode i ps) = l.decoded ps := by
  induction ps with
  | nil => rfl
  | cons p ps induction =>
      cases p with
      | lit c => exact congrArg (c :: ·) induction
      | pair c => exact congrArg ((l.special c).getD c :: ·) induction
      | num j ds v =>
          rw [decode, Escaping.decoded]
          split
          · rw [decoded_lits, induction]
          · rw [Escaping.decoded, induction]

variable [DecidableEq α]

omit [DecidableEq ι] in
theorem length_passes {is : List ι} {s : List α} (valid : ∀ p ∈ ps, l.Valid p) (covered : Covered is ps)
    (isOk : l.passes is (l.text ps) = .ok s) : (l.specials s).length ≤ (l.decoded ps).length := by
  induction is generalizing ps with
  | nil =>
      have plain : Plain ps := fun i ds v member => nomatch covered i ds v member
      cases isOk
      rw [length_decoded plain]
      exact (length_specials plain valid).1
  | cons i is induction =>
      have ⟨s', passed, rest⟩ := bind_eq_ok isOk
      have ⟨qs, shrinks⟩ := pass_shrinks valid passed
      rw [shrinks.text] at rest
      refine Nat.le_trans (induction shrinks.valid ?_ rest) shrinks.le
      intro j ds v member
      have ⟨other, before⟩ := shrinks.kinds j ds v member
      exact (List.mem_cons.mp (covered j ds v before)).resolve_left other

/-- The passes are one reading of the text exactly if each is clean and no escape of one character is made by them. -/
theorem passes_iff {is : List ι} (valid : ∀ p ∈ ps, l.Valid p) (covered : Covered is ps) :
    (l.passes is (l.text ps)).map l.specials = .ok (l.decoded ps) ↔ l.AllClean is ps ∧ l.Kept (decodeAll is ps) := by
  induction is generalizing ps with
  | nil =>
      have plain : Plain ps := fun i ds v member => nomatch covered i ds v member
      have exact_ := (specials_iff plain valid).1
      rw [Escaping.passes, Escaping.AllClean, decodeAll, true_and, ← exact_]
      exact ⟨fun same => Except.ok.inj same, fun same => congrArg Except.ok same⟩
  | cons i is induction =>
      rw [Escaping.passes, Escaping.AllClean, decodeAll]
      by_cases clean : l.Clean i ps
      · have rest := induction (valid_decode (i := i) valid) (covered_decode covered)
        rw [decoded_decode] at rest
        rw [pass_clean valid clean, and_iff_right clean]
        exact rest
      · refine iff_of_false ?_ fun all => clean all.1.1
        intro isOk
        have ⟨s, passed, same⟩ := map_eq_ok isOk
        have ⟨s', first, rest⟩ := bind_eq_ok passed
        have ⟨qs, shrinks⟩ := pass_shrinks valid first
        rw [shrinks.text] at rest
        have others : Covered is qs := by
          intro j ds v member
          have ⟨other, before⟩ := shrinks.kinds j ds v member
          exact (List.mem_cons.mp (covered j ds v before)).resolve_left other
        have fewer := length_passes shrinks.valid others rest
        rw [same] at fewer
        exact absurd fewer (Nat.not_le_of_lt (shrinks.lt clean))

end

end Foundation.Escapes
