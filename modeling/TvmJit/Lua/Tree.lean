import TvmJit.Op.Parsed

/-! TP texts as trees: atoms are tokens, and a table is a list of values and of pairs of a
key and a value. -/

namespace TvmJit

mutual
inductive TpTree
  | atom (tok : Token)
  | table (entries : TpEntries)
  deriving DecidableEq

inductive TpEntries
  | nil
  | item (v : TpTree) (rest : TpEntries)
  | pair (k v : TpTree) (rest : TpEntries)
  deriving DecidableEq
end

/-- A token that is an expression. -/
def Token.isAtom : Token → Bool
  | .name _ => true
  | .number _ => true
  | .cdata _ => true
  | .string _ => true
  | _ => false

mutual
/-- The first tree of the tokens, and the tokens behind it. -/
def readTree : Nat → List Token → Option (TpTree × List Token)
  | 0, _ => none
  | _, [] => none
  | steps + 1, tok :: toks =>
      if tok = .lparen then do
        let (entries, toks) ← readEntries steps toks
        return (.table entries, toks)
      else if tok.isAtom then some (.atom tok, toks)
      else none

/-- The entries up to the end of a table. -/
def readEntries : Nat → List Token → Option (TpEntries × List Token)
  | 0, _ => none
  | steps + 1, toks =>
      if toks.head? = some .rparen then some (.nil, toks.tail)
      else do
        let (v, toks) ← readTree steps toks
        if toks.head? = some .colon then
          let (v', toks) ← readTree steps toks.tail
          let (rest, toks) ← readEntries steps toks
          return (.pair v v' rest, toks)
        else
          let (rest, toks) ← readEntries steps toks
          return (.item v rest, toks)
end

/-- Each closing parenthesis has an opening one before it, and none is left open. -/
def balanced : Nat → List Token → Bool
  | depth, [] => depth == 0
  | depth, .lparen :: toks => balanced (depth + 1) toks
  | 0, .rparen :: _ => false
  | depth + 1, .rparen :: toks => balanced depth toks
  | depth, _ :: toks => balanced depth toks

mutual
def TpTree.tokens : TpTree → List Token
  | .atom tok => [tok]
  | .table entries => .lparen :: (entries.tokens ++ [.rparen])

def TpEntries.tokens : TpEntries → List Token
  | .nil => []
  | .item v rest => v.tokens ++ rest.tokens
  | .pair k v rest => k.tokens ++ .colon :: (v.tokens ++ rest.tokens)
end

mutual
/-- All atoms are tokens that are expressions. -/
def TpTree.Wf : TpTree → Prop
  | .atom tok => tok.isAtom
  | .table entries => entries.Wf

def TpEntries.Wf : TpEntries → Prop
  | .nil => True
  | .item v rest => v.Wf ∧ rest.Wf
  | .pair k v rest => k.Wf ∧ v.Wf ∧ rest.Wf
end

/-! ## Reading the tokens of a tree -/

/-- A tree starts with a token that ends no table. -/
theorem TpTree.tokens_cons {t : TpTree} (wf : t.Wf) :
    ∃ tok toks, t.tokens = tok :: toks ∧ tok ≠ .rparen ∧ tok ≠ .colon := by
  cases t with
  | atom tok =>
      refine ⟨tok, [], rfl, ?_, ?_⟩
      · rintro rfl
        exact Bool.false_ne_true wf
      · rintro rfl
        exact Bool.false_ne_true wf
  | table entries => exact ⟨.lparen, _, rfl, by simp, by simp⟩

theorem TpTree.tokens_ne_nil (t : TpTree) : t.tokens ≠ [] := by
  cases t <;> simp [tokens]

theorem TpEntries.head_tokens {entries : TpEntries} (wf : entries.Wf) (toks : List Token) :
    (entries.tokens ++ .rparen :: toks).head? ≠ some .colon := by
  cases entries with
  | nil => simp [tokens]
  | item v rest =>
      obtain ⟨tok, more, shape, -, notColon⟩ := TpTree.tokens_cons wf.1
      simp [tokens, shape, notColon]
  | pair k v rest =>
      obtain ⟨tok, more, shape, -, notColon⟩ := TpTree.tokens_cons wf.1
      simp [tokens, shape, notColon]

mutual
theorem readTree_tokens (t : TpTree) (wf : t.Wf) :
    ∃ enough, ∀ steps ≥ enough, ∀ toks, readTree steps (t.tokens ++ toks) = some (t, toks) := by
  cases t with
  | atom tok =>
      refine ⟨1, fun steps enough toks => ?_⟩
      obtain ⟨steps, rfl⟩ : ∃ n, steps = n + 1 := ⟨steps - 1, by omega⟩
      have notParen : tok ≠ .lparen := by
        rintro rfl
        exact Bool.false_ne_true wf
      have isAtom : tok.isAtom = true := wf
      change (if tok = .lparen then _ else if tok.isAtom then _ else _) = _
      rw [if_neg notParen, if_pos isAtom]
      rfl
  | table entries =>
      obtain ⟨enough, read⟩ := readEntries_tokens entries wf
      refine ⟨enough + 1, fun steps enough toks => ?_⟩
      obtain ⟨steps, rfl⟩ : ∃ n, steps = n + 1 := ⟨steps - 1, by omega⟩
      have inside := read steps (by omega) toks
      change ((readEntries steps (entries.tokens ++ [.rparen] ++ toks)) >>= _) = _
      rw [List.append_assoc, List.singleton_append, inside]
      rfl

theorem readEntries_tokens (entries : TpEntries) (wf : entries.Wf) :
    ∃ enough, ∀ steps ≥ enough, ∀ toks,
      readEntries steps (entries.tokens ++ .rparen :: toks) = some (entries, toks) := by
  cases entries with
  | nil =>
      refine ⟨1, fun steps enough toks => ?_⟩
      obtain ⟨steps, rfl⟩ : ∃ n, steps = n + 1 := ⟨steps - 1, by omega⟩
      rfl
  | item v rest =>
      obtain ⟨enoughV, readV⟩ := readTree_tokens v wf.1
      obtain ⟨enoughRest, readRest⟩ := readEntries_tokens rest wf.2
      refine ⟨max enoughV enoughRest + 1, fun steps enough toks => ?_⟩
      obtain ⟨steps, rfl⟩ : ∃ n, steps = n + 1 := ⟨steps - 1, by omega⟩
      obtain ⟨tok, more, shape, notRparen, -⟩ := TpTree.tokens_cons wf.1
      have notEnd : (v.tokens ++ (rest.tokens ++ .rparen :: toks)).head? ≠ some .rparen := by
        simp [shape, notRparen]
      rw [TpEntries.tokens, List.append_assoc, readEntries, if_neg notEnd,
        readV steps (by omega)]
      change (if (rest.tokens ++ .rparen :: toks).head? = some .colon then _ else _) = _
      rw [if_neg (rest.head_tokens wf.2 toks), readRest steps (by omega)]
      rfl
  | pair k v rest =>
      obtain ⟨enoughK, readK⟩ := readTree_tokens k wf.1
      obtain ⟨enoughV, readV⟩ := readTree_tokens v wf.2.1
      obtain ⟨enoughRest, readRest⟩ := readEntries_tokens rest wf.2.2
      refine ⟨max enoughK (max enoughV enoughRest) + 1, fun steps enough toks => ?_⟩
      obtain ⟨steps, rfl⟩ : ∃ n, steps = n + 1 := ⟨steps - 1, by omega⟩
      obtain ⟨tok, more, shape, notRparen, -⟩ := TpTree.tokens_cons wf.1
      have notEnd : (k.tokens ++ .colon :: (v.tokens ++ (rest.tokens ++ .rparen :: toks))).head? ≠
          some .rparen := by
        simp [shape, notRparen]
      rw [TpEntries.tokens, List.append_assoc, List.cons_append, List.append_assoc, readEntries,
        if_neg notEnd, readK steps (by omega)]
      change (readTree steps (v.tokens ++ (rest.tokens ++ .rparen :: toks)) >>= _) = _
      rw [readV steps (by omega)]
      change (readEntries steps (rest.tokens ++ .rparen :: toks) >>= _) = _
      rw [readRest steps (by omega)]
      rfl
end

theorem balanced_atom {tok : Token} (isAtom : tok.isAtom = true) (depth : Nat) (toks : List Token) :
    balanced depth (tok :: toks) = balanced depth toks := by
  cases tok <;> cases isAtom <;> cases depth <;> rfl

mutual
theorem balanced_tree (t : TpTree) (wf : t.Wf) (depth : Nat) (toks : List Token) :
    balanced depth (t.tokens ++ toks) = balanced depth toks := by
  cases t with
  | atom tok => exact balanced_atom wf depth toks
  | table entries =>
      rw [TpTree.tokens, List.cons_append, List.append_assoc]
      exact balanced_entries entries wf (depth + 1) (.rparen :: toks)

theorem balanced_entries (entries : TpEntries) (wf : entries.Wf) (depth : Nat) (toks : List Token) :
    balanced depth (entries.tokens ++ toks) = balanced depth toks := by
  cases entries with
  | nil => rfl
  | item v rest =>
      rw [TpEntries.tokens, List.append_assoc, balanced_tree v wf.1, balanced_entries rest wf.2]
  | pair k v rest =>
      rw [TpEntries.tokens, List.append_assoc, List.cons_append, List.append_assoc,
        balanced_tree k wf.1]
      have colon : balanced depth (.colon :: (v.tokens ++ (rest.tokens ++ toks))) =
          balanced depth (v.tokens ++ (rest.tokens ++ toks)) := by
        cases depth <;> rfl
      rw [colon, balanced_tree v wf.2.1, balanced_entries rest wf.2.2]
end

mutual
theorem eof_not_mem_tree (t : TpTree) (wf : t.Wf) : .eof ∉ t.tokens := by
  cases t with
  | atom tok =>
      rw [TpTree.tokens, List.mem_singleton]
      rintro rfl
      exact Bool.false_ne_true wf
  | table entries => simp [TpTree.tokens, eof_not_mem_entries entries wf]

theorem eof_not_mem_entries (entries : TpEntries) (wf : entries.Wf) : .eof ∉ entries.tokens := by
  cases entries with
  | nil => simp [TpEntries.tokens]
  | item v rest =>
      simp [TpEntries.tokens, eof_not_mem_tree v wf.1, eof_not_mem_entries rest wf.2]
  | pair k v rest =>
      simp [TpEntries.tokens, eof_not_mem_tree k wf.1, eof_not_mem_tree v wf.2.1,
        eof_not_mem_entries rest wf.2.2]
end

/-! ## Texts -/

/-- The tokens up to the end of the text. -/
def scanTokens [Tonumber] (fuel : Nat) : Nat → P → Except ReaderError (List Token)
  | 0, _ => .error .outOfFuel
  | steps + 1, p => do
      let (tok, p) ← p.next fuel
      if tok = .eof then return []
      else do
        let toks ← scanTokens fuel steps p
        return tok :: toks

/-- The text, read as an entry of a table, is the tree. -/
def ReadsAs [Tonumber] (text : GCstr) (t : TpTree) : Prop :=
  ∃ toks enough, balanced 0 toks = true ∧ ∀ fuel ≥ enough,
    scanTokens fuel fuel { z := ch '(' :: text ++ [ch ')'] } = .ok (.lparen :: toks ++ [.rparen]) ∧
      readTree fuel toks = some (t, [])

theorem ReadsAs.unique [Tonumber] {text : GCstr} {t t' : TpTree} (reads : ReadsAs text t)
    (reads' : ReadsAs text t') : t = t' := by
  obtain ⟨toks, enough, -, run⟩ := reads
  obtain ⟨toks', enough', -, run'⟩ := reads'
  obtain ⟨scans, read⟩ := run (max enough enough') (le_max_left ..)
  obtain ⟨scans', read'⟩ := run' (max enough enough') (le_max_right ..)
  rw [scans] at scans'
  have same : toks = toks' := by simpa using scans'
  rw [same, read'] at read
  exact (Prod.mk.inj (Option.some.inj read)).1.symm

section

variable [Tonumber]

/-- From `z` on the tokens are read up to `tail`. -/
inductive Scans : GCstr → List Token → GCstr → Prop
  | nil (z : GCstr) : Scans z [] z
  | cons {z z' tail : GCstr} {tok : Token} {toks : List Token} (first : P.Reads z tok z')
      (rest : Scans z' toks tail) : Scans z (tok :: toks) tail

/-- Whatever may stand behind it, the text is read as the tokens. -/
def TextOf (text : GCstr) (toks : List Token) : Prop :=
  ∀ tail, Delimited tail → Scans (text ++ tail) toks tail

namespace Scans

variable {z z' tail : GCstr} {toks toks' : List Token}

theorem append (first : Scans z toks z') (rest : Scans z' toks' tail) :
    Scans z (toks ++ toks') tail := by
  induction first with
  | nil z => exact rest
  | cons reads scans induction => exact .cons reads (induction rest)

theorem blank (scans : Scans z toks tail) (some : toks ≠ []) : Scans (ch ' ' :: z) toks tail := by
  cases scans with
  | nil => exact absurd rfl some
  | cons reads scans => exact .cons reads.blank scans

theorem lparen (scans : Scans z toks tail) : Scans (ch '(' :: z) (.lparen :: toks) tail :=
  .cons (.single (by simp)) scans

theorem rparen (scans : Scans z toks tail) : Scans (ch ')' :: z) (.rparen :: toks) tail :=
  .cons (.single (by simp)) scans

theorem colon (scans : Scans z toks tail) : Scans (ch ':' :: z) (.colon :: toks) tail :=
  .cons (.single (by simp)) scans

theorem text {s : GCstr} (isText : TextOf s toks) (delimited : Delimited z)
    (scans : Scans z toks' tail) : Scans (s ++ z) (toks ++ toks') tail :=
  (isText z delimited).append scans

end Scans

theorem textOf_name {s : GCstr} (plain : P.plainName s = true) : TextOf s [.name s] := by
  rintro tail ⟨d, more, rfl, isEnd⟩
  exact .cons (P.reads_name plain isEnd) (.nil _)

theorem textOf_quoted {s t : GCstr} (quoted : tvmQuote s = .ok t) : TextOf t [.string s] :=
  fun _ _ => .cons (P.reads_quoted quoted) (.nil _)

theorem scanTokens_eq {z tail : GCstr} {toks : List Token} (scans : Scans z toks tail)
    (atEnd : tail = []) (noEof : .eof ∉ toks) :
    ∃ enough, ∀ fuel steps (p : P), enough ≤ fuel → enough ≤ steps → p.z = z →
      scanTokens fuel steps p = .ok toks := by
  induction scans with
  | nil z =>
      refine ⟨1, fun fuel steps p enough enoughSteps bytes => ?_⟩
      obtain ⟨steps, rfl⟩ : ∃ n, steps = n + 1 := ⟨steps - 1, by omega⟩
      rw [atEnd] at bytes
      obtain ⟨q, next, -⟩ := P.Reads.eof.next bytes enough
      rw [scanTokens, next]
      rfl
  | @cons z z' tail tok toks reads scans induction =>
      rw [List.mem_cons, not_or] at noEof
      obtain ⟨enough, run⟩ := induction atEnd noEof.2
      refine ⟨max enough z.length + 1, fun fuel steps p enoughFuel enoughSteps bytes => ?_⟩
      obtain ⟨steps, rfl⟩ : ∃ n, steps = n + 1 := ⟨steps - 1, by omega⟩
      obtain ⟨q, next, left⟩ := reads.next bytes (by omega : z.length < fuel)
      rw [scanTokens, next]
      change (if tok = .eof then _ else _) = _
      rw [if_neg (Ne.symm noEof.1), run fuel steps q (by omega) (by omega) left]
      rfl

/-- In front of the end of a table, the text is read as the entries. -/
def EntriesOf (text : GCstr) (entries : TpEntries) : Prop :=
  ∀ tail, Scans (text ++ ch ')' :: tail) (entries.tokens ++ [.rparen]) tail

theorem entriesOf_nil : EntriesOf [] .nil := fun _ => .rparen (.nil _)

/-- The tokens of one entry. -/
theorem entriesOf_last {text : GCstr} {toks : List Token} {entries : TpEntries}
    (isText : TextOf text toks) (whole : entries.tokens = toks) : EntriesOf text entries := by
  intro tail
  rw [whole]
  exact .text isText ⟨_, _, rfl, rfl⟩ (.rparen (.nil tail))

/-- The tokens of an entry, a blank, and more entries. -/
theorem entriesOf_more {text more : GCstr} {toks : List Token} {entries rest : TpEntries}
    (isText : TextOf text toks) (isMore : EntriesOf more rest)
    (whole : entries.tokens = toks ++ rest.tokens) : EntriesOf (text ++ ch ' ' :: more) entries := by
  intro tail
  rw [whole, List.append_assoc, List.append_assoc]
  exact .text isText ⟨_, _, rfl, rfl⟩ ((isMore tail).blank (by simp))

theorem entriesOf_value {text : GCstr} {v : TpTree} (isText : TextOf text v.tokens) :
    EntriesOf text (.item v .nil) := entriesOf_last isText (List.append_nil _)

theorem entriesOf_item {text more : GCstr} {v : TpTree} {rest : TpEntries}
    (isText : TextOf text v.tokens) (isMore : EntriesOf more rest) :
    EntriesOf (text ++ ch ' ' :: more) (.item v rest) :=
  entriesOf_more isText isMore rfl

/-- Anything may stand right behind a table. -/
theorem entriesOf_touching {text more : GCstr} {entries rest : TpEntries} (isText : EntriesOf text entries)
    (isMore : EntriesOf more rest) :
    EntriesOf (ch '(' :: (text ++ [ch ')']) ++ more) (.item (.table entries) rest) := by
  intro tail
  have scans := ((isText (more ++ ch ')' :: tail)).append (isMore tail)).lparen
  simpa [TpEntries.tokens, TpTree.tokens] using scans

/-- A key, a colon, a blank and a value. -/
theorem textOf_pair {key value : GCstr} {k v : TpTree} (isKey : TextOf key k.tokens)
    (isValue : TextOf value v.tokens) :
    TextOf (key ++ ch ':' :: ch ' ' :: value) (k.tokens ++ .colon :: v.tokens) := by
  intro tail delimited
  rw [List.append_assoc]
  exact .text isKey ⟨_, _, rfl, rfl⟩ (.colon ((isValue tail delimited).blank v.tokens_ne_nil))

theorem textOf_table {text : GCstr} {entries : TpEntries} (isText : EntriesOf text entries) :
    TextOf (ch '(' :: (text ++ [ch ')'])) (TpTree.table entries).tokens := by
  intro tail _
  rw [List.cons_append, List.append_assoc]
  exact .lparen (isText tail)

/-- The special form of this name. -/
def TpTree.form (sp : SP) (entries : TpEntries) : TpTree := .table (.item (.atom (.name sp.str)) entries)

omit [Tonumber] in
theorem plainName_str (sp : SP) : P.plainName sp.str = true := by
  cases sp <;> decide +kernel

theorem textOf_special (sp : SP) : TextOf sp.str [.name sp.str] := textOf_name (plainName_str sp)

theorem textOf_form (sp : SP) {text : GCstr} {entries : TpEntries} (isText : EntriesOf text entries) :
    TextOf (ch '(' :: (sp.str ++ ch ' ' :: text ++ [ch ')'])) (TpTree.form sp entries).tokens :=
  textOf_table (entriesOf_item (textOf_special sp) isText)

/-- A text of the tokens of a tree is read as the tree. -/
theorem TextOf.readsAs {text : GCstr} {t : TpTree} (wf : t.Wf) (isText : TextOf text t.tokens) :
    ReadsAs text t := by
  have scans : Scans (ch '(' :: text ++ [ch ')']) (.lparen :: t.tokens ++ [.rparen]) [] :=
    .lparen (.text isText ⟨_, _, rfl, rfl⟩ (.rparen (.nil [])))
  obtain ⟨enough, run⟩ := scanTokens_eq scans rfl (by simp [eof_not_mem_tree t wf])
  obtain ⟨enough', read⟩ := readTree_tokens t wf
  have closed := balanced_tree t wf 0 []
  refine ⟨t.tokens, max enough enough', ?_, fun fuel many => ⟨run fuel fuel _ ?_ ?_ rfl, ?_⟩⟩
  · rwa [List.append_nil] at closed
  · omega
  · omega
  · have whole := read fuel (by omega) []
    rwa [List.append_nil] at whole

end

end TvmJit
