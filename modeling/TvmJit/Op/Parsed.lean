import TvmJit.Op.Reads
import TvmJit.Op.Layout

/-! What `P:expr` and `P:table` build from the texts of entries. -/

namespace TvmJit

open Lexer

/-- A method the loop of `P:table` calls. -/
inductive OpAct
  | push (v : OpExpr)
  | addkv (k v : OpExpr)

def OpAct.run [LuaTable] (t : Op) : OpAct → Except LibError Op
  | .push v => t.push v
  | .addkv k v => t.addkv k v

/-- A text something may be written in front of: it starts with a delimiter. -/
def Delimited (tail : GCstr) : Prop := ∃ d more, tail = d :: more ∧ isDelimiter d = true

namespace P

/-- The texts of entries with a blank before each, and the end of the table. -/
def entriesText (texts : List GCstr) (tail : GCstr) : GCstr :=
  texts.flatMap (ch ' ' :: ·) ++ ch ')' :: tail

theorem entriesText_delimited (texts : List GCstr) (tail : GCstr) :
    Delimited (entriesText texts tail) := by
  cases texts with
  | nil => exact ⟨_, _, rfl, rfl⟩
  | cons text texts => exact ⟨ch ' ', _, rfl, rfl⟩

theorem tconcat_cons (text : GCstr) (texts : List GCstr) :
    tconcat (text :: texts) = text ++ texts.flatMap (ch ' ' :: ·) := by
  induction texts generalizing text with
  | nil => simp [tconcat, List.intercalate]
  | cons text' texts induction =>
      have rest := induction text'
      rw [tconcat, List.intercalate] at rest ⊢
      rw [List.intersperse_cons_cons, List.flatten_cons, List.flatten_cons, rest]
      simp

theorem liftLib_bind {α β : Type} {r : Except LibError α} {a : α}
    {next : α → Except ReaderError β} (ok : r = .ok a) : (liftLib r >>= next) = next a := by
  rw [ok]
  rfl

variable [Tonumber] [LuaTable]

/-- From `z` the parser builds `e` and goes on at `tail`. -/
def ReadsExpr (z : GCstr) (e : OpExpr) (tail : GCstr) : Prop :=
  ∃ tok z₁ depth, Reads z tok z₁ ∧ tok ≠ .rparen ∧ tok ≠ .colon ∧
    ∀ fuel steps (q : P), z.length < fuel → depth ≤ steps → q.z = z₁ →
      ∃ q' : P, q'.z = tail ∧ expr fuel steps tok q = (q'.next fuel >>= fun r => .ok (e, r.1, r.2))

theorem ReadsExpr.blank {z tail : GCstr} {e : OpExpr} (reads : ReadsExpr z e tail) :
    ReadsExpr (ch ' ' :: z) e tail := by
  obtain ⟨tok, z₁, depth, reads, notRparen, notColon, built⟩ := reads
  refine ⟨tok, z₁, depth, reads.blank, notRparen, notColon, fun fuel steps q enough => ?_⟩
  exact built fuel steps q ((Nat.lt_succ_self _).trans enough)

/-- A token that is an expression. -/
theorem readsExpr_token {z tail : GCstr} {tok : Token} {e : OpExpr} (reads : Reads z tok tail)
    (isExpr : (∃ s, tok = .name s ∧ e = .name s) ∨ (∃ n, tok = .number n ∧ e = .number n) ∨
      ∃ s, tok = .string s ∧ e = .str s) : ReadsExpr z e tail := by
  refine ⟨tok, tail, 1, reads, ?_, ?_, fun fuel steps q enough deep at_ => ⟨q, at_, ?_⟩⟩
  · rcases isExpr with ⟨s, rfl, -⟩ | ⟨n, rfl, -⟩ | ⟨s, rfl, -⟩ <;> simp
  · rcases isExpr with ⟨s, rfl, -⟩ | ⟨n, rfl, -⟩ | ⟨s, rfl, -⟩ <;> simp
  · obtain ⟨steps, rfl⟩ : ∃ n, steps = n + 1 := ⟨steps - 1, by omega⟩
    rcases isExpr with ⟨s, rfl, rfl⟩ | ⟨n, rfl, rfl⟩ | ⟨s, rfl, rfl⟩ <;> rfl

/-- Whatever may stand behind it, the text is read as `e`. -/
def ReadsBack (text : GCstr) (e : OpExpr) : Prop :=
  ∀ tail, Delimited tail → ReadsExpr (text ++ tail) e tail

/-- The text of an entry is read for a call of a method. -/
def ReadsAct (text : GCstr) : OpAct → Prop
  | .push v => ReadsBack text v
  | .addkv k v => ∃ keyText valueText, text = keyText ++ .ofString ": " ++ valueText ∧
      ReadsBack keyText k ∧ ReadsBack valueText v

/-- From `z` on the loop of `P:table` calls the methods and ends at `tail`. -/
def ReadsLoop (z : GCstr) (acts : List OpAct) (tail : GCstr) : Prop :=
  ∃ tok z₁ depth, Reads z tok z₁ ∧ tok ≠ .colon ∧
    ∀ fuel steps (q : P) (t t' : Op), acts.foldlM OpAct.run t = .ok t' → z.length < fuel →
      depth ≤ steps → q.z = z₁ →
        ∃ q' : P, q'.z = tail ∧ tableLoop fuel steps t tok q = .ok (t', q')

namespace ReadsLoop

variable {z tail : GCstr} {acts : List OpAct}

theorem blank (reads : ReadsLoop z acts tail) : ReadsLoop (ch ' ' :: z) acts tail := by
  obtain ⟨tok, z₁, depth, reads, notColon, built⟩ := reads
  refine ⟨tok, z₁, depth, reads.blank, notColon, fun fuel steps q t t' run enough => ?_⟩
  exact built fuel steps q t t' run ((Nat.lt_succ_self _).trans enough)

theorem done (tail : GCstr) : ReadsLoop (ch ')' :: tail) [] tail := by
  refine ⟨.rparen, tail, 1, .single (by simp), by simp, fun fuel steps q t t' run enough deep at_ => ?_⟩
  obtain ⟨steps, rfl⟩ : ∃ n, steps = n + 1 := ⟨steps - 1, by omega⟩
  cases run
  exact ⟨q, at_, if_pos rfl⟩

/-- After the method `first` of the text comes the rest of the loop. -/
theorem cons {text : GCstr} {act : OpAct} (first : ReadsAct text act)
    (rest : ReadsLoop z acts tail) (delimited : Delimited z) :
    ReadsLoop (text ++ z) (act :: acts) tail := by
  obtain ⟨tok₂, z₂, depth₂, reads₂, notColon₂, built₂⟩ := rest
  -- What an expression up to `z` leaves for the rest of the loop.
  have goesOn {fuel steps : Nat} {tok : Token} {q q₁ : P} {v : OpExpr} (enough : z.length < fuel)
      (left : q₁.z = z)
      (built : expr fuel steps tok q = (q₁.next fuel >>= fun r => .ok (v, r.1, r.2))) :
      ∃ q₂, q₂.z = z₂ ∧ expr fuel steps tok q = .ok (v, tok₂, q₂) := by
    obtain ⟨q₂, next, left₂⟩ := reads₂.next left enough
    refine ⟨q₂, left₂, ?_⟩
    rw [built, next]
    rfl
  cases act with
  | push v =>
      obtain ⟨tok, z₁, depth, reads, notRparen, notColon, built⟩ := first z delimited
      refine ⟨tok, z₁, max depth depth₂ + 1, reads, notColon,
        fun fuel steps q t t' run enough deep at_ => ?_⟩
      obtain ⟨steps, rfl⟩ : ∃ n, steps = n + 1 := ⟨steps - 1, by omega⟩
      have enoughRest : z.length < fuel := by
        rw [List.length_append] at enough
        omega
      obtain ⟨q₁, left, built⟩ := built fuel steps q enough (by omega) at_
      obtain ⟨q₂, left₂, built⟩ := goesOn enoughRest left built
      rw [List.foldlM_cons] at run
      obtain ⟨t₁, pushed, run⟩ := bind_ok run
      obtain ⟨q', left', loop⟩ := built₂ fuel steps q₂ t₁ t' run enoughRest (by omega) left₂
      refine ⟨q', left', ?_⟩
      rw [tableLoop, if_neg notRparen, built]
      change (if tok₂ = .colon then _ else liftLib (t.push v) >>= fun t =>
        tableLoop fuel steps t tok₂ q₂) = _
      have pushed : t.push v = .ok t₁ := pushed
      rw [if_neg notColon₂, liftLib_bind pushed, loop]
  | addkv k v =>
      obtain ⟨keyText, valueText, rfl, readsKey, readsValue⟩ := first
      have separator : GCstr.ofString ": " = [ch ':', ch ' '] := by decide +kernel
      have shape : keyText ++ GCstr.ofString ": " ++ valueText ++ z =
          keyText ++ ch ':' :: ch ' ' :: (valueText ++ z) := by simp [separator]
      obtain ⟨tok, z₁, depth, reads, notRparen, notColon, built⟩ :=
        readsKey (ch ':' :: ch ' ' :: (valueText ++ z)) ⟨_, _, rfl, rfl⟩
      obtain ⟨tokValue, zValue, depthValue, readsValue, -, -, builtValue⟩ :=
        (readsValue z delimited).blank
      rw [shape]
      refine ⟨tok, z₁, max depth (max depthValue depth₂) + 1, reads, notColon,
        fun fuel steps q t t' run enough deep at_ => ?_⟩
      obtain ⟨steps, rfl⟩ : ∃ n, steps = n + 1 := ⟨steps - 1, by omega⟩
      have enoughKey := enough
      rw [List.length_append, List.length_cons] at enough
      have enoughValue : (ch ' ' :: (valueText ++ z)).length < fuel := by omega
      have enoughRest : z.length < fuel := by
        rw [List.length_cons, List.length_append] at enoughValue
        omega
      -- The key and the colon behind it.
      obtain ⟨q₁, left, builtKey⟩ := built fuel steps q enoughKey (by omega) at_
      have readsColon : Reads (ch ':' :: ch ' ' :: (valueText ++ z)) .colon
          (ch ' ' :: (valueText ++ z)) := .single (by simp)
      have enoughColon : (ch ':' :: ch ' ' :: (valueText ++ z)).length < fuel := by
        rw [List.length_cons]
        omega
      obtain ⟨qColon, colon, leftColon⟩ := readsColon.next left enoughColon
      rw [colon] at builtKey
      -- The value and the token behind it.
      obtain ⟨qValue, next, leftValue⟩ := readsValue.next leftColon enoughValue
      obtain ⟨q₂, left₂, builtValue⟩ :=
        builtValue fuel steps qValue enoughValue (by omega) leftValue
      obtain ⟨q₃, left₃, builtValue⟩ := goesOn enoughRest left₂ builtValue
      rw [List.foldlM_cons] at run
      obtain ⟨t₁, stored, run⟩ := bind_ok run
      have stored : t.addkv k v = .ok t₁ := stored
      obtain ⟨q', left', loop⟩ := built₂ fuel steps q₃ t₁ t' run enoughRest (by omega) left₃
      refine ⟨q', left', ?_⟩
      rw [tableLoop, if_neg notRparen, builtKey]
      change (qColon.next fuel >>= fun r => expr fuel steps r.1 r.2 >>= fun r' =>
        liftLib (t.addkv k r'.1) >>= fun t => tableLoop fuel steps t r'.2.1 r'.2.2) = _
      rw [next]
      change (expr fuel steps tokValue qValue >>= _) = _
      rw [builtValue]
      change (liftLib (t.addkv k v) >>= _) = _
      rw [liftLib_bind stored, loop]

end ReadsLoop

/-! ## Tables -/

theorem readsLoop_entries {texts : List GCstr} {acts : List OpAct} (tail : GCstr)
    (reads : List.Forall₂ ReadsAct texts acts) : ReadsLoop (entriesText texts tail) acts tail := by
  induction reads with
  | nil => exact .done tail
  | @cons text act texts acts first rest induction =>
      have next := (ReadsLoop.cons first induction (entriesText_delimited texts tail)).blank
      have shape : entriesText (text :: texts) tail = ch ' ' :: (text ++ entriesText texts tail) := by
        simp [entriesText]
      rwa [shape]

theorem readsLoop_tconcat {texts : List GCstr} {acts : List OpAct} (tail : GCstr)
    (reads : List.Forall₂ ReadsAct texts acts) :
    ReadsLoop (tconcat texts ++ ch ')' :: tail) acts tail := by
  cases reads with
  | nil => exact .done tail
  | @cons text act texts acts first rest =>
      have shape : tconcat (text :: texts) ++ ch ')' :: tail = text ++ entriesText texts tail := by
        rw [tconcat_cons, entriesText, List.append_assoc]
      rw [shape]
      exact .cons first (readsLoop_entries tail rest) (entriesText_delimited texts tail)

/-- From `z` the parser builds the table `e` and goes on at `tail`. -/
def ReadsTable (z : GCstr) (e : OpExpr) (tail : GCstr) : Prop :=
  ∃ z₁ depth, Reads z .lparen z₁ ∧
    ∀ fuel steps (q : P), z.length < fuel → depth ≤ steps → q.z = z₁ →
      ∃ q' : P, q'.z = tail ∧ table fuel steps q = (q'.next fuel >>= fun r => .ok (e, r.1, r.2))

theorem ReadsTable.expr {z tail : GCstr} {e : OpExpr} (reads : ReadsTable z e tail) :
    ReadsExpr z e tail := by
  obtain ⟨z₁, depth, reads, built⟩ := reads
  refine ⟨.lparen, z₁, depth + 1, reads, by simp, by simp, fun fuel steps q enough deep at_ => ?_⟩
  obtain ⟨steps, rfl⟩ : ∃ n, steps = n + 1 := ⟨steps - 1, by omega⟩
  exact built fuel steps q enough (by omega) at_

/-- The text of a table, with nothing or a line break before it. -/
theorem readsTable_text {texts : List GCstr} {acts : List OpAct} {t : Op} {start : GCstr}
    (starts : start = [ch '('] ∨ start = [ch '\n', ch '('])
    (reads : List.Forall₂ ReadsAct texts acts) (run : acts.foldlM OpAct.run [] = .ok t)
    (tail : GCstr) : ReadsTable (start ++ tconcat texts ++ [ch ')'] ++ tail) (.op t) tail := by
  obtain ⟨tok, z₁, depth, readsFirst, -, built⟩ := readsLoop_tconcat tail reads
  have shape : start ++ tconcat texts ++ [ch ')'] ++ tail =
      start ++ (tconcat texts ++ ch ')' :: tail) := by simp
  have lparen : Reads (start ++ (tconcat texts ++ ch ')' :: tail)) .lparen
      (tconcat texts ++ ch ')' :: tail) := by
    have single : Reads (ch '(' :: (tconcat texts ++ ch ')' :: tail)) .lparen
        (tconcat texts ++ ch ')' :: tail) := .single (by simp)
    rcases starts with rfl | rfl
    · exact single
    · exact single.newline
  rw [shape]
  refine ⟨_, depth + 1, lparen, fun fuel steps q enough deep at_ => ?_⟩
  obtain ⟨steps, rfl⟩ : ∃ n, steps = n + 1 := ⟨steps - 1, by omega⟩
  rw [List.length_append] at enough
  have enoughFirst : (tconcat texts ++ ch ')' :: tail).length < fuel := by omega
  obtain ⟨q₁, next, left⟩ := readsFirst.next at_ enoughFirst
  obtain ⟨q', left', loop⟩ := built fuel steps q₁ [] t run enoughFirst (by omega) left
  refine ⟨q', left', ?_⟩
  rw [table, next]
  change (tableLoop fuel steps [] tok q₁ >>= _) = _
  rw [loop]
  rfl

/-! ## Programs -/

/-- From `z` on the loop of `parse` adds the tables `es`. -/
def ReadsOps (z : GCstr) (es : List OpExpr) : Prop :=
  ∃ tok z₁ depth, Reads z tok z₁ ∧
    ∀ fuel steps (q : P) (ast : List OpExpr), z.length < fuel → depth ≤ steps → q.z = z₁ →
      opsLoop fuel steps ast tok q = .ok (ast ++ es)

namespace ReadsOps

theorem done : ReadsOps [] [] := by
  refine ⟨.eof, [], 1, .eof, fun fuel steps q ast enough deep at_ => ?_⟩
  obtain ⟨steps, rfl⟩ : ∃ n, steps = n + 1 := ⟨steps - 1, by omega⟩
  rw [List.append_nil]
  rfl

theorem cons {text z : GCstr} {e : OpExpr} {es : List OpExpr} (first : ReadsTable (text ++ z) e z)
    (rest : ReadsOps z es) : ReadsOps (text ++ z) (e :: es) := by
  obtain ⟨z₁, depth, reads, built⟩ := first
  obtain ⟨tok₂, z₂, depth₂, reads₂, built₂⟩ := rest
  refine ⟨.lparen, z₁, max depth depth₂ + 1, reads, fun fuel steps q ast enough deep at_ => ?_⟩
  obtain ⟨steps, rfl⟩ : ∃ n, steps = n + 1 := ⟨steps - 1, by omega⟩
  have enoughRest : z.length < fuel := by
    rw [List.length_append] at enough
    omega
  obtain ⟨q₁, left, builtTable⟩ := built fuel steps q enough (by omega) at_
  obtain ⟨q₂, next, left₂⟩ := reads₂.next left enoughRest
  rw [opsLoop, if_pos rfl, builtTable, next]
  change opsLoop fuel steps (ast ++ [e]) tok₂ q₂ = _
  rw [built₂ fuel steps q₂ _ enoughRest (by omega) left₂, List.append_assoc, List.singleton_append]

/-- A text without a BOM or header line is read as a program. -/
theorem parse {z : GCstr} {es : List OpExpr} (reads : ReadsOps z es)
    (plain : z.head? ≠ some 0xEF ∧ z.head? ≠ some (ch '#')) :
    ∃ enough, ∀ fuel ≥ enough, tvmParse fuel z = .ok es := by
  obtain ⟨tok, z₁, depth, reads, built⟩ := reads
  refine ⟨max depth (z.length + 1), fun fuel enough => ?_⟩
  have noBom : (setinput z).bom = setinput z := if_neg plain.1
  have noHeader : (setinput z).shebang fuel = .ok (setinput z) := by
    rw [shebang, noBom]
    exact if_neg plain.2
  have long : z.length < fuel := by omega
  obtain ⟨q, next, left⟩ := reads.next (p := setinput z) rfl long
  rw [tvmParse, noHeader]
  change ((setinput z).next fuel >>= _) = _
  rw [next]
  change opsLoop fuel fuel [] tok q = _
  rw [built fuel fuel q [] long (by omega) left, List.nil_append]

end ReadsOps

end P

end TvmJit
