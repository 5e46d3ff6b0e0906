import TvmJit.Lua.Escapes

/-! Long brackets of Lua: `L:_skip_sep` and `L:_read_long_string`, for strings and for
comments. -/

namespace TvmJit

open Lexer (lineBreaks)

/-! ## What is between long brackets -/

def equalSigns (level : Nat) : GCstr := List.replicate level (ch '=')

def openBracket (level : Nat) : GCstr := ch '[' :: (equalSigns level ++ [ch '['])

def closeBracket (level : Nat) : GCstr := ch ']' :: (equalSigns level ++ [ch ']'])

/-- No bracket of the level closes the contents before their end. -/
def ClosedAtEnd (level : Nat) (contents : GCstr) : Prop :=
  ∀ before, before ++ closeBracket level <+: contents ++ closeBracket level → before = contents

/-- Every line break as a line feed. -/
def unifyBreaks : GCstr → GCstr
  | [] => []
  | b :: rest =>
      if find newline (some b) then
        ch '\n' :: match rest with
          | [] => []
          | c :: rest => if find newline (some c) && c != b then unifyBreaks rest
              else unifyBreaks (c :: rest)
      else b :: unifyBreaks rest

/-- The contents without a line break that they start with. -/
def dropBreak (contents : GCstr) : GCstr :=
  if find newline contents.head? then pastBreak contents else contents

theorem ClosedAtEnd.suffix {level : Nat} {whole contents : GCstr} (closed : ClosedAtEnd level whole)
    (isSuffix : contents <:+ whole) : ClosedAtEnd level contents := by
  intro before isPrefix
  obtain ⟨front, rfl⟩ := isSuffix
  have longer : front ++ before ++ closeBracket level <+: front ++ contents ++ closeBracket level := by
    rw [List.append_assoc, List.append_assoc]
    exact (List.prefix_append_right_inj front).mpr isPrefix
  exact List.append_cancel_left (closed (front ++ before) longer)

theorem unifyBreaks_break {b : UInt8} (isBreak : find newline (some b) = true) (rest : GCstr) :
    unifyBreaks (b :: rest) = ch '\n' :: unifyBreaks (pastBreak (b :: rest)) := by
  cases rest with
  | nil =>
      rw [unifyBreaks, if_pos isBreak]
      rfl
  | cons c rest =>
      rw [unifyBreaks, if_pos isBreak, pastBreak]
      split
      · rfl
      · rfl

theorem unifyBreaks_append {front : GCstr} (plain : ∀ b ∈ front, find newline (some b) = false)
    (rest : GCstr) : unifyBreaks (front ++ rest) = front ++ unifyBreaks rest := by
  induction front with
  | nil => rfl
  | cons b front induction =>
      have first := plain b List.mem_cons_self
      rw [List.cons_append, unifyBreaks.eq_def]
      dsimp only
      rw [first, if_neg Bool.false_ne_true, List.cons_append]
      exact congrArg (b :: ·) (induction fun b' member => plain b' (List.mem_cons_of_mem b member))

theorem equalSigns_plain (level : Nat) : ∀ b ∈ equalSigns level, find newline (some b) = false := by
  intro b member
  rw [List.eq_of_mem_replicate member, newline_bytes]
  decide

/-- The equals signs in front of something else. -/
theorem exists_equalSigns (bytes : GCstr) :
    ∃ count rest, bytes = equalSigns count ++ rest ∧ rest.head? ≠ some (ch '=') := by
  induction bytes with
  | nil => exact ⟨0, [], rfl, (nomatch ·)⟩
  | cons b bytes induction =>
      by_cases isSign : b = ch '='
      · obtain ⟨count, rest, split, ended⟩ := induction
        refine ⟨count + 1, rest, ?_, ended⟩
        rw [isSign, split]
        rfl
      · exact ⟨0, b :: bytes, rfl, fun head => isSign (Option.some.inj head)⟩

namespace L

variable {l : L} {steps fuel : Nat} {tail : GCstr}

/-! ## `L:_skip_sep` -/

theorem sepLoop_signs {count : Nat} (ended : tail.head? ≠ some (ch '=')) (enough : count < fuel)
    (bytes : l.z = equalSigns count ++ tail) :
    sepLoop fuel l =
      .ok (count, { l with z := tail, buff := l.buff ++ List.replicate count [ch '='] }) := by
  induction count generalizing l fuel with
  | zero =>
      obtain ⟨fuel, rfl⟩ := Nat.exists_eq_succ_of_ne_zero (Nat.ne_of_gt enough)
      have isHead : l.current = tail.head? := by rw [current, bytes]; rfl
      have unchanged : ({ l with z := tail, buff := l.buff ++ [] } : L) = l := by
        rw [List.append_nil, ← List.nil_append tail]
        exact congrArg (fun z : GCstr => ({ l with z := z } : L)) bytes.symm
      rw [sepLoop, isHead, if_neg ended, List.replicate_zero, unchanged]
  | succ count induction =>
      obtain ⟨fuel, rfl⟩ := Nat.exists_eq_succ_of_ne_zero (Nat.ne_of_gt (Nat.zero_lt_of_lt enough))
      have bytes : l.z = ch '=' :: (equalSigns count ++ tail) := bytes
      rw [sepLoop, current_of_z bytes, if_pos rfl, saveAndNext_of_z bytes]
      change (sepLoop fuel _ >>= fun r => pure (r.1 + 1, r.2)) = _
      rw [induction (by omega) rfl, List.replicate_succ]
      change Except.ok (count + 1, { l with z := tail, buff := l.buff ++ [[ch '=']] ++ _ }) = _
      rw [List.append_assoc]
      rfl

theorem skipSep_signs {s : UInt8} {count : Nat} (isBracket : s = ch '[' ∨ s = ch ']')
    (ended : tail.head? ≠ some (ch '=')) (enough : count < fuel)
    (bytes : l.z = s :: (equalSigns count ++ tail)) :
    l.skipSep fuel =
      .ok (if tail.head? = some s then (count : Int) else -count - 1,
        { l with z := tail, buff := l.buff ++ [s] :: List.replicate count [ch '='] }) := by
  have allowed : ¬(some s ≠ some (ch '[') ∧ some s ≠ some (ch ']')) := by
    intro neither
    exact isBracket.elim (fun same => neither.1 (congrArg some same)) fun same => neither.2 (congrArg some same)
  have signs : sepLoop fuel { l with z := equalSigns count ++ tail, buff := l.buff ++ [[s]] } = _ :=
    sepLoop_signs ended enough rfl
  rw [skipSep, current_of_z bytes, if_neg allowed, saveAndNext_of_z bytes]
  change (sepLoop fuel _ >>= fun r =>
    pure (if r.2.current = some s then (r.1 : Int) else -r.1 - 1, r.2)) = _
  rw [signs]
  change Except.ok (_, { l with z := tail, buff := l.buff ++ [[s]] ++ _ }) = _
  rw [List.append_assoc]
  rfl

/-! ## `L:_read_long_string` -/

theorem flatten_signs (s : UInt8) (count : Nat) :
    ([s] :: List.replicate count [ch '=']).flatten = s :: equalSigns count := by
  induction count with
  | zero => rfl
  | succ count induction =>
      have same := List.cons.inj induction
      exact congrArg (fun signs => s :: ch '=' :: signs) same.2

/-- The closing bracket ends the loop. -/
theorem longStringLoop_close {tok : Bool} {level : Nat} {line : Int} (enough : level < steps)
    (bytes : l.z = closeBracket level ++ tail) :
    ∃ l', longStringLoop steps tok level line (fuel + 1) l = .ok l' ∧
      ReadTo tok l l' 0 (closeBracket level) tail := by
  have split : l.z = ch ']' :: (equalSigns level ++ ch ']' :: tail) := by
    rw [bytes, closeBracket, List.cons_append, List.append_assoc]
    rfl
  have ended : (ch ']' :: tail).head? ≠ some (ch '=') := fun same => absurd (Option.some.inj same) (by decide)
  have signs := skipSep_signs (.inr rfl) ended enough split
  rw [List.head?_cons, if_pos rfl] at signs
  rw [longStringLoop, current_of_z split, if_neg (by decide), if_pos rfl, signs]
  refine ⟨_, if_pos rfl, rfl, (add_zero _).symm, fun _ => ?_⟩
  change (l.buff ++ [ch ']'] :: List.replicate level [ch '='] ++ [[ch ']']]).flatten = _
  rw [List.flatten_concat, List.flatten_append, flatten_signs, List.append_assoc]
  rfl

/-- A square bracket that closes nothing. -/
theorem longStringLoop_bracket {tok : Bool} {level count : Nat} {line : Int} (enough : count < steps)
    (ended : tail.head? ≠ some (ch '=')) (other : ¬(tail.head? = some (ch ']') ∧ count = level))
    (bytes : l.z = ch ']' :: (equalSigns count ++ tail)) :
    ∃ l', longStringLoop steps tok level line (fuel + 1) l = longStringLoop steps tok level line fuel l' ∧
      ReadTo tok l l' 0 (ch ']' :: equalSigns count) tail := by
  have signs := skipSep_signs (.inr rfl) ended enough bytes
  have differs : (if tail.head? = some (ch ']') then (count : Int) else -count - 1) ≠ level := by
    split
    · next closes =>
        intro same
        exact other ⟨closes, Int.ofNat.inj same⟩
    · omega
  rw [longStringLoop, current_of_z bytes, if_neg (by decide), if_pos rfl, signs]
  refine ⟨_, if_neg differs, rfl, (add_zero _).symm, fun _ => ?_⟩
  change (l.buff ++ [ch ']'] :: List.replicate count [ch '=']).flatten = _
  rw [List.flatten_append, flatten_signs]
  rfl

theorem longStringLoop_break {tok : Bool} {b : UInt8} {sep line : Int} {rest : GCstr}
    (isBreak : find newline (some b) = true) (bytes : l.z = b :: rest) :
    ∃ l', longStringLoop steps tok sep line (fuel + 1) l = longStringLoop steps tok sep line fuel l' ∧
      ReadTo tok l l' 1 [ch '\n'] (pastBreak (b :: rest)) := by
  have notBracket : b ≠ ch ']' := find_forall newline_bytes isBreak (by decide)
  have skipped := inclinenumber_eq (l := l.save [ch '\n']) isBreak bytes
  rw [longStringLoop, current_of_z bytes, if_neg (by simp),
    if_neg fun same => notBracket (Option.some.inj same), if_pos isBreak, skipped]
  cases tok with
  | true => exact ⟨_, rfl, rfl, rfl, fun _ => text_concat l [ch '\n']⟩
  | false => exact ⟨_, rfl, rfl, rfl, (nomatch ·)⟩

theorem longStringLoop_plain {tok : Bool} {b : UInt8} {sep line : Int} (notBracket : b ≠ ch ']')
    (noBreak : find newline (some b) = false) (bytes : l.z = b :: tail) :
    ∃ l', longStringLoop steps tok sep line (fuel + 1) l = longStringLoop steps tok sep line fuel l' ∧
      ReadTo tok l l' 0 [b] tail := by
  have skipped : l.next_ = { l with z := tail } := by
    rw [next_, bytes]
    rfl
  rw [longStringLoop, current_of_z bytes, if_neg (by simp),
    if_neg fun same => notBracket (Option.some.inj same), noBreak, if_neg Bool.false_ne_true,
    saveAndNext_of_z bytes, skipped]
  cases tok with
  | true => exact ⟨_, rfl, rfl, (add_zero _).symm, fun _ => text_concat l [b]⟩
  | false => exact ⟨_, rfl, rfl, (add_zero _).symm, fun impossible => absurd impossible Bool.false_ne_true⟩

theorem head_contents {level : Nat} {contents : GCstr} (ended : contents.head? ≠ some (ch '=')) :
    (contents ++ (closeBracket level ++ tail)).head? ≠ some (ch '=') := by
  cases contents with
  | nil => exact fun same => absurd (Option.some.inj same) (by decide)
  | cons b contents => exact ended

/-- A square bracket in the contents closes nothing. -/
theorem ClosedAtEnd.closesNothing {level count : Nat} {contents : GCstr}
    (closed : ClosedAtEnd level (ch ']' :: (equalSigns count ++ contents))) :
    ¬((contents ++ (closeBracket level ++ tail)).head? = some (ch ']') ∧ count = level) := by
  rintro ⟨isBracket, rfl⟩
  have first : (contents ++ closeBracket count).head? = some (ch ']') := by
    cases contents with
    | nil => rfl
    | cons b contents => exact isBracket
  obtain ⟨more, shape⟩ := List.head?_eq_some_iff.mp first
  have isPrefix : [] ++ closeBracket count <+:
      ch ']' :: (equalSigns count ++ contents) ++ closeBracket count := by
    refine ⟨more, ?_⟩
    rw [List.nil_append, List.cons_append, List.append_assoc, shape, closeBracket, List.cons_append,
      List.append_assoc]
    rfl
  cases closed [] isPrefix

/-- The contents are read up to the first bracket that closes them. -/
theorem longStringLoop_contents {tok : Bool} {level : Nat} {line : Int} {contents : GCstr}
    (closed : ClosedAtEnd level contents) (bytes : l.z = contents ++ (closeBracket level ++ tail))
    (enough : l.z.length < fuel) (enoughSteps : l.z.length < steps) :
    ∃ l', longStringLoop steps tok level line fuel l = .ok l' ∧
      ReadTo tok l l' (lineBreaks contents) (unifyBreaks contents ++ closeBracket level) tail := by
  induction fuel generalizing contents l with
  | zero => omega
  | succ fuel induction =>
      -- One round takes the front of the contents.
      have goesOn {front left piece : GCstr} {breaks : Nat} (isFront : contents = front ++ left)
          (some : front ≠ []) (count : lineBreaks contents = lineBreaks left + breaks)
          (unified : unifyBreaks contents = piece ++ unifyBreaks left)
          (round : ∃ l₁, longStringLoop steps tok level line (fuel + 1) l =
            longStringLoop steps tok level line fuel l₁ ∧
            ReadTo tok l l₁ breaks piece (left ++ (closeBracket level ++ tail))) :
          ∃ l', longStringLoop steps tok level line (fuel + 1) l = .ok l' ∧
            ReadTo tok l l' (lineBreaks contents) (unifyBreaks contents ++ closeBracket level)
              tail := by
        obtain ⟨l₁, step, first⟩ := round
        have length : l.z.length = front.length + l₁.z.length := by
          rw [bytes, isFront, first.z, List.append_assoc, List.length_append]
        have positive := List.length_pos_of_ne_nil some
        obtain ⟨l', run, rest⟩ := induction (closed.suffix ⟨front, isFront.symm⟩) first.z (by omega) (by omega)
        refine ⟨l', step.trans run, ?_⟩
        rw [count, unified, List.append_assoc]
        exact first.trans rest
      cases contents with
      | nil =>
          have enoughSigns : level < steps := by
            rw [bytes] at enoughSteps
            simp only [closeBracket, equalSigns, List.length_append, List.length_cons,
              List.length_replicate] at enoughSteps
            omega
          exact longStringLoop_close enoughSigns bytes
      | cons b contents =>
          by_cases isBracket : b = ch ']'
          · obtain ⟨count, left, rfl, ended⟩ := exists_equalSigns contents
            subst isBracket
            have plain : ∀ c ∈ ch ']' :: equalSigns count, find newline (some c) = false := by
              refine List.forall_mem_cons.mpr ⟨?_, equalSigns_plain count⟩
              rw [newline_bytes]
              decide
            have enoughSigns : count < steps := by
              rw [bytes] at enoughSteps
              simp only [equalSigns, List.length_append, List.length_cons,
                List.length_replicate] at enoughSteps
              omega
            have split : l.z = ch ']' :: (equalSigns count ++ (left ++ (closeBracket level ++ tail))) := by
              rw [bytes, List.cons_append, List.append_assoc]
            have lines : lineBreaks (ch ']' :: (equalSigns count ++ left)) = lineBreaks left + 0 :=
              lineBreaks_append plain left
            have unified : unifyBreaks (ch ']' :: (equalSigns count ++ left)) =
                ch ']' :: equalSigns count ++ unifyBreaks left := unifyBreaks_append plain left
            exact goesOn rfl (List.cons_ne_nil _ _) lines unified
              (longStringLoop_bracket enoughSigns (head_contents ended)
                (ClosedAtEnd.closesNothing closed) split)
          · by_cases isBreak : find newline (some b) = true
            · have single : find newline (closeBracket level ++ tail).head? = false := by
                change find newline (some (ch ']')) = false
                rw [newline_bytes]
                decide
              obtain ⟨more, split⟩ := pastBreak_suffix b contents
              have isFront : b :: contents = b :: more ++ pastBreak (b :: contents) :=
                congrArg (b :: ·) split.symm
              have past := pastBreak_append b contents single
              have unified : unifyBreaks (b :: contents) =
                  [ch '\n'] ++ unifyBreaks (pastBreak (b :: contents)) := unifyBreaks_break isBreak contents
              apply goesOn isFront (List.cons_ne_nil _ _) (lineBreaks_break isBreak contents) unified
              rw [← past]
              exact longStringLoop_break isBreak bytes
            · have noBreak : find newline (some b) = false := by simpa using isBreak
              have plain : ∀ c ∈ [b], find newline (some c) = false := List.forall_mem_singleton.mpr noBreak
              have lines : lineBreaks (b :: contents) = lineBreaks contents + 0 :=
                lineBreaks_append plain contents
              have unified : unifyBreaks (b :: contents) = [b] ++ unifyBreaks contents :=
                unifyBreaks_append plain contents
              have isFront : b :: contents = [b] ++ contents := rfl
              exact goesOn isFront (List.cons_ne_nil _ _) lines unified
                (longStringLoop_plain isBracket noBreak bytes)

theorem readLongString_eq (tok : Bool) (sep : Int) (l : L) :
    readLongString fuel tok sep l = (if find newline l.saveAndNext.current then
      l.saveAndNext.inclinenumber else .ok l.saveAndNext) >>=
        longStringLoop fuel tok sep l.linenumber fuel := by
  rw [readLongString]
  split
  · rfl
  · rfl

theorem readLongString_contents {tok : Bool} {level : Nat} {contents : GCstr}
    (closed : ClosedAtEnd level contents)
    (bytes : l.z = ch '[' :: (contents ++ (closeBracket level ++ tail))) (enough : l.z.length < fuel) :
    ∃ l', readLongString fuel tok level l = .ok l' ∧ ReadTo tok l l' (lineBreaks contents)
      (ch '[' :: (unifyBreaks (dropBreak contents) ++ closeBracket level)) tail := by
  have opened := saveAndNext_of_z bytes
  have first : ReadTo tok l l.saveAndNext 0 [ch '['] (contents ++ (closeBracket level ++ tail)) := by
    rw [opened]
    exact ⟨rfl, (add_zero _).symm, fun _ => text_concat l [ch '[']⟩
  have shorter : l.saveAndNext.z.length < l.z.length := by
    rw [opened, bytes]
    exact Nat.lt_succ_self _
  have isHead : l.saveAndNext.current = (contents ++ (closeBracket level ++ tail)).head? := by
    rw [current, first.z]
  have noBracketBreak : find newline (some (ch ']')) = false := by
    rw [newline_bytes]
    decide
  -- The loop starts behind the first line break.
  have loop {q : L} {left : GCstr} (closed : ClosedAtEnd level left)
      (bytes : q.z = left ++ (closeBracket level ++ tail)) (enough : q.z.length < fuel) :
      ∃ l', longStringLoop fuel tok level l.linenumber fuel q = .ok l' ∧
        ReadTo tok q l' (lineBreaks left) (unifyBreaks left ++ closeBracket level) tail :=
    longStringLoop_contents closed bytes enough enough
  rw [readLongString_eq]
  by_cases isBreak : find newline contents.head? = true
  · cases contents with
    | nil => cases isBreak
    | cons b contents =>
        have past : pastBreak (b :: (contents ++ (closeBracket level ++ tail))) =
            pastBreak (b :: contents) ++ (closeBracket level ++ tail) :=
          pastBreak_append b contents noBracketBreak
        have skipped := inclinenumber_eq isBreak first.z
        let behind : L := { l.saveAndNext with
          z := pastBreak (b :: contents) ++ (closeBracket level ++ tail),
          linenumber := l.saveAndNext.linenumber + 1 }
        have second : ReadTo tok l.saveAndNext behind 1 []
            (pastBreak (b :: contents) ++ (closeBracket level ++ tail)) :=
          ⟨rfl, rfl, fun _ => (List.append_nil _).symm⟩
        have isSuffix := pastBreak_suffix b contents
        have fewer : behind.z.length ≤ l.saveAndNext.z.length := by
          have length := isSuffix.length_le
          rw [first.z]
          simp only [behind, List.length_append, List.length_cons]
          omega
        have closedRest := closed.suffix (isSuffix.trans (List.suffix_cons b contents))
        obtain ⟨l', run, rest⟩ := loop (q := behind) closedRest rfl (by omega)
        have isBreak' : find newline l.saveAndNext.current = true := by
          rw [isHead]
          exact isBreak
        refine ⟨l', ?_, ?_⟩
        · rw [if_pos isBreak', skipped, List.append_eq, past]
          exact run
        · have dropped : dropBreak (b :: contents) = pastBreak (b :: contents) := if_pos isBreak
          rw [lineBreaks_break isBreak contents, dropped]
          exact first.trans (second.trans rest)
  · have dropped : dropBreak contents = contents := if_neg isBreak
    have noBreak : find newline l.saveAndNext.current = false := by
      rw [isHead]
      cases contents with
      | nil => exact noBracketBreak
      | cons b contents => simpa using isBreak
    obtain ⟨l', run, rest⟩ := loop closed first.z (by omega)
    refine ⟨l', ?_, ?_⟩
    · rw [noBreak, if_neg Bool.false_ne_true]
      exact run
    · rw [dropped]
      exact first.trans rest

theorem readBracket_long {q : L} {level : Nat} (signs : l.skipSep fuel = .ok ((level : Int), q)) :
    l.readBracket fuel = (do
      let l ← readLongString fuel true level q
      return (.string ((l.text.drop (2 + level)).take (l.text.length - 2 * (2 + level))), l)) := by
  rw [readBracket, signs]
  dsimp only [bind, Except.bind]
  rw [if_pos (Int.natCast_nonneg level)]
  rfl

/-- A long string is what is between its brackets. -/
theorem llexLoop_long [Tonumber] {level : Nat} {contents : GCstr} (closed : ClosedAtEnd level contents)
    (fresh : l.buff = []) (bytes : l.z = openBracket level ++ (contents ++ (closeBracket level ++ tail)))
    (enough : l.z.length < steps) :
    ∃ l', llexLoop steps (fuel + 1) l = .ok (.string (unifyBreaks (dropBreak contents)), l') ∧
      l'.z = tail ∧ l'.linenumber = l.linenumber + lineBreaks contents := by
  let inside : GCstr := contents ++ (closeBracket level ++ tail)
  have start : l.z = ch '[' :: (equalSigns level ++ ch '[' :: inside) := by
    rw [bytes, openBracket, List.cons_append, List.append_assoc]
    rfl
  have length : l.z.length = level + inside.length + 2 := by
    rw [start, List.length_cons, List.length_append, equalSigns, List.length_replicate,
      List.length_cons]
    omega
  have enoughSigns : level < steps := by omega
  have ended : (ch '[' :: inside).head? ≠ some (ch '=') :=
    fun same => absurd (Option.some.inj same) (by decide)
  have signs := skipSep_signs (.inl rfl) ended enoughSigns start
  let opened : L := { l with
    z := ch '[' :: inside, buff := [ch '['] :: List.replicate level [ch '='] }
  have signs : l.skipSep steps = .ok ((level : Int), opened) := by
    rw [signs, List.head?_cons, if_pos rfl, fresh]
    rfl
  have short : opened.z.length < steps := by
    change inside.length + 1 < steps
    omega
  have reads : ∃ l', readLongString steps true level opened = .ok l' ∧ ReadTo true opened l'
      (lineBreaks contents) (ch '[' :: (unifyBreaks (dropBreak contents) ++ closeBracket level)) tail :=
    readLongString_contents closed rfl short
  obtain ⟨l', run, read⟩ := reads
  have text : l'.text = openBracket level ++ (unifyBreaks (dropBreak contents) ++ closeBracket level) := by
    rw [read.text rfl, openBracket]
    change ([ch '['] :: List.replicate level [ch '=']).flatten ++ _ = _
    rw [flatten_signs, List.cons_append, List.cons_append, List.append_assoc]
    rfl
  have sizes : (openBracket level).length = 2 + level ∧ (closeBracket level).length = 2 + level := by
    simp only [openBracket, closeBracket, equalSigns, List.length_cons, List.length_append,
      List.length_replicate, List.length_nil]
    omega
  have content : (l'.text.drop (2 + level)).take (l'.text.length - 2 * (2 + level)) =
      unifyBreaks (dropBreak contents) := by
    have total : l'.text.length - 2 * (2 + level) = (unifyBreaks (dropBreak contents)).length := by
      rw [text, List.length_append, List.length_append, sizes.1, sizes.2]
      omega
    rw [total, text, ← sizes.1, List.drop_left, List.take_left]
  have dispatched : llexLoop steps (fuel + 1) l = readBracket steps l := by
    rw [llexLoop, current_of_z start]
    rfl
  refine ⟨l', ?_, read.z, read.linenumber⟩
  rw [dispatched, readBracket_long signs, run]
  change Except.ok (Lexeme.string ((l'.text.drop (2 + level)).take _), l') = _
  rw [content]

end L

end TvmJit
