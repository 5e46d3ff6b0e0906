import TvmJit.Lua.Gaps
import TvmJit.Lua.Numeral
import Mathlib.Data.List.TakeWhile

/-! What `L:_llex` has skipped when it comes to the token behind a gap. -/

namespace TvmJit

open Lexer (lineBreaks)

/-- The first bracket that closes. -/
theorem exists_closedAtEnd (level : Nat) (contents rest : GCstr) :
    ∃ first left, ClosedAtEnd level first ∧
      contents ++ (closeBracket level ++ rest) = first ++ (closeBracket level ++ left) := by
  induction length : contents.length using Nat.strong_induction_on generalizing contents rest with
  | _ n induction =>
      by_cases closed : ClosedAtEnd level contents
      · exact ⟨contents, rest, closed, rfl⟩
      · rw [ClosedAtEnd, not_forall] at closed
        obtain ⟨before, closed⟩ := closed
        rw [Classical.not_imp] at closed
        obtain ⟨⟨more, isPrefix⟩, differs⟩ := closed
        have total := congrArg List.length isPrefix
        simp only [List.length_append] at total
        have someMore : more.length ≠ 0 := by
          intro none
          rw [List.eq_nil_of_length_eq_zero none, List.append_nil] at isPrefix
          exact differs (List.append_cancel_right isPrefix)
        have shorter : before.length < n := by omega
        have split : contents ++ (closeBracket level ++ rest) =
            before ++ (closeBracket level ++ (more ++ rest)) := by
          rw [← List.append_assoc, ← isPrefix]
          simp only [List.append_assoc]
        rw [split]
        exact induction before.length shorter before (more ++ rest) rfl

namespace L

variable {l l' : L} {steps fuel : Nat} {tail : GCstr}

/-- A long string or comment that is read has an end. -/
theorem longStringLoop_ok {tok : Bool} {level : Nat} {line : Int}
    (run : longStringLoop steps tok level line fuel l = .ok l') (enough : l.z.length < steps) :
    ∃ contents, l.z = contents ++ (closeBracket level ++ l'.z) := by
  induction fuel generalizing l with
  | zero => cases run
  | succ fuel induction =>
      -- One round takes a part in front.
      have goesOn (front : GCstr) {rest piece : GCstr} {breaks : Nat} (isFront : l.z = front ++ rest)
          (round : ∃ l₁, longStringLoop steps tok level line (fuel + 1) l =
            longStringLoop steps tok level line fuel l₁ ∧ ReadTo tok l l₁ breaks piece rest) :
          ∃ contents, l.z = contents ++ (closeBracket level ++ l'.z) := by
        obtain ⟨l₁, step, read⟩ := round
        have shorter : l₁.z.length ≤ l.z.length := by
          rw [isFront, read.z, List.length_append]
          exact Nat.le_add_left _ _
        obtain ⟨contents, split⟩ := induction (step.symm.trans run) (Nat.lt_of_le_of_lt shorter enough)
        exact ⟨front ++ contents, by rw [isFront, ← read.z, split, List.append_assoc]⟩
      cases bytes : l.z with
      | nil =>
          have atEnd : l.current = none := by rw [current, bytes]; rfl
          rw [longStringLoop, if_pos atEnd] at run
          cases run
      | cons b rest =>
          rw [← bytes]
          by_cases isBracket : b = ch ']'
          · subst isBracket
            obtain ⟨count, left, rfl, ended⟩ := exists_equalSigns rest
            have enoughSigns : count < steps := by
              rw [bytes] at enough
              simp only [equalSigns, List.length_append, List.length_cons, List.length_replicate] at enough
              omega
            by_cases closes : left.head? = some (ch ']') ∧ count = level
            · obtain ⟨isHead, rfl⟩ := closes
              obtain ⟨left, rfl⟩ := List.head?_eq_some_iff.mp isHead
              have split : l.z = closeBracket count ++ left := by
                rw [bytes, closeBracket, List.cons_append, List.append_assoc]
                rfl
              have closing : ∃ l₁, longStringLoop steps tok count line (fuel + 1) l = .ok l₁ ∧
                  ReadTo tok l l₁ 0 (closeBracket count) left := longStringLoop_close enoughSigns split
              obtain ⟨l₁, step, read⟩ := closing
              cases step.symm.trans run
              exact ⟨[], by rw [read.z, split]; rfl⟩
            · exact goesOn (ch ']' :: equalSigns count) bytes
                (longStringLoop_bracket enoughSigns ended closes bytes)
          · by_cases isBreak : find newline (some b) = true
            · obtain ⟨more, split⟩ := pastBreak_suffix b rest
              have isFront : l.z = b :: more ++ pastBreak (b :: rest) := by
                rw [bytes]
                exact congrArg (b :: ·) split.symm
              exact goesOn (b :: more) isFront (longStringLoop_break isBreak bytes)
            · have noBreak : find newline (some b) = false := by simpa using isBreak
              exact goesOn [b] bytes (longStringLoop_plain isBracket noBreak bytes)

theorem readLongString_ok {tok : Bool} {level : Nat}
    (run : readLongString fuel tok level l = .ok l') (bytes : l.z = ch '[' :: tail)
    (enough : l.z.length < fuel) : ∃ contents, tail = contents ++ (closeBracket level ++ l'.z) := by
  have behind : l.saveAndNext.z = tail := by rw [saveAndNext_of_z bytes]
  have shorter : tail.length < fuel := by
    rw [bytes, List.length_cons] at enough
    exact Nat.lt_of_succ_lt enough
  rw [readLongString_eq] at run
  by_cases isBreak : find newline l.saveAndNext.current = true
  · cases tail with
    | nil =>
        rw [current, behind] at isBreak
        cases isBreak
    | cons b rest =>
        rw [current, behind] at isBreak
        rw [current, behind, if_pos isBreak, inclinenumber_eq isBreak behind] at run
        obtain ⟨more, split⟩ := pastBreak_suffix b rest
        have fewer : (pastBreak (b :: rest)).length < fuel :=
          Nat.lt_of_le_of_lt (pastBreak_suffix b rest).length_le (Nat.lt_of_succ_lt shorter)
        obtain ⟨contents, isRest⟩ := longStringLoop_ok run fewer
        refine ⟨b :: more ++ contents, ?_⟩
        have isRest : pastBreak (b :: rest) = contents ++ (closeBracket level ++ l'.z) := isRest
        rw [← split, isRest, List.cons_append, List.cons_append, List.append_assoc]
  · rw [if_neg isBreak] at run
    obtain ⟨contents, split⟩ := longStringLoop_ok run (by rw [behind]; exact shorter)
    exact ⟨contents, behind.symm.trans split⟩

/-- A short comment ends at a line break, or with the source. -/
theorem shortComment_ok (run : shortComment fuel l = .ok l') :
    ∃ text, l.z = text ++ l'.z ∧ (∀ b ∈ text, find newline (some b) = false) ∧
      (find newline l'.z.head? = true ∨ l'.z = []) ∧ l' = { l with z := l'.z } := by
  induction fuel generalizing l with
  | zero => cases run
  | succ fuel induction =>
      rw [shortComment] at run
      split at run
      · next goesOn =>
          cases bytes : l.z with
          | nil =>
              rw [current, bytes] at goesOn
              cases goesOn
          | cons b rest =>
              rw [current, bytes, List.head?_cons] at goesOn
              obtain ⟨text, split, plain, ended, same⟩ := induction run
              have z : l.next_.z = rest := by rw [next_, bytes]; rfl
              refine ⟨b :: text, ?_, List.forall_mem_cons.mpr ⟨by simpa using goesOn, plain⟩, ended, same⟩
              rw [← z, split]
              rfl
      · next stops =>
          cases run
          refine ⟨[], rfl, List.forall_mem_nil _, ?_, rfl⟩
          cases bytes : l'.z with
          | nil => exact .inr rfl
          | cons b rest =>
              left
              rw [current, bytes] at stops
              simpa using stops

/-! ## Tokens other than a probe -/

/-- The longest name that these bytes start with. -/
def nameText (bytes : GCstr) : GCstr := bytes.takeWhile fun b => find alnum (some b)

/-- Neither the end of the source nor a name but the one that is next. -/
def TakesName (l : L) (r : Lexeme × L) : Prop := r.1 ≠ .eof ∧ ∀ s, r.1 = .name s → s = nameText l.z

theorem TakesName.plain (l : L) (token : GCstr) (after : L) : TakesName l (.plain token, after) :=
  ⟨(nomatch ·), fun _ isName => nomatch isName⟩

theorem TakesName.string (l : L) (seminfo : GCstr) (after : L) : TakesName l (.string seminfo, after) :=
  ⟨(nomatch ·), fun _ isName => nomatch isName⟩

theorem nameLoop_text (run : nameLoop fuel l = .ok l') : l'.text = l.text ++ nameText l.z := by
  induction fuel generalizing l with
  | zero => cases run
  | succ fuel induction =>
      rw [nameLoop] at run
      cases bytes : l.z with
      | nil =>
          rw [current, bytes, if_neg (by decide)] at run
          cases run
          exact (List.append_nil _).symm
      | cons b rest =>
          have isHead : l.current = some b := current_of_z bytes
          rw [isHead] at run
          rw [nameText, List.takeWhile_cons]
          split at run
          · next goesOn =>
              rw [if_pos goesOn, induction run, saveAndNext_of_z bytes]
              change (l.buff ++ [[b]]).flatten ++ _ = _
              rw [List.flatten_concat, List.append_assoc]
              rfl
          · next stops =>
              cases run
              rw [if_neg stops, List.append_nil]

theorem readName_takesName {b : UInt8} (starts : find alpha (some b) = true) (fresh : l.buff = [])
    (bytes : l.z = b :: tail) : Foundation.Ends (TakesName l) mayFail (l.readName steps) := by
  apply Foundation.Ends.bind (ends_mayFail fun after run => nameLoop_text run)
  intro after _ text
  have isAlnum : find alnum (some b) = true := by
    have isAlpha : b ∈ alpha := by simpa [find] using starts
    simpa [alnum, find] using Or.inl isAlpha
  have first : nameText (b :: tail) = b :: nameText tail := List.takeWhile_cons_of_pos isAlnum
  have whole : after.text = nameText l.z := by
    rw [text, saveAndNext_of_z bytes, fresh, bytes, first]
    rfl
  refine ⟨?_, fun s isName => ?_⟩
  · change (if _ then _ else _) ≠ _
    split
    · intro impossible
      cases impossible
    · intro impossible
      cases impossible
  · change (if _ then _ else _) = _ at isName
    split at isName
    · cases isName
    · cases isName
      exact whole

theorem readBracket_takesName : Foundation.Ends (TakesName l) mayFail (l.readBracket steps) := by
  apply Foundation.Ends.bind (ends_mayFail fun _ _ => trivial)
  intro read _ _
  apply Foundation.Ends.ite
  · intro isLong
    apply Foundation.Ends.bind (ends_mayFail fun _ _ => trivial)
    exact fun _ _ _ => TakesName.string l _ _
  · intro notLong
    apply Foundation.Ends.ite
    · exact fun _ => trivial
    · exact fun _ => TakesName.plain l _ _

theorem readString_takesName {del : UInt8} : Foundation.Ends (TakesName l) mayFail (l.readString steps del) := by
  apply Foundation.Ends.bind (ends_mayFail fun _ _ => trivial)
  exact fun _ _ _ => TakesName.string l _ _

theorem operator_takesName {first : UInt8} {seconds : List UInt8} :
    Foundation.Ends (TakesName l) mayFail (.ok (l.operator first seconds)) := by
  rw [operator]
  split
  · exact TakesName.plain l _ _
  · exact TakesName.plain l _ _

variable [Tonumber]

theorem readNumeral_takesName (q : L) : Foundation.Ends (TakesName l) mayFail (q.readNumeral steps) := by
  apply ends_mayFail
  intro r run
  obtain ⟨text, b, rest, val, isNumber, read⟩ := readNumeral_text run
  rw [TakesName, isNumber]
  exact ⟨(nomatch ·), fun _ isName => nomatch isName⟩

theorem readDot_takesName : Foundation.Ends (TakesName l) mayFail (l.readDot steps) := by
  apply Foundation.Ends.ite
  · exact fun _ => TakesName.plain l _ _
  · intro single
    apply Foundation.Ends.ite
    · exact fun _ => TakesName.plain l _ _
    · exact fun _ => readNumeral_takesName _

/-- Where the source goes on with neither blanks nor a hyphen there is a token. -/
theorem llexLoop_takesName {b : UInt8} (fresh : l.buff = []) (bytes : l.z = b :: tail)
    (noBreak : ¬(b = ch '\n' ∨ b = ch '\r'))
    (noSpace : ¬(b = ch ' ' ∨ b = 12 ∨ b = ch '\t' ∨ b = 11)) (noHyphen : b ≠ ch '-') :
    Foundation.Ends (TakesName l) mayFail (llexLoop steps (fuel + 1) l) := by
  rw [llexLoop, current_of_z bytes]
  dsimp only
  rw [if_neg noBreak, if_neg noSpace, if_neg noHyphen]
  apply Foundation.Ends.ite (fun _ => readBracket_takesName)
  intro _
  apply Foundation.Ends.ite (fun _ => operator_takesName)
  intro _
  apply Foundation.Ends.ite (fun _ => operator_takesName)
  intro _
  apply Foundation.Ends.ite (fun _ => operator_takesName)
  intro _
  apply Foundation.Ends.ite (fun _ => operator_takesName)
  intro _
  apply Foundation.Ends.ite (fun _ => operator_takesName)
  intro _
  apply Foundation.Ends.ite (fun _ => operator_takesName)
  intro _
  apply Foundation.Ends.ite (fun _ => readString_takesName)
  intro _
  apply Foundation.Ends.ite (fun _ => readDot_takesName)
  intro _
  apply Foundation.Ends.ite (fun _ => readNumeral_takesName l)
  intro _
  apply Foundation.Ends.ite (fun starts => readName_takesName starts fresh bytes)
  exact fun _ => TakesName.plain l _ _

end L

/-! ## Gaps in front of a probe -/

/-- The bytes end neither in a bracket that may open a long comment nor in its equals signs. -/
def NoOpening (bytes : GCstr) : Prop := ∀ b, bytes.getLast? = some b → b ≠ ch '[' ∧ b ≠ ch '='

namespace NoOpening

variable {front rest : GCstr}

theorem single {b : UInt8} (other : b ≠ ch '[' ∧ b ≠ ch '=') : NoOpening [b] := by
  intro last isLast
  rwa [← Option.some.inj isLast]

theorem append (first : NoOpening front) (second : NoOpening rest) : NoOpening (front ++ rest) := by
  intro b isLast
  rw [List.getLast?_append] at isLast
  cases last : rest.getLast? with
  | none =>
      rw [last] at isLast
      exact first b isLast
  | some c =>
      rw [last] at isLast
      exact second b (last.trans isLast)

/-- Only what is behind counts. -/
theorem behind (front : GCstr) (some : rest ≠ []) (second : NoOpening rest) : NoOpening (front ++ rest) := by
  intro b isLast
  rw [List.getLast?_append, List.getLast?_eq_some_getLast some] at isLast
  exact second b ((List.getLast?_eq_some_getLast some).trans isLast)

end NoOpening

/-- Blanks and comments in front of a token. -/
theorem Gap.noOpening {gap : GCstr} (isGap : Gap false gap) : NoOpening gap := by
  have atBreak {b : UInt8} (isBreak : find newline (some b) = true) : NoOpening [b] :=
    .single (find_forall newline_bytes isBreak (by decide))
  induction isGap with
  | nil => exact fun b isLast => nomatch isLast
  | @space b rest isSpace more induction =>
      have blank : b ≠ ch '[' ∧ b ≠ ch '=' := by rcases isSpace with rfl | rfl | rfl | rfl <;> decide
      exact NoOpening.append (.single blank) induction
  | @newline b rest isBreak more induction =>
      cases rest with
      | nil => exact atBreak isBreak
      | cons c rest =>
          rw [pastBreak] at induction
          split at induction
          · next isPair =>
              rw [Bool.and_eq_true] at isPair
              exact NoOpening.append (atBreak isBreak) (NoOpening.append (atBreak isPair.1) induction)
          · exact NoOpening.append (atBreak isBreak) induction
  | @short text rest noBreak isShort ended more induction =>
      have some : rest ≠ [] := by
        rintro rfl
        rcases ended with isBreak | ⟨atEnd, -⟩
        · cases isBreak
        · cases atEnd
      exact induction.behind (ch '-' :: ch '-' :: text) some
  | @long level contents rest closed more induction =>
      have last : NoOpening (closeBracket level ++ rest) := by
        have bracket : NoOpening (closeBracket level) :=
          (NoOpening.single (by decide)).behind (ch ']' :: equalSigns level) (List.cons_ne_nil (ch ']') [])
        exact bracket.append induction
      have some : closeBracket level ++ rest ≠ [] := List.cons_ne_nil _ _
      have behind := last.behind (ch '-' :: ch '-' :: (openBracket level ++ contents)) some
      simpa only [List.cons_append, List.append_assoc] using behind
  | bracket isLexed isShort goesOn more induction => cases isLexed

/-- A name that is longer than the gap in front of it, or nothing behind the gap. -/
structure Probe (gap probe : GCstr) : Prop where
  each : ∀ b ∈ probe, b = ch 'x'
  longer : probe ≠ [] → gap.length < probe.length
  last : probe ≠ [] → NoOpening gap

/-- What the probe is read as. -/
def probed (probe : GCstr) : Lexeme := if probe = [] then .eof else .name probe

namespace Probe

variable {gap probe : GCstr}

theorem behind (front gap : GCstr) (isProbe : Probe (front ++ gap) probe) : Probe gap probe where
  each := isProbe.each
  longer some := by
    have longer := isProbe.longer some
    rw [List.length_append] at longer
    omega
  last some b isLast := isProbe.last some b (by rw [List.getLast?_append, isLast]; rfl)

theorem alnum (isProbe : Probe gap probe) : ∀ b ∈ probe, find L.alnum (some b) = true := by
  intro b member
  rw [isProbe.each b member]
  decide +kernel

/-- The probe starts with none of the bytes that end a part of a gap. -/
theorem head (isProbe : Probe gap probe) {b : UInt8} (other : b ≠ ch 'x') : probe.head? ≠ some b := by
  intro isHead
  exact other (isProbe.each b (List.mem_of_head? isHead))

theorem single (isProbe : Probe gap probe) : find newline probe.head? = false := by
  cases shape : probe with
  | nil => rfl
  | cons b rest =>
      have isLetter := isProbe.each b (shape ▸ List.mem_cons_self)
      rw [List.head?_cons, isLetter, newline_bytes]
      decide

/-- What starts in the gap ends there, if its last byte is none of the probe's. -/
theorem inside (isProbe : Probe gap probe) {front rest : GCstr} {b : UInt8} (other : b ≠ ch 'x')
    (split : gap ++ probe = front ++ b :: rest) : ∃ left, gap = front ++ b :: left ∧ rest = left ++ probe := by
  rcases List.append_eq_append_iff.mp split with ⟨more, -, isProbe'⟩ | ⟨left, isGap, isRest⟩
  · have member : b ∈ probe := by
      rw [isProbe']
      exact List.mem_append_right more List.mem_cons_self
    exact absurd (isProbe.each b member) other
  · cases left with
    | nil =>
        have isHead : probe.head? = some b := by
          rw [List.nil_append] at isRest
          rw [← isRest]
          rfl
        exact absurd isHead (isProbe.head other)
    | cons c left =>
        obtain ⟨rfl, rfl⟩ := List.cons.inj isRest
        exact ⟨left, isGap, rfl⟩

theorem starts (isProbe : Probe gap probe) {b : UInt8} (other : b ≠ ch 'x')
    (isHead : (gap ++ probe).head? = some b) : ∃ left, gap = b :: left := by
  obtain ⟨rest, split⟩ := List.head?_eq_some_iff.mp isHead
  have split' : gap ++ probe = [] ++ b :: rest := split
  obtain ⟨left, isGap, -⟩ := isProbe.inside other split'
  exact ⟨left, isGap⟩

/-- A token that starts in the gap is not the probe. -/
theorem not_takesName {l l' : L} {b : UInt8} (isProbe : Probe (b :: gap) probe)
    (bytes : l.z = b :: gap ++ probe) : ¬L.TakesName l (probed probe, l') := by
  rintro ⟨notEof, isName⟩
  by_cases none : probe = []
  · rw [probed, if_pos none] at notEof
    exact notEof rfl
  · have same : probe = L.nameText (b :: gap ++ probe) := by
      have read := isName probe (if_neg none)
      rwa [bytes] at read
    have lengths := congrArg List.length same
    have longer := isProbe.longer none
    rw [L.nameText, List.takeWhile_append] at lengths
    split at lengths
    · rw [List.length_append, List.takeWhile_eq_self_iff.mpr isProbe.alnum, List.length_cons] at lengths
      omega
    · have shorter := (List.takeWhile_prefix (l := b :: gap) fun b => find L.alnum (some b)).length_le
      omega

end Probe

namespace L

variable [Tonumber] {l l' : L} {steps fuel : Nat} {gap probe : GCstr}

/-- If the loop comes from a gap to the probe behind it, it has found only blanks and
comments. -/
def FindsGap (steps fuel : Nat) (probe gap : GCstr) : Prop :=
  ∀ l l' : L, l.buff = [] → l.z = gap ++ probe → l.z.length < steps →
    llexLoop steps fuel l = .ok (probed probe, l') → LexedGap probe.isEmpty gap

/-- Only the end of the source is found there. -/
theorem probe_of_nil (bytes : l.z = []) (run : llexLoop steps fuel l = .ok (probed probe, l')) :
    probe = [] := by
  have atEnd : l.current = none := by
    rw [current, bytes]
    rfl
  cases fuel with
  | zero => cases run
  | succ fuel =>
      rw [llexLoop, atEnd] at run
      have isEof : Lexeme.eof = probed probe := (Prod.mk.inj (Except.ok.inj run)).1
      by_contra some
      rw [probed, if_neg some] at isEof
      cases isEof

theorem lexedGap_shortComment (isProbe : Probe gap probe)
    (finds : ∀ rest, Probe rest probe → FindsGap steps fuel probe rest) (fresh : l.buff = [])
    (bytes : l.z = gap ++ probe) (enough : l.z.length < steps) (isShort : l.current ≠ some (ch '['))
    (run : l.comment steps >>= llexLoop steps fuel = .ok (probed probe, l')) :
    LexedGap probe.isEmpty (ch '-' :: ch '-' :: gap) := by
  rw [comment, if_neg isShort] at run
  rw [current, bytes] at isShort
  cases skipped : shortComment steps l with
  | error e =>
      rw [skipped] at run
      cases run
  | ok q =>
      rw [skipped] at run
      obtain ⟨text, split, noBreak, ended, same⟩ := shortComment_ok skipped
      rw [bytes] at split
      cases left : q.z with
      | nil =>
          have none : probe = [] := probe_of_nil left run
          rw [left, none, List.append_nil, List.append_nil] at split
          subst split none
          rw [List.append_nil] at isShort
          rw [← List.append_nil gap]
          exact .short noBreak isShort (.inr ⟨rfl, rfl⟩) .nil
      | cons b rest =>
          have isBreak : find newline (some b) = true := by
            rw [left] at ended
            exact ended.resolve_right (List.cons_ne_nil b rest)
          have other : b ≠ ch 'x' := find_forall newline_bytes isBreak (by decide)
          rw [left] at split
          obtain ⟨rest', rfl, rfl⟩ := isProbe.inside other split
          have shorter : q.z.length < steps := by
            rw [bytes] at enough
            rw [left]
            simp only [List.length_append, List.length_cons] at enough ⊢
            omega
          have isShort : text.head? ≠ some (ch '[') := by
            cases text with
            | nil =>
                intro impossible
                cases impossible
            | cons c text => exact isShort
          have clear : q.buff = [] := by
            rw [same]
            exact fresh
          exact .short noBreak isShort (.inl isBreak) (finds _ (isProbe.behind text _) q l' clear left shorter run)

theorem lexedGap_bracket (isProbe : Probe (ch '[' :: gap) probe)
    (finds : ∀ rest, Probe rest probe → FindsGap steps fuel probe rest)
    (bytes : l.z = ch '[' :: (gap ++ probe)) (enough : l.z.length < steps)
    (run : l.comment steps >>= llexLoop steps fuel = .ok (probed probe, l')) :
    LexedGap probe.isEmpty (ch '-' :: ch '-' :: ch '[' :: gap) := by
  obtain ⟨count, tail, rfl, ended⟩ := exists_equalSigns gap
  have isTail : Probe tail probe := isProbe.behind (ch '[' :: equalSigns count) tail
  rw [List.append_assoc] at bytes
  have enoughSigns : count < steps := by
    rw [bytes] at enough
    simp only [equalSigns, List.length_append, List.length_cons, List.length_replicate] at enough
    omega
  have noSign : (tail ++ probe).head? ≠ some (ch '=') := by
    cases tail with
    | nil => exact isTail.head (by decide)
    | cons b tail => exact ended
  by_cases opens : (tail ++ probe).head? = some (ch '[')
  · obtain ⟨inside, rfl⟩ := isTail.starts (by decide) opens
    have bytes : l.z = ch '[' :: (equalSigns count ++ ch '[' :: (inside ++ probe)) := bytes
    have split : l.z = openBracket count ++ (inside ++ probe) := by
      rw [bytes, openBracket, List.cons_append, List.append_assoc]
      rfl
    have opened := comment_opens enoughSigns bytes
    cases skipped : readLongString steps false count { l with z := ch '[' :: (inside ++ probe), buff := [] } with
    | error e =>
        rw [opened, skipped] at run
        cases run
    | ok q =>
        have shorter : (ch '[' :: (inside ++ probe)).length < steps := by
          rw [bytes, List.length_cons, List.length_append] at enough
          omega
        obtain ⟨contents, closing⟩ := readLongString_ok skipped rfl shorter
        obtain ⟨first, left, closed, same⟩ := exists_closedAtEnd count contents q.z
        rw [same] at closing
        have isInside : inside ++ probe = (first ++ ch ']' :: equalSigns count) ++ ch ']' :: left := by
          rw [closing, closeBracket]
          simp only [List.append_assoc, List.cons_append, List.nil_append]
        obtain ⟨rest, rfl, rfl⟩ := (isTail.behind [ch '['] inside).inside (by decide) isInside
        have split : l.z = openBracket count ++ (first ++ (closeBracket count ++ (rest ++ probe))) := by
          rw [split, closing]
        have whole : ch '[' :: (equalSigns count ++
            ch '[' :: (first ++ ch ']' :: equalSigns count ++ ch ']' :: rest)) =
            openBracket count ++ (first ++ (closeBracket count ++ rest)) := by
          simp only [openBracket, closeBracket, List.append_assoc, List.cons_append, List.nil_append]
        rw [comment_long closed split enough] at run
        have shorter : (rest ++ probe).length < steps := by
          rw [split] at enough
          simp only [List.length_append] at enough ⊢
          omega
        rw [whole]
        rw [whole] at isProbe
        have grouped : openBracket count ++ (first ++ (closeBracket count ++ rest)) =
            openBracket count ++ (first ++ closeBracket count) ++ rest := by
          simp only [List.append_assoc]
        have isRest : Probe rest probe := by
          rw [grouped] at isProbe
          exact isProbe.behind _ rest
        exact .long closed (finds rest isRest _ l' rfl rfl shorter run)
  · have isShort : tail.head? ≠ some (ch '=') ∧ tail.head? ≠ some (ch '[') := by
      refine ⟨ended, ?_⟩
      cases tail with
      | nil =>
          intro impossible
          cases impossible
      | cons b tail => exact opens
    have goesOn : probe.isEmpty = true ∨ tail ≠ [] := by
      by_cases none : probe = []
      · exact .inl (List.isEmpty_iff.mpr none)
      · right
        rintro rfl
        rw [List.append_nil] at isProbe
        have each : ∀ b ∈ ch '[' :: equalSigns count, b = ch '[' ∨ b = ch '=' :=
          List.forall_mem_cons.mpr ⟨.inl rfl, fun b member => .inr (List.eq_of_mem_replicate member)⟩
        have nonempty : ch '[' :: equalSigns count ≠ [] := List.cons_ne_nil _ _
        have neither := isProbe.last none _ (List.getLast?_eq_some_getLast nonempty)
        exact (each _ (List.getLast_mem nonempty)).elim neither.1 neither.2
    have read := comment_bracket ⟨noSign, opens⟩ enoughSigns bytes
    rw [read] at run
    have shorter : (tail ++ probe).length < steps := by
      rw [bytes, List.length_cons, List.length_append] at enough
      omega
    exact .bracket rfl isShort goesOn (finds tail isTail _ l' rfl rfl shorter run)

theorem lexedGap_of_llexLoop (isProbe : Probe gap probe) : FindsGap steps fuel probe gap := by
  induction fuel generalizing gap with
  | zero =>
      intro l l' fresh bytes enough run
      cases run
  | succ fuel induction =>
      intro l l' fresh bytes enough run
      cases gap with
      | nil => exact .nil
      | cons b gap =>
          have rest : Probe gap probe := isProbe.behind [b] gap
          have shorter : (gap ++ probe).length < steps := by
            rw [bytes, List.cons_append, List.length_cons] at enough
            exact Nat.lt_of_succ_lt enough
          by_cases isBreak : b = ch '\n' ∨ b = ch '\r'
          · have isBreak : find newline (some b) = true := by
              rw [newline_bytes]
              rcases isBreak with rfl | rfl <;> decide
            obtain ⟨front, split⟩ := pastBreak_suffix b gap
            rw [llexLoop_break isBreak bytes, List.append_eq, pastBreak_append b gap rest.single] at run
            have fewer : (pastBreak (b :: gap) ++ probe).length < steps := by
              rw [← split] at shorter
              simp only [List.length_append] at shorter ⊢
              omega
            have isProbe : Probe (pastBreak (b :: gap)) probe := by
              rw [← split] at rest
              exact rest.behind front _
            exact .newline isBreak (induction isProbe
              { l with z := pastBreak (b :: gap) ++ probe, linenumber := l.linenumber + 1 } l' fresh rfl fewer run)
          by_cases isSpace : b = ch ' ' ∨ b = 12 ∨ b = ch '\t' ∨ b = 11
          · rw [llexLoop_space isSpace bytes] at run
            exact .space isSpace (induction rest { l with z := gap ++ probe } l' fresh rfl shorter run)
          by_cases isHyphen : b = ch '-'
          · subst isHyphen
            by_cases second : (gap ++ probe).head? = some (ch '-')
            · obtain ⟨gap, rfl⟩ := rest.starts (by decide) second
              have isComment : Probe gap probe := rest.behind [ch '-'] gap
              have fewer : (gap ++ probe).length < steps := Nat.lt_of_succ_lt shorter
              let behind : L := { l with z := gap ++ probe }
              have clear : behind.buff = [] := fresh
              rw [llexLoop_hyphens bytes] at run
              by_cases bracket : (gap ++ probe).head? = some (ch '[')
              · obtain ⟨gap, rfl⟩ := isComment.starts (by decide) bracket
                exact lexedGap_bracket isComment (fun _ => induction) rfl fewer run
              · exact lexedGap_shortComment isComment (fun _ => induction) clear rfl fewer bracket run
            · have minus : llexLoop steps (fuel + 1) l = .ok (.plain [ch '-'], l.next_) := by
                have isNext : l.next_.current = (gap ++ probe).head? := by
                  rw [current, next_, bytes]
                  rfl
                rw [llexLoop, current_of_z bytes]
                change (if l.next_.current ≠ some (ch '-') then _ else _) = _
                rw [isNext, if_pos second]
              have takes := TakesName.plain l [ch '-'] l.next_
              rw [Except.ok.inj (minus.symm.trans run)] at takes
              exact absurd takes (isProbe.not_takesName bytes)
          · have takes : Foundation.Ends (TakesName l) mayFail (llexLoop steps (fuel + 1) l) :=
              llexLoop_takesName fresh bytes isBreak isSpace isHyphen
            rw [run] at takes
            exact absurd takes (isProbe.not_takesName bytes)

end L

end TvmJit
