import TvmJit.Lua.Gaps
import TvmJit.Lua.Numeral

/-! The texts of the tokens of Lua, and `L:_llex` in front of one. -/

namespace TvmJit

open Lexer (lineBreaks)

/-! ## Tokens -/

/-- The tokens of one character that no longer token starts with. -/
def singles : GCstr := .ofString "+*%^#&|()\x7b\x7d];,"

/-- The tokens of one character that a second one may follow. -/
def doubles : List (UInt8 × List UInt8) :=
  [(ch '=', [ch '=']), (ch '<', [ch '=', ch '<']), (ch '>', [ch '=', ch '>']), (ch '/', [ch '/']),
    (ch '~', [ch '=']), (ch ':', [ch ':'])]

/-- The text of a token with the token itself, in front of bytes that do not make it longer. -/
inductive TokenAt [Tonumber] : GCstr → Lexeme → GCstr → Prop
  | name {b : UInt8} {s rest : GCstr} (starts : find L.alpha (some b) = true)
      (more : ∀ c ∈ s, find L.alnum (some c) = true) (ends : find L.alnum rest.head? = false) :
      TokenAt (b :: s) (if b :: s ∈ L.tokens then .plain (b :: s) else .name (b :: s)) rest
  | numeral {b : UInt8} {s rest : GCstr} {val : Num} (isDigit : find L.digit (some b) = true)
      (whole : Lexer.bodyText b (s ++ rest) = (b :: s, rest))
      (converted : Tonumber.tonumber (b :: s) = some val) :
      TokenAt (b :: s) (.number (b :: s)) rest
  /-- A numeral that starts with its point. -/
  | fraction {b : UInt8} {s rest : GCstr} {val : Num} (isDigit : find L.digit (some b) = true)
      (whole : Lexer.bodyText b (s ++ rest) = (b :: s, rest))
      (converted : Tonumber.tonumber (ch '.' :: b :: s) = some val) :
      TokenAt (ch '.' :: b :: s) (.number (ch '.' :: b :: s)) rest
  | short {del : UInt8} {s v rest : GCstr} (isQuote : L.IsQuote del)
      (body : ShortBody L.simpleEscape del s v) : TokenAt (del :: (s ++ [del])) (.string v) rest
  | long {level : Nat} {contents rest : GCstr} (closed : ClosedAtEnd level contents) :
      TokenAt (openBracket level ++ (contents ++ closeBracket level))
        (.string (unifyBreaks (dropBreak contents))) rest
  | single {c : UInt8} {rest : GCstr} (isSingle : find singles (some c) = true) :
      TokenAt [c] (.plain [c]) rest
  | double {first second : UInt8} {seconds : List UInt8} {rest : GCstr}
      (isDouble : (first, seconds) ∈ doubles) (isSecond : second ∈ seconds) :
      TokenAt [first, second] (.plain [first, second]) rest
  | first {first : UInt8} {seconds : List UInt8} {rest : GCstr}
      (isDouble : (first, seconds) ∈ doubles) (ends : find seconds rest.head? = false) :
      TokenAt [first] (.plain [first]) rest
  | minus {rest : GCstr} (ends : rest.head? ≠ some (ch '-')) : TokenAt [ch '-'] (.plain [ch '-']) rest
  | bracket {rest : GCstr} (ends : rest.head? ≠ some (ch '[') ∧ rest.head? ≠ some (ch '=')) :
      TokenAt [ch '['] (.plain [ch '[']) rest
  | dot {rest : GCstr} (ends : rest.head? ≠ some (ch '.')) (noDigit : find L.digit rest.head? = false) :
      TokenAt [ch '.'] (.plain [ch '.']) rest
  | concat {rest : GCstr} (ends : rest.head? ≠ some (ch '.')) :
      TokenAt [ch '.', ch '.'] (.plain [ch '.', ch '.']) rest
  | dots {rest : GCstr} : TokenAt [ch '.', ch '.', ch '.'] (.plain [ch '.', ch '.', ch '.']) rest

namespace L

variable {l : L} {steps fuel : Nat} {rest : GCstr}

theorem nameLoop_alnum {s : GCstr} (more : ∀ c ∈ s, find alnum (some c) = true)
    (ends : find alnum rest.head? = false) (enough : s.length < fuel) (bytes : l.z = s ++ rest) :
    nameLoop fuel l = .ok { l with z := rest, buff := l.buff ++ s.map ([·]) } := by
  induction s generalizing l fuel with
  | nil =>
      obtain ⟨fuel, rfl⟩ := Nat.exists_eq_succ_of_ne_zero (Nat.ne_of_gt enough)
      have isHead : l.current = rest.head? := by rw [current, bytes]; rfl
      have unchanged : ({ l with z := rest, buff := l.buff ++ [] } : L) = l := by
        rw [List.append_nil]
        exact congrArg (fun z : GCstr => ({ l with z := z } : L)) bytes.symm
      rw [nameLoop, isHead, ends, if_neg Bool.false_ne_true, List.map_nil, unchanged]
  | cons c s induction =>
      obtain ⟨fuel, rfl⟩ := Nat.exists_eq_succ_of_ne_zero (Nat.ne_of_gt (Nat.zero_lt_of_lt enough))
      rw [nameLoop, current_of_z bytes, if_pos (more c List.mem_cons_self), saveAndNext_of_z bytes]
      refine (induction (fun c' member => more c' (List.mem_cons_of_mem c member))
        (by simpa using enough) rfl).trans ?_
      change Except.ok { l with z := rest, buff := l.buff ++ [[c]] ++ s.map ([·]) } = _
      rw [List.append_assoc]
      rfl

theorem alpha_bytes : alpha =
    (List.range' 65 26 ++ List.range' 97 26 ++ [95]).map UInt8.ofNat := by
  decide +kernel

theorem points_bytes : GCstr.ofString ".." = [46, 46] ∧ GCstr.ofString "..." = [46, 46, 46] := by
  decide +kernel

theorem singles_bytes : singles = [43, 42, 37, 94, 35, 38, 124, 40, 41, 123, 125, 93, 59, 44] := by
  decide +kernel

/-- The characters that `L:_llex` has a case for. -/
def special : GCstr := [10, 13, 32, 12, 9, 11, 45, 91, 61, 60, 62, 47, 126, 58, 34, 39, 46]

/-! ### Operators -/

theorem operator_double {first second : UInt8} {seconds : List UInt8} (isSecond : second ∈ seconds)
    (bytes : l.z = first :: second :: rest) :
    l.operator first seconds = (.plain [first, second], { l with z := rest }) := by
  have isNext : l.next_.current = some second := by
    rw [current, next_, bytes]
    rfl
  have found : (seconds.find? fun c => l.next_.current == some c) = some second := by
    rw [isNext]
    cases found : seconds.find? fun c => some second == some c with
    | none =>
        have differs := List.find?_eq_none.mp found second isSecond
        simp at differs
    | some c =>
        have same := List.find?_some found
        simp at same
        rw [same]
  have behind : l.next_.next_ = { l with z := rest } := by
    rw [next_, next_, bytes]
    rfl
  rw [operator, found, ← behind]

theorem operator_first {first : UInt8} {seconds : List UInt8} (ends : find seconds rest.head? = false)
    (bytes : l.z = first :: rest) :
    l.operator first seconds = (.plain [first], { l with z := rest }) := by
  have isNext : l.next_.current = rest.head? := by
    rw [current, next_, bytes]
    rfl
  have none : (seconds.find? fun c => l.next_.current == some c) = none := by
    rw [List.find?_eq_none, isNext]
    intro c member same
    rw [beq_iff_eq.mp same, find, Option.any_some, List.contains_eq_mem] at ends
    simp [member] at ends
  have behind : l.next_ = { l with z := rest } := by
    rw [next_, bytes]
    rfl
  rw [operator, none, ← behind]

theorem numeral_plain {b : UInt8} {s : GCstr} (isDigit : find digit (some b) = true)
    (whole : Lexer.bodyText b (s ++ rest) = (b :: s, rest)) :
    ∀ c ∈ b :: s, find newline (some c) = false := by
  have starts : Lexer.startsNumeral b = true := find_forall digit_bytes isDigit (by decide)
  have each := Lexer.bodyText_bytes starts (s ++ rest)
  rw [whole] at each
  intro c member
  rw [find_newline_eq]
  exact (each c member).facts.2

theorem fraction_plain {b : UInt8} {s : GCstr} (isDigit : find digit (some b) = true)
    (whole : Lexer.bodyText b (s ++ rest) = (b :: s, rest)) :
    ∀ c ∈ ch '.' :: b :: s, find newline (some c) = false := by
  refine List.forall_mem_cons.mpr ⟨?_, numeral_plain isDigit whole⟩
  rw [newline_bytes]
  decide

theorem name_plain {b : UInt8} {s : GCstr} (starts : find alpha (some b) = true)
    (more : ∀ c ∈ s, find alnum (some c) = true) : ∀ c ∈ b :: s, find newline (some c) = false := by
  have ofAlnum (c : UInt8) (isAlnum : find alnum (some c) = true) : find newline (some c) = false := by
    have either : find alpha (some c) = true ∨ find digit (some c) = true := by
      simpa [alnum, find] using isAlnum
    rw [newline_bytes]
    rcases either with isAlpha | isDigit
    · exact find_forall alpha_bytes isAlpha (by decide)
    · exact find_forall digit_bytes isDigit (by decide)
  refine List.forall_mem_cons.mpr ⟨?_, fun c member => ofAlnum c (more c member)⟩
  rw [newline_bytes]
  exact find_forall alpha_bytes starts (by decide)

/-- What there is to know about a character that is a token by itself. -/
theorem single_facts {c : UInt8} (isSingle : find singles (some c) = true) :
    c ∉ special ∧ find digit (some c) = false ∧ find alpha (some c) = false ∧
      find newline (some c) = false := by
  rw [digit_bytes, alpha_bytes, newline_bytes]
  exact find_forall singles_bytes isSingle (by decide)

theorem points_plain (count : Nat) :
    ∀ b ∈ List.replicate count (ch '.'), find newline (some b) = false := by
  intro b member
  rw [List.eq_of_mem_replicate member, newline_bytes]
  decide

theorem bracket_plain : ∀ b ∈ [ch '['], find newline (some b) = false := by
  rw [newline_bytes]
  exact List.forall_mem_singleton.mpr (by decide)

theorem doubles_plain {first : UInt8} {seconds : List UInt8} (isDouble : (first, seconds) ∈ doubles) :
    find newline (some first) = false ∧ ∀ second ∈ seconds, find newline (some second) = false := by
  rw [newline_bytes]
  have each : ∀ operator ∈ doubles, find [10, 13] (some operator.1) = false ∧
      ∀ second ∈ operator.2, find [10, 13] (some second) = false := by
    decide +kernel
  exact each (first, seconds) isDouble

variable [Tonumber]

/-- A token is read, and the lexer is behind it. -/
structure ReadsToken (steps fuel : Nat) (l : L) (text : GCstr) (token : Lexeme) (rest : GCstr) (l' : L) :
    Prop where
  run : llexLoop steps (fuel + 1) l = .ok (token, l')
  z : l'.z = rest
  linenumber : l'.linenumber = l.linenumber + lineBreaks text

/-- Any other character starts a numeral or a name, or is a token. -/
theorem llexLoop_other {c : UInt8} (isChar : l.current = some c) (other : c ∉ special) :
    llexLoop steps (fuel + 1) l =
      if find digit (some c) then l.readNumeral steps
      else if find alpha (some c) then l.readName steps
      else .ok (.plain [c], l.next_) := by
  have isSpecial (b : UInt8) (member : b ∈ special) : c ≠ b := fun same => other (same ▸ member)
  have noneOf {a b : UInt8} (first : a ∈ special) (second : b ∈ special) : ¬(c = a ∨ c = b) :=
    not_or.mpr ⟨isSpecial a first, isSpecial b second⟩
  rw [llexLoop, isChar]
  dsimp only
  rw [if_neg (noneOf (by decide) (by decide)), if_neg (not_or.mpr ⟨isSpecial _ (by decide),
    not_or.mpr ⟨isSpecial _ (by decide), noneOf (by decide) (by decide)⟩⟩)]
  rw [if_neg (isSpecial _ (by decide)), if_neg (isSpecial _ (by decide)),
    if_neg (isSpecial _ (by decide)), if_neg (isSpecial _ (by decide)),
    if_neg (isSpecial _ (by decide)), if_neg (isSpecial _ (by decide)),
    if_neg (isSpecial _ (by decide)), if_neg (isSpecial _ (by decide)),
    if_neg (noneOf (by decide) (by decide)), if_neg (isSpecial _ (by decide))]

theorem reads_name {b : UInt8} {s : GCstr} (starts : find alpha (some b) = true)
    (more : ∀ c ∈ s, find alnum (some c) = true) (ends : find alnum rest.head? = false)
    (fresh : l.buff = []) (bytes : l.z = b :: s ++ rest) (enough : l.z.length < steps) :
    ∃ l', ReadsToken steps fuel l (b :: s)
      (if b :: s ∈ tokens then .plain (b :: s) else .name (b :: s)) rest l' := by
  have facts : b ∉ special ∧ find digit (some b) = false := by
    rw [digit_bytes]
    exact find_forall alpha_bytes starts (by decide)
  have none : lineBreaks (b :: s) = 0 := lineBreaks_none (name_plain starts more)
  rw [bytes, List.length_append, List.length_cons] at enough
  have loop : nameLoop steps l.saveAndNext =
      .ok { l with z := rest, buff := [[b]] ++ s.map ([·]) } := by
    rw [saveAndNext_of_z bytes, fresh]
    exact nameLoop_alnum more ends (by omega) rfl
  have text : ([[b]] ++ s.map ([·])).flatten = b :: s := by
    rw [List.flatten_append, ← List.flatMap_def, List.flatMap_singleton']
    rfl
  have dispatched : llexLoop steps (fuel + 1) l = l.readName steps := by
    rw [llexLoop_other (current_of_z bytes) facts.1, facts.2, if_neg Bool.false_ne_true, if_pos starts]
  refine ⟨{ l with z := rest, buff := [[b]] ++ s.map ([·]) }, ?_, rfl, by rw [none]; exact (add_zero _).symm⟩
  rw [dispatched, readName, loop]
  change Except.ok ((if ([[b]] ++ s.map ([·])).flatten ∈ tokens then
    Lexeme.plain ([[b]] ++ s.map ([·])).flatten else .name ([[b]] ++ s.map ([·])).flatten), _) = _
  rw [text]

/-! ### Numerals -/

theorem reads_numeral {b : UInt8} {s : GCstr} {val : Num} (isDigit : find digit (some b) = true)
    (whole : Lexer.bodyText b (s ++ rest) = (b :: s, rest))
    (converted : Tonumber.tonumber (l.text ++ b :: s) = some val)
    (bytes : l.z = b :: s ++ rest) (enough : l.z.length < steps) :
    ∃ l', l.readNumeral steps = .ok (.number (l.text ++ b :: s), l') ∧ l'.z = rest ∧
      l'.linenumber = l.linenumber := by
  rcases @readNumeral_eq l steps _ b (s ++ rest) bytes isDigit with ⟨-, short⟩ | ⟨l', z, text, line, read⟩
  · omega
  · rw [whole] at z text
    rw [text, converted] at read
    exact ⟨l', read, z, line⟩

theorem llexLoop_operator {first : UInt8} {seconds : List UInt8} (isDouble : (first, seconds) ∈ doubles)
    (isChar : l.current = some first) :
    llexLoop steps (fuel + 1) l = .ok (l.operator first seconds) := by
  simp only [doubles, List.mem_cons, Prod.mk.injEq, List.not_mem_nil, or_false] at isDouble
  rw [llexLoop, isChar]
  rcases isDouble with ⟨rfl, rfl⟩ | ⟨rfl, rfl⟩ | ⟨rfl, rfl⟩ | ⟨rfl, rfl⟩ | ⟨rfl, rfl⟩ | ⟨rfl, rfl⟩
  · rfl
  · rfl
  · rfl
  · rfl
  · rfl
  · rfl

theorem llexLoop_dot (isChar : l.current = some (ch '.')) :
    llexLoop steps (fuel + 1) l = l.readDot steps := by
  rw [llexLoop, isChar]
  rfl

theorem reads_fraction {b : UInt8} {s : GCstr} {val : Num} (isDigit : find digit (some b) = true)
    (whole : Lexer.bodyText b (s ++ rest) = (b :: s, rest))
    (converted : Tonumber.tonumber (ch '.' :: b :: s) = some val) (fresh : l.buff = [])
    (bytes : l.z = ch '.' :: b :: s ++ rest) (enough : l.z.length < steps) :
    ∃ l', ReadsToken steps fuel l (ch '.' :: b :: s) (.number (ch '.' :: b :: s)) rest l' := by
  have behind : l.saveAndNext = { l with z := b :: s ++ rest, buff := [[ch '.']] } := by
    rw [saveAndNext_of_z bytes, fresh]
    rfl
  have notDot : b ≠ ch '.' := find_forall digit_bytes isDigit (by decide)
  have shorter : (b :: s ++ rest).length < steps := by
    rw [bytes, List.cons_append, List.length_cons] at enough
    exact Nat.lt_of_succ_lt enough
  have none : lineBreaks (ch '.' :: b :: s) = 0 := lineBreaks_none (fraction_plain isDigit whole)
  have reads : ∃ l', readNumeral steps { l with z := b :: s ++ rest, buff := [[ch '.']] } =
      .ok (.number (ch '.' :: b :: s), l') ∧ l'.z = rest ∧ l'.linenumber = l.linenumber :=
    reads_numeral isDigit whole converted rfl shorter
  obtain ⟨l', run, z, line⟩ := reads
  refine ⟨l', ?_, z, by rw [none, line]; exact (add_zero _).symm⟩
  have isHead : ({ l with z := b :: s ++ rest, buff := [[ch '.']] } : L).current = some b := rfl
  rw [llexLoop_dot (current_of_z bytes), readDot, behind, checkNext1, isHead,
    if_neg fun same => notDot (Option.some.inj same)]
  dsimp only
  rw [if_neg Bool.false_ne_true, isHead, isDigit]
  exact run

/-! ### Operators and punctuation -/

/-- A token without a line break. -/
theorem ReadsToken.of_plain {text : GCstr} {token : Lexeme} {buff : List GCstr}
    (plain : ∀ b ∈ text, find newline (some b) = false)
    (run : llexLoop steps (fuel + 1) l = .ok (token, { l with z := rest, buff := buff })) :
    ∃ l', ReadsToken steps fuel l text token rest l' := by
  exact ⟨_, run, rfl, by rw [lineBreaks_none plain]; exact (add_zero _).symm⟩

theorem reads_single {c : UInt8} (isSingle : find singles (some c) = true) (bytes : l.z = c :: rest) :
    ∃ l', ReadsToken steps fuel l [c] (.plain [c]) rest l' := by
  have facts := single_facts isSingle
  have behind : l.next_ = { l with z := rest } := by
    rw [next_, bytes]
    rfl
  apply ReadsToken.of_plain (List.forall_mem_singleton.mpr facts.2.2.2)
  rw [llexLoop_other (current_of_z bytes) facts.1, facts.2.1, if_neg Bool.false_ne_true, facts.2.2.1,
    if_neg Bool.false_ne_true, behind]

theorem reads_double {first second : UInt8} {seconds : List UInt8}
    (isDouble : (first, seconds) ∈ doubles) (isSecond : second ∈ seconds)
    (bytes : l.z = first :: second :: rest) :
    ∃ l', ReadsToken steps fuel l [first, second] (.plain [first, second]) rest l' := by
  have plain := doubles_plain isDouble
  apply ReadsToken.of_plain
  · exact List.forall_mem_cons.mpr ⟨plain.1, List.forall_mem_singleton.mpr (plain.2 second isSecond)⟩
  · rw [llexLoop_operator isDouble (current_of_z bytes), operator_double isSecond bytes]

theorem reads_first {first : UInt8} {seconds : List UInt8} (isDouble : (first, seconds) ∈ doubles)
    (ends : find seconds rest.head? = false) (bytes : l.z = first :: rest) :
    ∃ l', ReadsToken steps fuel l [first] (.plain [first]) rest l' := by
  apply ReadsToken.of_plain (List.forall_mem_singleton.mpr (doubles_plain isDouble).1)
  rw [llexLoop_operator isDouble (current_of_z bytes), operator_first ends bytes]

theorem reads_minus (ends : rest.head? ≠ some (ch '-')) (bytes : l.z = ch '-' :: rest) :
    ∃ l', ReadsToken steps fuel l [ch '-'] (.plain [ch '-']) rest l' := by
  have behind : l.next_ = { l with z := rest } := by
    rw [next_, bytes]
    rfl
  apply ReadsToken.of_plain (List.forall_mem_singleton.mpr hyphen_plain)
  rw [llexLoop, current_of_z bytes, behind]
  exact if_pos ends

theorem reads_bracket (ends : rest.head? ≠ some (ch '[') ∧ rest.head? ≠ some (ch '='))
    (bytes : l.z = ch '[' :: rest) (enough : l.z.length < steps) :
    ∃ l', ReadsToken steps fuel l [ch '['] (.plain [ch '[']) rest l' := by
  have start : l.z = ch '[' :: (equalSigns 0 ++ rest) := bytes
  have signs := skipSep_signs (.inl rfl) ends.2 (Nat.zero_lt_of_lt enough) start
  rw [if_neg ends.1] at signs
  apply ReadsToken.of_plain bracket_plain
  have dispatched : llexLoop steps (fuel + 1) l = l.readBracket steps := by
    rw [llexLoop, current_of_z bytes]
    rfl
  rw [dispatched, readBracket, signs]
  rfl

/-- One to three points. -/
theorem reads_points {count : Nat} (few : count = 1 ∨ count = 2 ∨ count = 3)
    (ends : count ≠ 3 → rest.head? ≠ some (ch '.')) (noDigit : count = 1 → find digit rest.head? = false)
    (bytes : l.z = List.replicate count (ch '.') ++ rest) :
    ∃ l', ReadsToken steps fuel l (List.replicate count (ch '.'))
      (.plain (List.replicate count (ch '.'))) rest l' := by
  suffices run : llexLoop steps (fuel + 1) l = .ok (.plain (List.replicate count (ch '.')),
      { l with z := rest, buff := l.buff ++ [[ch '.']] }) from ReadsToken.of_plain (points_plain count) run
  rcases few with rfl | rfl | rfl
  · have bytes : l.z = ch '.' :: rest := bytes
    have isHead : ({ l with z := rest, buff := l.buff ++ [[ch '.']] } : L).current = rest.head? := rfl
    rw [llexLoop_dot (current_of_z bytes), readDot, saveAndNext_of_z bytes, checkNext1, isHead,
      if_neg (ends (by decide))]
    dsimp only
    rw [if_neg Bool.false_ne_true, isHead, noDigit rfl]
    rfl
  · have bytes : l.z = ch '.' :: ch '.' :: rest := bytes
    rw [llexLoop_dot (current_of_z bytes), readDot, saveAndNext_of_z bytes, checkNext1]
    change (let third := checkNext1 { l with z := rest, buff := l.buff ++ [[ch '.']] } (ch '.');
      Except.ok (Lexeme.plain (if third.1 then .ofString "..." else .ofString ".."), third.2)) = _
    have isHead : ({ l with z := rest, buff := l.buff ++ [[ch '.']] } : L).current = rest.head? := rfl
    rw [checkNext1, isHead, if_neg (ends (by decide)), points_bytes.1]
    rfl
  · have bytes : l.z = ch '.' :: ch '.' :: ch '.' :: rest := bytes
    rw [llexLoop_dot (current_of_z bytes), readDot, saveAndNext_of_z bytes, points_bytes.2]
    rfl

/-- The text of a token is read as the token. -/
theorem reads_token {text : GCstr} {token : Lexeme} (isToken : TokenAt text token rest)
    (fresh : l.buff = []) (bytes : l.z = text ++ rest) (enough : l.z.length < steps) :
    ∃ l', ReadsToken steps fuel l text token rest l' := by
  cases isToken with
  | name starts more ends => exact reads_name starts more ends fresh bytes enough
  | @numeral b s rest val isDigit whole converted =>
      have facts : b ∉ special := find_forall digit_bytes isDigit (by decide)
      have none : l.text = [] := by rw [L.text, fresh]; rfl
      have reads : ∃ l', l.readNumeral steps = .ok (.number (l.text ++ b :: s), l') ∧ l'.z = rest ∧
          l'.linenumber = l.linenumber :=
        reads_numeral isDigit whole (by rw [none]; exact converted) bytes enough
      obtain ⟨l', run, z, line⟩ := reads
      refine ⟨l', ?_, z, ?_⟩
      · rw [llexLoop_other (current_of_z bytes) facts, isDigit, if_pos rfl, run, none]
        rfl
      · rw [lineBreaks_none (numeral_plain isDigit whole), line]
        exact (add_zero _).symm
  | fraction isDigit whole converted => exact reads_fraction isDigit whole converted fresh bytes enough
  | @short del s v rest isQuote body =>
      have plain : ∀ b ∈ [del], find newline (some b) = false :=
        List.forall_mem_singleton.mpr isQuote.facts.2.1
      have bytes : l.z = del :: (s ++ del :: rest) := by
        rw [bytes, List.cons_append, List.append_assoc]
        rfl
      have reads : ∃ l', llexLoop steps (fuel + 1) l = .ok (.string v, l') ∧ l'.z = rest ∧
          l'.linenumber = l.linenumber + lineBreaks s := llexLoop_short isQuote body fresh bytes enough
      obtain ⟨l', run, z, line⟩ := reads
      exact ⟨l', run, z, line.trans (congrArg (fun n : Nat => l.linenumber + n)
        (lineBreaks_between plain plain s).symm)⟩
  | @long level contents rest closed =>
      have bytes : l.z = openBracket level ++ (contents ++ (closeBracket level ++ rest)) := by
        rw [bytes, List.append_assoc, List.append_assoc]
      have reads : ∃ l', llexLoop steps (fuel + 1) l = .ok (.string (unifyBreaks (dropBreak contents)), l') ∧
          l'.z = rest ∧ l'.linenumber = l.linenumber + lineBreaks contents :=
        llexLoop_long closed fresh bytes enough
      obtain ⟨l', run, z, line⟩ := reads
      exact ⟨l', run, z, line.trans (congrArg (fun n : Nat => l.linenumber + n) (lineBreaks_between
        (openBracket_plain level) (closeBracket_plain level) contents).symm)⟩
  | single isSingle => exact reads_single isSingle bytes
  | double isDouble isSecond => exact reads_double isDouble isSecond bytes
  | first isDouble ends => exact reads_first isDouble ends bytes
  | minus ends => exact reads_minus ends bytes
  | bracket ends => exact reads_bracket ends bytes enough
  | dot ends noDigit => exact reads_points (.inl rfl) (fun _ => ends) (fun _ => noDigit) bytes
  | concat ends => exact reads_points (.inr (.inl rfl)) (fun _ => ends) (fun one => absurd one (by decide)) bytes
  | dots => exact reads_points (.inr (.inr rfl)) (fun three => absurd rfl three) (fun one => absurd one (by decide)) bytes

end L

/-! ## Line breaks around a token -/

/-- No line break goes on across the borders of the text. -/
structure Bordered (text : GCstr) : Prop where
  starts : ∀ more, find newline (text ++ more).head? = false
  ends : ∀ more, lineBreaks (text ++ more) = lineBreaks text + lineBreaks more

theorem Bordered.of_plain {b : UInt8} {s : GCstr} (plain : ∀ c ∈ b :: s, find newline (some c) = false) :
    Bordered (b :: s) where
  starts more := plain b List.mem_cons_self
  ends more := by rw [lineBreaks_append plain, lineBreaks_none plain, Nat.zero_add]

theorem Bordered.between {front back : GCstr} (plain : ∀ b ∈ front, find newline (some b) = false)
    (plainBack : ∀ b ∈ back, find newline (some b) = false) (starts : front ≠ []) (ends : back ≠ [])
    (contents : GCstr) : Bordered (front ++ (contents ++ back)) where
  starts more := by
    obtain ⟨b, front, rfl⟩ := List.exists_cons_of_ne_nil starts
    exact plain b List.mem_cons_self
  ends more := by
    obtain ⟨b, back, rfl⟩ := List.exists_cons_of_ne_nil ends
    have single : find newline (b :: back ++ more).head? = false := plainBack b List.mem_cons_self
    rw [lineBreaks_between plain plainBack, List.append_assoc, List.append_assoc, lineBreaks_append plain,
      lineBreaks_add contents single, lineBreaks_append plainBack]

theorem TokenAt.bordered [Tonumber] {text rest : GCstr} {token : Lexeme}
    (isToken : TokenAt text token rest) : Bordered text := by
  cases isToken with
  | name starts more ends => exact .of_plain (L.name_plain starts more)
  | numeral isDigit whole converted => exact .of_plain (L.numeral_plain isDigit whole)
  | fraction isDigit whole converted => exact .of_plain (L.fraction_plain isDigit whole)
  | @short del s v rest isQuote body =>
      have plain : ∀ b ∈ [del], find newline (some b) = false :=
        List.forall_mem_singleton.mpr isQuote.facts.2.1
      have border : Bordered ([del] ++ (s ++ [del])) :=
        .between plain plain (List.cons_ne_nil _ _) (List.cons_ne_nil _ _) s
      exact border
  | @long level contents rest closed =>
      exact .between (L.openBracket_plain level) (L.closeBracket_plain level) (List.cons_ne_nil _ _)
        (List.cons_ne_nil _ _) contents
  | single isSingle => exact .of_plain (List.forall_mem_singleton.mpr (L.single_facts isSingle).2.2.2)
  | double isDouble isSecond =>
      have plain := L.doubles_plain isDouble
      exact .of_plain (List.forall_mem_cons.mpr
        ⟨plain.1, List.forall_mem_singleton.mpr (plain.2 _ isSecond)⟩)
  | first isDouble ends => exact .of_plain (List.forall_mem_singleton.mpr (L.doubles_plain isDouble).1)
  | minus ends => exact .of_plain (List.forall_mem_singleton.mpr L.hyphen_plain)
  | bracket ends => exact .of_plain L.bracket_plain
  | dot ends noDigit => exact .of_plain (L.points_plain 1)
  | concat ends => exact .of_plain (L.points_plain 2)
  | dots => exact .of_plain (L.points_plain 3)

end TvmJit
