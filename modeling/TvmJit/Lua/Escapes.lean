import TvmJit.Lua.Quoted
import TvmJit.Lex.Unicode

/-! Short string literals of Lua: what the manual makes of them, and `L:_read_string`. -/

namespace TvmJit

open Lexer (lineBreaks)

/-! ## What a literal denotes -/

/-- The letters that the manual has behind a backslash. -/
def manualEscape (c : UInt8) : Option UInt8 :=
  if c = ch 'a' then some 7
  else if c = ch 'b' then some 8
  else if c = ch 'f' then some 12
  else if c = ch 'n' then some 10
  else if c = ch 'r' then some 13
  else if c = ch 't' then some 9
  else if c = ch 'v' then some 11
  else if c = ch '\\' ∨ c = ch '"' ∨ c = ch '\'' then some c
  else none

/-- The value of hexadecimal digits. -/
def hexadecimalValue (digits : GCstr) : Nat := digits.foldl (fun r d => 16 * r + P.hexValue d) 0

/-- A line break in any of the four conventions. -/
def lineEnds : List GCstr := [[10], [13], [10, 13], [13, 10]]

/-- The contents of a short literal between two delimiters and the bytes they stand for. The
letters that follow a backslash are a parameter. -/
inductive ShortBody (letters : UInt8 → Option UInt8) (del : UInt8) : GCstr → GCstr → Prop
  | nil : ShortBody letters del [] []
  | plain {c : UInt8} {s v : GCstr} (notDel : c ≠ del) (notEscape : c ≠ ch '\\')
      (noNewline : find newline (some c) = false) (rest : ShortBody letters del s v) :
      ShortBody letters del (c :: s) (c :: v)
  | letter {c b : UInt8} {s v : GCstr} (isLetter : letters c = some b)
      (rest : ShortBody letters del s v) : ShortBody letters del (ch '\\' :: c :: s) (b :: v)
  /-- Up to three digits, and three in front of a digit. -/
  | decimal {digits s v : GCstr} (nonempty : digits ≠ []) (short : digits.length ≤ 3)
      (each : ∀ d ∈ digits, find L.digit (some d) = true) (small : escapeValue digits ≤ 255)
      (ends : digits.length = 3 ∨ find L.digit s.head? = false)
      (rest : ShortBody letters del s v) :
      ShortBody letters del (ch '\\' :: (digits ++ s)) (UInt8.ofNat (escapeValue digits) :: v)
  | hexadecimal {a b : UInt8} {s v : GCstr} (first : find xdigit (some a) = true)
      (second : find xdigit (some b) = true) (rest : ShortBody letters del s v) :
      ShortBody letters del (ch '\\' :: ch 'x' :: a :: b :: s)
        (UInt8.ofNat (hexadecimalValue [a, b]) :: v)
  | unicode {digits s v : GCstr} (nonempty : digits ≠ [])
      (each : ∀ d ∈ digits, find xdigit (some d) = true)
      (codePoint : hexadecimalValue digits ≤ 0x10FFFF) (rest : ShortBody letters del s v) :
      ShortBody letters del (ch '\\' :: ch 'u' :: ch '\x7b' :: (digits ++ ch '\x7d' :: s))
        (generalUtf8 (hexadecimalValue digits) ++ v)
  /-- All white space behind `\z`. -/
  | skip {blanks s v : GCstr} (each : ∀ b ∈ blanks, find L.space (some b) = true)
      (ends : find L.space s.head? = false) (rest : ShortBody letters del s v) :
      ShortBody letters del (ch '\\' :: ch 'z' :: (blanks ++ s)) v
  | lineBreak {ends s v : GCstr} (isBreak : ends ∈ lineEnds) (rest : ShortBody letters del s v) :
      ShortBody letters del (ch '\\' :: (ends ++ s)) (ch '\n' :: v)

/-! ## Reading -/

namespace L

variable {l l' : L} {steps fuel : Nat} {tail : GCstr}

/-- What is left when these bytes have been read. A string has saved them. -/
structure ReadTo (tok : Bool) (l l' : L) (breaks : Nat) (bytes tail : GCstr) : Prop where
  z : l'.z = tail
  linenumber : l'.linenumber = l.linenumber + breaks
  text : tok = true → l'.text = l.text ++ bytes

theorem ReadTo.trans {tok : Bool} {l' l'' : L} {breaks breaks' : Nat} {first second rest : GCstr}
    (before : ReadTo tok l l' breaks first rest)
    (after : ReadTo tok l' l'' breaks' second tail) :
    ReadTo tok l l'' (breaks' + breaks) (first ++ second) tail where
  z := after.z
  linenumber := by
    rw [after.linenumber, before.linenumber]
    omega
  text isString := by rw [after.text isString, before.text isString, List.append_assoc]

theorem text_concat (l : L) (piece : GCstr) : (l.buff ++ [piece]).flatten = l.text ++ piece := by
  rw [List.flatten_concat]
  rfl

/-- The lexer behind a backslash, with what it has saved before. -/
def behindBackslash (l : L) (tail : GCstr) : L := { l with z := tail, buff := l.buff ++ [[ch '\\']] }

/-- The escape is read, and these bytes take the place of its backslash. -/
def Escapes (steps : Nat) (l : L) (escaped bytes tail : GCstr) : Prop :=
  ∃ l', (l.behindBackslash (escaped ++ tail)).escape steps = .ok l' ∧
    ReadTo true l l' (lineBreaks escaped) bytes tail

theorem read_piece (l : L) (breaks : Nat) (bytes tail : GCstr) :
    ReadTo true l { z := tail, linenumber := l.linenumber + breaks, buff := l.buff ++ [bytes] } breaks
      bytes tail :=
  ⟨rfl, rfl, fun _ => text_concat l bytes⟩

/-- An escape without a line break. -/
theorem escapes_of_plain {escaped bytes : GCstr} (plain : ∀ b ∈ escaped, find newline (some b) = false)
    (read : (l.behindBackslash (escaped ++ tail)).escape steps =
      .ok { l with z := tail, buff := l.buff ++ [bytes] }) : Escapes steps l escaped bytes tail := by
  refine ⟨_, read, ?_⟩
  rw [lineBreaks_none plain]
  exact ⟨rfl, (add_zero _).symm, fun _ => text_concat l bytes⟩

theorem escapes_letter {c b : UInt8} (simple : simpleEscape c = some b) :
    Escapes steps l [c] [b] tail := by
  have notBreak : find newline (some c) = false := by
    by_contra isBreak
    have found : find newline (some c) = true := by simpa using isBreak
    have none : simpleEscape c = none := find_forall newline_bytes found (by decide)
    rw [none] at simple
    cases simple
  exact escapes_of_plain (List.forall_mem_singleton.mpr notBreak) (escape_letter simple rfl rfl)

theorem digit_noBreak {d : UInt8} (isDigit : find digit (some d) = true) : find newline (some d) = false := by
  rw [newline_bytes]
  exact find_forall digit_bytes isDigit (by decide)

theorem xdigit_noBreak {d : UInt8} (isDigit : find xdigit (some d) = true) :
    find newline (some d) = false := by
  rw [newline_bytes]
  exact find_forall xdigit_bytes isDigit (by decide)

theorem escapes_decimal {digits : GCstr} (nonempty : digits ≠ []) (short : digits.length ≤ 3)
    (each : ∀ d ∈ digits, find digit (some d) = true) (small : escapeValue digits ≤ 255)
    (ends : digits.length = 3 ∨ find digit tail.head? = false) :
    Escapes steps l digits [UInt8.ofNat (escapeValue digits)] tail := by
  have value : escapeValue digits = (UInt8.ofNat (escapeValue digits)).toNat := by
    rw [UInt8.toNat_ofNat', Nat.mod_eq_of_lt (by omega)]
  have escaped : EscapeDigits (UInt8.ofNat (escapeValue digits)) digits (find digit tail.head?) :=
    ⟨nonempty, each, value, short, ends⟩
  exact escapes_of_plain (fun d member => digit_noBreak (each d member))
    (escape_decimal escaped id rfl rfl)

theorem escapes_break {ends : GCstr} (isBreak : ends ∈ lineEnds)
    (single : find newline tail.head? = false) : Escapes steps l ends [ch '\n'] tail := by
  obtain ⟨c, more, rfl, isEnd, past, one⟩ : ∃ c more, ends = c :: more ∧
      find newline (some c) = true ∧ pastBreak (c :: (more ++ tail)) = tail ∧
      lineBreaks (c :: more) = 1 := by
    have onNewline : find newline (some 10) = true ∧ find newline (some 13) = true := by
      rw [newline_bytes]
      decide
    have pair {c d : UInt8} (isEnd : find newline (some d) = true) (differs : (d != c) = true) :
        pastBreak (c :: d :: tail) = tail := by
      rw [pastBreak, isEnd, differs]
      rfl
    simp only [lineEnds, List.mem_cons, List.not_mem_nil, or_false] at isBreak
    rcases isBreak with rfl | rfl | rfl | rfl
    · exact ⟨10, [], rfl, onNewline.1, pastBreak_single 10 single, rfl⟩
    · exact ⟨13, [], rfl, onNewline.2, pastBreak_single 13 single, rfl⟩
    · exact ⟨10, [13], rfl, onNewline.1, pair onNewline.2 rfl, rfl⟩
    · exact ⟨13, [10], rfl, onNewline.2, pair onNewline.1 rfl, rfl⟩
  have read : (l.behindBackslash (c :: (more ++ tail))).escape steps =
      .ok { z := pastBreak (c :: (more ++ tail)), linenumber := l.linenumber + 1, buff := l.buff ++ [[10]] } :=
    escape_break isEnd rfl rfl
  rw [past] at read
  refine ⟨_, read, ?_⟩
  rw [one]
  exact read_piece l 1 [ch '\n'] tail

/-! ### Hexadecimal digits -/

theorem gethexa_of_z {c d : UInt8} (rest : GCstr) (isDigit : find xdigit (some d) = true)
    (bytes : l.z = c :: d :: rest) :
    l.gethexa = .ok (P.hexValue d, { l with z := d :: rest, buff := l.buff ++ [[c]] }) := by
  rw [gethexa, saveAndNext_of_z bytes]
  have isHead : ({ l with z := d :: rest, buff := l.buff ++ [[c]] } : L).current = some d := rfl
  rw [isHead, esccheck, if_pos isDigit]
  rfl

theorem escapes_hexadecimal {a b : UInt8} (first : find xdigit (some a) = true)
    (second : find xdigit (some b) = true) :
    Escapes steps l [ch 'x', a, b] [UInt8.ofNat (hexadecimalValue [a, b])] tail := by
  let start := l.behindBackslash ([ch 'x', a, b] ++ tail)
  have letter : start.gethexa = _ := gethexa_of_z (b :: tail) first rfl
  have digits : start.readhexaesc =
      .ok ([UInt8.ofNat (hexadecimalValue [a, b])], { start with z := b :: tail }) := by
    rw [readhexaesc, letter]
    change (gethexa _ >>= fun r =>
      pure ([UInt8.ofNat (16 * P.hexValue a + r.1)], buffremove r.2 2)) = _
    rw [gethexa_of_z tail second rfl]
    change Except.ok (_, buffremove { start with z := b :: tail, buff := start.buff ++ [[ch 'x']] ++ [[a]] } 2) = _
    rw [List.append_assoc]
    have removed := buffremove_append { start with z := b :: tail } start.buff ([[ch 'x']] ++ [[a]])
    have value : 16 * P.hexValue a + P.hexValue b = hexadecimalValue [a, b] := by
      simp [hexadecimalValue]
    rw [show (2 : Nat) = ([[ch 'x']] ++ [[a]] : List GCstr).length from rfl, removed, value]
  have read : start.escape steps =
      .ok { l with z := tail, buff := l.buff ++ [[UInt8.ofNat (hexadecimalValue [a, b])]] } := by
    change (start.readhexaesc >>= fun r => pure (r.2.readSave r.1)) = _
    rw [digits]
    exact congrArg Except.ok (onlySave_append { l with z := tail } l.buff [ch '\\'] _)
  have notX : find newline (some (ch 'x')) = false := by
    rw [newline_bytes]
    decide
  exact escapes_of_plain (List.forall_mem_cons.mpr ⟨notX, List.forall_mem_cons.mpr
    ⟨xdigit_noBreak first, List.forall_mem_singleton.mpr (xdigit_noBreak second)⟩⟩) read

theorem le_foldl_hexValue (digits : GCstr) (r : Nat) :
    r ≤ digits.foldl (fun r d => 16 * r + P.hexValue d) r := by
  induction digits generalizing r with
  | nil => exact le_rfl
  | cons d digits induction => exact le_trans (by omega) (induction (16 * r + P.hexValue d))

/-- The digits are read up to the last one, the value of each part being a code point. -/
theorem utf8escLoop_digits {digits : GCstr} (i r : Nat) (each : ∀ d ∈ digits, find xdigit (some d) = true)
    (ends : find xdigit tail.head? = false) (enough : digits.length < fuel)
    (small : digits.foldl (fun r d => 16 * r + P.hexValue d) r ≤ 0x10FFFF)
    (bytes : l.z = digits ++ tail) :
    utf8escLoop fuel i r l =
      .ok (i + digits.length, digits.foldl (fun r d => 16 * r + P.hexValue d) r,
        { l with z := tail, buff := l.buff ++ digits.map ([·]) }) := by
  induction digits generalizing fuel i r l with
  | nil =>
      obtain ⟨fuel, rfl⟩ := Nat.exists_eq_succ_of_ne_zero (Nat.ne_of_gt enough)
      have isHead : l.current = tail.head? := by rw [current, bytes, List.nil_append]
      have unchanged : ({ l with z := tail, buff := l.buff ++ [] } : L) = l := by
        rw [List.append_nil, ← List.nil_append tail, ← bytes]
      rw [utf8escLoop, isHead, ends, List.map_nil, unchanged]
      rfl
  | cons d digits induction =>
      obtain ⟨fuel, rfl⟩ := Nat.exists_eq_succ_of_ne_zero (Nat.ne_of_gt (Nat.zero_lt_of_lt enough))
      have within : 16 * r + P.hexValue d ≤ 0x10FFFF :=
        le_trans (le_foldl_hexValue digits (16 * r + P.hexValue d)) small
      have checked : esccheck l (decide (16 * r + P.hexValue d ≤ 0x10FFFF)) "UTF-8 value too large" =
          .ok () := if_pos (by simpa using within)
      rw [utf8escLoop, current_of_z bytes, if_pos (each d List.mem_cons_self)]
      change (do
        esccheck l (decide (16 * r + P.hexValue d ≤ 0x10FFFF)) _
        utf8escLoop fuel (i + 1) (16 * r + P.hexValue d) l.saveAndNext) = _
      rw [checked, saveAndNext_of_z bytes]
      change utf8escLoop fuel (i + 1) (16 * r + P.hexValue d) _ = _
      rw [induction (i + 1) (16 * r + P.hexValue d)
        (fun d' member => each d' (List.mem_cons_of_mem d member)) (by simpa using enough) small rfl]
      simp only [List.length_cons, List.foldl_cons, List.map_cons, List.append_assoc,
        List.singleton_append, Nat.add_assoc, Nat.add_comm 1]

theorem readutf8esc_digits {digits : GCstr} (nonempty : digits ≠ [])
    (each : ∀ d ∈ digits, find xdigit (some d) = true) (codePoint : hexadecimalValue digits ≤ 0x10FFFF)
    (bytes : l.z = ch 'u' :: ch '\x7b' :: (digits ++ ch '\x7d' :: tail)) (enough : digits.length < fuel)
    {kept : List GCstr} (saved : l.buff = kept ++ [[ch '\\']]) :
    l.readutf8esc fuel = .ok (hexadecimalValue digits, { l with z := tail, buff := kept }) := by
  obtain ⟨d, more, rfl⟩ := List.exists_cons_of_ne_nil nonempty
  have isFirst := each d List.mem_cons_self
  have others : ∀ d' ∈ more, find xdigit (some d') = true :=
    fun d' member => each d' (List.mem_cons_of_mem d member)
  have noDigit : find xdigit (ch '\x7d' :: tail).head? = false := by
    rw [xdigit_bytes, List.head?_cons]
    decide
  have value : hexadecimalValue (d :: more) =
      more.foldl (fun r d => 16 * r + P.hexValue d) (P.hexValue d) := by
    rw [hexadecimalValue, List.foldl_cons, Nat.mul_zero, Nat.zero_add]
  rw [value] at codePoint ⊢
  let removed : List GCstr := [[ch '\\'], [ch 'u'], [ch '\x7b'], [d]]
  have opened : l.saveAndNext =
      { l with z := ch '\x7b' :: d :: (more ++ ch '\x7d' :: tail), buff := l.buff ++ [[ch 'u']] } :=
    saveAndNext_of_z bytes
  have first : gethexa { l with z := ch '\x7b' :: d :: (more ++ ch '\x7d' :: tail), buff := l.buff ++ [[ch 'u']] } =
      _ := gethexa_of_z (more ++ ch '\x7d' :: tail) isFirst rfl
  have loop : utf8escLoop fuel 4 (P.hexValue d)
      { l with z := more ++ ch '\x7d' :: tail, buff := kept ++ removed } = _ :=
    utf8escLoop_digits 4 (P.hexValue d) others noDigit
      (by rw [List.length_cons] at enough; omega) codePoint rfl
  have joined : l.buff ++ [[ch 'u']] ++ [[ch '\x7b']] ++ [[d]] = kept ++ removed := by
    rw [saved]
    simp [removed]
  have count : 4 + more.length = (removed ++ more.map ([·])).length := by
    rw [List.length_append, List.length_map]
    rfl
  have taken := buffremove_append { l with z := tail } kept (removed ++ more.map ([·]))
  rw [readutf8esc, opened]
  change (do
    let first ← gethexa _
    let q ← utf8escLoop fuel 4 first.1 first.2.saveAndNext
    q.2.2.esccheck (q.2.2.current == some (ch '\x7d')) _
    return (q.2.1, q.2.2.next_.buffremove q.1)) = _
  rw [first]
  change (do
    let q ← utf8escLoop fuel 4 (P.hexValue d)
      { l with z := more ++ ch '\x7d' :: tail, buff := l.buff ++ [[ch 'u']] ++ [[ch '\x7b']] ++ [[d]] }
    q.2.2.esccheck (q.2.2.current == some (ch '\x7d')) _
    return (q.2.1, q.2.2.next_.buffremove q.1)) = _
  rw [joined, loop]
  change Except.ok (_, buffremove { l with z := tail, buff := kept ++ removed ++ _ } _) = _
  rw [count, List.append_assoc, taken]

theorem utf8escBytes_eq {n : Nat} (codePoint : n ≤ 0x10FFFF) :
    ((if n < 0x80 then [n]
      else if n < 0x800 then [0xC0 + n >>> 6, 0x80 + (n &&& 0x3F)]
      else if n < 0x10000 then
        [0xE0 + n >>> 12, 0x80 + (n >>> 6 &&& 0x3F), 0x80 + (n &&& 0x3F)]
      else [0xF0 + n >>> 18, 0x80 + (n >>> 12 &&& 0x3F), 0x80 + (n >>> 6 &&& 0x3F),
        0x80 + (n &&& 0x3F)]) : List Nat).map UInt8.ofNat = generalUtf8 n := by
  rw [← wcharBytes_eq codePoint]
  simp only [and_0x3f, Nat.shiftRight_eq_div_pow]
  split
  · next one => rw [wcharBytes_one one, List.map_singleton]
  · next more =>
      split
      · next two => rw [wcharBytes_two (by omega) two]
      · next more =>
          split
          · next three => rw [wcharBytes_three (by omega) three]
          · next four => rw [wcharBytes_four (by omega) codePoint]

theorem foldl_save (l : L) (bytes : List Nat) :
    bytes.foldl (fun l b => l.save [UInt8.ofNat b]) l =
      { l with buff := l.buff ++ bytes.map fun b => [UInt8.ofNat b] } := by
  induction bytes generalizing l with
  | nil => rw [List.foldl_nil, List.map_nil, List.append_nil]
  | cons b bytes induction =>
      rw [List.foldl_cons, induction, List.map_cons, List.append_cons]
      rfl

theorem escapes_unicode {digits : GCstr} (nonempty : digits ≠ [])
    (each : ∀ d ∈ digits, find xdigit (some d) = true) (codePoint : hexadecimalValue digits ≤ 0x10FFFF)
    (enough : digits.length < steps) :
    Escapes steps l (ch 'u' :: ch '\x7b' :: (digits ++ [ch '\x7d'])) (generalUtf8 (hexadecimalValue digits))
      tail := by
  let start := l.behindBackslash (ch 'u' :: ch '\x7b' :: (digits ++ [ch '\x7d']) ++ tail)
  have bytes : start.z = ch 'u' :: ch '\x7b' :: (digits ++ ch '\x7d' :: tail) := by
    change ch 'u' :: ch '\x7b' :: (digits ++ [ch '\x7d'] ++ tail) = _
    rw [List.append_assoc]
    rfl
  have none : lineBreaks (ch 'u' :: ch '\x7b' :: (digits ++ [ch '\x7d'])) = 0 := by
    have others : find newline (some (ch 'u')) = false ∧ find newline (some (ch '\x7b')) = false ∧
        find newline (some (ch '\x7d')) = false := by
      rw [newline_bytes]
      decide
    have front := lineBreaks_append (List.forall_mem_cons.mpr ⟨others.1, List.forall_mem_cons.mpr
      ⟨others.2.1, List.forall_mem_append.mpr ⟨fun d member => xdigit_noBreak (each d member),
        List.forall_mem_singleton.mpr others.2.2⟩⟩⟩) []
    rwa [List.append_nil] at front
  have digits := readutf8esc_digits (l := start) nonempty each codePoint bytes enough rfl
  have encoded := utf8escBytes_eq codePoint
  have read : start.escape steps = start.utf8esc steps := rfl
  rw [utf8esc, digits] at read
  change start.escape steps = Except.ok _ at read
  rw [foldl_save] at read
  rw [Escapes, none]
  refine ⟨_, read, rfl, (add_zero _).symm, fun _ => ?_⟩
  change (l.buff ++ _).flatten = l.buff.flatten ++ _
  rw [List.flatten_append, ← encoded, ← List.flatMap_def]
  congr 1
  exact List.map_eq_flatMap.symm

/-! ### White space -/

theorem newline_space {b : UInt8} (isBreak : find newline (some b) = true) :
    find space (some b) = true :=
  find_forall newline_bytes isBreak (by decide)

theorem single_of_space (ends : find space tail.head? = false) : find newline tail.head? = false := by
  cases isHead : tail.head? with
  | none => rfl
  | some c =>
      rw [isHead] at ends
      by_contra isEnd
      rw [newline_space (by simpa using isEnd)] at ends
      cases ends

theorem skipSpace_blanks {blanks : GCstr} (each : ∀ b ∈ blanks, find space (some b) = true)
    (ends : find space tail.head? = false) (enough : blanks.length < fuel) (bytes : l.z = blanks ++ tail) :
    skipSpace fuel l = .ok { l with z := tail, linenumber := l.linenumber + lineBreaks blanks } := by
  induction fuel generalizing blanks l with
  | zero => omega
  | succ fuel induction =>
      cases blanks with
      | nil =>
          have isHead : l.current = tail.head? := by rw [current, bytes, List.nil_append]
          have unchanged : ({ l with z := tail, linenumber := l.linenumber + lineBreaks [] } : L) = l := by
            change ({ l with z := [] ++ tail, linenumber := l.linenumber + 0 } : L) = l
            rw [add_zero, ← bytes]
          rw [skipSpace, isHead, ends, unchanged]
          rfl
      | cons b blanks =>
          have others : ∀ b' ∈ blanks, find space (some b') = true :=
            fun b' member => each b' (List.mem_cons_of_mem b member)
          rw [List.length_cons] at enough
          rw [skipSpace, current_of_z bytes, if_pos (each b List.mem_cons_self)]
          by_cases isBreak : find newline (some b) = true
          · -- A break of two bytes is skipped at once.
            have isSuffix := pastBreak_suffix b blanks
            have past := pastBreak_append b blanks (single_of_space ends)
            have fewer := isSuffix.length_le
            have left : ∀ b' ∈ pastBreak (b :: blanks), find space (some b') = true :=
              fun b' member => others b' (isSuffix.mem member)
            rw [if_pos isBreak, inclinenumber_eq isBreak bytes, List.append_eq, past,
              lineBreaks_break isBreak blanks]
            have run := induction (l := { l with z := _, linenumber := l.linenumber + 1 }) left
              (by omega) rfl
            refine run.trans ?_
            congr 2
            push_cast
            ring
          · have skipped : l.next_ = { l with z := blanks ++ tail } := by
              rw [next_, bytes]
              rfl
            have none : ∀ c ∈ [b], find newline (some c) = false :=
              List.forall_mem_singleton.mpr (by simpa using isBreak)
            have same : lineBreaks (b :: blanks) = lineBreaks blanks := lineBreaks_append none blanks
            rw [if_neg isBreak, skipped, same]
            exact induction (l := { l with z := blanks ++ tail }) others (by omega) rfl

theorem escapes_skip {blanks : GCstr} (each : ∀ b ∈ blanks, find space (some b) = true)
    (ends : find space tail.head? = false) (enough : blanks.length < steps) :
    Escapes steps l (ch 'z' :: blanks) [] tail := by
  have removed : (l.behindBackslash (ch 'z' :: blanks ++ tail)).buffremove 1 =
      { l with z := ch 'z' :: blanks ++ tail } :=
    buffremove_append { l with z := ch 'z' :: blanks ++ tail } l.buff [[ch '\\']]
  have read : (l.behindBackslash (ch 'z' :: blanks ++ tail)).escape steps =
      skipSpace steps ((l.behindBackslash (ch 'z' :: blanks ++ tail)).buffremove 1).next_ := rfl
  have skipped := skipSpace_blanks (l := { l with z := blanks ++ tail }) each ends enough rfl
  have notZ : ∀ b ∈ [ch 'z'], find newline (some b) = false := by
    rw [newline_bytes]
    exact List.forall_mem_singleton.mpr (by decide)
  have same : lineBreaks (ch 'z' :: blanks) = lineBreaks blanks := lineBreaks_append notZ blanks
  rw [removed] at read
  rw [Escapes, same]
  exact ⟨_, read.trans skipped, rfl, rfl, fun _ => (List.append_nil _).symm⟩

/-! ### Whole literals -/

/-- The bytes a short literal is delimited with. -/
def IsQuote (del : UInt8) : Prop := del = ch '"' ∨ del = ch '\''

theorem IsQuote.facts {del : UInt8} (isQuote : IsQuote del) :
    del ≠ ch '\\' ∧ find newline (some del) = false ∧ find digit (some del) = false ∧
      find space (some del) = false := by
  rw [newline_bytes, digit_bytes]
  rcases isQuote with rfl | rfl <;> decide

/-- No set with a delimiter in it is tested for behind an escape. -/
theorem find_delimited {set : GCstr} {del : UInt8} {s : GCstr} (notDel : find set (some del) = false)
    (ends : find set s.head? = false) : find set (s ++ del :: tail).head? = false := by
  cases s with
  | nil => exact notDel
  | cons b s => exact ends

theorem find_newline_body {letters : UInt8 → Option UInt8} {del : UInt8} {s v : GCstr}
    (body : ShortBody letters del s v) : find newline s.head? = false := by
  have onBackslash : find newline (some (ch '\\')) = false := by
    rw [newline_bytes]
    decide
  cases body with
  | nil => rfl
  | plain notDel notEscape noNewline rest => exact noNewline
  | _ => exact onBackslash

/-- Wherever these contents stand in front of a delimiter, they are read as these bytes. -/
def ReadAs (steps : Nat) (del : UInt8) (tail s v : GCstr) : Prop :=
  ∀ (l : L) (fuel : Nat), l.z = s ++ del :: tail → l.z.length < fuel → l.z.length < steps →
    ∃ l', stringLoop steps del fuel l = .ok l' ∧ ReadTo true l l' (lineBreaks s) v (del :: tail)

/-- An escape in front of contents that can be read. -/
theorem ReadAs.escape {del : UInt8} (escaped piece : GCstr) {s v : GCstr} (notDel : del ≠ ch '\\')
    (single : find newline s.head? = false)
    (escapes : ∀ l : L, escaped.length < steps → Escapes steps l escaped piece (s ++ del :: tail))
    (rest : ReadAs steps del tail s v) :
    ReadAs steps del tail (ch '\\' :: (escaped ++ s)) (piece ++ v) := by
  intro l fuel bytes enough enoughSteps
  rw [List.cons_append, List.append_assoc] at bytes
  obtain ⟨fuel, rfl⟩ := Nat.exists_eq_succ_of_ne_zero (Nat.ne_of_gt (Nat.zero_lt_of_lt enough))
  have count : l.z.length = escaped.length + (s ++ del :: tail).length + 1 := by
    rw [bytes, List.length_cons, List.length_append]
  have breaks : lineBreaks (ch '\\' :: (escaped ++ s)) = lineBreaks s + lineBreaks escaped := by
    have onBackslash : ∀ b ∈ [ch '\\'], find newline (some b) = false := by
      rw [newline_bytes]
      exact List.forall_mem_singleton.mpr (by decide)
    have same : lineBreaks (ch '\\' :: (escaped ++ s)) = lineBreaks (escaped ++ s) :=
      lineBreaks_append onBackslash (escaped ++ s)
    rw [same, lineBreaks_add escaped single, Nat.add_comm]
  obtain ⟨next, read, first⟩ := escapes l (by omega)
  have left : next.z.length = (s ++ del :: tail).length := by rw [first.z]
  obtain ⟨l', run, saved⟩ := rest next fuel first.z (by omega) (by omega)
  refine ⟨l', (stringLoop_escape notDel bytes read).trans run, ?_⟩
  rw [breaks]
  exact first.trans saved

/-- The contents are read as they are written, with the letters that the lexer knows. -/
theorem stringLoop_body {del : UInt8} {s v : GCstr} (isQuote : IsQuote del)
    (body : ShortBody simpleEscape del s v) : ReadAs steps del tail s v := by
  obtain ⟨notDel, notNewline, notDigit, notSpace⟩ := isQuote.facts
  induction body with
  | nil =>
      intro l fuel bytes enough enoughSteps
      obtain ⟨fuel, rfl⟩ := Nat.exists_eq_succ_of_ne_zero (Nat.ne_of_gt (Nat.zero_lt_of_lt enough))
      refine ⟨l, ?_, bytes, (add_zero _).symm, fun _ => (List.append_nil _).symm⟩
      rw [stringLoop, current_of_z bytes, if_pos rfl]
  | @plain c s v otherDel notEscape noNewline rest induction =>
      intro l fuel bytes enough enoughSteps
      obtain ⟨fuel, rfl⟩ := Nat.exists_eq_succ_of_ne_zero (Nat.ne_of_gt (Nat.zero_lt_of_lt enough))
      let next : L := { l with z := s ++ del :: tail, buff := l.buff ++ [[c]] }
      have shorter : l.z.length = next.z.length + 1 := by rw [bytes]; rfl
      have first : ReadTo true l next 0 [c] (s ++ del :: tail) :=
        ⟨rfl, (add_zero _).symm, fun _ => text_concat l [c]⟩
      have breaks : lineBreaks (c :: s) = lineBreaks s :=
        lineBreaks_append (List.forall_mem_singleton.mpr noNewline) s
      obtain ⟨l', run, saved⟩ := induction next fuel rfl (by omega) (by omega)
      refine ⟨l', (stringLoop_plain otherDel notEscape noNewline bytes).trans run, ?_⟩
      rw [breaks]
      exact first.trans saved
  | @letter c b s v isLetter rest induction =>
      exact induction.escape [c] [b] notDel (find_newline_body rest) fun _ _ => escapes_letter isLetter
  | @decimal digits s v nonempty short each small ends rest induction =>
      apply induction.escape digits [UInt8.ofNat (escapeValue digits)] notDel (find_newline_body rest)
      exact fun _ _ => escapes_decimal nonempty short each small (ends.imp_right (find_delimited notDigit))
  | @hexadecimal a b s v first second rest induction =>
      exact induction.escape [ch 'x', a, b] [UInt8.ofNat (hexadecimalValue [a, b])] notDel
        (find_newline_body rest) fun _ _ => escapes_hexadecimal first second
  | @unicode digits s v nonempty each codePoint rest induction =>
      have read := induction.escape (ch 'u' :: ch '\x7b' :: (digits ++ [ch '\x7d']))
        (generalUtf8 (hexadecimalValue digits)) notDel (find_newline_body rest)
        fun l enough => escapes_unicode nonempty each codePoint
          (by simp only [List.length_cons, List.length_append] at enough; omega)
      rwa [List.cons_append, List.cons_append, List.append_assoc] at read
  | @skip blanks s v each ends rest induction =>
      exact induction.escape (ch 'z' :: blanks) [] notDel (find_newline_body rest)
        fun _ enough => escapes_skip each (find_delimited notSpace ends) (Nat.lt_of_succ_lt enough)
  | @lineBreak ends s v isBreak rest induction =>
      apply induction.escape ends [ch '\n'] notDel (find_newline_body rest)
      exact fun _ _ => escapes_break isBreak (find_delimited notNewline (find_newline_body rest))

/-- What `L:_read_string` takes out of its buffer. -/
theorem readString_body {del : UInt8} {s v : GCstr} (isQuote : IsQuote del)
    (body : ShortBody simpleEscape del s v) (fresh : l.buff = []) (bytes : l.z = del :: (s ++ del :: tail))
    (enough : l.z.length < fuel) :
    ∃ l', l.readString fuel del = .ok (.string v, l') ∧ l'.z = tail ∧
      l'.linenumber = l.linenumber + lineBreaks s := by
  have opened : l.saveAndNext = { l with z := s ++ del :: tail, buff := [[del]] } := by
    rw [saveAndNext_of_z bytes, fresh]
    rfl
  rw [bytes, List.length_cons] at enough
  have reads : ReadAs fuel del tail s v := stringLoop_body isQuote body
  obtain ⟨next, run, saved⟩ := reads { l with z := s ++ del :: tail, buff := [[del]] } fuel rfl
    (Nat.lt_of_succ_lt enough) (Nat.lt_of_succ_lt enough)
  have closed := saveAndNext_of_z saved.z
  have text : next.saveAndNext.text = del :: v ++ [del] := by
    rw [closed]
    change (next.buff ++ [[del]]).flatten = _
    rw [List.flatten_concat]
    exact congrArg (· ++ [del]) (saved.text rfl)
  refine ⟨next.saveAndNext, ?_, by rw [closed], by rw [closed]; exact saved.linenumber⟩
  rw [readString, opened, run]
  change Except.ok (Lexeme.string next.saveAndNext.text.tail.dropLast, next.saveAndNext) = _
  rw [text, List.cons_append, List.tail_cons, List.dropLast_concat]

theorem llexLoop_short [Tonumber] {del : UInt8} {s v : GCstr} (isQuote : IsQuote del)
    (body : ShortBody simpleEscape del s v) (fresh : l.buff = [])
    (bytes : l.z = del :: (s ++ del :: tail)) (enough : l.z.length < steps) :
    ∃ l', llexLoop steps (fuel + 1) l = .ok (.string v, l') ∧ l'.z = tail ∧
      l'.linenumber = l.linenumber + lineBreaks s := by
  have dispatched : llexLoop steps (fuel + 1) l = readString steps del l := by
    rw [llexLoop, current_of_z bytes]
    rcases isQuote with rfl | rfl <;> rfl
  rw [dispatched]
  exact readString_body isQuote body fresh bytes enough

end L

/-! ## The letters of the manual -/

/-- Whether a short literal has the escape `\b`. -/
def writesBackspace : GCstr → Bool
  | [] => false
  | b :: rest =>
      if b = ch '\\' then
        match rest with
        | [] => false
        | c :: rest => c == ch 'b' || writesBackspace rest
      else writesBackspace rest

theorem writesBackspace_append {front : GCstr} (rest : GCstr) (plain : ∀ b ∈ front, b ≠ ch '\\') :
    writesBackspace (front ++ rest) = writesBackspace rest := by
  induction front with
  | nil => rfl
  | cons b front induction =>
      rw [List.cons_append, writesBackspace.eq_def]
      dsimp only
      rw [if_neg (plain b List.mem_cons_self)]
      exact induction fun b' member => plain b' (List.mem_cons_of_mem b member)

theorem writesBackspace_escape {c : UInt8} {front : GCstr} (rest : GCstr) (notLetter : c ≠ ch 'b')
    (plain : ∀ b ∈ front, b ≠ ch '\\') :
    writesBackspace (ch '\\' :: c :: (front ++ rest)) = writesBackspace rest := by
  rw [writesBackspace, if_pos rfl, beq_false_of_ne notLetter, Bool.false_or]
  exact writesBackspace_append rest plain

/-- The lexer knows the same letters, and has `b` itself for one of them. -/
theorem simpleEscape_eq (c : UInt8) :
    (c = ch 'b' ∧ manualEscape c = some 8 ∧ L.simpleEscape c = some (ch 'b')) ∨
      (c ≠ ch 'b' ∧ L.simpleEscape c = manualEscape c) := by
  by_cases isB : c = ch 'b'
  · rw [isB]
    decide
  · right
    rw [L.simpleEscape, manualEscape, if_neg isB, if_neg isB]
    exact ⟨isB, rfl⟩

/-- What the lexer reads for contents that denote some bytes. -/
structure LexedAs (del : UInt8) (s v w : GCstr) : Prop where
  body : ShortBody L.simpleEscape del s w
  length : w.length = v.length
  same : w = v ↔ writesBackspace s = false
  /-- The delimiter behind the contents writes nothing. -/
  delimited : writesBackspace (s ++ [del]) = writesBackspace s

theorem LexedAs.append {del : UInt8} {s v w front : GCstr} (piece : GCstr) (lexed : LexedAs del s v w)
    (body : ShortBody L.simpleEscape del (front ++ s) (piece ++ w))
    (noBackspace : ∀ rest, writesBackspace (front ++ rest) = writesBackspace rest) :
    LexedAs del (front ++ s) (piece ++ v) (piece ++ w) where
  body := body
  length := by rw [List.length_append, List.length_append, lexed.length]
  same := by rw [List.append_cancel_left_eq, lexed.same, noBackspace]
  delimited := by rw [List.append_assoc, noBackspace, noBackspace, lexed.delimited]

theorem lexedAs {del : UInt8} {s v : GCstr} (body : ShortBody manualEscape del s v) :
    ∃ w, LexedAs del s v w := by
  induction body with
  | nil =>
      have delimiter : writesBackspace [del] = false := by simp [writesBackspace]
      exact ⟨[], .nil, rfl, ⟨fun _ => rfl, fun _ => rfl⟩, delimiter⟩
  | @plain c s v notDel notEscape noNewline rest induction =>
      obtain ⟨w, lexed⟩ := induction
      exact ⟨c :: w, lexed.append [c] (.plain notDel notEscape noNewline lexed.body)
        fun rest => writesBackspace_append rest (List.forall_mem_singleton.mpr notEscape)⟩
  | @letter c b s v isLetter rest induction =>
      obtain ⟨w, lexed⟩ := induction
      rcases simpleEscape_eq c with ⟨rfl, manual, simple⟩ | ⟨notB, known⟩
      · obtain rfl : b = 8 := Option.some.inj (isLetter.symm.trans manual)
        have differs : ch 'b' :: w ≠ 8 :: v := fun same => absurd (List.cons.inj same).1 (by decide)
        have written : writesBackspace (ch '\\' :: ch 'b' :: s) = true := rfl
        have length : (ch 'b' :: w).length = ((8 : UInt8) :: v).length := congrArg Nat.succ lexed.length
        exact ⟨ch 'b' :: w, .letter simple lexed.body, length, by rw [written]; simpa using differs, rfl⟩
      · have noBackspace : ∀ rest, writesBackspace ([ch '\\', c] ++ rest) = writesBackspace rest :=
          fun rest => writesBackspace_escape rest notB (List.forall_mem_nil _)
        exact ⟨b :: w, lexed.append [b] (.letter (known.trans isLetter) lexed.body) noBackspace⟩
  | @decimal digits s v nonempty short each small ends rest induction =>
      obtain ⟨w, lexed⟩ := induction
      have plain (d : UInt8) (isDigit : find L.digit (some d) = true) : d ≠ ch '\\' ∧ d ≠ ch 'b' :=
        find_forall L.digit_bytes isDigit (by decide)
      have noBackspace (rest : GCstr) :
          writesBackspace (ch '\\' :: digits ++ rest) = writesBackspace rest := by
        obtain ⟨d, more, rfl⟩ := List.exists_cons_of_ne_nil nonempty
        exact writesBackspace_escape rest (plain d (each d List.mem_cons_self)).2
          fun d' member => (plain d' (each d' (List.mem_cons_of_mem d member))).1
      exact ⟨_, lexed.append [UInt8.ofNat (escapeValue digits)]
        (.decimal nonempty short each small ends lexed.body) noBackspace⟩
  | @hexadecimal a b s v first second rest induction =>
      obtain ⟨w, lexed⟩ := induction
      have plain (d : UInt8) (isDigit : find xdigit (some d) = true) : d ≠ ch '\\' :=
        find_forall xdigit_bytes isDigit (by decide)
      have noBackspace (rest : GCstr) :
          writesBackspace ([ch '\\', ch 'x', a, b] ++ rest) = writesBackspace rest :=
        writesBackspace_escape rest (by decide)
          (List.forall_mem_cons.mpr ⟨plain a first, List.forall_mem_singleton.mpr (plain b second)⟩)
      exact ⟨_, lexed.append [UInt8.ofNat (hexadecimalValue [a, b])]
        (.hexadecimal first second lexed.body) noBackspace⟩
  | @unicode digits s v nonempty each codePoint rest induction =>
      obtain ⟨w, lexed⟩ := induction
      have plain (d : UInt8) (isDigit : find xdigit (some d) = true) : d ≠ ch '\\' :=
        find_forall xdigit_bytes isDigit (by decide)
      have text : ch '\\' :: ch 'u' :: ch '\x7b' :: (digits ++ ch '\x7d' :: s) =
          ch '\\' :: ch 'u' :: ((ch '\x7b' :: digits ++ [ch '\x7d']) ++ s) := by
        rw [List.append_assoc]
        rfl
      have body := ShortBody.unicode nonempty each codePoint lexed.body
      have noBackspace (rest : GCstr) : writesBackspace
          (ch '\\' :: ch 'u' :: (ch '\x7b' :: digits ++ [ch '\x7d']) ++ rest) = writesBackspace rest :=
        writesBackspace_escape rest (by decide) (List.forall_mem_append.mpr ⟨List.forall_mem_cons.mpr
          ⟨by decide, fun d member => plain d (each d member)⟩, List.forall_mem_singleton.mpr (by decide)⟩)
      rw [text] at body ⊢
      exact ⟨_, lexed.append (generalUtf8 (hexadecimalValue digits)) body noBackspace⟩
  | @skip blanks s v each ends rest induction =>
      obtain ⟨w, lexed⟩ := induction
      have plain (b : UInt8) (isSpace : find L.space (some b) = true) : b ≠ ch '\\' :=
        find_forall rfl isSpace (by decide)
      have noBackspace (rest : GCstr) :
          writesBackspace (ch '\\' :: ch 'z' :: blanks ++ rest) = writesBackspace rest :=
        writesBackspace_escape rest (by decide) fun b member => plain b (each b member)
      exact ⟨_, lexed.append [] (.skip each ends lexed.body) noBackspace⟩
  | @lineBreak ends s v isBreak rest induction =>
      obtain ⟨w, lexed⟩ := induction
      have noBackspace (rest : GCstr) :
          writesBackspace (ch '\\' :: ends ++ rest) = writesBackspace rest := by
        simp only [lineEnds, List.mem_cons, List.not_mem_nil, or_false] at isBreak
        rcases isBreak with rfl | rfl | rfl | rfl
        · exact writesBackspace_escape rest (by decide) (List.forall_mem_nil _)
        · exact writesBackspace_escape rest (by decide) (List.forall_mem_nil _)
        · exact writesBackspace_escape rest (by decide) (List.forall_mem_singleton.mpr (by decide))
        · exact writesBackspace_escape rest (by decide) (List.forall_mem_singleton.mpr (by decide))
      exact ⟨_, lexed.append [ch '\n'] (.lineBreak isBreak lexed.body) noBackspace⟩

end TvmJit
