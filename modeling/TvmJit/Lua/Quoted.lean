import TvmJit.Lua.Breaks

/-! `lj_strfmt_putquoted`, the format `%q`, and what the lexer of `lunokhod.lua` reads back
from it. -/

namespace TvmJit

def LJ_CHAR_CNTRL : Nat := 0x01

def ljCharIscntrl (c : LexChar) : Bool := ljCharIsa c LJ_CHAR_CNTRL

theorem ljCharIscntrl_byte (b : UInt8) :
    ljCharIscntrl (some b) = (decide (b.toNat < 32) || b.toNat == 127) :=
  ljCharIsa_byte (fun n => decide (n < 32) || n == 127) (by decide +kernel) b

/-! ## Writing -/

/-- The digits of an escape, of which there are three for a large character and in front of
a digit. -/
def decimalEscape (c : Nat) (digitNext : Bool) : GCstr :=
  let large := c ≥ 100
  let hundreds : GCstr := if large || digitNext then [if large then ch '1' else ch '0'] else []
  let rest := if large then c - 100 else c
  let d := (rest * 205) >>> 11
  if large || digitNext || rest ≥ 10 then
    hundreds ++ [UInt8.ofNat (48 + d), UInt8.ofNat (48 + (rest - d * 10))]
  else [UInt8.ofNat (48 + rest)]

/-- The bytes `lj_strfmt_putquoted` adds for one byte. -/
def quotedByte (c : UInt8) (next : LexChar) : GCstr :=
  if c = ch '"' ∨ c = ch '\\' ∨ c = ch '\n' then [ch '\\', c]
  else if ljCharIscntrl (some c) then ch '\\' :: decimalEscape c.toNat (ljCharIsdigit next)
  else [c]

def quotedBytes : GCstr → GCstr
  | [] => []
  | c :: s => quotedByte c s.head? ++ quotedBytes s

/-- `lj_strfmt_putquoted`, of what it adds to the buffer. -/
def ljStrfmtPutquoted (s : GCstr) : GCstr := ch '"' :: (quotedBytes s ++ [ch '"'])

/-- The value of decimal digits. -/
def escapeValue (ds : GCstr) : Nat := ds.foldl (fun r d => 10 * r + (d.toNat - 48)) 0

/-- An escape is made of one to three digits, and of three in front of a digit. -/
structure EscapeDigits (c : UInt8) (ds : GCstr) (digitNext : Bool) : Prop where
  nonempty : ds ≠ []
  digits : ∀ d ∈ ds, find L.digit (some d) = true
  value : escapeValue ds = c.toNat
  short : ds.length ≤ 3
  ends : ds.length = 3 ∨ digitNext = false

theorem escapeDigits {c : UInt8} (control : ljCharIscntrl (some c) = true) (digitNext : Bool) :
    EscapeDigits c (decimalEscape c.toNat digitNext) digitNext := by
  have table : ∀ digitNext : Bool, ∀ c ∈ 127 :: List.range 32,
      let ds := decimalEscape c digitNext
      ds ≠ [] ∧ ds.all (fun d => 48 ≤ d.toNat && d.toNat ≤ 57) = true ∧ escapeValue ds = c ∧
        ds.length ≤ 3 ∧ (ds.length = 3 ∨ digitNext = false) := by
    decide
  have isDigit (d : UInt8) (range : (48 ≤ d.toNat && d.toNat ≤ 57) = true) :
      find L.digit (some d) = true := by
    rw [L.find_digit, ljCharIsdigit_byte, range]
  have small : c.toNat ∈ 127 :: List.range 32 := by
    rw [ljCharIscntrl_byte] at control
    simpa [or_comm] using control
  obtain ⟨nonempty, digits, value, short, ends⟩ := table digitNext c.toNat small
  exact ⟨nonempty, fun d member => isDigit d (List.all_eq_true.mp digits d member), value, short, ends⟩

theorem simpleEscape_digit {d : UInt8} (isDigit : find L.digit (some d) = true) :
    L.simpleEscape d = none ∧ d ≠ ch 'x' ∧ d ≠ ch 'u' ∧ d ≠ ch '\n' ∧ d ≠ ch '\r' ∧ d ≠ ch 'z' := by
  exact find_forall L.digit_bytes isDigit (by decide)

/-! ## Reading -/

namespace L

variable {l : L}

theorem current_of_z {c : UInt8} {tail : GCstr} (bytes : l.z = c :: tail) : l.current = some c := by
  rw [current, bytes]
  rfl

theorem saveAndNext_of_z {c : UInt8} {tail : GCstr} (bytes : l.z = c :: tail) :
    l.saveAndNext = { l with z := tail, buff := l.buff ++ [[c]] } := by
  rw [saveAndNext, current_of_z bytes, next_, save]
  simp only [bytes]
  rfl

theorem inclinenumber_eq {b : UInt8} {tail : GCstr} (isBreak : find newline (some b) = true)
    (bytes : l.z = b :: tail) :
    l.inclinenumber =
      .ok { l with z := pastBreak (b :: tail), linenumber := l.linenumber + 1 } := by
  have skipped : l.next_ = { l with z := tail } := by
    rw [next_, bytes]
    rfl
  rw [inclinenumber, current_of_z bytes, if_pos isBreak, skipped]
  dsimp only
  cases tail with
  | nil => rfl
  | cons c tail =>
      have isNext : ({ l with z := c :: tail } : L).current = some c := rfl
      have differs : (some c != some b) = (c != b) := rfl
      rw [isNext, differs, pastBreak]
      split
      · rfl
      · rfl

theorem buffremove_append (l : L) (kept removed : List GCstr) :
    ({ l with buff := kept ++ removed } : L).buffremove removed.length = { l with buff := kept } := by
  simp [buffremove]

/-- The digits of an escape are read up to the last one. -/
theorem decescLoop_digits {ds tail : GCstr} {n : Nat} (i r : Nat)
    (digits : ∀ d ∈ ds, find digit (some d) = true) (short : ds.length ≤ n)
    (ends : ds.length = n ∨ find digit tail.head? = false) (bytes : l.z = ds ++ tail) :
    decescLoop n i r l =
      (i + ds.length, ds.foldl (fun r d => 10 * r + (d.toNat - 48)) r,
        { l with z := tail, buff := l.buff ++ ds.map ([·]) }) := by
  induction ds generalizing n i r l with
  | nil =>
      have unchanged : ({ l with z := tail, buff := l.buff ++ [] } : L) = l := by
        rw [List.append_nil, ← List.nil_append tail, ← bytes]
      rw [List.map_nil, unchanged]
      cases n with
      | zero => rfl
      | succ n =>
          have noDigit : find digit tail.head? = false := ends.resolve_left (by simp)
          have isHead : l.current = tail.head? := by rw [current, bytes, List.nil_append]
          unfold decescLoop
          rw [isHead]
          cases head : tail.head? with
          | none => rfl
          | some c =>
              rw [head] at noDigit
              dsimp only
              rw [noDigit]
              rfl
  | cons d ds induction =>
      cases n with
      | zero => simp at short
      | succ n =>
          have isDigit := digits d List.mem_cons_self
          rw [decescLoop, current_of_z bytes]
          dsimp only
          rw [if_pos isDigit, saveAndNext_of_z bytes]
          rw [induction (i + 1) (10 * r + (d.toNat - 48))
            (fun d' member => digits d' (List.mem_cons_of_mem _ member)) (by simpa using short)
            (by simpa using ends) rfl]
          simp only [List.length_cons, List.foldl_cons, List.map_cons, List.append_assoc,
            List.singleton_append, Nat.add_assoc, Nat.add_comm 1]

/-- The lexer after it has read what was written for a byte. -/
def took (l : L) (c : UInt8) (tail : GCstr) : L where
  z := tail
  linenumber := l.linenumber + if c = ch '\n' then 1 else 0
  buff := l.buff ++ [[c]]

theorem took_same_line {c : UInt8} (notLf : c ≠ ch '\n') (tail : GCstr) :
    l.took c tail = { l with z := tail, buff := l.buff ++ [[c]] } := by
  rw [took, if_neg notLf, add_zero]

theorem onlySave_append (l : L) (kept : List GCstr) (removed c : GCstr) :
    ({ l with buff := kept ++ [removed] } : L).onlySave c = { l with buff := kept ++ [c] } := by
  rw [onlySave, show (1 : Nat) = [removed].length from rfl, buffremove_append]
  rfl

theorem escape_letter {steps : Nat} {c b : UInt8} {tail : GCstr} {kept : List GCstr} {removed : GCstr}
    (simple : simpleEscape c = some b) (bytes : l.z = c :: tail) (saved : l.buff = kept ++ [removed]) :
    l.escape steps = .ok { l with z := tail, buff := kept ++ [[b]] } := by
  have skipped : l.next_ = { l with z := tail, buff := kept ++ [removed] } := by
    rw [next_, bytes, ← saved]
    rfl
  rw [escape, current_of_z bytes]
  dsimp only
  rw [simple]
  change Except.ok (l.next_.onlySave [b]) = _
  rw [skipped]
  exact congrArg Except.ok (onlySave_append { l with z := tail } kept removed [b])

theorem escape_break {steps : Nat} {c : UInt8} {tail : GCstr} {kept : List GCstr} {removed : GCstr}
    (isBreak : find newline (some c) = true) (bytes : l.z = c :: tail)
    (saved : l.buff = kept ++ [removed]) :
    l.escape steps =
      .ok { z := pastBreak (c :: tail), linenumber := l.linenumber + 1, buff := kept ++ [[ch '\n']] } := by
  have facts : simpleEscape c = none ∧ c ≠ ch 'x' ∧ c ≠ ch 'u' ∧ (c = ch '\n' ∨ c = ch '\r') :=
    find_forall newline_bytes isBreak (by decide)
  obtain ⟨notSimple, notX, notU, isEnd⟩ := facts
  have skipped := inclinenumber_eq isBreak bytes
  rw [escape, current_of_z bytes]
  dsimp only
  rw [notSimple]
  change (if c = ch 'x' then _ else _) = _
  rw [if_neg notX, if_neg notU, if_pos isEnd]
  rw [skipped, saved]
  exact congrArg Except.ok (onlySave_append
    { l with z := pastBreak (c :: tail), linenumber := l.linenumber + 1 } kept removed [ch '\n'])

theorem escape_decimal {steps : Nat} {c : UInt8} {ds tail : GCstr} {kept : List GCstr}
    {removed : GCstr} {digitNext : Bool} (escaped : EscapeDigits c ds digitNext)
    (ends : digitNext = false → find digit tail.head? = false) (bytes : l.z = ds ++ tail)
    (saved : l.buff = kept ++ [removed]) :
    l.escape steps = .ok { l with z := tail, buff := kept ++ [[c]] } := by
  have read := decescLoop_digits 0 0 escaped.digits escaped.short (escaped.ends.imp id ends) bytes
  have isByte : escapeValue ds ≤ 255 := by
    have bound := c.toNat_lt
    rw [escaped.value]
    omega
  have decoded : l.readdecesc = .ok ([c], { l with z := tail }) := by
    rw [readdecesc, read]
    change (do
      esccheck _ (decide (escapeValue ds ≤ 255)) _
      return ([UInt8.ofNat (escapeValue ds)], buffremove _ (0 + ds.length))) = _
    rw [esccheck, if_pos (by simpa using isByte), escaped.value, UInt8.ofNat_toNat, Nat.zero_add,
      ← List.length_map (f := fun d : UInt8 => [d]), buffremove_append { l with z := tail }]
    rfl
  obtain ⟨d, rest, rfl⟩ := List.exists_cons_of_ne_nil escaped.nonempty
  have isDigit := escaped.digits d List.mem_cons_self
  obtain ⟨notSimple, notX, notU, notLf, notCr, notZ⟩ := simpleEscape_digit isDigit
  rw [escape, current_of_z bytes]
  dsimp only
  rw [notSimple]
  change (if d = ch 'x' then _ else _) = _
  rw [if_neg notX, if_neg notU, if_neg (not_or.mpr ⟨notLf, notCr⟩), if_neg notZ, esccheck,
    if_pos isDigit]
  change (l.readdecesc >>= fun r => pure (r.2.onlySave r.1)) = _
  rw [decoded, saved]
  exact congrArg Except.ok (onlySave_append { l with z := tail } kept removed [c])

theorem stringLoop_escape {steps fuel : Nat} {del : UInt8} {tail : GCstr} {l' : L}
    (notDel : del ≠ ch '\\') (bytes : l.z = ch '\\' :: tail)
    (read : ({ l with z := tail, buff := l.buff ++ [[ch '\\']] } : L).escape steps = .ok l') :
    stringLoop steps del (fuel + 1) l = stringLoop steps del fuel l' := by
  have isChar := current_of_z bytes
  have noNewline : find newline (some (ch '\\')) = false := by
    rw [newline_bytes]
    decide
  rw [stringLoop, isChar, if_neg fun isDel => notDel (Option.some.inj isDel).symm,
    if_neg (by decide), noNewline, if_neg Bool.false_ne_true, if_pos rfl, saveAndNext_of_z bytes, read]
  rfl

theorem plain_noNewline {c : UInt8} (plain : ¬ljCharIscntrl (some c) = true) :
    find newline (some c) = false := by
  refine Bool.eq_false_iff.mpr fun found => plain ?_
  exact find_forall newline_bytes found (by decide)

theorem stringLoop_plain {steps fuel : Nat} {del c : UInt8} {tail : GCstr} (notDel : c ≠ del)
    (notEscape : c ≠ ch '\\') (noNewline : find newline (some c) = false) (bytes : l.z = c :: tail) :
    stringLoop steps del (fuel + 1) l =
      stringLoop steps del fuel { l with z := tail, buff := l.buff ++ [[c]] } := by
  rw [stringLoop, current_of_z bytes, if_neg fun isDel => notDel (Option.some.inj isDel),
    if_neg (by simp), noNewline, if_neg Bool.false_ne_true,
    if_neg fun isEscape => notEscape (Option.some.inj isEscape), saveAndNext_of_z bytes]

/-- What was written for a byte is read as the byte. -/
theorem stringLoop_quotedByte {steps fuel : Nat} {c : UInt8} {next : LexChar} {tail : GCstr}
    (bytes : l.z = quotedByte c next ++ tail) (single : find newline tail.head? = false)
    (ends : ljCharIsdigit next = false → find digit tail.head? = false) :
    stringLoop steps (ch '"') (fuel + 1) l = stringLoop steps (ch '"') fuel (l.took c tail) := by
  unfold quotedByte at bytes
  split at bytes
  · next special =>
      apply stringLoop_escape (by decide) bytes
      rcases special with isPair | isPair | rfl
      · rw [escape_letter (b := c) (by rw [isPair]; decide) rfl rfl, took_same_line (by rw [isPair]; decide)]
        rfl
      · rw [escape_letter (b := c) (by rw [isPair]; decide) rfl rfl, took_same_line (by rw [isPair]; decide)]
        rfl
      · have single : pastBreak (ch '\n' :: ([] ++ tail)) = tail := pastBreak_single _ single
        rw [escape_break (by rw [newline_bytes]; decide) rfl rfl]
        exact congrArg (fun z : GCstr => Except.ok { l.took (ch '\n') tail with z := z }) single
  · next notSpecial =>
      split at bytes
      · next control =>
          apply stringLoop_escape (by decide) bytes
          rw [escape_decimal (escapeDigits control (ljCharIsdigit next)) ends rfl rfl,
            took_same_line fun isLf => notSpecial (.inr (.inr isLf))]
      · next plain =>
          have noNewline := plain_noNewline plain
          rw [stringLoop_plain (fun isQuote => notSpecial (.inl isQuote))
            (fun isEscape => notSpecial (.inr (.inl isEscape))) noNewline bytes,
            took_same_line fun isLf => notSpecial (.inr (.inr isLf))]
          rfl

/-- The lexer after it has read all bytes of a string. -/
def tookAll (l : L) (s tail : GCstr) : L where
  z := tail
  linenumber := l.linenumber + s.count (ch '\n')
  buff := l.buff ++ s.map ([·])

theorem quotedByte_ne_nil (c : UInt8) (next : LexChar) : quotedByte c next ≠ [] := by
  unfold quotedByte
  split
  · exact List.cons_ne_nil _ _
  · split <;> exact List.cons_ne_nil _ _

theorem head_quotedByte (c : UInt8) (next : LexChar) :
    find newline (quotedByte c next).head? = false ∧
      (ljCharIsdigit (some c) = false → find digit (quotedByte c next).head? = false) := by
  have escaped : find newline (some (ch '\\')) = false ∧ find digit (some (ch '\\')) = false := by
    rw [newline_bytes, digit_bytes]
    decide
  unfold quotedByte
  split
  · exact ⟨escaped.1, fun _ => escaped.2⟩
  · split
    · exact ⟨escaped.1, fun _ => escaped.2⟩
    · next plain =>
        rw [List.head?_cons, find_digit]
        exact ⟨plain_noNewline plain, id⟩

/-- What was written starts with no line break, and with a digit only if the string does. -/
theorem head_quotedBytes (s tail : GCstr) :
    find newline (quotedBytes s ++ ch '"' :: tail).head? = false ∧
      (ljCharIsdigit s.head? = false → find digit (quotedBytes s ++ ch '"' :: tail).head? = false) := by
  cases s with
  | nil =>
      have quote : find newline (some (ch '"')) = false ∧ find digit (some (ch '"')) = false := by
        rw [newline_bytes, digit_bytes]
        decide
      exact ⟨quote.1, fun _ => quote.2⟩
  | cons c s =>
      have head := head_quotedByte c s.head?
      obtain ⟨b, bs, isCons⟩ := List.exists_cons_of_ne_nil (quotedByte_ne_nil c s.head?)
      rw [isCons] at head
      rw [quotedBytes, isCons]
      exact head

theorem stringLoop_quotedBytes {steps fuel : Nat} {s tail : GCstr} (enough : s.length < fuel)
    (bytes : l.z = quotedBytes s ++ ch '"' :: tail) :
    stringLoop steps (ch '"') fuel l = .ok (l.tookAll s (ch '"' :: tail)) := by
  induction s generalizing l fuel with
  | nil =>
      obtain ⟨fuel, rfl⟩ := Nat.exists_eq_succ_of_ne_zero (Nat.ne_of_gt enough)
      have unchanged : l.tookAll [] (ch '"' :: tail) = l := by
        rw [tookAll, List.count_nil, List.map_nil, List.append_nil, Nat.cast_zero, add_zero]
        change ({ l with z := quotedBytes [] ++ ch '"' :: tail } : L) = l
        rw [← bytes]
      rw [stringLoop, current_of_z bytes, if_pos rfl, unchanged]
  | cons c s induction =>
      obtain ⟨fuel, rfl⟩ := Nat.exists_eq_succ_of_ne_zero (Nat.ne_of_gt (Nat.zero_lt_of_lt enough))
      have head := head_quotedBytes s tail
      rw [quotedBytes, List.append_assoc] at bytes
      rw [stringLoop_quotedByte bytes head.1 head.2,
        induction (by simpa using enough) rfl, took, tookAll, tookAll]
      congr 2
      · rw [List.count_cons, Nat.cast_add, add_assoc, add_comm (List.count _ _ : Int)]
        by_cases isLf : c = ch '\n' <;> simp [isLf]
      · rw [List.append_assoc, List.map_cons]
        rfl

theorem length_quotedBytes (s : GCstr) : s.length ≤ (quotedBytes s).length := by
  induction s with
  | nil => exact le_rfl
  | cons c s induction =>
      have some := List.length_pos_of_ne_nil (quotedByte_ne_nil c s.head?)
      rw [quotedBytes, List.length_append, List.length_cons]
      omega

end L

/-- The text the format `%q` writes for a string is read as one token, the string, and
nothing behind it is read. -/
theorem putquoted_read_back [Tonumber] (s tail : GCstr) (l : L) :
    ∃ l', L.llex { l with z := ljStrfmtPutquoted s ++ tail } = .ok (.string s, l') ∧ l'.z = tail ∧
      l'.linenumber = l.linenumber + s.count (ch '\n') := by
  let start : L := { l with z := ljStrfmtPutquoted s ++ tail }
  have opened : start.resetbuffer.z = ch '"' :: (quotedBytes s ++ ch '"' :: tail) := by
    change ljStrfmtPutquoted s ++ tail = _
    rw [ljStrfmtPutquoted, List.cons_append, List.append_assoc]
    rfl
  have enough : s.length < start.z.length + 1 := by
    have short := L.length_quotedBytes s
    change _ < (ljStrfmtPutquoted s ++ tail).length + 1
    simp only [ljStrfmtPutquoted, List.cons_append, List.length_cons, List.length_append]
    omega
  have dispatched : start.llex = L.readString (start.z.length + 1) (ch '"') start.resetbuffer := by
    rw [L.llex, L.llexLoop, L.current_of_z opened]
    dsimp only
    rw [if_neg (by decide), if_neg (by decide), if_neg (by decide), if_neg (by decide),
      if_neg (by decide), if_neg (by decide), if_neg (by decide), if_neg (by decide),
      if_neg (by decide), if_neg (by decide), if_pos (by decide)]
  let read : L := { l with z := quotedBytes s ++ ch '"' :: tail, buff := [[ch '"']] }
  have saved : start.resetbuffer.saveAndNext = read := L.saveAndNext_of_z opened
  have content : L.stringLoop (start.z.length + 1) (ch '"') (start.z.length + 1) read =
      .ok (read.tookAll s (ch '"' :: tail)) := L.stringLoop_quotedBytes enough rfl
  have closed : (read.tookAll s (ch '"' :: tail)).saveAndNext =
      { read.tookAll s tail with buff := (read.tookAll s tail).buff ++ [[ch '"']] } :=
    L.saveAndNext_of_z rfl
  have text : (read.tookAll s tail).buff = [ch '"'] :: s.map ([·]) := rfl
  refine ⟨{ read.tookAll s tail with buff := (read.tookAll s tail).buff ++ [[ch '"']] }, ?_, rfl, rfl⟩
  change start.llex = _
  rw [dispatched, L.readString, saved, content]
  change Except.ok (Lexeme.string (L.text (L.saveAndNext _)).tail.dropLast, L.saveAndNext _) = _
  rw [closed, L.text, text]
  congr 3
  have joined : (s.map ([·])).flatten = s := by rw [← List.flatMap_def, List.flatMap_singleton']
  rw [List.cons_append, List.flatten_cons, List.flatten_append, joined, List.singleton_append,
    List.tail_cons, List.flatten_singleton, List.dropLast_concat]

end TvmJit
