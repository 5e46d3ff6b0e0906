import TvmJit.Op.ReadBack
import Mathlib.Data.Nat.Digits.Lemmas

/-! A program printed and read again, and a number format and a table layout it may be
printed with. -/

namespace TvmJit
open Lexer

/-! ## Whole numbers in decimal -/

/-- The digits of a number that is not negative. -/
def digitsText (m : Nat) : GCstr :=
  if m = 0 then [ch '0'] else (Nat.digits 10 m).reverse.map fun d => UInt8.ofNat (48 + d)

/-- The number of decimal digits. -/
def digitsValue (text : GCstr) : Nat :=
  Nat.ofDigits 10 (text.reverse.map fun b => b.toNat - 48)

/-- The text of an integer. -/
def decimalText (k : Int) : GCstr :=
  if k < 0 then ch '-' :: digitsText k.natAbs else digitsText k.natAbs

/-- The integer a text of `decimalText` is for. -/
def decimalValue (text : GCstr) : Int :=
  if text.head? = some (ch '-') then -(digitsValue text.tail : Int) else digitsValue text

theorem digitsText_ne_nil (m : Nat) : digitsText m ≠ [] := by
  unfold digitsText
  split
  · simp
  · next notZero => simpa [Nat.digits_eq_nil_iff_eq_zero] using notZero

theorem digitsText_digit {m : Nat} {b : UInt8} (member : b ∈ digitsText m) :
    ch '0' ≤ b ∧ b ≤ ch '9' := by
  unfold digitsText at member
  split at member
  · rw [List.mem_singleton.mp member]
    decide
  · obtain ⟨d, isDigit, rfl⟩ := List.mem_map.mp member
    have small : d < 10 := Nat.digits_lt_base (by decide) (List.mem_reverse.mp isDigit)
    interval_cases d <;> decide

theorem digitsValue_digitsText (m : Nat) : digitsValue (digitsText m) = m := by
  unfold digitsText
  split
  · next zero =>
      rw [zero]
      decide
  · have digit : ∀ d ∈ Nat.digits 10 m, (UInt8.ofNat (48 + d)).toNat - 48 = d := by
      intro d isDigit
      have small : d < 10 := Nat.digits_lt_base (by decide) isDigit
      interval_cases d <;> decide
    have back : (Nat.digits 10 m).map (fun d => (UInt8.ofNat (48 + d)).toNat - 48) =
        Nat.digits 10 m := (List.map_congr_left digit).trans (List.map_id _)
    rw [digitsValue, ← List.map_reverse, List.reverse_reverse, List.map_map]
    exact (congrArg (Nat.ofDigits 10) back).trans (Nat.ofDigits_digits 10 m)

theorem decimalValue_decimalText (k : Int) : decimalValue (decimalText k) = k := by
  unfold decimalText decimalValue
  split
  · rw [List.head?_cons, if_pos rfl, List.tail_cons, digitsValue_digitsText]
    omega
  · have notSign : (digitsText k.natAbs).head? ≠ some (ch '-') := by
      intro starts
      have digit := digitsText_digit (List.mem_of_mem_head? starts)
      revert digit
      decide
    rw [if_neg notSign, digitsValue_digitsText]
    omega

/-- Digits are a numeral. -/
theorem numeralText_digits {text : GCstr} (digits : ∀ b ∈ text, ch '0' ≤ b ∧ b ≤ ch '9') :
    numeralText false false text = (text, []) := by
  have digit : ∀ b, ch '0' ≤ b ∧ b ≤ ch '9' → find (expoSet false) (some b) = false ∧
      find xdigit (some b) = true := fun b => byte_forall b (by decide +kernel)
  induction text with
  | nil => rfl
  | cons b text induction =>
      obtain ⟨first, rest⟩ := List.forall_mem_cons.mp digits
      obtain ⟨notExpo, isDigit⟩ := digit b first
      rw [numeralText, notExpo, isDigit, induction rest]
      simp

theorem wholeNumeral_decimalText (k : Int) : P.wholeNumeral (decimalText k) = true := by
  have digit : ∀ b, ch '0' ≤ b ∧ b ≤ ch '9' → startsNumber (some b) = true ∧
      startsNumeral b = true ∧ find sign (some b) = false ∧ (b ||| 0x20) ≠ ch 'x' :=
    fun b => byte_forall b (by decide +kernel)
  have digits (b : UInt8) (member : b ∈ digitsText k.natAbs) := digitsText_digit member
  cases shape : digitsText k.natAbs with
  | nil => exact absurd shape (digitsText_ne_nil _)
  | cons b rest =>
      rw [shape] at digits
      obtain ⟨first, digits⟩ := List.forall_mem_cons.mp digits
      obtain ⟨isNumber, isNumeral, notSign, -⟩ := digit b first
      have body : bodyText b rest = (b :: rest, []) := by
        cases rest with
        | nil => rfl
        | cons x rest =>
            have notX := (digit x (digits x List.mem_cons_self)).2.2.2
            rw [bodyText, if_neg fun both => notX both.2, numeralText_digits digits]
      unfold decimalText
      split
      · have isSign : startsNumber (some (ch '-')) = true ∧ find sign (some (ch '-')) = true := by
          decide +kernel
        simp [P.wholeNumeral, shape, isSign, unsigned, isNumeral, body]
      · simp [P.wholeNumeral, shape, isNumber, notSign, unsigned, isNumeral, body]

/-! ## Tables that show their entries in order -/

/-- The place before the first one from `n` on that has no item, of `places`. -/
def boundary (o : Op) : Nat → Nat → Nat
  | 0, n => n
  | places + 1, n => if (o.get (n + 1)).isSome then boundary o places (n + 1) else n

/-- No item is behind this place. -/
def lastPlace : Op → Nat
  | [] => 0
  | .item k _ :: o => max k.toNat (lastPlace o)
  | .pair _ _ :: o => lastPlace o

theorem le_lastPlace {o : Op} {k : Int} (isItem : (o.get k).isSome = true) :
    k.toNat ≤ lastPlace o := by
  obtain ⟨v, member⟩ := (Op.get_isSome_iff o k).mp isItem
  induction o with
  | nil => cases member
  | cons e o induction =>
      rcases List.mem_cons.mp member with same | member
      · rw [← same, lastPlace]
        exact le_max_left _ _
      · have rest := induction ((Op.get_isSome_iff o k).mpr ⟨v, member⟩) member
        cases e with
        | item => exact rest.trans (le_max_right _ _)
        | pair => exact rest

theorem boundary_spec {o : Op} {places n : Nat} (start : n = 0 ∨ (o.get n).isSome = true)
    (enough : lastPlace o ≤ n + places) :
    (boundary o places n = 0 ∨ (o.get (boundary o places n)).isSome = true) ∧
      o.get (boundary o places n + 1) = none := by
  induction places generalizing n with
  | zero =>
      refine ⟨start, ?_⟩
      rw [boundary]
      apply Option.not_isSome_iff_eq_none.mp
      intro isItem
      have low := le_lastPlace isItem
      omega
  | succ places induction =>
      rw [boundary]
      split
      · next isItem => exact induction (.inr (by simpa using isItem)) (by omega)
      · next notItem => exact ⟨start, Option.not_isSome_iff_eq_none.mp notItem⟩

/-- A table that has no item behind its length, and that `pairs` goes through in the
order the entries were added. -/
@[reducible] def inOrder : LuaTable where
  len o := boundary o (lastPlace o) 0
  order o := List.range o.length

theorem inOrder_lawful : @LuaTable.Lawful inOrder :=
  let _ := inOrder
  { boundary := fun o => boundary_spec (.inl rfl) (by omega)
    visits := fun _ => .refl _ }

/-- `tonumber` of a whole number in decimal. -/
@[reducible] def decimalTonumber : Tonumber :=
  ⟨fun text => some (Num.ofInt (decimalValue text))⟩

/-- `tostring` of a whole number. -/
@[reducible] def decimalTostring : Tostring := ⟨fun n => decimalText n.num2int⟩

theorem decimal_printsNumbers : @PrintsNumbers decimalTonumber decimalTostring :=
  let _ := decimalTonumber
  let _ := decimalTostring
  { numeral := fun n _ => wholeNumeral_decimalText n.num2int
    integer := fun k low high => by
      change some (Num.ofInt (decimalValue (decimalText (Num.ofInt k).num2int))) = _
      rw [Num.num2int_ofInt low high, decimalValue_decimalText]
    zero := by decide +kernel }

/-- A table of two names is read as itself. -/
theorem parse_names {a b : GCstr} (plainA : P.plainName a = true) (plainB : P.plainName b = true) :
    ∃ enough, ∀ fuel ≥ enough, @tvmParse decimalTonumber inOrder fuel
      ([ch '('] ++ tconcat [a, b] ++ [ch ')']) = .ok [.op [.item 1 (.name a), .item 2 (.name b)]] := by
  let _ := inOrder
  let _ := decimalTonumber
  have reads {s : GCstr} (plain : P.plainName s = true) : P.ReadsAct s (.push (.name s)) := by
    rintro tail ⟨d, more, rfl, delimiter⟩
    exact P.readsExpr_token (P.reads_name plain delimiter) (.inl ⟨s, rfl, rfl⟩)
  have run : [OpAct.push (.name a), .push (.name b)].foldlM OpAct.run ([] : Op) =
      .ok [.item 1 (.name a), .item 2 (.name b)] := by
    have one : Op.push [] (.name a) = .ok [.item 1 (.name a)] := by
      change Op.callMethod [] "push" (Op.setIndex [] (.number (Num.ofInt 1)) (.name a)) = _
      rw [setIndex_ofInt [] (by decide) (by decide)]
      rfl
    have two : Op.push [.item 1 (.name a)] (.name b) = .ok [.item 1 (.name a), .item 2 (.name b)] := by
      change Op.callMethod _ "push" (Op.setIndex _ (.number (Num.ofInt 2)) (.name b)) = _
      rw [setIndex_ofInt _ (by decide) (by decide)]
      rfl
    rw [List.foldlM_cons, OpAct.run, one]
    exact (bind_pure (Op.push [.item 1 (.name a)] (.name b))).trans two
  have table := P.readsTable_text (.inl rfl) (.cons (reads plainA) (.cons (reads plainB) .nil)) run []
  have program := P.ReadsOps.cons table .done
  rw [List.append_nil] at program
  apply program.parse
  simp
  decide

/-! ## Programs -/

/-- A program whose tree prints whole is printed as a text that is accepted and gives
the same tree. -/
theorem print_read_back [Tonumber] [Tostring] [LuaTable] (numbers : PrintsNumbers)
    (tables : LuaTable.Lawful) {fuel : Nat} {s : GCstr} {ast : List OpExpr} (parsed : tvmParse fuel s = .ok ast) (plain : ∀ e ∈ ast, e.Plain) :
    ∃ text ast', opsTostring ast = .ok text ∧ List.Forall₂ OpExpr.Same ast ast' ∧
      ∃ enough, ∀ fuel ≥ enough, tvmParse fuel text = .ok ast' := by
  obtain ⟨texts, ast', written, same, start, reads⟩ :=
    ops_print numbers tables (tvmParse_wf parsed) plain
  refine ⟨texts.flatten, ast', ?_, same, reads.parse ?_⟩
  · rw [opsTostring, written]
    rfl
  · rcases start with start | start | start
    · rw [start]
      exact ⟨nofun, nofun⟩
    · rw [start]
      decide
    · rw [start]
      decide

/-- A table of two names prints as it was written. -/
theorem print_read_back_names : ∃ fuel ast text ast',
    @tvmParse decimalTonumber inOrder fuel (.ofString "(a b)") = .ok ast ∧
    @opsTostring decimalTostring inOrder ast = .ok text ∧ List.Forall₂ OpExpr.Same ast ast' ∧
      ∃ enough, ∀ fuel ≥ enough, @tvmParse decimalTonumber inOrder fuel text = .ok ast' := by
  let _ := inOrder
  let _ := decimalTonumber
  let _ := decimalTostring
  have text : GCstr.ofString "(a b)" = [ch '('] ++ tconcat [[ch 'a'], [ch 'b']] ++ [ch ')'] := by
    decide +kernel
  have isName : P.plainName [ch 'a'] = true ∧ P.plainName [ch 'b'] = true := by decide
  obtain ⟨fuel, names⟩ := parse_names isName.1 isName.2
  rw [← text] at names
  have parsed := names fuel le_rfl
  have plain : ∀ e ∈ [OpExpr.op [.item 1 (.name [ch 'a']), .item 2 (.name [ch 'b'])]], e.Plain := by
    intro e member
    rw [List.mem_singleton.mp member]
    refine ⟨⟨?_, ?_, ?_⟩, ?_⟩
    · intro i low high
      change i ≤ 2 at high
      obtain rfl | rfl : i = 1 ∨ i = 2 := by omega
      · rfl
      · rfl
    · simp
    · intro front v back shape
      change [] = _ at shape
      simp at shape
    · exact ⟨isName.1, isName.2, trivial⟩
  obtain ⟨text, ast', printed, same, accepted⟩ :=
    print_read_back decimal_printsNumbers inOrder_lawful parsed plain
  exact ⟨fuel, _, text, ast', parsed, printed, same, accepted⟩

/-- The name in a list of one name. -/
def onlyName : Except ReaderError (List OpExpr) → Option GCstr
  | .ok [.op [.item 1 (.name s)]] => some s
  | _ => none

theorem parsed_of_onlyName {parsed : Except ReaderError (List OpExpr)} {s : GCstr}
    (isName : onlyName parsed = some s) : parsed = .ok [.op [.item 1 (.name s)]] := by
  unfold onlyName at isName
  split at isName
  · rw [Option.some.inj isName]
  · cases isName

/-- The text is read as a table of one name, printed as a table of two names. -/
theorem escaped_space_lost : ¬ ∀ [Tonumber] [Tostring] [LuaTable], PrintsNumbers → LuaTable.Lawful →
    ∀ fuel s ast, tvmParse fuel s = .ok ast →
      ∃ text ast', opsTostring ast = .ok text ∧ List.Forall₂ OpExpr.Same ast ast' ∧
        ∃ enough, ∀ fuel ≥ enough, tvmParse fuel text = .ok ast' := by
  intro claim
  let _ := inOrder
  let _ := decimalTonumber
  let _ := decimalTostring
  have parsed : tvmParse 20 (.ofString "(a\\ b)") =
      .ok [.op [.item 1 (.name (.ofString "a b"))]] := by
    have text : GCstr.ofString "(a\\ b)" = [ch '(', ch 'a', ch '\\', ch ' ', ch 'b', ch ')'] := by
      decide +kernel
    rw [text]
    have isOne : onlyName (tvmParse 20 [ch '(', ch 'a', ch '\\', ch ' ', ch 'b', ch ')']) =
        some (.ofString "a b") := by
      decide +kernel
    exact parsed_of_onlyName isOne
  obtain ⟨text, ast', printed, same, enough, accepted⟩ :=
    claim decimal_printsNumbers inOrder_lawful 20 _ _ parsed
  have isText : text = [ch '('] ++ tconcat [[ch 'a'], [ch 'b']] ++ [ch ')'] := by
    have written : opsTostring [.op [.item 1 (.name (.ofString "a b"))]] =
        .ok ([ch '('] ++ tconcat [[ch 'a'], [ch 'b']] ++ [ch ')']) := by
      decide +kernel
    rw [written] at printed
    cases printed
    rfl
  have isName : P.plainName [ch 'a'] = true ∧ P.plainName [ch 'b'] = true := by decide
  obtain ⟨enough', names⟩ := parse_names isName.1 isName.2
  have isTwo := accepted (max enough enough') (le_max_left _ _)
  rw [isText, names _ (le_max_right _ _)] at isTwo
  cases isTwo
  obtain ⟨o', l, shape, perm, entries⟩ := (List.forall₂_cons.mp same).1
  cases shape
  obtain ⟨e, rest, rfl, -, rfl⟩ := entries
  cases perm.length_eq

end TvmJit
