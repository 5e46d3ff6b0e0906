import TvmJit.Foundation.Escapes
import TvmJit.Json.Unescape

/-! When the escapes of a JSON string are decoded as by one reading. -/

namespace TvmJit.Json

open Foundation Peg Escapes

/-- The escape with four hexadecimal digits. -/
def unicode : EscapeKind UInt8 String := ⟨'u'.toUInt8, xdigit, 4, 4, fun s => .ok (wcharBytes (tonumber16 s))⟩

theorem length_wcharBytes (k : Nat) : (wcharBytes k).length ≤ 4 := by
  rw [wcharBytes, List.length_map]
  split_ifs <;> exact Nat.le_of_ble_eq_true rfl

/-- The escapes of JSON strings. -/
def json : Escaping UInt8 Unit String where
  esc := '\\'.toUInt8
  special c := special.lookup c
  kind _ := unicode
  special_esc := rfl
  special_mark _ := rfl
  mark_injective _ _ _ := rfl
  digit_esc _ := rfl
  length_value _ ds v least value := by
    cases value
    exact (length_wcharBytes _).trans least
  length_more _ ds more _ _ least most some _ _ := by
    have positive := List.length_pos_iff.mpr some
    have four : 4 ≤ ds.length := least
    have four' : (ds ++ more).length ≤ 4 := most
    rw [List.length_append] at four'
    omega

/-- The body of a string: what is read from left to right, up to a backslash that starts no escape, if there is one. -/
structure Body where
  pieces : List (Escapes.Token UInt8 Unit)
  stray : GCstr
  valid : ∀ p ∈ pieces, json.Valid p
  /-- A character that stands for itself is no backslash, no quote and no control character. -/
  plain : ∀ c, .lit c ∈ pieces → c ≠ '\\'.toUInt8 ∧ c ≠ '"'.toUInt8 ∧ 32 ≤ c
  /-- The rest starts with a backslash, but not with an escape. -/
  starts : stray ≠ [] → ∃ s, stray = '\\'.toUInt8 :: s ∧ escape_special stray = none ∧ escape_xdigit stray = none

def Body.text (body : Body) : GCstr := json.text body.pieces ++ body.stray

/-- At some place there is a backslash and a character that is no letter of an escape. -/
def Illegal (s : GCstr) : Prop := ∃ front c rest, s = front ++ '\\'.toUInt8 :: c :: rest ∧ c ∉ specials ∧ c ≠ 'u'.toUInt8

theorem find_illegal_iff (s : GCstr) : find_escape_illegal s = true ↔ Illegal s := by
  rw [find_escape_illegal, find_iff]
  constructor
  · intro ⟨front, rest, parts, found⟩
    match rest with
    | [] | [_] => nomatch found
    | b :: c :: rest =>
        rw [escape_illegal] at found
        split at found
        · rename_i both
          refine ⟨front, c, rest, ?_, ?_, ?_⟩
          · rw [parts, both.1]
          · exact fun member => both.2 (.inl member)
          · exact fun same => both.2 (.inr same)
        · nomatch found
  · intro ⟨front, c, rest, parts, notSpecial, notU⟩
    refine ⟨front, _, parts, ?_⟩
    rw [escape_illegal, if_pos ⟨rfl, not_or.mpr ⟨notSpecial, notU⟩⟩]
    rfl

theorem isSome_lookup (c : UInt8) (l : List (UInt8 × UInt8)) : (l.lookup c).isSome = true ↔ c ∈ l.map Prod.fst := by
  induction l with
  | nil => exact iff_of_false nofun nofun
  | cons p l induction =>
      rw [List.lookup_cons, List.map_cons, List.mem_cons, ← induction]
      by_cases same : c = p.1
      · rw [beq_iff_eq.mpr same]
        exact iff_of_true rfl (.inl same)
      · rw [beq_eq_false_iff_ne.mpr same, or_iff_right same]

theorem escapeSpecial_eq : json.escapeSpecial = escape_special := by
  funext s
  match s with
  | [] | [_] => rfl
  | b :: c :: s =>
      rw [Escaping.escapeSpecial, escape_special]
      apply ite_congr _ (fun _ => rfl) (fun _ => rfl)
      exact propext (and_congr_right fun _ => isSome_lookup c special)

theorem digits_four (c d e f : UInt8) (s : GCstr) : 4 ≤ (digits xdigit 4 (c :: d :: e :: f :: s)).length ↔
    xdigit c ∧ xdigit d ∧ xdigit e ∧ xdigit f := by
  by_cases first : xdigit c <;> by_cases second : xdigit d <;> by_cases third : xdigit e <;>
    by_cases fourth : xdigit f <;> simp [digits, first, second, third, fourth]

theorem few_digits {s : GCstr} (short : s.length < 4) : ¬4 ≤ (digits xdigit 4 s).length := by
  have ⟨rest, parts⟩ := digits_split xdigit 4 s
  have length := congrArg List.length parts
  rw [List.length_append] at length
  omega

theorem escape_eq : json.escape () = escape_xdigit := by
  funext s
  match s with
  | [] | [_] => rfl
  | [_, _] | [_, _, _] | [_, _, _, _] | [_, _, _, _, _] => exact if_neg fun both => few_digits (by simp) both.2.2
  | b :: u :: c :: d :: e :: f :: s =>
      rw [Escaping.escape, escape_xdigit]
      have four := digits_four c d e f s
      by_cases all : xdigit c ∧ xdigit d ∧ xdigit e ∧ xdigit f
      · have read : digits xdigit 4 (c :: d :: e :: f :: s) = [c, d, e, f] := by
          simp [digits, all.1, all.2.1, all.2.2.1, all.2.2.2]
        apply ite_congr _ _ (fun _ => rfl)
        · exact propext (and_congr_right fun _ => and_congr_right fun _ => four)
        · intro _
          have digits_eq : digits (json.kind ()).digit (json.kind ()).most (c :: d :: e :: f :: s) = [c, d, e, f] := read
          rw [digits_eq]
          rfl
      · rw [if_neg fun both => all (four.mp both.2.2), if_neg fun both => all both.2.2]

/-! ## Unescaping -/

/-- What the string is decoded to by one reading; there is nothing if some backslash starts no escape. -/
def Body.decoded (body : Body) : Except String GCstr :=
  if body.stray = [] then .ok (json.decoded body.pieces) else .error "illegal escape sequence"

/-- No backslash is taken for the start of another escape, and none is refused in front of other text. -/
def Apart (body : Body) : Prop :=
  if body.stray = [] then
    ¬Illegal body.text ∧ json.AllClean [()] body.pieces ∧ json.Kept (decodeAll [()] body.pieces)
  else Illegal body.text

theorem passes_eq (s : GCstr) :
    (json.passes [()] s).map json.specials = .ok (gsub_escape_special (gsub_escape_xdigit s)) := by
  have xdigit : json.pass () s = .ok (gsub_escape_xdigit s) := by
    rw [Escaping.pass, escape_eq]
    exact gsubE_ok s
  have specials : json.specials = gsub_escape_special := congrArg (gsub · _) escapeSpecial_eq
  have passes : json.passes [()] s = (json.pass () s).bind .ok := rfl
  rw [passes, xdigit, specials]
  rfl

/-- An escaped backslash and the letter `a`. -/
def escapedBackslash : Body where
  pieces := [.pair '\\'.toUInt8, .lit 'a'.toUInt8]
  stray := []
  valid := by simp [Escaping.Valid, json, special]
  plain c member := by
    have isChar : c = 'a'.toUInt8 := by simpa using member
    rw [isChar]
    decide
  starts some := absurd rfl some

end TvmJit.Json
