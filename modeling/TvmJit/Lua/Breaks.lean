import TvmJit.Lua.Lexer
import TvmJit.Lex.Agreement

/-! Line breaks as the lexer of `lunokhod.lua` takes them. -/

namespace TvmJit

open Lexer (lineBreaks)

/-- The bytes behind a line break, of which two that differ make one. -/
def pastBreak : GCstr → GCstr
  | b :: c :: rest => if find newline (some c) && c != b then rest else c :: rest
  | _ => []

theorem pastBreak_single (b : UInt8) {tail : GCstr} (single : find newline tail.head? = false) :
    pastBreak (b :: tail) = tail := by
  cases tail with
  | nil => rfl
  | cons c tail =>
      have single : find newline (some c) = false := single
      rw [pastBreak, single]
      rfl

theorem pastBreak_suffix (b : UInt8) (rest : GCstr) : pastBreak (b :: rest) <:+ rest := by
  cases rest with
  | nil => exact List.suffix_rfl
  | cons c rest =>
      rw [pastBreak]
      split
      · exact List.suffix_cons c rest
      · exact List.suffix_rfl

theorem pastBreak_append (b : UInt8) (contents : GCstr) {rest : GCstr}
    (single : find newline rest.head? = false) :
    pastBreak (b :: (contents ++ rest)) = pastBreak (b :: contents) ++ rest := by
  cases contents with
  | nil => exact pastBreak_single b single
  | cons c contents =>
      rw [List.cons_append, pastBreak, pastBreak]
      split
      · rfl
      · rfl

theorem lineBreaks_break {b : UInt8} (isBreak : find newline (some b) = true) (rest : GCstr) :
    lineBreaks (b :: rest) = lineBreaks (pastBreak (b :: rest)) + 1 := by
  have isEol : Lexer.isEolByte b = true := by
    rw [find_newline_eq] at isBreak
    exact isBreak
  cases rest with
  | nil =>
      rw [lineBreaks, if_pos isEol]
      rfl
  | cons c rest =>
      have other : find newline (some c) = Lexer.isEolByte c := find_newline_eq (some c)
      rw [lineBreaks, if_pos isEol, pastBreak, other]
      split
      · rfl
      · rfl

theorem lineBreaks_append {front : GCstr} (plain : ∀ b ∈ front, find newline (some b) = false)
    (rest : GCstr) : lineBreaks (front ++ rest) = lineBreaks rest := by
  induction front with
  | nil => rfl
  | cons b front induction =>
      have notEol : Lexer.isEolByte b = false := by
        have first := plain b List.mem_cons_self
        rw [find_newline_eq] at first
        exact first
      rw [List.cons_append, TvmJit.Lexer.lineBreaks.eq_def]
      dsimp only
      rw [notEol, if_neg Bool.false_ne_true]
      exact induction fun b' member => plain b' (List.mem_cons_of_mem b member)

theorem lineBreaks_none {text : GCstr} (plain : ∀ b ∈ text, find newline (some b) = false) :
    lineBreaks text = 0 := by
  have front := lineBreaks_append plain []
  rwa [List.append_nil] at front

/-- The breaks of both parts, if there is none across the border. -/
theorem lineBreaks_add (front : GCstr) {rest : GCstr} (single : find newline rest.head? = false) :
    lineBreaks (front ++ rest) = lineBreaks front + lineBreaks rest := by
  induction length : front.length using Nat.strong_induction_on generalizing front with
  | _ n induction =>
      cases front with
      | nil => exact (Nat.zero_add _).symm
      | cons b front =>
          by_cases isBreak : find newline (some b) = true
          · have shorter := (pastBreak_suffix b front).length_le
            rw [List.length_cons] at length
            rw [List.cons_append, lineBreaks_break isBreak, pastBreak_append b front single,
              induction _ (by omega) _ rfl, lineBreaks_break isBreak front]
            omega
          · have plain : ∀ c ∈ [b], find newline (some c) = false :=
              List.forall_mem_singleton.mpr (by simpa using isBreak)
            have one (bytes : GCstr) : lineBreaks (b :: bytes) = lineBreaks bytes :=
              lineBreaks_append plain bytes
            rw [List.length_cons] at length
            rw [List.cons_append, one, one, induction _ (by omega) _ rfl]

/-- What is around has no breaks. -/
theorem lineBreaks_between {front back : GCstr} (plain : ∀ b ∈ front, find newline (some b) = false)
    (plainBack : ∀ b ∈ back, find newline (some b) = false) (contents : GCstr) :
    lineBreaks (front ++ (contents ++ back)) = lineBreaks contents := by
  have single : find newline back.head? = false := by
    cases back with
    | nil => rfl
    | cons b back => exact plainBack b List.mem_cons_self
  rw [lineBreaks_append plain, lineBreaks_add contents single, lineBreaks_none plainBack, add_zero]

end TvmJit
