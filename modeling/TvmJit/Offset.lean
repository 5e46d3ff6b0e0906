import TvmJit.Utf8

/-! `utf8.offset`, and how it inverts `utf8.len` on strings that encode code
points. A position is a number of bytes, one less than the index a program
sees. -/

namespace TvmJit

/-- The NUL byte after a string is not a continuation byte. -/
theorem lt_length_of_iscont {s : GCstr} {posi : Nat} (cont : iscont (byteAt s posi) = true) :
    posi < s.length := by
  by_contra past
  rw [byteAt, List.getD_eq_default _ _ (by omega)] at cont
  cases cont

/-- `while (posi > 0 && iscont(s + posi)) posi--`. -/
def thisStart (s : GCstr) : Nat → Nat
  | 0 => 0
  | posi + 1 => if iscont (byteAt s (posi + 1)) then thisStart s posi else posi + 1

/-- `do posi++; while (iscont(s + posi))`. -/
def nextStart (s : GCstr) (posi : Nat) : Nat :=
  if iscont (byteAt s (posi + 1)) then nextStart s (posi + 1) else posi + 1
termination_by s.length - posi
decreasing_by
  have := lt_length_of_iscont (by assumption)
  omega

theorem thisStart_le (s : GCstr) (posi : Nat) : thisStart s posi ≤ posi := by
  induction posi with
  | zero => exact Nat.le_refl 0
  | succ posi induction =>
      rw [thisStart]
      split <;> omega

theorem lt_nextStart (s : GCstr) (posi : Nat) : posi < nextStart s posi := by
  induction posi using nextStart.induct s with
  | case1 posi cont induction =>
      rw [nextStart, if_pos cont]
      omega
  | case2 posi lead =>
      rw [nextStart, if_neg lead]
      omega

/-- `while (n < 0 && posi > 0)`, whose body is `thisStart` after one `posi--`. -/
def moveBack (s : GCstr) (n : Int) : Nat → Int × Nat
  | 0 => (n, 0)
  | posi + 1 => if n < 0 then moveBack s (n + 1) (thisStart s posi) else (n, posi + 1)
termination_by posi => posi
decreasing_by
  have := thisStart_le s posi
  omega

/-- `while (n > 0 && posi < len)`. -/
def moveForward (s : GCstr) (n : Int) (posi : Nat) : Int × Nat :=
  if n > 0 ∧ posi < s.length then moveForward s (n - 1) (nextStart s posi) else (n, posi)
termination_by s.length - posi
decreasing_by
  have := lt_nextStart s posi
  omega

/-- The loops of `utf8_offset`: the count that is left and the position. -/
def offsetMoves (s : GCstr) (n : Int) (posi : Nat) : Except LibError (Int × Nat) :=
  if n = 0 then .ok (0, thisStart s posi)
  else if iscont (byteAt s posi) then .error (.msg "initial position is a continuation byte")
  else if n < 0 then .ok (moveBack s n posi)
  else .ok (moveForward s (n - 1) posi)

/-- `utf8_offset`: a position, or nil. -/
def utf8Offset (s : GCstr) (n : Int) (i : Option Int) : Except LibError (Option Int) := do
  let posi : Int := if n ≥ 0 then 1 else s.length + 1
  let posi := uPosrelat (i.getD posi) s.length
  if ¬(1 ≤ posi ∧ posi - 1 ≤ s.length) then .error (.arg 3 "position out of range")
  else
    let (n, posi) ← offsetMoves s n (posi - 1).toNat
    return if n = 0 then some (posi + 1) else none

/-! ## Where the characters start -/

/-- The position of the character with `n` others before it; the end of the string
if there are no more than `n`. -/
def charStart (ks : List CodePoint) (n : Nat) : Nat := (encode (ks.take n)).length

section Starts

variable {ks : List CodePoint} {n : Nat}

theorem charStart_length (ks : List CodePoint) : charStart ks ks.length = (encode ks).length := by
  rw [charStart, List.take_length]

theorem encode_append (ks ks' : List CodePoint) : encode (ks ++ ks') = encode ks ++ encode ks' :=
  List.flatMap_append

/-- A character is the bytes up to where the next one starts. -/
theorem charStart_succ (more : n < ks.length) :
    charStart ks (n + 1) = charStart ks n + (wcharBytes ks[n]).length := by
  rw [charStart, List.take_succ_eq_append_getElem more, encode_append, List.length_append]
  simp [charStart, encode]

theorem charStart_lt_succ (more : n < ks.length) : charStart ks n < charStart ks (n + 1) := by
  have := wcharBytes_length_pos ks[n]
  rw [charStart_succ more]
  omega

theorem charStart_mono (ks : List CodePoint) {n n' : Nat} (le : n ≤ n') :
    charStart ks n ≤ charStart ks n' := by
  induction le with
  | refl => exact Nat.le_refl _
  | @step n' _ induction =>
      rcases Nat.lt_or_ge n' ks.length with more | past
      · exact Nat.le_trans induction (Nat.le_of_lt (charStart_lt_succ more))
      · rw [charStart, charStart, List.take_of_length_le past] at induction
        rw [charStart, charStart, List.take_of_length_le (Nat.le_succ_of_le past)]
        exact induction

theorem charStart_lt_length (more : n < ks.length) : charStart ks n < (encode ks).length := by
  rw [← charStart_length]
  exact Nat.lt_of_lt_of_le (charStart_lt_succ more) (charStart_mono ks more)

/-- The bytes from the start of a character on. -/
theorem encode_split (ks : List CodePoint) (n : Nat) :
    encode ks = encode (ks.take n) ++ encode (ks.drop n) := by
  rw [← encode_append, List.take_append_drop]

theorem byteAt_charStart (ks : List CodePoint) (n i : Nat) :
    byteAt (encode ks) (charStart ks n + i) = byteAt (encode (ks.drop n)) i := by
  rw [encode_split ks n, byteAt, byteAt, charStart,
    List.getD_append_right _ _ _ _ (Nat.le_add_right _ _), Nat.add_sub_cancel_left]

theorem iscont_charStart (ks : List CodePoint) (n : Nat) :
    iscont (byteAt (encode ks) (charStart ks n)) = false := by
  rw [← Nat.add_zero (charStart ks n), byteAt_charStart]
  exact iscont_encode _

/-- Past its first byte a character has continuation bytes only. -/
theorem iscont_inside {posi : Nat} (more : n < ks.length) (after : charStart ks n < posi)
    (before : posi < charStart ks (n + 1)) : iscont (byteAt (encode ks) posi) = true := by
  obtain ⟨lead, tail, bytes, -, conts⟩ := wcharBytes_eq_cons ks[n].property
  obtain ⟨i, rfl⟩ : ∃ i, posi = charStart ks n + (i + 1) := ⟨posi - charStart ks n - 1, by omega⟩
  rw [charStart_succ more, bytes, List.length_cons] at before
  have inTail : i < tail.length := by omega
  rw [byteAt_charStart, List.drop_eq_getElem_cons more, encode_cons, bytes, byteAt,
    List.cons_append, List.getD_cons_succ, List.getD_append _ _ _ _ inTail,
    List.getD_eq_getElem _ _ inTail]
  exact conts _ (List.getElem_mem inTail)

/-! ## The loops -/

theorem thisStart_encode {posi : Nat} (more : n < ks.length) (after : charStart ks n ≤ posi)
    (before : posi < charStart ks (n + 1)) : thisStart (encode ks) posi = charStart ks n := by
  induction posi with
  | zero => exact (Nat.le_zero.mp after).symm
  | succ posi induction =>
      rw [thisStart]
      rcases Nat.eq_or_lt_of_le after with here | inside
      · rw [← here, iscont_charStart]
        rfl
      · rw [iscont_inside more inside before]
        exact induction (by omega) (by omega)

/-- From inside a character the inner loop leaves at the start of the next one. -/
theorem nextStart_inside {posi : Nat} (more : n < ks.length) (after : charStart ks n ≤ posi)
    (before : posi < charStart ks (n + 1)) :
    nextStart (encode ks) posi = charStart ks (n + 1) := by
  induction left : charStart ks (n + 1) - posi generalizing posi with
  | zero => omega
  | succ left induction =>
      rw [nextStart]
      rcases Nat.eq_or_lt_of_le (Nat.succ_le_of_lt before) with here | inside
      · rw [show posi + 1 = charStart ks (n + 1) from here, iscont_charStart]
        rfl
      · rw [iscont_inside more (by omega) inside]
        exact induction (by omega) inside (by omega)

theorem nextStart_encode (more : n < ks.length) :
    nextStart (encode ks) (charStart ks n) = charStart ks (n + 1) :=
  nextStart_inside more (Nat.le_refl _) (charStart_lt_succ more)

/-- The forward loop passes one character for each count, as long as there are any. -/
theorem moveForward_encode (ks : List CodePoint) (count : Nat) (inside : n ≤ ks.length) :
    moveForward (encode ks) count (charStart ks n) =
      if n + count ≤ ks.length then (0, charStart ks (n + count))
      else (((n + count - ks.length : Nat) : Int), charStart ks ks.length) := by
  induction count generalizing n with
  | zero =>
      rw [moveForward, if_neg (by omega), if_pos (by omega)]
      rfl
  | succ count induction =>
      rw [moveForward]
      rcases Nat.lt_or_ge n ks.length with more | past
      · rw [if_pos ⟨by omega, charStart_lt_length more⟩, nextStart_encode more]
        rw [Nat.cast_succ, add_sub_cancel_right, induction (Nat.succ_le_of_lt more)]
        rw [Nat.succ_add_eq_add_succ]
      · obtain rfl : n = ks.length := Nat.le_antisymm inside past
        rw [charStart_length, if_neg (fun again => Nat.lt_irrefl _ again.2), if_neg (by omega),
          Nat.add_sub_cancel_left]

/-- So does the backward loop. -/
theorem moveBack_encode (ks : List CodePoint) (count : Nat) (inside : n ≤ ks.length) :
    moveBack (encode ks) (-count) (charStart ks n) =
      if count ≤ n then (0, charStart ks (n - count)) else (-((count - n : Nat) : Int), 0) := by
  induction count generalizing n with
  | zero =>
      rw [if_pos (Nat.zero_le n)]
      cases charStart ks n with
      | zero => simp [moveBack]
      | succ posi => simp [moveBack]
  | succ count induction =>
      cases n with
      | zero => simp [moveBack, charStart, encode]
      | succ n =>
          have more : n < ks.length := inside
          have below := charStart_lt_succ more
          obtain ⟨posi, next⟩ : ∃ posi, charStart ks (n + 1) = posi + 1 :=
            ⟨charStart ks (n + 1) - 1, by omega⟩
          have start : thisStart (encode ks) posi = charStart ks n :=
            thisStart_encode more (by omega) (by omega)
          have counts : -((count + 1 : Nat) : Int) + 1 = -count := by omega
          rw [next, moveBack, if_pos (by omega), start, counts, induction (by omega)]
          simp only [Nat.add_le_add_iff_right, Nat.add_sub_add_right]

end Starts

/-! ## The function -/

section Offset

variable (ks : List CodePoint)

theorem uPosrelat_nat (posi len : Nat) : uPosrelat posi len = posi := if_pos (Int.natCast_nonneg _)

theorem uPosrelat_succ (posi len : Nat) : uPosrelat (posi + 1) len = posi + 1 :=
  uPosrelat_nat (posi + 1) len

/-- `utf8_offset` from a position in the string or at its end. -/
theorem utf8Offset_at {s : GCstr} {n : Int} {i : Option Int} {posi : Nat} (inside : posi ≤ s.length)
    (index : i.getD (if n ≥ 0 then 1 else s.length + 1) = posi + 1) :
    utf8Offset s n i =
      (offsetMoves s n posi).map fun r => if r.1 = 0 then some ((r.2 : Int) + 1) else none := by
  simp only [utf8Offset, index, uPosrelat_succ]
  rw [if_neg (by omega), add_sub_cancel_right, Int.toNat_natCast]
  cases offsetMoves s n posi <;> rfl

/-- A count from the first character on. -/
theorem utf8Offset_forward (n : Nat) :
    utf8Offset (encode ks) (n + 1) none =
      .ok (if n ≤ ks.length then some (charStart ks n + 1) else none) := by
  have start : charStart ks 0 = 0 := rfl
  have lead := iscont_charStart ks 0
  have moves := moveForward_encode ks n (Nat.zero_le ks.length)
  rw [start, Nat.zero_add] at moves
  rw [start] at lead
  have moved : offsetMoves (encode ks) (n + 1) 0 = .ok (moveForward (encode ks) n 0) := by
    rw [offsetMoves, if_neg (by omega), lead, if_neg (by decide), if_neg (by omega),
      add_sub_cancel_right]
  have index : (none : Option Int).getD
      (if (n : Int) + 1 ≥ 0 then 1 else (encode ks).length + 1) = (0 : Nat) + 1 := by
    rw [Option.getD_none, if_pos (by omega)]
    rfl
  rw [utf8Offset_at (Nat.zero_le _) index, moved, moves]
  split
  · rfl
  · exact congrArg Except.ok (if_neg (by simp; omega))

/-- A count from the end back. -/
theorem utf8Offset_backward (n : Nat) :
    utf8Offset (encode ks) (-(n + 1)) none =
      .ok (if n + 1 ≤ ks.length then some (charStart ks (ks.length - (n + 1)) + 1) else none) := by
  have lead := iscont_charStart ks ks.length
  have moves := moveBack_encode ks (n + 1) (Nat.le_refl ks.length)
  rw [charStart_length] at moves lead
  have moved : offsetMoves (encode ks) (-(n + 1)) (encode ks).length =
      .ok (moveBack (encode ks) (-((n + 1 : Nat) : Int)) (encode ks).length) := by
    rw [offsetMoves, if_neg (by omega), lead, if_neg (by decide), if_pos (by omega)]
    rfl
  have index : (none : Option Int).getD
      (if -((n : Int) + 1) ≥ 0 then 1 else (encode ks).length + 1) = (encode ks).length + 1 := by
    rw [Option.getD_none, if_neg (by omega)]
  rw [utf8Offset_at (Nat.le_refl _) index, moved, moves]
  split
  · rfl
  · exact congrArg Except.ok (if_neg (by simp; omega))

/-- The character a byte belongs to. -/
theorem exists_charStart {posi m : Nat} (below : posi < charStart ks m) :
    ∃ n < m, charStart ks n ≤ posi ∧ posi < charStart ks (n + 1) := by
  induction m with
  | zero => exact absurd below (Nat.not_lt_zero _)
  | succ m induction =>
      rcases Nat.lt_or_ge posi (charStart ks m) with earlier | here
      · obtain ⟨n, less, inside⟩ := induction earlier
        exact ⟨n, Nat.lt_succ_of_lt less, inside⟩
      · exact ⟨m, Nat.lt_succ_self m, here, below⟩

/-- With 0, the start of the character that the byte at `i` belongs to. -/
theorem utf8Offset_zero {posi n : Nat} (more : n < ks.length) (after : charStart ks n ≤ posi)
    (before : posi < charStart ks (n + 1)) :
    utf8Offset (encode ks) 0 (some (posi + 1)) = .ok (some (charStart ks n + 1)) := by
  have inside : posi ≤ (encode ks).length := by
    have ends : charStart ks (n + 1) ≤ (encode ks).length := by
      rw [← charStart_length]
      exact charStart_mono ks more
    omega
  rw [utf8Offset_at inside rfl, offsetMoves, if_pos rfl, thisStart_encode more after before]
  rfl

/-- `utf8.len` up to where a character starts. -/
theorem utf8Len_charStart {n : Nat} (bound : n ≤ ks.length) :
    utf8Len (encode ks) (some 1) (some (charStart ks n)) = .ok (.chars n) := by
  have first : uPosrelat 1 (encode ks).length = 1 := rfl
  have loop := utf8LenLoop_prefix [] (ks.take n) (encode (ks.drop n)) 0
  rw [List.nil_append, List.nil_append, ← encode_split, List.length_nil, Nat.zero_add,
    List.length_take_of_le bound] at loop
  have fits : charStart ks n ≤ (encode ks).length := by
    rw [← charStart_length]
    exact charStart_mono ks bound
  simp only [utf8Len, Option.getD_some, first, uPosrelat_nat]
  rw [if_neg (by omega), if_neg (by omega)]
  exact congrArg Except.ok loop

end Offset

/-- The bytes of a string at which a character starts, as indices. -/
def CharStart (ks : List CodePoint) (p : Int) : Prop := ∃ n < ks.length, p = charStart ks n + 1

/-- On the encoding of `ks`, `utf8.offset` finds where the `n`-th character starts
and `utf8.len` counts `n - 1` characters before it; a count from the end is one from
the start; with 0 it finds the last start that is not after `i`; and counts that are
too large give nil. -/
theorem utf8_offset_inverts_len (ks : List CodePoint) :
    (∀ n : Nat, 1 ≤ n → n ≤ ks.length + 1 →
      ∃ p : Int, p = (encode (ks.take (n - 1))).length + 1 ∧
        utf8Offset (encode ks) n none = .ok (some p) ∧
        utf8Len (encode ks) (some 1) (some (p - 1)) = .ok (.chars (n - 1))) ∧
    (∀ n : Nat, 1 ≤ n → n ≤ ks.length →
      utf8Offset (encode ks) (-n) none = utf8Offset (encode ks) (ks.length + 1 - n) none) ∧
    (∀ i : Nat, 1 ≤ i → i ≤ (encode ks).length →
      ∃ p, utf8Offset (encode ks) 0 (some i) = .ok (some p) ∧ CharStart ks p ∧ p ≤ i ∧
        ∀ p', CharStart ks p' → p' ≤ i → p' ≤ p) ∧
    ∀ n : Int, n > ks.length + 1 ∨ -n > ks.length → utf8Offset (encode ks) n none = .ok none := by
  refine ⟨?_, ?_, ?_, ?_⟩
  · intro n positive bound
    obtain ⟨n, rfl⟩ : ∃ k, n = k + 1 := ⟨n - 1, by omega⟩
    have found := utf8Offset_forward ks n
    rw [if_pos (by omega)] at found
    refine ⟨charStart ks n + 1, rfl, found, ?_⟩
    rw [add_sub_cancel_right]
    exact utf8Len_charStart ks (by omega)
  · intro n positive bound
    obtain ⟨n, rfl⟩ : ∃ k, n = k + 1 := ⟨n - 1, by omega⟩
    have forward := utf8Offset_forward ks (ks.length - (n + 1))
    rw [if_pos (by omega)] at forward
    have backward := utf8Offset_backward ks n
    rw [if_pos bound] at backward
    have counts : (ks.length : Int) + 1 - (n + 1 : Nat) = (ks.length - (n + 1) : Nat) + 1 := by omega
    rw [counts, forward]
    exact backward
  · intro i positive bound
    obtain ⟨posi, rfl⟩ : ∃ posi, i = posi + 1 := ⟨i - 1, by omega⟩
    rw [← charStart_length] at bound
    obtain ⟨n, more, after, before⟩ := exists_charStart ks bound
    refine ⟨charStart ks n + 1, utf8Offset_zero ks more after before, ⟨n, more, rfl⟩, by omega, ?_⟩
    rintro _ ⟨n', -, rfl⟩ le
    have notLater : n' ≤ n := by
      by_contra later
      have starts : charStart ks (n + 1) ≤ charStart ks n' :=
        charStart_mono ks (Nat.lt_of_not_ge later)
      omega
    have := charStart_mono ks notLater
    omega
  · rintro n (large | small)
    · obtain ⟨k, rfl⟩ : ∃ k : Nat, n = k + 1 := ⟨(n - 1).toNat, by omega⟩
      rw [utf8Offset_forward, if_neg (by omega)]
    · obtain ⟨k, rfl⟩ : ∃ k : Nat, n = -(k + 1) := ⟨(-n - 1).toNat, by omega⟩
      rw [utf8Offset_backward, if_neg (by omega)]

end TvmJit
