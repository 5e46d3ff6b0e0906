import TvmJit.Str.Compare
import TvmJit.Foundation.Digits

/-! The order of strings. -/

namespace TvmJit

open Foundation

/-- `lj_bswap`. -/
def lj_bswap (x : BitVec 32) : BitVec 32 :=
  x.extractLsb' 0 8 ++ x.extractLsb' 8 8 ++ x.extractLsb' 16 8 ++ x.extractLsb' 24 8

section

variable [Target]

/-- The loop of `lj_str_cmp`: its result, unless it is left without one. -/
def cmpLoop (a b : Nat → BitVec 8) (n i : Nat) : Option Int :=
  if i < n then
    let va := lj_getu32 a i
    let vb := lj_getu32 b i
    if va ≠ vb then
      let va := if Target.LJ_LE then lj_bswap va else va
      let vb := if Target.LJ_LE then lj_bswap vb else vb
      let k := BitVec.ofNat 32 i - BitVec.ofNat 32 n
      if k.toInt ≥ -3 then
        let shift := 32#32 + k <<< 3
        let va := va >>> shift.toNat
        let vb := vb >>> shift.toNat
        if va = vb then none else some (if va < vb then -1 else 1)
      else some (if va < vb then -1 else 1)
    else cmpLoop a b n (i + 4)
  else none
termination_by n - i

/-- Ordered compare of strings. -/
def lj_str_cmp (a b : StrObj) : Int :=
  match cmpLoop a.data b.data (if a.len > b.len then b.len else a.len) 0 with
  | some r => r
  | none => (BitVec.ofNat 32 a.len - BitVec.ofNat 32 b.len).toInt

/-- `n` bytes of a string from `i` on, as numbers. -/
def bytesFrom (data : Nat → BitVec 8) (i n : Nat) : List Nat := (List.range' i n).map fun j => (data j).toNat

/-- The bytes of a string, as numbers. -/
def StrObj.bytes (o : StrObj) : List Nat := bytesFrom o.data 0 o.len

end

section

variable {data : Nat → BitVec 8} {i n : Nat}

@[simp] theorem length_bytesFrom : (bytesFrom data i n).length = n := by
  rw [bytesFrom, List.length_map, List.length_range']

theorem bytesFrom_add (m : Nat) : bytesFrom data i (m + n) = bytesFrom data i m ++ bytesFrom data (i + m) n := by
  rw [bytesFrom, bytesFrom, bytesFrom, ← List.map_append, List.range'_append_1]

theorem bytesFrom_lt : ∀ byte ∈ bytesFrom data i n, byte < 256 := by
  rw [bytesFrom, List.forall_mem_map]
  exact fun j _ => (data j).isLt

theorem bytesFrom_congr {data' : Nat → BitVec 8} (same : ∀ j, i ≤ j → j < i + n → data j = data' j) :
    bytesFrom data i n = bytesFrom data' i n := by
  rw [bytesFrom, bytesFrom]
  apply List.map_congr_left
  intro j member
  obtain ⟨low, high⟩ := List.mem_range'_1.mp member
  rw [same j low high]

/-- The first of four bytes ends up as the highest. -/
theorem swapped_getu32 [Target] (data : Nat → BitVec 8) (i : Nat) :
    (if Target.LJ_LE then lj_bswap (lj_getu32 data i) else lj_getu32 data i) =
      data i ++ data (i + 1) ++ data (i + 2) ++ data (i + 3) := by
  rw [lj_getu32]
  cases Target.LJ_LE with
  | false => rfl
  | true =>
      have b0 := (data i).isLt
      have b1 := (data (i + 1)).isLt
      have b2 := (data (i + 2)).isLt
      have b3 := (data (i + 3)).isLt
      rw [if_pos rfl, if_pos rfl, lj_bswap]
      apply BitVec.eq_of_toNat_eq
      rw [toNat_word, toNat_word]
      simp only [BitVec.extractLsb'_toNat, toNat_word, Nat.shiftRight_eq_div_pow]
      omega

theorem toNat_swapped (data : Nat → BitVec 8) (i : Nat) :
    (data i ++ data (i + 1) ++ data (i + 2) ++ data (i + 3)).toNat = numeral 256 (bytesFrom data i 4) := by
  rw [toNat_word]
  simp [bytesFrom, numeral, List.range', Nat.add_assoc]
  omega

/-- The first `m` of four bytes. -/
theorem toNat_swapped_shift (data : Nat → BitVec 8) (i : Nat) {m : Nat} (few : m ≤ 4) :
    ((data i ++ data (i + 1) ++ data (i + 2) ++ data (i + 3)) >>> (32 - 8 * m)).toNat =
      numeral 256 (bytesFrom data i m) := by
  obtain ⟨k, four⟩ : ∃ k, 4 = m + k := ⟨4 - m, by omega⟩
  have power : 2 ^ (32 - 8 * m) = 256 ^ (bytesFrom data (i + m) k).length := by
    have bits : 32 - 8 * m = 8 * k := by omega
    rw [bits, Nat.pow_mul, length_bytesFrom]
  have parts : bytesFrom data i 4 = bytesFrom data i m ++ bytesFrom data (i + m) k := by
    rw [four, bytesFrom_add]
  rw [BitVec.toNat_ushiftRight, Nat.shiftRight_eq_div_pow, toNat_swapped, parts, power,
    numeral_div bytesFrom_lt]

end

/-! ## The wrapped index -/

theorem toInt_sub_ofNat {i n : Nat} (small : i < 2 ^ 31) (small' : n < 2 ^ 31) :
    (BitVec.ofNat 32 i - BitVec.ofNat 32 n).toInt = i - n := by
  have toInt {k : Nat} (below : k < 2 ^ 31) : (BitVec.ofNat 32 k).toInt = k := by
    rw [BitVec.toInt_ofNat', Int.bmod_eq_of_le (by omega) (by omega)]
  rw [BitVec.toInt_sub, toInt small, toInt small', Int.bmod_eq_of_le (by omega) (by omega)]

theorem shift_index {i n : Nat} (before : i < n) (small : n < 2 ^ 31) (few : n - i ≤ 3) :
    (32#32 + (BitVec.ofNat 32 i - BitVec.ofNat 32 n) <<< 3).toNat = 32 - 8 * (n - i) := by
  simp only [BitVec.toNat_add, BitVec.toNat_shiftLeft, BitVec.toNat_sub, BitVec.toNat_ofNat, Nat.shiftLeft_eq]
  omega

/-! ## Comparing -/

section

variable {a b : Nat → BitVec 8} {i n : Nat}

/-- Words that differ are in the order of their bytes. -/
theorem orders_words {m : Nat} {va vb : BitVec 32}
    (isA : va.toNat = numeral 256 (bytesFrom a i m)) (isB : vb.toNat = numeral 256 (bytesFrom b i m))
    (differ : va ≠ vb) : Orders (if va < vb then -1 else 1) (bytesFrom a i m) (bytesFrom b i m) := by
  have length : (bytesFrom a i m).length = (bytesFrom b i m).length := by
    rw [length_bytesFrom, length_bytesFrom]
  have differ : va.toNat ≠ vb.toNat := fun same => differ (BitVec.eq_of_toNat_eq same)
  split
  · next less =>
      refine .inl ⟨by decide, ?_⟩
      rw [← numeral_lt_iff length bytesFrom_lt bytesFrom_lt, ← isA, ← isB]
      exact less
  · next notLess =>
      refine .inr (.inr ⟨by decide, ?_⟩)
      rw [← numeral_lt_iff length.symm bytesFrom_lt bytesFrom_lt, ← isA, ← isB]
      rw [BitVec.lt_def] at notLess
      omega

variable [Target]

theorem getu32_eq_iff_bytes : lj_getu32 a i = lj_getu32 b i ↔ bytesFrom a i 4 = bytesFrom b i 4 := by
  have four : bytesFrom a i 4 = bytesFrom b i 4 ↔
      a i = b i ∧ a (i + 1) = b (i + 1) ∧ a (i + 2) = b (i + 2) ∧ a (i + 3) = b (i + 3) := by
    simp [bytesFrom, List.range', BitVec.toNat_inj, Nat.add_assoc]
  rw [four]
  apply (BitVec.xor_eq_zero_iff.symm.trans getu32_eq_iff).trans
  constructor
  · intro same
    exact ⟨same 0 (by decide), same 1 (by decide), same 2 (by decide), same 3 (by decide)⟩
  · intro ⟨zero, one, two, three⟩ j inside
    match j, inside with
    | 0, _ => exact zero
    | 1, _ => exact one
    | 2, _ => exact two
    | 3, _ => exact three

/-- What the loop finds out about the bytes from `i` on. -/
theorem cmpLoop_orders (small : n < 2 ^ 31) (inside : i ≤ n) :
    match cmpLoop a b n i with
    | some r => r ≠ 0 ∧ Orders r (bytesFrom a i (n - i)) (bytesFrom b i (n - i))
    | none => bytesFrom a i (n - i) = bytesFrom b i (n - i) := by
  have nonzero (va vb : BitVec 32) : (if va < vb then -1 else 1 : Int) ≠ 0 := by
    split <;> decide
  fun_induction cmpLoop a b n i with
  | case1 i before va₀ vb₀ differ va₁ vb₁ k few shift va vb same =>
      have index : k.toInt = i - n := toInt_sub_ofNat (before.trans small) small
      have isShift : shift.toNat = 32 - 8 * (n - i) := shift_index before small (by omega)
      have isA := toNat_swapped_shift a i (m := n - i) (by omega)
      have isB := toNat_swapped_shift b i (m := n - i) (by omega)
      rw [← swapped_getu32, ← isShift] at isA isB
      have same : numeral 256 (bytesFrom a i (n - i)) = numeral 256 (bytesFrom b i (n - i)) := by
        rw [← isA, ← isB]
        exact congrArg BitVec.toNat same
      have length : (bytesFrom a i (n - i)).length = (bytesFrom b i (n - i)).length := by
        rw [length_bytesFrom, length_bytesFrom]
      exact (numeral_inj length bytesFrom_lt bytesFrom_lt).mp same
  | case2 i before va₀ vb₀ differ va₁ vb₁ k few shift va vb differ' =>
      have index : k.toInt = i - n := toInt_sub_ofNat (before.trans small) small
      have isShift : shift.toNat = 32 - 8 * (n - i) := shift_index before small (by omega)
      have isA := toNat_swapped_shift a i (m := n - i) (by omega)
      have isB := toNat_swapped_shift b i (m := n - i) (by omega)
      rw [← swapped_getu32, ← isShift] at isA isB
      exact ⟨nonzero _ _, orders_words isA isB differ'⟩
  | case3 i before va₀ vb₀ differ va₁ vb₁ k many =>
      have index : k.toInt = i - n := toInt_sub_ofNat (before.trans small) small
      have isA := toNat_swapped a i
      have isB := toNat_swapped b i
      rw [← swapped_getu32] at isA isB
      have length : (bytesFrom a i 4).length = (bytesFrom b i 4).length := by
        rw [length_bytesFrom, length_bytesFrom]
      have differ' : va₁ ≠ vb₁ := by
        intro same
        apply differ
        rw [getu32_eq_iff_bytes, ← numeral_inj length bytesFrom_lt bytesFrom_lt, ← isA, ← isB]
        exact congrArg BitVec.toNat same
      have rest : n - i = 4 + (n - (i + 4)) := by omega
      rw [rest, bytesFrom_add, bytesFrom_add]
      exact ⟨nonzero _ _, (orders_words isA isB differ').append_right (nonzero _ _) length _ _⟩
  | case4 i before va vb same induction =>
      have equal := getu32_eq_iff_bytes.mp (not_not.mp same)
      rcases Nat.lt_or_ge n (i + 4) with last | more
      · have loop : cmpLoop a b n (i + 4) = none := by
          rw [cmpLoop, if_neg (by omega)]
        have rest : 4 = n - i + (i + 4 - n) := by omega
        rw [loop]
        rw [rest, bytesFrom_add, bytesFrom_add] at equal
        exact (List.append_inj equal (by rw [length_bytesFrom, length_bytesFrom])).1
      · have rest : n - i = 4 + (n - (i + 4)) := by omega
        have behind := induction more
        rw [rest, bytesFrom_add, bytesFrom_add, equal]
        split
        · next r found =>
            rw [found] at behind
            exact ⟨behind.1, behind.2.append_left _⟩
        · next found =>
            rw [found] at behind
            exact congrArg _ behind
  | case5 i past =>
      have none : n - i = 0 := by omega
      rw [none]
      rfl

theorem lj_str_cmp_orders {a b : StrObj} (short : a.len < 2 ^ 31) (short' : b.len < 2 ^ 31) :
    Orders (lj_str_cmp a b) a.bytes b.bytes := by
  have isMin : (if a.len > b.len then b.len else a.len) = min a.len b.len := by
    split <;> omega
  have fits : min a.len b.len < 2 ^ 31 := by omega
  have loop := cmpLoop_orders (a := a.data) (b := b.data) fits (Nat.zero_le _)
  obtain ⟨ka, lenA⟩ : ∃ k, a.len = min a.len b.len + k := Nat.exists_eq_add_of_le (Nat.min_le_left _ _)
  obtain ⟨kb, lenB⟩ : ∃ k, b.len = min a.len b.len + k := Nat.exists_eq_add_of_le (Nat.min_le_right _ _)
  have bytesA : a.bytes = bytesFrom a.data 0 (min a.len b.len) ++ bytesFrom a.data (0 + min a.len b.len) ka := by
    rw [← bytesFrom_add, ← lenA]
    rfl
  have bytesB : b.bytes = bytesFrom b.data 0 (min a.len b.len) ++ bytesFrom b.data (0 + min a.len b.len) kb := by
    rw [← bytesFrom_add, ← lenB]
    rfl
  rw [Nat.sub_zero] at loop
  rw [lj_str_cmp, isMin, bytesA, bytesB]
  split at loop
  · next r found =>
      exact loop.2.append_right loop.1 (by rw [length_bytesFrom, length_bytesFrom]) _ _
  · next found =>
      rw [loop]
      apply Orders.of_length
      · rw [length_bytesFrom, length_bytesFrom]
        omega
      · rw [length_bytesFrom, length_bytesFrom, toInt_sub_ofNat short short']
        omega

end

/-- The sign of a comparison of two strings is that of the lexicographic order of their
bytes, and the fast comparison finds out if they are equal. -/
theorem str_cmp_lexicographic [Target] (a b : StrObj) (short : a.len < LJ_MAX_STR) (short' : b.len < LJ_MAX_STR) :
    (lj_str_cmp a b < 0 ↔ a.bytes < b.bytes) ∧ (lj_str_cmp a b = 0 ↔ a.bytes = b.bytes) ∧
      (0 < lj_str_cmp a b ↔ b.bytes < a.bytes) ∧
      ∀ len, 0 < len → (str_fastcmp a.data b.data len = 0 ↔ ∀ j < len, a.data j = b.data j) := by
  have limit : LJ_MAX_STR < 2 ^ 31 := by decide
  obtain ⟨less, equal, more⟩ := (lj_str_cmp_orders (short.trans limit) (short'.trans limit)).iffs
  exact ⟨less, equal, more, fun len some => str_fastcmp_eq_zero some⟩

/-- A string of `a`s. -/
def repeated (len : Nat) : StrObj := ⟨0, 0, 0, 0, len, fun _ => 0x61⟩

/-- Five `a`s come before six. -/
theorem str_cmp_lexicographic_repeated :
    @lj_str_cmp ⟨true⟩ (repeated 5) (repeated 6) < 0 ∧ (repeated 5).bytes < (repeated 6).bytes := by
  have less : (repeated 5).bytes < (repeated 6).bytes := by decide
  exact ⟨((@str_cmp_lexicographic ⟨true⟩ (repeated 5) (repeated 6) (by decide) (by decide)).1).mpr less, less⟩

end TvmJit
