import TvmJit.Token
import Mathlib.Data.Nat.Bitwise

/-! The UTF-8 functions: `tvm.wchar`, which is `utf8.char` as well, and the
functions of the utf8 library that read a string back. A Lua string is followed
by a NUL byte, so a position one past its end may be read. -/

namespace TvmJit

/-- The errors a library function raises. -/
inductive LibError
  /-- `luaL_argerror`, or `lj_err_arg`. -/
  | arg (narg : Nat) (msg : String)
  /-- `luaL_error`. -/
  | msg (msg : String)
  deriving DecidableEq, Repr

/-- The bytes `tvm_wchar` adds for one code point. -/
def wcharBytes (k : Nat) : GCstr :=
  List.map UInt8.ofNat <|
    if k ≥ 0x10000 then
      [0xF0 ||| k >>> 18, 0x80 ||| (k >>> 12 &&& 0x3f), 0x80 ||| (k >>> 6 &&& 0x3f),
        0x80 ||| (k &&& 0x3f)]
    else if k ≥ 0x0800 then
      [0xE0 ||| k >>> 12, 0x80 ||| (k >>> 6 &&& 0x3f), 0x80 ||| (k &&& 0x3f)]
    else if k ≥ 0x0080 then
      [0xC0 ||| k >>> 6, 0x80 ||| (k &&& 0x3f)]
    else
      [k]

/-- The loop of `tvm_wchar` from argument `i` on. -/
def tvmWcharFrom (i : Nat) : List Int → Except LibError GCstr
  | [] => .ok []
  | k :: args =>
      if k < 0 ∨ k > 0x10FFFF then .error (.arg i "invalid value")
      else do
        let rest ← tvmWcharFrom (i + 1) args
        return wcharBytes k.toNat ++ rest

/-- `tvm_wchar`. -/
def tvmWchar (args : List Int) : Except LibError GCstr := tvmWcharFrom 1 args

/-- `u_posrelat`. -/
def uPosrelat (pos : Int) (len : Nat) : Int :=
  if pos ≥ 0 then pos
  else if -pos > len then 0
  else len + pos + 1

/-- The byte at a pointer. -/
def byteAt (o : GCstr) (i : Nat) : Nat := (o.getD i 0).toNat

/-- `iscont`. -/
def iscont (b : Nat) : Bool := b &&& 0xC0 == 0x80

/-- The loop of `utf8_decode`: the first byte as it is shifted, the bits read
from continuation bytes and the number of these. A byte shifted seven times does
not have the tested bit, so `fuel` for eight tests is enough. -/
def utf8DecodeLoop (o : GCstr) : Nat → Nat → Nat → Nat → Option (Nat × Nat × Nat)
  | 0, _, _, _ => none
  | fuel + 1, c, res, count =>
      if c &&& 0x40 = 0 then some (c, res, count)
      else
        let cc := byteAt o (count + 1)
        if iscont cc then
          utf8DecodeLoop o fuel (c <<< 1 % 2 ^ 32) (res <<< 6 % 2 ^ 32 ||| (cc &&& 0x3F)) (count + 1)
        else none

def utf8Limits : List Nat := [0xFF, 0x7F, 0x7FF, 0xFFFF]

/-- `utf8_decode`: the code point at a pointer and the number of continuation
bytes after its first byte. -/
def utf8Decode (o : GCstr) : Option (Nat × Nat) := do
  let c := byteAt o 0
  if c < 0x80 then return (c, 0)
  let (c, res, count) ← utf8DecodeLoop o 8 c 0 0
  let res := res ||| (c &&& 0x7F) <<< (count * 5) % 2 ^ 32
  if count > 3 ∨ res > 0x10FFFF ∨ res ≤ utf8Limits.getD count 0 then none
  else return (res, count)

/-- What `utf8_len` returns: a number, or nil and a position. -/
inductive Utf8Len
  | chars (n : Nat)
  | invalid (pos : Int)
  deriving DecidableEq, Repr

/-- The loop of `utf8_len`. -/
def utf8LenLoop (s : GCstr) (posj : Int) (posi n : Nat) : Utf8Len :=
  if (posi : Int) ≤ posj then
    match utf8Decode (s.drop posi) with
    | none => .invalid (posi + 1)
    | some (_, count) => utf8LenLoop s posj (posi + count + 1) (n + 1)
  else .chars n
termination_by (posj + 1 - posi).toNat

/-- `utf8_len`, with the defaults 1 and -1. -/
def utf8Len (s : GCstr) (i j : Option Int) : Except LibError Utf8Len :=
  let posi := uPosrelat (i.getD 1) s.length
  let posj := uPosrelat (j.getD (-1)) s.length
  if ¬ (1 ≤ posi ∧ posi - 1 ≤ s.length) then .error (.arg 2 "initial position out of string")
  else if ¬ posj - 1 < s.length then .error (.arg 3 "final position out of string")
  else .ok (utf8LenLoop s (posj - 1) (posi - 1).toNat 0)

def LUAI_MAXCSTACK : Int := 8000

/-- `lua_checkstack` in a function that has `used` slots. -/
def luaCheckstack (used size : Int) : Bool :=
  !(size > LUAI_MAXCSTACK || used + size > LUAI_MAXCSTACK)

/-- The loop of `utf8_codepoint`. -/
def utf8CodepointLoop (s : GCstr) (se pos : Nat) : Except LibError (List Nat) :=
  if pos < se then
    match utf8Decode (s.drop pos) with
    | none => .error (.msg "invalid UTF-8 code")
    | some (code, count) => do
        let rest ← utf8CodepointLoop s se (pos + count + 1)
        return code :: rest
  else .ok []
termination_by se - pos

/-- `utf8_codepoint`, called with `nargs` arguments. -/
def utf8Codepoint (nargs : Nat) (s : GCstr) (i j : Option Int) : Except LibError (List Nat) :=
  let posi := uPosrelat (i.getD 1) s.length
  let pose := uPosrelat (j.getD posi) s.length
  if ¬ posi ≥ 1 then .error (.arg 2 "out of range")
  else if ¬ pose ≤ s.length then .error (.arg 3 "out of range")
  else if posi > pose then .ok []
  else if pose - posi ≥ 2147483647 then .error (.msg "string slice too long")
  else if !luaCheckstack nargs (pose - posi + 1) then
    .error (.msg "stack overflow (string slice too long)")
  else utf8CodepointLoop s pose.toNat (posi - 1).toNat

/-- The offset `iter_aux` goes to: past the byte at `n` and its continuations. -/
def iterOffset (s : GCstr) (n : Int) : Int :=
  if n < 0 then 0
  else if n < s.length then
    n + 1 + ((s.drop (n.toNat + 1)).takeWhile fun b => iscont b.toNat).length
  else n

/-- `iter_aux`: the next position and its code point, or nothing at the end. -/
def iterAux (s : GCstr) (control : Int) : Except LibError (Option (Int × Nat)) :=
  let n := iterOffset s (control - 1)
  if n ≥ s.length then .ok none
  else
    match utf8Decode (s.drop n.toNat) with
    | none => .error (.msg "invalid UTF-8 code")
    | some (code, count) =>
        if iscont (byteAt s (n.toNat + count + 1)) then .error (.msg "invalid UTF-8 code")
        else .ok (some (n + 1, code))


/-- A generic `for` over `utf8.codes` from a value of its control variable: the
pairs it visits before it ends. -/
inductive Visits (s : GCstr) : Int → List (Int × Nat) → Prop
  | done {control : Int} (ends : iterAux s control = .ok none) : Visits s control []
  | next {control pos : Int} {code : Nat} {pairs : List (Int × Nat)}
      (here : iterAux s control = .ok (some (pos, code))) (rest : Visits s pos pairs) :
      Visits s control ((pos, code) :: pairs)

/-- `utf8_codes`: the iterator starts at 0. -/
def CodesVisits (s : GCstr) (pairs : List (Int × Nat)) : Prop := Visits s 0 pairs

/-! ## One code point -/

theorem and_0x3f (n : Nat) : n &&& 0x3F = n % 64 := Nat.and_two_pow_sub_one_eq_mod n 6

theorem wcharBytes_one {k : Nat} (small : k < 0x80) : wcharBytes k = [UInt8.ofNat k] := by
  rw [wcharBytes, if_neg (by omega), if_neg (by omega), if_neg (by omega)]
  rfl

theorem wcharBytes_two {k : Nat} (large : 0x80 ≤ k) (small : k < 0x800) :
    wcharBytes k = [192 + k / 64, 128 + k % 64].map UInt8.ofNat := by
  rw [wcharBytes, if_neg (by omega), if_neg (by omega), if_pos large]
  rw [and_0x3f, Nat.shiftRight_eq_div_pow, or_eq_add 6 (by decide) (by omega),
    or_eq_add 6 (by decide) (by omega)]

theorem wcharBytes_three {k : Nat} (large : 0x800 ≤ k) (small : k < 0x10000) :
    wcharBytes k = [224 + k / 4096, 128 + k / 64 % 64, 128 + k % 64].map UInt8.ofNat := by
  rw [wcharBytes, if_neg (by omega), if_pos large]
  simp only [and_0x3f, Nat.shiftRight_eq_div_pow]
  rw [or_eq_add 5 (by decide) (by omega), or_eq_add 6 (by decide) (by omega),
    or_eq_add 6 (by decide) (by omega)]

theorem wcharBytes_four {k : Nat} (large : 0x10000 ≤ k) (valid : k ≤ 0x10FFFF) :
    wcharBytes k =
      [240 + k / 262144, 128 + k / 4096 % 64, 128 + k / 64 % 64, 128 + k % 64].map UInt8.ofNat := by
  rw [wcharBytes, if_pos large]
  simp only [and_0x3f, Nat.shiftRight_eq_div_pow]
  rw [or_eq_add 4 (by decide) (by omega), or_eq_add 6 (by decide) (by omega),
    or_eq_add 6 (by decide) (by omega), or_eq_add 6 (by decide) (by omega)]

theorem iscont_iff {b : Nat} (byte : b < 256) : iscont b = true ↔ 128 ≤ b ∧ b < 192 := by
  have table : ∀ b : Fin 256, iscont b = true ↔ 128 ≤ b.val ∧ b.val < 192 := by decide +kernel
  exact table ⟨b, byte⟩

/-- The bits of the first byte `utf8_decode` tests and keeps: it is shifted once
for each continuation byte. -/
theorem lead_bits {b : Nat} (byte : b < 256) (multi : 128 ≤ b) :
    (b &&& 0x40 = 0 ↔ b < 192) ∧ (b <<< 1 &&& 0x40 = 0 ↔ b % 64 < 32) ∧
      (b <<< 2 &&& 0x40 = 0 ↔ b % 32 < 16) ∧ (b <<< 3 &&& 0x40 = 0 ↔ b % 16 < 8) ∧
      b &&& 0x7F = b - 128 ∧ b <<< 1 &&& 0x7F = b % 64 * 2 ∧ b <<< 2 &&& 0x7F = b % 32 * 4 ∧
      b <<< 3 &&& 0x7F = b % 16 * 8 := by
  have table : ∀ b : Fin 256, 128 ≤ b.val →
      (b.val &&& 0x40 = 0 ↔ b.val < 192) ∧ (b.val <<< 1 &&& 0x40 = 0 ↔ b.val % 64 < 32) ∧
      (b.val <<< 2 &&& 0x40 = 0 ↔ b.val % 32 < 16) ∧
      (b.val <<< 3 &&& 0x40 = 0 ↔ b.val % 16 < 8) ∧
      b.val &&& 0x7F = b.val - 128 ∧ b.val <<< 1 &&& 0x7F = b.val % 64 * 2 ∧
      b.val <<< 2 &&& 0x7F = b.val % 32 * 4 ∧ b.val <<< 3 &&& 0x7F = b.val % 16 * 8 := by
    decide +kernel
  exact table ⟨b, byte⟩ multi

theorem byteAt_lt (o : GCstr) (i : Nat) : byteAt o i < 256 := UInt8.toNat_lt _

theorem utf8DecodeLoop_zero {o : GCstr} {fuel c res count : Nat} (last : c &&& 0x40 = 0) :
    utf8DecodeLoop o (fuel + 1) c res count = some (c, res, count) := by
  rw [utf8DecodeLoop, if_pos last]

theorem utf8DecodeLoop_succ {o : GCstr} {fuel c res count : Nat} (more : c &&& 0x40 ≠ 0) :
    utf8DecodeLoop o (fuel + 1) c res count =
      if iscont (byteAt o (count + 1)) then
        utf8DecodeLoop o fuel (c <<< 1 % 2 ^ 32)
          (res <<< 6 % 2 ^ 32 ||| (byteAt o (count + 1) &&& 0x3F)) (count + 1)
      else none := by
  rw [utf8DecodeLoop, if_neg more]

theorem utf8DecodeLoop_count {o : GCstr} {fuel c res count c' res' count' : Nat}
    (ends : utf8DecodeLoop o fuel c res count = some (c', res', count')) : count ≤ count' := by
  induction fuel generalizing c res count with
  | zero => cases ends
  | succ fuel induction =>
      by_cases last : c &&& 0x40 = 0
      · rw [utf8DecodeLoop_zero last] at ends
        cases ends
        exact Nat.le_refl _
      · rw [utf8DecodeLoop_succ last] at ends
        split at ends
        · have := induction ends
          omega
        · cases ends

/-- One more continuation byte. -/
theorem shift_in {res : Nat} (b : Nat) (small : res < 2 ^ 26) :
    res <<< 6 % 2 ^ 32 ||| (b &&& 0x3F) = res * 64 + b % 64 := by
  have low : b % 64 < 2 ^ 6 := Nat.mod_lt _ (by decide)
  rw [and_0x3f, Nat.shiftLeft_eq, Nat.mod_eq_of_lt (by omega), or_eq_add 6 (Nat.dvd_mul_left _ _) low]
  rfl

theorem shift_lead {b : Nat} (byte : b < 256) {i : Nat} (few : i < 8) :
    b <<< i <<< 1 % 2 ^ 32 = b <<< (i + 1) := by
  rw [← Nat.shiftLeft_add, Nat.shiftLeft_eq]
  apply Nat.mod_eq_of_lt
  calc b * 2 ^ (i + 1) ≤ 255 * 2 ^ 8 :=
        Nat.mul_le_mul (by omega) (Nat.pow_le_pow_right (by decide) (by omega))
    _ < 2 ^ 32 := by decide

section Lead

variable {o : GCstr}

/-- The loop after a first byte that asks for one continuation byte at least. -/
theorem utf8DecodeLoop_one {fuel : Nat} (lead : 192 ≤ byteAt o 0) :
    utf8DecodeLoop o (fuel + 1) (byteAt o 0) 0 0 =
      if iscont (byteAt o 1) then utf8DecodeLoop o fuel (byteAt o 0 <<< 1) (byteAt o 1 % 64) 1
      else none := by
  have byte := byteAt_lt o 0
  have bits := lead_bits byte (by omega)
  rw [utf8DecodeLoop_succ (fun last => by have := bits.1.mp last; omega), shift_in _ (by decide)]
  rw [show byteAt o 0 <<< 1 % 2 ^ 32 = byteAt o 0 <<< 1 from shift_lead byte (i := 0) (by decide)]
  simp

/-- The loop after a first byte that asks for two at least. -/
theorem utf8DecodeLoop_two {fuel res : Nat} (lead : 224 ≤ byteAt o 0) (small : res < 2 ^ 26) :
    utf8DecodeLoop o (fuel + 1) (byteAt o 0 <<< 1) res 1 =
      if iscont (byteAt o 2) then
        utf8DecodeLoop o fuel (byteAt o 0 <<< 2) (res * 64 + byteAt o 2 % 64) 2
      else none := by
  have byte := byteAt_lt o 0
  have bits := lead_bits byte (by omega)
  rw [utf8DecodeLoop_succ (fun last => by have := bits.2.1.mp last; omega), shift_in _ small,
    shift_lead byte (by decide)]

/-- The loop after a first byte that asks for three at least. -/
theorem utf8DecodeLoop_three {fuel res : Nat} (lead : 240 ≤ byteAt o 0) (small : res < 2 ^ 26) :
    utf8DecodeLoop o (fuel + 1) (byteAt o 0 <<< 2) res 2 =
      if iscont (byteAt o 3) then
        utf8DecodeLoop o fuel (byteAt o 0 <<< 3) (res * 64 + byteAt o 3 % 64) 3
      else none := by
  have byte := byteAt_lt o 0
  have bits := lead_bits byte (by omega)
  rw [utf8DecodeLoop_succ (fun last => by have := bits.2.2.1.mp last; omega), shift_in _ small,
    shift_lead byte (by decide)]

end Lead

/-- The end of `utf8_decode`, after the loop. -/
def utf8Finish (c res count : Nat) : Option (Nat × Nat) :=
  let res := res ||| (c &&& 0x7F) <<< (count * 5) % 2 ^ 32
  if count > 3 ∨ res > 0x10FFFF ∨ res ≤ utf8Limits.getD count 0 then none else some (res, count)

theorem utf8Decode_multi {o : GCstr} (multi : 128 ≤ byteAt o 0) :
    utf8Decode o =
      (utf8DecodeLoop o 8 (byteAt o 0) 0 0).bind fun r => utf8Finish r.1 r.2.1 r.2.2 := by
  simp [utf8Decode, utf8Finish, Nat.not_lt.mpr multi]

theorem utf8Finish_eq {c res count : Nat} (value : Nat) (few : count ≤ 3)
    (bits : res ||| (c &&& 0x7F) <<< (count * 5) % 2 ^ 32 = value) :
    utf8Finish c res count =
      if value ≤ 0x10FFFF ∧ utf8Limits.getD count 0 < value then some (value, count) else none := by
  rw [utf8Finish, bits]
  by_cases valid : value ≤ 0x10FFFF ∧ utf8Limits.getD count 0 < value
  · rw [if_pos valid, if_neg (by omega)]
  · rw [if_neg valid, if_pos (by omega)]

section Decode

variable {o : GCstr}

theorem utf8Decode_ascii (ascii : byteAt o 0 < 128) : utf8Decode o = some (byteAt o 0, 0) := by
  simp [utf8Decode, ascii]

/-- A continuation byte does not begin a sequence. -/
theorem utf8Decode_cont (multi : 128 ≤ byteAt o 0) (lead : byteAt o 0 < 192) :
    utf8Decode o = none := by
  obtain ⟨two, -, -, -, kept, -⟩ := lead_bits (byteAt_lt o 0) multi
  have finish : utf8Finish (byteAt o 0) 0 0 = none := by
    rw [utf8Finish_eq (byteAt o 0 - 128) (by decide)]
    · exact if_neg fun fits => by have := fits.2; simp [utf8Limits] at this; omega
    · rw [kept]
      simp
      omega
  rw [utf8Decode_multi multi, utf8DecodeLoop_zero (two.mpr lead)]
  exact finish

theorem utf8Decode_two (low : 192 ≤ byteAt o 0) (high : byteAt o 0 < 224) :
    utf8Decode o =
      let k := (byteAt o 0 - 192) * 64 + byteAt o 1 % 64
      if iscont (byteAt o 1) ∧ 0x7F < k then some (k, 1) else none := by
  obtain ⟨-, two, -, -, -, kept, -⟩ := lead_bits (byteAt_lt o 0) (by omega)
  have finish : utf8Finish (byteAt o 0 <<< 1) (byteAt o 1 % 64) 1 =
      let k := (byteAt o 0 - 192) * 64 + byteAt o 1 % 64
      if 0x7F < k then some (k, 1) else none := by
    rw [utf8Finish_eq ((byteAt o 0 - 192) * 64 + byteAt o 1 % 64) (by decide)]
    · have fits : (byteAt o 0 - 192) * 64 + byteAt o 1 % 64 ≤ 0x10FFFF := by omega
      simp [fits, utf8Limits]
    · rw [kept, Nat.shiftLeft_eq, Nat.or_comm, Nat.mod_eq_of_lt (by omega),
        or_eq_add 6 (by omega) (by omega)]
      omega
  rw [utf8Decode_multi (by omega), utf8DecodeLoop_one low, utf8DecodeLoop_zero (two.mpr (by omega))]
  by_cases cont : iscont (byteAt o 1) = true
  · simp only [cont, if_true, true_and, Option.bind_some]
    exact finish
  · simp [cont]

theorem utf8Decode_three (low : 224 ≤ byteAt o 0) (high : byteAt o 0 < 240) :
    utf8Decode o =
      let k := (byteAt o 0 - 224) * 4096 + byteAt o 1 % 64 * 64 + byteAt o 2 % 64
      if iscont (byteAt o 1) ∧ iscont (byteAt o 2) ∧ 0x7FF < k then some (k, 2) else none := by
  obtain ⟨-, -, three, -, -, -, kept, -⟩ := lead_bits (byteAt_lt o 0) (by omega)
  have finish : utf8Finish (byteAt o 0 <<< 2) (byteAt o 1 % 64 * 64 + byteAt o 2 % 64) 2 =
      let k := (byteAt o 0 - 224) * 4096 + byteAt o 1 % 64 * 64 + byteAt o 2 % 64
      if 0x7FF < k then some (k, 2) else none := by
    rw [utf8Finish_eq ((byteAt o 0 - 224) * 4096 + byteAt o 1 % 64 * 64 + byteAt o 2 % 64)
      (by decide)]
    · have fits : (byteAt o 0 - 224) * 4096 + byteAt o 1 % 64 * 64 + byteAt o 2 % 64 ≤ 0x10FFFF := by
        omega
      simp [fits, utf8Limits]
    · rw [kept, Nat.shiftLeft_eq, Nat.or_comm, Nat.mod_eq_of_lt (by omega),
        or_eq_add 12 (by omega) (by omega)]
      omega
  rw [utf8Decode_multi (by omega), utf8DecodeLoop_one (by omega),
    utf8DecodeLoop_two low (by omega), utf8DecodeLoop_zero (three.mpr (by omega))]
  by_cases cont : iscont (byteAt o 1) = true
  · by_cases cont2 : iscont (byteAt o 2) = true
    · simp only [cont, cont2, if_true, true_and, Option.bind_some]
      exact finish
    · simp [cont2]
  · simp [cont]

theorem utf8Decode_four (low : 240 ≤ byteAt o 0) (high : byteAt o 0 < 248) :
    utf8Decode o =
      let k := (byteAt o 0 - 240) * 262144 + byteAt o 1 % 64 * 4096 + byteAt o 2 % 64 * 64 +
        byteAt o 3 % 64
      if iscont (byteAt o 1) ∧ iscont (byteAt o 2) ∧ iscont (byteAt o 3) ∧ k ≤ 0x10FFFF ∧
        0xFFFF < k then some (k, 3) else none := by
  obtain ⟨-, -, -, four, -, -, -, kept⟩ := lead_bits (byteAt_lt o 0) (by omega)
  have finish : utf8Finish (byteAt o 0 <<< 3)
      ((byteAt o 1 % 64 * 64 + byteAt o 2 % 64) * 64 + byteAt o 3 % 64) 3 =
      let k := (byteAt o 0 - 240) * 262144 + byteAt o 1 % 64 * 4096 + byteAt o 2 % 64 * 64 +
        byteAt o 3 % 64
      if k ≤ 0x10FFFF ∧ 0xFFFF < k then some (k, 3) else none := by
    rw [utf8Finish_eq ((byteAt o 0 - 240) * 262144 + byteAt o 1 % 64 * 4096 +
      byteAt o 2 % 64 * 64 + byteAt o 3 % 64) (by decide)]
    · simp [utf8Limits]
    · rw [kept, Nat.shiftLeft_eq, Nat.or_comm, Nat.mod_eq_of_lt (by omega),
        or_eq_add 18 (by omega) (by omega)]
      omega
  rw [utf8Decode_multi (by omega), utf8DecodeLoop_one (by omega),
    utf8DecodeLoop_two (by omega) (by omega), utf8DecodeLoop_three low (by omega),
    utf8DecodeLoop_zero (four.mpr (by omega))]
  by_cases cont : iscont (byteAt o 1) = true
  · by_cases cont2 : iscont (byteAt o 2) = true
    · by_cases cont3 : iscont (byteAt o 3) = true
      · simp only [cont, cont2, cont3, if_true, true_and, Option.bind_some]
        exact finish
      · simp [cont3]
    · simp [cont2]
  · simp [cont]

/-- No sequence is longer than four bytes. -/
theorem utf8Decode_long (low : 248 ≤ byteAt o 0) : utf8Decode o = none := by
  obtain ⟨-, -, -, four, -⟩ := lead_bits (byteAt_lt o 0) (by omega)
  have more : byteAt o 0 <<< 3 &&& 0x40 ≠ 0 := fun last => by
    have := four.mp last
    have := byteAt_lt o 0
    omega
  rw [utf8Decode_multi (by omega), utf8DecodeLoop_one (by omega),
    utf8DecodeLoop_two (by omega) (by omega), utf8DecodeLoop_three (by omega) (by omega),
    utf8DecodeLoop_succ more]
  rw [Option.bind_eq_none_iff]
  rintro ⟨c, res, count⟩ ends
  have many : 4 ≤ count := by
    repeat' split at ends
    · exact utf8DecodeLoop_count ends
    all_goals cases ends
  exact if_pos (Or.inl many)

end Decode

/-- `utf8_decode` undoes `tvm_wchar`. -/
theorem utf8Decode_wcharBytes {k : Nat} (valid : k ≤ 0x10FFFF) (rest : GCstr) :
    utf8Decode (wcharBytes k ++ rest) = some (k, (wcharBytes k).length - 1) := by
  have get (n : Nat) (byte : n < 256) : (UInt8.ofNat n).toNat = n := by simp; omega
  rcases Nat.lt_or_ge k 0x80 with one | large
  · have first : byteAt (wcharBytes k ++ rest) 0 = k := by
      rw [wcharBytes_one one]
      exact get _ (by omega)
    rw [utf8Decode_ascii (by omega), first, wcharBytes_one one]
    rfl
  rcases Nat.lt_or_ge k 0x800 with two | large
  · rw [wcharBytes_two large two]
    generalize isBytes : List.map UInt8.ofNat _ ++ rest = o
    have first : byteAt o 0 = 192 + k / 64 := by rw [← isBytes]; exact get _ (by omega)
    have second : byteAt o 1 = 128 + k % 64 := by rw [← isBytes]; exact get _ (by omega)
    have cont := (iscont_iff (b := 128 + k % 64) (by omega)).mpr (by omega)
    have value : (192 + k / 64 - 192) * 64 + (128 + k % 64) % 64 = k := by omega
    rw [utf8Decode_two (by omega) (by omega), first, second]
    simp only [cont, value, true_and]
    exact if_pos (by omega)
  rcases Nat.lt_or_ge k 0x10000 with three | large
  · rw [wcharBytes_three large three]
    generalize isBytes : List.map UInt8.ofNat _ ++ rest = o
    have first : byteAt o 0 = 224 + k / 4096 := by rw [← isBytes]; exact get _ (by omega)
    have second : byteAt o 1 = 128 + k / 64 % 64 := by rw [← isBytes]; exact get _ (by omega)
    have third : byteAt o 2 = 128 + k % 64 := by rw [← isBytes]; exact get _ (by omega)
    have cont := (iscont_iff (b := 128 + k / 64 % 64) (by omega)).mpr (by omega)
    have cont2 := (iscont_iff (b := 128 + k % 64) (by omega)).mpr (by omega)
    have value : (224 + k / 4096 - 224) * 4096 + (128 + k / 64 % 64) % 64 * 64 +
        (128 + k % 64) % 64 = k := by omega
    rw [utf8Decode_three (by omega) (by omega), first, second, third]
    simp only [cont, cont2, value, true_and]
    exact if_pos (by omega)
  · rw [wcharBytes_four large valid]
    generalize isBytes : List.map UInt8.ofNat _ ++ rest = o
    have first : byteAt o 0 = 240 + k / 262144 := by rw [← isBytes]; exact get _ (by omega)
    have second : byteAt o 1 = 128 + k / 4096 % 64 := by rw [← isBytes]; exact get _ (by omega)
    have third : byteAt o 2 = 128 + k / 64 % 64 := by rw [← isBytes]; exact get _ (by omega)
    have fourth : byteAt o 3 = 128 + k % 64 := by rw [← isBytes]; exact get _ (by omega)
    have cont := (iscont_iff (b := 128 + k / 4096 % 64) (by omega)).mpr (by omega)
    have cont2 := (iscont_iff (b := 128 + k / 64 % 64) (by omega)).mpr (by omega)
    have cont3 := (iscont_iff (b := 128 + k % 64) (by omega)).mpr (by omega)
    have value : (240 + k / 262144 - 240) * 262144 + (128 + k / 4096 % 64) % 64 * 4096 +
        (128 + k / 64 % 64) % 64 * 64 + (128 + k % 64) % 64 = k := by omega
    rw [utf8Decode_four (by omega) (by omega), first, second, third, fourth]
    simp only [cont, cont2, cont3, value, true_and]
    exact if_pos (by omega)

theorem lt_length_of_byteAt {o : GCstr} {i : Nat} (set : 0 < byteAt o i) : i < o.length := by
  by_contra outside
  rw [byteAt, List.getD_eq_default _ _ (by omega)] at set
  exact absurd set (by decide)

/-- A string is known from its bytes. -/
theorem eq_append_of_byteAt {o : GCstr} {l : List Nat}
    (same : ∀ i (inside : i < l.length), i < o.length ∧ byteAt o i = l[i]) :
    o = l.map UInt8.ofNat ++ o.drop l.length := by
  induction l generalizing o with
  | nil => rfl
  | cons n l induction =>
      obtain ⟨nonempty, first⟩ := same 0 (by simp)
      cases o with
      | nil => simp at nonempty
      | cons a o =>
          have isA : UInt8.ofNat n = a := by
            rw [← show byteAt (a :: o) 0 = n from first]
            exact UInt8.ofNat_toNat
          have rest := induction (o := o) fun i inside => by
            have := same (i + 1) (by simpa using inside)
            simpa [byteAt] using this
          simpa [isA] using rest

/-- `utf8_decode` accepts only what `tvm_wchar` makes. -/
theorem eq_wcharBytes_of_utf8Decode {o : GCstr} (nonempty : o ≠ []) {k n : Nat}
    (decodes : utf8Decode o = some (k, n)) :
    k ≤ 0x10FFFF ∧ o = wcharBytes k ++ o.drop (n + 1) ∧ (wcharBytes k).length = n + 1 := by
  have byte := byteAt_lt o 0
  have byte1 := byteAt_lt o 1
  have byte2 := byteAt_lt o 2
  have byte3 := byteAt_lt o 3
  have inside0 : 0 < o.length := List.length_pos_of_ne_nil nonempty
  have inside (i : Nat) (set : 128 ≤ byteAt o i) : i < o.length := lt_length_of_byteAt (by omega)
  rcases Nat.lt_or_ge (byteAt o 0) 128 with ascii | multi
  · rw [utf8Decode_ascii ascii] at decodes
    cases decodes
    rw [wcharBytes_one ascii]
    refine ⟨by omega, eq_append_of_byteAt (l := [byteAt o 0]) ?_, rfl⟩
    intro i below
    obtain rfl : i = 0 := by simpa using below
    exact ⟨inside0, rfl⟩
  rcases Nat.lt_or_ge (byteAt o 0) 192 with cont | lead
  · rw [utf8Decode_cont multi cont] at decodes
    cases decodes
  rcases Nat.lt_or_ge (byteAt o 0) 224 with two | lead
  · rw [utf8Decode_two lead two] at decodes
    obtain ⟨⟨cont, large⟩, decoded⟩ := Option.ite_none_right_eq_some.mp decodes
    cases decoded
    rw [iscont_iff byte1] at cont
    rw [wcharBytes_two (by omega) (by omega)]
    refine ⟨by omega, eq_append_of_byteAt (l := [_, _]) ?_, rfl⟩
    intro i below
    match i, below with
    | 0, _ => exact ⟨inside0, by simp; omega⟩
    | 1, _ => exact ⟨inside 1 (by omega), by simp; omega⟩
  rcases Nat.lt_or_ge (byteAt o 0) 240 with three | lead
  · rw [utf8Decode_three lead three] at decodes
    obtain ⟨⟨cont, cont2, large⟩, decoded⟩ := Option.ite_none_right_eq_some.mp decodes
    cases decoded
    rw [iscont_iff byte1] at cont
    rw [iscont_iff byte2] at cont2
    rw [wcharBytes_three (by omega) (by omega)]
    refine ⟨by omega, eq_append_of_byteAt (l := [_, _, _]) ?_, rfl⟩
    intro i below
    match i, below with
    | 0, _ => exact ⟨inside0, by simp; omega⟩
    | 1, _ => exact ⟨inside 1 (by omega), by simp; omega⟩
    | 2, _ => exact ⟨inside 2 (by omega), by simp; omega⟩
  rcases Nat.lt_or_ge (byteAt o 0) 248 with four | long
  · rw [utf8Decode_four lead four] at decodes
    obtain ⟨⟨cont, cont2, cont3, valid, large⟩, decoded⟩ := Option.ite_none_right_eq_some.mp decodes
    cases decoded
    rw [iscont_iff byte1] at cont
    rw [iscont_iff byte2] at cont2
    rw [iscont_iff byte3] at cont3
    rw [wcharBytes_four (by omega) valid]
    refine ⟨valid, eq_append_of_byteAt (l := [_, _, _, _]) ?_, rfl⟩
    intro i below
    match i, below with
    | 0, _ => exact ⟨inside0, by simp; omega⟩
    | 1, _ => exact ⟨inside 1 (by omega), by simp; omega⟩
    | 2, _ => exact ⟨inside 2 (by omega), by simp; omega⟩
    | 3, _ => exact ⟨inside 3 (by omega), by simp; omega⟩
  · rw [utf8Decode_long long] at decodes
    cases decodes

/-- `utf8_decode` fails exactly where no code point is encoded. -/
theorem utf8Decode_eq_none_iff {o : GCstr} (nonempty : o ≠ []) :
    utf8Decode o = none ↔ ∀ k ≤ 0x10FFFF, ¬wcharBytes k <+: o := by
  constructor
  · rintro fails k valid ⟨rest, rfl⟩
    rw [utf8Decode_wcharBytes valid] at fails
    cases fails
  · intro noneHere
    cases decodes : utf8Decode o with
    | none => rfl
    | some decoded =>
        obtain ⟨valid, bytes, -⟩ := eq_wcharBytes_of_utf8Decode nonempty decodes
        exact absurd ⟨_, bytes.symm⟩ (noneHere _ valid)

/-- A code point is a first byte and its continuation bytes. -/
theorem wcharBytes_eq_cons {k : Nat} (valid : k ≤ 0x10FFFF) :
    ∃ lead tail, wcharBytes k = lead :: tail ∧ iscont lead.toNat = false ∧
      ∀ b ∈ tail, iscont b.toNat = true := by
  have get (n : Nat) (byte : n < 256) : (UInt8.ofNat n).toNat = n := by simp; omega
  have isLead (n : Nat) (byte : n < 256) (lead : n < 128 ∨ 192 ≤ n) :
      iscont (UInt8.ofNat n).toNat = false := by
    rw [get n byte, ← Bool.not_eq_true, iscont_iff byte]
    omega
  have isTail (n : Nat) (cont : 128 ≤ n ∧ n < 192) : iscont (UInt8.ofNat n).toNat = true := by
    rw [get n (by omega)]
    exact (iscont_iff (by omega)).mpr cont
  rcases Nat.lt_or_ge k 0x80 with one | large
  · exact ⟨_, _, wcharBytes_one one, isLead _ (by omega) (by omega), by simp⟩
  rcases Nat.lt_or_ge k 0x800 with two | large
  · refine ⟨_, _, wcharBytes_two large two, isLead _ (by omega) (by omega), ?_⟩
    rintro b (_ | ⟨_, ⟨⟩⟩)
    exact isTail _ (by omega)
  rcases Nat.lt_or_ge k 0x10000 with three | large
  · refine ⟨_, _, wcharBytes_three large three, isLead _ (by omega) (by omega), ?_⟩
    rintro b (_ | ⟨_, _ | ⟨_, ⟨⟩⟩⟩) <;> exact isTail _ (by omega)
  · refine ⟨_, _, wcharBytes_four large valid, isLead _ (by omega) (by omega), ?_⟩
    rintro b (_ | ⟨_, _ | ⟨_, _ | ⟨_, ⟨⟩⟩⟩⟩) <;> exact isTail _ (by omega)

/-! ## Strings of code points -/

/-- A code point `tvm_wchar` accepts. -/
abbrev CodePoint := {k : Nat // k ≤ 0x10FFFF}

def encode (ks : List CodePoint) : GCstr := ks.flatMap fun k => wcharBytes k.val

/-- The pairs of the byte position each code point starts at and its value, when
the first one starts at `pos`. -/
def startPairs (pos : Nat) : List CodePoint → List (Int × Nat)
  | [] => []
  | k :: ks => ((pos : Int), k.val) :: startPairs (pos + (wcharBytes k).length) ks

@[simp] theorem encode_cons (k : CodePoint) (ks : List CodePoint) :
    encode (k :: ks) = wcharBytes k ++ encode ks := rfl

theorem encode_replicate_length (n : Nat) (k : CodePoint) :
    (encode (List.replicate n k)).length = n * (wcharBytes k).length := by
  rw [encode, List.length_flatMap, List.map_replicate, List.sum_replicate_nat]

theorem tvmWchar_codePoints (ks : List CodePoint) :
    tvmWchar (ks.map fun k => (k.val : Int)) = .ok (encode ks) := by
  unfold tvmWchar
  generalize 1 = i
  induction ks generalizing i with
  | nil => rfl
  | cons k ks induction =>
      have valid : ¬((k.val : Int) < 0 ∨ (k.val : Int) > 0x10FFFF) := by
        have := k.property
        omega
      rw [List.map_cons, tvmWcharFrom, if_neg valid, induction]
      rfl

theorem wcharBytes_length_pos (k : CodePoint) : 0 < (wcharBytes k).length := by
  obtain ⟨lead, tail, bytes, -⟩ := wcharBytes_eq_cons k.property
  simp [bytes]

/-- The code point that starts after `before`. -/
theorem utf8Decode_at (before : GCstr) (k : CodePoint) (rest : GCstr) :
    utf8Decode ((before ++ (wcharBytes k ++ rest)).drop before.length) =
      some (k.val, (wcharBytes k).length - 1) := by
  rw [List.drop_left]
  exact utf8Decode_wcharBytes k.property rest

/-- The loop of `utf8_len` over encoded code points, up to the last byte of these. -/
theorem utf8LenLoop_prefix (before : GCstr) (ks : List CodePoint) (rest : GCstr) (n : Nat) :
    utf8LenLoop (before ++ (encode ks ++ rest)) ((before ++ encode ks).length - 1) before.length n =
      .chars (n + ks.length) := by
  induction ks generalizing before n with
  | nil =>
      rw [utf8LenLoop, if_neg (by simp [encode])]
      rfl
  | cons k ks induction =>
      have positive := wcharBytes_length_pos k
      have next : before.length + ((wcharBytes k).length - 1) + 1 =
          (before ++ wcharBytes k).length := by
        rw [List.length_append]
        omega
      have more : ((before.length : Nat) : Int) ≤ (before ++ encode (k :: ks)).length - 1 := by
        simp only [encode_cons, List.length_append]
        omega
      rw [utf8LenLoop, if_pos more, encode_cons, List.append_assoc (wcharBytes k), utf8Decode_at]
      simp only [next]
      rw [← List.append_assoc before, ← List.append_assoc before, induction]
      simp
      omega

theorem utf8LenLoop_encode (before : GCstr) (ks : List CodePoint) (n : Nat) :
    utf8LenLoop (before ++ encode ks) ((before ++ encode ks).length - 1) before.length n =
      .chars (n + ks.length) := by
  have loop := utf8LenLoop_prefix before ks [] n
  rw [List.append_nil] at loop
  exact loop

/-- The loop of `utf8_codepoint` over encoded code points. -/
theorem utf8CodepointLoop_encode (before : GCstr) (ks : List CodePoint) :
    utf8CodepointLoop (before ++ encode ks) (before ++ encode ks).length before.length =
      .ok (ks.map Subtype.val) := by
  induction ks generalizing before with
  | nil =>
      rw [utf8CodepointLoop, if_neg (by simp [encode])]
      rfl
  | cons k ks induction =>
      have positive := wcharBytes_length_pos k
      have next : before.length + ((wcharBytes k).length - 1) + 1 =
          (before ++ wcharBytes k).length := by
        rw [List.length_append]
        omega
      have more : before.length < (before ++ encode (k :: ks)).length := by
        simp only [encode_cons, List.length_append]
        omega
      rw [utf8CodepointLoop, if_pos more, encode_cons, utf8Decode_at]
      simp only [next]
      rw [← List.append_assoc, induction]
      rfl

theorem iscont_encode (ks : List CodePoint) : iscont (byteAt (encode ks) 0) = false := by
  cases ks with
  | nil => rfl
  | cons k ks =>
      obtain ⟨lead, tail, bytes, isLead, -⟩ := wcharBytes_eq_cons k.property
      rw [encode_cons, bytes]
      exact isLead

/-- From the start of one code point, `iter_aux` goes to the start of the next. -/
theorem iterOffset_encode (before : GCstr) (k : CodePoint) (ks : List CodePoint) :
    iterOffset (before ++ (wcharBytes k ++ encode ks)) before.length =
      (before ++ wcharBytes k).length := by
  obtain ⟨lead, tail, bytes, -, conts⟩ := wcharBytes_eq_cons k.property
  have all : (tail ++ encode ks).takeWhile (fun b => iscont b.toNat) = tail := by
    have stops : (encode ks).takeWhile (fun b => iscont b.toNat) = [] := by
      have notCont := iscont_encode ks
      cases isBytes : encode ks with
      | nil => rfl
      | cons b rest =>
          rw [isBytes] at notCont
          exact List.takeWhile_cons_of_neg (by simpa [byteAt] using notCont)
    rw [List.takeWhile_append_of_pos conts, stops, List.append_nil]
  rw [iterOffset, if_neg (by omega), if_pos (by simp [bytes]; omega)]
  rw [bytes, Int.toNat_natCast, ← List.drop_drop, List.drop_left]
  simp only [List.cons_append, List.drop_succ_cons, List.drop_zero, all, List.length_append,
    List.length_cons]
  omega

/-- `iter_aux` where the next code point starts. -/
theorem iterAux_encode {before : GCstr} {k : CodePoint} {ks : List CodePoint} {control : Int}
    (offset : iterOffset (before ++ (wcharBytes k ++ encode ks)) (control - 1) = before.length) :
    iterAux (before ++ (wcharBytes k ++ encode ks)) control =
      .ok (some ((before.length : Int) + 1, k.val)) := by
  have positive := wcharBytes_length_pos k
  have next : before.length + ((wcharBytes k).length - 1) + 1 =
      (before ++ wcharBytes k).length := by
    rw [List.length_append]
    omega
  have notCont : iscont (byteAt (before ++ (wcharBytes k ++ encode ks))
      (before ++ wcharBytes k).length) = false := by
    rw [← List.append_assoc, byteAt, List.getD_append_right _ _ _ _ le_rfl, Nat.sub_self]
    exact iscont_encode ks
  have inside : ¬(before.length : Int) ≥ (before ++ (wcharBytes k ++ encode ks)).length := by
    simp only [List.length_append]
    omega
  simp only [iterAux, offset, Int.toNat_natCast, utf8Decode_at, next, notCont]
  rw [if_neg inside]
  rfl

theorem visits_encode (before : GCstr) (ks : List CodePoint) {control : Int}
    (offset : iterOffset (before ++ encode ks) (control - 1) = before.length) :
    Visits (before ++ encode ks) control (startPairs (before.length + 1) ks) := by
  induction ks generalizing before control with
  | nil =>
      apply Visits.done
      simp only [iterAux, offset]
      exact if_pos (by simp [encode])
  | cons k ks induction =>
      have offset' : iterOffset (before ++ wcharBytes k ++ encode ks) ((before.length : Int) + 1 - 1) =
          (before ++ wcharBytes k).length := by
        rw [add_sub_cancel_right, List.append_assoc]
        exact iterOffset_encode before k ks
      have rest := induction (before ++ wcharBytes k) offset'
      have pos : before.length + (wcharBytes k).length + 1 =
          before.length + 1 + (wcharBytes k).length := by omega
      rw [List.append_assoc, List.length_append, pos] at rest
      rw [encode_cons] at offset ⊢
      exact .next (iterAux_encode offset) rest

/-- Every string up to `posi` is encoded code points; the loop of `utf8_len` goes on
to the end or to the first byte no code point starts at. -/
theorem utf8LenLoop_cases (s : GCstr) {posi : Nat} (n : Nat) (inside : posi ≤ s.length) :
    (∃ ks : List CodePoint, s.drop posi = encode ks ∧
        utf8LenLoop s (s.length - 1) posi n = .chars (n + ks.length)) ∨
      ∃ (ks : List CodePoint) (q : Nat), s.drop posi = encode ks ++ s.drop q ∧ q < s.length ∧
        utf8Decode (s.drop q) = none ∧ utf8LenLoop s (s.length - 1) posi n = .invalid (q + 1) := by
  induction left : s.length - posi using Nat.strong_induction_on generalizing posi n with
  | _ left induction =>
  rcases Nat.lt_or_ge posi s.length with more | ends
  swap
  · refine .inl ⟨[], ?_, ?_⟩
    · rw [List.drop_eq_nil_of_le ends]
      rfl
    · rw [utf8LenLoop, if_neg (by omega)]
      rfl
  have nonempty : s.drop posi ≠ [] := by
    rw [ne_eq, List.drop_eq_nil_iff]
    omega
  rw [utf8LenLoop, if_pos (by omega)]
  cases decodes : utf8Decode (s.drop posi) with
  | none => exact .inr ⟨[], posi, rfl, more, decodes, rfl⟩
  | some decoded =>
      obtain ⟨k, count⟩ := decoded
      obtain ⟨valid, bytes, length⟩ := eq_wcharBytes_of_utf8Decode nonempty decodes
      rw [List.drop_drop, ← Nat.add_assoc] at bytes
      have fits : posi + count + 1 ≤ s.length := by
        have := congrArg List.length bytes
        simp only [List.length_append, List.length_drop, length] at this
        omega
      rcases induction (s.length - (posi + count + 1)) (by omega) (n + 1) fits rfl with
        ⟨ks, rest, counts⟩ | ⟨ks, q, rest, below, fails, invalid⟩
      · refine .inl ⟨⟨k, valid⟩ :: ks, ?_, ?_⟩
        · rw [bytes, rest]
          rfl
        · simp only [counts, List.length_cons]
          congr 1
          omega
      · refine .inr ⟨⟨k, valid⟩ :: ks, q, ?_, below, fails, invalid⟩
        rw [bytes, rest, encode_cons, List.append_assoc]

/-- `q` is the first byte of `s` at which no code point is encoded. -/
structure FailsAt (s : GCstr) (q : Nat) : Prop where
  inside : q < s.length
  before : ∃ ks : List CodePoint, s.take q = encode ks
  here : ∀ k ≤ 0x10FFFF, ¬wcharBytes k <+: s.drop q

theorem utf8Len_eq (s : GCstr) :
    utf8Len s none none = .ok (utf8LenLoop s (s.length - 1) 0 0) := by
  have first : uPosrelat 1 s.length = 1 := rfl
  have last : uPosrelat (-1) s.length = s.length := by
    unfold uPosrelat
    split
    · omega
    · split <;> omega
  simp only [utf8Len, Option.getD_none, first, last]
  rw [if_neg (by omega), if_neg (by omega)]
  rfl

/-- `utf8.len` of a string that is not `utf8.char` of a list. -/
theorem utf8Len_cases (s : GCstr) :
    (∃ ks : List CodePoint, s = encode ks ∧ utf8Len s none none = .ok (.chars ks.length)) ∨
      ∃ q : Nat, FailsAt s q ∧ utf8Len s none none = .ok (.invalid (q + 1)) := by
  rw [utf8Len_eq]
  rcases utf8LenLoop_cases s 0 (Nat.zero_le _) with ⟨ks, bytes, counts⟩ |
    ⟨ks, q, bytes, below, fails, invalid⟩
  · rw [List.drop_zero] at bytes
    exact .inl ⟨ks, bytes, by rw [counts, Nat.zero_add]⟩
  · refine .inr ⟨q, ⟨below, ⟨ks, ?_⟩, ?_⟩, by rw [invalid]⟩
    · rw [List.drop_zero] at bytes
      exact List.append_cancel_right ((List.take_append_drop q s).trans bytes)
    · apply (utf8Decode_eq_none_iff _).mp fails
      rw [ne_eq, List.drop_eq_nil_iff]
      omega

/-- `utf8.codepoint(s, 1, -1)` wants a stack slot for every byte of the string. -/
theorem utf8Codepoint_all (ks : List CodePoint) :
    if (encode ks).length + 3 ≤ 8000 then
      utf8Codepoint 3 (encode ks) (some 1) (some (-1)) = .ok (ks.map Subtype.val)
    else ∃ msg, utf8Codepoint 3 (encode ks) (some 1) (some (-1)) = .error (.msg msg) := by
  have loop := utf8CodepointLoop_encode [] ks
  rw [List.nil_append, List.length_nil] at loop
  generalize encode ks = s at loop
  have first : uPosrelat 1 s.length = 1 := rfl
  have last : uPosrelat (-1) s.length = s.length := by
    unfold uPosrelat
    split
    · omega
    · split <;> omega
  have value : utf8Codepoint 3 s (some 1) (some (-1)) =
      if (1 : Int) > s.length then .ok []
      else if (s.length : Int) - 1 ≥ 2147483647 then .error (.msg "string slice too long")
      else if !luaCheckstack (3 : Nat) (s.length - 1 + 1) then
        .error (.msg "stack overflow (string slice too long)")
      else .ok (ks.map Subtype.val) := by
    simp only [utf8Codepoint, Option.getD_some, first, last, Int.toNat_natCast, sub_self,
      Int.toNat_zero, loop]
    rw [if_neg (by decide), if_neg (by omega)]
  have checks : luaCheckstack (3 : Nat) (s.length - 1 + 1) = decide (s.length + 3 ≤ 8000) := by
    rw [Bool.eq_iff_iff]
    simp [luaCheckstack, LUAI_MAXCSTACK]
    omega
  rw [value, checks]
  by_cases fits : s.length + 3 ≤ 8000
  · rw [if_pos fits]
    split
    · next empty =>
        rw [utf8CodepointLoop, if_neg (by omega)] at loop
        exact loop
    · simp [fits]
      omega
  · rw [if_neg fits, if_neg (by omega)]
    split
    · exact ⟨_, rfl⟩
    · exact ⟨"stack overflow (string slice too long)", by simp [fits]⟩

/-- `utf8.char` is undone by `utf8.len`, `utf8.codes` and, while the stack has a
slot for every byte, `utf8.codepoint`; `utf8.len` refuses every other string. -/
theorem utf8_inverse :
    (∀ ks : List CodePoint, ∃ s, tvmWchar (ks.map fun k => (k.val : Int)) = .ok s ∧
      utf8Len s none none = .ok (.chars ks.length) ∧ CodesVisits s (startPairs 1 ks) ∧
      if s.length + 3 ≤ 8000 then
        utf8Codepoint 3 s (some 1) (some (-1)) = .ok (ks.map Subtype.val)
      else ∃ msg, utf8Codepoint 3 s (some 1) (some (-1)) = .error (.msg msg)) ∧
    ∀ s : GCstr,
      (∃ ks : List CodePoint, tvmWchar (ks.map fun k => (k.val : Int)) = .ok s ∧
        utf8Len s none none = .ok (.chars ks.length)) ∨
      ((¬∃ ks : List CodePoint, tvmWchar (ks.map fun k => (k.val : Int)) = .ok s) ∧
        ∃ q : Nat, FailsAt s q ∧ utf8Len s none none = .ok (.invalid (q + 1))) := by
  have counts (ks : List CodePoint) : utf8Len (encode ks) none none = .ok (.chars ks.length) := by
    have loop := utf8LenLoop_encode [] ks 0
    rw [List.nil_append, List.length_nil, Nat.zero_add] at loop
    rw [utf8Len_eq, loop]
  constructor
  · intro ks
    exact ⟨encode ks, tvmWchar_codePoints ks, counts ks, visits_encode [] ks rfl,
      utf8Codepoint_all ks⟩
  · intro s
    rcases utf8Len_cases s with ⟨ks, rfl, length⟩ | ⟨q, fails, invalid⟩
    · exact .inl ⟨ks, tvmWchar_codePoints ks, length⟩
    · refine .inr ⟨?_, q, fails, invalid⟩
      rintro ⟨ks, isChars⟩
      rw [tvmWchar_codePoints] at isChars
      cases isChars
      rw [counts] at invalid
      cases invalid

/-- 2001 code points of four bytes each do not fit. -/
theorem utf8_codepoint_overflows :
    ¬∀ ks : List CodePoint, ∃ s, tvmWchar (ks.map fun k => (k.val : Int)) = .ok s ∧
      utf8Codepoint 3 s (some 1) (some (-1)) = .ok (ks.map Subtype.val) := by
  intro claim
  obtain ⟨ks, length⟩ : ∃ ks : List CodePoint, (encode ks).length = 8004 :=
    ⟨List.replicate 2001 ⟨0x10000, by decide⟩, encode_replicate_length _ _⟩
  obtain ⟨s, isChars, decoded⟩ := claim ks
  rw [tvmWchar_codePoints] at isChars
  cases isChars
  have overflow := utf8Codepoint_all ks
  rw [if_neg (by omega)] at overflow
  obtain ⟨msg, fails⟩ := overflow
  rw [fails] at decoded
  cases decoded

end TvmJit
