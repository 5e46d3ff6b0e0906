import TvmJit.Scan.Slow
import TvmJit.Foundation.Digits

/-! What the parsers for the bases make of digits without a point. -/

namespace TvmJit.Scan

open Foundation

/-- The bits of an integer format. -/
def StrScanFmt.width : StrScanFmt → Option Nat
  | int | u32 => some 32
  | i64 | u64 => some 64
  | _ => none

/-- What may be returned for an integer, where the suffix asks for a format: an integer format only
with the integer itself, of the bits that are asked for, and an error where the integer does not fit
and no double is possible. -/
structure Exact (opt : Options) (fmt : StrScanFmt) (neg : Bool) (v : Nat) (r : StrScanFmt × TValue) : Prop where
  stored : ∀ w ∈ r.1.width, v < 2 ^ w ∧ r.2.setWidth w = BitVec.ofInt w (signed neg v)
  range : r.1 = .int → -2 ^ 31 ≤ signed neg v ∧ signed neg v < 2 ^ 31
  format : r.1 = .error ∨ r.1 = .num ∨ r.1.width = fmt.width
  refused : fmt ≠ .int ∨ opt.has STRSCAN_OPT_C → ∀ w ∈ fmt.width, 2 ^ w ≤ v → r.1 = .error

/-- What may be returned before doubles are converted to integers. -/
structure Scanned (opt : Options) (fmt : StrScanFmt) (neg : Bool) (v : Nat) (r : StrScanFmt × TValue) : Prop
    extends Exact opt fmt neg v r where
  double : r.1 = .num → fmt = .int ∧ opt.has STRSCAN_OPT_C = false ∧ IsDouble neg v r.2

section

variable {opt : Options} {fmt : StrScanFmt} {neg : Bool} {v : Nat}

theorem Exact.error (o : TValue) : Exact opt fmt neg v (.error, o) where
  stored := nofun
  range := nofun
  format := .inl rfl
  refused := fun _ _ _ _ => rfl

theorem Scanned.error (o : TValue) : Scanned opt fmt neg v (.error, o) where
  toExact := .error o
  double := nofun

/-- A double without a format that has been asked for. -/
theorem Scanned.num {n : Num} (plain : opt.has STRSCAN_OPT_C = false) (isDouble : IsDouble neg v n) :
    Scanned opt .int neg v (.num, n) where
  stored := nofun
  range := nofun
  format := .inr (.inl rfl)
  refused := by
    intro asked
    rcases asked with other | c
    · exact absurd rfl other
    · rw [plain] at c
      cases c
  double := fun _ => ⟨rfl, plain, isDouble⟩

theorem negated_ofNat {w : Nat} (neg : Bool) (v : Nat) : negated neg (BitVec.ofNat w v) = BitVec.ofInt w (signed neg v) := by
  cases neg
  · exact (BitVec.ofInt_natCast w v).symm
  · change -BitVec.ofNat w v = BitVec.ofInt w (-(v : Int))
    rw [BitVec.ofInt_neg, BitVec.ofInt_natCast]

theorem limit_eq (neg : Bool) : (limit neg).toNat = 2 ^ 31 + neg.toNat := by cases neg <;> rfl

theorem signed_range (below : v < 2 ^ 31 + neg.toNat) : -2 ^ 31 ≤ signed neg v ∧ signed neg v < 2 ^ 31 := by
  cases neg with
  | false =>
      have plain : signed false v = v := rfl
      have zero : false.toNat = 0 := rfl
      omega
  | true =>
      have negative : signed true v = -v := rfl
      have one : true.toNat = 1 := rfl
      omega

/-- An integer of 32 bits is stored. -/
theorem exact_32 (fmt' : StrScanFmt) (o : TValue) (isWidth : fmt'.width = some 32) (small : v < 2 ^ 32)
    (range : fmt' = .int → v < 2 ^ 31 + neg.toNat) (width : fmt.width = some 32) :
    Exact opt fmt neg v (fmt', o.setI (negated neg (BitVec.ofNat 32 v))) where
  stored := by
    intro w isW
    dsimp only at isW
    rw [isWidth] at isW
    cases isW
    exact ⟨small, by rw [TValue.setI_low, negated_ofNat]⟩
  range := by
    intro isInt
    have below := range isInt
    exact signed_range below
  format := .inr (.inr (isWidth.trans width.symm))
  refused := by
    intro _ w isW large
    rw [width] at isW
    cases isW
    omega

/-- An integer of 64 bits is stored. -/
theorem exact_64 (small : v < 2 ^ 64) (width : fmt.width = some 64) :
    Exact opt fmt neg v (fmt, negated neg (BitVec.ofNat 64 v)) where
  stored := by
    intro w isW
    dsimp only at isW
    rw [width] at isW
    cases isW
    exact ⟨small, by rw [BitVec.setWidth_eq, negated_ofNat]⟩
  range := by
    intro isInt
    dsimp only at isInt
    rw [isInt] at width
    cases width
  format := .inr (.inr rfl)
  refused := by
    intro _ w isW large
    rw [width] at isW
    cases isW
    omega

/-- The format-specific handling of an integer that fits 64 bits, or is large. -/
theorem formatInteger_exact {x : BitVec 64} {fits32 fits64 : Bool} {o : TValue} (isInteger : fmt.width ≠ none)
    (small : v < 2 ^ 64 → x = .ofNat 64 v) (large : 2 ^ 64 ≤ v → 2 ^ 32 ≤ x.toNat)
    (is32 : fits32 = decide (v < 2 ^ 32)) (is64 : fits64 = decide (v < 2 ^ 64) ∨ fits64 = true ∧ v < 2 ^ 64) :
    (formatInteger opt fmt neg fits32 fits64 x o).elim (Scanned opt fmt neg v) fun fmt' =>
      fmt' = .num ∧ fmt = .int ∧ opt.has STRSCAN_OPT_C = false := by
  have is64 : fits64 = decide (v < 2 ^ 64) := by
    rcases is64 with same | ⟨yes, below⟩
    · exact same
    · rw [yes, decide_eq_true below]
  have low (below : v < 2 ^ 64) : x.setWidth 32 = .ofNat 32 v := by
    rw [small below, BitVec.setWidth_ofNat_of_le (by decide)]
  have unsigned (width : fmt.width = some 32) : Scanned opt fmt neg v
      (if fits32 then (.u32, o.setI (negated neg (x.setWidth 32))) else (.error, o)) := by
    rw [is32]
    split
    · next fits =>
        have below : v < 2 ^ 32 := of_decide_eq_true fits
        rw [low (by omega)]
        exact { exact_32 .u32 o rfl below nofun width with double := nofun }
    · exact .error o
  have whole (width : fmt.width = some 64) : Scanned opt fmt neg v
      (if fits64 then (fmt, negated neg x) else (.error, o)) := by
    rw [is64]
    split
    · next fits =>
        have below : v < 2 ^ 64 := of_decide_eq_true fits
        rw [small below]
        refine { exact_64 below width with double := ?_ }
        intro isNum
        dsimp only at isNum
        rw [isNum] at width
        cases width
    · exact .error o
  cases fmt with
  | int =>
      rw [formatInteger]
      by_cases fits : ¬opt.has STRSCAN_OPT_TONUM ∧ x < limit neg
      · have below : x.toNat < 2 ^ 31 + neg.toNat := limit_eq neg ▸ fits.2
        have bound := neg.toNat_le
        have within : v < 2 ^ 64 := by
          by_contra beyond
          have far := large (by omega)
          omega
        rw [small within, BitVec.toNat_ofNat, Nat.mod_eq_of_lt within] at below
        rw [if_pos fits, low within]
        exact { exact_32 .int o rfl (by omega) (fun _ => below) rfl with double := nofun }
      · rw [if_neg fits]
        by_cases off : ¬opt.has STRSCAN_OPT_C
        · rw [if_pos off]
          exact ⟨rfl, rfl, Bool.eq_false_iff.mpr off⟩
        · rw [if_neg off]
          exact unsigned rfl
  | u32 => exact unsigned rfl
  | i64 => exact whole rfl
  | u64 => exact whole rfl
  | error => exact absurd rfl isInteger
  | num => exact absurd rfl isInteger
  | imag => exact absurd rfl isInteger

end

end TvmJit.Scan
