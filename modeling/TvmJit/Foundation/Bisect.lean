import TvmJit.Foundation.Fuel
import Mathlib.Tactic.Ring

/-! Searches for a place where what is there ends, over unsigned indices that wrap around. -/

namespace Foundation

variable {ε : Type} {w : Nat}

/-- Looks up whether something is there. -/
abbrev Lookup (ε : Type) (w : Nat) := BitVec w → Fueled ε Bool

/-- Halves the distance from `i`, which is below the end, to `j`, which is not. -/
def bisect (present : Lookup ε w) : Nat → BitVec w → BitVec w → Fueled ε (BitVec w)
  | 0, _, _ => ExceptT.mk none
  | fuel + 1, i, j =>
      if j - i > 1 then do
        let m := (i + j) / 2
        if ← present m then bisect present fuel m j else bisect present fuel i m
      else pure i

/-- Goes on to the first place with nothing there. -/
def firstAbsent (present : Lookup ε w) : Nat → BitVec w → Fueled ε (BitVec w)
  | 0, _ => ExceptT.mk none
  | fuel + 1, i => do if ← present i then firstAbsent present fuel (i + 1) else pure i

variable {present : Lookup ε w} {found : Nat → Bool} {i j : BitVec w}

theorem toNat_literal {k : Nat} (fits : k < 2 ^ w) : (BitVec.ofNat w k).toNat = k := by
  rw [BitVec.toNat_ofNat, Nat.mod_eq_of_lt fits]

theorem toNat_middle (ordered : i.toNat + 1 < j.toNat) (fits : i.toNat + j.toNat < 2 ^ w) :
    ((i + j) / 2).toNat = (i.toNat + j.toNat) / 2 := by
  have two : (2 : BitVec w).toNat = 2 := toNat_literal (k := 2) (by omega)
  rw [BitVec.toNat_udiv, BitVec.toNat_add, two, Nat.mod_eq_of_lt fits]

/-- Whether there is a place between. -/
theorem sub_gt_one (ordered : i.toNat < j.toNat) : j - i > 1 ↔ i.toNat + 1 < j.toNat := by
  have small := j.isLt
  have one : (1 : BitVec w).toNat = 1 := toNat_literal (k := 1) (by omega)
  have distance : (j - i).toNat = j.toNat - i.toNat := BitVec.toNat_sub_of_le (Nat.le_of_lt ordered)
  change (1 : BitVec w).toNat < (j - i).toNat ↔ _
  omega

/-- The search ends at a border: what is good of the first place and of all where something is
there is good of the result, and there is nothing behind it. -/
theorem bisect_settles (good : Nat → Prop) (present_good : ∀ n, found n = true → good n)
    (reads : ∀ m : BitVec w, i.toNat < m.toNat → m.toNat < j.toNat → present m = pure (found m.toNat))
    (ordered : i.toNat < j.toNat) (fits : 2 * j.toNat ≤ 2 ^ w) (low : good i.toNat)
    (high : found j.toNat = false) :
    ∃ n, Settles (bisect present · i j) (.ok n) ∧ good n.toNat ∧ found (n.toNat + 1) = false := by
  obtain ⟨distance, isDistance⟩ : ∃ d, d = j.toNat - i.toNat := ⟨_, rfl⟩
  induction distance using Nat.strong_induction_on generalizing i j with
  | _ distance induction =>
      by_cases apart : i.toNat + 1 < j.toNat
      · have middle := toNat_middle apart (by omega)
        have far := (sub_gt_one ordered).mpr apart
        have halves (fuel : Nat) : bisect present (fuel + 1) i j =
            present ((i + j) / 2) >>= fun there =>
              if there then bisect present fuel ((i + j) / 2) j else bisect present fuel i ((i + j) / 2) := by
          rw [bisect, if_pos far]
        generalize (i + j) / 2 = m at middle halves
        rw [reads m (by omega) (by omega)] at halves
        cases there : found m.toNat with
        | true =>
            have ⟨n, settles, border⟩ := induction (j.toNat - m.toNat) (by omega)
              (fun m' above below => reads m' (by omega) below) (by omega) (by omega)
              (present_good _ there) high rfl
            refine ⟨n, settles.succ fun fuel => ?_, border⟩
            rw [halves, there]
            rfl
        | false =>
            have ⟨n, settles, border⟩ := induction (m.toNat - i.toNat) (by omega)
              (fun m' above below => reads m' above (by omega)) (by omega) (by omega) low there rfl
            refine ⟨n, settles.succ fun fuel => ?_, border⟩
            rw [halves, there]
            rfl
      · have next : j.toNat = i.toNat + 1 := by omega
        have near : ¬j - i > 1 := fun far => apart ((sub_gt_one ordered).mp far)
        have stops : Settles (fun _ => (pure i : Fueled ε (BitVec w))) (.ok i) := .pure
        refine ⟨i, stops.succ fun fuel => ?_, low, next ▸ high⟩
        rw [bisect, if_neg near]

/-- There is something at all places that the search has passed. -/
theorem firstAbsent_settles {last : Nat}
    (reads : ∀ m : BitVec w, i.toNat ≤ m.toNat → m.toNat ≤ last → present m = pure (found m.toNat))
    (ahead : i.toNat ≤ last) (fits : last < 2 ^ w) (ends : found last = false) :
    ∃ n, Settles (firstAbsent present · i) (.ok n) ∧ found n.toNat = false ∧ i.toNat ≤ n.toNat ∧
      n.toNat ≤ last ∧ ∀ m, i.toNat ≤ m → m < n.toNat → found m = true := by
  obtain ⟨distance, isDistance⟩ : ∃ d, d = last - i.toNat := ⟨_, rfl⟩
  induction distance using Nat.strong_induction_on generalizing i with
  | _ distance induction =>
      have here := reads i (Nat.le_refl _) ahead
      cases there : found i.toNat with
      | true =>
          have before : i.toNat ≠ last := by
            intro isLast
            rw [isLast, ends] at there
            cases there
          have next : (i + 1).toNat = i.toNat + 1 := by
            have one : (1 : BitVec w).toNat = 1 := toNat_literal (k := 1) (by omega)
            rw [BitVec.toNat_add, one, Nat.mod_eq_of_lt (by omega)]
          have ⟨n, settles, absent, above, below, passed⟩ := induction (last - (i + 1).toNat) (by omega)
            (fun m above below => reads m (by omega) below) (by omega) rfl
          refine ⟨n, settles.succ fun fuel => ?_, absent, by omega, below, fun m low high => ?_⟩
          · rw [firstAbsent, here, there]
            rfl
          · rcases Nat.eq_or_lt_of_le low with rfl | later
            · exact there
            · exact passed m (by omega) high
      | false =>
          have stops : Settles (fun _ => (pure i : Fueled ε (BitVec w))) (.ok i) := .pure
          refine ⟨i, stops.succ fun fuel => ?_, there, Nat.le_refl _, ahead, fun m low high => ?_⟩
          · rw [firstAbsent, here, there]
            rfl
          · omega

end Foundation
