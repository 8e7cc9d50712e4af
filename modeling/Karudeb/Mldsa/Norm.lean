import Karudeb.Lib.Short
import Karudeb.Mldsa.PolyvecSpec
import Karudeb.Mldsa.Short

/-!
# ML-DSA: norms

* `cent` : the centred representative of a coefficient, whose size the norm of the
  standard is about.
* `cent_lt_iff` : a norm test on what `reduce32` leaves is one on centred
  representatives, although those may differ.
* `challenge_mul_le` : a challenge times a secret polynomial is at most `beta`.
-/

namespace Mldsa

open Negacyclic Fips204

variable {w : Rq} {j : ℕ} {x b : ℤ}

/-! ## Centred representatives -/

/-- Coefficient `j` of `w`, from `-(q - 1) / 2` to `(q - 1) / 2`. -/
noncomputable def cent (w : Rq) (j : ℕ) : ℤ := modPm (std w j) 8380417

theorem normLt_iff {b : ℤ} : NormLt w b ↔ ∀ j < 256, |cent w j| < b := Iff.rfl

/-- `x` is a representative of coefficient `j`. -/
def IsRep (w : Rq) (j : ℕ) (x : ℤ) : Prop := (x : Zq) = coeff degree_pos w j

theorem IsRep.emod (hx : IsRep w j x) : x % 8380417 = std w j := by
  have h : x % ((8380417 : ℕ) : ℤ) = std w j := by
    rw [std, ← hx, ZMod.val_intCast]
  exact h

theorem IsRep.modPm_eq (hx : IsRep w j x) : cent w j = modPm x 8380417 := by
  have hstd := std_range w j
  unfold cent modPm
  rw [hx.emod, Int.emod_eq_of_lt hstd.1 hstd.2]

theorem isRep_cent (w : Rq) (j : ℕ) : IsRep w j (cent w j) := by
  have hstd : ((std w j : ℤ) : Zq) = coeff degree_pos w j := by
    rw [std, Int.cast_natCast]
    exact ZMod.natCast_zmod_val _
  have hmod : ((std w j % 8380417 : ℤ) : Zq) = std w j := by
    rw [Int.emod_eq_of_lt (std_range w j).1 (std_range w j).2]
  unfold IsRep cent modPm
  split
  · rw [hmod, hstd]
  · rw [Int.cast_sub, hmod, hstd]
    exact sub_eq_self.2 rfl

theorem isRep_std (w : Rq) (j : ℕ) : IsRep w j (std w j) := by
  rw [IsRep, std, Int.cast_natCast]
  exact ZMod.natCast_zmod_val _

/-- Representatives differ by a multiple of `q`. -/
theorem IsRep.dvd {y : ℤ} (hx : IsRep w j x) (hy : IsRep w j y) : (8380417 : ℤ) ∣ x - y := by
  have h : x % 8380417 = y % 8380417 := hx.emod.trans hy.emod.symm
  omega

/-- What differs from a representative by a multiple of `q` is one. -/
theorem IsRep.of_dvd {y : ℤ} (hx : IsRep w j x) (h : (8380417 : ℤ) ∣ x - y) : IsRep w j y := by
  have hcast := (ZMod.intCast_zmod_eq_zero_iff_dvd (x - y) 8380417).2 h
  rw [Int.cast_sub, sub_eq_zero] at hcast
  exact hcast.symm.trans hx

/-- A small representative is the centred one. -/
theorem IsRep.cent_eq (hx : IsRep w j x) (h : |x| ≤ 4190208) : cent w j = x := by
  obtain ⟨h1, h2⟩ := abs_le.1 h
  rw [hx.modPm_eq]
  unfold modPm
  split
  · omega
  · omega

/-- **The norm test** on what `reduce32` leaves. -/
theorem cent_lt_iff (hx : IsRep w j x) (hle : |x| ≤ 6283009) (hb : b ≤ 1047552) :
    |x| < b ↔ |cent w j| < b := by
  constructor
  · intro h
    rwa [hx.cent_eq (by omega)]
  · intro h
    have hdvd := hx.dvd (isRep_cent w j)
    obtain ⟨h1, h2⟩ := abs_le.1 hle
    obtain ⟨h3, h4⟩ := abs_lt.1 h
    have heq : x = cent w j := by omega
    rwa [heq]

theorem IsRep.add {w' : Rq} {y : ℤ} (hx : IsRep w j x) (hy : IsRep w' j y) :
    IsRep (w + w') j (x + y) := by
  rw [IsRep, Negacyclic.coeff_add, Int.cast_add, hx, hy]

theorem IsRep.sub {w' : Rq} {y : ℤ} (hx : IsRep w j x) (hy : IsRep w' j y) :
    IsRep (w - w') j (x - y) := by
  rw [IsRep, Negacyclic.coeff_sub, Int.cast_sub, hx, hy]

theorem isRep_ofInts (f : ℕ → ℤ) (hj : j < 256) : IsRep (ofInts f) j (f j) :=
  (coeff_ofCoeffs degree_pos (fun k => (f k : Zq)) hj).symm

/-! ## Challenges -/

/-- The coefficients of a short element are small. -/
theorem abs_cent_of_isShort (hw : IsShort b w) (hb : b ≤ 4190208) (hj : j < 256) :
    |cent w j| ≤ b := by
  obtain ⟨f, hf, rfl⟩ := hw
  have heq : cent (ofInts f) j = f j := (isRep_ofInts f hj).cent_eq ((hf j hj).trans hb)
  exact heq ▸ hf j hj

/-- The absolute values of a challenge sum up to `tau`. -/
theorem sum_abs_challenge {H : Hash} {tau : ℕ} (htau : tau ≤ 256) {rho : List UInt8} {c : ℕ → ℤ}
    (hc : SampleInBall H tau rho c) : ∑ k ∈ Finset.range 256, |c k| = tau := by
  obtain ⟨hcard, hsign⟩ := sampleInBall_weight htau hc
  have hone : ∀ k ∈ Finset.range 256, |c k| = if c k ≠ 0 then 1 else 0 := by
    intro k hk
    rcases hsign k (Finset.mem_range.1 hk) with h | h | h
    · rw [h, abs_zero, if_neg (not_not.2 rfl)]
    · rw [h, abs_one, if_pos one_ne_zero]
    · rw [h, abs_neg, abs_one, if_pos (by norm_num)]
  rw [Finset.sum_congr rfl hone, ← Finset.sum_filter, Finset.sum_const, nsmul_eq_mul, mul_one]
  exact congrArg Nat.cast hcard

/-- **A challenge times a secret polynomial** is at most `beta`. -/
theorem challenge_mul_le (i : Fin 3) {H : Hash} {rho : List UInt8} {c s : ℕ → ℤ}
    (hc : SampleInBall H (mldsaPar i).tau rho c) (hs : ∀ j < 256, |s j| ≤ (mldsaPar i).eta)
    (hj : j < 256) : |cent (ofInts c * ofInts s) j| ≤ (mldsaPar i).beta := by
  have hbeta : ((mldsaPar i).tau : ℤ) * (mldsaPar i).eta = (mldsaPar i).beta ∧
      ((mldsaPar i).beta : ℤ) ≤ 4190208 := by
    fin_cases i <;> decide
  have htau := tau_le i
  have hshort := isShort_mul c (show IsShort (mldsaPar i).eta (ofInts s) from ⟨s, hs, rfl⟩)
  rw [sum_abs_challenge (by omega) hc, hbeta.1] at hshort
  exact abs_cent_of_isShort hshort hbeta.2 hj

end Mldsa
