import Karudeb.Lib.Checked
import Mathlib.Data.ZMod.Basic

/-!
# ML-DSA: parameters and reductions

The constants of the parameter sets and the three scalar reductions everything
else is built of.  The functions record what their headers ask of an argument:
`montgomeryReduce` wants `|a| < 2^31 * Q`, `reduce32` wants
`a ≤ 2^31 - 2^22 - 1`.

* `montgomeryReduce_spec` : on such an argument nothing overflows and the result
  is Montgomery's.
* `reduce32_spec`, `caddq_spec` : the representatives that come out.
-/

namespace Mldsa

open Word

/-! ## Parameters -/

/-- `MLDSA_PAR_Q`. -/
abbrev parQ : ℤ := 8380417

/-- `MLDSA_PAR_QINV`, the inverse of `parQ` modulo `2^32`. -/
abbrev parQinv : ℤ := 58728449

/-- `MLDSA_PAR_D`, the number of bits `power2round` drops. -/
abbrev parD : ℕ := 13

/-- `mldsa_param_t`. -/
structure MldsaParam where
  /-- Rows of the matrix. -/
  k : ℕ
  /-- Columns of the matrix. -/
  ell : ℕ
  /-- Bound on the secret coefficients. -/
  eta : ℕ
  /-- Weight of the challenge. -/
  tau : ℕ
  /-- `tau * eta`. -/
  beta : ℕ
  /-- Bound on the mask coefficients. -/
  gamma1 : ℕ
  /-- Half the step of the high bits. -/
  gamma2 : ℕ
  /-- Bound on the weight of the hint. -/
  omega : ℕ
  /-- Bytes of the challenge seed. -/
  cpSz : ℕ
  /-- Bytes of a packed polynomial of `z`. -/
  pzpSz : ℕ
  /-- Bytes of a packed polynomial of `w1`. -/
  w1pSz : ℕ
  /-- Bytes of a packed polynomial of `s1` or `s2`. -/
  etaSz : ℕ
  /-- Bytes of a secret key. -/
  skSz : ℕ
  /-- Bytes of a public key. -/
  pkSz : ℕ
  /-- Bytes of a signature. -/
  sigSz : ℕ

/-- `mldsa_44`. -/
def mldsa44 : MldsaParam where
  k := 4
  ell := 4
  eta := 2
  tau := 39
  beta := 78
  gamma1 := 1 <<< 17
  gamma2 := (8380417 - 1) / 88
  omega := 80
  pzpSz := 576
  w1pSz := 192
  etaSz := 96
  cpSz := 32
  skSz := 2560
  pkSz := 1312
  sigSz := 2420

/-- `mldsa_65`. -/
def mldsa65 : MldsaParam where
  k := 6
  ell := 5
  eta := 4
  tau := 49
  beta := 196
  gamma1 := 1 <<< 19
  gamma2 := (8380417 - 1) / 32
  omega := 55
  pzpSz := 640
  w1pSz := 128
  etaSz := 128
  cpSz := 48
  skSz := 4032
  pkSz := 1952
  sigSz := 3309

/-- `mldsa_87`. -/
def mldsa87 : MldsaParam where
  k := 8
  ell := 7
  eta := 2
  tau := 60
  beta := 120
  gamma1 := 1 <<< 19
  gamma2 := (8380417 - 1) / 32
  omega := 75
  pzpSz := 640
  w1pSz := 128
  etaSz := 96
  cpSz := 64
  skSz := 4896
  pkSz := 2592
  sigSz := 4627

/-- `mldsa_par`. -/
def mldsaPar : Fin 3 → MldsaParam
  | 0 => mldsa44
  | 1 => mldsa65
  | 2 => mldsa87

theorem eta_cases (i : Fin 3) : (mldsaPar i).eta = 2 ∨ (mldsaPar i).eta = 4 := by
  fin_cases i <;> decide

theorem gamma1_cases (i : Fin 3) :
    (mldsaPar i).gamma1 = 2 ^ 17 ∨ (mldsaPar i).gamma1 = 2 ^ 19 := by
  fin_cases i <;> decide

theorem tau_le (i : Fin 3) : (mldsaPar i).tau ≤ 64 := by
  fin_cases i <;> decide

theorem gamma2_cases (i : Fin 3) :
    (mldsaPar i).gamma2 = 95232 ∨ (mldsaPar i).gamma2 = 261888 := by
  fin_cases i <;> decide

/-! ## Reductions -/

/-- `montgomery_reduce`. -/
def montgomeryReduce (a : ℤ) : Chk ℤ := do
  Chk.require (decide (-(2 ^ 31 * parQ) < a ∧ a < 2 ^ 31 * parQ))
  let t ← Chk.word 64 (wrap 32 a * parQinv)
  let t := wrap 32 t
  let p ← Chk.word 64 (t * parQ)
  let d ← Chk.word 64 (a - p)
  pure (wrap 32 (d / 2 ^ 32))

/-- `reduce32`. -/
def reduce32 (a : ℤ) : Chk ℤ := do
  Chk.require (decide (a ≤ 2 ^ 31 - 2 ^ 22 - 1))
  let s ← Chk.word 32 (a + 2 ^ 22)
  let t := s / 2 ^ 23
  let p ← Chk.word 32 (t * parQ)
  Chk.word 32 (a - p)

/-- `caddq`. -/
def caddq (a : ℤ) : Chk ℤ :=
  Chk.word 32 (a + land 32 (a / 2 ^ 31) parQ)

/-! ## What they compute -/

/-- The coefficient ring. -/
abbrev Zq : Type := ZMod 8380417

instance factOneLtParQ : Fact (1 < 8380417) := ⟨by norm_num⟩

theorem parQinv_mul : parQinv * parQ ≡ 1 [ZMOD 2 ^ 32] := by decide

theorem cast_parQ : ((parQ : ℤ) : Zq) = 0 := by
  have h := (ZMod.intCast_zmod_eq_zero_iff_dvd parQ 8380417).2
  exact h (by decide)

/-- The quotient of `montgomery_reduce` by its own steps is Montgomery's. -/
theorem montgomeryReduce_low (a : ℤ) :
    wrap 32 (wrap 32 a * 58728449) = wrap 32 (a * 58728449) :=
  wrap_congr ((wrap_modEq 32 a).mul_right 58728449)

/-- **`montgomery_reduce` divides by `2^32`**, and nothing overflows on the way. -/
theorem montgomeryReduce_spec {a : ℤ} (h1 : -(2 ^ 31 * parQ) < a) (h2 : a < 2 ^ 31 * parQ) :
    Chk.Holds (montgomeryReduce a) fun t =>
      (t : Zq) * 2 ^ 32 = (a : Zq) ∧ t * 2 ^ 32 ≤ a + 2 ^ 31 * parQ ∧
        a - (2 ^ 31 - 1) * parQ ≤ t * 2 ^ 32 := by
  have hle := montRed_le parQinv_mul (by norm_num) (by norm_num) a
  have hge := le_montRed parQinv_mul (by norm_num) (by norm_num) a
  have hcast := cast_montRed parQinv_mul cast_parQ a
  obtain ⟨hl1, hl2⟩ := fits_32.1 (fits_wrap (show 0 < 32 by norm_num) a)
  obtain ⟨ht1, ht2⟩ := fits_32.1 (fits_wrap (show 0 < 32 by norm_num) (a * parQinv))
  simp only [parQ, parQinv] at *
  have hlow : Chk.word 64 (wrap 32 a * 58728449) = pure (wrap 32 a * 58728449) :=
    Chk.word64 (by omega) (by omega)
  have hprod : Chk.word 64 (wrap 32 (a * 58728449) * 8380417) =
      pure (wrap 32 (a * 58728449) * 8380417) :=
    Chk.word64 (by omega) (by omega)
  have hdiff : Chk.word 64 (a - wrap 32 (a * 58728449) * 8380417) =
      pure (a - wrap 32 (a * 58728449) * 8380417) :=
    Chk.word64 (by omega) (by omega)
  have hres : wrap 32 (montRed 32 8380417 58728449 a) = montRed 32 8380417 58728449 a :=
    wrap_of_fits (by norm_num) (fits_32.2 ⟨by omega, by omega⟩)
  have hval : montgomeryReduce a = pure (montRed 32 8380417 58728449 a) := by
    unfold montgomeryReduce
    simp only [parQ, parQinv]
    rw [Chk.require_true (by simp only [decide_eq_true_eq]; exact ⟨h1, h2⟩), pure_bind, hlow,
      pure_bind, montgomeryReduce_low, hprod, pure_bind, hdiff, pure_bind]
    exact congrArg pure hres
  rw [hval]
  exact Chk.Holds.pure ⟨hcast, hle, hge⟩

/-- On an argument up to its bound nothing in `reduce32` overflows. -/
theorem reduce32_eq {a : ℤ} (h1 : -2 ^ 31 ≤ a) (h2 : a ≤ 2 ^ 31 - 2 ^ 22 - 1) :
    reduce32 a = pure (a - (a + 2 ^ 22) / 2 ^ 23 * parQ) := by
  simp only [parQ]
  have hs : Chk.word 32 (a + 2 ^ 22) = pure (a + 2 ^ 22) := Chk.word32 (by omega) (by omega)
  have hp : Chk.word 32 ((a + 2 ^ 22) / 2 ^ 23 * 8380417) =
      pure ((a + 2 ^ 22) / 2 ^ 23 * 8380417) := Chk.word32 (by omega) (by omega)
  have hr : Chk.word 32 (a - (a + 2 ^ 22) / 2 ^ 23 * 8380417) =
      pure (a - (a + 2 ^ 22) / 2 ^ 23 * 8380417) := Chk.word32 (by omega) (by omega)
  unfold reduce32
  simp only [parQ]
  rw [Chk.require_true (by simpa using h2), pure_bind, hs, pure_bind, hp, pure_bind, hr]

/-- **`reduce32` gives a representative** below `Q` in absolute value. -/
theorem reduce32_spec {a : ℤ} (h1 : -2 ^ 31 ≤ a) (h2 : a ≤ 2 ^ 31 - 2 ^ 22 - 1) :
    Chk.Holds (reduce32 a) fun r =>
      (r : Zq) = (a : Zq) ∧ -6283009 ≤ r ∧ r ≤ 6283008 := by
  have hq := cast_parQ
  rw [reduce32_eq h1 h2]
  simp only [parQ] at *
  refine Chk.Holds.pure ⟨?_, by omega, by omega⟩
  rw [Int.cast_sub, Int.cast_mul, hq, mul_zero, sub_zero]

/-- `caddq` adds `Q` to a negative argument. -/
theorem caddq_eq {a : ℤ} (h1 : -2 ^ 31 ≤ a) (h2 : a < 2 ^ 31) :
    caddq a = pure (if a < 0 then a + parQ else a) := by
  unfold caddq
  simp only [parQ]
  split
  · have hm : a / 2 ^ 31 = -1 := by omega
    rw [hm, land_neg_one (by norm_num), wrap_of_fits (by norm_num) (by decide)]
    exact Chk.word32 (by omega) (by omega)
  · have hm : a / 2 ^ 31 = 0 := by omega
    rw [hm, land_zero, add_zero]
    exact Chk.word32 (by omega) (by omega)

/-- **`caddq` gives the standard representative** of an argument above `-Q`. -/
theorem caddq_spec {a : ℤ} (h1 : -parQ < a) (h2 : a < parQ) :
    Chk.Holds (caddq a) fun r => (r : Zq) = (a : Zq) ∧ 0 ≤ r ∧ r < parQ := by
  have hq := cast_parQ
  simp only [parQ] at *
  rw [caddq_eq (by omega) (by omega)]
  simp only [parQ]
  refine Chk.Holds.pure ⟨?_, ?_, ?_⟩
  · split
    · rw [Int.cast_add, hq, add_zero]
    · rfl
  · split <;> omega
  · split <;> omega

end Mldsa
