import Karudeb.Lib.Checked

/-!
# ML-KEM: parameters and modular reductions

The parameter sets of `mlkem.c` and the reductions of `reduce.h`, on integers
that stand for `int16_t` and `int32_t` values.

* `montgomeryReduce_spec` : the result is `a / 2^16` modulo `q`, and its size.
* `barrettReduce_spec` : the result is the centered representative.
* `fqmul_spec` : the product of two coefficients, by one Montgomery factor too
  small.
-/

namespace Mlkem

open Word

/-- `MLKEM_PAR_Q`. -/
abbrev parQ : ℤ := 3329

/-- `MLKEM_PAR_QINV`, the inverse of `parQ` modulo `2^16`. -/
abbrev parQinv : ℤ := -3327

/-- `MLKEM_PAR_ETA2`. -/
abbrev parEta2 : ℕ := 2

/-- `MLKEM_POLY_SZ`. -/
abbrev polySz : ℕ := 384

/-- `mlkem_param_t`. -/
structure MlkemParam where
  /-- Dimension of the module. -/
  k : ℕ
  /-- Width of the noise of the secret. -/
  eta1 : ℕ
  /-- Bits that a coefficient of the vector keeps in a ciphertext. -/
  du : ℕ
  /-- Bits that a coefficient of the message part keeps. -/
  dv : ℕ
  /-- Bytes of an encapsulation key. -/
  ekSz : ℕ
  /-- Bytes of a decapsulation key. -/
  dkSz : ℕ
  /-- Bytes of a ciphertext. -/
  ctSz : ℕ

/-- `mlkem_512`. -/
def mlkem512 : MlkemParam where
  k := 2
  eta1 := 3
  du := 10
  dv := 4
  ekSz := 800
  dkSz := 1632
  ctSz := 768

/-- `mlkem_768`. -/
def mlkem768 : MlkemParam where
  k := 3
  eta1 := 2
  du := 10
  dv := 4
  ekSz := 1184
  dkSz := 2400
  ctSz := 1088

/-- `mlkem_1024`. -/
def mlkem1024 : MlkemParam where
  k := 4
  eta1 := 2
  du := 11
  dv := 5
  ekSz := 1568
  dkSz := 3168
  ctSz := 1568

/-- `mlkem_par`. -/
def mlkemPar : Fin 3 → MlkemParam
  | 0 => mlkem512
  | 1 => mlkem768
  | 2 => mlkem1024

/-! ## Reductions -/

/-- `montgomery_reduce`. -/
def montgomeryReduce (a : ℤ) : Chk ℤ := do
  Chk.require (decide (-(2 ^ 15 * parQ) ≤ a ∧ a < 2 ^ 15 * parQ))
  let t ← Chk.word 32 (wrap 16 a * parQinv)
  let t := wrap 16 t
  let p ← Chk.word 32 (t * parQ)
  let d ← Chk.word 32 (a - p)
  pure (wrap 16 (d / 2 ^ 16))

/-- `barrett_reduce`. -/
def barrettReduce (a : ℤ) : Chk ℤ := do
  let v := (2 ^ 26 + parQ / 2) / parQ
  let p ← Chk.word 32 (v * a)
  let s ← Chk.word 32 (p + 2 ^ 25)
  let t := wrap 16 (s / 2 ^ 26)
  let t := wrap 16 (t * parQ)
  Chk.word 16 (a - t)

/-- `fqmul`. -/
def fqmul (a b : ℤ) : Chk ℤ := Chk.word 32 (a * b) >>= montgomeryReduce

/-- `basemul`, on the pairs `(a0, a1)` and `(b0, b1)`. -/
def basemul (a0 a1 b0 b1 zeta : ℤ) : Chk (ℤ × ℤ) := do
  let r0 ← fqmul a1 b1
  let r0 ← fqmul r0 zeta
  let p ← fqmul a0 b0
  let r0 ← Chk.word 16 (r0 + p)
  let r1 ← fqmul a0 b1
  let p ← fqmul a1 b0
  let r1 ← Chk.word 16 (r1 + p)
  pure (r0, r1)

/-! ## What they compute -/

/-- The coefficient ring. -/
abbrev Zq : Type := ZMod 3329

instance factOneLtParQ : Fact (1 < 3329) := ⟨by norm_num⟩

theorem parQinv_mul : parQinv * parQ ≡ 1 [ZMOD 2 ^ 16] := by decide

theorem cast_parQ : ((parQ : ℤ) : Zq) = 0 := by
  have h := (ZMod.intCast_zmod_eq_zero_iff_dvd parQ 3329).2
  exact h (by decide)

/-- The low word is the same if the argument is cut off first. -/
theorem montgomeryReduce_low (a : ℤ) : wrap 16 (wrap 16 a * -3327) = wrap 16 (a * -3327) :=
  wrap_congr ((wrap_modEq 16 a).mul_right (-3327))

/-- **`montgomery_reduce` divides by `2^16`**, and nothing overflows on the way. -/
theorem montgomeryReduce_spec {a : ℤ} (h1 : -(2 ^ 15 * parQ) ≤ a) (h2 : a < 2 ^ 15 * parQ) :
    Chk.Holds (montgomeryReduce a) fun t =>
      (t : Zq) * 2 ^ 16 = (a : Zq) ∧ t * 2 ^ 16 ≤ a + 2 ^ 15 * parQ ∧
        a - (2 ^ 15 - 1) * parQ ≤ t * 2 ^ 16 := by
  have hle := montRed_le parQinv_mul (by norm_num) (by norm_num) a
  have hge := le_montRed parQinv_mul (by norm_num) (by norm_num) a
  have hcast := cast_montRed parQinv_mul cast_parQ a
  obtain ⟨hl1, hl2⟩ := fits_16.1 (fits_wrap (show 0 < 16 by norm_num) a)
  obtain ⟨ht1, ht2⟩ := fits_16.1 (fits_wrap (show 0 < 16 by norm_num) (a * parQinv))
  simp only [parQ, parQinv] at *
  have hlow : Chk.word 32 (wrap 16 a * -3327) = pure (wrap 16 a * -3327) :=
    Chk.word32 (by omega) (by omega)
  have hprod : Chk.word 32 (wrap 16 (a * -3327) * 3329) = pure (wrap 16 (a * -3327) * 3329) :=
    Chk.word32 (by omega) (by omega)
  have hdiff : Chk.word 32 (a - wrap 16 (a * -3327) * 3329) =
      pure (a - wrap 16 (a * -3327) * 3329) := Chk.word32 (by omega) (by omega)
  have hres : wrap 16 (montRed 16 3329 (-3327) a) = montRed 16 3329 (-3327) a :=
    wrap_of_fits (by norm_num) (fits_16.2 ⟨by omega, by omega⟩)
  have hval : montgomeryReduce a = pure (montRed 16 3329 (-3327) a) := by
    unfold montgomeryReduce
    simp only [parQ, parQinv]
    rw [Chk.require_true (by simp only [decide_eq_true_eq]; exact ⟨h1, h2⟩), pure_bind, hlow,
      pure_bind, montgomeryReduce_low, hprod, pure_bind, hdiff, pure_bind]
    exact congrArg pure hres
  rw [hval]
  exact Chk.Holds.pure ⟨hcast, hle, hge⟩

/-- **`barrett_reduce` gives the centered representative**, and nothing overflows on the way. -/
theorem barrettReduce_spec {a : ℤ} (h : |a| ≤ 30000) :
    Chk.Holds (barrettReduce a) fun r => (r : Zq) = (a : Zq) ∧ |r| ≤ 1664 := by
  obtain ⟨h1, h2⟩ := abs_le.1 h
  have hv : ((2 : ℤ) ^ 26 + parQ / 2) / parQ = 20159 := by decide
  have hquot : wrap 16 ((20159 * a + 2 ^ 25) / 2 ^ 26) = (20159 * a + 2 ^ 25) / 2 ^ 26 :=
    wrap_of_fits (by norm_num) (fits_16.2 ⟨by omega, by omega⟩)
  have hprod : wrap 16 ((20159 * a + 2 ^ 25) / 2 ^ 26 * parQ) =
      (20159 * a + 2 ^ 25) / 2 ^ 26 * parQ :=
    wrap_of_fits (by norm_num) (fits_16.2 ⟨by simp only [parQ]; omega, by simp only [parQ]; omega⟩)
  unfold barrettReduce
  rw [hv]
  dsimp only
  rw [Chk.word32 (by omega) (by omega), pure_bind, Chk.word32 (by omega) (by omega), pure_bind, hquot,
    hprod, Chk.word16 (by simp only [parQ]; omega) (by simp only [parQ]; omega)]
  refine Chk.Holds.pure ⟨?_, abs_le.2 ⟨by simp only [parQ]; omega, by simp only [parQ]; omega⟩⟩
  rw [Int.cast_sub, Int.cast_mul, cast_parQ, mul_zero, sub_zero]

/-- **`fqmul` multiplies**, by one Montgomery factor too small; `P` bounds the product. -/
theorem fqmul_spec {a b P : ℤ} (h : |a * b| ≤ P) (hP : P < 2 ^ 15 * 3329) :
    Chk.Holds (fqmul a b) fun t =>
      (t : Zq) * 2 ^ 16 = (a : Zq) * b ∧ |t| * 2 ^ 16 ≤ P + 2 ^ 15 * 3329 := by
  obtain ⟨h1, h2⟩ := abs_le.1 h
  unfold fqmul
  rw [Chk.word32 (by omega) (by omega), pure_bind]
  refine (montgomeryReduce_spec (by simp only [parQ]; omega) (by simp only [parQ]; omega)).mono ?_
  rintro t ⟨hcast, ht1, ht2⟩
  simp only [parQ] at ht1 ht2
  push_cast at hcast
  refine ⟨hcast, ?_⟩
  rcases abs_cases t with ⟨ht, -⟩ | ⟨ht, -⟩ <;> rw [ht] <;> omega

end Mlkem
