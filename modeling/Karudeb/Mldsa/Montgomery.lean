import Karudeb.Mldsa.Poly
import Karudeb.Mldsa.Rvv

/-!
# ML-DSA: the range of Montgomery reduction

The comment above `montgomery_reduce` takes arguments from `-2^31 * Q` to `2^31 * Q`, both ends
included, and promises a result strictly between `-Q` and `Q`.

* `redcLane_exact`, `montgomeryReduce_val` : up to both ends the scalar and the vector code leave
  the exact quotient `redc`.
* `redc_eq_parQ_iff` : the quotient reaches `Q` at the upper end, where the multiplier has its
  least value, and nowhere else.
* `montgomery_range_iff` : so the promise is kept but for that one argument, in a single
  reduction, in every lane and in every product of coefficients.
-/

namespace Mldsa

open Word Rvv

variable {vl : ℕ} {a : ℤ}

/-! ## The exact quotient -/

/-- The range that the comment above `montgomery_reduce` gives for its argument. -/
def InMontRange (a : ℤ) : Prop := -(2 ^ 31 * parQ) ≤ a ∧ a ≤ 2 ^ 31 * parQ

/-- What it says of the result. -/
def IsMontgomery (a r : ℤ) : Prop := r * 2 ^ 32 ≡ a [ZMOD parQ] ∧ -parQ < r ∧ r < parQ

/-- The reduction of `a`, before anything is cut off. -/
def redc (a : ℤ) : ℤ := montRed 32 parQ parQinv a

theorem redc_mul (a : ℤ) : redc a * 2 ^ 32 = a - wrap 32 (a * parQinv) * parQ :=
  montRed_mul parQinv_mul a

theorem redc_modEq (a : ℤ) : redc a * 2 ^ 32 ≡ a [ZMOD parQ] := by
  rw [redc_mul]
  exact Int.modEq_iff_dvd.2 ⟨wrap 32 (a * parQinv), by ring⟩

/-- Below, the multiplier is at most `2^31 - 1`, so that the end is not reached. -/
theorem neg_parQ_lt_redc (ha : InMontRange a) : -parQ < redc a := by
  have hle := le_montRed parQinv_mul (by norm_num) (by norm_num) a
  have hlo := ha.1
  unfold redc
  simp only [parQ, parQinv] at *
  omega

theorem redc_le_parQ (ha : InMontRange a) : redc a ≤ parQ := by
  have hle := montRed_le parQinv_mul (by norm_num) (by norm_num) a
  have hhi := ha.2
  unfold redc
  simp only [parQ, parQinv] at *
  omega

/-- **The upper end.**  There the multiplier is `-2^31`, and the quotient is `Q` itself. -/
theorem redc_eq_parQ_iff (ha : InMontRange a) : redc a = parQ ↔ a = 2 ^ 31 * parQ := by
  constructor
  · intro h
    have hle := montRed_le parQinv_mul (by norm_num) (by norm_num) a
    have hhi := ha.2
    unfold redc at h
    rw [h] at hle
    simp only [parQ] at *
    omega
  · rintro rfl
    decide

theorem isMontgomery_redc_iff (ha : InMontRange a) :
    IsMontgomery a (redc a) ↔ a ≠ 2 ^ 31 * parQ := by
  rw [Ne, ← redc_eq_parQ_iff ha]
  constructor
  · exact fun h => h.2.2.ne
  · exact fun h => ⟨redc_modEq a, neg_parQ_lt_redc ha, (redc_le_parQ ha).lt_of_ne h⟩

/-! ## What the code leaves -/

/-- **`fq_redc2` is exact** up to both ends: neither the difference nor its high word is cut. -/
theorem redcLane_exact (ha : InMontRange a) : redcLane a = pure (redc a) := by
  have hmul := redc_mul a
  have hlo := neg_parQ_lt_redc ha
  have hhi := redc_le_parQ ha
  have hdiff : Chk.word 64 (a - wrap 32 (a * parQinv) * parQ) = pure (redc a * 2 ^ 32) := by
    rw [← hmul]
    simp only [parQ] at *
    exact Chk.word64 (by omega) (by omega)
  have hres : wrap 32 (redc a) = redc a := by
    simp only [parQ] at *
    exact wrap_of_fits (by norm_num) (fits_32.2 ⟨by omega, by omega⟩)
  unfold redcLane
  rw [montgomeryReduce_low, hdiff, pure_bind, Int.mul_ediv_cancel _ (by norm_num), hres]

theorem montgomeryReduce_val (ha : InMontRange a) : (montgomeryReduce a).val = redc a := by
  have hword : Chk.word 64 a = pure a := by
    obtain ⟨h1, h2⟩ := ha
    simp only [parQ] at *
    exact Chk.word64 (by omega) (by omega)
  have hval := redcLane_val a
  rw [hword, pure_bind, redcLane_exact ha] at hval
  exact hval.symm

theorem fqRedc2_exact {v : Vector ℤ vl} (hv : ∀ i < vl, InMontRange (v.rd i)) :
    fqRedc2 v = pure (Vector.tab vl fun i => redc (v.rd i)) := by
  rw [fqRedc2_eq, ← Chk.tab_pure]
  exact Chk.tab_congr fun i hi => redcLane_exact (hv i hi)

theorem rd_polyPointwiseMontgomery {x y : Poly} {i : ℕ} (hi : i < 256)
    (hxy : InMontRange (x.rd i * y.rd i)) :
    (polyPointwiseMontgomery x y).val.rd i = redc (x.rd i * y.rd i) := by
  have hword : Chk.word 64 (x.rd i * y.rd i) = pure (x.rd i * y.rd i) := by
    obtain ⟨h1, h2⟩ := hxy
    simp only [parQ] at *
    exact Chk.word64 (by omega) (by omega)
  rw [polyPointwiseMontgomery, Chk.val_tab, Vector.rd_tab _ hi, hword, pure_bind,
    montgomeryReduce_val hxy]

/-! ## The contract -/

/-- **The contract of Montgomery reduction** holds of an argument in its range if and only if that
is not the upper end.  The vector code always leaves what the scalar code does, without
wrapping, so that the same goes for its lanes; and for the products of coefficients. -/
theorem montgomery_range_iff (a : ℤ) (ha : InMontRange a) (vl : ℕ) (v : Vector ℤ vl)
    (hv : ∀ i < vl, InMontRange (v.rd i)) (x y : Poly)
    (hxy : ∀ i < 256, InMontRange (x.rd i * y.rd i)) :
    (IsMontgomery a (montgomeryReduce a).val ↔ a ≠ 2 ^ 31 * parQ) ∧
      (∃ t, fqRedc2 v = pure t ∧ (∀ i < vl, t.rd i = (montgomeryReduce (v.rd i)).val) ∧
        ((∀ i < vl, IsMontgomery (v.rd i) (t.rd i)) ↔ ∀ i < vl, v.rd i ≠ 2 ^ 31 * parQ)) ∧
      ((∀ i < 256, -parQ < (polyPointwiseMontgomery x y).val.rd i ∧
          (polyPointwiseMontgomery x y).val.rd i < parQ) ↔
        ∀ i < 256, x.rd i * y.rd i ≠ 2 ^ 31 * parQ) := by
  refine ⟨?_, ⟨_, fqRedc2_exact hv, fun i hi => ?_, ?_⟩, ?_⟩
  · rw [montgomeryReduce_val ha]
    exact isMontgomery_redc_iff ha
  · rw [Vector.rd_tab _ hi, montgomeryReduce_val (hv i hi)]
  · refine forall₂_congr fun i hi => ?_
    rw [Vector.rd_tab _ hi]
    exact isMontgomery_redc_iff (hv i hi)
  · refine forall₂_congr fun i hi => ?_
    rw [rd_polyPointwiseMontgomery hi (hxy i hi), ← isMontgomery_redc_iff (hxy i hi)]
    exact ⟨fun h => ⟨redc_modEq _, h⟩, fun h => h.2⟩

/-- At the lower end the contract holds: of one reduction, of a register, and of the products of
the least word with `Q`. -/
theorem montgomery_range_iff_least :
    IsMontgomery (-(2 ^ 31 * parQ)) (montgomeryReduce (-(2 ^ 31 * parQ))).val ∧
      (∃ t, fqRedc2 (Vector.tab 8 fun _ => -(2 ^ 31 * parQ)) = pure t ∧
        ∀ i < 8, IsMontgomery (-(2 ^ 31 * parQ)) (t.rd i)) ∧
      ∀ i < 256, -parQ <
          (polyPointwiseMontgomery (Vector.tab 256 fun _ => -2 ^ 31)
            (Vector.tab 256 fun _ => parQ)).val.rd i ∧
        (polyPointwiseMontgomery (Vector.tab 256 fun _ => -2 ^ 31)
          (Vector.tab 256 fun _ => parQ)).val.rd i < parQ := by
  have hend : InMontRange (-(2 ^ 31 * parQ)) := ⟨by decide, by decide⟩
  have hne : -(2 ^ 31 * parQ) ≠ 2 ^ 31 * parQ := by decide
  have hlane : ∀ i < 8, (Vector.tab 8 fun _ => -(2 ^ 31 * parQ)).rd i = -(2 ^ 31 * parQ) :=
    fun i hi => Vector.rd_tab _ hi
  have hprod : ∀ i < 256, (Vector.tab 256 fun _ => (-2 ^ 31 : ℤ)).rd i *
      (Vector.tab 256 fun _ => parQ).rd i = -(2 ^ 31 * parQ) := fun i hi => by
    rw [Vector.rd_tab _ hi, Vector.rd_tab _ hi, neg_mul]
  obtain ⟨h1, ⟨t, ht, -, h2⟩, h3⟩ := montgomery_range_iff (-(2 ^ 31 * parQ)) hend 8
    (Vector.tab 8 fun _ => -(2 ^ 31 * parQ)) (fun i hi => (hlane i hi).symm ▸ hend)
    (Vector.tab 256 fun _ => -2 ^ 31) (Vector.tab 256 fun _ => parQ)
    fun i hi => (hprod i hi).symm ▸ hend
  refine ⟨h1.2 hne, ⟨t, ht, fun i hi => ?_⟩, h3.2 fun i hi => ?_⟩
  · have h := h2.2 (fun i hi => (hlane i hi).symm ▸ hne) i hi
    rwa [hlane i hi] at h
  · rw [hprod i hi]
    exact hne

/-- **At the upper end the contract fails**: of one reduction, and of the product of the least
word with `-Q`, both of them words that a coefficient can hold. -/
theorem montgomery_range_fails :
    (¬∀ a, InMontRange a → IsMontgomery a (montgomeryReduce a).val) ∧
      ¬∀ x y : Poly, (∀ i < 256, Fits 32 (x.rd i) ∧ Fits 32 (y.rd i)) →
        (∀ i < 256, InMontRange (x.rd i * y.rd i)) →
          ∀ i < 256, -parQ < (polyPointwiseMontgomery x y).val.rd i ∧
            (polyPointwiseMontgomery x y).val.rd i < parQ := by
  have hend : InMontRange (2 ^ 31 * parQ) := ⟨by decide, by decide⟩
  have htop : redc (2 ^ 31 * parQ) = parQ := (redc_eq_parQ_iff hend).2 rfl
  constructor
  · intro h
    have hlt := (h _ hend).2.2
    rw [montgomeryReduce_val hend, htop] at hlt
    exact lt_irrefl _ hlt
  · intro h
    have hrd : ∀ {c : ℤ} {i : ℕ}, i < 256 → (Vector.tab 256 fun _ => c).rd i = c :=
      fun hi => Vector.rd_tab _ hi
    have hprod : ∀ i < 256, (Vector.tab 256 fun _ => (-2 ^ 31 : ℤ)).rd i *
        (Vector.tab 256 fun _ => -parQ).rd i = 2 ^ 31 * parQ := fun i hi => by
      rw [hrd hi, hrd hi, neg_mul_neg]
    have hlt := (h _ _ (fun i hi => by rw [hrd hi, hrd hi]; exact ⟨by decide, by decide⟩)
      (fun i hi => (hprod i hi).symm ▸ hend) 0 (by norm_num)).2
    rw [rd_polyPointwiseMontgomery (by norm_num) ((hprod 0 (by norm_num)).symm ▸ hend),
      hprod 0 (by norm_num), htop] at hlt
    exact lt_irrefl _ hlt

end Mldsa
