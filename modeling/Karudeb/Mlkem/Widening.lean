import Karudeb.Mlkem.NttSpec

/-!
# ML-KEM: the two multipliers of the vector unit

`fq_mul_vv` and `fq_mul_vx` are written twice: from the two halves of the
product, with a carry in place of the low half, and (under `RVV_WIDENING_MUL`)
from the full product through `fq_redc2`.

* `redcLane_exact` : up to the ends the comment above `fq_redc` gives, the
  32-bit sum of `fq_redc2` is exact.
* `fqMul_agree` : both multipliers leave the same lanes, and `fq_redc2` keeps the
  ranges of the comment.
-/

namespace Mlkem

open Word Rvv

variable {vl : ℕ}

/-! ## The widening build -/

/-- `fq_mul_vv` under `RVV_WIDENING_MUL`. -/
def fqMulVVWidening (rx ry : Vector ℤ vl) : Chk (Vector ℤ vl) := fqRedc2 (vwmulVV rx ry)

/-- `fq_mul_vx` under `RVV_WIDENING_MUL`. -/
def fqMulVXWidening (rx : Vector ℤ vl) (ry : ℤ) : Chk (Vector ℤ vl) := fqRedc2 (vwmulVX rx ry)

theorem fqMulVVWidening_eq (rx ry : Vector ℤ vl) :
    fqMulVVWidening rx ry = Chk.tab vl fun i => redcLane (rx.rd i * ry.rd i) := by
  rw [fqMulVVWidening, fqRedc2_eq]
  exact Chk.tab_congr fun i hi => by rw [vwmulVV, Vector.rd_tab _ hi]

theorem fqMulVXWidening_eq (rx : Vector ℤ vl) (ry : ℤ) :
    fqMulVXWidening rx ry = Chk.tab vl fun i => redcLane (rx.rd i * ry) := by
  rw [fqMulVXWidening, fqRedc2_eq]
  exact Chk.tab_congr fun i hi => by rw [vwmulVX, Vector.rd_tab _ hi]

/-! ## One lane -/

/-- Montgomery reduction by `fq_redc2`, before anything is cut off. -/
def redc (z : ℤ) : ℤ := montRed 16 (-parQ) montQi z

theorem redc_mul (z : ℤ) : redc z * 2 ^ 16 = z + wrap 16 (z * montQi) * parQ := by
  rw [redc, montRed_mul montQi_mul]
  ring

theorem redc_modEq (z : ℤ) : redc z * 2 ^ 16 ≡ z [ZMOD parQ] := by
  rw [redc_mul]
  exact Int.modEq_iff_dvd.2 ⟨-wrap 16 (z * montQi), by ring⟩

/-- The extreme values of the multiplier bound the result from both sides. -/
theorem redc_bounds (z : ℤ) :
    z - 32768 * 3329 ≤ redc z * 65536 ∧ redc z * 65536 ≤ z + 32767 * 3329 := by
  have hmul := redc_mul z
  obtain ⟨h1, h2⟩ := fits_16.1 (fits_wrap (show 0 < 16 by norm_num) (z * montQi))
  simp only [parQ, montQi] at *
  constructor
  · omega
  · omega

theorem fits_redc {z : ℤ} (h1 : -2038464511 ≤ z) (h2 : z ≤ 2038402304) : Fits 16 (redc z) := by
  obtain ⟨hlo, hhi⟩ := redc_bounds z
  exact fits_16.2 ⟨by omega, by omega⟩

/-- **`fq_redc2` is exact** up to the ends of the range in its comment: the sum is
a multiple of `2^16`, so that it reaches neither end of the 32-bit integers. -/
theorem redcLane_exact {z : ℤ} (h1 : -2038464511 ≤ z) (h2 : z ≤ 2038402304) :
    redcLane z = pure (redc z) := by
  have hmul := redc_mul z
  obtain ⟨hlo, hhi⟩ := redc_bounds z
  have hsum : Chk.word 32 (z + wrap 16 (z * montQi) * parQ) =
      pure (z + wrap 16 (z * montQi) * parQ) := by
    rw [← hmul]
    exact Chk.word32 (by omega) (by omega)
  rw [redcLane_eq, hsum, pure_bind, sum_div_eq]
  exact congrArg pure (wrap_of_fits (by norm_num) (fits_redc h1 h2))

-- one step past either end the sum wraps
example : (redcLane (-2038464512)).ok = false ∧ (redcLane 2038402305).ok = false := by
  decide

/-- A product of two 16-bit words is well inside the range. -/
theorem mul_range {x y : ℤ} (hx : Fits 16 x) (hy : Fits 16 y) :
    -2038464511 ≤ x * y ∧ x * y ≤ 2038402304 := by
  rw [fits_16] at hx hy
  have habs : |x * y| ≤ 32768 * 32768 := by
    rw [abs_mul]
    exact mul_le_mul (abs_le.2 ⟨by omega, by omega⟩) (abs_le.2 ⟨by omega, by omega⟩)
      (abs_nonneg y) (by norm_num)
  obtain ⟨h1, h2⟩ := abs_le.1 habs
  exact ⟨by omega, by omega⟩

theorem mulLane_eq_redcLane {x y : ℤ} (hx : Fits 16 x) (hy : Fits 16 y) :
    mulLane x y = redcLane (x * y) := by
  obtain ⟨h1, h2⟩ := mul_range hx hy
  rw [redcLane_exact h1 h2, mulLane_eq]
  exact Chk.word_of_fits (by norm_num) (fits_redc h1 h2)

/-! ## All lanes -/

/-- Every lane is a 16-bit word. -/
def Words (v : Vector ℤ vl) : Prop := ∀ i < vl, Fits 16 (v.rd i)

/-- Every lane lies between two bounds. -/
def LanesIn (lo hi : ℤ) (v : Vector ℤ vl) : Prop := ∀ i < vl, lo ≤ v.rd i ∧ v.rd i ≤ hi

theorem fqRedc2_exact {z : Vector ℤ vl} (h : LanesIn (-2038464511) 2038402304 z) :
    fqRedc2 z = pure (Vector.tab vl fun i => redc (z.rd i)) := by
  rw [fqRedc2_eq, ← Chk.tab_pure]
  exact Chk.tab_congr fun i hi => redcLane_exact (h i hi).1 (h i hi).2

theorem fqMulVV_exact {rx ry : Vector ℤ vl} (hx : Words rx) (hy : Words ry) :
    fqMulVV rx ry = pure (Vector.tab vl fun i => redc (rx.rd i * ry.rd i)) := by
  rw [fqMulVV_eq, ← Chk.tab_pure]
  refine Chk.tab_congr fun i hi => ?_
  obtain ⟨h1, h2⟩ := mul_range (hx i hi) (hy i hi)
  rw [mulLane_eq_redcLane (hx i hi) (hy i hi), redcLane_exact h1 h2]

theorem fqMulVVWidening_exact {rx ry : Vector ℤ vl} (hx : Words rx) (hy : Words ry) :
    fqMulVVWidening rx ry = pure (Vector.tab vl fun i => redc (rx.rd i * ry.rd i)) := by
  rw [fqMulVVWidening_eq, ← Chk.tab_pure]
  refine Chk.tab_congr fun i hi => ?_
  obtain ⟨h1, h2⟩ := mul_range (hx i hi) (hy i hi)
  exact redcLane_exact h1 h2

/-- Multiplying by a scalar is multiplying by a register full of it, in either build. -/
theorem fqMulVXWidening_splat (rx : Vector ℤ vl) (ry : ℤ) :
    fqMulVXWidening rx ry = fqMulVVWidening rx (Vector.tab vl fun _ => ry) := by
  rw [fqMulVXWidening_eq, fqMulVVWidening_eq]
  exact Chk.tab_congr fun i hi => by rw [Vector.rd_tab _ hi]

theorem words_splat {y : ℤ} (hy : Fits 16 y) : Words (Vector.tab vl fun _ => y) := fun i hi => by
  rwa [Vector.rd_tab _ hi]

/-- Lanes in a range that the extreme multipliers map into `[-B, B]`. -/
theorem lanesIn_redc {lo hi B : ℤ} {z : Vector ℤ vl} (h : LanesIn lo hi z)
    (hlo : (-B - 1) * 65536 < lo - 32768 * 3329) (hhi : hi + 32767 * 3329 < (B + 1) * 65536) :
    LanesIn (-B) B (Vector.tab vl fun i => redc (z.rd i)) := by
  intro i hi'
  obtain ⟨h1, h2⟩ := h i hi'
  obtain ⟨h3, h4⟩ := redc_bounds (z.rd i)
  rw [Vector.rd_tab _ hi']
  exact ⟨by omega, by omega⟩

/-- **The two multipliers agree**, lane by lane, on all 16-bit words: neither
wraps, and what they leave is the product by one factor `2^16` too small.
`fq_redc2` is exact between the two bounds of its comment and keeps the three
ranges given there. -/
theorem fqMul_agree (vl : ℕ) :
    (∀ rx ry : Vector ℤ vl, Words rx → Words ry → ∃ r, fqMulVV rx ry = pure r ∧
      fqMulVVWidening rx ry = pure r ∧ Words r ∧
        ∀ i < vl, r.rd i * 2 ^ 16 ≡ rx.rd i * ry.rd i [ZMOD parQ]) ∧
    (∀ (rx : Vector ℤ vl) (ry : ℤ), Words rx → Fits 16 ry → ∃ r, fqMulVX rx ry = pure r ∧
      fqMulVXWidening rx ry = pure r ∧ Words r ∧
        ∀ i < vl, r.rd i * 2 ^ 16 ≡ rx.rd i * ry [ZMOD parQ]) ∧
    ∀ z : Vector ℤ vl, LanesIn (-2038464511) 2038402304 z → ∃ r, fqRedc2 z = pure r ∧
      Words r ∧
      (∀ i < vl, r.rd i * 2 ^ 16 = z.rd i + wrap 16 (z.rd i * montQi) * parQ) ∧
      (∀ i < vl, r.rd i * 2 ^ 16 ≡ z.rd i [ZMOD parQ]) ∧
      (LanesIn (-109084671) 109088000 z → LanesIn (-parQ) parQ r) ∧
      (LanesIn (-327254015) 327257344 z → LanesIn (-(2 * parQ)) (2 * parQ) r) ∧
      (LanesIn (-545423359) 545426688 z → LanesIn (-(3 * parQ)) (3 * parQ) r) := by
  have hvv : ∀ rx ry : Vector ℤ vl, Words rx → Words ry → ∃ r, fqMulVV rx ry = pure r ∧
      fqMulVVWidening rx ry = pure r ∧ Words r ∧
        ∀ i < vl, r.rd i * 2 ^ 16 ≡ rx.rd i * ry.rd i [ZMOD parQ] := by
    intro rx ry hx hy
    refine ⟨_, fqMulVV_exact hx hy, fqMulVVWidening_exact hx hy, fun i hi => ?_, fun i hi => ?_⟩
    · obtain ⟨h1, h2⟩ := mul_range (hx i hi) (hy i hi)
      rw [Vector.rd_tab _ hi]
      exact fits_redc h1 h2
    · rw [Vector.rd_tab _ hi]
      exact redc_modEq _
  refine ⟨hvv, fun rx ry hx hy => ?_, fun z hz => ?_⟩
  · obtain ⟨r, h1, h2, h3, h4⟩ := hvv rx _ hx (words_splat hy)
    refine ⟨r, (fqMulVX_splat rx ry).trans h1, (fqMulVXWidening_splat rx ry).trans h2, h3, ?_⟩
    intro i hi
    have := h4 i hi
    rwa [Vector.rd_tab _ hi] at this
  · refine ⟨_, fqRedc2_exact hz, fun i hi => ?_, fun i hi => ?_, fun i hi => ?_, fun h => ?_,
      fun h => ?_, fun h => ?_⟩
    · rw [Vector.rd_tab _ hi]
      exact fits_redc (hz i hi).1 (hz i hi).2
    · rw [Vector.rd_tab _ hi]
      exact redc_mul _
    · rw [Vector.rd_tab _ hi]
      exact redc_modEq _
    · exact lanesIn_redc h (by norm_num) (by norm_num)
    · exact lanesIn_redc h (by norm_num) (by norm_num)
    · exact lanesIn_redc h (by norm_num) (by norm_num)

/-- The least word times itself, and the least sum that is still exact. -/
theorem fqMul_agree_least :
    (∃ r, fqMulVV (Vector.tab 1 fun _ => -32768) (Vector.tab 1 fun _ => -32768) = pure r ∧
      fqMulVVWidening (Vector.tab 1 fun _ => -32768) (Vector.tab 1 fun _ => -32768) = pure r) ∧
    (∃ r, fqMulVX (Vector.tab 1 fun _ => -32768) (-32768) = pure r ∧
      fqMulVXWidening (Vector.tab 1 fun _ => -32768) (-32768) = pure r) ∧
    ∃ r, fqRedc2 (Vector.tab 1 fun _ => -2038464511) = pure r ∧ Words r := by
  have hx : Words (Vector.tab 1 fun _ => (-32768 : ℤ)) := words_splat (by decide)
  have hz : LanesIn (-2038464511) 2038402304 (Vector.tab 1 fun _ => (-2038464511 : ℤ)) := by
    intro i hi
    rw [Vector.rd_tab _ hi]
    exact ⟨by norm_num, by norm_num⟩
  obtain ⟨r, h1, h2, -⟩ := (fqMul_agree 1).1 _ _ hx hx
  obtain ⟨r', h1', h2', -⟩ := (fqMul_agree 1).2.1 _ (-32768) hx (by decide)
  obtain ⟨t, h3, h4, -⟩ := (fqMul_agree 1).2.2 _ hz
  exact ⟨⟨r, h1, h2⟩, ⟨r', h1', h2'⟩, t, h3, h4⟩

end Mlkem
