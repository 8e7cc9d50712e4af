import Karudeb.Mlkem.Fips203
import Karudeb.Mlkem.Poly

/-!
# ML-KEM: what the transforms compute

The scalar and the vector transforms meet one specification each.

* `mulLane_spec` : the vector product of two coefficients is the Montgomery product.
* `mlkemNtt_spec`, `rvvPolyNtt_spec` : the coefficients of a polynomial become its
  residues, and no sum or difference overflows.
* `mlkemInvntt_spec`, `rvvPolyInvntt_spec` : and back, times `2^16`.
-/

namespace Mlkem

open Word Butterfly Ntt Negacyclic Fips203

/-! ## Products of two coefficients -/

/-- `t` is the product `p`, by one Montgomery factor too small, and about as small as it can be. -/
structure IsMont (P p t : ℤ) : Prop where
  /-- It is the product, up to the Montgomery factor. -/
  cast : (t : Zq) * 2 ^ 16 = (p : Zq)
  /-- It is small. -/
  bound : |t| * 2 ^ 16 ≤ P + 2 ^ 15 * 3329

theorem fqmul_isMont {a b P : ℤ} (h : |a * b| ≤ P) (hP : P < 2 ^ 15 * 3329) :
    Chk.Holds (fqmul a b) (IsMont P (a * b)) := by
  refine (fqmul_spec h hP).mono fun t ht => ⟨?_, ht.2⟩
  rw [ht.1, Int.cast_mul]

theorem montQi_mul : montQi * -parQ ≡ 1 [ZMOD 2 ^ 16] := by decide

/-- Adding the multiple of `q` that clears the low word, and dropping that word. -/
theorem montRed_isMont {p P : ℤ} (h : |p| ≤ P) : IsMont P p (montRed 16 (-parQ) montQi p) := by
  have hq : ((-parQ : ℤ) : Zq) = 0 := by
    rw [Int.cast_neg, cast_parQ, neg_zero]
  have hmul := montRed_mul montQi_mul p
  obtain ⟨h1, h2⟩ := fits_16.1 (fits_wrap (show 0 < 16 by norm_num) (p * montQi))
  obtain ⟨h3, h4⟩ := abs_le.1 h
  refine ⟨cast_montRed montQi_mul hq p, ?_⟩
  simp only [parQ, montQi] at *
  rcases abs_cases (montRed 16 (-3329) 3327 p) with ⟨ht, -⟩ | ⟨ht, -⟩
  · rw [ht]
    omega
  · rw [ht]
    omega

/-- The low word is the same if the argument is cut off first. -/
theorem wrap_mul_montQi (p : ℤ) : wrap 16 (wrap 16 p * montQi) = wrap 16 (p * montQi) :=
  wrap_congr ((wrap_modEq 16 p).mul_right montQi)

/-- The high words and the carry of two numbers whose low words cancel. -/
theorem high_add_high {a b : ℤ} (h : (2 : ℤ) ^ 16 ∣ a + b) :
    a / 2 ^ 16 + b / 2 ^ 16 + (if wrap 16 b ≠ 0 then 1 else 0) = (a + b) / 2 ^ 16 := by
  have hb := wrap_modEq 16 b
  obtain ⟨h1, h2⟩ := fits_16.1 (fits_wrap (show 0 < 16 by norm_num) b)
  have hb' : wrap 16 b % 2 ^ 16 = b % 2 ^ 16 := hb
  split
  · omega
  · omega

/-- The high words and the carry make up the Montgomery product. -/
theorem mulLane_eq (x y : ℤ) :
    mulLane x y = Chk.word 16 (montRed 16 (-parQ) montQi (x * y)) := by
  have hdvd : (2 : ℤ) ^ 16 ∣ wrap 16 (x * y * montQi) * parQ + x * y := by
    refine ⟨montRed 16 (-parQ) montQi (x * y), ?_⟩
    linear_combination -montRed_mul montQi_mul (x * y)
  unfold mulLane
  rw [wrap_mul_montQi, high_add_high hdvd]
  unfold montRed
  congr 2
  ring

/-- The 32-bit sum is the one Montgomery reduction divides. -/
theorem redcLane_eq (z : ℤ) :
    redcLane z = Chk.word 32 (z + wrap 16 (z * montQi) * parQ) >>= fun s =>
      pure (wrap 16 (s / 2 ^ 16)) := by
  unfold redcLane
  rw [wrap_mul_montQi]

theorem sum_div_eq (z : ℤ) :
    (z + wrap 16 (z * montQi) * parQ) / 2 ^ 16 = montRed 16 (-parQ) montQi z := by
  unfold montRed
  congr 1
  ring

/-- **`fq_mul_vv` in one lane** is Montgomery multiplication. -/
theorem mulLane_isMont {x y P : ℤ} (h : |x * y| ≤ P) (hP : P < 2 ^ 15 * 3329) :
    Chk.Holds (mulLane x y) (IsMont P (x * y)) := by
  have hmont := montRed_isMont h
  have habs := hmont.2
  obtain ⟨h1, h2⟩ := abs_le.1 (show |montRed 16 (-parQ) montQi (x * y)| ≤ 3329 by omega)
  rw [mulLane_eq, Chk.word16 (by omega) (by omega)]
  exact Chk.Holds.pure hmont

/-- **`fq_redc2` in one lane** is Montgomery reduction. -/
theorem redcLane_isMont {z P : ℤ} (h : |z| ≤ P) (hP : P < 2 ^ 15 * 3329) :
    Chk.Holds (redcLane z) (IsMont P z) := by
  have hmont := montRed_isMont h
  have habs := hmont.2
  obtain ⟨hw1, hw2⟩ := fits_16.1 (fits_wrap (show 0 < 16 by norm_num) (z * montQi))
  obtain ⟨hz1, hz2⟩ := abs_le.1 h
  have hsum : Chk.word 32 (z + wrap 16 (z * montQi) * parQ) =
      pure (z + wrap 16 (z * montQi) * parQ) :=
    Chk.word32 (by simp only [parQ]; omega) (by simp only [parQ]; omega)
  rw [redcLane_eq, hsum, pure_bind, sum_div_eq]
  obtain ⟨h1, h2⟩ := abs_le.1 (show |montRed 16 (-parQ) montQi z| ≤ 3329 by omega)
  rw [wrap_of_fits (by norm_num) (fits_16.2 ⟨by omega, by omega⟩)]
  exact Chk.Holds.pure hmont

/-- **`fq_barrett` in one lane**, where nothing overflows. -/
theorem barrettLane_spec {a : ℤ} (h : |a| ≤ 30000) :
    Chk.Holds (barrettLane a) fun r => (r : Zq) = (a : Zq) ∧ |r| ≤ 1664 := by
  obtain ⟨h1, h2⟩ := abs_le.1 h
  have hv : ((2 : ℤ) ^ 26 + parQ / 2) / parQ = 20159 := by decide
  unfold barrettLane
  rw [hv, Chk.word16 (by omega) (by omega), pure_bind]
  have hprod : wrap 16 ((a * 20159 / 2 ^ 16 + 2 ^ (25 - 16)) / 2 ^ (26 - 16) * parQ) =
      (a * 20159 / 2 ^ 16 + 2 ^ (25 - 16)) / 2 ^ (26 - 16) * parQ :=
    wrap_of_fits (by norm_num) (fits_16.2 ⟨by simp only [parQ]; omega, by simp only [parQ]; omega⟩)
  rw [hprod, Chk.word16 (by simp only [parQ]; omega) (by simp only [parQ]; omega)]
  refine Chk.Holds.pure ⟨?_, abs_le.2 ⟨by simp only [parQ]; omega, by simp only [parQ]; omega⟩⟩
  rw [Int.cast_sub, Int.cast_mul, cast_parQ, mul_zero, sub_zero]

/-- **`fq_mulq_vx` in one lane** ends between 0 and `q - 1`. -/
theorem mulqLane_spec {x y : ℤ} (hx : |x| ≤ 32768) (hy : |y| ≤ 3328) :
    Chk.Holds (mulqLane y x) fun t => (t : Zq) * 2 ^ 16 = (x : Zq) * y ∧ 0 ≤ t ∧ t ≤ 3328 := by
  have hprod : |x * y| ≤ 32768 * 3328 := by
    rw [abs_mul]
    exact mul_le_mul hx hy (abs_nonneg y) (by norm_num)
  unfold mulqLane
  refine (mulLane_isMont hprod (by norm_num)).bind fun t ht => ?_
  obtain ⟨hcast, habs⟩ := ht
  obtain ⟨h1, h2⟩ := abs_le.1 (show |t| ≤ 3328 by omega)
  rw [Int.cast_mul] at hcast
  unfold caddLane
  split
  · rw [Chk.word16 (by simp only [parQ]; omega) (by simp only [parQ]; omega)]
    refine Chk.Holds.pure ⟨?_, by simp only [parQ]; omega, by simp only [parQ]; omega⟩
    rw [Int.cast_add, cast_parQ, add_zero, hcast]
  · exact Chk.Holds.pure ⟨hcast, by omega, h2⟩

/-! ## The table -/

/-- `2^(-16)` modulo `q`. -/
abbrev rInv : Zq := 169

theorem rInv_mul : rInv * 2 ^ 16 = 1 := by decide

/-- The twiddles as elements of the ring. -/
def zq (i : ℕ) : Zq := (zetas.rd i : Zq) * rInv

/-- The constants of the moduli `X^B - c`. -/
def cq (i : ℕ) : Zq := if i ≤ 1 then -1 else if i % 2 = 0 then zq (i / 2) else -zq (i / 2)

/-- The twiddles of the inverse layers. -/
def zqInv (i : ℕ) : Zq := -zq (3 * 2 ^ i.log2 - 1 - i)

/-- **What the table holds**: square roots of one another, at the end the roots of the
transform, each beside its inverse, and all of them centered. -/
theorem zetas_table :
    (∀ i < 128, 1 ≤ i → zq i * zq i = cq i) ∧ (∀ i < 128, cq (128 + i) = gamma i) ∧
      (∀ i < 128, 1 ≤ i → zqInv i * zq i = 1) ∧ (∀ i < 128, |zetas.rd i| ≤ 1659) := by
  decide +kernel

theorem zetas_leaf {i : ℕ} (hi : i < 128) : cq (128 + i) = gamma i := zetas_table.2.1 i hi

theorem zetas_bound {i : ℕ} (hi : i < 128) : |zetas.rd i| ≤ 1659 := zetas_table.2.2.2 i hi

theorem zq_roots : Roots 128 cq zq where
  sq := fun i h1 h2 => zetas_table.1 i h2 h1
  even := by
    intro i hi
    unfold cq
    rw [if_neg (by omega), if_pos (by omega), Nat.mul_div_cancel_left i (by norm_num)]
  odd := by
    intro i hi
    unfold cq
    rw [if_neg (by omega), if_neg (by omega), show (2 * i + 1) / 2 = i by omega]

theorem zq_inverse : Inverse 128 zq zqInv := fun i h1 h2 => zetas_table.2.2.1 i h2 h1

/-! ## The forward transforms -/

/-- The distances of the layers. -/
abbrev lens : List ℕ := [128, 64, 32, 16, 8, 4, 2]

/-- The layers compute residues. -/
theorem down_eq_ntt (x : ℕ → Zq) {k : ℕ} (hk : k < 256) :
    down 128 zq lens x k = ntt (ofCoeffs 256 x) k := by
  have htower : Tower 128 256 lens 2 := by
    simp only [Tower]
    decide
  have hres := residues_down zq_roots (by norm_num) htower (residues_start 256 _ x)
  have hk2 : k / 2 < 128 := by omega
  have hroot : residueX (k / 2) ^ 2 = algebraMap Zq (Residue (k / 2)) (cq (128 + k / 2)) := by
    rw [zetas_leaf hk2, residueX_sq]
  have hval := aeval_of_residues hres (show k / 2 < 2 * 128 / 2 from hk2) hroot
  have hmk : residue (k / 2) (ofCoeffs 256 x) = Polynomial.aeval (residueX (k / 2))
      (blockPoly x 0 256) := valueAt_mk _ _ _
  rw [← hmk, Finset.sum_range_succ, Finset.sum_range_one, pow_zero, pow_one, mul_one, add_zero]
    at hval
  unfold ntt
  rw [hval]
  split
  · rename_i h
    rw [show 2 * (k / 2) = k by omega]
    simp [residueX]
  · rename_i h
    rw [show 2 * (k / 2) + 1 = k by omega]
    simp [residueX]

/-- What a forward butterfly has to do. -/
def IsFwd (bf : ℤ → ℤ → ℤ → Chk (ℤ × ℤ)) : Prop :=
  ∀ i < 128, ∀ B u v : ℤ, B + 2494 < 2 ^ 15 → |u| ≤ B → |v| ≤ B →
    Chk.Holds (bf (zetas.rd i) u v) fun p =>
      (|p.1| ≤ B + 2494 ∧ (p.1 : Zq) = u + zq i * v) ∧
        (|p.2| ≤ B + 2494 ∧ (p.2 : Zq) = u - zq i * v)

/-- Products with a twiddle are small. -/
theorem twiddle_mul {i : ℕ} (hi : i < 128) {v : ℤ} (hv : |v| ≤ 2 ^ 15) :
    |zetas.rd i * v| ≤ 1659 * 2 ^ 15 := by
  rw [abs_mul]
  exact mul_le_mul (zetas_bound hi) hv (abs_nonneg v) (by norm_num)

theorem IsMont.twiddle {i : ℕ} {v t : ℤ} (h : IsMont (1659 * 2 ^ 15) (zetas.rd i * v) t) :
    |t| ≤ 2494 ∧ (t : Zq) = zq i * v := by
  obtain ⟨hcast, habs⟩ := h
  refine ⟨by omega, ?_⟩
  rw [Int.cast_mul] at hcast
  unfold zq
  linear_combination rInv * hcast - (t : Zq) * rInv_mul

/-- The sum and the difference of a butterfly. -/
theorem fwd_holds {i : ℕ} {B u v : ℤ} (hB : B + 2494 < 2 ^ 15) (hu : |u| ≤ B) {x : Chk ℤ}
    (hx : Chk.Holds x (IsMont (1659 * 2 ^ 15) (zetas.rd i * v))) :
    Chk.Holds (do
      let t ← x
      let hi ← Chk.word 16 (u - t)
      let lo ← Chk.word 16 (u + t)
      pure (lo, hi)) fun p =>
        (|p.1| ≤ B + 2494 ∧ (p.1 : Zq) = u + zq i * v) ∧
          (|p.2| ≤ B + 2494 ∧ (p.2 : Zq) = u - zq i * v) := by
  refine hx.bind fun t ht => ?_
  obtain ⟨habs, hcast⟩ := ht.twiddle
  obtain ⟨hu1, hu2⟩ := abs_le.1 hu
  obtain ⟨ht1, ht2⟩ := abs_le.1 habs
  rw [Chk.word16 (by omega) (by omega), pure_bind, Chk.word16 (by omega) (by omega), pure_bind]
  refine Chk.Holds.pure ⟨⟨abs_le.2 ⟨by omega, by omega⟩, ?_⟩, abs_le.2 ⟨by omega, by omega⟩, ?_⟩
  · rw [Int.cast_add, hcast]
  · rw [Int.cast_sub, hcast]

theorem nttBfly_isFwd : IsFwd nttBfly := by
  intro i hi B u v hB hu hv
  exact fwd_holds hB hu (fqmul_isMont (twiddle_mul hi (by omega)) (by norm_num))

theorem fwdLane_isFwd : IsFwd fwdLane := by
  intro i hi B u v hB hu hv
  have h := twiddle_mul hi (v := v) (by omega)
  have hmul := mulLane_isMont (show |v * zetas.rd i| ≤ 1659 * 2 ^ 15 by rwa [mul_comm]) (by norm_num)
  rw [mul_comm v] at hmul
  exact fwd_holds hB hu hmul

theorem twiddle_lt {len b : ℕ} (hlen : len ∈ lens) (hb : 2 * len * b < 256) :
    128 / len + b < 128 := by
  simp only [List.mem_cons, List.not_mem_nil, or_false] at hlen
  rcases hlen with rfl | rfl | rfl | rfl | rfl | rfl | rfl <;> omega

/-- Seven layers of forward butterflies compute residues. -/
theorem fwdLayers_holds {bf : ℤ → ℤ → ℤ → Chk (ℤ × ℤ)} (hbf : IsFwd bf) {B : ℤ}
    (hB : B + 7 * 2494 < 2 ^ 15) {a : Vector ℤ 256} (ha : ∀ k < 256, |a.rd k| ≤ B) :
    Chk.Holds (lens.foldlM
      (fun a len => layerChk len (fun b => bf (zetas.rd (128 / len + b))) a) a) fun r =>
        ∀ k < 256, |r.rd k| ≤ B + 7 * 2494 ∧
          (r.rd k : Zq) = ntt (ofCoeffs 256 fun i => (a.rd i : Zq)) k := by
  have hlens : ∀ len ∈ lens, 0 < len ∧ 2 * len ∣ 256 := by decide
  have h := layers_holds (fun len b => bf (zetas.rd (128 / len + b)))
    (fun len => fwd fun b => zq (128 / len + b)) _ hlens
    (fun i u u' => |u| ≤ B + i * 2494 ∧ (u : Zq) = u')
    (fun i hi len hlen b hb u v u' v' hu hv => by
      obtain ⟨hu, rfl⟩ := hu
      obtain ⟨hv, rfl⟩ := hv
      simp only [List.length_cons, List.length_nil] at hi
      refine (hbf _ (twiddle_lt hlen hb) (B + i * 2494) u v (by omega) hu hv).mono ?_
      rintro p ⟨⟨h1, h2⟩, h3, h4⟩
      refine ⟨⟨?_, h2⟩, ?_, h4⟩ <;> push_cast <;> linarith)
    (fun k hk => ⟨by simpa using ha k hk, rfl⟩)
  refine h.mono fun r hr k hk => ?_
  obtain ⟨hb, hc⟩ := hr k hk
  exact ⟨by simpa using hb, hc.trans (down_eq_ntt _ hk)⟩

/-- **The scalar transform** computes residues, and no sum or difference overflows. -/
theorem mlkemNtt_spec {B : ℤ} (hB : B + 7 * 2494 < 2 ^ 15) {a : Vector ℤ 256}
    (ha : ∀ k < 256, |a.rd k| ≤ B) :
    Chk.Holds (mlkemNtt a) fun r => ∀ k < 256, |r.rd k| ≤ B + 7 * 2494 ∧
      (r.rd k : Zq) = ntt (ofCoeffs 256 fun i => (a.rd i : Zq)) k := by
  rw [mlkemNtt_eq]
  exact fwdLayers_holds nttBfly_isFwd hB ha

theorem montR1_cast : ((montR1 : ℤ) : Zq) * rInv = 1 := by decide

theorem normalize_holds {x : ℤ} (h : |x| ≤ 2 ^ 15) :
    Chk.Holds (mulqLane montR1 x) fun t => (0 ≤ t ∧ t ≤ 3328) ∧ (t : Zq) = (x : Zq) := by
  refine (mulqLane_spec (by omega) (show |montR1| ≤ 3328 by decide)).mono ?_
  rintro t ⟨hcast, h1, h2⟩
  refine ⟨⟨h1, h2⟩, ?_⟩
  linear_combination rInv * hcast - (t : Zq) * rInv_mul + (x : Zq) * montR1_cast

/-- **The vector transform** computes residues too. -/
theorem rvvPolyNtt_spec {B : ℤ} (hB : B + 7 * 2494 < 2 ^ 15) {a : Vector ℤ 256}
    (ha : ∀ k < 256, |a.rd k| ≤ B) :
    Chk.Holds (rvvPolyNtt a) fun r => ∀ k < 256, (0 ≤ r.rd k ∧ r.rd k ≤ 3328) ∧
      (r.rd k : Zq) = ntt (ofCoeffs 256 fun i => (a.rd i : Zq)) k := by
  rw [rvvPolyNtt_eq]
  refine (fwdLayers_holds fwdLane_isFwd hB ha).bind fun x hx => ?_
  have htab := Chk.Holds.tab fun k hk =>
    normalize_holds (x := x.rd k) ((hx k hk).1.trans (by omega))
  refine htab.mono fun r hr k hk => ⟨(hr k hk).1, ?_⟩
  rw [(hr k hk).2, (hx k hk).2]

theorem ntt_smul (c : Zq) (x : ℕ → Zq) (k : ℕ) :
    ntt (ofCoeffs 256 fun i => c * x i) k = c * ntt (ofCoeffs 256 x) k := by
  unfold ntt
  rw [ofCoeffs_smul, map_mul]
  have hc : residue (k / 2) (algebraMap Zq Rq c) = algebraMap Zq (Residue (k / 2)) c := by
    rw [AdjoinRoot.algebraMap_eq, ← AdjoinRoot.mk_C]
    exact (valueAt_mk _ _ _).trans (Polynomial.aeval_C _ _)
  rw [hc]
  split
  · simp
  · simp

theorem lens_dvd : ∀ len ∈ lens, 0 < len ∧ len ∣ 128 := by decide

theorem lens_le : ∀ len ∈ lens, 2 * 128 ≤ 128 * len := by decide

/-- `1 / 128`. -/
theorem half_pow : (3303 : Zq) * 2 ^ 7 = 1 := by decide

/-- A polynomial is determined by its transform. -/
theorem ntt_injective {u v : Rq} (h : ∀ k < 256, ntt u k = ntt v k) : u = v := by
  have hn : 0 < 256 := by norm_num
  rw [← ofCoeffs_coeff hn u, ← ofCoeffs_coeff hn v] at h ⊢
  have hdown : ∀ k < 2 * 128, down 128 zq lens (coeff hn u) k = down 128 zq lens (coeff hn v) k := by
    intro k hk
    rw [down_eq_ntt _ hk, down_eq_ntt _ hk, h k hk]
  refine ofCoeffs_congr fun i hi => ?_
  have hup := up_congr zqInv (fun len hl => lens_dvd len (List.mem_reverse.1 hl)) hdown i hi
  rw [up_down (by norm_num) zq_inverse lens_dvd lens_le _ i hi,
    up_down (by norm_num) zq_inverse lens_dvd lens_le _ i hi] at hup
  simp only [List.length_cons, List.length_nil] at hup
  linear_combination 3303 * hup - (coeff hn u i - coeff hn v i) * half_pow

/-- Every row of entries is the transform of a polynomial. -/
theorem ntt_surjective (v : ℕ → Zq) : ∃ w : Rq, ∀ k < 256, ntt w k = v k := by
  refine ⟨ofCoeffs 256 fun i => 3303 * up 128 zqInv lens.reverse v i, fun k hk => ?_⟩
  have hcancel := down_up (by norm_num) zq_inverse lens_dvd lens_le v k hk
  rw [ntt_smul, ← down_eq_ntt _ hk, hcancel]
  simp only [List.length_cons, List.length_nil]
  linear_combination v k * half_pow

/-! ## The inverse transforms -/

/-- The inverse layers of the code are those of the inverse twiddles. -/
theorem zqInv_eq : ∀ len ∈ [2, 4, 8, 16, 32, 64, 128], ∀ b < 128 / len,
    3 * 2 ^ (128 / len + b).log2 - 1 - (128 / len + b) = 256 / len - 1 - b := by
  decide +kernel

theorem inv_twiddle {len b : ℕ} (hlen : len ∈ [2, 4, 8, 16, 32, 64, 128])
    (hb : 2 * len * b < 256) :
    256 / len - 1 - b < 128 ∧ zqInv (128 / len + b) = -zq (256 / len - 1 - b) := by
  have hbl : b < 128 / len ∧ 256 / len ≤ 128 := by
    simp only [List.mem_cons, List.not_mem_nil, or_false] at hlen
    rcases hlen with rfl | rfl | rfl | rfl | rfl | rfl | rfl <;> omega
  refine ⟨by omega, ?_⟩
  unfold zqInv
  rw [zqInv_eq len hlen b hbl.1]

/-- The scaling at the end undoes the factor that the layers leave. -/
theorem ntt_scaled {a x r : Vector ℤ 256}
    (hx : ∀ k < 256, (x.rd k : Zq) = up 128 zqInv lens.reverse (fun i => (a.rd i : Zq)) k)
    (hr : ∀ k < 256, (r.rd k : Zq) * 2 ^ 16 = (x.rd k : Zq) * 1441) :
    ∀ k < 256, ntt (ofCoeffs 256 fun i => (r.rd i : Zq)) k = 2 ^ 16 * (a.rd k : Zq) := by
  intro k hk
  have hunit : (1441 : Zq) * 2 ^ 7 = 2 ^ 16 * 2 ^ 16 := by decide
  have hscale : ∀ i < 256, (r.rd i : Zq) =
      (2 ^ 16 * 3303) * up 128 zqInv lens.reverse (fun i => (a.rd i : Zq)) i := by
    intro i hi
    rw [← hx i hi]
    linear_combination rInv * hr i hi - ((r.rd i : Zq) - 2 ^ 16 * 3303 * x.rd i) * rInv_mul -
      1441 * rInv * (x.rd i : Zq) * half_pow + 3303 * rInv * (x.rd i : Zq) * hunit
  rw [ofCoeffs_congr hscale, ntt_smul, ← down_eq_ntt _ hk,
    down_up (by norm_num) zq_inverse lens_dvd lens_le _ k hk]
  simp only [List.length_cons, List.length_nil]
  linear_combination 2 ^ 16 * (a.rd k : Zq) * half_pow

theorem invnttBfly_holds {i : ℕ} (hi : i < 128) {u v : ℤ} (hu : |u| ≤ 3329) (hv : |v| ≤ 3329) :
    Chk.Holds (invnttBfly (zetas.rd i) u v) fun p =>
      (|p.1| ≤ 3329 ∧ (p.1 : Zq) = u + v) ∧ (|p.2| ≤ 3329 ∧ (p.2 : Zq) = -zq i * (u - v)) := by
  obtain ⟨hu1, hu2⟩ := abs_le.1 hu
  obtain ⟨hv1, hv2⟩ := abs_le.1 hv
  unfold invnttBfly
  rw [Chk.word16 (by omega) (by omega), pure_bind]
  refine (barrettReduce_spec (abs_le.2 ⟨by omega, by omega⟩)).bind fun s hs => ?_
  obtain ⟨hcast, hle⟩ := hs
  have hd : |v - u| ≤ 2 ^ 15 := abs_le.2 ⟨by omega, by omega⟩
  rw [Chk.word16 (by omega) (by omega), pure_bind]
  refine (fqmul_isMont (twiddle_mul hi hd) (by norm_num)).bind fun t ht => ?_
  obtain ⟨habs, htw⟩ := ht.twiddle
  refine Chk.Holds.pure ⟨⟨hle.trans (by norm_num), ?_⟩, habs.trans (by norm_num), ?_⟩
  · rw [hcast, Int.cast_add]
  · rw [htw, Int.cast_sub]
    ring

/-- **The scalar inverse transform** interpolates, times `2^16`, and nothing overflows. -/
theorem mlkemInvntt_spec {a : Vector ℤ 256} (ha : ∀ k < 256, |a.rd k| ≤ 3329) :
    Chk.Holds (mlkemInvntt a) fun r => (∀ k < 256, |r.rd k| ≤ 3328) ∧
      ∀ k < 256, ntt (ofCoeffs 256 fun i => (r.rd i : Zq)) k = 2 ^ 16 * (a.rd k : Zq) := by
  rw [mlkemInvntt_eq]
  have hlens : ∀ len ∈ [2, 4, 8, 16, 32, 64, 128], 0 < len ∧ 2 * len ∣ 256 := by decide
  have hlayers := layers_holds (fun len b => invnttBfly (zetas.rd (256 / len - 1 - b)))
    (fun len => inv fun b => zqInv (128 / len + b)) _ hlens
    (fun _ u u' => |u| ≤ 3329 ∧ (u : Zq) = u')
    (fun i _ len hlen b hb u v u' v' hu hv => by
      obtain ⟨hu, rfl⟩ := hu
      obtain ⟨hv, rfl⟩ := hv
      obtain ⟨hidx, htw⟩ := inv_twiddle hlen hb
      have h := invnttBfly_holds hidx hu hv
      rw [← htw] at h
      exact h)
    (fun k hk => ⟨ha k hk, rfl⟩)
  refine hlayers.bind fun x hx => ?_
  have hscale : ∀ k < 256, Chk.Holds (fqmul (x.rd k) 1441) (IsMont (3329 * 1441) (x.rd k * 1441)) :=
    fun k hk => fqmul_isMont (by
      rw [abs_mul]
      exact mul_le_mul (hx k hk).1 (by norm_num) (abs_nonneg _) (by norm_num)) (by norm_num)
  have htab := Chk.Holds.tab hscale
  refine htab.mono fun r hr => ⟨fun k hk => ?_, ntt_scaled (fun k hk => (hx k hk).2) fun k hk => ?_⟩
  · have := (hr k hk).2
    omega
  · have h := (hr k hk).1
    rw [Int.cast_mul] at h
    exact h

/-- What a reverse butterfly of the vector unit computes; the sums may get twice as low. -/
theorem revLane_holds {i : ℕ} (hi : i < 128) {L u v : ℤ} (hL : 1247 ≤ L) (hL' : L ≤ 16384)
    (hu : -L ≤ u ∧ u ≤ 3328) (hv : -L ≤ v ∧ v ≤ 3328) :
    Chk.Holds (revLane (-zetas.rd i) u v) fun p =>
      ((-(2 * L) ≤ p.1 ∧ p.1 ≤ 3328) ∧ (p.1 : Zq) = u + v) ∧
        ((-(2 * L) ≤ p.2 ∧ p.2 ≤ 3328) ∧ (p.2 : Zq) = -zq i * (u - v)) := by
  have hd : |v - u| ≤ 2 ^ 15 := abs_le.2 ⟨by omega, by omega⟩
  have hmul := mulLane_isMont (P := 1659 * 2 ^ 15) (x := u - v) (y := -zetas.rd i)
    (by
      rw [show (u - v) * -zetas.rd i = zetas.rd i * (v - u) by ring]
      exact twiddle_mul hi hd) (by norm_num)
  rw [show (u - v) * -zetas.rd i = zetas.rd i * (v - u) by ring] at hmul
  have hsub : Chk.Holds (csubLane (u + v)) fun s =>
      (-(2 * L) ≤ s ∧ s ≤ 3328) ∧ (s : Zq) = u + v := by
    unfold csubLane
    split
    · rename_i hle
      simp only [parQ] at hle
      rw [Chk.word16 (by simp only [parQ]; omega) (by simp only [parQ]; omega)]
      refine Chk.Holds.pure ⟨⟨by simp only [parQ]; omega, by simp only [parQ]; omega⟩, ?_⟩
      rw [Int.cast_sub, cast_parQ, sub_zero, Int.cast_add]
    · rename_i hle
      simp only [parQ] at hle
      exact Chk.Holds.pure ⟨⟨by omega, by omega⟩, Int.cast_add u v⟩
  unfold revLane
  rw [Chk.word16 (by omega) (by omega), pure_bind, Chk.word16 (by omega) (by omega), pure_bind]
  refine hsub.bind fun s hs => hmul.bind fun t ht => ?_
  obtain ⟨habs, htw⟩ := ht.twiddle
  obtain ⟨ht1, ht2⟩ := abs_le.1 habs
  refine Chk.Holds.pure ⟨hs, ⟨by omega, by omega⟩, ?_⟩
  rw [htw, Int.cast_sub]
  ring

/-- A few layers of reverse butterflies, before a normalization. -/
theorem revLayers_holds {ls : List ℕ} (hls : ∀ len ∈ ls, len ∈ [2, 4, 8, 16, 32, 64, 128])
    (hlen : ls.length ≤ 4) {a : Vector ℤ 256} {y : ℕ → Zq}
    (ha : ∀ k < 256, (-1664 ≤ a.rd k ∧ a.rd k ≤ 3328) ∧ (a.rd k : Zq) = y k) :
    Chk.Holds (ls.foldlM
      (fun a len => layerChk len (fun b => revLane (-zetas.rd (256 / len - 1 - b))) a) a) fun r =>
        ∀ k < 256, |r.rd k| ≤ 2 ^ 15 ∧ (r.rd k : Zq) = up 128 zqInv ls y k := by
  have hall : ∀ len ∈ [2, 4, 8, 16, 32, 64, 128], 0 < len ∧ 2 * len ∣ 256 := by decide
  have h := layers_holds (fun len b => revLane (-zetas.rd (256 / len - 1 - b)))
    (fun len => inv fun b => zqInv (128 / len + b)) ls (fun len hl => hall len (hls len hl))
    (fun i u u' => (-(2 ^ i * 1664) ≤ u ∧ u ≤ 3328) ∧ (u : Zq) = u')
    (fun i hi len hl b hb u v u' v' hu hv => by
      obtain ⟨hu, rfl⟩ := hu
      obtain ⟨hv, rfl⟩ := hv
      obtain ⟨hidx, htw⟩ := inv_twiddle (hls len hl) hb
      have hlo : (1 : ℤ) ≤ 2 ^ i := one_le_pow₀ (by norm_num)
      have hhi : (2 : ℤ) ^ i ≤ 2 ^ 3 := pow_le_pow_right₀ (by norm_num) (by omega)
      have hpow : (2 : ℤ) ^ (i + 1) * 1664 = 2 * (2 ^ i * 1664) := by ring
      have h := revLane_holds hidx (L := 2 ^ i * 1664) (by omega) (by omega) hu hv
      rw [← htw, ← hpow] at h
      exact h)
    (fun k hk => by simpa using ha k hk)
  refine h.mono fun r hr k hk => ?_
  obtain ⟨⟨h1, h2⟩, hc⟩ := hr k hk
  have hhi : (2 : ℤ) ^ ls.length ≤ 2 ^ 4 := pow_le_pow_right₀ (by norm_num) hlen
  exact ⟨abs_le.2 ⟨by omega, by omega⟩, hc⟩

/-- **The vector inverse transform** interpolates, times `2^16`, and nothing overflows. -/
theorem rvvPolyInvntt_spec {a : Vector ℤ 256} (ha : ∀ k < 256, |a.rd k| ≤ 1664) :
    Chk.Holds (rvvPolyInvntt a) fun r => (∀ k < 256, 0 ≤ r.rd k ∧ r.rd k ≤ 3328) ∧
      ∀ k < 256, ntt (ofCoeffs 256 fun i => (r.rd i : Zq)) k = 2 ^ 16 * (a.rd k : Zq) := by
  have hstart : ∀ k < 256, (-1664 ≤ a.rd k ∧ a.rd k ≤ 3328) ∧ (a.rd k : Zq) = (a.rd k : Zq) := by
    intro k hk
    obtain ⟨h1, h2⟩ := abs_le.1 (ha k hk)
    exact ⟨⟨h1, by omega⟩, rfl⟩
  rw [rvvPolyInvntt_eq]
  refine (revLayers_holds (by decide) (by decide) hstart).bind fun x hx => ?_
  have hnorm := Chk.Holds.tab fun k hk => normalize_holds (hx k hk).1
  refine hnorm.bind fun y hy => ?_
  have hmiddle : ∀ k < 256, (-1664 ≤ y.rd k ∧ y.rd k ≤ 3328) ∧
      (y.rd k : Zq) = up 128 zqInv [2, 4, 8] (fun i => (a.rd i : Zq)) k := by
    intro k hk
    obtain ⟨⟨h1, h2⟩, h3⟩ := hy k hk
    exact ⟨⟨by omega, h2⟩, h3.trans (hx k hk).2⟩
  refine (revLayers_holds (by decide) (by decide) hmiddle).bind fun z hz => ?_
  have hlast := Chk.Holds.tab fun k hk =>
    mulqLane_spec (hz k hk).1 (show |montNr| ≤ 3328 by decide)
  refine hlast.mono fun r hr => ⟨fun k hk => (hr k hk).2, ntt_scaled (x := z) ?_ ?_⟩
  · exact fun k hk => (hz k hk).2
  · intro k hk
    have h := (hr k hk).1
    push_cast at h
    exact h

end Mlkem
