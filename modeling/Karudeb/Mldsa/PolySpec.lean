import Karudeb.Mldsa.NttSpec
import Karudeb.Mldsa.Poly

/-!
# ML-DSA: polynomial arithmetic is exact

What the operations of `mldsa_poly.c` and `polyvec.c` mean in the ring
`Z_q[X] / (X^256 + 1)`, as long as the sizes of the coefficients allow; under the
same bounds nothing overflows.

* `toRq` is the ring element with given coefficients, and `NttRep c a w` says that
  `a`, times `c`, holds the transform of `w`.
* `polyNtt_spec`, `polyPointwiseMontgomery_spec`, `polyInvnttTomont_spec` : to the
  transform, products there, and back.
* `nttMul_negacyclic` : the way there and back computes products of integer
  polynomials modulo `X^256 + 1` and `Q`.
-/

namespace Mldsa

open Word Negacyclic Fips204

/-! ## Representations -/

/-- The ring element with the coefficients of `a`. -/
noncomputable def toRq (a : Poly) : Rq := ofInts a.rd

/-- The coefficients are at most `B` in absolute value. -/
def Bounded (B : ℤ) (a : Poly) : Prop := ∀ k < 256, -B ≤ a.rd k ∧ a.rd k ≤ B

/-- `a`, times `c`, is the transform of `w`. -/
def NttRep (c : Zq) (a : Poly) (w : Rq) : Prop := ∀ k < 256, (a.rd k : Zq) * c = ntt w k

variable {A B : ℤ} {a b : Poly} {u v w : Rq} {c d : Zq}

theorem Bounded.mono (ha : Bounded A a) (h : A ≤ B) : Bounded B a := by
  intro k hk
  obtain ⟨h1, h2⟩ := ha k hk
  constructor <;> omega

theorem toRq_congr (h : ∀ k < 256, (a.rd k : Zq) = b.rd k) : toRq a = toRq b := ofCoeffs_congr h

theorem toRq_add {r : Poly} (h : ∀ k < 256, (r.rd k : Zq) = a.rd k + b.rd k) :
    toRq r = toRq a + toRq b :=
  (ofCoeffs_congr h).trans (ofCoeffs_add _ _)

theorem toRq_sub {r : Poly} (h : ∀ k < 256, (r.rd k : Zq) = a.rd k - b.rd k) :
    toRq r = toRq a - toRq b :=
  (ofCoeffs_congr h).trans (ofCoeffs_sub _ _)

theorem NttRep.congr (ha : NttRep c a w) (h : ∀ k < 256, (b.rd k : Zq) = a.rd k) : NttRep c b w := by
  intro k hk
  rw [h k hk]
  exact ha k hk

theorem ntt_add (u v : Rq) (k : ℕ) : ntt (u + v) k = ntt u k + ntt v k := map_add _ u v

theorem ntt_sub (u v : Rq) (k : ℕ) : ntt (u - v) k = ntt u k - ntt v k := map_sub _ u v

theorem ntt_mul (u v : Rq) (k : ℕ) : ntt (u * v) k = ntt u k * ntt v k := map_mul _ u v

/-! ## Sums and reductions -/

theorem polyAdd_spec (ha : Bounded A a) (hb : Bounded B b) (hAB : A + B < 2 ^ 31) :
    Chk.Holds (polyAdd a b) fun r =>
      Bounded (A + B) r ∧ ∀ k < 256, r.rd k = a.rd k + b.rd k := by
  have h : ∀ k < 256, Chk.Holds (Chk.word 32 (a.rd k + b.rd k)) (· = a.rd k + b.rd k) := by
    intro k hk
    obtain ⟨ha1, ha2⟩ := ha k hk
    obtain ⟨hb1, hb2⟩ := hb k hk
    exact Chk.Holds.word (by norm_num) (fits_32.2 ⟨by omega, by omega⟩)
  have htab := Chk.Holds.tab h
  refine htab.mono fun r hr => ⟨fun k hk => ?_, hr⟩
  obtain ⟨ha1, ha2⟩ := ha k hk
  obtain ⟨hb1, hb2⟩ := hb k hk
  rw [hr k hk]
  constructor <;> omega

theorem polySub_spec (ha : Bounded A a) (hb : Bounded B b) (hAB : A + B < 2 ^ 31) :
    Chk.Holds (polySub a b) fun r =>
      Bounded (A + B) r ∧ ∀ k < 256, r.rd k = a.rd k - b.rd k := by
  have h : ∀ k < 256, Chk.Holds (Chk.word 32 (a.rd k - b.rd k)) (· = a.rd k - b.rd k) := by
    intro k hk
    obtain ⟨ha1, ha2⟩ := ha k hk
    obtain ⟨hb1, hb2⟩ := hb k hk
    exact Chk.Holds.word (by norm_num) (fits_32.2 ⟨by omega, by omega⟩)
  have htab := Chk.Holds.tab h
  refine htab.mono fun r hr => ⟨fun k hk => ?_, hr⟩
  obtain ⟨ha1, ha2⟩ := ha k hk
  obtain ⟨hb1, hb2⟩ := hb k hk
  rw [hr k hk]
  constructor <;> omega

theorem polyReduce_spec (ha : Bounded (2 ^ 31 - 2 ^ 22 - 1) a) :
    Chk.Holds (polyReduce a) fun r =>
      Bounded 6283009 r ∧ ∀ k < 256, (r.rd k : Zq) = a.rd k := by
  have h : ∀ k < 256, Chk.Holds (reduce32 (a.rd k)) fun r =>
      (r : Zq) = (a.rd k : Zq) ∧ -6283009 ≤ r ∧ r ≤ 6283008 := by
    intro k hk
    obtain ⟨ha1, ha2⟩ := ha k hk
    exact reduce32_spec (by omega) ha2
  have htab := Chk.Holds.tab h
  refine htab.mono fun r hr => ⟨fun k hk => ?_, fun k hk => (hr k hk).1⟩
  obtain ⟨-, h1, h2⟩ := hr k hk
  exact ⟨h1, by omega⟩

theorem polyCaddq_spec (ha : Bounded 8380416 a) :
    Chk.Holds (polyCaddq a) fun r =>
      (∀ k < 256, 0 ≤ r.rd k ∧ r.rd k < 8380417) ∧ ∀ k < 256, (r.rd k : Zq) = a.rd k := by
  have h : ∀ k < 256, Chk.Holds (caddq (a.rd k)) fun r =>
      (r : Zq) = (a.rd k : Zq) ∧ 0 ≤ r ∧ r < parQ := by
    intro k hk
    obtain ⟨ha1, ha2⟩ := ha k hk
    exact caddq_spec (by simp only [parQ]; omega) (by simp only [parQ]; omega)
  have htab := Chk.Holds.tab h
  exact htab.mono fun r hr => ⟨fun k hk => (hr k hk).2, fun k hk => (hr k hk).1⟩

theorem polyShiftl_spec (ha : ∀ k < 256, 0 ≤ a.rd k ∧ a.rd k < 2 ^ 10) :
    Chk.Holds (polyShiftl a) fun r => ∀ k < 256, r.rd k = a.rd k * 2 ^ 13 := by
  have h : ∀ k < 256, Chk.Holds (shl (a.rd k) parD) fun r => r = a.rd k * 2 ^ 13 := by
    intro k hk
    obtain ⟨ha1, ha2⟩ := ha k hk
    unfold shl
    refine (Chk.Holds.require (by simpa using ha1)).bind fun _ _ => ?_
    exact Chk.Holds.word (by norm_num)
      (fits_32.2 ⟨by simp only [parD]; omega, by simp only [parD]; omega⟩)
  exact Chk.Holds.tab h

/-! ## The transform -/

theorem polyNtt_spec (ha : Bounded B a) (hB : B + 8 * 8380416 < 2 ^ 31) :
    Chk.Holds (polyNtt a) fun r => Bounded (B + 8 * 8380416) r ∧ NttRep 1 r (toRq a) := by
  refine (mldsaNtt_spec hB ha).mono fun r hr => ⟨fun k hk => (hr k hk).1, fun k hk => ?_⟩
  rw [mul_one]
  exact (hr k hk).2

theorem polyInvnttTomont_spec (ha : Bounded 8380416 a) (hw : NttRep (2 ^ 32) a w) :
    Chk.Holds (polyInvnttTomont a) fun r => Bounded 4211198 r ∧ toRq r = w := by
  refine (mldsaInvntt_spec ha).mono fun r hr => ⟨hr.1, ntt_injective fun k hk => ?_⟩
  have h := hr.2 k hk
  rw [mul_comm] at h
  exact h.trans (hw k hk)

/-- The product of two coefficients, by one Montgomery factor too small. -/
theorem pointwise_holds {x y : ℤ} (h1 : -(2 ^ 31 * 8380417) < x * y) (h2 : x * y < 2 ^ 31 * 8380417) :
    Chk.Holds (Chk.word 64 (x * y) >>= montgomeryReduce) fun t =>
      (-8380416 ≤ t ∧ t ≤ 8380416) ∧ (t : Zq) * 2 ^ 32 = (x : Zq) * y := by
  rw [Chk.word64 (by omega) (by omega), pure_bind]
  refine (montgomeryReduce_spec (by simp only [parQ]; omega) (by simp only [parQ]; omega)).mono ?_
  rintro t ⟨hcast, ht1, ht2⟩
  simp only [parQ] at ht1 ht2
  push_cast at hcast
  exact ⟨⟨by omega, by omega⟩, hcast⟩

theorem polyPointwiseMontgomery_spec (ha : Bounded A a) (hb : Bounded B b)
    (hAB : A * B < 2 ^ 31 * 8380417) (hu : NttRep c a u) (hv : NttRep d b v) :
    Chk.Holds (polyPointwiseMontgomery a b) fun r =>
      Bounded 8380416 r ∧ NttRep (2 ^ 32 * (c * d)) r (u * v) := by
  have h : ∀ k < 256, Chk.Holds (Chk.word 64 (a.rd k * b.rd k) >>= montgomeryReduce) fun t =>
      (-8380416 ≤ t ∧ t ≤ 8380416) ∧ (t : Zq) * 2 ^ 32 = (a.rd k : Zq) * b.rd k := by
    intro k hk
    obtain ⟨ha1, ha2⟩ := ha k hk
    obtain ⟨hb1, hb2⟩ := hb k hk
    have hprod : |a.rd k * b.rd k| ≤ A * B := by
      rw [abs_mul]
      exact mul_le_mul (abs_le.2 ⟨ha1, ha2⟩) (abs_le.2 ⟨hb1, hb2⟩) (abs_nonneg _) (by omega)
    obtain ⟨hp1, hp2⟩ := abs_le.1 hprod
    exact pointwise_holds (by omega) (by omega)
  have htab := Chk.Holds.tab h
  refine htab.mono fun r hr => ⟨fun k hk => (hr k hk).1, fun k hk => ?_⟩
  have h := (hr k hk).2
  rw [ntt_mul, ← hu k hk, ← hv k hk]
  linear_combination (c * d) * h

/-- **Multiplication through the transform is negacyclic convolution.**  For integer
polynomials with coefficients below `Q` in absolute value, every coefficient of the result
is below `Q` in absolute value and congruent to that of the product in `Z[X]/(X^256+1)`, and
no 32- or 64-bit operation on the way overflows. -/
theorem nttMul_negacyclic {a b : Poly} (ha : ∀ k < 256, |a.rd k| < parQ)
    (hb : ∀ k < 256, |b.rd k| < parQ) :
    Chk.Holds (do
      let x ← polyNtt a
      let y ← polyNtt b
      let p ← polyPointwiseMontgomery x y
      polyInvnttTomont p) fun r => ∀ k < 256, |r.rd k| < parQ ∧
        r.rd k ≡ coeff degree_pos
          (ofCoeffs 256 a.rd * ofCoeffs 256 b.rd : Negacyclic ℤ 256) k [ZMOD parQ] := by
  have hbound : ∀ {a : Poly}, (∀ k < 256, |a.rd k| < parQ) → Bounded 8380416 a := by
    intro a ha k hk
    have h := abs_lt.1 (ha k hk)
    simp only [parQ] at h
    constructor <;> omega
  refine (polyNtt_spec (hbound ha) (by norm_num)).bind fun x hx => ?_
  refine (polyNtt_spec (hbound hb) (by norm_num)).bind fun y hy => ?_
  refine (polyPointwiseMontgomery_spec hx.1 hy.1 (by norm_num) hx.2 hy.2).bind fun p hp => ?_
  rw [one_mul, mul_one] at hp
  refine (polyInvnttTomont_spec hp.1 hp.2).mono fun r hr k hk => ⟨?_, ?_⟩
  · obtain ⟨h1, h2⟩ := hr.1 k hk
    rw [abs_lt]
    simp only [parQ]
    constructor <;> omega
  · have hmap : toRq r = Negacyclic.map (Int.castRingHom Zq) (ofCoeffs 256 a.rd * ofCoeffs 256 b.rd) := by
      rw [hr.2, map_mul, map_ofCoeffs, map_ofCoeffs]
      rfl
    have hcoeff := congrArg (fun w => coeff (show 0 < 256 by norm_num) w k) hmap
    rw [coeff_map _ _ _ hk] at hcoeff
    unfold toRq ofInts at hcoeff
    rw [coeff_ofCoeffs _ _ hk] at hcoeff
    exact (ZMod.intCast_eq_intCast_iff _ _ 8380417).1 hcoeff

/-- The product of two polynomials with the largest coefficients. -/
theorem nttMul_negacyclic_top :
    Chk.Holds (do
      let x ← polyNtt (Vector.tab 256 fun _ => 8380416)
      let y ← polyNtt (Vector.tab 256 fun _ => -8380416)
      let p ← polyPointwiseMontgomery x y
      polyInvnttTomont p) fun r => ∀ k < 256, |r.rd k| < parQ ∧
        r.rd k ≡ coeff degree_pos
          (ofCoeffs 256 (Vector.tab 256 fun _ => 8380416).rd *
            ofCoeffs 256 (Vector.tab 256 fun _ => -8380416).rd : Negacyclic ℤ 256) k [ZMOD parQ] := by
  refine nttMul_negacyclic (fun k hk => ?_) fun k hk => ?_
  · rw [Vector.rd_tab _ hk]
    decide
  · rw [Vector.rd_tab _ hk]
    decide

end Mldsa
