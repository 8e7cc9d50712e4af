import Karudeb.Mlkem.NttSpec

/-!
# ML-KEM: polynomial arithmetic is exact

What the operations of `mlkem_ntt.c`, `rvv_poly.c` and `polyvec.c` mean in the
ring `Z_q[X] / (X^256 + 1)`, as long as the sizes of the coefficients allow; under
the same bounds nothing overflows.  Every specification is about both builds.

* `toRq` is the ring element with given coefficients, and `NttRep c a w` says that
  `a`, times `c`, holds the transform of `w`.
* `polyNtt_spec`, `polyBasemulMontgomery_spec`, `polyInvnttTomont_spec` : to the
  transform, products there, and back.
* `polyvecMul_negacyclic` : the way there and back computes sums of products of
  integer polynomials modulo `X^256 + 1` and `q`.
-/

namespace Mlkem

open Word Butterfly Rvv Negacyclic Fips203

/-! ## Representations -/

/-- The ring element with the coefficients of `a`. -/
noncomputable def toRq (a : Poly) : Rq := ofInts a.rd

/-- The coefficients are at most `B` in absolute value. -/
def Bounded (B : ℤ) (a : Poly) : Prop := ∀ k < 256, |a.rd k| ≤ B

/-- `a`, times `c`, is the transform of `w`. -/
def NttRep (c : Zq) (a : Poly) (w : Rq) : Prop := ∀ k < 256, (a.rd k : Zq) * c = ntt w k

variable {A B : ℤ} {a b : Poly} {u v w : Rq} {c d : Zq}

theorem Bounded.mono (ha : Bounded A a) (h : A ≤ B) : Bounded B a := fun k hk => (ha k hk).trans h

theorem bounded_of_std (h : ∀ k < 256, 0 ≤ a.rd k ∧ a.rd k ≤ B) : Bounded B a := by
  intro k hk
  obtain ⟨h1, h2⟩ := h k hk
  rwa [abs_of_nonneg h1]

theorem toRq_congr (h : ∀ k < 256, (a.rd k : Zq) = b.rd k) : toRq a = toRq b := ofCoeffs_congr h

theorem toRq_add {r : Poly} (h : ∀ k < 256, (r.rd k : Zq) = a.rd k + b.rd k) :
    toRq r = toRq a + toRq b :=
  (ofCoeffs_congr h).trans (ofCoeffs_add _ _)

theorem toRq_sub {r : Poly} (h : ∀ k < 256, (r.rd k : Zq) = a.rd k - b.rd k) :
    toRq r = toRq a - toRq b :=
  (ofCoeffs_congr h).trans (ofCoeffs_sub _ _)

theorem NttRep.congr (ha : NttRep c a w) (h : ∀ k < 256, (b.rd k : Zq) = a.rd k) : NttRep c b w := by
  intro k hk
  rw [h k hk]
  exact ha k hk

theorem NttRep.add {r : Poly} (ha : NttRep c a u) (hb : NttRep c b v)
    (h : ∀ k < 256, r.rd k = a.rd k + b.rd k) : NttRep c r (u + v) := by
  intro k hk
  rw [ntt_add, ← ha k hk, ← hb k hk, h k hk, Int.cast_add, add_mul]

theorem abs_mul_le {x y X Y : ℤ} (hx : |x| ≤ X) (hy : |y| ≤ Y) : |x * y| ≤ X * Y := by
  rw [abs_mul]
  exact mul_le_mul hx hy (abs_nonneg y) ((abs_nonneg x).trans hx)

/-! ## Coefficient by coefficient -/

theorem word16_holds {x : ℤ} (h : |x| ≤ 32767) : Chk.Holds (Chk.word 16 x) (· = x) := by
  obtain ⟨h1, h2⟩ := abs_le.1 h
  exact Chk.Holds.word (by norm_num) (fits_16.2 ⟨by omega, by omega⟩)

theorem polyAdd_eq (build : Build) (a b : Poly) :
    polyAdd build a b = Chk.tab 256 fun k => Chk.word 16 (a.rd k + b.rd k) := by
  cases build with
  | scalar => rfl
  | rvv => exact rvvPolyAdd_eq a b

theorem polySub_eq (build : Build) (a b : Poly) :
    polySub build a b = Chk.tab 256 fun k => Chk.word 16 (a.rd k - b.rd k) := by
  cases build with
  | scalar => rfl
  | rvv => exact rvvPolySub_eq a b

theorem polyAdd_spec (build : Build) (ha : Bounded A a) (hb : Bounded B b) (h : A + B < 2 ^ 15) :
    Chk.Holds (polyAdd build a b) fun r =>
      Bounded (A + B) r ∧ ∀ k < 256, r.rd k = a.rd k + b.rd k := by
  have hle : ∀ k < 256, |a.rd k + b.rd k| ≤ A + B := fun k hk =>
    (abs_add_le _ _).trans (add_le_add (ha k hk) (hb k hk))
  rw [polyAdd_eq]
  have htab := Chk.Holds.tab fun k hk => word16_holds ((hle k hk).trans (by omega))
  refine htab.mono fun r hr => ⟨fun k hk => ?_, hr⟩
  rw [hr k hk]
  exact hle k hk

theorem polySub_spec (build : Build) (ha : Bounded A a) (hb : Bounded B b) (h : A + B < 2 ^ 15) :
    Chk.Holds (polySub build a b) fun r =>
      Bounded (A + B) r ∧ ∀ k < 256, r.rd k = a.rd k - b.rd k := by
  have hle : ∀ k < 256, |a.rd k - b.rd k| ≤ A + B := fun k hk =>
    (abs_sub _ _).trans (add_le_add (ha k hk) (hb k hk))
  rw [polySub_eq]
  have htab := Chk.Holds.tab fun k hk => word16_holds ((hle k hk).trans (by omega))
  refine htab.mono fun r hr => ⟨fun k hk => ?_, hr⟩
  rw [hr k hk]
  exact hle k hk

theorem polyReduce_spec (build : Build) (ha : Bounded 30000 a) :
    Chk.Holds (polyReduce build a) fun r =>
      Bounded 1664 r ∧ ∀ k < 256, (r.rd k : Zq) = a.rd k := by
  cases build with
  | scalar =>
    have htab := Chk.Holds.tab fun k hk => barrettReduce_spec (ha k hk)
    exact htab.mono fun r hr => ⟨fun k hk => (hr k hk).2, fun k hk => (hr k hk).1⟩
  | rvv =>
    have heq : polyReduce .rvv a = Chk.tab 256 fun k => barrettLane (a.rd k) := rvvPolyReduce_eq a
    rw [heq]
    have htab := Chk.Holds.tab fun k hk => barrettLane_spec (ha k hk)
    exact htab.mono fun r hr => ⟨fun k hk => (hr k hk).2, fun k hk => (hr k hk).1⟩

theorem polyTomont_spec (build : Build) (ha : Bounded 32767 a) :
    Chk.Holds (polyTomont build a) fun r =>
      Bounded 2341 r ∧ ∀ k < 256, (r.rd k : Zq) = a.rd k * 2 ^ 16 := by
  have hprod : ∀ k < 256, |a.rd k * 1353| ≤ 32767 * 1353 := fun k hk =>
    abs_mul_le (ha k hk) (by norm_num)
  have hunit : (1353 : Zq) * rInv = 2 ^ 16 := by decide
  have h : Chk.Holds (polyTomont build a) fun r =>
      ∀ k < 256, IsMont (32767 * 1353) (a.rd k * 1353) (r.rd k) := by
    cases build with
    | scalar =>
      refine Chk.Holds.tab fun k hk => ?_
      have hconst : (2 : ℤ) ^ 32 % parQ = 1353 := by decide
      rw [hconst]
      exact fqmul_isMont (hprod k hk) (by norm_num)
    | rvv =>
      have heq : polyTomont .rvv a = Chk.tab 256 fun k => mulLane (a.rd k) montR2 :=
        rvvPolyTomont_eq a
      rw [heq]
      exact Chk.Holds.tab fun k hk => mulLane_isMont (hprod k hk) (by norm_num)
  refine h.mono fun r hr => ⟨fun k hk => ?_, fun k hk => ?_⟩
  · have := (hr k hk).2
    omega
  · have hcast := (hr k hk).1
    push_cast at hcast
    linear_combination rInv * hcast - (r.rd k : Zq) * rInv_mul + (a.rd k : Zq) * hunit

/-! ## The transforms -/

theorem polyNtt_spec (build : Build) (ha : Bounded B a) (hB : B + 7 * 2494 ≤ 30000) :
    Chk.Holds (polyNtt build a) fun r => Bounded 3328 r ∧ NttRep 1 r (toRq a) := by
  cases build with
  | scalar =>
    refine (mlkemNtt_spec (by omega) ha).bind fun x hx => ?_
    have hred := polyReduce_spec .scalar fun k hk => (hx k hk).1.trans hB
    refine hred.mono fun r hr => ⟨hr.1.mono (by norm_num), fun k hk => ?_⟩
    rw [mul_one, hr.2 k hk]
    exact (hx k hk).2
  | rvv =>
    refine (rvvPolyNtt_spec (by omega) ha).mono fun r hr => ⟨bounded_of_std fun k hk => (hr k hk).1, ?_⟩
    intro k hk
    rw [mul_one]
    exact (hr k hk).2

theorem polyInvnttTomont_spec (build : Build) (ha : Bounded 1664 a) (hw : NttRep (2 ^ 16) a w) :
    Chk.Holds (polyInvnttTomont build a) fun r => Bounded 3328 r ∧ toRq r = w := by
  have hback : ∀ r : Poly, (∀ k < 256, ntt (toRq r) k = 2 ^ 16 * (a.rd k : Zq)) → toRq r = w := by
    intro r hr
    refine ntt_injective fun k hk => ?_
    rw [hr k hk, mul_comm]
    exact hw k hk
  cases build with
  | scalar =>
    refine (mlkemInvntt_spec fun k hk => (ha k hk).trans (by norm_num)).mono fun r hr => ?_
    exact ⟨hr.1, hback r hr.2⟩
  | rvv =>
    refine (rvvPolyInvntt_spec ha).mono fun r hr => ?_
    exact ⟨bounded_of_std hr.1, hback r hr.2⟩

/-! ## Products in the transform domain -/

/-- The pair `(r0, r1)` is the product of the pairs `(a0, a1)` and `(b0, b1)` modulo
`X^2 - g`, by one Montgomery factor too small. -/
structure IsBasemul (g : Zq) (a0 a1 b0 b1 r0 r1 : ℤ) : Prop where
  even : (r0 : Zq) * 2 ^ 16 = a0 * b0 + g * (a1 * b1)
  odd : (r1 : Zq) * 2 ^ 16 = a0 * b1 + a1 * b0
  le_even : |r0| ≤ 3744
  le_odd : |r1| ≤ 3744

theorem nttRep_of_basemul {r : Poly} (hu : NttRep c a u) (hv : NttRep d b v)
    (h : ∀ i < 128, IsBasemul (gamma i) (a.rd (2 * i)) (a.rd (2 * i + 1)) (b.rd (2 * i))
      (b.rd (2 * i + 1)) (r.rd (2 * i)) (r.rd (2 * i + 1))) :
    Bounded 3744 r ∧ NttRep (2 ^ 16 * (c * d)) r (u * v) := by
  have hk : ∀ k < 256, ∃ i < 128, k = 2 * i ∨ k = 2 * i + 1 := fun k hk =>
    ⟨k / 2, by omega, by omega⟩
  constructor
  · intro k hk'
    obtain ⟨i, hi, rfl | rfl⟩ := hk k hk'
    · exact (h i hi).le_even
    · exact (h i hi).le_odd
  · intro k hk'
    obtain ⟨i, hi, rfl | rfl⟩ := hk k hk'
    · rw [ntt_mul_even, ← hu _ (by omega), ← hu _ (by omega), ← hv _ (by omega), ← hv _ (by omega)]
      linear_combination c * d * (h i hi).even
    · rw [ntt_mul_odd, ← hu _ (by omega), ← hu _ (by omega), ← hv _ (by omega), ← hv _ (by omega)]
      linear_combination c * d * (h i hi).odd

/-- The two roots that block `i` of `mlkem_ntt` ends with. -/
theorem gamma_eq {i : ℕ} (hi : i < 64) :
    gamma (2 * i) = zetas.rd (64 + i) * rInv ∧ gamma (2 * i + 1) = -zetas.rd (64 + i) * rInv := by
  rw [← zetas_leaf (show 2 * i < 128 by omega), ← zetas_leaf (show 2 * i + 1 < 128 by omega)]
  unfold cq zq
  rw [if_neg (by omega), if_pos (by omega), if_neg (by omega), if_neg (by omega),
    show (128 + 2 * i) / 2 = 64 + i by omega, show (128 + (2 * i + 1)) / 2 = 64 + i by omega]
  exact ⟨rfl, (neg_mul _ _).symm⟩

/-- **`basemul`** multiplies residues. -/
theorem basemul_holds {a0 a1 b0 b1 zeta : ℤ} (ha0 : |a0| ≤ 4095) (ha1 : |a1| ≤ 4095)
    (hb0 : |b0| ≤ 3328) (hb1 : |b1| ≤ 3328) (hz : |zeta| ≤ 1659) :
    Chk.Holds (basemul a0 a1 b0 b1 zeta) fun p =>
      IsBasemul (zeta * rInv) a0 a1 b0 b1 p.1 p.2 := by
  have hmul : ∀ {x y : ℤ}, |x| ≤ 4095 → |y| ≤ 3328 →
      Chk.Holds (fqmul x y) fun t => |t| ≤ 1872 ∧ (t : Zq) * 2 ^ 16 = x * y := by
    intro x y hx hy
    refine (fqmul_isMont (abs_mul_le hx hy) (by norm_num)).mono fun t ht => ?_
    obtain ⟨hcast, habs⟩ := ht
    rw [Int.cast_mul] at hcast
    exact ⟨by omega, hcast⟩
  unfold basemul
  refine (hmul ha1 hb1).bind fun s hs => ?_
  have hsz := fqmul_isMont (abs_mul_le hs.1 hz) (by norm_num)
  refine hsz.bind fun s' hs' => (hmul ha0 hb0).bind fun p hp => ?_
  obtain ⟨hcast, habs⟩ := hs'
  have hle : |s' + p| ≤ 3744 := (abs_add_le _ _).trans (by omega)
  refine (word16_holds (hle.trans (by norm_num))).bind fun r0 hr0 => ?_
  refine (hmul ha0 hb1).bind fun x hx => (hmul ha1 hb0).bind fun y hy => ?_
  have hle' : |x + y| ≤ 3744 := (abs_add_le _ _).trans (by omega)
  refine (word16_holds (hle'.trans (by norm_num))).bind fun r1 hr1 => ?_
  subst hr0 hr1
  push_cast at hcast
  refine Chk.Holds.pure ⟨?_, ?_, hle, hle'⟩
  · push_cast
    linear_combination hcast + hp.2 + zeta * rInv * hs.2 - (s : Zq) * zeta * rInv_mul
  · push_cast
    linear_combination hx.2 + hy.2

theorem basemulBlock_holds (ha : Bounded 4095 a) (hb : Bounded 3328 b) {i : ℕ} (hi : i < 64) :
    Chk.Holds (basemulBlock a b i) fun v =>
      IsBasemul (gamma (2 * i)) (a.rd (4 * i)) (a.rd (4 * i + 1)) (b.rd (4 * i)) (b.rd (4 * i + 1))
        (v.rd 0) (v.rd 1) ∧
      IsBasemul (gamma (2 * i + 1)) (a.rd (4 * i + 2)) (a.rd (4 * i + 3)) (b.rd (4 * i + 2))
        (b.rd (4 * i + 3)) (v.rd 2) (v.rd 3) := by
  have hz := zetas_bound (show 64 + i < 128 by omega)
  have hz' : |-zetas.rd (64 + i)| ≤ 1659 := by rwa [abs_neg]
  obtain ⟨hg, hg'⟩ := gamma_eq hi
  unfold basemulBlock
  refine (basemul_holds (ha _ (by omega)) (ha _ (by omega)) (hb _ (by omega)) (hb _ (by omega))
    hz).bind fun p hp => ?_
  refine (basemul_holds (ha _ (by omega)) (ha _ (by omega)) (hb _ (by omega)) (hb _ (by omega))
    hz').bind fun s hs => Chk.Holds.pure ?_
  rw [Int.cast_neg] at hs
  rw [hg, hg']
  exact ⟨hp, hs⟩

theorem scalarPolyBasemulMontgomery_spec (ha : Bounded 4095 a) (hb : Bounded 3328 b) :
    Chk.Holds (scalarPolyBasemulMontgomery a b) fun r => ∀ i < 128,
      IsBasemul (gamma i) (a.rd (2 * i)) (a.rd (2 * i + 1)) (b.rd (2 * i)) (b.rd (2 * i + 1))
        (r.rd (2 * i)) (r.rd (2 * i + 1)) := by
  have h := ofRegs_holds (show 256 = 4 * 64 from rfl) fun i hi => basemulBlock_holds ha hb hi
  refine h.mono fun r hr i hi => ?_
  obtain ⟨j, rfl | rfl⟩ : ∃ j, i = 2 * j ∨ i = 2 * j + 1 := ⟨i / 2, by omega⟩
  · have hj := (hr j (by omega)).1
    rw [Vector.rd_slice _ _ (by norm_num), Vector.rd_slice _ _ (by norm_num)] at hj
    rw [show 2 * (2 * j) = 4 * j by ring]
    exact hj
  · have hj := (hr j (by omega)).2
    rw [Vector.rd_slice _ _ (by norm_num), Vector.rd_slice _ _ (by norm_num)] at hj
    rw [show 2 * (2 * j + 1) = 4 * j + 2 by ring]
    exact hj

/-- Sums of registers whose lanes fit. -/
theorem vaddVV_holds {v w : Vector ℤ 16} {P : ℤ} (hP : P < 2 ^ 31)
    (h : ∀ l < 16, |v.rd l + w.rd l| ≤ P) :
    Chk.Holds (vaddVV 32 v w) fun r => ∀ l < 16, r.rd l = v.rd l + w.rd l := by
  have hlane : ∀ l < 16, Chk.Holds (Chk.word 32 (v.rd l + w.rd l)) (· = v.rd l + w.rd l) := by
    intro l hl
    obtain ⟨h1, h2⟩ := abs_le.1 (h l hl)
    exact Chk.Holds.word (by norm_num) (fits_32.2 ⟨by omega, by omega⟩)
  exact Chk.Holds.tab hlane

section BasemulReg

variable {vz vt vu p : Vector ℤ 16}

/-- The register `sw0` swaps neighbours, and `sb0` marks the even lanes. -/
theorem sw0_sb0 : ∀ l < 8,
    (vxorVX (vidV 16) 1).rd (2 * l) = 2 * l + 1 ∧ (vxorVX (vidV 16) 1).rd (2 * l + 1) = 2 * l ∧
      (vmsequVX (vandVX (vidV 16) 1) 0).rd (2 * l) = true ∧
        (vmsequVX (vandVX (vidV 16) 1) 0).rd (2 * l + 1) = false := by
  decide +kernel

/-- The lane behind, or zero. -/
theorem vslidedown_le {v : Vector ℤ 16} {P : ℤ} (hP : 0 ≤ P) (h : ∀ l < 16, |v.rd l| ≤ P) {l : ℕ}
    (hl : l < 16) : |(vslidedownVX v 1).rd l| ≤ P := by
  rw [vslidedownVX, Vector.rd_tab _ hl]
  split
  · rename_i hlt
    exact h _ hlt
  · rwa [abs_zero]

/-- The lane before, or the lane itself. -/
theorem vslideup_le {v : Vector ℤ 16} {P : ℤ} (h : ∀ l < 16, |v.rd l| ≤ P) {l : ℕ}
    (hl : l < 16) : |(vslideupVX v v 1).rd l| ≤ P := by
  rw [vslideupVX, Vector.rd_tab _ hl]
  split
  · exact h l hl
  · exact h _ (by omega)

/-- One register of the vector `poly_basemul_montgomery`: the even lanes take the sum
`z0 * p0 + z1 * p1`, the odd ones `a0 * b1 + a1 * b0`, and all are then reduced. -/
theorem basemulReg_holds (hz : ∀ l < 16, |vz.rd l| ≤ 1659) (ht : ∀ l < 16, |vt.rd l| ≤ 4095)
    (hu : ∀ l < 16, |vu.rd l| ≤ 3328) (hone : ∀ l < 8, (vz.rd (2 * l) : Zq) * rInv = 1) :
    Chk.Holds (basemulReg vz vt vu) fun r => ∀ l < 8,
      IsBasemul (vz.rd (2 * l + 1) * rInv) (vt.rd (2 * l)) (vt.rd (2 * l + 1)) (vu.rd (2 * l))
        (vu.rd (2 * l + 1)) (r.rd (2 * l)) (r.rd (2 * l + 1)) := by
  have hprod : ∀ l < 16, Chk.Holds (mulLane (vt.rd l) (vu.rd l)) fun t =>
      |t| ≤ 1872 ∧ (t : Zq) * 2 ^ 16 = vt.rd l * vu.rd l := fun l hl => by
    refine (mulLane_isMont (abs_mul_le (ht l hl) (hu l hl)) (by norm_num)).mono fun t ht => ?_
    obtain ⟨hcast, habs⟩ := ht
    rw [Int.cast_mul] at hcast
    exact ⟨by omega, hcast⟩
  unfold basemulReg
  rw [fqMulVV_eq]
  refine (Chk.Holds.tab hprod).bind fun p hp => ?_
  dsimp only
  -- the products in 32-bit lanes
  have hA : ∀ l < 16, (vwmulVV vz p).rd l = vz.rd l * p.rd l := fun l hl => Vector.rd_tab _ hl
  have hAle : ∀ l < 16, |(vwmulVV vz p).rd l| ≤ 1659 * 1872 := fun l hl => by
    rw [hA l hl]
    exact abs_mul_le (hz l hl) (hp l hl).1
  have hsw : ∀ l < 16, (vxorVX (vidV 16) 1).rd l < 16 := by decide +kernel
  have hB : ∀ l < 16, (vwmulVV vt (vrgatherVV vu (vxorVX (vidV 16) 1))).rd l =
      vt.rd l * vu.rd ((vxorVX (vidV 16) 1).rd l) := fun l hl => by
    rw [vwmulVV, Vector.rd_tab _ hl, vrgatherVV, gather, Vector.rd_tab _ hl]
  have hBle : ∀ l < 16, |(vwmulVV vt (vrgatherVV vu (vxorVX (vidV 16) 1))).rd l| ≤ 4095 * 3328 :=
    fun l hl => by
      rw [hB l hl]
      exact abs_mul_le (ht l hl) (hu _ (hsw l hl))
  refine (vaddVV_holds (P := 2 * (1659 * 1872)) (by norm_num) fun l hl =>
    (abs_add_le _ _).trans ?_).bind fun wa hwa => ?_
  · have := hAle l hl
    have := vslidedown_le (by norm_num) hAle hl
    omega
  refine (vaddVV_holds (P := 2 * (4095 * 3328)) (by norm_num) fun l hl =>
    (abs_add_le _ _).trans ?_).bind fun wb hwb => ?_
  · have := hBle l hl
    have := vslideup_le hBle hl
    omega
  -- the merged register
  set m := vmergeVVM wb wa (vmsequVX (vandVX (vidV 16) 1) 0) with hm
  have heven : ∀ l < 8, m.rd (2 * l) =
      vz.rd (2 * l) * p.rd (2 * l) + vz.rd (2 * l + 1) * p.rd (2 * l + 1) := by
    intro l hl
    obtain ⟨-, -, hs, -⟩ := sw0_sb0 l hl
    rw [hm, vmergeVVM, Vector.rd_tab _ (by omega), if_pos hs, hwa _ (by omega), vslidedownVX,
      Vector.rd_tab _ (by omega), if_pos (by omega), hA _ (by omega), hA _ (by omega)]
  have hodd : ∀ l < 8, m.rd (2 * l + 1) =
      vt.rd (2 * l + 1) * vu.rd (2 * l) + vt.rd (2 * l) * vu.rd (2 * l + 1) := by
    intro l hl
    obtain ⟨hs0, hs1, -, hs⟩ := sw0_sb0 l hl
    rw [hm, vmergeVVM, Vector.rd_tab _ (by omega), if_neg (by rw [hs]; decide), hwb _ (by omega),
      vslideupVX, Vector.rd_tab _ (by omega), if_neg (by omega), Nat.add_sub_cancel,
      hB _ (by omega), hB _ (by omega), hs0, hs1]
  have hle : ∀ l < 16, |m.rd l| ≤ 2 * (4095 * 3328) := by
    intro l hl
    rw [hm, vmergeVVM, Vector.rd_tab _ hl]
    split
    · rw [hwa l hl]
      have := hAle l hl
      have := vslidedown_le (by norm_num) hAle hl
      exact (abs_add_le _ _).trans (by omega)
    · rw [hwb l hl]
      have := hBle l hl
      have := vslideup_le hBle hl
      exact (abs_add_le _ _).trans (by omega)
  rw [fqRedc2_eq]
  have hredc := Chk.Holds.tab fun l hl => redcLane_isMont (hle l hl) (by norm_num)
  refine hredc.mono fun r hr l hl => ?_
  obtain ⟨hcast0, habs0⟩ := hr (2 * l) (by omega)
  obtain ⟨hcast1, habs1⟩ := hr (2 * l + 1) (by omega)
  rw [heven l hl] at hcast0
  rw [hodd l hl] at hcast1
  push_cast at hcast0 hcast1
  refine ⟨?_, ?_, by omega, by omega⟩
  · have h0 := (hp (2 * l) (by omega)).2
    have h1 := (hp (2 * l + 1) (by omega)).2
    linear_combination hcast0 + (vz.rd (2 * l) : Zq) * rInv * h0 +
      (vz.rd (2 * l + 1) : Zq) * rInv * h1 -
      ((vz.rd (2 * l) : Zq) * p.rd (2 * l) + (vz.rd (2 * l + 1) : Zq) * p.rd (2 * l + 1)) *
        rInv_mul + (vt.rd (2 * l) : Zq) * vu.rd (2 * l) * hone l hl
  · linear_combination hcast1

end BasemulReg

/-- The table of the vector build holds the roots in its odd lanes. -/
theorem rvvRoots_spec : ∀ i < 128, |rvvRoots.rd (2 * i)| ≤ 1659 ∧ |rvvRoots.rd (2 * i + 1)| ≤ 1659 ∧
    (rvvRoots.rd (2 * i) : Zq) * rInv = 1 ∧ (rvvRoots.rd (2 * i + 1) : Zq) * rInv = gamma i := by
  decide +kernel

theorem rvvRoots_le {k : ℕ} (hk : k < 256) : |rvvRoots.rd k| ≤ 1659 := by
  obtain ⟨i, rfl | rfl⟩ : ∃ i, k = 2 * i ∨ k = 2 * i + 1 := ⟨k / 2, by omega⟩
  · exact (rvvRoots_spec i (by omega)).1
  · exact (rvvRoots_spec i (by omega)).2.1

theorem rvvPolyBasemulMontgomery_spec (ha : Bounded 4095 a) (hb : Bounded 3328 b) :
    Chk.Holds (rvvPolyBasemulMontgomery a b) fun r => ∀ i < 128,
      IsBasemul (gamma i) (a.rd (2 * i)) (a.rd (2 * i + 1)) (b.rd (2 * i)) (b.rd (2 * i + 1))
        (r.rd (2 * i)) (r.rd (2 * i + 1)) := by
  have hreg : ∀ j < 16, Chk.Holds (basemulReg (rvvRoots.slice (16 * j) 16) (a.slice (16 * j) 16)
      (b.slice (16 * j) 16)) fun v => ∀ l < 8, IsBasemul (gamma (8 * j + l))
        (a.rd (16 * j + 2 * l)) (a.rd (16 * j + (2 * l + 1))) (b.rd (16 * j + 2 * l))
        (b.rd (16 * j + (2 * l + 1))) (v.rd (2 * l)) (v.rd (2 * l + 1)) := by
    intro j hj
    have hz : ∀ l < 16, |(rvvRoots.slice (16 * j) 16).rd l| ≤ 1659 := fun l hl => by
      rw [Table.rd_slice _ _ hl]
      exact rvvRoots_le (by omega)
    have hone : ∀ l < 8, (((rvvRoots.slice (16 * j) 16).rd (2 * l) : ℤ) : Zq) * rInv = 1 :=
      fun l hl => by
        rw [Table.rd_slice _ _ (by omega), show 16 * j + 2 * l = 2 * (8 * j + l) by ring]
        exact (rvvRoots_spec _ (by omega)).2.2.1
    refine (basemulReg_holds hz (fun l hl => ?_) (fun l hl => ?_) hone).mono fun v hv l hl => ?_
    · rw [rd_load a j hl]
      exact ha _ (by omega)
    · rw [rd_load b j hl]
      exact hb _ (by omega)
    · have h := hv l hl
      rw [Table.rd_slice _ _ (by omega), show 16 * j + (2 * l + 1) = 2 * (8 * j + l) + 1 by ring,
        (rvvRoots_spec _ (by omega)).2.2.2, rd_load a j (by omega), rd_load a j (by omega),
        rd_load b j (by omega), rd_load b j (by omega)] at h
      exact h
  have h := ofRegs_holds (show 256 = 16 * 16 from rfl) hreg
  refine h.mono fun r hr i hi => ?_
  have hi' := hr (i / 8) (by omega) (i % 8) (by omega)
  rw [Vector.rd_slice _ _ (by omega), Vector.rd_slice _ _ (by omega),
    show 8 * (i / 8) + i % 8 = i by omega, show 16 * (i / 8) + 2 * (i % 8) = 2 * i by omega,
    show 16 * (i / 8) + (2 * (i % 8) + 1) = 2 * i + 1 by omega] at hi'
  exact hi'

/-- **`poly_basemul_montgomery`** multiplies, by one Montgomery factor too small. -/
theorem polyBasemulMontgomery_spec (build : Build) (ha : Bounded 4095 a) (hb : Bounded 3328 b)
    (hu : NttRep c a u) (hv : NttRep d b v) :
    Chk.Holds (polyBasemulMontgomery build a b) fun r =>
      Bounded 3744 r ∧ NttRep (2 ^ 16 * (c * d)) r (u * v) := by
  cases build with
  | scalar =>
    exact (scalarPolyBasemulMontgomery_spec ha hb).mono fun r hr => nttRep_of_basemul hu hv hr
  | rvv =>
    exact (rvvPolyBasemulMontgomery_spec ha hb).mono fun r hr => nttRep_of_basemul hu hv hr

/-! ## Vectors of polynomials -/

section PolyVec

variable {k : ℕ} {x y : PolyVec k} {w w' : ℕ → Rq}

theorem polyvecNtt_spec (build : Build) (hx : ∀ i < k, Bounded B (x.rd i))
    (hB : B + 7 * 2494 ≤ 30000) :
    Chk.Holds (polyvecNtt build x) fun r => ∀ i < k,
      Bounded 3328 (r.rd i) ∧ NttRep 1 (r.rd i) (toRq (x.rd i)) :=
  Chk.Holds.tab fun i hi => polyNtt_spec build (hx i hi) hB

theorem polyvecInvnttTomont_spec (build : Build) (hx : ∀ i < k, Bounded 1664 (x.rd i))
    (hw : ∀ i < k, NttRep (2 ^ 16) (x.rd i) (w i)) :
    Chk.Holds (polyvecInvnttTomont build x) fun r => ∀ i < k,
      Bounded 3328 (r.rd i) ∧ toRq (r.rd i) = w i :=
  Chk.Holds.tab fun i hi => polyInvnttTomont_spec build (hx i hi) (hw i hi)

theorem polyvecReduce_spec (build : Build) (hx : ∀ i < k, Bounded 30000 (x.rd i)) :
    Chk.Holds (polyvecReduce build x) fun r => ∀ i < k,
      Bounded 1664 (r.rd i) ∧ ∀ j < 256, ((r.rd i).rd j : Zq) = (x.rd i).rd j :=
  Chk.Holds.tab fun i hi => polyReduce_spec build (hx i hi)

theorem polyvecAdd_spec (build : Build) (hx : ∀ i < k, Bounded A (x.rd i))
    (hy : ∀ i < k, Bounded B (y.rd i)) (h : A + B < 2 ^ 15) :
    Chk.Holds (polyvecAdd build x y) fun r => ∀ i < k,
      Bounded (A + B) (r.rd i) ∧ ∀ j < 256, (r.rd i).rd j = (x.rd i).rd j + (y.rd i).rd j :=
  Chk.Holds.tab fun i hi => polyAdd_spec build (hx i hi) (hy i hi) h

/-- **`polyvec_basemul_acc_montgomery`** is the inner product in the transform domain. -/
theorem polyvecBasemulAccMontgomery_spec (build : Build) (hk : 0 < k) (hk4 : k ≤ 4)
    (hx : ∀ i < k, Bounded 4095 (x.rd i)) (hy : ∀ i < k, Bounded 3328 (y.rd i))
    (hw : ∀ i < k, NttRep c (x.rd i) (w i)) (hw' : ∀ i < k, NttRep d (y.rd i) (w' i)) :
    Chk.Holds (polyvecBasemulAccMontgomery build x y) fun r =>
      Bounded 1664 r ∧ NttRep (2 ^ 16 * (c * d)) r (∑ i ∈ Finset.range k, w i * w' i) := by
  have hterm : ∀ i < k, Chk.Holds (polyBasemulMontgomery build (x.rd i) (y.rd i)) fun t =>
      Bounded 3744 t ∧ NttRep (2 ^ 16 * (c * d)) t (w i * w' i) := fun i hi =>
    polyBasemulMontgomery_spec build (hx i hi) (hy i hi) (hw i hi) (hw' i hi)
  unfold polyvecBasemulAccMontgomery
  refine (hterm 0 hk).bind fun r hr => ?_
  -- after `m` turns the sum has `m + 1` terms
  have hrun := Chk.Holds.foldlM
    (f := fun r i => polyBasemulMontgomery build (x.rd (i + 1)) (y.rd (i + 1)) >>= polyAdd build r)
    (l := List.range (k - 1)) (s := r)
    (fun m r => Bounded ((m + 1) * 3744) r ∧
      NttRep (2 ^ 16 * (c * d)) r (∑ i ∈ Finset.range (m + 1), w i * w' i)) ?_ ?_
  · refine hrun.bind fun r hr => ?_
    rw [List.length_range, Nat.sub_add_cancel hk] at hr
    refine (polyReduce_spec build (hr.1.mono ?_)).mono fun t ht => ⟨ht.1, hr.2.congr ht.2⟩
    omega
  · refine ⟨?_, ?_⟩
    · rw [Nat.cast_zero, zero_add, one_mul]
      exact hr.1
    · rw [zero_add, Finset.sum_range_one]
      exact hr.2
  · intro m hm r hr
    rw [List.length_range] at hm
    rw [List.getElem_range]
    refine (hterm (m + 1) (by omega)).bind fun t ht => ?_
    refine (polyAdd_spec build hr.1 ht.1 (by omega)).mono fun s hs => ⟨?_, ?_⟩
    · refine hs.1.mono (le_of_eq ?_)
      push_cast
      ring
    · rw [Finset.sum_range_succ]
      exact hr.2.add ht.2 hs.2

/-- **Multiplication through the transform is negacyclic convolution**, in both builds.  For
vectors of integer polynomials with coefficients up to `q` in absolute value, every
coefficient of the result is congruent to that of the sum of the products in
`Z[X]/(X^256+1)`, and no operation on the way overflows. -/
theorem polyvecMul_negacyclic (build : Build) (hk : 2 ≤ k) (hk4 : k ≤ 4)
    (hx : ∀ i < k, ∀ j < 256, |(x.rd i).rd j| ≤ parQ)
    (hy : ∀ i < k, ∀ j < 256, |(y.rd i).rd j| ≤ parQ) :
    Chk.Holds (do
      let x ← polyvecNtt build x
      let y ← polyvecNtt build y
      let r ← polyvecBasemulAccMontgomery build x y
      polyInvnttTomont build r) fun r => ∀ j < 256,
        r.rd j ≡ coeff degree_pos
          (∑ i ∈ Finset.range k, ofCoeffs 256 (x.rd i).rd * ofCoeffs 256 (y.rd i).rd :
            Negacyclic ℤ 256) j [ZMOD parQ] := by
  refine (polyvecNtt_spec build hx (by norm_num)).bind fun x' hx' => ?_
  refine (polyvecNtt_spec build hy (by norm_num)).bind fun y' hy' => ?_
  refine (polyvecBasemulAccMontgomery_spec build (by omega) hk4
    (fun i hi => (hx' i hi).1.mono (by norm_num)) (fun i hi => (hy' i hi).1)
    (fun i hi => (hx' i hi).2) fun i hi => (hy' i hi).2).bind fun p hp => ?_
  rw [one_mul, mul_one] at hp
  refine (polyInvnttTomont_spec build hp.1 hp.2).mono fun r hr j hj => ?_
  have hmap : toRq r = Negacyclic.map (Int.castRingHom Zq)
      (∑ i ∈ Finset.range k, ofCoeffs 256 (x.rd i).rd * ofCoeffs 256 (y.rd i).rd) := by
    rw [hr.2, map_sum]
    refine Finset.sum_congr rfl fun i _ => ?_
    rw [map_mul, map_ofCoeffs, map_ofCoeffs]
    rfl
  have hcoeff := congrArg (fun w => coeff (show 0 < 256 by norm_num) w j) hmap
  rw [coeff_map _ _ _ hj] at hcoeff
  unfold toRq ofInts at hcoeff
  rw [coeff_ofCoeffs _ _ hj] at hcoeff
  exact (ZMod.intCast_eq_intCast_iff _ _ 3329).1 hcoeff

end PolyVec

/-- Two vectors with the largest coefficients. -/
theorem polyvecMul_negacyclic_top :
    Chk.Holds (do
      let x ← polyvecNtt .rvv (Vector.tab 4 fun _ => Vector.tab 256 fun _ => 3329 : PolyVec 4)
      let y ← polyvecNtt .rvv (Vector.tab 4 fun _ => Vector.tab 256 fun _ => -3329 : PolyVec 4)
      let r ← polyvecBasemulAccMontgomery .rvv x y
      polyInvnttTomont .rvv r) fun r => ∀ j < 256,
        r.rd j ≡ coeff degree_pos
          (∑ i ∈ Finset.range 4,
            ofCoeffs 256 ((Vector.tab 4 fun _ => Vector.tab 256 fun _ => 3329 : PolyVec 4).rd i).rd *
            ofCoeffs 256 ((Vector.tab 4 fun _ => Vector.tab 256 fun _ => -3329 : PolyVec 4).rd i).rd :
            Negacyclic ℤ 256) j [ZMOD parQ] := by
  refine polyvecMul_negacyclic .rvv (by norm_num) (by norm_num) (fun i hi j hj => ?_)
    fun i hi j hj => ?_
  · rw [Vector.rd_tab _ hi, Vector.rd_tab _ hj]
    decide
  · rw [Vector.rd_tab _ hi, Vector.rd_tab _ hj]
    decide

end Mlkem
