import Karudeb.Mldsa.PolySpec
import Karudeb.Mldsa.Rounding

/-!
# ML-DSA: vectors of polynomials in the ring

The loops of `polyvec.c`, entry by entry over `PolySpec`, and the product of the
matrix with a vector.

* `VecBounded`, `VecRep`, `toRqs` : `Bounded`, `NttRep` and `toRq` of every entry.
* `polyvecPointwiseAccMontgomery_spec` : the sum of products that
  `polyvecl_pointwise_acc_montgomery` computes.
* `polyvecMatrixPointwiseMontgomery_spec` : the product with the matrix.
* `polyvecChknorm_spec` : the norm test.
* `reduce_range_iff` : when `reduce32` keeps to the range its comment gives.
* `std_toRq` : what `caddq` leaves are the standard representatives.
-/

namespace Mldsa

open Word Negacyclic Fips204

/-! ## Vectors -/

/-- Every entry is `Bounded`. -/
def VecBounded {n : ℕ} (B : ℤ) (v : PolyVec n) : Prop := ∀ r < n, Bounded B (v.rd r)

/-- Every entry is a transform, up to the factor `c`. -/
def VecRep {n : ℕ} (c : Zq) (v : PolyVec n) (w : ℕ → Rq) : Prop := ∀ r < n, NttRep c (v.rd r) (w r)

/-- The entries as ring elements. -/
noncomputable def toRqs {n : ℕ} (v : PolyVec n) (r : ℕ) : Rq := toRq (v.rd r)

/-- Every coefficient is a standard representative. -/
def VecStd {n : ℕ} (v : PolyVec n) : Prop := ∀ r < n, IsStd (v.rd r)

variable {n k : ℕ} {A B : ℤ} {a b : Poly} {u v : PolyVec n} {w w' : ℕ → Rq} {c d : Zq}

theorem VecBounded.mono (hv : VecBounded A v) (h : A ≤ B) : VecBounded B v :=
  fun r hr => (hv r hr).mono h

theorem polyvecNtt_spec (hv : VecBounded B v) (hB : B + 8 * 8380416 < 2 ^ 31) :
    Chk.Holds (polyvecNtt v) fun t => VecBounded (B + 8 * 8380416) t ∧ VecRep 1 t (toRqs v) := by
  have h := Chk.Holds.tab fun r hr => polyNtt_spec (hv r hr) hB
  exact h.mono fun t ht => ⟨fun r hr => (ht r hr).1, fun r hr => (ht r hr).2⟩

theorem polyvecInvnttTomont_spec (hv : VecBounded 8380416 v) (hw : VecRep (2 ^ 32) v w) :
    Chk.Holds (polyvecInvnttTomont v) fun t =>
      VecBounded 4211198 t ∧ ∀ r < n, toRqs t r = w r := by
  have h := Chk.Holds.tab fun r hr => polyInvnttTomont_spec (hv r hr) (hw r hr)
  exact h.mono fun t ht => ⟨fun r hr => (ht r hr).1, fun r hr => (ht r hr).2⟩

theorem polyvecReduce_spec (hv : VecBounded (2 ^ 31 - 2 ^ 22 - 1) v) :
    Chk.Holds (polyvecReduce v) fun t =>
      VecBounded 6283009 t ∧ ∀ r < n, ∀ j < 256, ((t.rd r).rd j : Zq) = (v.rd r).rd j := by
  have h := Chk.Holds.tab fun r hr => polyReduce_spec (hv r hr)
  exact h.mono fun t ht => ⟨fun r hr => (ht r hr).1, fun r hr => (ht r hr).2⟩

/-- What is reduced is the transform of the same vector. -/
theorem polyvecReduce_rep (hv : VecBounded (2 ^ 31 - 2 ^ 22 - 1) v) (hw : VecRep c v w) :
    Chk.Holds (polyvecReduce v) fun t => VecBounded 6283009 t ∧ VecRep c t w :=
  (polyvecReduce_spec hv).mono fun _ ht => ⟨ht.1, fun r hr => (hw r hr).congr (ht.2 r hr)⟩

theorem polyvecCaddq_spec (hv : VecBounded 8380416 v) :
    Chk.Holds (polyvecCaddq v) fun t =>
      VecStd t ∧ ∀ r < n, ∀ j < 256, ((t.rd r).rd j : Zq) = (v.rd r).rd j := by
  have h := Chk.Holds.tab fun r hr => polyCaddq_spec (hv r hr)
  exact h.mono fun t ht => ⟨fun r hr => (ht r hr).1, fun r hr => (ht r hr).2⟩

theorem polyvecAdd_spec (hu : VecBounded A u) (hv : VecBounded B v) (hAB : A + B < 2 ^ 31) :
    Chk.Holds (polyvecAdd u v) fun t => VecBounded (A + B) t ∧
      ∀ r < n, ∀ j < 256, (t.rd r).rd j = (u.rd r).rd j + (v.rd r).rd j := by
  have h := Chk.Holds.tab fun r hr => polyAdd_spec (hu r hr) (hv r hr) hAB
  exact h.mono fun t ht => ⟨fun r hr => (ht r hr).1, fun r hr => (ht r hr).2⟩

theorem polyvecSub_spec (hu : VecBounded A u) (hv : VecBounded B v) (hAB : A + B < 2 ^ 31) :
    Chk.Holds (polyvecSub u v) fun t => VecBounded (A + B) t ∧
      ∀ r < n, ∀ j < 256, (t.rd r).rd j = (u.rd r).rd j - (v.rd r).rd j := by
  have h := Chk.Holds.tab fun r hr => polySub_spec (hu r hr) (hv r hr) hAB
  exact h.mono fun t ht => ⟨fun r hr => (ht r hr).1, fun r hr => (ht r hr).2⟩

theorem polyvecShiftl_spec (hv : ∀ r < n, ∀ j < 256, 0 ≤ (v.rd r).rd j ∧ (v.rd r).rd j < 2 ^ 10) :
    Chk.Holds (polyvecShiftl v) fun t =>
      ∀ r < n, ∀ j < 256, (t.rd r).rd j = (v.rd r).rd j * 2 ^ 13 :=
  Chk.Holds.tab fun r hr => polyShiftl_spec (hv r hr)

theorem polyvecPointwisePolyMontgomery_spec {x : Rq} (ha : Bounded A a) (hv : VecBounded B v)
    (hAB : A * B < 2 ^ 31 * 8380417) (hx : NttRep c a x) (hw : VecRep d v w) :
    Chk.Holds (polyvecPointwisePolyMontgomery a v) fun t =>
      VecBounded 8380416 t ∧ VecRep (2 ^ 32 * (c * d)) t fun r => x * w r := by
  have h := Chk.Holds.tab fun r hr =>
    polyPointwiseMontgomery_spec ha (hv r hr) hAB hx (hw r hr)
  exact h.mono fun t ht => ⟨fun r hr => (ht r hr).1, fun r hr => (ht r hr).2⟩

/-! ## The range of a reduction -/

/-- Every coefficient is an `int32_t` up to the bound `reduce32` asks for. -/
def Reducible (a : Poly) : Prop := ∀ j < 256, -2 ^ 31 ≤ a.rd j ∧ a.rd j ≤ 2 ^ 31 - 2 ^ 22 - 1

/-- What the comment above `reduce32` says of its result, for every coefficient. -/
def IsReduction (a r : Poly) : Prop :=
  ∀ j < 256, r.rd j ≡ a.rd j [ZMOD parQ] ∧ -6283008 ≤ r.rd j ∧ r.rd j ≤ 6283008

/-- Nothing overflows, and what is left is congruent and at most one step out of range. -/
theorem polyReduce_exact (ha : Reducible a) :
    Chk.Holds (polyReduce a) fun r =>
      ∀ j < 256, r.rd j = a.rd j - (a.rd j + 2 ^ 22) / 2 ^ 23 * parQ := by
  have h : ∀ j < 256, Chk.Holds (reduce32 (a.rd j)) fun r =>
      r = a.rd j - (a.rd j + 2 ^ 22) / 2 ^ 23 * parQ := by
    intro j hj
    rw [reduce32_eq (ha j hj).1 (ha j hj).2]
    exact Chk.Holds.pure rfl
  exact Chk.Holds.tab h

/-- **The range holds of a polynomial** up to one value of its coefficients. -/
theorem isReduction_iff (ha : Reducible a) :
    Chk.Holds (polyReduce a) (IsReduction a) ↔ ∀ j < 256, a.rd j ≠ -2143289344 := by
  have hval := polyReduce_exact ha
  constructor
  · intro h j hj
    obtain ⟨-, hlo, -⟩ := h.2 j hj
    rw [hval.2 j hj] at hlo
    intro hbad
    rw [hbad] at hlo
    exact absurd hlo (by decide)
  · intro h
    refine hval.mono fun r hr j hj => ?_
    have hne := h j hj
    obtain ⟨h1, h2⟩ := ha j hj
    rw [hr j hj]
    refine ⟨Int.modEq_iff_dvd.2 ⟨(a.rd j + 2 ^ 22) / 2 ^ 23, by ring⟩, ?_, ?_⟩
    · simp only [parQ]
      omega
    · simp only [parQ]
      omega

/-- A check of an array holds if it holds of every entry. -/
theorem polyvecReduce_iff :
    Chk.Holds (polyvecReduce v) (fun t => ∀ r < n, IsReduction (v.rd r) (t.rd r)) ↔
      ∀ r < n, Chk.Holds (polyReduce (v.rd r)) (IsReduction (v.rd r)) := by
  constructor
  · intro h r hr
    refine ⟨Chk.ok_tab.1 h.1 r hr, ?_⟩
    have := h.2 r hr
    rwa [polyvecReduce, Chk.val_tab, Vector.rd_tab _ hr] at this
  · exact fun h => Chk.Holds.tab h

/-- **`reduce32` keeps to the range of its comment** except on the one value
`2^22 - 2^31`, where the quotient is rounded up from a half; so on polynomials
and on vectors of them. -/
theorem reduce_range_iff (a : Poly) (ha : Reducible a) (n : ℕ) (v : PolyVec n)
    (hv : ∀ r < n, Reducible (v.rd r)) :
    (Chk.Holds (polyReduce a) (IsReduction a) ↔ ∀ j < 256, a.rd j ≠ -2143289344) ∧
      (Chk.Holds (polyvecReduce v) (fun t => ∀ r < n, IsReduction (v.rd r) (t.rd r)) ↔
        ∀ r < n, ∀ j < 256, (v.rd r).rd j ≠ -2143289344) := by
  refine ⟨isReduction_iff ha, ?_⟩
  rw [polyvecReduce_iff]
  exact forall₂_congr fun r hr => isReduction_iff (hv r hr)

/-- The polynomial with one coefficient everywhere. -/
def constPoly (x : ℤ) : Poly := Vector.tab 256 fun _ => x

theorem reducible_constPoly {x : ℤ} (h1 : -2 ^ 31 ≤ x) (h2 : x ≤ 2 ^ 31 - 2 ^ 22 - 1) :
    Reducible (constPoly x) := fun j hj => by
  rw [constPoly, Vector.rd_tab _ hj]
  exact ⟨h1, h2⟩

/-- The least word is reduced into the range. -/
theorem reduce_range_iff_least :
    Chk.Holds (polyReduce (constPoly (-2 ^ 31))) (IsReduction (constPoly (-2 ^ 31))) ∧
    Chk.Holds (polyvecReduce (Vector.tab 4 fun _ => constPoly (-2 ^ 31)))
      (fun t => ∀ r < 4, IsReduction (constPoly (-2 ^ 31)) (t.rd r)) := by
  have hred : Reducible (constPoly (-2 ^ 31)) := reducible_constPoly (by norm_num) (by norm_num)
  have hne : ∀ j < 256, (constPoly (-2 ^ 31)).rd j ≠ -2143289344 := fun j hj => by
    rw [constPoly, Vector.rd_tab _ hj]
    norm_num
  have h := reduce_range_iff (constPoly (-2 ^ 31)) hred 4
    (Vector.tab 4 fun _ => constPoly (-2 ^ 31)) fun r hr => by rwa [Vector.rd_tab _ hr]
  have hvec := h.2.2 fun r hr => by rwa [Vector.rd_tab _ hr]
  refine ⟨h.1.2 hne, hvec.mono fun t ht r hr => ?_⟩
  have := ht r hr
  rwa [Vector.rd_tab _ hr] at this

/-- **One value is reduced out of the range.** -/
theorem reduce_range_fails :
    ¬∀ a : Poly, Reducible a → Chk.Holds (polyReduce a) (IsReduction a) := by
  intro h
  have hred : Reducible (constPoly (-2143289344)) :=
    reducible_constPoly (by norm_num) (by norm_num)
  refine (isReduction_iff hred).1 (h _ hred) 0 (by norm_num) ?_
  exact Vector.rd_tab _ (by norm_num)

/-! ## Sums of products -/

/-- **A sum of products**, by one Montgomery factor too small.  It grows by at most `Q` a
term, so that seven of them fit. -/
theorem polyvecPointwiseAccMontgomery_spec (hn : 1 ≤ n) (hn' : n ≤ 7) (hu : VecBounded A u)
    (hv : VecBounded B v) (hAB : A * B < 2 ^ 31 * 8380417) (hw : VecRep c u w)
    (hw' : VecRep d v w') :
    Chk.Holds (polyvecPointwiseAccMontgomery u v) fun r => Bounded (7 * 8380416) r ∧
      NttRep (2 ^ 32 * (c * d)) r (∑ i ∈ Finset.range n, w i * w' i) := by
  have hterm : ∀ i < n, Chk.Holds (polyPointwiseMontgomery (u.rd i) (v.rd i)) fun r =>
      Bounded 8380416 r ∧ NttRep (2 ^ 32 * (c * d)) r (w i * w' i) := fun i hi =>
    polyPointwiseMontgomery_spec (hu i hi) (hv i hi) hAB (hw i hi) (hw' i hi)
  refine (hterm 0 (by omega)).bind fun r hr => ?_
  -- after `m` turns the sum has `m + 1` terms
  have hrun := Chk.Holds.foldlM
    (f := fun t i => polyPointwiseMontgomery (u.rd (i + 1)) (v.rd (i + 1)) >>= polyAdd t)
    (l := List.range (n - 1)) (s := r)
    (fun m t => Bounded ((m + 1) * 8380416) t ∧
      NttRep (2 ^ 32 * (c * d)) t (∑ i ∈ Finset.range (m + 1), w i * w' i)) ?_ ?_
  · refine hrun.mono fun t ht => ?_
    rw [List.length_range, Nat.sub_add_cancel hn] at ht
    refine ⟨ht.1.mono ?_, ht.2⟩
    omega
  · refine ⟨?_, ?_⟩
    · rw [Nat.cast_zero, zero_add, one_mul]
      exact hr.1
    · rw [zero_add, Finset.sum_range_one]
      exact hr.2
  · intro m hm t ht
    rw [List.length_range] at hm
    rw [List.getElem_range]
    refine (hterm (m + 1) (by omega)).bind fun p hp => ?_
    refine (polyAdd_spec ht.1 hp.1 (by omega)).mono fun s hs => ⟨?_, ?_⟩
    · refine hs.1.mono (le_of_eq ?_)
      push_cast
      ring
    · intro j hj
      rw [Finset.sum_range_succ, ntt_add, ← ht.2 j hj, ← hp.2 j hj, hs.2 j hj]
      push_cast
      ring

/-- **The product with the matrix**, by one Montgomery factor too small. -/
theorem polyvecMatrixPointwiseMontgomery_spec {mat : Vector (PolyVec n) k} {M : ℕ → ℕ → Rq}
    (hn : 1 ≤ n) (hn' : n ≤ 7) (hu : ∀ r < k, VecBounded A (mat.rd r)) (hv : VecBounded B v)
    (hAB : A * B < 2 ^ 31 * 8380417) (hM : ∀ r < k, VecRep c (mat.rd r) (M r))
    (hw : VecRep d v w) :
    Chk.Holds (polyvecMatrixPointwiseMontgomery mat v) fun t => VecBounded (7 * 8380416) t ∧
      VecRep (2 ^ 32 * (c * d)) t fun r => ∑ i ∈ Finset.range n, M r i * w i := by
  have h := Chk.Holds.tab fun r hr =>
    polyvecPointwiseAccMontgomery_spec hn hn' (hu r hr) hv hAB (hM r hr) hw
  exact h.mono fun t ht => ⟨fun r hr => (ht r hr).1, fun r hr => (ht r hr).2⟩

/-! ## The norm test -/

/-- The test of one coefficient. -/
theorem coeffChknorm_spec {x bb : ℤ} (h1 : -2 ^ 30 ≤ x) (h2 : x ≤ 2 ^ 30 - 1) :
    Chk.Holds (coeffChknorm x bb) fun t => t = true ↔ bb ≤ |x| := by
  have hd : Chk.word 32 (2 * x) = pure (2 * x) := Chk.word32 (by omega) (by omega)
  have habs : x - land 32 (x / 2 ^ 31) (2 * x) = |x| := by
    rcases le_or_gt 0 x with h | h
    · have hm : x / 2 ^ 31 = 0 := by omega
      rw [hm, land_zero, sub_zero, abs_of_nonneg h]
    · have hm : x / 2 ^ 31 = -1 := by omega
      rw [hm, land_neg_one (by norm_num), wrap_of_fits (by norm_num)
        (fits_32.2 ⟨by omega, by omega⟩), abs_of_neg h]
      ring
  have hle : |x| ≤ 2 ^ 30 := abs_le.2 ⟨h1, by omega⟩
  have ht : Chk.word 32 |x| = pure |x| := Chk.word32 (by have := abs_nonneg x; omega) (by omega)
  unfold coeffChknorm
  rw [hd, pure_bind, habs, ht, pure_bind]
  exact Chk.Holds.pure (by rw [decide_eq_true_eq])

theorem polyChknorm_spec {bb : ℤ} (hbb : bb ≤ 1047552) (ha : Bounded (2 ^ 30 - 1) a) :
    Chk.Holds (polyChknorm a bb) fun t => t = true ↔ ∃ j < 256, bb ≤ |a.rd j| := by
  unfold polyChknorm
  rw [if_neg (by simp only [parQ]; omega)]
  refine Chk.Holds.any fun j hj => ?_
  obtain ⟨h1, h2⟩ := ha j hj
  exact coeffChknorm_spec (by omega) h2

/-- **The norm test** says whether some coefficient reaches the bound. -/
theorem polyvecChknorm_spec {bb : ℤ} (hbb : bb ≤ 1047552) (hv : VecBounded (2 ^ 30 - 1) v) :
    Chk.Holds (polyvecChknorm v bb) fun t =>
      t = true ↔ ∃ r < n, ∃ j < 256, bb ≤ |(v.rd r).rd j| :=
  Chk.Holds.any fun r hr => polyChknorm_spec hbb (hv r hr)

/-! ## Standard representatives -/

theorem std_range (w : Rq) (j : ℕ) : 0 ≤ std w j ∧ std w j < 8380417 := by
  have hlt : ∀ x : Zq, (x.val : ℤ) < 8380417 := fun x => by exact_mod_cast ZMod.val_lt x
  exact ⟨Int.natCast_nonneg _, hlt _⟩

theorem std_toRq {a : Poly} (ha : IsStd a) {j : ℕ} (hj : j < 256) : std (toRq a) j = a.rd j := by
  obtain ⟨h0, hq⟩ := ha j hj
  unfold std toRq ofInts
  rw [coeff_ofCoeffs _ _ hj, ZMod.val_intCast]
  exact Int.emod_eq_of_lt h0 hq

end Mldsa
