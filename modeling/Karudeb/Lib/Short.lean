import Karudeb.Lib.Ntt

/-!
# Short elements of a negacyclic ring

`IsShort B w` says that the coefficients of `w` are images of integers of absolute
value at most `B`.

* `IsShort.add`, `IsShort.zsmul`, `IsShort.rootMul` : how the bound grows.
* `isShort_mul` : a product is as short as the sum of the absolute values of one
  factor's coefficients allows, times the bound on the other factor.
-/

open Polynomial

namespace Negacyclic

variable {F : Type} [CommRing F] {n : ℕ}

/-- The coefficients are integers of absolute value at most `B`. -/
def IsShort (B : ℤ) (w : Negacyclic F n) : Prop :=
  ∃ f : ℕ → ℤ, (∀ i < n, |f i| ≤ B) ∧ w = ofCoeffs n fun i => (f i : F)

variable {A B : ℤ} {v w : Negacyclic F n}

theorem isShort_zero : IsShort 0 (0 : Negacyclic F n) :=
  ⟨fun _ => 0, fun _ _ => le_of_eq abs_zero, by simp only [Int.cast_zero, ofCoeffs_zero]⟩

theorem IsShort.mono (h : IsShort A w) (hAB : A ≤ B) : IsShort B w := by
  obtain ⟨f, hf, rfl⟩ := h
  exact ⟨f, fun i hi => (hf i hi).trans hAB, rfl⟩

theorem IsShort.add (hv : IsShort A v) (hw : IsShort B w) : IsShort (A + B) (v + w) := by
  obtain ⟨f, hf, rfl⟩ := hv
  obtain ⟨g, hg, rfl⟩ := hw
  refine ⟨fun i => f i + g i, fun i hi => ?_, ?_⟩
  · exact (abs_add_le _ _).trans (add_le_add (hf i hi) (hg i hi))
  · rw [← ofCoeffs_add]
    simp only [Int.cast_add]

/-- Multiples by an integer. -/
theorem IsShort.zsmul (c : ℤ) (hw : IsShort B w) :
    IsShort (|c| * B) (algebraMap F (Negacyclic F n) (c : F) * w) := by
  obtain ⟨f, hf, rfl⟩ := hw
  refine ⟨fun i => c * f i, fun i hi => ?_, ?_⟩
  · rw [abs_mul]
    exact mul_le_mul_of_nonneg_left (hf i hi) (abs_nonneg c)
  · rw [← ofCoeffs_smul]
    simp only [Int.cast_mul]

theorem isShort_sum {f : ℕ → Negacyclic F n} {b : ℕ → ℤ} {m : ℕ} (h : ∀ i < m, IsShort (b i) (f i)) :
    IsShort (∑ i ∈ Finset.range m, b i) (∑ i ∈ Finset.range m, f i) := by
  induction m with
  | zero => exact isShort_zero
  | succ m ih =>
    rw [Finset.sum_range_succ, Finset.sum_range_succ]
    exact (ih fun i hi => h i (by omega)).add (h m (Nat.lt_succ_self m))

/-! ## Multiplication -/

/-- The image of `X`. -/
noncomputable def root (F : Type) [CommRing F] (n : ℕ) : Negacyclic F n :=
  AdjoinRoot.root (X ^ n + 1 : F[X])

theorem root_pow : root F n ^ n = -1 := by
  have h : AdjoinRoot.mk (X ^ n + 1 : F[X]) (X ^ n + 1) = 0 := AdjoinRoot.mk_self
  rw [map_add, map_pow, AdjoinRoot.mk_X, map_one] at h
  exact eq_neg_of_add_eq_zero_left h

theorem ofCoeffs_eq_sum (x : ℕ → F) :
    ofCoeffs n x = ∑ i ∈ Finset.range n, algebraMap F (Negacyclic F n) (x i) * root F n ^ i := by
  unfold ofCoeffs blockPoly root
  simp only [map_sum, map_mul, map_pow, AdjoinRoot.mk_C, AdjoinRoot.mk_X, zero_add,
    AdjoinRoot.algebraMap_eq]

/-- **Multiplication by `X`** moves the coefficients on, and the last one comes round with
the other sign. -/
theorem root_mul_ofCoeffs (x : ℕ → F) :
    root F n * ofCoeffs n x = ofCoeffs n fun i => if i = 0 then -x (n - 1) else x (i - 1) := by
  cases n with
  | zero =>
    rw [ofCoeffs_eq_sum, ofCoeffs_eq_sum, Finset.sum_range_zero, Finset.sum_range_zero, mul_zero]
  | succ m =>
    have hterm : ∀ i, root F (m + 1) * (algebraMap F _ (x i) * root F (m + 1) ^ i) =
        algebraMap F _ (x i) * root F (m + 1) ^ (i + 1) := fun i => by ring
    rw [ofCoeffs_eq_sum, ofCoeffs_eq_sum, Finset.mul_sum, Finset.sum_congr rfl fun i _ => hterm i,
      Finset.sum_range_succ, Finset.sum_range_succ', root_pow, if_pos rfl, Nat.add_sub_cancel]
    simp only [if_neg (Nat.succ_ne_zero _), Nat.add_sub_cancel, map_neg, pow_zero]
    ring

theorem IsShort.rootMul (hw : IsShort B w) : IsShort B (root F n * w) := by
  obtain ⟨f, hf, rfl⟩ := hw
  refine ⟨fun i => if i = 0 then -f (n - 1) else f (i - 1), fun i hi => ?_, ?_⟩
  · dsimp only
    split
    · rw [abs_neg]
      exact hf _ (by omega)
    · exact hf _ (by omega)
  · rw [root_mul_ofCoeffs]
    refine ofCoeffs_congr fun i _ => ?_
    dsimp only
    by_cases hi : i = 0
    · rw [if_pos hi, if_pos hi, Int.cast_neg]
    · rw [if_neg hi, if_neg hi]

theorem IsShort.rootPowMul (hw : IsShort B w) (m : ℕ) : IsShort B (root F n ^ m * w) := by
  induction m with
  | zero => rwa [pow_zero, one_mul]
  | succ m ih =>
    rw [pow_succ', mul_assoc]
    exact ih.rootMul

/-- **A product with a sparse element is short.** -/
theorem isShort_mul (c : ℕ → ℤ) (hw : IsShort B w) :
    IsShort ((∑ i ∈ Finset.range n, |c i|) * B) (ofCoeffs n (fun i => (c i : F)) * w) := by
  rw [ofCoeffs_eq_sum, Finset.sum_mul, Finset.sum_mul]
  refine isShort_sum fun i _ => ?_
  rw [mul_assoc]
  exact (hw.rootPowMul i).zsmul (c i)

end Negacyclic
