import Karudeb.Lib.Butterfly
import Mathlib.RingTheory.AdjoinRoot
import Mathlib.Algebra.Polynomial.Degree.IsMonicOfDegree

/-!
# The negacyclic ring and its number-theoretic transform

The ring `F[X] / (X^n + 1)` over any commutative ring, its elements as rows of
`n` coefficients, and what the butterfly layers of an in-place transform
compute on such rows.

* `Negacyclic.ofCoeffs` and `Negacyclic.coeff` are inverse to each other
  (`coeff_ofCoeffs`, `ofCoeffs_coeff`).
* `Residues W B m c x` says that `x` holds, block after block of `B` entries, the
  polynomial `W` modulo `X^B - c b`.  A forward layer halves the blocks
  (`residues_layer`), so a chain of layers takes the coefficients of `W` to its
  residues modulo the leaves of a tower of moduli (`residues_down`).
* `foldl_cancel` : layers that undo each other up to a factor two do so as whole
  chains, in the opposite order.
-/

open Polynomial

/-! ## The ring -/

/-- `F[X] / (X^n + 1)`. -/
abbrev Negacyclic (F : Type) [CommRing F] (n : ℕ) : Type := AdjoinRoot (X ^ n + 1 : F[X])

namespace Negacyclic

variable {F : Type} [CommRing F] {n : ℕ}

/-- The polynomial with the `n` coefficients `x o, x (o+1), …`. -/
noncomputable def blockPoly (x : ℕ → F) (o n : ℕ) : F[X] := ∑ i ∈ Finset.range n, C (x (o + i)) * X ^ i

/-- The ring element with coefficients `x`. -/
noncomputable def ofCoeffs (n : ℕ) (x : ℕ → F) : Negacyclic F n :=
  AdjoinRoot.mk _ (blockPoly x 0 n)

theorem monic_modulus (hn : 0 < n) : (X ^ n + 1 : F[X]).Monic := by
  have h : (X ^ n + C 1 : F[X]).Monic := monic_X_pow_add_C 1 hn.ne'
  rwa [C_1] at h

/-- The coefficients of a ring element. -/
noncomputable def coeff (hn : 0 < n) (r : Negacyclic F n) (i : ℕ) : F :=
  (AdjoinRoot.modByMonicHom (monic_modulus hn) r).coeff i

theorem coeff_blockPoly (x : ℕ → F) (o n i : ℕ) :
    (blockPoly x o n).coeff i = if i < n then x (o + i) else 0 := by
  unfold blockPoly
  rw [finsetSum_coeff]
  simp only [coeff_C_mul, coeff_X_pow, mul_ite, mul_one, mul_zero]
  rw [Finset.sum_ite_eq]
  simp only [Finset.mem_range]

theorem degree_blockPoly_lt (x : ℕ → F) (o n : ℕ) : (blockPoly x o n).degree < n := by
  rw [degree_lt_iff_coeff_zero]
  intro m hm
  rw [coeff_blockPoly, if_neg (by omega)]

theorem blockPoly_congr {x y : ℕ → F} {o n : ℕ} (h : ∀ i < n, x (o + i) = y (o + i)) :
    blockPoly x o n = blockPoly y o n :=
  Finset.sum_congr rfl fun i hi => by rw [h i (Finset.mem_range.1 hi)]

theorem blockPoly_add (x : ℕ → F) (o n m : ℕ) :
    blockPoly x o (n + m) = blockPoly x o n + X ^ n * blockPoly x (o + n) m := by
  unfold blockPoly
  rw [Finset.sum_range_add, Finset.mul_sum]
  congr 1
  refine Finset.sum_congr rfl fun i _ => ?_
  rw [pow_add, ← add_assoc]
  ring

theorem ofCoeffs_congr {x y : ℕ → F} (h : ∀ i < n, x i = y i) :
    ofCoeffs n x = ofCoeffs n y := by
  have hp : blockPoly x 0 n = blockPoly y 0 n := blockPoly_congr fun i hi => by
    rw [zero_add]
    exact h i hi
  unfold ofCoeffs
  rw [hp]

section Nontrivial

variable [Nontrivial F]

theorem degree_modulus (hn : 0 < n) : (X ^ n + 1 : F[X]).degree = n := by
  have h : (X ^ n + C 1 : F[X]).degree = n := degree_X_pow_add_C hn 1
  rwa [C_1] at h

theorem coeff_ofCoeffs (hn : 0 < n) (x : ℕ → F) {i : ℕ} (hi : i < n) :
    coeff hn (ofCoeffs n x) i = x i := by
  have hdeg : (blockPoly x 0 n).degree < (X ^ n + 1 : F[X]).degree := by
    rw [degree_modulus hn]
    exact degree_blockPoly_lt x 0 n
  unfold coeff ofCoeffs
  rw [AdjoinRoot.modByMonicHom_mk, (modByMonic_eq_self_iff (monic_modulus hn)).2 hdeg,
    coeff_blockPoly, if_pos hi, zero_add]

theorem ofCoeffs_coeff (hn : 0 < n) (r : Negacyclic F n) : ofCoeffs n (coeff hn r) = r := by
  obtain ⟨p, rfl⟩ := AdjoinRoot.mk_surjective r
  have hpoly : blockPoly (coeff hn (AdjoinRoot.mk (X ^ n + 1 : F[X]) p)) 0 n =
      p %ₘ (X ^ n + 1) := by
    ext i
    rw [coeff_blockPoly, zero_add]
    unfold coeff
    rw [AdjoinRoot.modByMonicHom_mk]
    split
    · rfl
    · rename_i hi
      have hdeg : (p %ₘ (X ^ n + 1 : F[X])).degree < (X ^ n + 1 : F[X]).degree :=
        degree_modByMonic_lt p (monic_modulus hn)
      rw [degree_modulus hn, degree_lt_iff_coeff_zero] at hdeg
      exact (hdeg i (by omega)).symm
  unfold ofCoeffs
  rw [hpoly, AdjoinRoot.mk_eq_mk]
  exact ⟨-(p /ₘ (X ^ n + 1)), by
    have := modByMonic_add_div p (X ^ n + 1 : F[X])
    linear_combination this⟩

end Nontrivial

theorem coeff_zero (hn : 0 < n) (i : ℕ) : coeff hn (0 : Negacyclic F n) i = 0 := by
  unfold coeff
  rw [map_zero, Polynomial.coeff_zero]

theorem coeff_add (hn : 0 < n) (r s : Negacyclic F n) (i : ℕ) :
    coeff hn (r + s) i = coeff hn r i + coeff hn s i := by
  unfold coeff
  rw [map_add, Polynomial.coeff_add]

theorem coeff_sub (hn : 0 < n) (r s : Negacyclic F n) (i : ℕ) :
    coeff hn (r - s) i = coeff hn r i - coeff hn s i := by
  unfold coeff
  rw [map_sub, Polynomial.coeff_sub]

theorem ofCoeffs_zero : ofCoeffs n (fun _ => (0 : F)) = 0 := by
  simp [ofCoeffs, blockPoly]

theorem ofCoeffs_add (x y : ℕ → F) :
    ofCoeffs n (fun i => x i + y i) = ofCoeffs n x + ofCoeffs n y := by
  unfold ofCoeffs blockPoly
  rw [← map_add, ← Finset.sum_add_distrib]
  simp only [C_add, add_mul]

theorem ofCoeffs_sub (x y : ℕ → F) :
    ofCoeffs n (fun i => x i - y i) = ofCoeffs n x - ofCoeffs n y := by
  unfold ofCoeffs blockPoly
  rw [← map_sub, ← Finset.sum_sub_distrib]
  simp only [C_sub, sub_mul]

theorem ofCoeffs_smul (c : F) (x : ℕ → F) :
    ofCoeffs n (fun i => c * x i) = algebraMap F _ c * ofCoeffs n x := by
  unfold ofCoeffs blockPoly
  rw [AdjoinRoot.algebraMap_eq, ← AdjoinRoot.mk_C, ← map_mul, Finset.mul_sum]
  simp only [C_mul, mul_assoc]

/-- Change of the ring of coefficients. -/
noncomputable def map {G : Type} [CommRing G] (f : F →+* G) : Negacyclic F n →+* Negacyclic G n :=
  AdjoinRoot.map f _ _ (by simp)

theorem map_ofCoeffs {G : Type} [CommRing G] (f : F →+* G) (x : ℕ → F) :
    map f (ofCoeffs n x) = ofCoeffs n fun i => f (x i) := by
  unfold map ofCoeffs blockPoly
  simp only [map_sum, map_mul, map_pow, AdjoinRoot.mk_C, AdjoinRoot.mk_X, AdjoinRoot.map_of,
    AdjoinRoot.map_root]

/-- Coefficients can be changed one by one. -/
theorem coeff_map {G : Type} [CommRing G] [Nontrivial F] [Nontrivial G] (hn : 0 < n) (f : F →+* G)
    (r : Negacyclic F n) {i : ℕ} (hi : i < n) : coeff hn (map f r) i = f (coeff hn r i) := by
  have h : map f r = ofCoeffs n fun i => f (coeff hn r i) := by
    rw [← map_ofCoeffs, ofCoeffs_coeff]
  rw [h, coeff_ofCoeffs hn _ hi]

/-- Evaluation at a root of `X^n + 1`. -/
noncomputable def evalAt (c : F) (hc : c ^ n = -1) : Negacyclic F n →+* F :=
  AdjoinRoot.lift (RingHom.id F) c (by simp [hc])

theorem evalAt_mk (c : F) (hc : c ^ n = -1) (p : F[X]) :
    evalAt c hc (AdjoinRoot.mk _ p) = p.eval c := by
  unfold evalAt
  rw [AdjoinRoot.lift_mk, eval₂_id]

/-- Evaluation at a root of `X^n + 1` in an algebra. -/
noncomputable def valueAt {A : Type} [CommRing A] [Algebra F A] (c : A) (hc : c ^ n = -1) :
    Negacyclic F n →+* A :=
  AdjoinRoot.lift (algebraMap F A) c (by simp [hc])

theorem valueAt_mk {A : Type} [CommRing A] [Algebra F A] (c : A) (hc : c ^ n = -1) (p : F[X]) :
    valueAt c hc (AdjoinRoot.mk _ p) = aeval c p := by
  unfold valueAt
  rw [AdjoinRoot.lift_mk, aeval_def]

end Negacyclic

/-! ## Layers on residues -/

namespace Ntt

open Negacyclic Butterfly

variable {F : Type} [CommRing F]

/-- The forward butterfly. -/
def fwd (z : ℕ → F) (b : ℕ) (u v : F) : F × F := (u + z b * v, u - z b * v)

/-- The inverse butterfly, up to a factor two. -/
def inv (z : ℕ → F) (b : ℕ) (u v : F) : F × F := (u + v, z b * (u - v))

/-- `x` holds, in `m` blocks of `B` entries, `W` modulo `X^B - c b`. -/
def Residues (W : F[X]) (B m : ℕ) (c x : ℕ → F) : Prop :=
  ∀ b < m, (X ^ B - C (c b)) ∣ W - blockPoly x (B * b) B

/-- A residue of `X^(2*len) - z^2` gives one of each of its factors. -/
theorem residues_split {W U V : F[X]} {z : F} {len : ℕ}
    (h : (X ^ (2 * len) - C (z * z)) ∣ W - (U + X ^ len * V)) :
    (X ^ len - C z) ∣ W - (U + C z * V) ∧ (X ^ len - C (-z)) ∣ W - (U - C z * V) := by
  obtain ⟨k, hk⟩ := h
  constructor
  · refine ⟨(X ^ len + C z) * k + V, ?_⟩
    rw [two_mul, pow_add, C_mul] at hk
    linear_combination hk
  · refine ⟨(X ^ len - C z) * k + V, ?_⟩
    rw [two_mul, pow_add, C_mul] at hk
    rw [C_neg]
    linear_combination hk

/-- **A forward layer halves the blocks.** -/
theorem residues_layer {W : F[X]} {len m : ℕ} {c x : ℕ → F} (z : ℕ → F)
    (h : Residues W (2 * len) m c x) (hz : ∀ b < m, z b * z b = c b) :
    Residues W len (2 * m) (fun b => if b % 2 = 0 then z (b / 2) else -z (b / 2))
      (layer len (fwd z) x) := by
  intro b hb
  have hb2 : b / 2 < m := by omega
  have hres := h (b / 2) hb2
  rw [two_mul len, blockPoly_add, ← two_mul len, ← hz _ hb2] at hres
  obtain ⟨hlo, hhi⟩ := residues_split hres
  by_cases hpar : b % 2 = 0
  · have hblk : blockPoly (layer len (fwd z) x) (len * b) len =
        blockPoly x (2 * len * (b / 2)) len +
          C (z (b / 2)) * blockPoly x (2 * len * (b / 2) + len) len := by
      have ho : len * b = 2 * len * (b / 2) := by
        rw [mul_comm 2 len, mul_assoc]
        congr 1
        omega
      unfold blockPoly
      rw [Finset.mul_sum, ← Finset.sum_add_distrib]
      refine Finset.sum_congr rfl fun i hi => ?_
      rw [ho, layer_lo _ _ (Finset.mem_range.1 hi), fwd, C_add, C_mul, add_right_comm]
      ring
    simp only [if_pos hpar]
    rwa [hblk]
  · have hblk : blockPoly (layer len (fwd z) x) (len * b) len =
        blockPoly x (2 * len * (b / 2)) len -
          C (z (b / 2)) * blockPoly x (2 * len * (b / 2) + len) len := by
      have ho : len * b = 2 * len * (b / 2) + len := by
        rw [mul_comm 2 len, mul_assoc, ← mul_add_one]
        congr 1
        omega
      unfold blockPoly
      rw [Finset.mul_sum, ← Finset.sum_sub_distrib]
      refine Finset.sum_congr rfl fun i hi => ?_
      rw [ho, add_right_comm, layer_hi _ _ (Finset.mem_range.1 hi), fwd, C_sub, C_mul,
        add_right_comm]
      ring
    simp only [if_neg hpar]
    rwa [hblk]

/-! ## Chains of layers -/

/-- The forward layers at the distances `lens`; the blocks at distance `len`
take their twiddles from index `half / len` of the table on. -/
def down (half : ℕ) (z : ℕ → F) (lens : List ℕ) (x : ℕ → F) : ℕ → F :=
  lens.foldl (fun x len => layer len (fwd fun b => z (half / len + b)) x) x

/-- The inverse layers at the distances `lens`. -/
def up (half : ℕ) (z : ℕ → F) (lens : List ℕ) (x : ℕ → F) : ℕ → F :=
  lens.foldl (fun x len => layer len (inv fun b => z (half / len + b)) x) x

/-- The distances `lens` halve blocks of `B` entries down to blocks of `B'`. -/
def Tower (half : ℕ) : ℕ → List ℕ → ℕ → Prop
  | B, [], B' => B = B'
  | B, len :: lens, B' => B = 2 * len ∧ 0 < len ∧ len ∣ half ∧ Tower half len lens B'

theorem tower_le {half B B' : ℕ} {lens : List ℕ} (h : Tower half B lens B') : B' ≤ B := by
  induction lens generalizing B with
  | nil => exact h.ge
  | cons len lens ih =>
    obtain ⟨rfl, -, -, ht⟩ := h
    have := ih ht
    omega

/-- The roots of a tower of moduli: node `i` stands for `X^B - c i`, and the nodes below
`N` have the children `2 * i` and `2 * i + 1` for the two factors. -/
structure Roots (N : ℕ) (c z : ℕ → F) : Prop where
  sq : ∀ i, 1 ≤ i → i < N → z i * z i = c i
  even : ∀ i, 1 ≤ i → c (2 * i) = z i
  odd : ∀ i, 1 ≤ i → c (2 * i + 1) = -z i

theorem residues_start (n : ℕ) (c x : ℕ → F) :
    Residues (blockPoly x 0 n) n 1 (fun b => c (1 + b)) x := by
  intro b hb
  have hb0 : b = 0 := by omega
  subst hb0
  rw [mul_zero, sub_self]
  exact dvd_zero _

theorem eval_of_residues {W : F[X]} {m : ℕ} {c x : ℕ → F} (h : Residues W 1 m c x) {b : ℕ}
    (hb : b < m) : W.eval (c b) = x b := by
  obtain ⟨k, hk⟩ := h b hb
  have hblk : blockPoly x (1 * b) 1 = C (x b) := by
    unfold blockPoly
    simp
  rw [hblk, pow_one] at hk
  have he := congrArg (Polynomial.eval (c b)) hk
  simp only [eval_sub, eval_C, eval_mul, eval_X, sub_self, zero_mul] at he
  exact sub_eq_zero.1 he

/-- A block of entries is the value at a root of its modulus. -/
theorem aeval_of_residues {A : Type} [CommRing A] [Algebra F A] {W : F[X]} {B m : ℕ} {c x : ℕ → F}
    (h : Residues W B m c x) {b : ℕ} (hb : b < m) {w : A} (hw : w ^ B = algebraMap F A (c b)) :
    aeval w W = ∑ i ∈ Finset.range B, algebraMap F A (x (B * b + i)) * w ^ i := by
  obtain ⟨k, hk⟩ := h b hb
  have he := congrArg (aeval w) hk
  rw [map_sub, map_mul, map_sub, map_pow, aeval_X, aeval_C, hw, sub_self, zero_mul] at he
  rw [sub_eq_zero.1 he]
  unfold blockPoly
  rw [map_sum]
  exact Finset.sum_congr rfl fun i _ => by rw [map_mul, map_pow, aeval_X, aeval_C]

/-- **A chain of forward layers** takes residues down the tower. -/
theorem residues_down {W : F[X]} {N half B B' : ℕ} {c z : ℕ → F} (hr : Roots N c z)
    (hN : 2 * half ≤ N * B') {lens : List ℕ} (ht : Tower half B lens B') {x : ℕ → F}
    (h : Residues W B (2 * half / B) (fun b => c (2 * half / B + b)) x) :
    Residues W B' (2 * half / B') (fun b => c (2 * half / B' + b)) (down half z lens x) := by
  induction lens generalizing B x with
  | nil =>
    cases ht
    exact h
  | cons len lens ih =>
    obtain ⟨rfl, hlen, ⟨m, rfl⟩, ht⟩ := ht
    have h1 : 2 * (len * m) / (2 * len) = m := by
      rw [← mul_assoc, Nat.mul_div_cancel_left m (by omega)]
    have h2 : 2 * (len * m) / len = 2 * m := by
      rw [mul_left_comm, Nat.mul_div_cancel_left _ hlen]
    have h3 : len * m / len = m := Nat.mul_div_cancel_left m hlen
    -- the layers further down only go to smaller blocks
    have hle : 2 * m ≤ N := by
      have hmul := hN.trans (Nat.mul_le_mul_left N (tower_le ht))
      rw [mul_left_comm, Nat.mul_comm N] at hmul
      exact Nat.le_of_mul_le_mul_left hmul hlen
    rw [h1] at h
    refine ih ht ?_
    dsimp only
    rw [h2, h3]
    have hstep := residues_layer (fun b => z (m + b)) h fun b hb =>
      hr.sq (m + b) (by omega) (by omega)
    intro b hb
    have := hstep b hb
    dsimp only at this ⊢
    split at this
    · rw [show 2 * m + b = 2 * (m + b / 2) by omega, hr.even _ (by omega)]
      exact this
    · rw [show 2 * m + b = 2 * (m + b / 2) + 1 by omega, hr.odd _ (by omega)]
      exact this

/-! ## Layers that undo each other -/

/-- `g` undoes `f` on the first `n` entries, up to a factor two. -/
def Undoes (n : ℕ) (g f : (ℕ → F) → ℕ → F) : Prop := ∀ x, ∀ k < n, g (f x) k = x k + x k

/-- `g` reads the first `n` entries only, and commutes with scaling. -/
structure Local (n : ℕ) (g : (ℕ → F) → ℕ → F) : Prop where
  congr : ∀ x y : ℕ → F, (∀ k < n, x k = y k) → ∀ k < n, g x k = g y k
  smul : ∀ (c : F) (x : ℕ → F), ∀ k < n, g (fun k => c * x k) k = c * g x k

theorem local_layer {n len : ℕ} (hlen : 0 < len) (hn : 2 * len ∣ n) {bf : ℕ → F → F → F × F}
    (h : ∀ b c u v, bf b (c * u) (c * v) = (c * (bf b u v).1, c * (bf b u v).2)) :
    Local n (layer len bf) where
  congr x y hxy := layer_congr hlen hn hxy fun _ _ _ _ => rfl
  smul c x k _ := by
    unfold layer
    split <;> rw [h]

/-- **Chains of layers that undo each other** undo each other as a whole, up to
a power of two. -/
theorem foldl_cancel {n : ℕ} (f g : ℕ → (ℕ → F) → ℕ → F) {lens : List ℕ}
    (hundo : ∀ len ∈ lens, Undoes n (g len) (f len)) (hg : ∀ len ∈ lens, Local n (g len))
    (x : ℕ → F) :
    ∀ k < n, lens.reverse.foldl (fun x len => g len x) (lens.foldl (fun x len => f len x) x) k =
      2 ^ lens.length * x k := by
  induction lens generalizing x with
  | nil =>
    intro k _
    simp
  | cons len lens ih =>
    intro k hk
    obtain ⟨hu, hus⟩ := List.forall_mem_cons.1 hundo
    obtain ⟨hl, hls⟩ := List.forall_mem_cons.1 hg
    rw [List.reverse_cons, List.foldl_append, List.foldl_cons, List.foldl_cons, List.foldl_nil,
      hl.congr _ _ (ih hus hls (f len x)) k hk, hl.smul _ _ k hk, hu x k hk, List.length_cons,
      pow_succ]
    ring

theorem fwd_smul (z : ℕ → F) (b : ℕ) (c u v : F) :
    fwd z b (c * u) (c * v) = (c * (fwd z b u v).1, c * (fwd z b u v).2) := by
  unfold fwd
  refine Prod.ext ?_ ?_ <;> dsimp only <;> ring

theorem inv_smul (z : ℕ → F) (b : ℕ) (c u v : F) :
    inv z b (c * u) (c * v) = (c * (inv z b u v).1, c * (inv z b u v).2) := by
  unfold inv
  refine Prod.ext ?_ ?_ <;> dsimp only <;> ring

theorem undoes_inv_fwd {n len : ℕ} (hlen : 0 < len) {z z' : ℕ → F}
    (h : ∀ b, 2 * len * b < n → z' b * z b = 1) :
    Undoes n (layer len (inv z')) (layer len (fwd z)) := by
  intro x k hk
  rw [layer_layer hlen]
  obtain ⟨b, i, hi, -, rfl | rfl⟩ := lo_or_hi hlen k
  · rw [layer_lo _ _ hi]
    simp only [inv, fwd]
    ring
  · rw [layer_hi _ _ hi]
    simp only [inv, fwd]
    linear_combination 2 * x (2 * len * b + i + len) * h b (by omega)

theorem undoes_fwd_inv {n len : ℕ} (hlen : 0 < len) {z z' : ℕ → F}
    (h : ∀ b, 2 * len * b < n → z' b * z b = 1) :
    Undoes n (layer len (fwd z)) (layer len (inv z')) := by
  intro x k hk
  rw [layer_layer hlen]
  obtain ⟨b, i, hi, -, rfl | rfl⟩ := lo_or_hi hlen k
  · rw [layer_lo _ _ hi]
    simp only [inv, fwd]
    linear_combination (x (2 * len * b + i) - x (2 * len * b + i + len)) * h b (by omega)
  · rw [layer_hi _ _ hi]
    simp only [inv, fwd]
    linear_combination (x (2 * len * b + i + len) - x (2 * len * b + i)) * h b (by omega)

/-- The inverse twiddles undo those of the nodes below `N`. -/
def Inverse (N : ℕ) (z z' : ℕ → F) : Prop := ∀ i, 1 ≤ i → i < N → z' i * z i = 1

theorem inverse_layer {N half len : ℕ} (hlen : 0 < len) (hdvd : len ∣ half)
    (hN : 2 * half ≤ N * len) (hhalf : 0 < half) {z z' : ℕ → F} (h : Inverse N z z') (b : ℕ)
    (hb : 2 * len * b < 2 * half) : z' (half / len + b) * z (half / len + b) = 1 := by
  obtain ⟨m, rfl⟩ := hdvd
  rw [Nat.mul_div_cancel_left m hlen]
  have hm : 0 < m := Nat.pos_of_mul_pos_left hhalf
  have hbm : b < m := by
    by_contra hbm
    have := Nat.mul_le_mul_left (2 * len) (not_lt.1 hbm)
    nlinarith
  have hmN : 2 * m ≤ N := by
    rw [mul_left_comm, Nat.mul_comm N] at hN
    exact Nat.le_of_mul_le_mul_left hN hlen
  exact h _ (by omega) (by omega)

/-- A chain of inverse layers only looks at the entries it transforms. -/
theorem up_congr {half : ℕ} (z' : ℕ → F) {lens : List ℕ} (hlens : ∀ len ∈ lens, 0 < len ∧ len ∣ half)
    {x y : ℕ → F} (hxy : ∀ k < 2 * half, x k = y k) :
    ∀ k < 2 * half, up half z' lens x k = up half z' lens y k := by
  induction lens generalizing x y with
  | nil => exact hxy
  | cons len lens ih =>
    obtain ⟨⟨hlen, hdvd⟩, hrest⟩ := List.forall_mem_cons.1 hlens
    exact ih hrest (layer_congr hlen (Nat.mul_dvd_mul_left 2 hdvd) hxy fun _ _ _ _ => rfl)

section UpDown

variable {N half : ℕ} (hhalf : 0 < half) {z z' : ℕ → F} (h : Inverse N z z') {lens : List ℕ}
  (hlens : ∀ len ∈ lens, 0 < len ∧ len ∣ half) (hN : ∀ len ∈ lens, 2 * half ≤ N * len)

include hhalf h hlens hN

theorem up_down (x : ℕ → F) :
    ∀ k < 2 * half, up half z' lens.reverse (down half z lens x) k = 2 ^ lens.length * x k := by
  refine foldl_cancel (fun len x => layer len (fwd fun b => z (half / len + b)) x)
    (fun len x => layer len (inv fun b => z' (half / len + b)) x) (fun len hl => ?_)
    (fun len hl => ?_) x
  · obtain ⟨hlen, hdvd⟩ := hlens len hl
    exact undoes_inv_fwd hlen (inverse_layer hlen hdvd (hN len hl) hhalf h)
  · obtain ⟨hlen, hdvd⟩ := hlens len hl
    exact local_layer hlen (Nat.mul_dvd_mul_left 2 hdvd) (inv_smul _)

theorem down_up (x : ℕ → F) :
    ∀ k < 2 * half, down half z lens (up half z' lens.reverse x) k = 2 ^ lens.length * x k := by
  have hcancel : ∀ k < 2 * half, lens.reverse.reverse.foldl
      (fun x len => layer len (fwd fun b => z (half / len + b)) x) (up half z' lens.reverse x) k =
        2 ^ lens.reverse.length * x k := by
    refine foldl_cancel (fun len x => layer len (inv fun b => z' (half / len + b)) x)
      (fun len x => layer len (fwd fun b => z (half / len + b)) x) (fun len hl => ?_)
      (fun len hl => ?_) x
    · obtain ⟨hlen, hdvd⟩ := hlens len (List.mem_reverse.1 hl)
      exact undoes_fwd_inv hlen (inverse_layer hlen hdvd (hN len (List.mem_reverse.1 hl)) hhalf h)
    · obtain ⟨hlen, hdvd⟩ := hlens len (List.mem_reverse.1 hl)
      exact local_layer hlen (Nat.mul_dvd_mul_left 2 hdvd) (fwd_smul _)
  rwa [List.reverse_reverse, List.length_reverse] at hcancel

end UpDown

end Ntt
