import Karudeb.Mldsa.Norm
import Karudeb.Mldsa.VerifySpec

/-!
# ML-DSA: signing is the standard's

The code tests `w0 - c s2` where the standard tests the low bits of `w - c s2`, and makes its
hint of `w0 - c s2 + c t0` and `w1` where the standard compares two high bits.

* `lowBits_sub_iff`, `makeHint_code_eq` : why this comes to the same, coefficient by coefficient.
* `signCommit_eq`, `signRespond_spec` : the arithmetic of an iteration, for every secret key.
* `codePasses_iff` : the tests of the code are those of the standard.
* `returns_signStep`, `returns_signLoop` : an iteration, and the loop.
* `returns_signInternal`, `codeSign_iff` : what signing returns, for every secret key, and
  that this is `Sign` where the second secret vector is in range.
* `sign_exact` : signing is the standard's.
-/

namespace Mldsa

open Word Bits Negacyclic Fips204 Prog

variable {H : Hash}

/-! ## Rounding -/

section Rounding

variable {gamma2 beta : ℤ} {w s t : Rq} {j : ℕ}

/-- `Decompose` depends on the residue only. -/
theorem decompose_congr {x y : ℤ} (h : (8380417 : ℤ) ∣ x - y) :
    decompose gamma2 x = decompose gamma2 y := by
  have hmod : x % 8380417 = y % 8380417 := by omega
  unfold decompose
  rw [hmod]

/-- A coefficient is given by its high and low bits. -/
theorem isRep_decompose (hg : gamma2 = 95232 ∨ gamma2 = 261888) (w : Rq) (j : ℕ) :
    IsRep w j (highBits gamma2 (std w j) * (2 * gamma2) + lowBits gamma2 (std w j)) := by
  obtain ⟨-, -, hdvd, -⟩ := decompose_spec (a := std w j) hg
  exact (isRep_std w j).of_dvd hdvd

/-- Where the low part is small, it and the high part are the low and the high bits. -/
theorem decompose_of_isRep (hg : gamma2 = 95232 ∨ gamma2 = 261888) {u x : ℤ} (h0 : 0 ≤ u)
    (hm : u < 8380416 / (2 * gamma2)) (hlt : |x| < gamma2) (hx : IsRep w j (u * (2 * gamma2) + x)) :
    decompose gamma2 (std w j) = (u, x) := by
  obtain ⟨hlo, hhi⟩ := abs_lt.1 hlt
  exact decompose_unique hg h0 hm hhi.le (.inl hlo) ((isRep_std w j).dvd hx)

/-- The low bits of the coefficients, as a ring element. -/
noncomputable def lowPart (gamma2 : ℤ) (w : Rq) : Rq := ofInts fun j => lowBits gamma2 (std w j)

theorem isRep_lowPart (gamma2 : ℤ) (w : Rq) (hj : j < 256) :
    IsRep (lowPart gamma2 w) j (lowBits gamma2 (std w j)) :=
  isRep_ofInts _ hj

/-- Taking `s` away from the low part takes it away from `w`. -/
theorem isRep_sub_low (hg : gamma2 = 95232 ∨ gamma2 = 261888) (hj : j < 256) {x : ℤ}
    (hx : IsRep (lowPart gamma2 w - s) j x) :
    IsRep (w - s) j (highBits gamma2 (std w j) * (2 * gamma2) + x) := by
  have h := ((isRep_decompose hg w j).sub (isRep_lowPart gamma2 w hj)).add hx
  rwa [add_sub_cancel_right, sub_add_sub_cancel] at h

/-- Adding `t` to what is left of the low part adds it to `w - s`. -/
theorem isRep_sub_add (hg : gamma2 = 95232 ∨ gamma2 = 261888) (hj : j < 256) (w s t : Rq) :
    IsRep (w - s + t) j (highBits gamma2 (std w j) * (2 * gamma2) +
      (cent (lowPart gamma2 w - s) j + cent t j)) := by
  have h := (isRep_sub_low hg hj (isRep_cent (lowPart gamma2 w - s) j)).add (isRep_cent t j)
  rwa [add_assoc] at h

/-- Where the low part stays small, the high part does not change. -/
theorem decompose_sub (hg : gamma2 = 95232 ∨ gamma2 = 261888) (hj : j < 256) {x : ℤ}
    (hx : IsRep (lowPart gamma2 w - s) j x) (hlt : |x| < gamma2) :
    decompose gamma2 (std (w - s) j) = (highBits gamma2 (std w j), x) := by
  obtain ⟨h0, hm, -, -⟩ := decompose_spec (a := std w j) hg
  exact decompose_of_isRep hg h0 hm hlt (isRep_sub_low hg hj hx)

/-- **The second test.**  It comes to the same on the low bits of `w - s`, since `s` is small. -/
theorem lowBits_sub_iff (hg : gamma2 = 95232 ∨ gamma2 = 261888) (hj : j < 256)
    (hs : |cent s j| ≤ beta) (hb : 0 ≤ beta) (hlt : beta < gamma2) :
    |lowBits gamma2 (std (w - s) j)| < gamma2 - beta ↔
      |cent (lowPart gamma2 w - s) j| < gamma2 - beta := by
  constructor
  · intro h
    obtain ⟨h0, hm, -, -⟩ := decompose_spec (a := std (w - s) j) hg
    have hsum : |lowBits gamma2 (std (w - s) j) + cent s j| < gamma2 := by
      have := abs_add_le (lowBits gamma2 (std (w - s) j)) (cent s j)
      omega
    -- `w` is `w - s` with `s` added to the low part, which stays in range
    have hw := (isRep_decompose hg (w - s) j).add (isRep_cent s j)
    rw [sub_add_cancel, add_assoc] at hw
    have hlow : lowBits gamma2 (std w j) = lowBits gamma2 (std (w - s) j) + cent s j :=
      congrArg Prod.snd (decompose_of_isRep hg h0 hm hsum hw)
    have hrep := (isRep_lowPart gamma2 w hj).sub (isRep_cent s j)
    rw [hlow, add_sub_cancel_right] at hrep
    rwa [hrep.cent_eq]
    rcases hg with rfl | rfl <;> omega
  · intro h
    have hdec := decompose_sub hg hj (isRep_cent _ j)
      (show |cent (lowPart gamma2 w - s) j| < gamma2 by omega)
    have hlow : lowBits gamma2 (std (w - s) j) = cent (lowPart gamma2 w - s) j :=
      congrArg Prod.snd hdec
    rwa [hlow]

/-- A number with the high part `u` and the low part `a` has other high bits than `u` exactly
where `a` is out of range. -/
theorem highBits_ne_iff (hg : gamma2 = 95232 ∨ gamma2 = 261888) {r u a : ℤ} (h0 : 0 ≤ u)
    (hm : u < 8380416 / (2 * gamma2)) (ha : -(2 * gamma2) < a) (ha' : a < 2 * gamma2)
    (hr : (8380417 : ℤ) ∣ r - (u * (2 * gamma2) + a)) :
    a > gamma2 ∨ a < -gamma2 ∨ a = -gamma2 ∧ u ≠ 0 ↔ highBits gamma2 r ≠ u := by
  constructor
  · intro hout heq
    obtain ⟨-, -, hdec, hrange⟩ := decompose_spec (a := r) hg
    have hfst : (decompose gamma2 r).1 = u := heq
    rw [hfst] at hdec hrange
    have hlow := dvd_sub hr hdec
    rw [sub_sub_sub_cancel_left, add_sub_add_left_eq_sub] at hlow
    have hsame : (decompose gamma2 r).2 = a := by
      rcases hg with rfl | rfl <;> omega
    rw [hsame] at hrange
    omega
  · intro hne
    by_contra hin
    have hdec : decompose gamma2 r = (u, a) := decompose_unique hg h0 hm (by omega) (by omega) hr
    exact hne (by rw [highBits, hdec])

/-- **The hint.**  `make_hint` tells from the sum of the low parts what `MakeHint` tells from
the high bits. -/
theorem makeHint_code_eq (hg : gamma2 = 95232 ∨ gamma2 = 261888) (hj : j < 256)
    (hs : |cent (lowPart gamma2 w - s) j| < gamma2) (ht : |cent t j| < gamma2) :
    (Mldsa.makeHint (cent (lowPart gamma2 w - s) j + cent t j) (highBits gamma2 (std w j)) gamma2 :
        ℤ) = Fips204.makeHint gamma2 (std (-t) j) (std (w - s + t) j) := by
  obtain ⟨h0, hm, -, -⟩ := decompose_spec (a := std w j) hg
  obtain ⟨hs1, hs2⟩ := abs_lt.1 hs
  obtain ⟨ht1, ht2⟩ := abs_lt.1 ht
  -- adding `-t` leads back to `w - s`, which has the high bits of `w`
  have hback : highBits gamma2 (std (w - s + t) j + std (-t) j) = highBits gamma2 (std w j) := by
    have hsum := (isRep_std (w - s + t) j).add (isRep_std (-t) j)
    rw [add_neg_cancel_right] at hsum
    rw [highBits, decompose_congr (hsum.dvd (isRep_std (w - s) j)),
      decompose_sub hg hj (isRep_cent _ j) hs]
  have hdvd := (isRep_std (w - s + t) j).dvd (isRep_sub_add hg hj w s t)
  have hiff := highBits_ne_iff (u := highBits gamma2 (std w j)) hg h0 hm (by omega) (by omega) hdvd
  unfold Mldsa.makeHint Fips204.makeHint
  rw [hback]
  by_cases h : highBits gamma2 (std (w - s + t) j) ≠ highBits gamma2 (std w j)
  · rw [if_pos (hiff.2 h), if_pos h]
    rfl
  · rw [if_neg fun h' => h (hiff.1 h'), if_neg h]
    rfl

end Rounding

/-! ## The commitment -/

/-- The high bits of a vector. -/
noncomputable def highOf (gamma2 : ℤ) (k : ℕ) (w : ℕ → Rq) : PolyVec k :=
  Vector.tab k fun r => Vector.tab 256 fun j => highBits gamma2 (std (w r) j)

/-- The low bits of a vector. -/
noncomputable def lowOf (gamma2 : ℤ) (k : ℕ) (w : ℕ → Rq) : PolyVec k :=
  Vector.tab k fun r => Vector.tab 256 fun j => lowBits gamma2 (std (w r) j)

theorem polyvecDecompose_eq (i : Fin 3) {n : ℕ} {v : PolyVec n} (hv : VecStd v) :
    polyvecDecompose (mldsaPar i) v = pure
      (Vector.tab n fun r => Vector.tab 256 fun j => highBits (mldsaPar i).gamma2 (coeffs v r j),
        Vector.tab n fun r => Vector.tab 256 fun j => lowBits (mldsaPar i).gamma2 (coeffs v r j)) := by
  unfold polyvecDecompose polyvecPairs
  rw [Chk.tab_congr fun r hr => polyDecompose_eq i (hv r hr), Chk.tab_pure, pure_bind]
  refine congrArg pure (Prod.ext ?_ ?_)
  · exact Vector.tab_congr fun r hr => by rw [Vector.rd_tab _ hr]; rfl
  · exact Vector.tab_congr fun r hr => by rw [Vector.rd_tab _ hr]; rfl

/-- **The commitment**, without any overflow. -/
theorem signCommit_eq (i : Fin 3) (A : ℕ → ℕ → Rq) {y : PolyVec (mldsaPar i).ell}
    (hy : VecBounded (2 ^ 19) y) :
    signCommit (matOf _ _ A) y =
      pure (highOf (mldsaPar i).gamma2 _ (matVec (mldsaPar i).ell A (toRqs y)),
        lowOf (mldsaPar i).gamma2 _ (matVec (mldsaPar i).ell A (toRqs y))) := by
  refine Chk.Holds.eq_pure ?_
  unfold signCommit Transforms.signCommit
  refine (polyvecNtt_spec hy (by norm_num)).bind fun z hz => ?_
  refine (matOf_mul_spec i A hz.1 (by norm_num) hz.2).bind fun p hp => ?_
  refine (polyvecReduce_rep (hp.1.mono (by norm_num)) hp.2).bind fun q hq => ?_
  refine (polyvecInvnttTomont_spec (hq.1.mono (by norm_num)) hq.2).bind fun t ht => ?_
  refine (polyvecCaddq_spec (ht.1.mono (by norm_num))).bind fun v hv => ?_
  have hcoeffs := coeffs_std hv.1 fun r hr => (toRq_congr (hv.2 r hr)).trans (ht.2 r hr)
  rw [polyvecDecompose_eq i hv.1]
  refine Chk.Holds.pure (Prod.ext ?_ ?_)
  · exact Vector.tab_congr fun r hr => Vector.tab_congr fun j hj => by rw [hcoeffs r hr j hj]
  · exact Vector.tab_congr fun r hr => Vector.tab_congr fun j hj => by rw [hcoeffs r hr j hj]

/-! ## The response -/

/-- The hint that the code makes, of the centred low parts `u` and `v` and the high part. -/
noncomputable def respondHint (gamma2 : ℤ) (u v : ℕ → Rq) (w1 : ℕ → ℕ → ℤ) (r j : ℕ) : ℤ :=
  Mldsa.makeHint (cent (u r) j + cent (v r) j) (w1 r j) gamma2

/-- The tests of the code, on `z = y + c s1`, `u = w0 - c s2` and `v = c t0`. -/
structure Responds (par : MldsaParam) (z u v : ℕ → Rq) (w1 : ℕ → ℕ → ℤ) : Prop where
  /-- `z` does not reveal the secret. -/
  z : ∀ r < par.ell, NormLt (z r) (par.gamma1 - par.beta)
  /-- Nor do the low bits. -/
  low : ∀ r < par.k, NormLt (u r) (par.gamma2 - par.beta)
  /-- The hint can be made. -/
  t0 : ∀ r < par.k, NormLt (v r) par.gamma2
  /-- There is room for it. -/
  weight : hintWeight (respondHint par.gamma2 u v w1) par.k ≤ par.omega

theorem isRep_toRq {a : Poly} {j : ℕ} (hj : j < 256) : IsRep (toRq a) j (a.rd j) := isRep_ofInts _ hj

theorem coeffs_polyvecMakeHint (par : MldsaParam) {n : ℕ} (v0 v1 : PolyVec n) {r j : ℕ} (hr : r < n)
    (hj : j < 256) : coeffs (polyvecMakeHint par v0 v1).1 r j =
      (Mldsa.makeHint (coeffs v0 r j) (coeffs v1 r j) par.gamma2 : ℤ) := by
  unfold coeffs polyvecMakeHint
  dsimp only
  rw [Vector.rd_tab _ hr, Vector.rd_tab _ hr, rd_polyMakeHint _ _ _ hj]

/-- `polyveck_make_hint` returns the number of ones. -/
theorem polyvecMakeHint_count (par : MldsaParam) {n : ℕ} (v0 v1 : PolyVec n) :
    (polyvecMakeHint par v0 v1).2 = hintWeight (coeffs (polyvecMakeHint par v0 v1).1) n := by
  have hrun : ∀ m ≤ n, (List.range m).foldl (fun s r =>
      s + ((Vector.tab n fun r => polyMakeHint par (v0.rd r) (v1.rd r)).rd r).2) 0 =
        hintWeight (coeffs (polyvecMakeHint par v0 v1).1) m := by
    intro m
    induction m with
    | zero => exact fun _ => rfl
    | succ m ih =>
      intro hm
      have hrow : (polyMakeHint par (v0.rd m) (v1.rd m)).2 =
          (hintRow (coeffs (polyvecMakeHint par v0 v1).1) m).length := by
        rw [polyMakeHint_count]
        refine congrArg List.length (List.filter_congr fun j hj => ?_)
        have hj := List.mem_range.1 hj
        rw [rd_polyMakeHint _ _ _ hj, coeffs_polyvecMakeHint par v0 v1 hm hj]
        unfold coeffs
        rcases makeHint_le ((v0.rd m).rd j) ((v1.rd m).rd j) par.gamma2 with h | h
        · rw [h]
          rfl
        · rw [h]
          rfl
      rw [List.range_succ, List.foldl_append, ih (by omega), List.foldl_cons, List.foldl_nil,
        Vector.rd_tab _ hm, hrow, hintWeight_succ]
  exact hrun n le_rfl

/-- `s` holds the transforms of `S`, whose coefficients are those a secret key can have. -/
def Transformed {n : ℕ} (s : PolyVec n) (S : ℕ → Rq) : Prop :=
  VecBounded (4096 + 8 * 8380416) s ∧ VecRep 1 s S

/-- The centred representatives of a vector. -/
noncomputable def centVec (n : ℕ) (V : ℕ → Rq) : PolyVec n :=
  Vector.tab n fun r => Vector.tab 256 (cent (V r))

section Response

variable {n : ℕ} {V S : ℕ → Rq} {v s : PolyVec n} {c : Rq} {b : ℤ}

theorem isRep_coeffs (hv : ∀ r < n, toRqs v r = V r) : ∀ r < n, ∀ j < 256,
    IsRep (V r) j (coeffs v r j) :=
  fun r hr _ hj => hv r hr ▸ isRep_toRq hj

/-- A product with the challenge, on the way there and back. -/
theorem times_bind {α : Type} {chat : Poly} {f : PolyVec n → Chk α} {Q : α → Prop}
    (hc : Bounded (1 + 8 * 8380416) chat) (hc' : NttRep 1 chat c) (hs : Transformed s S)
    (hf : ∀ t, VecBounded 4211198 t → (∀ r < n, toRqs t r = c * S r) → Chk.Holds (f t) Q) :
    Chk.Holds (polyvecPointwisePolyMontgomery chat s >>= fun t => polyvecInvnttTomont t >>= f) Q := by
  refine (polyvecPointwisePolyMontgomery_spec hc hs.1 (by norm_num) hc' hs.2).bind fun p hp => ?_
  rw [one_mul, mul_one] at hp
  exact (polyvecInvnttTomont_spec hp.1 hp.2).bind fun t ht => hf t ht.1 ht.2

/-- What `reduce32` leaves of representatives are representatives, small enough to be tested. -/
theorem reduce_isRep (hv : VecBounded (2 ^ 31 - 2 ^ 22 - 1) v)
    (hrep : ∀ r < n, ∀ j < 256, IsRep (V r) j (coeffs v r j)) :
    Chk.Holds (polyvecReduce v) fun t => VecBounded 6283009 t ∧
      ∀ r < n, ∀ j < 256, IsRep (V r) j (coeffs t r j) :=
  (polyvecReduce_spec hv).mono fun _ ht =>
    ⟨ht.1, fun r hr j hj => (ht.2 r hr j hj).trans (hrep r hr j hj)⟩

/-- **The norm test** of the code, on whatever representatives it has, and what is known of
them where it is passed. -/
theorem chknorm_isRep (hb : b ≤ 1047552) (hv : VecBounded 6283009 v)
    (hrep : ∀ r < n, ∀ j < 256, IsRep (V r) j (coeffs v r j)) :
    Chk.Holds (polyvecChknorm v b) fun t => (t = true → ¬∀ r < n, NormLt (V r) b) ∧
      (t = false → (∀ r < n, NormLt (V r) b) ∧ ∀ r < n, ∀ j < 256, coeffs v r j = cent (V r) j) := by
  refine (polyvecChknorm_spec hb fun r hr => (hv r hr).mono (by norm_num)).mono fun t ht => ?_
  have hiff : ∀ r < n, ∀ j < 256, |coeffs v r j| < b ↔ |cent (V r) j| < b := fun r hr j hj =>
    cent_lt_iff (hrep r hr j hj) (abs_le.2 (hv r hr j hj)) hb
  constructor
  · intro hlong hshort
    obtain ⟨r, hr, j, hj, hle⟩ := ht.1 hlong
    exact absurd ((hiff r hr j hj).2 (hshort r hr j hj)) (not_lt.2 hle)
  · intro hshort
    have hlt : ∀ r < n, ∀ j < 256, |coeffs v r j| < b := fun r hr j hj => by
      by_contra hle
      rw [ht.2 ⟨r, hr, j, hj, not_lt.1 hle⟩] at hshort
      cases hshort
    refine ⟨fun r hr j hj => (hiff r hr j hj).1 (hlt r hr j hj), fun r hr j hj => ?_⟩
    have hle := hlt r hr j hj
    exact ((hrep r hr j hj).cent_eq (by omega)).symm

end Response

/-- What an iteration gives: a response and a hint where the tests are passed. -/
def IsResponse (par : MldsaParam) (Z U V : ℕ → Rq) (w1 : ℕ → ℕ → ℤ)
    (o : Option (PolyVec par.ell × PolyVec par.k)) : Prop :=
  Responds par Z U V w1 ∧ o = some (centVec par.ell Z,
      Vector.tab par.k fun r => Vector.tab 256 (respondHint par.gamma2 U V w1 r)) ∨
    ¬Responds par Z U V w1 ∧ o = none

theorem coeffs_centVec (n : ℕ) (V : ℕ → Rq) {r : ℕ} (hr : r < n) {j : ℕ} (hj : j < 256) :
    coeffs (centVec n V) r j = cent (V r) j :=
  coeffs_tab hr hj

/-- The response can be packed. -/
theorem Responds.inZ {i : Fin 3} {Z U V : ℕ → Rq} {w1 : ℕ → ℕ → ℤ}
    (h : Responds (mldsaPar i) Z U V w1) : InZ i (coeffs (centVec (mldsaPar i).ell Z)) :=
  inZ_of_short fun r hr j hj => by
    rw [coeffs_centVec _ _ hr hj]
    exact h.z r hr j hj

/-- There is room for the hint in memory. -/
theorem Responds.weight_tab {i : Fin 3} {Z U V : ℕ → Rq} {w1 : ℕ → ℕ → ℤ}
    (h : Responds (mldsaPar i) Z U V w1) :
    hintWeight (coeffs (Vector.tab (mldsaPar i).k fun r => Vector.tab 256
      (respondHint (mldsaPar i).gamma2 U V w1 r))) (mldsaPar i).k ≤ (mldsaPar i).omega := by
  rw [hintWeight_congr fun r hr j hj => coeffs_tab hr hj]
  exact h.weight

/-- The end of an iteration, from `w0 - c s2` and `c t0` on. -/
theorem respond_hint (i : Fin 3) {Z U V : ℕ → Rq} {w1 : ℕ → ℕ → ℤ} {z : PolyVec (mldsaPar i).ell}
    {u v w : PolyVec (mldsaPar i).k} (hu : VecBounded 6283009 u) (hv : VecBounded 6283009 v)
    (hz : (∀ r < (mldsaPar i).ell, NormLt (Z r) ((mldsaPar i).gamma1 - (mldsaPar i).beta)) ∧
      ∀ r < (mldsaPar i).ell, ∀ j < 256, coeffs z r j = cent (Z r) j)
    (hu' : (∀ r < (mldsaPar i).k, NormLt (U r) ((mldsaPar i).gamma2 - (mldsaPar i).beta)) ∧
      ∀ r < (mldsaPar i).k, ∀ j < 256, coeffs u r j = cent (U r) j)
    (hv' : (∀ r < (mldsaPar i).k, NormLt (V r) (mldsaPar i).gamma2) ∧
      ∀ r < (mldsaPar i).k, ∀ j < 256, coeffs v r j = cent (V r) j)
    (hw : ∀ r < (mldsaPar i).k, ∀ j < 256, coeffs w r j = w1 r j) :
    Chk.Holds (do
      let w0 ← polyvecAdd u v
      let (h, n) := polyvecMakeHint (mldsaPar i) w0 w
      pure (if n > (mldsaPar i).omega then none else some (z, h)))
      (IsResponse (mldsaPar i) Z U V w1) := by
  refine (polyvecAdd_spec hu hv (by norm_num)).bind fun w0 hw0 => Chk.Holds.pure ?_
  have hhint : ∀ r < (mldsaPar i).k, ∀ j < 256, coeffs (polyvecMakeHint (mldsaPar i) w0 w).1 r j =
      respondHint (mldsaPar i).gamma2 U V w1 r j := by
    intro r hr j hj
    have hsum : coeffs w0 r j = coeffs u r j + coeffs v r j := hw0.2 r hr j hj
    rw [coeffs_polyvecMakeHint _ _ _ hr hj, hsum, hu'.2 r hr j hj, hv'.2 r hr j hj, hw r hr j hj,
      respondHint]
  have hcount : (polyvecMakeHint (mldsaPar i) w0 w).2 =
      hintWeight (respondHint (mldsaPar i).gamma2 U V w1) (mldsaPar i).k := by
    rw [polyvecMakeHint_count, hintWeight_congr hhint]
  change IsResponse _ Z U V w1 (if (polyvecMakeHint (mldsaPar i) w0 w).2 > (mldsaPar i).omega
    then none else some (z, (polyvecMakeHint (mldsaPar i) w0 w).1))
  rw [hcount]
  split
  · exact .inr ⟨fun h => absurd h.weight (not_le.2 ‹_›), rfl⟩
  · refine .inl ⟨⟨hz.1, hu'.1, hv'.1, not_lt.1 ‹_›⟩, congrArg some (Prod.ext ?_ ?_)⟩
    · refine Vector.ext_rd fun r hr => Vector.ext_rd fun j hj => ?_
      unfold centVec
      rw [Vector.rd_tab _ hr, Vector.rd_tab _ hj]
      exact hz.2 r hr j hj
    · refine Vector.ext_rd fun r hr => Vector.ext_rd fun j hj => ?_
      rw [Vector.rd_tab _ hr, Vector.rd_tab _ hj]
      exact hhint r hr j hj

/-- Low bits are small. -/
theorem lowOf_bounded (i : Fin 3) (n : ℕ) (W : ℕ → Rq) :
    VecBounded 261888 (lowOf (mldsaPar i).gamma2 n W) := by
  intro r hr j hj
  obtain ⟨-, -, -, hrange⟩ := decompose_spec (a := std (W r) j) (gamma2_cases_int i)
  unfold lowOf lowBits
  rw [Vector.rd_tab _ hr, Vector.rd_tab _ hj]
  rcases gamma2_cases_int i with hg | hg <;> constructor <;> omega

/-- **The response**, for every secret key: nothing overflows, and the tests are those of
`Responds`. -/
theorem signRespond_spec (i : Fin 3) {S1 S2 T0 W Z U V : ℕ → Rq} {s1 y : PolyVec (mldsaPar i).ell}
    {s2 t0 : PolyVec (mldsaPar i).k} {cp : Poly} (h1 : Transformed s1 S1) (h2 : Transformed s2 S2)
    (h0 : Transformed t0 T0) (hy : VecBounded (2 ^ 19) y) (hc : Bounded 1 cp)
    (hZ : ∀ r < (mldsaPar i).ell, Z r = toRqs y r + toRq cp * S1 r)
    (hU : ∀ r < (mldsaPar i).k, U r = lowPart (mldsaPar i).gamma2 (W r) - toRq cp * S2 r)
    (hV : ∀ r < (mldsaPar i).k, V r = toRq cp * T0 r) :
    Chk.Holds (signRespond s1 s2 t0 y (highOf (mldsaPar i).gamma2 _ W)
        (lowOf (mldsaPar i).gamma2 _ W) cp)
      (IsResponse (mldsaPar i) Z U V fun r j => highBits (mldsaPar i).gamma2 (std (W r) j)) := by
  obtain ⟨-, -, hg1, hg2⟩ := norm_bounds i
  unfold signRespond Transforms.signRespond
  refine (polyNtt_spec hc (by norm_num)).bind fun chat hchat => ?_
  -- the response
  refine times_bind hchat.1 hchat.2 h1 fun t ht ht' => ?_
  refine (polyvecAdd_spec ht hy (by norm_num)).bind fun a ha => ?_
  have harep : ∀ r < (mldsaPar i).ell, ∀ j < 256, IsRep (Z r) j (coeffs a r j) := by
    intro r hr j hj
    have hsum : coeffs a r j = (y.rd r).rd j + coeffs t r j := by
      rw [add_comm]
      exact ha.2 r hr j hj
    rw [hZ r hr, hsum]
    exact (isRep_toRq hj).add (isRep_coeffs ht' r hr j hj)
  refine (reduce_isRep (ha.1.mono (by norm_num)) harep).bind fun z hz => ?_
  refine (chknorm_isRep (by omega) hz.1 hz.2).bind fun b hb => ?_
  cases b with
  | true => exact Chk.Holds.pure (.inr ⟨fun h => hb.1 rfl h.z, rfl⟩)
  | false =>
    replace hz := hb.2 rfl
    -- the low bits
    refine times_bind hchat.1 hchat.2 h2 fun t ht ht' => ?_
    refine (polyvecSub_spec (lowOf_bounded i _ W) ht (by norm_num)).bind fun a ha => ?_
    have harep : ∀ r < (mldsaPar i).k, ∀ j < 256, IsRep (U r) j (coeffs a r j) := by
      intro r hr j hj
      have hdiff : coeffs a r j = lowBits (mldsaPar i).gamma2 (std (W r) j) - coeffs t r j := by
        refine (ha.2 r hr j hj).trans ?_
        unfold lowOf coeffs
        rw [Vector.rd_tab _ hr, Vector.rd_tab _ hj]
      rw [hU r hr, hdiff]
      exact (isRep_ofInts _ hj).sub (isRep_coeffs ht' r hr j hj)
    refine (reduce_isRep (ha.1.mono (by norm_num)) harep).bind fun u hu => ?_
    refine (chknorm_isRep (by omega) hu.1 hu.2).bind fun b hb => ?_
    cases b with
    | true => exact Chk.Holds.pure (.inr ⟨fun h => hb.1 rfl h.low, rfl⟩)
    | false =>
      have hu' := hb.2 rfl
      -- the hint
      refine times_bind hchat.1 hchat.2 h0 fun t ht ht' => ?_
      have htrep : ∀ r < (mldsaPar i).k, ∀ j < 256, IsRep (V r) j (coeffs t r j) := fun r hr j hj =>
        hV r hr ▸ isRep_coeffs ht' r hr j hj
      refine (reduce_isRep (ht.mono (by norm_num)) htrep).bind fun v hv => ?_
      refine (chknorm_isRep (by omega) hv.1 hv.2).bind fun b hb => ?_
      cases b with
      | true => exact Chk.Holds.pure (.inr ⟨fun h => hb.1 rfl h.t0, rfl⟩)
      | false =>
        refine respond_hint i hu.1 hv.1 hz hu' (hb.2 rfl) fun r hr j hj => ?_
        unfold highOf
        rw [coeffs_tab hr hj]

/-! ## The tests of the standard -/

section Tests

variable {i : Fin 3} {key : SignKey} {y : ℕ → ℕ → ℤ} {w : ℕ → Rq} {c : Rq}

/-- The response of an iteration. -/
noncomputable def signZ (key : SignKey) (y : ℕ → ℕ → ℤ) (c : Rq) (r : ℕ) : Rq :=
  ofInts (y r) + c * key.s1 r

/-- What is left of the low bits. -/
noncomputable def signU (gamma2 : ℤ) (key : SignKey) (w : ℕ → Rq) (c : Rq) (r : ℕ) : Rq :=
  lowPart gamma2 (w r) - c * key.s2 r

/-- The product that the hint makes up for. -/
noncomputable def signV (key : SignKey) (c : Rq) (r : ℕ) : Rq := c * key.t0 r

/-- The tests of the code, in an iteration. -/
def CodePasses (par : MldsaParam) (key : SignKey) (y : ℕ → ℕ → ℤ) (w : ℕ → Rq) (c : Rq) : Prop :=
  Responds par (signZ key y c) (signU par.gamma2 key w c) (signV key c)
    fun r j => highBits par.gamma2 (std (w r) j)

/-- The hint of the code, in an iteration. -/
noncomputable def codeHint (par : MldsaParam) (key : SignKey) (w : ℕ → Rq) (c : Rq) : ℕ → ℕ → ℤ :=
  respondHint par.gamma2 (signU par.gamma2 key w c) (signV key c)
    fun r j => highBits par.gamma2 (std (w r) j)

/-- Where the norms are small, the hint is that of the standard. -/
theorem codeHint_eq
    (hlow : ∀ r < (mldsaPar i).k,
      NormLt (signU (mldsaPar i).gamma2 key w c r) ((mldsaPar i).gamma2 - (mldsaPar i).beta))
    (ht0 : ∀ r < (mldsaPar i).k, NormLt (signV key c r) (mldsaPar i).gamma2) :
    ∀ r < (mldsaPar i).k, ∀ j < 256,
      codeHint (mldsaPar i) key w c r j = signHint (mldsaPar i) key w c r j := by
  intro r hr j hj
  have hu : |cent (signU (mldsaPar i).gamma2 key w c r) j| < (mldsaPar i).gamma2 := by
    have := hlow r hr j hj
    unfold cent
    omega
  exact makeHint_code_eq (gamma2_cases_int i) hj hu (ht0 r hr j hj)

/-- **The tests of the code are those of the standard**, as long as the challenge times the
second secret vector is at most `beta`. -/
theorem codePasses_iff
    (hs2 : ∀ r < (mldsaPar i).k, ∀ j < 256, |cent (c * key.s2 r) j| ≤ (mldsaPar i).beta) :
    CodePasses (mldsaPar i) key y w c ↔ Passes (mldsaPar i) key y w c := by
  obtain ⟨-, hbeta, -, -⟩ := norm_bounds i
  have hlow : (∀ r < (mldsaPar i).k,
      NormLt (signU (mldsaPar i).gamma2 key w c r) ((mldsaPar i).gamma2 - (mldsaPar i).beta)) ↔
      ∀ r < (mldsaPar i).k, ∀ j < 256, |lowBits (mldsaPar i).gamma2 (std (w r - c * key.s2 r) j)| <
        (mldsaPar i).gamma2 - (mldsaPar i).beta :=
    forall₂_congr fun r hr => forall₂_congr fun j hj =>
      (lowBits_sub_iff (gamma2_cases_int i) hj (hs2 r hr j hj) (by omega) (by omega)).symm
  constructor
  · intro h
    have hweight := h.weight
    change hintWeight (codeHint (mldsaPar i) key w c) _ ≤ _ at hweight
    rw [hintWeight_congr (codeHint_eq h.low h.t0)] at hweight
    exact ⟨h.z, hlow.1 h.low, h.t0, hweight⟩
  · rintro ⟨hz, hl, ht0, hweight⟩
    refine ⟨hz, hlow.2 hl, ht0, ?_⟩
    change hintWeight (codeHint (mldsaPar i) key w c) _ ≤ _
    rwa [hintWeight_congr (codeHint_eq (hlow.2 hl) ht0)]

end Tests

/-! ## An iteration -/

/-- The mask of an iteration is in range. -/
theorem expandMask_range (H : Hash) (i : Fin 3) (rho : List UInt8) (mu r j : ℕ) :
    -2 ^ 19 ≤ expandMask H (mldsaPar i).gamma1 rho mu r j ∧
      expandMask H (mldsaPar i).gamma1 rho mu r j ≤ 2 ^ 19 := by
  obtain ⟨-, -, hle, -⟩ := norm_bounds i
  have hlt := unpack_lt (bitlen ((mldsaPar i).gamma1 - 1 + (mldsaPar i).gamma1))
    (H.shake256 (rho ++ integerToBytes2 (mu + r))) j
  rw [two_pow_bitlen_gamma1] at hlt
  unfold expandMask bitUnpack
  constructor <;> omega

theorem vecBounded_tab {B : ℤ} (n : ℕ) {f : ℕ → ℕ → ℤ} (hf : ∀ r j, -B ≤ f r j ∧ f r j ≤ B) :
    VecBounded B (Vector.tab n fun r => Vector.tab 256 (f r)) := by
  intro r hr j hj
  rw [Vector.rd_tab _ hr, Vector.rd_tab _ hj]
  exact hf r j

theorem toRqs_tab {n : ℕ} (f : ℕ → ℕ → ℤ) {r : ℕ} (hr : r < n) :
    toRqs (Vector.tab n fun r => Vector.tab 256 (f r)) r = ofInts (f r) :=
  ofInts_congr fun _ hj => coeffs_tab hr hj

/-- The commitment to a mask. -/
theorem signCommit_mask (i : Fin 3) (A : ℕ → ℕ → Rq) {f : ℕ → ℕ → ℤ}
    (hf : ∀ r j, -2 ^ 19 ≤ f r j ∧ f r j ≤ 2 ^ 19) :
    signCommit (matOf _ _ A) (Vector.tab (mldsaPar i).ell fun r => Vector.tab 256 (f r)) =
      pure (highOf (mldsaPar i).gamma2 _ (signW (mldsaPar i).ell A f),
        lowOf (mldsaPar i).gamma2 _ (signW (mldsaPar i).ell A f)) := by
  have hw : matVec (mldsaPar i).ell A
      (toRqs (Vector.tab (mldsaPar i).ell fun r => Vector.tab 256 (f r))) =
        signW (mldsaPar i).ell A f :=
    funext fun r => matVec_congr (fun s hs => toRqs_tab f hs) r
  rw [signCommit_eq i A (vecBounded_tab _ hf), hw]

theorem inW1_highOf (i : Fin 3) (W : ℕ → Rq) : InW1 i (highOf (mldsaPar i).gamma2 _ W) := by
  intro r hr j hj
  obtain ⟨h1, hm, -, -⟩ := decompose_spec (a := std (W r) j) (gamma2_cases_int i)
  unfold highOf
  rw [coeffs_tab hr hj]
  exact ⟨h1, hm⟩

section Iteration

variable {i : Fin 3} {mu rho : List UInt8} {key : SignKey}

/-- The mask of iteration `n`. -/
def signY (H : Hash) (par : MldsaParam) (rho : List UInt8) (n : ℕ) : ℕ → ℕ → ℤ :=
  expandMask H par.gamma1 rho (par.ell * n)

/-- The commitment of iteration `n`. -/
noncomputable def signWAt (H : Hash) (par : MldsaParam) (key : SignKey) (rho : List UInt8) (n : ℕ) :
    ℕ → Rq :=
  signW par.ell key.A (signY H par rho n)

/-- The buffer once the packed `w1` and the challenge seed lie at its start. -/
noncomputable def parked (H : Hash) (par : MldsaParam) (mu : List UInt8) (w : ℕ → Rq) (b : Bytes) :
    Bytes :=
  (b.put 0 (w1Encode par fun r j => highBits par.gamma2 (std (w r) j))).put 0 (signCtilde H par mu w)

/-- The signature that the code writes in iteration `n`, for the challenge `c`. -/
noncomputable def codeSig (H : Hash) (par : MldsaParam) (key : SignKey) (mu rho : List UInt8) (n : ℕ)
    (c : Rq) : List UInt8 :=
  sigEncode par (signCtilde H par mu (signWAt H par key rho n))
    (fun r => cent (signZ key (signY H par rho n) c r)) (codeHint par key (signWAt H par key rho n) c)

/-- The counter is a 16-bit word, and so is what is hashed of it. -/
theorem polyvecUniformGamma1_mask (hrho : rho.length = 64) (n : ℕ) :
    polyvecUniformGamma1 H (mldsaPar i) (Bytes.ofList rho) (n % 2 ^ 16) =
      pure (Vector.tab _ fun r => Vector.tab 256 (signY H (mldsaPar i) rho n r)) := by
  have hnonce : ∀ r, integerToBytes2 ((mldsaPar i).ell * (n % 2 ^ 16) + r) =
      integerToBytes2 ((mldsaPar i).ell * n + r) := by
    intro r
    have hmod : (mldsaPar i).ell * (n % 2 ^ 16) + r ≡ (mldsaPar i).ell * n + r [MOD 2 ^ 16] :=
      ((Nat.mod_modEq n _).mul_left _).add_right r
    rw [← integerToBytes2_mod, hmod, integerToBytes2_mod]
  rw [polyvecUniformGamma1_eq, ← hrho, Bytes.take_ofList]
  unfold signY expandMask
  simp only [hnonce]

theorem length_signCtilde (H : Hash) (par : MldsaParam) (mu : List UInt8) (w : ℕ → Rq) :
    (signCtilde H par mu w).length = par.cpSz :=
  Bytes.length_take _ _

theorem take_parked (w : ℕ → Rq) (b : Bytes) :
    (parked H (mldsaPar i) mu w b).take (mldsaPar i).cpSz = signCtilde H (mldsaPar i) mu w := by
  have hlen := length_signCtilde H (mldsaPar i) mu w
  unfold parked
  rw [← hlen, Bytes.take_put]

/-- Nothing is parked behind the signature. -/
theorem parked_of_le (w : ℕ → Rq) (b : Bytes) {p : ℕ} (hp : (mldsaPar i).sigSz ≤ p) :
    parked H (mldsaPar i) mu w b p = b p := by
  have hsz : (mldsaPar i).k * (mldsaPar i).w1pSz ≤ (mldsaPar i).sigSz ∧
      (mldsaPar i).cpSz ≤ (mldsaPar i).sigSz := by
    fin_cases i <;> decide
  unfold parked
  rw [Bytes.put_of_le (by rw [length_signCtilde]; omega),
    Bytes.put_of_le (by rw [length_w1Encode]; omega)]

/-- A signature that is written has the size that is reported. -/
theorem length_codeSig (mu : List UInt8) {n : ℕ} {c : Rq} (h : CodePasses (mldsaPar i) key
      (signY H (mldsaPar i) rho n) (signWAt H (mldsaPar i) key rho n) c) :
    (codeSig H (mldsaPar i) key mu rho n c).length = (mldsaPar i).sigSz :=
  length_sigEncode i _ (length_signCtilde H (mldsaPar i) mu _) h.weight

/-- The signature that is written once the tests are passed. -/
theorem packSig_parked (mu : List UInt8) (b : Bytes) {n : ℕ} {c : Rq} (h : CodePasses (mldsaPar i) key
      (signY H (mldsaPar i) rho n) (signWAt H (mldsaPar i) key rho n) c) :
    packSig (mldsaPar i) (parked H (mldsaPar i) mu (signWAt H (mldsaPar i) key rho n) b) id
        (centVec _ (signZ key (signY H (mldsaPar i) rho n) c))
        (Vector.tab _ fun r => Vector.tab 256
          (codeHint (mldsaPar i) key (signWAt H (mldsaPar i) key rho n) c r)) =
      pure (b.put 0 (codeSig H (mldsaPar i) key mu rho n c)) := by
  have hh := fun r hr j hj => coeffs_tab (n := (mldsaPar i).k)
    (f := codeHint (mldsaPar i) key (signWAt H (mldsaPar i) key rho n) c) (r := r) (j := j) hr hj
  have hw : hintWeight (coeffs (Vector.tab (mldsaPar i).k fun r => Vector.tab 256
      (codeHint (mldsaPar i) key (signWAt H (mldsaPar i) key rho n) c r))) (mldsaPar i).k ≤
        (mldsaPar i).omega := h.weight_tab
  rw [packSig_eq_self i h.inZ hw, take_parked,
    sigEncode_congr (fun r hr j hj => coeffs_centVec _ _ hr hj) hh]
  have hlen := length_codeSig mu h
  exact congrArg pure (Bytes.put_congr fun p hp => parked_of_le _ _ (hlen ▸ hp))

/-- What is done with a challenge polynomial, in terms of its coefficients. -/
theorem exists_challenge {seed : Bytes} {M : Poly → Prop} {Q : (ℕ → ℤ) → Prop}
    (hM : ∀ c, Bounded 1 (Vector.tab 256 c) → (M (Vector.tab 256 c) ↔ Q c)) :
    (∃ cp, (polyChallenge H (mldsaPar i) seed).Returns cp ∧ M cp) ↔
      ∃ c, SampleInBall H (mldsaPar i).tau (seed.take (mldsaPar i).cpSz) c ∧ Q c := by
  constructor
  · rintro ⟨cp, hcp, hm⟩
    have hb := challenge_bounded hcp
    obtain ⟨c, hc, rfl⟩ := (returns_challenge i).1 hcp
    exact ⟨c, hc, (hM c hb).1 hm⟩
  · rintro ⟨c, hc, hq⟩
    have hcp := (returns_challenge i).2 ⟨c, hc, rfl⟩
    exact ⟨_, hcp, (hM c (challenge_bounded hcp)).2 hq⟩

/-- **The body of the loop.**  It goes on, with the next counter, where its challenge does not
pass the tests, and writes the signature where it does. -/
theorem returns_signStep (hrho : rho.length = 64) {s1 : PolyVec (mldsaPar i).ell}
    {s2 t0 : PolyVec (mldsaPar i).k} (h1 : Transformed s1 key.s1) (h2 : Transformed s2 key.s2)
    (h0 : Transformed t0 key.t0) {s : ℕ × Bytes} {n : ℕ} (hs : s.1 = n % 2 ^ 16)
    {x : (ℕ × Bytes) ⊕ Bytes} :
    (signStep H mu rho (matOf _ _ key.A) s1 s2 t0 s).Returns x ↔
      ∃ c, SampleInBall H (mldsaPar i).tau
          (signCtilde H (mldsaPar i) mu (signWAt H (mldsaPar i) key rho n)) c ∧
        (¬CodePasses (mldsaPar i) key (signY H (mldsaPar i) rho n)
            (signWAt H (mldsaPar i) key rho n) (ofInts c) ∧
          x = .inl ((n + 1) % 2 ^ 16,
            parked H (mldsaPar i) mu (signWAt H (mldsaPar i) key rho n) s.2) ∨
        CodePasses (mldsaPar i) key (signY H (mldsaPar i) rho n)
            (signWAt H (mldsaPar i) key rho n) (ofInts c) ∧
          x = .inr (s.2.put 0 (codeSig H (mldsaPar i) key mu rho n (ofInts c)))) := by
  obtain ⟨nonce, sig⟩ := s
  obtain rfl : nonce = n % 2 ^ 16 := hs
  have hnext : (n % 2 ^ 16 + 1) % 2 ^ 16 = (n + 1) % 2 ^ 16 := by omega
  set W := signWAt H (mldsaPar i) key rho n with hW
  have hmask : ∀ r j, -2 ^ 19 ≤ signY H (mldsaPar i) rho n r j ∧
      signY H (mldsaPar i) rho n r j ≤ 2 ^ 19 :=
    expandMask_range H i _ _
  have hcommit : signCommit (matOf _ _ key.A)
      (Vector.tab (mldsaPar i).ell fun r => Vector.tab 256 (signY H (mldsaPar i) rho n r)) =
        pure (highOf (mldsaPar i).gamma2 _ W, lowOf (mldsaPar i).gamma2 _ W) :=
    signCommit_mask i key.A hmask
  have hw1 : w1Encode (mldsaPar i) (coeffs (highOf (mldsaPar i).gamma2 (mldsaPar i).k W)) =
      w1Encode (mldsaPar i) fun r j => highBits (mldsaPar i).gamma2 (std (W r) j) :=
    w1Encode_congr fun r hr j hj => coeffs_tab hr hj
  have hpark : (sig.put 0 (w1Encode (mldsaPar i) fun r j =>
      highBits (mldsaPar i).gamma2 (std (W r) j))).put 0 (hashTwo H (mldsaPar i).cpSz mu
        ((sig.put 0 (w1Encode (mldsaPar i) fun r j =>
          highBits (mldsaPar i).gamma2 (std (W r) j))).take ((mldsaPar i).k * (mldsaPar i).w1pSz))) =
      parked H (mldsaPar i) mu W sig := by
    rw [hashTwo_eq, ← length_w1Encode i fun r j => highBits (mldsaPar i).gamma2 (std (W r) j),
      Bytes.take_put]
    rfl
  unfold signStep Transforms.signStep
  simp only [scalar_signCommit, scalar_signRespond, returns_bind, returns_lift,
    polyvecUniformGamma1_mask hrho, Chk.val_pure, exists_eq_left', hcommit,
    polyvecPackW1_eq i _ (inW1_highOf i W), hw1, hpark, hnext]
  rw [← take_parked (i := i) W sig]
  refine exists_challenge fun c hc => ?_
  have hresp := (signRespond_spec i h1 h2 h0 (vecBounded_tab _ hmask) hc
    (Z := signZ key (signY H (mldsaPar i) rho n) (ofInts c))
    (U := signU (mldsaPar i).gamma2 key W (ofInts c)) (V := signV key (ofInts c)) (W := W)
    (fun r hr => by rw [toRqs_tab _ hr, toRq_tab, signZ])
    (fun r _ => by rw [toRq_tab, signU]) fun r _ => by rw [toRq_tab, signV]).2
  rcases hresp with ⟨hpass, ho⟩ | ⟨hfail, ho⟩
  · have hpack := packSig_parked mu sig hpass
    rw [← hW] at hpack
    rw [ho]
    change Returns (do
      let sig ← packSig (mldsaPar i) (parked H (mldsaPar i) mu W sig) id
        (centVec _ (signZ key (signY H (mldsaPar i) rho n) (ofInts c)))
        (Vector.tab _ fun r => Vector.tab 256 (codeHint (mldsaPar i) key W (ofInts c) r))
      pure (Sum.inr sig) : Prog ((ℕ × Bytes) ⊕ Bytes)) x ↔ _
    rw [hpack, returns_bind]
    simp only [returns_lift, Chk.val_pure, exists_eq_left', returns_pure]
    refine ⟨fun h => .inr ⟨hpass, h.symm⟩, ?_⟩
    rintro (⟨hfail, -⟩ | ⟨-, h⟩)
    · exact absurd hpass hfail
    · exact h.symm
  · rw [ho]
    refine returns_pure.trans ⟨fun h => .inl ⟨hfail, h.symm⟩, ?_⟩
    rintro (⟨-, h⟩ | ⟨hpass, -⟩)
    · exact h.symm
    · exact absurd hpass hfail

/-! ## The loop -/

/-- Signing by the tests and the hint of the code: the first iteration that passes. -/
def CodeSign (H : Hash) (par : MldsaParam) (key : SignKey) (mu rho sigma : List UInt8) : Prop :=
  ∃ (c : ℕ → ℕ → ℤ) (kappa : ℕ),
    (∀ n ≤ kappa, SampleInBall H par.tau (signCtilde H par mu (signWAt H par key rho n)) (c n)) ∧
    (∀ n < kappa, ¬CodePasses par key (signY H par rho n) (signWAt H par key rho n) (ofInts (c n))) ∧
    CodePasses par key (signY H par rho kappa) (signWAt H par key rho kappa) (ofInts (c kappa)) ∧
    sigma = codeSig H par key mu rho kappa (ofInts (c kappa))

theorem length_codeSign {sigma : List UInt8} (h : CodeSign H (mldsaPar i) key mu rho sigma) :
    sigma.length = (mldsaPar i).sigSz := by
  obtain ⟨c, kappa, -, -, hpass, rfl⟩ := h
  exact length_codeSig mu hpass

/-- A turn of the loop changes the buffer within the signature only. -/
def InLoop (i : Fin 3) (sig : Bytes) (n : ℕ) (s : ℕ × Bytes) : Prop :=
  s.1 = n % 2 ^ 16 ∧ ∀ p, (mldsaPar i).sigSz ≤ p → s.2 p = sig p

/-- **The loop** ends with the first iteration that passes, and its signature is all that
is left in the buffer of what was done there. -/
theorem returns_signLoop (hrho : rho.length = 64) {s1 : PolyVec (mldsaPar i).ell}
    {s2 t0 : PolyVec (mldsaPar i).k} (h1 : Transformed s1 key.s1) (h2 : Transformed s2 key.s2)
    (h0 : Transformed t0 key.t0) {sig out : Bytes} :
    (Prog.loop (signStep H mu rho (matOf _ _ key.A) s1 s2 t0) (0, sig)).Returns out ↔
      ∃ sigma, CodeSign H (mldsaPar i) key mu rho sigma ∧ sigma.length = (mldsaPar i).sigSz ∧
        out = sig.put 0 sigma := by
  refine (Prog.returns_loop_first (InLoop i sig)
    (fun n c => SampleInBall H (mldsaPar i).tau
      (signCtilde H (mldsaPar i) mu (signWAt H (mldsaPar i) key rho n)) c)
    (fun n c => CodePasses (mldsaPar i) key (signY H (mldsaPar i) rho n)
      (signWAt H (mldsaPar i) key rho n) (ofInts c))
    (fun s n _ => ((n + 1) % 2 ^ 16,
      parked H (mldsaPar i) mu (signWAt H (mldsaPar i) key rho n) s.2))
    (fun n c => sig.put 0 (codeSig H (mldsaPar i) key mu rho n (ofInts c))) ?_ ?_
    (show InLoop i sig 0 (0, sig) from ⟨rfl, fun _ _ => rfl⟩)).trans ?_
  · intro n s hs x
    rw [returns_signStep hrho h1 h2 h0 hs.1]
    refine exists_congr fun c => and_congr_right fun _ => or_congr Iff.rfl ?_
    refine and_congr_right fun hpass => ?_
    rw [Bytes.put_congr fun p hp => hs.2 p (length_codeSig mu hpass ▸ hp)]
  · intro n s _ hs
    exact ⟨rfl, fun p hp => (parked_of_le _ _ hp).trans (hs.2 p hp)⟩
  · simp only [Nat.zero_add]
    constructor
    · rintro ⟨c, kappa, hc, hfail, hpass, hout⟩
      exact ⟨_, ⟨c, kappa, hc, hfail, hpass, rfl⟩, length_codeSig mu hpass, hout⟩
    · rintro ⟨_, ⟨c, kappa, hc, hfail, hpass, rfl⟩, -, hout⟩
      exact ⟨c, kappa, hc, hfail, hpass, hout⟩

end Iteration

/-! ## Signing -/

section Signing

variable {i : Fin 3} {sk : SecretKey (mldsaPar i)}

/-- What signing takes from a secret key, over the ring. -/
noncomputable def signKey (A : ℕ → ℕ → Rq) (sk : SecretKey (mldsaPar i)) : SignKey :=
  ⟨A, toRqs sk.s1, toRqs sk.s2, toRqs sk.t0⟩

/-- The message representative. -/
def signMu (H : Hash) (sk : SecretKey (mldsaPar i)) (m : List UInt8) : List UInt8 :=
  (H.shake256 (sk.tr.take 64 ++ m)).take 64

/-- The seed of the masks. -/
def signRho (H : Hash) (sk : SecretKey (mldsaPar i)) (rnd : Bytes) (mu : List UInt8) : List UInt8 :=
  (H.shake256 (sk.key.take 32 ++ rnd.take 32 ++ mu)).take 64

/-- A transform of a vector that can be decoded. -/
theorem transformed_ntt {n : ℕ} {v : PolyVec n} (hv : VecBounded 4096 v) :
    Chk.Holds (polyvecNtt v) fun t => Transformed t (toRqs v) :=
  polyvecNtt_spec hv (by norm_num)

theorem EtaCoded.bounded {n : ℕ} {v : PolyVec n} (h : EtaCoded i v) : VecBounded 4096 v := by
  have hmax : ((mldsaPar i).eta : ℤ) ≤ 4 ∧
      (2 : ℤ) ^ bitlen ((mldsaPar i).eta + (mldsaPar i).eta) ≤ 16 := by
    fin_cases i <;> decide
  intro r hr j hj
  obtain ⟨h1, h2⟩ := h r hr j hj
  unfold coeffs at h1 h2
  constructor <;> omega

theorem InT0.bounded {n : ℕ} {v : PolyVec n} (h : InT0 v) : VecBounded 4096 v := by
  intro r hr j hj
  obtain ⟨h1, h2⟩ := h r hr j hj
  unfold coeffs at h1 h2
  constructor <;> omega

/-- Signing needs the matrix. -/
theorem expandA_of_sign {sig p : Bytes} (hsk : decodeSk i p = sk) {m : List UInt8} {rnd : Bytes}
    {x : Bytes × ℕ} (h : (signInternal H (mldsaPar i) sig p m rnd).Returns x) :
    ∃ A, ExpandA H (mldsaPar i).k (mldsaPar i).ell (sk.rho.take 32) A := by
  unfold signInternal Linked.signInternal at h
  simp only [returns_bind, returns_lift, unpackSk_eq, Chk.val_pure, exists_eq_left', hsk] at h
  obtain ⟨mat, hmat, -⟩ := h
  obtain ⟨A, hA, -⟩ := (returns_polyvecMatrixExpand_iff i).1 hmat
  exact ⟨A, hA⟩

/-- **What signing returns**, for every secret key. -/
theorem returns_signInternal {sig p : Bytes} (hsk : decodeSk i p = sk) {m : List UInt8} {rnd : Bytes}
    {A : ℕ → ℕ → Rq} (hA : ExpandA H (mldsaPar i).k (mldsaPar i).ell (sk.rho.take 32) A) {out : Bytes}
    {sz : ℕ} :
    (signInternal H (mldsaPar i) sig p m rnd).Returns (out, sz) ↔ sz = (mldsaPar i).sigSz ∧
      ∃ sigma, CodeSign H (mldsaPar i) (signKey A sk) (signMu H sk m)
        (signRho H sk rnd (signMu H sk m)) sigma ∧ sigma.length = (mldsaPar i).sigSz ∧
          out = sig.put 0 sigma := by
  obtain ⟨hs1, hs2, ht0⟩ := decodeSk_range i p
  rw [hsk] at hs1 hs2 ht0
  have h1 := transformed_ntt hs1.bounded
  have h2 := transformed_ntt hs2.bounded
  have h0 := transformed_ntt ht0.bounded
  have hmu : hashTwo H 64 (sk.tr.take 64) m = signMu H sk m := hashTwo_eq H _ _ _
  have hmat := (returns_polyvecMatrixExpand_iff i).2 ⟨A, hA, rfl⟩
  have hloop := fun out' => @returns_signLoop H i (signMu H sk m)
    (signRho H sk rnd (signMu H sk m)) (signKey A sk) (Bytes.length_take _ _) _ _ _ h1.2 h2.2 h0.2 sig
      out'
  unfold signInternal Linked.signInternal
  simp only [returns_bind, returns_lift, returns_pure, unpackSk_eq, Chk.val_pure, exists_eq_left',
    hsk, hmu, Prod.mk.injEq]
  constructor
  · rintro ⟨mat, hmat', out', hout, rfl, rfl⟩
    rw [returns_unique hmat' hmat] at hout
    exact ⟨rfl, (hloop out').1 hout⟩
  · rintro ⟨rfl, hsigma⟩
    exact ⟨_, hmat, out, (hloop out).2 hsigma, rfl, rfl⟩

/-- The challenges of signing keep `c s2` small. -/
theorem abs_challenge_s2_le (h2 : InEta i sk.s2) {rho : List UInt8} {c : ℕ → ℤ}
    (hc : SampleInBall H (mldsaPar i).tau rho c) (A : ℕ → ℕ → Rq) :
    ∀ r < (mldsaPar i).k, ∀ j < 256, |cent (ofInts c * (signKey A sk).s2 r) j| ≤ (mldsaPar i).beta :=
  fun r hr _ hj => challenge_mul_le i hc (fun j hj => abs_le.2 (h2 r hr j hj)) hj

/-- **Signing by the tests of the code is `Sign`**, where the second secret vector is in range. -/
theorem codeSign_iff (h2 : InEta i sk.s2) {A : ℕ → ℕ → Rq} {mu rho sigma : List UInt8} :
    CodeSign H (mldsaPar i) (signKey A sk) mu rho sigma ↔
      Sign H (mldsaPar i) (signKey A sk) mu rho sigma := by
  refine exists_congr fun c => exists_congr fun kappa => and_congr_right fun hc => ?_
  have hiff : ∀ n ≤ kappa, (CodePasses (mldsaPar i) (signKey A sk) (signY H (mldsaPar i) rho n)
      (signWAt H (mldsaPar i) (signKey A sk) rho n) (ofInts (c n)) ↔
        Passes (mldsaPar i) (signKey A sk) (signY H (mldsaPar i) rho n)
          (signWAt H (mldsaPar i) (signKey A sk) rho n) (ofInts (c n))) := fun n hn =>
    codePasses_iff (abs_challenge_s2_le h2 (hc n hn) A)
  refine and_congr (forall₂_congr fun n hn => not_congr (hiff n hn.le)) ?_
  constructor
  · rintro ⟨hpass, rfl⟩
    refine ⟨(hiff kappa le_rfl).1 hpass, ?_⟩
    exact sigEncode_congr (fun _ _ _ _ => rfl) (codeHint_eq hpass.low hpass.t0)
  · rintro ⟨hpass, rfl⟩
    have hcode := (hiff kappa le_rfl).2 hpass
    refine ⟨hcode, ?_⟩
    exact (sigEncode_congr (fun _ _ _ _ => rfl) (codeHint_eq hcode.low hcode.t0)).symm

/-- The first iteration that passes gives a signature. -/
theorem exists_sign_iff (key : SignKey) (mu rho : List UInt8) {c : ℕ → ℕ → ℤ}
    (hc : ∀ n, SampleInBall H (mldsaPar i).tau
      (signCtilde H (mldsaPar i) mu (signWAt H (mldsaPar i) key rho n)) (c n)) :
    (∃ sigma, CodeSign H (mldsaPar i) key mu rho sigma) ↔
      ∃ n, CodePasses (mldsaPar i) key (signY H (mldsaPar i) rho n)
        (signWAt H (mldsaPar i) key rho n) (ofInts (c n)) := by
  constructor
  · rintro ⟨sigma, c', kappa, hc', -, hpass, -⟩
    have hsame : ofInts (c' kappa) = ofInts (c kappa) :=
      challenge_unique i (length_signCtilde H _ mu _) (hc' kappa le_rfl) (hc kappa)
    exact ⟨kappa, hsame ▸ hpass⟩
  · intro hpass
    classical
    exact ⟨_, c, Nat.find hpass, fun n _ => hc n, fun n hn => Nat.find_min hpass hn,
      Nat.find_spec hpass, rfl⟩

/-- **Signing is `Sign`.**  The first iteration that passes the four tests of the standard
gives the signature, of which no byte depends on what was in the buffer; and there is a
result as soon as the samplings end and some iteration passes. -/
theorem sign_exact (H : Hash) (i : Fin 3) (p : Bytes) (m : List UInt8) (rnd : Bytes)
    (sk : SecretKey (mldsaPar i)) (hsk : unpackSk (mldsaPar i) p = pure sk) (h2 : InEta i sk.s2) :
    let mu := signMu H sk m
    let rho := signRho H sk rnd mu
    (∀ (sig out : Bytes) (sz : ℕ), (signInternal H (mldsaPar i) sig p m rnd).Returns (out, sz) ↔
      sz = (mldsaPar i).sigSz ∧
        ∃ A sigma, ExpandA H (mldsaPar i).k (mldsaPar i).ell (sk.rho.take 32) A ∧
          Sign H (mldsaPar i) (signKey A sk) mu rho sigma ∧ sigma.length = (mldsaPar i).sigSz ∧
            out = sig.put 0 sigma) ∧
    (∀ (sig : Bytes) (A : ℕ → ℕ → Rq) (c : ℕ → ℕ → ℤ),
      ExpandA H (mldsaPar i).k (mldsaPar i).ell (sk.rho.take 32) A →
      (∀ n, SampleInBall H (mldsaPar i).tau
        (signCtilde H (mldsaPar i) mu (signWAt H (mldsaPar i) (signKey A sk) rho n)) (c n)) →
      ((∃ x, (signInternal H (mldsaPar i) sig p m rnd).Returns x) ↔
        ∃ n, Passes (mldsaPar i) (signKey A sk) (signY H (mldsaPar i) rho n)
          (signWAt H (mldsaPar i) (signKey A sk) rho n) (ofInts (c n)))) ∧
    ∀ (sig sig' out : Bytes) (sz : ℕ), (signInternal H (mldsaPar i) sig p m rnd).Returns (out, sz) →
      (signInternal H (mldsaPar i) sig' p m rnd).Returns (sig'.put 0 (out.take sz), sz) := by
  intro mu rho
  have hdec : decodeSk i p = sk := by
    have hval := congrArg Chk.val ((unpackSk_eq i p).symm.trans hsk)
    exact hval
  refine ⟨fun sig out sz => ?_, fun sig A c hA hc => ?_, fun sig sig' out sz h => ?_⟩
  · constructor
    · intro h
      obtain ⟨A, hA⟩ := expandA_of_sign hdec h
      obtain ⟨hsz, sigma, hsigma, hlen, hout⟩ := (returns_signInternal hdec hA).1 h
      exact ⟨hsz, A, sigma, hA, (codeSign_iff h2).1 hsigma, hlen, hout⟩
    · rintro ⟨hsz, A, sigma, hA, hsigma, hlen, hout⟩
      exact (returns_signInternal hdec hA).2 ⟨hsz, sigma, (codeSign_iff h2).2 hsigma, hlen, hout⟩
  · rw [Prod.exists]
    have hreturns : (∃ out sz, (signInternal H (mldsaPar i) sig p m rnd).Returns (out, sz)) ↔
        ∃ sigma, CodeSign H (mldsaPar i) (signKey A sk) mu rho sigma := by
      simp only [returns_signInternal hdec hA]
      constructor
      · rintro ⟨out, sz, -, sigma, hsigma, -⟩
        exact ⟨sigma, hsigma⟩
      · rintro ⟨sigma, hsigma⟩
        exact ⟨_, _, rfl, sigma, hsigma, length_codeSign hsigma, rfl⟩
    rw [hreturns, exists_sign_iff _ _ _ hc]
    exact exists_congr fun n => codePasses_iff (abs_challenge_s2_le h2 (hc n) A)
  · obtain ⟨A, hA⟩ := expandA_of_sign hdec h
    obtain ⟨rfl, sigma, hsigma, hlen, rfl⟩ := (returns_signInternal hdec hA).1 h
    refine (returns_signInternal hdec hA).2 ⟨rfl, sigma, hsigma, hlen, ?_⟩
    rw [← hlen, Bytes.take_put]

/-! ## A run -/

/-- Hash functions for which the matrix and the secret vectors of ML-DSA-44 are zero, and
its masks pass the first test. -/
def constHash : Hash := { zeroHash with shake256 := fun _ _ => 0x22 }

theorem expandA_constHash (k ell : ℕ) (rho : List UInt8) : ExpandA constHash k ell rho fun _ _ => 0 :=
  expandA_zeroHash k ell rho

theorem exists_ball_constHash : ∃ c, ∀ rho, SampleInBall constHash (mldsaPar 0).tau rho c := by
  have hball : ∃ c, SampleInBall constHash (mldsaPar 0).tau [] c := by
    refine ⟨_, fun m => 8 + m, rfl, fun m hm => ⟨Nat.lt_succ_self _, ?_, fun q h1 h2 => ?_⟩,
      fun _ _ => rfl⟩
    · change 34 ≤ 256 - 39 + m
      omega
    · dsimp only at h1 h2
      omega
  obtain ⟨c, hc⟩ := hball
  exact ⟨c, fun _ => hc⟩

/-- The masks repeat after four coefficients. -/
theorem expandMask_constHash (rho : List UInt8) (mu r j : ℕ) :
    |expandMask constHash (mldsaPar 0).gamma1 rho mu r j| <
      (mldsaPar 0).gamma1 - (mldsaPar 0).beta := by
  have hperiod : regroup 8 18 (fun _ => 34) j = regroup 8 18 (fun _ => 34) (j % 4) := by
    refine fromBits_congr fun p _ => ?_
    unfold bit
    rw [show (18 * j + p) % 8 = (18 * (j % 4) + p) % 8 by omega]
  have hfour : ∀ m < 4, 2 ^ 15 ≤ regroup 8 18 (fun _ => 34) m ∧
      regroup 8 18 (fun _ => 34) m ≤ 2 ^ 18 - 2 ^ 15 := by
    decide +kernel
  have hmask : expandMask constHash (mldsaPar 0).gamma1 rho mu r j =
      (2 ^ 17 : ℕ) - (regroup 8 18 (fun _ => 34) j : ℕ) := rfl
  obtain ⟨h1, h2⟩ := hfour (j % 4) (Nat.mod_lt _ (by norm_num))
  rw [hmask, hperiod, abs_lt, show (mldsaPar 0).gamma1 = 2 ^ 17 from rfl,
    show (mldsaPar 0).beta = 78 from rfl]
  constructor <;> omega

theorem std_zero (j : ℕ) : std 0 j = 0 := by
  rw [std, coeff_zero]
  rfl

/-- With nothing to hide, a mask that is short passes every test. -/
theorem passes_zero (i : Fin 3) {key : SignKey} {y : ℕ → ℕ → ℤ} {c : Rq}
    (hA : ∀ r s, key.A r s = 0) (h1 : ∀ r < (mldsaPar i).ell, key.s1 r = 0)
    (h2 : ∀ r < (mldsaPar i).k, key.s2 r = 0) (h0 : ∀ r < (mldsaPar i).k, key.t0 r = 0)
    (hy : ∀ r < (mldsaPar i).ell, ∀ j < 256, |y r j| < (mldsaPar i).gamma1 - (mldsaPar i).beta) :
    Passes (mldsaPar i) key y (signW (mldsaPar i).ell key.A y) c := by
  obtain ⟨hb1, hb2, hg1, -⟩ := norm_bounds i
  have hw : ∀ r, signW (mldsaPar i).ell key.A y r = 0 := by
    intro r
    unfold signW matVec
    exact Finset.sum_eq_zero fun s _ => by rw [hA, zero_mul]
  have hlow : lowBits (mldsaPar i).gamma2 0 = 0 := by fin_cases i <;> decide
  refine ⟨fun r hr j hj => ?_, fun r hr j hj => ?_, fun r hr j hj => ?_, ?_⟩
  · have hcent : cent (ofInts (y r)) j = y r j :=
      (isRep_ofInts (y r) hj).cent_eq (by have := hy r hr j hj; omega)
    rw [h1 r hr, mul_zero, add_zero]
    change |cent (ofInts (y r)) j| < _
    rw [hcent]
    exact hy r hr j hj
  · rw [hw, h2 r hr, mul_zero, sub_zero, std_zero, hlow, abs_zero]
    omega
  · rw [h0 r hr, mul_zero, std_zero]
    change (0 : ℤ) < _
    omega
  · have hhint : ∀ r < (mldsaPar i).k, ∀ j < 256,
        signHint (mldsaPar i) key (signW (mldsaPar i).ell key.A y) c r j =
          coeffs (Vector.tab (mldsaPar i).k fun _ => Vector.tab 256 fun _ => 0) r j := by
      intro r hr j hj
      unfold signHint Fips204.makeHint
      rw [h0 r hr, mul_zero, neg_zero, std_zero, add_zero, add_zero, if_neg (not_not.2 rfl),
        coeffs_zero hr hj]
    rw [hintWeight_congr hhint, hintWeight_zero]
    exact Nat.zero_le _

theorem toRq_zero : toRq (Vector.tab 256 fun _ => 0) = 0 := by
  rw [toRq_tab]
  unfold ofInts
  simp only [Int.cast_zero]
  exact ofCoeffs_zero

theorem toRqs_zero {n r : ℕ} (hr : r < n) :
    toRqs (Vector.tab n fun _ => Vector.tab 256 fun _ => 0) r = 0 := by
  rw [toRqs, Vector.rd_tab _ hr, toRq_zero]

theorem inEta_zero (i : Fin 3) (n : ℕ) : InEta i (Vector.tab n fun _ => Vector.tab 256 fun _ => 0) := by
  intro r hr j hj
  rw [coeffs_zero hr hj]
  constructor <;> omega

/-- Every secret key in range can be decoded from some string. -/
theorem exists_decodeSk (i : Fin 3) (sk : SecretKey (mldsaPar i)) (h1 : InEta i sk.s1)
    (h2 : InEta i sk.s2) (h0 : InT0 sk.t0) : ∃ p,
      (decodeSk i p).s1 = sk.s1 ∧ (decodeSk i p).s2 = sk.s2 ∧ (decodeSk i p).t0 = sk.t0 := by
  have hlen := length_skEncode i (Bytes.length_take sk.rho 32) (Bytes.length_take sk.key 32)
    (Bytes.length_take sk.tr 64) (coeffs sk.s1) (coeffs sk.s2) (coeffs sk.t0)
  have hdec := decodeSk_skEncode i h1.coded h2.coded h0 (p := Bytes.ofList _)
    (Bytes.take_ofList_of_length hlen)
  exact ⟨_, by rw [hdec], by rw [hdec], by rw [hdec]⟩

/-- Where the secret vectors are zero, signing returns. -/
theorem sign_exact_zero : ∃ p x, (signInternal constHash (mldsaPar 0) (fun _ => 0) p []
    fun _ => 0).Returns x := by
  obtain ⟨p, h1, h2, h0⟩ := exists_decodeSk 0 ⟨fun _ => 0, fun _ => 0, fun _ => 0,
      Vector.tab _ fun _ => Vector.tab 256 fun _ => 0,
      Vector.tab _ fun _ => Vector.tab 256 fun _ => 0,
      Vector.tab _ fun _ => Vector.tab 256 fun _ => 0⟩
    (inEta_zero 0 _) (inEta_zero 0 _) fun r hr j hj => by
      rw [coeffs_zero hr hj]
      constructor <;> norm_num
  obtain ⟨c, hc⟩ := exists_ball_constHash
  have hret := (sign_exact constHash 0 p [] (fun _ => 0) _ (unpackSk_eq 0 p)
    (h2 ▸ inEta_zero 0 _)).2.1 (fun _ => 0) (fun _ _ => 0) (fun _ => c) (expandA_constHash _ _ _)
      fun n => hc _
  refine ⟨p, hret.2 ⟨0, ?_⟩⟩
  refine passes_zero 0 (fun _ _ => rfl) (fun r hr => ?_) (fun r hr => ?_) (fun r hr => ?_)
    fun _ _ _ _ => expandMask_constHash _ _ _ _
  · exact (congrArg (toRqs · r) h1).trans (toRqs_zero hr)
  · exact (congrArg (toRqs · r) h2).trans (toRqs_zero hr)
  · exact (congrArg (toRqs · r) h0).trans (toRqs_zero hr)

end Signing

end Mldsa
