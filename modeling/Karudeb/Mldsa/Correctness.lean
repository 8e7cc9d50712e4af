import Karudeb.Mldsa.SignSpec

/-!
# ML-DSA: signatures verify

* `approx_identity` : what verification computes is the commitment, up to two small products.
* `useHint_codeHint` : the hint brings the high bits of the commitment back from it.
* `verify_codeSign` : a signature is accepted under every public key that goes with the
  secret one.
* `sign_verifies` : so it is for the keys of key generation.
-/

/-! ## The commitment, again -/

/-- **The approximate commitment**, in any commutative ring: for a key with
`t1 * d + t0 = a s1 + s2` and a response `y + c s1`, it is `a y - c s2 + c t0`. -/
theorem approx_identity {R : Type} [CommRing R] (n : ℕ) (a y s1 : ℕ → R) {c s2 t0 t1 d : R}
    (ht : t1 * d + t0 = ∑ l ∈ Finset.range n, a l * s1 l + s2) :
    ∑ l ∈ Finset.range n, a l * (y l + c * s1 l) - c * t1 * d =
      ∑ l ∈ Finset.range n, a l * y l - c * s2 + c * t0 := by
  have hsum : ∑ l ∈ Finset.range n, a l * (y l + c * s1 l) =
      ∑ l ∈ Finset.range n, a l * y l + c * ∑ l ∈ Finset.range n, a l * s1 l := by
    rw [Finset.mul_sum, ← Finset.sum_add_distrib]
    exact Finset.sum_congr rfl fun l _ => by ring
  rw [hsum]
  linear_combination -c * ht

namespace Mldsa

open Word Negacyclic Fips204 Prog

variable {H : Hash} {i : Fin 3} {key : SignKey} {y : ℕ → ℕ → ℤ} {w : ℕ → Rq} {c : Rq}

/-- The centred representatives give the element back. -/
theorem ofInts_cent (w : Rq) : ofInts (cent w) = w :=
  calc ofInts (cent w)
      = ofInts (std w) := ofCoeffs_congr fun j _ => (isRep_cent w j).trans (isRep_std w j).symm
    _ = w := ofInts_std w

/-- **The hint** brings the high bits of `w` back from `w - c s2 + c t0`. -/
theorem useHint_codeHint (h : CodePasses (mldsaPar i) key y w c) {r j : ℕ} (hr : r < (mldsaPar i).k)
    (hj : j < 256) :
    useHint (mldsaPar i).gamma2 (codeHint (mldsaPar i) key w c r j)
      (std (w r - c * key.s2 r + c * key.t0 r) j) = highBits (mldsaPar i).gamma2 (std (w r) j) := by
  have hg := gamma2_cases_int i
  obtain ⟨h1, hm, -, -⟩ := decompose_spec (a := std (w r) j) hg
  obtain ⟨hu1, hu2⟩ := abs_lt.1 (normLt_iff.1 (h.low r hr) j hj)
  obtain ⟨hv1, hv2⟩ := abs_lt.1 (normLt_iff.1 (h.t0 r hr) j hj)
  exact useHint_makeHint hg h1 hm (by omega) (by omega)
    ((isRep_std _ j).dvd (isRep_sub_add hg hj (w r) (c * key.s2 r) (c * key.t0 r)))

/-- Verification hashes what signing hashed. -/
theorem verifyHash_codeSig {t1 : ℕ → ℕ → ℤ} (hkey : ∀ r < (mldsaPar i).k,
      ofInts (t1 r) * 2 ^ 13 + key.t0 r = matVec (mldsaPar i).ell key.A key.s1 r + key.s2 r)
    {mu : List UInt8} {cf : ℕ → ℤ}
    (h : CodePasses (mldsaPar i) key y (signW (mldsaPar i).ell key.A y) (ofInts cf)) :
    verifyHash H (mldsaPar i) t1 mu key.A cf (fun r => cent (signZ key y (ofInts cf) r))
      (codeHint (mldsaPar i) key (signW (mldsaPar i).ell key.A y) (ofInts cf)) =
    signCtilde H (mldsaPar i) mu (signW (mldsaPar i).ell key.A y) := by
  have happrox : ∀ r < (mldsaPar i).k, wApprox (mldsaPar i).ell key.A
      (fun s => ofInts (cent (signZ key y (ofInts cf) s))) (ofInts cf) (ofInts (t1 r)) r =
        signW (mldsaPar i).ell key.A y r - ofInts cf * key.s2 r + ofInts cf * key.t0 r := by
    intro r hr
    simp only [ofInts_cent]
    exact approx_identity _ _ _ _ (hkey r hr)
  unfold verifyHash signCtilde
  refine congrArg (fun m => (H.shake256 (mu ++ m)).take (mldsaPar i).cpSz) ?_
  refine w1Encode_congr fun r hr j hj => ?_
  rw [happrox r hr, useHint_codeHint h hr hj]

/-! ## Signatures in memory -/

theorem isHint_codeHint (par : MldsaParam) (key : SignKey) (w : ℕ → Rq) (c : Rq) (k : ℕ) :
    IsHint k (codeHint par key w c) := by
  intro r _ j _
  unfold codeHint respondHint
  rcases makeHint_le (cent (signU par.gamma2 key w c r) j + cent (signV key c r) j)
    (highBits par.gamma2 (std (w r) j)) par.gamma2 with h | h
  · exact .inl (by rw [h]; rfl)
  · exact .inr (by rw [h]; rfl)

/-- What is decoded from a signature. -/
theorem unpackSig_codeSig {mu rho : List UInt8} {n : ℕ} (h : CodePasses (mldsaPar i) key
      (signY H (mldsaPar i) rho n) (signWAt H (mldsaPar i) key rho n) c) {out : Bytes}
    (hout : out.take (mldsaPar i).sigSz = codeSig H (mldsaPar i) key mu rho n c) :
    (unpackSig (mldsaPar i) out).val =
      some (signCtilde H (mldsaPar i) mu (signWAt H (mldsaPar i) key rho n),
        centVec _ (signZ key (signY H (mldsaPar i) rho n) c),
        Vector.tab _ fun r => Vector.tab 256
          (codeHint (mldsaPar i) key (signWAt H (mldsaPar i) key rho n) c r)) := by
  have hh := fun r hr j hj => coeffs_tab (n := (mldsaPar i).k)
    (f := codeHint (mldsaPar i) key (signWAt H (mldsaPar i) key rho n) c) (r := r) (j := j) hr hj
  refine (unpackSig_eq_some i).2 ⟨length_signCtilde H _ mu _, h.inZ, ?_, h.weight_tab, ?_⟩
  · intro r hr j hj
    rw [hh r hr j hj]
    exact isHint_codeHint _ _ _ _ _ r hr j hj
  · rw [hout, sigEncode_congr (fun r hr j hj => coeffs_centVec _ _ hr hj) hh]
    rfl

/-- **A signature is accepted** under every public key that goes with the secret one. -/
theorem verify_codeSign {p : Bytes} {m mu rho sigma : List UInt8}
    (hA : ExpandA H (mldsaPar i).k (mldsaPar i).ell (p.take 32) key.A)
    (hkey : ∀ r < (mldsaPar i).k, ofInts (pkT1 p r) * 2 ^ 13 + key.t0 r =
      matVec (mldsaPar i).ell key.A key.s1 r + key.s2 r)
    (hmu : (H.shake256 ((H.shake256 (p.take (mldsaPar i).pkSz)).take 64 ++ m)).take 64 = mu)
    (hsigma : CodeSign H (mldsaPar i) key mu rho sigma) {out : Bytes}
    (hout : out.take (mldsaPar i).sigSz = sigma) :
    (verifyInternal H (mldsaPar i) p m out (mldsaPar i).sigSz).Returns 1 := by
  obtain ⟨c, kappa, hc, -, hpass, rfl⟩ := hsigma
  rw [returns_verifyInternal i hmu, unpackSig_codeSig hpass hout]
  refine .inr ⟨fun r hr j hj => ?_, key.A, c kappa, hA, hc kappa le_rfl, ?_⟩
  · rw [coeffs_centVec _ _ hr hj]
    exact hpass.z r hr j hj
  · rw [verifyHash_congr (fun _ _ _ _ => rfl) (fun r hr j hj => coeffs_centVec _ _ hr hj)
      fun r hr j hj => coeffs_tab hr hj]
    exact (if_pos (verifyHash_codeSig hkey hpass).symm).symm

/-! ## Completeness -/

/-- **What signing returns is accepted**, under the keys of key generation, for every choice
of hash functions. -/
theorem sign_verifies (H : Hash) (i : Fin 3) (seed : Bytes) (pk sk : List UInt8)
    (hkeys : (keygenInternal H (mldsaPar i) seed).Returns (pk, sk)) (p q : Bytes)
    (hp : p.take (mldsaPar i).pkSz = pk) (hq : q.take (mldsaPar i).skSz = sk) (m : List UInt8)
    (rnd sig out : Bytes) (sz : ℕ)
    (hsign : (signInternal H (mldsaPar i) sig q m rnd).Returns (out, sz)) :
    sz = (mldsaPar i).sigSz ∧ (verifyInternal H (mldsaPar i) p m out sz).Returns 1 := by
  obtain ⟨A, s1, s2, hA, ⟨h1, h2⟩, hpk, hsk⟩ := (returns_keygen_vectors i).1 hkeys
  obtain ⟨-, -, hdpk, hdsk⟩ := keygen_decode i (inEta_of_samples h1) (inEta_of_samples h2) hpk hsk
  have hdpk := hdpk p hp
  generalize keygenSeeds H (mldsaPar i) (seed.take 32) = buf at *
  obtain ⟨rfl, sigma, hsigma, hlen, rfl⟩ :=
    (returns_signInternal (hdsk q hq) (A := A) (by rwa [ofList_take_take])).1 hsign
  have hrho : p.take 32 = buf.take 32 := by
    have hseed : Bytes.ofList (p.take 32) = Bytes.ofList (buf.take 32) := congrArg Prod.fst hdpk
    rw [← ofList_take_take p, hseed, ofList_take_take]
  have ht1 : ∀ r < (mldsaPar i).k, ofInts (pkT1 p r) =
      toRqs (t1Of (mldsaPar i).k (publicT A s1 s2)) r := by
    intro r hr
    have hvec : (decodePk (mldsaPar i) p).2 = t1Of (mldsaPar i).k (publicT A s1 s2) :=
      congrArg Prod.snd hdpk
    have hdec : ∀ j < 256, pkT1 p r j = coeffs (decodePk (mldsaPar i) p).2 r j := fun j hj =>
      (coeffs_tab hr hj).symm
    rw [hvec] at hdec
    exact ofInts_congr hdec
  refine ⟨rfl, verify_codeSign (hrho ▸ hA) (fun r hr => ?_) ?_ hsigma ?_⟩
  · rw [ht1 r hr]
    exact publicT_parts _ hr
  · rw [hp, signMu, ofList_take_take]
  · rw [← hlen, Bytes.take_put]

/-! ## A run -/

theorem rejBoundedPoly_constHash (seed : List UInt8) :
    RejBoundedPoly constHash (mldsaPar 0).eta seed (List.replicate 256 0) := by
  refine Reject.first_const (fun p => ?_) 256
  unfold etaCand constHash
  dsimp only
  rw [show (if p % 2 = 0 then (0x22 : UInt8).toNat % 16 else (0x22 : UInt8).toNat / 16) = 2 by
    split <;> rfl]
  rfl

/-- Where nothing is hidden, signing ends with its first iteration. -/
theorem returns_sign_constHash {p : Bytes} {sk : SecretKey (mldsaPar 0)} (hsk : decodeSk 0 p = sk)
    (h1 : ∀ r < (mldsaPar 0).ell, toRqs sk.s1 r = 0) (h2 : ∀ r < (mldsaPar 0).k, toRqs sk.s2 r = 0)
    (h0 : ∀ r < (mldsaPar 0).k, toRqs sk.t0 r = 0) (hs2 : InEta 0 sk.s2) : ∃ out,
      (signInternal constHash (mldsaPar 0) (fun _ => 0) p [] fun _ => 0).Returns (out, 2420) := by
  obtain ⟨c, hc⟩ := exists_ball_constHash
  have hA := expandA_constHash (mldsaPar 0).k (mldsaPar 0).ell (sk.rho.take 32)
  have hiff := @exists_sign_iff constHash 0 (signKey (fun _ _ => 0) sk) (signMu constHash sk [])
    (signRho constHash sk (fun _ => 0) (signMu constHash sk [])) (fun _ => c) fun _ => hc _
  obtain ⟨sigma, hsigma⟩ := hiff.2 ⟨0, (codePasses_iff (abs_challenge_s2_le hs2 (hc []) _)).2
    (passes_zero 0 (fun _ _ => rfl) h1 h2 h0 fun _ _ _ _ => expandMask_constHash _ _ _ _)⟩
  exact ⟨_, (returns_signInternal hsk hA).2 ⟨rfl, sigma, hsigma, length_codeSign hsigma, rfl⟩⟩

/-- The low parts of a public vector of zeros are zero. -/
theorem toRqs_t0Of_zero {k : ℕ} {t : ℕ → Rq} (ht : ∀ r < k, t r = 0) {r : ℕ} (hr : r < k) :
    toRqs (t0Of k t) r = 0 := by
  refine Eq.trans (ofInts_congr fun j hj => ?_) (toRqs_zero hr)
  change coeffs (t0Of k t) r j = coeffs (Vector.tab k fun _ => Vector.tab 256 fun _ => 0) r j
  unfold t0Of
  rw [coeffs_tab hr hj, coeffs_zero hr hj, ht r hr, std_zero]
  decide

/-- The signature of the empty message, by the keys of a seed of zeros. -/
theorem sign_verifies_zero : ∃ pk sk out,
    (keygenInternal constHash (mldsaPar 0) fun _ => 0).Returns (pk, sk) ∧
      (verifyInternal constHash (mldsaPar 0) (Bytes.ofList pk) [] out 2420).Returns 1 := by
  have hsamples : ∀ (n : ℕ) (seed : ℕ → List UInt8), ∀ r < n, ∃ L,
      RejBoundedPoly constHash (mldsaPar 0).eta (seed r) L ∧ ∀ j < 256,
        coeffs (Vector.tab n fun _ => Vector.tab 256 fun _ => (0 : ℤ)) r j = L.getD j 0 := by
    intro n seed r hr
    refine ⟨_, rejBoundedPoly_constHash (seed r), fun j hj => ?_⟩
    rw [coeffs_zero hr hj, List.getD_replicate _ hj]
  have hkeys := (@returns_keygen_vectors constHash 0 (fun _ => 0) _ _).2
    ⟨_, _, _, expandA_constHash _ _ _, ⟨hsamples _ _, hsamples _ _⟩, rfl, rfl⟩
  obtain ⟨hlen, hlen', -, hdec⟩ := keygen_decode 0 (H := constHash) (inEta_zero 0 _) (inEta_zero 0 _)
    rfl rfl
  have hpublic : ∀ r < (mldsaPar 0).k, publicT (fun _ _ => 0)
      (Vector.tab (mldsaPar 0).ell fun _ => Vector.tab 256 fun _ => 0)
      (Vector.tab (mldsaPar 0).k fun _ => Vector.tab 256 fun _ => 0) r = 0 := by
    intro r hr
    unfold publicT matVec
    rw [toRqs_zero hr, Finset.sum_eq_zero fun s _ => zero_mul _, zero_add]
  obtain ⟨out, hout⟩ := returns_sign_constHash (hdec _ (Bytes.take_ofList_of_length hlen'))
    (fun r hr => toRqs_zero hr) (fun r hr => toRqs_zero hr) (fun r hr => toRqs_t0Of_zero hpublic hr)
    (inEta_zero 0 _)
  refine ⟨_, _, out, hkeys, ?_⟩
  exact (sign_verifies constHash 0 (fun _ => 0) _ _ hkeys (Bytes.ofList _) (Bytes.ofList _)
    (Bytes.take_ofList_of_length hlen) (Bytes.take_ofList_of_length hlen') [] (fun _ => 0)
    (fun _ => 0) out 2420 hout).2

end Mldsa
