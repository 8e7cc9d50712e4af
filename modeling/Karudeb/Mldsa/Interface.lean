import Karudeb.Mldsa.SignSpec

/-!
# ML-DSA: when the three functions end, and what they depend on

* `mldsa_keygen_exact` : key generation is `KeyGen`, and ends wherever its samplings do.
* `signY_periodic`, `sign_rounds` : the counter of the masks is a 16-bit word, so signing
  finds a signature within one period of the counter or runs for ever.
* `mldsa_footprint` : no byte outside of the documented sizes is read or written.
-/

namespace Mldsa

open Word Negacyclic Fips204 Prog

variable {H : Hash} {i : Fin 3}

/-! ## Key generation -/

/-- **Key generation is `KeyGen`**, and there is a result as soon as the samplings end. -/
theorem mldsa_keygen_exact (H : Hash) (i : Fin 3) (seed : Bytes) :
    (∀ pk sk, (keygenInternal H (mldsaPar i) seed).Returns (pk, sk) ↔
      KeyGen H (mldsaPar i) (seed.take 32) pk sk) ∧
    ((∃ keys, (keygenInternal H (mldsaPar i) seed).Returns keys) ↔
      let buf := keygenSeeds H (mldsaPar i) (seed.take 32)
      (∃ A, ExpandA H (mldsaPar i).k (mldsaPar i).ell (buf.take 32) A) ∧
        ∃ s1 s2, ExpandS H (mldsaPar i) ((buf.drop 32).take 64) s1 s2) := by
  refine ⟨fun pk sk => returns_keygenInternal i, ?_⟩
  simp only [Prod.exists, returns_keygenInternal]
  constructor
  · rintro ⟨pk, sk, A, s1, s2, hA, hS, -⟩
    exact ⟨⟨A, hA⟩, s1, s2, hS⟩
  · rintro ⟨⟨A, hA⟩, s1, s2, hS⟩
    exact ⟨_, _, A, s1, s2, hA, hS, rfl, rfl⟩

/-! ## The rounds of signing -/

/-- After so many rounds the masks come again: each round takes `ell` values of a counter
of 16 bits. -/
def maskPeriod (par : MldsaParam) : ℕ := 2 ^ 16 / Nat.gcd par.ell (2 ^ 16)

example : (List.finRange 3).map (fun i => maskPeriod (mldsaPar i)) = [2 ^ 14, 2 ^ 16, 2 ^ 16] := by
  decide +kernel

theorem dvd_ell_mul_maskPeriod (par : MldsaParam) : 2 ^ 16 ∣ par.ell * maskPeriod par := by
  have hlcm : par.ell * maskPeriod par = Nat.lcm par.ell (2 ^ 16) :=
    (Nat.mul_div_assoc _ (Nat.gcd_dvd_right _ _)).symm
  rw [hlcm]
  exact Nat.dvd_lcm_right _ _

/-- **The masks are periodic.** -/
theorem signY_periodic (H : Hash) (par : MldsaParam) (rho : List UInt8) :
    Function.Periodic (signY H par rho) (maskPeriod par) := by
  intro n
  funext r j
  have hnonce : integerToBytes2 (par.ell * (n + maskPeriod par) + r) =
      integerToBytes2 (par.ell * n + r) := by
    have hmod : par.ell * (n + maskPeriod par) + r ≡ par.ell * n + r [MOD 2 ^ 16] := by
      have hzero := (Nat.modEq_zero_iff_dvd.2 (dvd_ell_mul_maskPeriod par)).add_left (par.ell * n)
      rw [Nat.mul_add]
      exact hzero.add_right r
    rw [← integerToBytes2_mod, hmod, integerToBytes2_mod]
  unfold signY expandMask
  rw [hnonce]

theorem signWAt_periodic (H : Hash) (par : MldsaParam) (key : SignKey) (rho : List UInt8) :
    Function.Periodic (signWAt H par key rho) (maskPeriod par) := by
  intro n
  unfold signWAt
  rw [signY_periodic]

theorem maskPeriod_pos (i : Fin 3) : 0 < maskPeriod (mldsaPar i) := by
  fin_cases i <;> decide +kernel

/-- Round `kappa` is the first that passes its tests, with challenges `c`. -/
structure FirstPass (H : Hash) (par : MldsaParam) (key : SignKey) (mu rho : List UInt8)
    (c : ℕ → ℕ → ℤ) (kappa : ℕ) : Prop where
  /-- The challenges up to there. -/
  ball : ∀ n ≤ kappa, SampleInBall H par.tau (signCtilde H par mu (signWAt H par key rho n)) (c n)
  /-- The rounds before are rejected. -/
  fails : ∀ n < kappa,
    ¬CodePasses par key (signY H par rho n) (signWAt H par key rho n) (ofInts (c n))
  /-- This one is not. -/
  passes : CodePasses par key (signY H par rho kappa) (signWAt H par key rho kappa)
    (ofInts (c kappa))

section Rounds

variable {mu rho : List UInt8} {key : SignKey} {c : ℕ → ℕ → ℤ} {kappa : ℕ}

/-- **The first round that passes lies in the first period.** -/
theorem FirstPass.lt_maskPeriod (h : FirstPass H (mldsaPar i) key mu rho c kappa) :
    kappa < maskPeriod (mldsaPar i) := by
  by_contra hle
  obtain ⟨n, rfl⟩ := Nat.exists_eq_add_of_le' (not_lt.1 hle)
  have hlt : n < n + maskPeriod (mldsaPar i) := Nat.lt_add_of_pos_right (maskPeriod_pos i)
  -- round `n` has the same mask, so the same challenge, and would have passed before
  have hlate := h.ball _ le_rfl
  rw [signWAt_periodic] at hlate
  have hsame : ofInts (c (n + maskPeriod (mldsaPar i))) = ofInts (c n) :=
    challenge_unique i (length_signCtilde H _ mu _) hlate (h.ball n hlt.le)
  have hpass := h.passes
  rw [signY_periodic, signWAt_periodic, hsame] at hpass
  exact h.fails n hlt hpass

theorem exists_firstPass (hc : ∀ n < maskPeriod (mldsaPar i), SampleInBall H (mldsaPar i).tau
      (signCtilde H (mldsaPar i) mu (signWAt H (mldsaPar i) key rho n)) (c n))
    (hkappa : kappa < maskPeriod (mldsaPar i)) (hpass : CodePasses (mldsaPar i) key
      (signY H (mldsaPar i) rho kappa) (signWAt H (mldsaPar i) key rho kappa) (ofInts (c kappa))) :
    ∃ kappa, FirstPass H (mldsaPar i) key mu rho c kappa := by
  classical
  have hex : ∃ n, CodePasses (mldsaPar i) key (signY H (mldsaPar i) rho n)
      (signWAt H (mldsaPar i) key rho n) (ofInts (c n)) := ⟨kappa, hpass⟩
  have hfirst : Nat.find hex < maskPeriod (mldsaPar i) := (Nat.find_min' hex hpass).trans_lt hkappa
  exact ⟨Nat.find hex, fun n hn => hc n (hn.trans_lt hfirst), fun n hn => Nat.find_min hex hn,
    Nat.find_spec hex⟩

end Rounds

/-- What signing returns, by the first round that passes. -/
theorem returns_firstPass (i : Fin 3) {p : Bytes} {m : List UInt8} {rnd sig out : Bytes} {sz : ℕ} :
    let sk := decodeSk i p
    let mu := signMu H sk m
    let rho := signRho H sk rnd mu
    (signInternal H (mldsaPar i) sig p m rnd).Returns (out, sz) ↔
      sz = (mldsaPar i).sigSz ∧ ∃ A c kappa,
        ExpandA H (mldsaPar i).k (mldsaPar i).ell (sk.rho.take 32) A ∧
        FirstPass H (mldsaPar i) (signKey A sk) mu rho c kappa ∧
        out = sig.put 0 (codeSig H (mldsaPar i) (signKey A sk) mu rho kappa (ofInts (c kappa))) := by
  intro sk mu rho
  constructor
  · intro h
    obtain ⟨A, hA⟩ := expandA_of_sign rfl h
    obtain ⟨hsz, sigma, ⟨c, kappa, hc, hfail, hpass, rfl⟩, -, hout⟩ :=
      (returns_signInternal rfl hA).1 h
    exact ⟨hsz, A, c, kappa, hA, ⟨hc, hfail, hpass⟩, hout⟩
  · rintro ⟨hsz, A, c, kappa, hA, hfirst, hout⟩
    have hsign : CodeSign H (mldsaPar i) (signKey A sk) mu rho
        (codeSig H (mldsaPar i) (signKey A sk) mu rho kappa (ofInts (c kappa))) :=
      ⟨c, kappa, hfirst.ball, hfirst.fails, hfirst.passes, rfl⟩
    exact (returns_signInternal rfl hA).2 ⟨hsz, _, hsign, length_codeSign hsign, hout⟩

/-- **Signing ends within one period or never.**  It returns the signature of the first round
that passes its tests, which is one of the first `maskPeriod`; where the challenges of these can
be sampled and none of them passes, there is no result. -/
theorem sign_rounds (H : Hash) (i : Fin 3) (p : Bytes) (m : List UInt8) (rnd sig : Bytes) :
    let sk := decodeSk i p
    let mu := signMu H sk m
    let rho := signRho H sk rnd mu
    (∀ out sz, (signInternal H (mldsaPar i) sig p m rnd).Returns (out, sz) ↔
      sz = (mldsaPar i).sigSz ∧ ∃ A c kappa, kappa < maskPeriod (mldsaPar i) ∧
        ExpandA H (mldsaPar i).k (mldsaPar i).ell (sk.rho.take 32) A ∧
        FirstPass H (mldsaPar i) (signKey A sk) mu rho c kappa ∧
        out = sig.put 0 (codeSig H (mldsaPar i) (signKey A sk) mu rho kappa (ofInts (c kappa)))) ∧
    ∀ (A : ℕ → ℕ → Rq) (c : ℕ → ℕ → ℤ),
      ExpandA H (mldsaPar i).k (mldsaPar i).ell (sk.rho.take 32) A →
      (∀ n < maskPeriod (mldsaPar i), SampleInBall H (mldsaPar i).tau
        (signCtilde H (mldsaPar i) mu (signWAt H (mldsaPar i) (signKey A sk) rho n)) (c n)) →
      ((∃ x, (signInternal H (mldsaPar i) sig p m rnd).Returns x) ↔
        ∃ n < maskPeriod (mldsaPar i), CodePasses (mldsaPar i) (signKey A sk)
          (signY H (mldsaPar i) rho n) (signWAt H (mldsaPar i) (signKey A sk) rho n)
          (ofInts (c n))) := by
  intro sk mu rho
  refine ⟨fun out sz => (returns_firstPass i).trans (and_congr_right fun _ => ?_),
    fun A c hA hc => ⟨?_, ?_⟩⟩
  · constructor
    · rintro ⟨A, c, kappa, hA, hfirst, hout⟩
      exact ⟨A, c, kappa, hfirst.lt_maskPeriod, hA, hfirst, hout⟩
    · rintro ⟨A, c, kappa, -, hA, hfirst, hout⟩
      exact ⟨A, c, kappa, hA, hfirst, hout⟩
  · rintro ⟨⟨out, sz⟩, h⟩
    obtain ⟨-, sigma, ⟨c', kappa, hc', hfail, hpass, -⟩, -⟩ := (returns_signInternal rfl hA).1 h
    have hlt := (FirstPass.mk hc' hfail hpass).lt_maskPeriod
    have hsame : ofInts (c' kappa) = ofInts (c kappa) :=
      challenge_unique i (length_signCtilde H _ mu _) (hc' kappa le_rfl) (hc kappa hlt)
    exact ⟨kappa, hlt, hsame ▸ hpass⟩
  · rintro ⟨n, hn, hpass⟩
    obtain ⟨kappa, hfirst⟩ := exists_firstPass hc hn hpass
    exact ⟨_, (returns_firstPass i).2 ⟨rfl, A, c, kappa, hA, hfirst, rfl⟩⟩

/-! ## What is read and written -/

/-- The decoder of secret keys reads as many bytes as a secret key has. -/
theorem decodeSk_congr {p p' : Bytes} (h : p.take (mldsaPar i).skSz = p'.take (mldsaPar i).skSz) :
    decodeSk i p = decodeSk i p' := by
  obtain ⟨h1, h2, h0⟩ := decodeSk_range i p'
  have hself := decodeSk_skEncode i h1 h2 h0 (skEncode_decodeSk i p').symm
  rw [decodeSk_skEncode i h1 h2 h0 (h.trans (skEncode_decodeSk i p').symm), ← hself]

theorem decodePk_congr {p p' : Bytes} (h : p.take (mldsaPar i).pkSz = p'.take (mldsaPar i).pkSz) :
    decodePk (mldsaPar i) p = decodePk (mldsaPar i) p' := by
  have ht := inT1_decodePk (mldsaPar i) p'
  rw [decodePk_pkEncode i ht (h.trans (pkEncode_decodePk i p').symm),
    ← decodePk_pkEncode i ht (pkEncode_decodePk i p').symm]

/-- Two public keys of the same bytes have the same seed of the matrix. -/
theorem take_rho_congr {p p' : Bytes} (h : p.take (mldsaPar i).pkSz = p'.take (mldsaPar i).pkSz) :
    p.take 32 = p'.take 32 := by
  rw [take_pkSz, take_pkSz] at h
  exact List.append_inj_left h (by rw [Bytes.length_take, Bytes.length_take])

/-- Two public keys of the same bytes have the same vector. -/
theorem pkT1_congr {p p' : Bytes} (h : p.take (mldsaPar i).pkSz = p'.take (mldsaPar i).pkSz)
    {r j : ℕ} (hr : r < (mldsaPar i).k) (hj : j < 256) : pkT1 p r j = pkT1 p' r j := by
  have hrow := congrArg (fun d => coeffs d.2 r j) (decodePk_congr h)
  dsimp only [decodePk] at hrow
  rwa [coeffs_tab hr hj, coeffs_tab hr hj] at hrow

/-- The decoder of signatures reads as many bytes as a signature has. -/
theorem unpackSig_congr {sig sig' : Bytes}
    (h : sig.take (mldsaPar i).sigSz = sig'.take (mldsaPar i).sigSz) :
    (unpackSig (mldsaPar i) sig).val = (unpackSig (mldsaPar i) sig').val := by
  refine Option.ext fun ⟨c, z, hint⟩ => ?_
  rw [unpackSig_eq_some, unpackSig_eq_some, h]

/-- Verification depends on the bytes of the key and of the signature only. -/
theorem returns_verifyInternal_congr {pk pk' : Bytes} {m : List UInt8} {sig sig' : Bytes} {sz v : ℕ}
    (hpk : pk.take (mldsaPar i).pkSz = pk'.take (mldsaPar i).pkSz)
    (hsig : sig.take (mldsaPar i).sigSz = sig'.take (mldsaPar i).sigSz) :
    (verifyInternal H (mldsaPar i) pk m sig sz).Returns v ↔
      (verifyInternal H (mldsaPar i) pk' m sig' sz).Returns v := by
  by_cases hsz : sz = (mldsaPar i).sigSz
  · subst hsz
    have hrho := take_rho_congr hpk
    have ht1 := fun r hr j hj => pkT1_congr hpk (r := r) (j := j) hr hj
    have hhash : ∀ mu A cf z h, verifyHash H (mldsaPar i) (pkT1 pk) mu A cf z h =
        verifyHash H (mldsaPar i) (pkT1 pk') mu A cf z h := fun mu A cf z h =>
      verifyHash_congr ht1 (fun _ _ _ _ => rfl) fun _ _ _ _ => rfl
    rw [returns_verifyInternal i rfl, returns_verifyInternal i rfl, unpackSig_congr hsig, hpk, hrho]
    simp only [hhash]
  · have hpure : ∀ pk sig, verifyInternal H (mldsaPar i) pk m sig sz = pure 0 := fun pk sig =>
      if_pos hsz
    rw [hpure, hpure]

/-- Key generation depends on the bytes of the seed only. -/
theorem keygenInternal_congr {seed seed' : Bytes} (h : seed.take 32 = seed'.take 32) :
    keygenInternal H (mldsaPar i) seed = keygenInternal H (mldsaPar i) seed' := by
  unfold keygenInternal Linked.keygenInternal
  rw [h]

/-- Signing depends on the bytes of the key and of the randomness only, and leaves the memory
behind the signature alone. -/
theorem returns_signInternal_congr {sk sk' : Bytes} {m : List UInt8} {rnd rnd' sig out : Bytes}
    {sz : ℕ} (hsk : sk.take (mldsaPar i).skSz = sk'.take (mldsaPar i).skSz)
    (hrnd : rnd.take 32 = rnd'.take 32)
    (h : (signInternal H (mldsaPar i) sig sk m rnd).Returns (out, sz)) (sig' : Bytes) :
    sz = (mldsaPar i).sigSz ∧ (∀ q, sz ≤ q → out q = sig q) ∧
      (signInternal H (mldsaPar i) sig' sk' m rnd').Returns (sig'.put 0 (out.take sz), sz) := by
  have hrho : ∀ mu, signRho H (decodeSk i sk) rnd mu = signRho H (decodeSk i sk) rnd' mu := by
    intro mu
    unfold signRho
    rw [hrnd]
  obtain ⟨A, hA⟩ := expandA_of_sign rfl h
  obtain ⟨rfl, sigma, hsigma, hlen, rfl⟩ := (returns_signInternal rfl hA).1 h
  rw [hrho] at hsigma
  refine ⟨rfl, fun q hq => Bytes.put_of_le (by rwa [hlen, Nat.zero_add]), ?_⟩
  refine (returns_signInternal (decodeSk_congr hsk.symm) hA).2 ⟨rfl, sigma, hsigma, hlen, ?_⟩
  rw [← hlen, Bytes.take_put]

/-- **What the three functions read and write.**  Nothing depends on bytes behind the seed, the
keys, the randomness or the signature; signing leaves the memory behind the signature alone. -/
theorem mldsa_footprint (H : Hash) (i : Fin 3) :
    (∀ seed seed' : Bytes, seed.take 32 = seed'.take 32 →
      keygenInternal H (mldsaPar i) seed = keygenInternal H (mldsaPar i) seed') ∧
    (∀ (sk sk' : Bytes) (m : List UInt8) (rnd rnd' sig sig' out : Bytes) (sz : ℕ),
      sk.take (mldsaPar i).skSz = sk'.take (mldsaPar i).skSz → rnd.take 32 = rnd'.take 32 →
      (signInternal H (mldsaPar i) sig sk m rnd).Returns (out, sz) →
        sz = (mldsaPar i).sigSz ∧ (∀ q, sz ≤ q → out q = sig q) ∧
          (signInternal H (mldsaPar i) sig' sk' m rnd').Returns (sig'.put 0 (out.take sz), sz)) ∧
    ∀ (pk pk' : Bytes) (m : List UInt8) (sig sig' : Bytes) (sz v : ℕ),
      pk.take (mldsaPar i).pkSz = pk'.take (mldsaPar i).pkSz →
      sig.take (mldsaPar i).sigSz = sig'.take (mldsaPar i).sigSz →
      ((verifyInternal H (mldsaPar i) pk m sig sz).Returns v ↔
        (verifyInternal H (mldsaPar i) pk' m sig' sz).Returns v) := by
  exact ⟨fun _ _ h => keygenInternal_congr h,
    fun _ _ _ _ _ _ sig' _ _ hsk hrnd h => returns_signInternal_congr hsk hrnd h sig',
    fun _ _ _ _ _ _ _ hpk hsig => returns_verifyInternal_congr hpk hsig⟩

end Mldsa
