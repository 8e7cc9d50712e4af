import Karudeb.Mldsa.SignSpec

/-!
# ML-DSA: no operation leaves its range

Every sum, difference, doubling and shift of 32 bits, every product of 64 bits and every
range that `montgomery_reduce`, `reduce32`, `mldsa_invntt`, `power2round`, `decompose` and
`use_hint` want of their arguments is recorded where it stands.  None of the records fails.

* `safe_matrix`, `safe_polyvecUniformEta` : what the samplers leave.
* `safe_keygenInternal` : key generation.
* `safe_signStep` : an iteration of signing, from any counter and buffer; so the loop.
* `safe_verifyInternal` : verification, of any string.
* `mldsa_safe` : all three, whatever the keys, the signature and the hash functions are.
-/

namespace Mldsa

open Word Negacyclic Fips204 Prog

variable {H : Hash}

/-! ## Samplers -/

/-- The matrix in memory is a transform. -/
theorem safe_matrix (H : Hash) (i : Fin 3) (rho : Bytes) :
    (polyvecMatrixExpand H (mldsaPar i) rho).Safe fun mat => ∃ A, mat = matOf _ _ A := by
  refine ((safe_polyvecMatrixExpand H (mldsaPar i) rho).mono fun _ _ => trivial).of_forall ?_
  intro mat h
  obtain ⟨A, -, hmat⟩ := (returns_polyvecMatrixExpand_iff i).1 h
  exact ⟨A, hmat⟩

/-- The secret vectors are in range. -/
theorem safe_polyvecUniformEta (H : Hash) (i : Fin 3) (n : ℕ) (seed : Bytes) (nonce : ℕ) :
    (polyvecUniformEta H (mldsaPar i) n seed nonce).Safe (InEta i) :=
  Safe.tab fun _ _ => safe_polyUniformEta H i seed _

theorem safe_challenge (H : Hash) (i : Fin 3) (seed : Bytes) :
    (polyChallenge H (mldsaPar i) seed).Safe (Bounded 1) :=
  (safe_polyChallenge H (mldsaPar i) seed).mono fun _ h j _ => h j

/-! ## Key generation -/

theorem safe_keygenInternal (i : Fin 3) (seed : Bytes) :
    (keygenInternal H (mldsaPar i) seed).Safe fun _ => True := by
  unfold keygenInternal Linked.keygenInternal
  refine (safe_matrix H i _).bind ?_
  rintro _ ⟨A, rfl⟩
  refine (safe_polyvecUniformEta H i _ _ _).bind fun s1 h1 => ?_
  refine (safe_polyvecUniformEta H i _ _ _).bind fun s2 h2 => ?_
  refine Safe.step (keygenVectors_eq i A h1.bounded h2.bounded) ?_
  refine Safe.step (packPk_eq (inT1_t1Of _ _)) ?_
  exact Safe.step (packSk_eq i h1.coded h2.coded (inT0_t0Of _ _)) (Safe.pure trivial)

/-! ## Signing -/

section Signing

variable {i : Fin 3} {mu rho : List UInt8} {A : ℕ → ℕ → Rq} {S1 S2 T0 : ℕ → Rq}
  {s1 : PolyVec (mldsaPar i).ell} {s2 t0 : PolyVec (mldsaPar i).k}

/-- The response that an iteration ends with can be packed. -/
theorem packSig_response {Z U V : ℕ → Rq} {w1 : ℕ → ℕ → ℤ} {o : PolyVec (mldsaPar i).ell ×
    PolyVec (mldsaPar i).k} (ho : IsResponse (mldsaPar i) Z U V w1 (some o)) (b : Bytes) :
    ∃ b', packSig (mldsaPar i) b id o.1 o.2 = pure b' := by
  rcases ho with ⟨hr, ho⟩ | ⟨-, ho⟩
  · cases ho
    exact ⟨_, packSig_eq_self i hr.inZ hr.weight_tab⟩
  · cases ho

/-- **An iteration of signing**, from any counter and any buffer. -/
theorem safe_signStep (h1 : Transformed s1 S1) (h2 : Transformed s2 S2) (h0 : Transformed t0 T0)
    (s : ℕ × Bytes) :
    (signStep H mu rho (matOf _ _ A) s1 s2 t0 s).Safe (Sum.elim (fun _ => True) fun _ => True) := by
  obtain ⟨nonce, sig⟩ := s
  unfold signStep Transforms.signStep
  refine Safe.step (polyvecUniformGamma1_eq H i _ _) ?_
  have hy := vecBounded_tab (mldsaPar i).ell (expandMask_range H i ((Bytes.ofList rho).take 64)
    ((mldsaPar i).ell * nonce))
  refine Safe.step (signCommit_eq i A hy) ?_
  refine Safe.step (polyvecPackW1_eq i _ (inW1_highOf i _)) ?_
  refine (safe_challenge H i _).bind fun cp hcp => ?_
  refine (Safe.lift (signRespond_spec i h1 h2 h0 hy hcp (fun _ _ => rfl) (fun _ _ => rfl)
    fun _ _ => rfl)).bind fun o ho => ?_
  cases o with
  | none => exact Safe.pure trivial
  | some o =>
    obtain ⟨b', hb'⟩ := packSig_response ho _
    exact Safe.step hb' (Safe.pure trivial)

/-- **Signing**, for every secret key: the coefficients of `s1` and `s2` need not be in
range. -/
theorem safe_signInternal (i : Fin 3) (sig sk : Bytes) (m : List UInt8) (rnd : Bytes) :
    (signInternal H (mldsaPar i) sig sk m rnd).Safe fun _ => True := by
  obtain ⟨h1, h2, h0⟩ := decodeSk_range i sk
  unfold signInternal Linked.signInternal
  refine Safe.step (unpackSk_eq i sk) ?_
  refine (safe_matrix H i _).bind ?_
  rintro _ ⟨A, rfl⟩
  refine (Safe.lift (transformed_ntt h1.bounded)).bind fun s1 hs1 => ?_
  refine (Safe.lift (transformed_ntt h2.bounded)).bind fun s2 hs2 => ?_
  refine (Safe.lift (transformed_ntt h0.bounded)).bind fun t0 ht0 => ?_
  refine Safe.bind (P := fun _ => True) ?_ fun _ _ => Safe.pure trivial
  exact Safe.loop (fun _ => True) (fun s _ => safe_signStep hs1 hs2 ht0 s) trivial

end Signing

/-! ## Verification -/

/-- **Verification**, of any string under any key. -/
theorem safe_verifyInternal (i : Fin 3) (pk : Bytes) (m : List UInt8) (sig : Bytes) (sigSz : ℕ) :
    (verifyInternal H (mldsaPar i) pk m sig sigSz).Safe fun _ => True := by
  have hbb : ((mldsaPar i).gamma1 - (mldsaPar i).beta : ℤ) ≤ 1047552 := by
    obtain ⟨-, -, hle, -⟩ := norm_bounds i
    omega
  unfold verifyInternal Linked.verifyInternal
  refine Safe.ite (fun _ => Safe.pure trivial) fun _ => ?_
  refine Safe.step (unpackPk_eq _ pk) ?_
  have hval := unpackSig_eq i sig
  refine (Safe.lift_pure (P := fun o => (unpackSig (mldsaPar i) sig).val = o) hval
    (by rw [hval]; rfl)).bind fun o ho => ?_
  rcases o with _ | ⟨c, z, h⟩
  · exact Safe.pure trivial
  · obtain ⟨-, hz, hh, -, -⟩ := (unpackSig_eq_some i).1 ho
    refine (Safe.lift (polyvecChknorm_spec hbb (hz.bounded.mono (by norm_num)))).bind fun b _ => ?_
    refine Safe.ite (fun _ => Safe.pure trivial) fun _ => ?_
    refine (safe_challenge H i _).bind fun cp hcp => ?_
    refine (safe_matrix H i _).bind ?_
    rintro _ ⟨A, rfl⟩
    refine Safe.step (verifyVectors_eq i A hz.bounded hcp (inT1_decodePk _ pk) hh) ?_
    exact Safe.step (polyvecPackW1_eq i _ (inW1_useHint i _ _)) (Safe.pure trivial)

/-! ## All executions -/

/-- **No check fails** in any execution of the three functions, whatever the seed, the keys,
the message, the signature and the hash functions are, and however often signing starts
over. -/
theorem mldsa_safe (H : Hash) (i : Fin 3) :
    (∀ seed : Bytes, (keygenInternal H (mldsaPar i) seed).Safe fun _ => True) ∧
    (∀ (sig sk : Bytes) (m : List UInt8) (rnd : Bytes),
      (signInternal H (mldsaPar i) sig sk m rnd).Safe fun _ => True) ∧
    ∀ (pk : Bytes) (m : List UInt8) (sig : Bytes) (sigSz : ℕ),
      (verifyInternal H (mldsaPar i) pk m sig sigSz).Safe fun _ => True :=
  ⟨safe_keygenInternal i, safe_signInternal i, safe_verifyInternal i⟩

end Mldsa
