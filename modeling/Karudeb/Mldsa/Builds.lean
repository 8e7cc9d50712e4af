import Karudeb.Lib.Refine
import Karudeb.Mldsa.Montgomery
import Karudeb.Mldsa.Safety

/-!
# ML-DSA: the two builds

Three functions of ML-DSA are there twice, and the build decides which ones are linked:
`mldsa_ntt` and `mldsa_invntt`, and `mldsa_rej_uniform`, which `poly_uniform` calls.  `Built`
links them into the functions that come to call one of them; what a polynomial and a buffer on
the stack hold before they are written to is a parameter, too.

* `rvvNtt_refines`, `rvvInvntt_refines` : a lane wraps only where the scalar transform
  overflows.
* `Built.keygenInternal_refines`, `Built.signInternal_refines`,
  `Built.verifyInternal_refines` : a build does what the functions over lists do.
* `Built.mldsa_builds_agree` : the builds return the same.
* `Built.mldsa_builds_safe` : no check fails in either of them.
-/

namespace Mldsa

open Word Butterfly Prog

/-! ## The vector transforms -/

/-- A lane of `fq_redc2` wraps only where `montgomery_reduce` is out of its range. -/
theorem redcLane_refines (x : ℤ) :
    (redcLane x).Refines (Chk.word 64 x >>= montgomeryReduce) := by
  refine ⟨redcLane_val x, fun hok => ?_⟩
  rw [Chk.ok_bind, Bool.and_eq_true, Chk.ok_word, decide_eq_true_iff] at hok
  obtain ⟨hfits, hred⟩ := hok
  rw [Chk.val_word, wrap_of_fits (by norm_num) hfits] at hred
  have hrange : -(2 ^ 31 * parQ) < x ∧ x < 2 ^ 31 * parQ := by
    unfold montgomeryReduce at hred
    rw [Chk.ok_bind, Bool.and_eq_true, Chk.ok_require, decide_eq_true_iff] at hred
    exact hred.1
  rw [redcLane_exact ⟨hrange.1.le, hrange.2.le⟩]
  rfl

theorem fwdLane_refines (z u v : ℤ) : (fwdLane z u v).Refines (nttBfly z u v) := by
  unfold fwdLane nttBfly
  rw [mul_comm v z]
  exact (redcLane_refines _).bind fun t => Chk.Refines.refl _

theorem revLane_refines (z u v : ℤ) : (revLane z u v).Refines (invnttBfly z u v) := by
  refine ⟨revLane_val z u v, fun hok => ?_⟩
  have hred := redcLane_refines (z * wrap 32 (u - v))
  simp only [invnttBfly, revLane, Chk.ok_bind, Chk.val_bind, Chk.val_word, Chk.ok_word, Chk.ok_pure,
    Bool.and_true, Bool.and_eq_true] at hok ⊢
  obtain ⟨hsum, hdiff, hmul⟩ := hok
  rw [mul_comm (wrap 32 (u - v))]
  exact ⟨hdiff, hsum, hred.2 ((Bool.and_eq_true _ _).mpr hmul)⟩

theorem rvvNtt_refines (a : Poly) : (rvvNtt a).Refines (mldsaNtt a) := by
  rw [rvvNtt_eq, mldsaNtt_eq]
  exact Chk.Refines.foldlM (fun a len => Chk.Refines.layer (fun b u v => fwdLane_refines _ u v) a) _ a

/-- The last butterfly of the inverse transform, with the scaling in it. -/
theorem revScaleLane_ok {z u v : ℤ} (h : (invnttBfly z u v).ok = true)
    (hlo : (invnttScale (invnttBfly z u v).val.1).ok = true)
    (hhi : (invnttScale (invnttBfly z u v).val.2).ok = true) : (revScaleLane z u v).ok = true := by
  obtain ⟨hval, hok⟩ := revLane_refines z u v
  unfold invnttScale at hlo hhi
  rw [mul_comm] at hlo hhi
  simp only [revScaleLane, Chk.ok_bind, Chk.ok_pure, Bool.and_true, Bool.and_eq_true, hval]
  exact ⟨hok h, (redcLane_refines _).2 hlo, (redcLane_refines _).2 hhi⟩

theorem rvvInvnttLayer_refines (len : ℕ) (a : Poly) :
    (rvvInvnttLayer len a).Refines (invnttLayer len a) :=
  Chk.Refines.layer (fun _ u v => revLane_refines _ u v) a

theorem rvvInvntt_refines (a : Poly) : (rvvInvntt a).Refines (mldsaInvntt a) := by
  refine ⟨rvvInvntt_val a, fun hok => ?_⟩
  have hhead := Chk.Refines.foldlM (fun a len => rvvInvnttLayer_refines len a)
    [1, 2, 4, 8, 16, 32, 64] a
  have hsplit : [1, 2, 4, 8, 16, 32, 64, 128].foldlM (fun a len => invnttLayer len a) a =
      [1, 2, 4, 8, 16, 32, 64].foldlM (fun a len => invnttLayer len a) a >>= invnttLayer 128 := by
    rw [show [1, 2, 4, 8, 16, 32, 64, 128] = [1, 2, 4, 8, 16, 32, 64] ++ [128] from rfl,
      List.foldlM_append]
    exact congrArg _ (funext fun a => bind_pure _)
  rw [mldsaInvntt_eq, hsplit] at hok
  simp only [Chk.ok_bind, Chk.val_bind, Bool.and_eq_true, Chk.ok_tab] at hok
  obtain ⟨-, ⟨hlayers, hlast⟩, hscale⟩ := hok
  rw [rvvInvntt_eq, Chk.ok_bind, Bool.and_eq_true, hhead.1]
  refine ⟨hhead.2 hlayers, ?_⟩
  set y := ([1, 2, 4, 8, 16, 32, 64].foldlM (fun a len => invnttLayer len a) a).val
  -- entry `k` of the last layer and its partner are what is scaled
  have hlayer : ∀ k < 256, (invnttLayer 128 y).val.rd k = layer 128
      (fun b u v => (invnttBfly (-zetas.rd (256 / 128 - 1 - b)) u v).val) y.rd k := fun k hk => by
    rw [invnttLayer, val_layerChk, Vector.rd_tab _ hk]
  unfold invnttLayer at hlast
  rw [ok_layerChk_iff (by norm_num)] at hlast ⊢
  intro b l hl hk
  have hbfly := hlast b l hl hk
  have hlo := hscale _ hk
  have hhi := hscale (2 * 128 * b + l + 128) (by omega)
  rw [hlayer _ hk, layer_lo _ _ hl] at hlo
  rw [hlayer _ (by omega), layer_hi _ _ hl] at hhi
  exact revScaleLane_ok hbfly hlo hhi

/-! ## What a build links -/

/-- What memory holds before it is written to: a polynomial and the buffer of `poly_uniform`,
in the call with a given nonce. -/
structure Stale where
  /-- The cells of the polynomial. -/
  poly : ℕ → ℕ → ℤ
  /-- The bytes of the buffer. -/
  buf : ℕ → Bytes

namespace Built

/-- `mldsa_poly_ntt`. -/
def polyNtt : Build → Poly → Chk Poly
  | .scalar => mldsaNtt
  | .rvv => rvvNtt

/-- `mldsa_poly_invntt_tomont`. -/
def polyInvnttTomont : Build → Poly → Chk Poly
  | .scalar => mldsaInvntt
  | .rvv => rvvInvntt

section

variable (build : Build) (st : Stale) (H : Hash)

/-- `poly_uniform`. -/
def polyUniform (seed : Bytes) (nonce : ℕ) : Prog Poly := do
  let a ← polyUniformMem build H seed nonce (st.poly nonce) (st.buf nonce)
  pure (Vector.tab 256 a)

/-- The transforms that a build links. -/
def transforms : Transforms := ⟨polyNtt build, polyInvnttTomont build⟩

/-- What a build links. -/
def linked : Linked := { transforms build with polyUniform := polyUniform build st }

/-- `mldsa_keygen_internal`, with the result `(pk, sk)`. -/
def keygenInternal (par : MldsaParam) (seed : Bytes) : Prog (List UInt8 × List UInt8) :=
  (linked build st).keygenInternal H par seed

/-- `mldsa_sign_internal`, with the buffer `sig` and the size it reports. -/
def signInternal (par : MldsaParam) (sig sk : Bytes) (m : List UInt8) (rnd : Bytes) :
    Prog (Bytes × ℕ) :=
  (linked build st).signInternal H par sig sk m rnd

/-- `mldsa_verify_internal`. -/
def verifyInternal (par : MldsaParam) (pk : Bytes) (m : List UInt8) (sig : Bytes)
    (sigSz : ℕ) : Prog ℕ :=
  (linked build st).verifyInternal H par pk m sig sigSz

end

/-! ## A build does what the model does -/

variable {build : Build} {st : Stale} {H : Hash}

theorem polyNtt_refines (build : Build) (a : Poly) :
    (polyNtt build a).Refines (Mldsa.polyNtt a) := by
  cases build with
  | scalar => exact Chk.Refines.refl _
  | rvv => exact rvvNtt_refines a

theorem polyInvnttTomont_refines (build : Build) (a : Poly) :
    (polyInvnttTomont build a).Refines (Mldsa.polyInvnttTomont a) := by
  cases build with
  | scalar => exact Chk.Refines.refl _
  | rvv => exact rvvInvntt_refines a

theorem polyvecNtt_refines (build : Build) {n : ℕ} (v : PolyVec n) :
    ((transforms build).polyvecNtt v).Refines (Mldsa.polyvecNtt v) :=
  Chk.Refines.tab fun _ _ => polyNtt_refines build _

theorem polyvecInvnttTomont_refines (build : Build) {n : ℕ} (v : PolyVec n) :
    ((transforms build).polyvecInvnttTomont v).Refines (Mldsa.polyvecInvnttTomont v) :=
  Chk.Refines.tab fun _ _ => polyInvnttTomont_refines build _

/-- The loops of `mldsa_rej_uniform` check nothing. -/
theorem safe_mldsaRejUniform (build : Build) (a : ℕ → ℤ) (o len : ℕ) (buf : Bytes) (buflen : ℕ) :
    (mldsaRejUniform build a o len buf buflen).Safe fun _ => True := by
  have hscalar : ∀ s, (rejScalar o len buf buflen s).Safe fun _ => True := fun s =>
    Safe.loop (fun _ => True) (fun _ _ => Safe.pure (by split <;> trivial)) trivial
  cases build with
  | scalar => exact hscalar _
  | rvv =>
    refine Safe.bind (P := fun _ => True) ?_ fun s _ => hscalar s
    exact Safe.loop (fun _ => True) (fun _ _ => Safe.pure (by split <;> trivial)) trivial

theorem safe_polyUniform (seed : Bytes) (nonce : ℕ) :
    (polyUniform build st H seed nonce).Safe fun _ => True := by
  refine Safe.bind (P := fun _ => True) ?_ fun _ _ => Safe.pure trivial
  refine (safe_mldsaRejUniform build _ _ _ _ _).bind fun r _ => ?_
  refine Safe.loop (fun _ => True) (fun s _ => ?_) trivial
  refine Safe.ite (fun _ => ?_) fun _ => Safe.pure trivial
  refine Safe.bind (P := fun _ => True) ?_ fun _ _ => Safe.pure trivial
  exact (safe_mldsaRejUniform build _ _ _ _ _).bind fun _ _ => Safe.pure trivial

theorem polyvecMatrixExpand_refines (par : MldsaParam) (rho : Bytes) :
    ((linked build st).polyvecMatrixExpand H par rho).Refines (polyvecMatrixExpand H par rho) := by
  refine Refines.of_safe (Safe.tab fun i _ => Safe.tab fun j _ => safe_polyUniform rho _)
    fun mat => ?_
  unfold polyvecMatrixExpand Linked.polyvecMatrixExpand Linked.plain linked
  rw [returns_tab, returns_tab]
  refine forall₂_congr fun i _ => ?_
  rw [returns_tab, returns_tab]
  refine forall₂_congr fun j _ => ?_
  unfold polyUniform
  rw [returns_bind, returns_polyUniform_mem build (st.poly _) (st.buf _)]
  exact exists_congr fun r => and_congr_right fun _ => returns_pure.trans eq_comm

theorem keygenVectors_refines {par : MldsaParam} (mat : Vector (PolyVec par.ell) par.k)
    (s1 : PolyVec par.ell) (s2 : PolyVec par.k) :
    ((transforms build).keygenVectors mat s1 s2).Refines (keygenVectors mat s1 s2) := by
  refine (polyvecNtt_refines build _).bind fun _ => ?_
  refine (Chk.Refines.refl _).bind fun _ => (Chk.Refines.refl _).bind fun _ => ?_
  exact (polyvecInvnttTomont_refines build _).bind fun _ => Chk.Refines.refl _

theorem signCommit_refines {par : MldsaParam} (mat : Vector (PolyVec par.ell) par.k)
    (y : PolyVec par.ell) : ((transforms build).signCommit mat y).Refines (signCommit mat y) := by
  refine (polyvecNtt_refines build _).bind fun _ => ?_
  refine (Chk.Refines.refl _).bind fun _ => (Chk.Refines.refl _).bind fun _ => ?_
  exact (polyvecInvnttTomont_refines build _).bind fun _ => Chk.Refines.refl _

theorem signRespond_refines {par : MldsaParam} (s1 : PolyVec par.ell) (s2 t0 : PolyVec par.k)
    (y : PolyVec par.ell) (w1 w0 : PolyVec par.k) (cp : Poly) :
    ((transforms build).signRespond s1 s2 t0 y w1 w0 cp).Refines
      (signRespond s1 s2 t0 y w1 w0 cp) := by
  refine (polyNtt_refines build _).bind fun cp => ?_
  refine (Chk.Refines.refl _).bind fun _ => (polyvecInvnttTomont_refines build _).bind fun z => ?_
  refine (Chk.Refines.refl _).bind fun z => (Chk.Refines.refl _).bind fun z => ?_
  refine (Chk.Refines.refl _).bind fun b => Chk.Refines.ite (Chk.Refines.refl _) ?_
  refine (Chk.Refines.refl _).bind fun _ => (polyvecInvnttTomont_refines build _).bind fun h => ?_
  refine (Chk.Refines.refl _).bind fun w0 => (Chk.Refines.refl _).bind fun w0 => ?_
  refine (Chk.Refines.refl _).bind fun b => Chk.Refines.ite (Chk.Refines.refl _) ?_
  refine (Chk.Refines.refl _).bind fun _ => (polyvecInvnttTomont_refines build _).bind fun h => ?_
  exact Chk.Refines.refl _

theorem verifyVectors_refines {par : MldsaParam} (mat : Vector (PolyVec par.ell) par.k)
    (z : PolyVec par.ell) (cp : Poly) (t1 h : PolyVec par.k) :
    ((transforms build).verifyVectors mat z cp t1 h).Refines (verifyVectors mat z cp t1 h) := by
  refine (polyvecNtt_refines build _).bind fun _ => (Chk.Refines.refl _).bind fun _ => ?_
  refine (polyNtt_refines build _).bind fun _ => (Chk.Refines.refl _).bind fun _ => ?_
  refine (polyvecNtt_refines build _).bind fun _ => ?_
  refine (Chk.Refines.refl _).bind fun _ => (Chk.Refines.refl _).bind fun _ => ?_
  refine (Chk.Refines.refl _).bind fun _ => ?_
  exact (polyvecInvnttTomont_refines build _).bind fun _ => Chk.Refines.refl _

variable (i : Fin 3)

theorem refines_polyvecUniformEta (n : ℕ) (seed : Bytes) (nonce : ℕ) :
    (polyvecUniformEta H (mldsaPar i) n seed nonce).Refines
      (polyvecUniformEta H (mldsaPar i) n seed nonce) :=
  Refines.of_safe_self (safe_polyvecUniformEta H i n seed nonce)

theorem refines_polyChallenge (seed : Bytes) :
    (polyChallenge H (mldsaPar i) seed).Refines (polyChallenge H (mldsaPar i) seed) :=
  Refines.of_safe_self (safe_challenge H i seed)

/-- **Key generation** of a build. -/
theorem keygenInternal_refines (seed : Bytes) :
    (keygenInternal build st H (mldsaPar i) seed).Refines (Mldsa.keygenInternal H (mldsaPar i) seed) := by
  refine (polyvecMatrixExpand_refines _ _).bind fun mat => ?_
  refine (refines_polyvecUniformEta i _ _ _).bind fun s1 => ?_
  refine (refines_polyvecUniformEta i _ _ _).bind fun s2 => ?_
  refine (Refines.lift (keygenVectors_refines mat s1 s2)).bind fun t => ?_
  refine (Refines.lift (Chk.Refines.refl _)).bind fun pk => ?_
  exact (Refines.lift (Chk.Refines.refl _)).bind fun sk => Refines.pure _

theorem signStep_refines (mu rhop : List UInt8) (mat : Vector (PolyVec (mldsaPar i).ell) (mldsaPar i).k)
    (s1 : PolyVec (mldsaPar i).ell) (s2 t0 : PolyVec (mldsaPar i).k) (s : ℕ × Bytes) :
    ((transforms build).signStep H mu rhop mat s1 s2 t0 s).Refines
      (signStep H mu rhop mat s1 s2 t0 s) := by
  refine (Refines.lift (Chk.Refines.refl _)).bind fun y => ?_
  refine (Refines.lift (signCommit_refines mat y)).bind fun w => ?_
  refine (Refines.lift (Chk.Refines.refl _)).bind fun sig => ?_
  refine (refines_polyChallenge i _).bind fun cp => ?_
  refine (Refines.lift (signRespond_refines s1 s2 t0 y w.1 w.2 cp)).bind fun o => ?_
  cases o with
  | none => exact Refines.pure _
  | some o => exact (Refines.lift (Chk.Refines.refl _)).bind fun _ => Refines.pure _

/-- **Signing** of a build. -/
theorem signInternal_refines (sig sk : Bytes) (m : List UInt8) (rnd : Bytes) :
    (signInternal build st H (mldsaPar i) sig sk m rnd).Refines
      (Mldsa.signInternal H (mldsaPar i) sig sk m rnd) := by
  refine (Refines.lift (Chk.Refines.refl _)).bind fun key => ?_
  refine (polyvecMatrixExpand_refines _ _).bind fun mat => ?_
  refine (Refines.lift (polyvecNtt_refines build _)).bind fun s1 => ?_
  refine (Refines.lift (polyvecNtt_refines build _)).bind fun s2 => ?_
  refine (Refines.lift (polyvecNtt_refines build _)).bind fun t0 => ?_
  refine Refines.bind (Refines.loop (fun s => ?_) _) fun _ => Refines.pure _
  exact signStep_refines i _ _ mat s1 s2 t0 s

/-- **Verification** of a build. -/
theorem verifyInternal_refines (pk : Bytes) (m : List UInt8) (sig : Bytes) (sigSz : ℕ) :
    (verifyInternal build st H (mldsaPar i) pk m sig sigSz).Refines
      (Mldsa.verifyInternal H (mldsaPar i) pk m sig sigSz) := by
  refine Refines.ite (Refines.pure _) ?_
  refine (Refines.lift (Chk.Refines.refl _)).bind fun key => ?_
  refine (Refines.lift (Chk.Refines.refl _)).bind fun o => ?_
  rcases o with _ | ⟨c, z, h⟩
  · exact Refines.pure _
  · refine (Refines.lift (Chk.Refines.refl _)).bind fun b => Refines.ite (Refines.pure _) ?_
    refine (refines_polyChallenge i _).bind fun cp => ?_
    refine (polyvecMatrixExpand_refines _ _).bind fun mat => ?_
    refine (Refines.lift (verifyVectors_refines mat z cp key.2 h)).bind fun w1 => ?_
    exact (Refines.lift (Chk.Refines.refl _)).bind fun _ => Refines.pure _

/-! ## Whole programs -/

/-- **The builds are interchangeable.**  Whichever build is linked, and whatever memory holds
before, key generation, signing and verification return the same, on every input and for all
hash functions. -/
theorem mldsa_builds_agree (build build' : Build) (st st' : Stale) (H : Hash) (i : Fin 3) :
    (∀ (seed : Bytes) (r : List UInt8 × List UInt8),
      (keygenInternal build st H (mldsaPar i) seed).Returns r ↔
        (keygenInternal build' st' H (mldsaPar i) seed).Returns r) ∧
    (∀ (sig sk : Bytes) (m : List UInt8) (rnd : Bytes) (r : Bytes × ℕ),
      (signInternal build st H (mldsaPar i) sig sk m rnd).Returns r ↔
        (signInternal build' st' H (mldsaPar i) sig sk m rnd).Returns r) ∧
    ∀ (pk : Bytes) (m : List UInt8) (sig : Bytes) (sigSz : ℕ) (r : ℕ),
      (verifyInternal build st H (mldsaPar i) pk m sig sigSz).Returns r ↔
        (verifyInternal build' st' H (mldsaPar i) pk m sig sigSz).Returns r := by
  refine ⟨fun seed r => ?_, fun sig sk m rnd r => ?_, fun pk m sig sigSz r => ?_⟩
  · rw [(keygenInternal_refines i seed).returns_iff, (keygenInternal_refines i seed).returns_iff]
  · rw [(signInternal_refines i sig sk m rnd).returns_iff,
      (signInternal_refines i sig sk m rnd).returns_iff]
  · rw [(verifyInternal_refines i pk m sig sigSz).returns_iff,
      (verifyInternal_refines i pk m sig sigSz).returns_iff]

/-- **No check fails in either build**: in the vector build no lane of a transform wraps,
whatever the keys, the signature and the hash functions are, and however often signing starts
over. -/
theorem mldsa_builds_safe (build : Build) (st : Stale) (H : Hash) (i : Fin 3) :
    (∀ seed : Bytes, (keygenInternal build st H (mldsaPar i) seed).Safe fun _ => True) ∧
    (∀ (sig sk : Bytes) (m : List UInt8) (rnd : Bytes),
      (signInternal build st H (mldsaPar i) sig sk m rnd).Safe fun _ => True) ∧
    ∀ (pk : Bytes) (m : List UInt8) (sig : Bytes) (sigSz : ℕ),
      (verifyInternal build st H (mldsaPar i) pk m sig sigSz).Safe fun _ => True := by
  refine ⟨fun seed => ?_, fun sig sk m rnd => ?_, fun pk m sig sigSz => ?_⟩
  · exact (keygenInternal_refines i seed).safe (safe_keygenInternal i seed)
  · exact (signInternal_refines i sig sk m rnd).safe (safe_signInternal i sig sk m rnd)
  · exact (verifyInternal_refines i pk m sig sigSz).safe (safe_verifyInternal i pk m sig sigSz)

end Built

end Mldsa
