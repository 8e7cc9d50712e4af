import Karudeb.Mldsa.Encode
import Karudeb.Mldsa.Sample

/-!
# ML-DSA: key generation, signing and verification

`mldsa_keygen_internal`, `mldsa_sign_internal` and `mldsa_verify_internal` of
`mldsa.c`, with the hash functions and what a build links as parameters.  The stretches of
polynomial arithmetic between two samplings are functions of their own, since they end on
every input.  Signing takes the signature buffer as it finds it: the packed `w1`
and the challenge seed are written there before the signature is.
-/

namespace Mldsa

/-! ## Key generation -/

/-- The polynomial arithmetic of `mldsa_keygen_internal`, with the result `(t1, t0)`. -/
def Transforms.keygenVectors (T : Transforms) {par : MldsaParam} (mat : Vector (PolyVec par.ell) par.k)
    (s1 : PolyVec par.ell) (s2 : PolyVec par.k) : Chk (PolyVec par.k × PolyVec par.k) := do
  -- matrix-vector multiplication
  let s1hat ← T.polyveclNtt par s1
  let t1 ← polyvecMatrixPointwiseMontgomery mat s1hat
  let t1 ← polyveckReduce par t1
  let t1 ← T.polyveckInvnttTomont par t1
  -- add error vector `s2`
  let t1 ← polyveckAdd par t1 s2
  let t1 ← polyvecCaddq t1
  polyvecPower2round t1

/-- `mldsa_keygen_internal`, with the result `(pk, sk)`. -/
def Linked.keygenInternal (L : Linked) (H : Hash) (par : MldsaParam) (seed : Bytes) :
    Prog (List UInt8 × List UInt8) := do
  let seedbuf := Bytes.ofList (shake256 H 128
    (seed.take 32 ++ [UInt8.ofNat par.k] ++ [UInt8.ofNat par.ell]))
  let rho := seedbuf
  let rhop := rho.drop 32
  let key := rhop.drop 64
  let mat ← L.polyvecMatrixExpand H par rho
  let s1 ← polyveclUniformEta H par rhop 0
  let s2 ← polyveckUniformEta H par rhop par.ell
  let (t1, t0) ← L.keygenVectors mat s1 s2
  let pk ← packPk par rho t1
  let tr := shake256 H 64 ((Bytes.ofList pk).take par.pkSz)
  let sk ← packSk par ⟨rho, key, Bytes.ofList tr, s1, s2, t0⟩
  pure (pk, sk)

/-! ## The challenge -/

/-- `polyveck_pack_w1`, into the buffer `r`. -/
def polyvecPackW1 (par : MldsaParam) (r : Bytes) (w1 : PolyVec par.k) : Chk Bytes :=
  (List.range par.k).foldlM (fun r i => do
    let t ← polyw1Pack par (w1.rd i)
    pure (r.put (i * par.w1pSz) t)) r

/-- The hash of two strings that are absorbed one behind the other. -/
def hashTwo (H : Hash) (outlen : ℕ) (m m' : List UInt8) : List UInt8 :=
  let state := shakeFinalize (shakeAbsorb (shakeAbsorb shakeInit m) m')
  (shake256Squeeze H outlen state).1

/-! ## Signing -/

/-- From `y` to the high and the low bits of `w`, with the result `(w1, w0)`. -/
def Transforms.signCommit (T : Transforms) {par : MldsaParam} (mat : Vector (PolyVec par.ell) par.k)
    (y : PolyVec par.ell) : Chk (PolyVec par.k × PolyVec par.k) := do
  let z ← T.polyveclNtt par y
  let w1 ← polyvecMatrixPointwiseMontgomery mat z
  let w1 ← polyveckReduce par w1
  let w1 ← T.polyveckInvnttTomont par w1
  let w1 ← polyvecCaddq w1
  polyvecDecompose par w1

/-- From the challenge to the response and the hint, or to a rejection.  The vectors `s1`,
`s2` and `t0` are transformed already. -/
def Transforms.signRespond (T : Transforms) {par : MldsaParam} (s1 : PolyVec par.ell)
    (s2 t0 : PolyVec par.k) (y : PolyVec par.ell) (w1 w0 : PolyVec par.k) (cp : Poly) :
    Chk (Option (PolyVec par.ell × PolyVec par.k)) := do
  let cp ← T.polyNtt cp
  -- compute `z`, reject if it reveals secret
  let z ← polyveclPointwisePolyMontgomery par cp s1
  let z ← T.polyveclInvnttTomont par z
  let z ← polyveclAdd par z y
  let z ← polyveclReduce par z
  if ← polyveclChknorm par z (par.gamma1 - par.beta) then
    pure none
  else
    -- subtracting `cs2` must not change the high bits of `w`
    let h ← polyveckPointwisePolyMontgomery par cp s2
    let h ← T.polyveckInvnttTomont par h
    let w0 ← polyvecSub w0 h
    let w0 ← polyveckReduce par w0
    if ← polyveckChknorm par w0 (par.gamma2 - par.beta) then
      pure none
    else
      -- compute hints for `w1`
      let h ← polyveckPointwisePolyMontgomery par cp t0
      let h ← T.polyveckInvnttTomont par h
      let h ← polyveckReduce par h
      if ← polyveckChknorm par h par.gamma2 then
        pure none
      else
        let w0 ← polyveckAdd par w0 h
        let (h, n) := polyvecMakeHint par w0 w1
        pure (if n > par.omega then none else some (z, h))

/-- The body of the loop that `rej` labels, on the 16-bit counter and the buffer. -/
def Transforms.signStep (T : Transforms) (H : Hash) {par : MldsaParam} (mu rhop : List UInt8)
    (mat : Vector (PolyVec par.ell) par.k) (s1 : PolyVec par.ell) (s2 t0 : PolyVec par.k)
    (s : ℕ × Bytes) : Prog ((ℕ × Bytes) ⊕ Bytes) := do
  let (nonce, sig) := s
  let y ← polyvecUniformGamma1 H par (Bytes.ofList rhop) nonce
  let nonce := (nonce + 1) % 2 ^ 16
  let (w1, w0) ← T.signCommit mat y
  let sig ← polyvecPackW1 par sig w1
  let sig := sig.put 0 (hashTwo H par.cpSz mu (sig.take (par.k * par.w1pSz)))
  let cp ← polyChallenge H par sig
  match ← T.signRespond s1 s2 t0 y w1 w0 cp with
  | none => pure (Sum.inl (nonce, sig))
  | some (z, h) => do
    let sig ← packSig par sig id z h
    pure (Sum.inr sig)

/-- `mldsa_sign_internal`, with the buffer `sig` and the size it reports. -/
def Linked.signInternal (L : Linked) (H : Hash) (par : MldsaParam) (sig sk : Bytes)
    (m : List UInt8) (rnd : Bytes) : Prog (Bytes × ℕ) := do
  let key ← unpackSk par sk
  let mu := hashTwo H 64 (key.tr.take 64) m
  let rhop := shake256 H 64 (key.key.take 32 ++ rnd.take 32 ++ mu)
  let mat ← L.polyvecMatrixExpand H par key.rho
  let s1 ← L.polyveclNtt par key.s1
  let s2 ← L.polyveckNtt par key.s2
  let t0 ← L.polyveckNtt par key.t0
  let sig ← Prog.loop (L.signStep H mu rhop mat s1 s2 t0) (0, sig)
  pure (sig, par.sigSz)

/-! ## Verification -/

/-- The polynomial arithmetic of `mldsa_verify_internal`, with the result `w1`. -/
def Transforms.verifyVectors (T : Transforms) {par : MldsaParam}
    (mat : Vector (PolyVec par.ell) par.k) (z : PolyVec par.ell) (cp : Poly)
    (t1 h : PolyVec par.k) : Chk (PolyVec par.k) := do
  let z ← T.polyveclNtt par z
  let w1 ← polyvecMatrixPointwiseMontgomery mat z
  let cp ← T.polyNtt cp
  let t1 ← polyvecShiftl t1
  let t1 ← T.polyveckNtt par t1
  let t1 ← polyveckPointwisePolyMontgomery par cp t1
  let w1 ← polyvecSub w1 t1
  let w1 ← polyveckReduce par w1
  let w1 ← T.polyveckInvnttTomont par w1
  -- reconstruct `w1`
  let w1 ← polyvecCaddq w1
  polyvecUseHint par w1 h

/-- `mldsa_verify_internal`. -/
def Linked.verifyInternal (L : Linked) (H : Hash) (par : MldsaParam) (pk : Bytes)
    (m : List UInt8) (sig : Bytes) (sigSz : ℕ) : Prog ℕ := do
  if sigSz ≠ par.sigSz then
    pure 0
  else
    let (rho, t1) ← unpackPk par pk
    match ← unpackSig par sig with
    | none => pure 0
    | some (c, z, h) =>
      if ← polyveclChknorm par z (par.gamma1 - par.beta) then
        pure 0
      else
        let mu := shake256 H 64 (pk.take par.pkSz)
        let mu := hashTwo H 64 mu m
        let cp ← polyChallenge H par (Bytes.ofList c)
        let mat ← L.polyvecMatrixExpand H par rho
        let w1 ← L.verifyVectors mat z cp t1 h
        let buf ← polyvecPackW1 par (fun _ => 0) w1
        let c2 := hashTwo H par.cpSz mu (buf.take (par.k * par.w1pSz))
        pure (if (List.range par.cpSz).all fun i => c.getD i 0 = c2.getD i 0 then 1 else 0)

/-! ## The scalar versions, with sampling over lists -/

section

variable {par : MldsaParam}

/-- The polynomial arithmetic of `mldsa_keygen_internal`. -/
def keygenVectors (mat : Vector (PolyVec par.ell) par.k) (s1 : PolyVec par.ell)
    (s2 : PolyVec par.k) : Chk (PolyVec par.k × PolyVec par.k) :=
  Transforms.scalar.keygenVectors mat s1 s2

/-- From `y` to the high and the low bits of `w`. -/
def signCommit (mat : Vector (PolyVec par.ell) par.k) (y : PolyVec par.ell) :
    Chk (PolyVec par.k × PolyVec par.k) :=
  Transforms.scalar.signCommit mat y

theorem scalar_signCommit (mat : Vector (PolyVec par.ell) par.k) (y : PolyVec par.ell) :
    Transforms.scalar.signCommit mat y = signCommit mat y := rfl

/-- From the challenge to the response and the hint, or to a rejection. -/
def signRespond (s1 : PolyVec par.ell) (s2 t0 : PolyVec par.k) (y : PolyVec par.ell)
    (w1 w0 : PolyVec par.k) (cp : Poly) : Chk (Option (PolyVec par.ell × PolyVec par.k)) :=
  Transforms.scalar.signRespond s1 s2 t0 y w1 w0 cp

theorem scalar_signRespond (s1 : PolyVec par.ell) (s2 t0 : PolyVec par.k) (y : PolyVec par.ell)
    (w1 w0 : PolyVec par.k) (cp : Poly) :
    Transforms.scalar.signRespond s1 s2 t0 y w1 w0 cp = signRespond s1 s2 t0 y w1 w0 cp := rfl

/-- The body of the loop that `rej` labels. -/
def signStep (H : Hash) (mu rhop : List UInt8) (mat : Vector (PolyVec par.ell) par.k)
    (s1 : PolyVec par.ell) (s2 t0 : PolyVec par.k) : ℕ × Bytes → Prog ((ℕ × Bytes) ⊕ Bytes) :=
  Transforms.scalar.signStep H mu rhop mat s1 s2 t0

/-- The polynomial arithmetic of `mldsa_verify_internal`. -/
def verifyVectors (mat : Vector (PolyVec par.ell) par.k) (z : PolyVec par.ell) (cp : Poly)
    (t1 h : PolyVec par.k) : Chk (PolyVec par.k) :=
  Transforms.scalar.verifyVectors mat z cp t1 h

end

/-- `mldsa_keygen_internal`, with the result `(pk, sk)`. -/
def keygenInternal (H : Hash) (par : MldsaParam) (seed : Bytes) :
    Prog (List UInt8 × List UInt8) :=
  Linked.plain.keygenInternal H par seed

/-- `mldsa_sign_internal`, with the buffer `sig` and the size it reports. -/
def signInternal (H : Hash) (par : MldsaParam) (sig sk : Bytes) (m : List UInt8) (rnd : Bytes) :
    Prog (Bytes × ℕ) :=
  Linked.plain.signInternal H par sig sk m rnd

/-- `mldsa_verify_internal`. -/
def verifyInternal (H : Hash) (par : MldsaParam) (pk : Bytes) (m : List UInt8) (sig : Bytes)
    (sigSz : ℕ) : Prog ℕ :=
  Linked.plain.verifyInternal H par pk m sig sigSz

end Mldsa
