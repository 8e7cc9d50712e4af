import Karudeb.Lib.Prog
import Karudeb.Lib.Shake
import Karudeb.Mldsa.Pack

/-!
# ML-DSA: sampling

The samplers of `mldsa_poly.c` and the loops of `polyvec.c` over them.  The array
a rejection sampler fills is the list of what it has written so far.
-/

namespace Mldsa

/-! ## Streams -/

/-- `dilithium_shake128_stream_init`. -/
def stream128Init (seed : Bytes) (nonce : ℕ) : KeccakState :=
  let t := [UInt8.ofNat nonce, UInt8.ofNat (nonce >>> 8)]
  shakeFinalize (shakeAbsorb (shakeAbsorb shakeInit (seed.take 32)) t)

/-- `dilithium_shake256_stream_init`. -/
def stream256Init (seed : Bytes) (nonce : ℕ) : KeccakState :=
  let t := [UInt8.ofNat nonce, UInt8.ofNat (nonce >>> 8)]
  shakeFinalize (shakeAbsorb (shakeAbsorb shakeInit (seed.take 64)) t)

/-- The polynomial a sampler has written. -/
def ofSamples (a : List ℤ) : Poly := Vector.tab 256 fun i => a.getD i 0

/-! ## Uniform coefficients -/

/-- `mldsa_rej_uniform`. -/
def rejUniform (len : ℕ) : List UInt8 → List ℤ
  | b0 :: b1 :: b2 :: buf =>
    if len = 0 then []
    else
      let t := (b0.toNat ||| b1.toNat <<< 8 ||| b2.toNat <<< 16) &&& 0x7FFFFF
      if t < 8380417 then (t : ℤ) :: rejUniform (len - 1) buf else rejUniform len buf
  | _ => []

/-- What `poly_uniform` keeps from turn to turn. -/
structure UniformState where
  /-- The coefficients written so far. -/
  a : List ℤ
  /-- The first `buflen` bytes of the buffer. -/
  buf : List UInt8
  /-- The sponge. -/
  state : KeccakState

/-- The body of the loop in `poly_uniform`. -/
def uniformStep (H : Hash) (s : UniformState) : UniformState :=
  let off := s.buf.length % 3
  let (blk, state) := shake128Squeezeblocks H 1 s.state
  let buf := s.buf.drop (s.buf.length - off) ++ blk
  ⟨s.a ++ rejUniform (256 - s.a.length) buf, buf, state⟩

/-- `poly_uniform`. -/
def polyUniform (H : Hash) (seed : Bytes) (nonce : ℕ) : Prog Poly :=
  let (buf, state) := shake128Squeezeblocks H 5 (stream128Init seed nonce)
  Prog.loop (fun s : UniformState =>
    pure (if s.a.length < 256 then Sum.inl (uniformStep H s) else Sum.inr (ofSamples s.a)))
    ⟨rejUniform 256 buf, buf, state⟩

/-- The functions that a build has in a version of its own. -/
structure Linked extends Transforms where
  /-- `poly_uniform`. -/
  polyUniform : Hash → Bytes → ℕ → Prog Poly

/-- The scalar versions, with sampling over lists. -/
def Linked.plain : Linked := { Transforms.scalar with polyUniform := Mldsa.polyUniform }

/-- `polyvec_matrix_expand`. -/
def Linked.polyvecMatrixExpand (L : Linked) (H : Hash) (par : MldsaParam) (rho : Bytes) :
    Prog (Vector (PolyVec par.ell) par.k) :=
  Prog.tab par.k fun i => Prog.tab par.ell fun j => L.polyUniform H rho ((i <<< 8) + j)

/-- `polyvec_matrix_expand`, with sampling over lists. -/
def polyvecMatrixExpand (H : Hash) (par : MldsaParam) (rho : Bytes) :
    Prog (Vector (PolyVec par.ell) par.k) :=
  Linked.plain.polyvecMatrixExpand H par rho

theorem plain_polyvecMatrixExpand (H : Hash) (par : MldsaParam) (rho : Bytes) :
    Linked.plain.polyvecMatrixExpand H par rho = polyvecMatrixExpand H par rho := rfl

/-! ## Secret coefficients -/

/-- A coefficient of `rej_eta_2`. -/
def eta2Coeff (t : ℕ) : Option ℤ :=
  if t < 15 then some (2 - ((t - ((205 * t) >>> 10) * 5 : ℕ) : ℤ)) else none

/-- A coefficient of `rej_eta_4`. -/
def eta4Coeff (t : ℕ) : Option ℤ := if t < 9 then some (4 - (t : ℤ)) else none

/-- The loop of `rej_eta_2` and `rej_eta_4`, two candidates a byte. -/
def rejEta (coeff : ℕ → Option ℤ) (len : ℕ) : List UInt8 → List ℤ
  | b :: buf =>
    if len = 0 then []
    else
      let a0 := (coeff (b.toNat &&& 0x0F)).toList
      let a1 := if a0.length < len then (coeff (b.toNat >>> 4)).toList else []
      a0 ++ (a1 ++ rejEta coeff (len - a0.length - a1.length) buf)
  | [] => []

/-- `rej_eta_2`. -/
def rejEta2 : ℕ → List UInt8 → List ℤ := rejEta eta2Coeff

/-- `rej_eta_4`. -/
def rejEta4 : ℕ → List UInt8 → List ℤ := rejEta eta4Coeff

/-- `poly_uniform_eta_2` and `poly_uniform_eta_4`, which differ in `rej` and in how
many blocks they squeeze at first. -/
def polyUniformEtaWith (H : Hash) (rej : ℕ → List UInt8 → List ℤ) (nblocks : ℕ) (seed : Bytes)
    (nonce : ℕ) : Prog Poly :=
  let (buf, state) := shake256Squeezeblocks H nblocks (stream256Init seed nonce)
  Prog.loop (fun s : List ℤ × KeccakState =>
    pure (if s.1.length < 256 then
      let (buf, state) := shake256Squeezeblocks H 1 s.2
      Sum.inl (s.1 ++ rej (256 - s.1.length) buf, state)
    else Sum.inr (ofSamples s.1)))
    (rej 256 buf, state)

/-- `poly_uniform_eta_2`. -/
def polyUniformEta2 (H : Hash) : Bytes → ℕ → Prog Poly :=
  polyUniformEtaWith H rejEta2 ((136 + shake256Rate - 1) / shake256Rate)

/-- `poly_uniform_eta_4`. -/
def polyUniformEta4 (H : Hash) : Bytes → ℕ → Prog Poly :=
  polyUniformEtaWith H rejEta4 ((227 + shake256Rate - 1) / shake256Rate)

/-- `poly_uniform_eta`, which does nothing for an `eta` that no set has. -/
def polyUniformEta (H : Hash) (par : MldsaParam) (seed : Bytes) (nonce : ℕ) : Prog Poly :=
  if par.eta = 2 then polyUniformEta2 H seed nonce
  else if par.eta = 4 then polyUniformEta4 H seed nonce
  else pure (ofSamples [])

/-- `polyvecl_uniform_eta`, `polyveck_uniform_eta`. -/
def polyvecUniformEta (H : Hash) (par : MldsaParam) (n : ℕ) (seed : Bytes) (nonce : ℕ) :
    Prog (PolyVec n) :=
  Prog.tab n fun i => polyUniformEta H par seed (nonce + i)

/-- `polyvecl_uniform_eta`. -/
def polyveclUniformEta (H : Hash) (par : MldsaParam) : Bytes → ℕ → Prog (PolyVec par.ell) :=
  polyvecUniformEta H par par.ell

/-- `polyveck_uniform_eta`. -/
def polyveckUniformEta (H : Hash) (par : MldsaParam) : Bytes → ℕ → Prog (PolyVec par.k) :=
  polyvecUniformEta H par par.k

/-! ## Masks -/

/-- `poly_uniform_gamma1`. -/
def polyUniformGamma1 (H : Hash) (par : MldsaParam) (seed : Bytes) (nonce : ℕ) : Chk Poly :=
  let nblocks := (par.pzpSz + shake256Rate - 1) / shake256Rate
  let (buf, _) := shake256Squeezeblocks H nblocks (stream256Init seed nonce)
  polyzUnpack par (Bytes.ofList buf)

/-- `polyvecl_uniform_gamma1`; the nonce of a component is a 16-bit number. -/
def polyvecUniformGamma1 (H : Hash) (par : MldsaParam) (seed : Bytes) (nonce : ℕ) :
    Chk (PolyVec par.ell) :=
  Chk.tab par.ell fun i => polyUniformGamma1 H par seed ((par.ell * nonce + i) % 2 ^ 16)

/-! ## Challenges -/

/-- What `poly_challenge` reads bytes from. -/
structure ChallengeState where
  /-- The last block squeezed. -/
  buf : List UInt8
  /-- The first byte of it that was not read yet. -/
  pos : ℕ
  /-- The sponge. -/
  state : KeccakState

/-- Refill the buffer of `poly_challenge` when it is used up. -/
def challengeRefill (H : Hash) (s : ChallengeState) : ChallengeState :=
  if s.pos ≥ shake256Rate then
    let (buf, state) := shake256Squeezeblocks H 1 s.state
    ⟨buf, 0, state⟩
  else s

/-- The inner loop of `poly_challenge`: bytes are read until one is at most `i`. -/
def challengeByte (H : Hash) (i : ℕ) : ChallengeState → Prog (ℕ × ChallengeState) :=
  Prog.loop fun s =>
    let s := challengeRefill H s
    let b := (s.buf.getD s.pos 0).toNat
    let s := { s with pos := s.pos + 1 }
    pure (if b > i then Sum.inl s else Sum.inr (b, s))

/-- A turn of the outer loop of `poly_challenge`, on the polynomial, the signs left
and the bytes left. -/
def challengeStep (H : Hash) (s : Poly × ℕ × ChallengeState) (i : ℕ) :
    Prog (Poly × ℕ × ChallengeState) := do
  let r ← challengeByte H i s.2.2
  let c := s.1.wr i (s.1.rd r.1)
  let c := c.wr r.1 (1 - 2 * ((s.2.1 &&& 1 : ℕ) : ℤ))
  pure (c, s.2.1 >>> 1, r.2)

/-- `poly_challenge`. -/
def polyChallenge (H : Hash) (par : MldsaParam) (seed : Bytes) : Prog Poly := do
  let state := shakeFinalize (shakeAbsorb shakeInit (seed.take par.cpSz))
  let (buf, state) := shake256Squeezeblocks H 1 state
  let signs := (List.range 8).foldl (fun signs i => signs ||| (buf.getD i 0).toNat <<< (8 * i)) 0
  let s ← (List.range par.tau).foldlM (fun s n => challengeStep H s (256 - par.tau + n))
    (Vector.tab 256 fun _ => 0, signs, ⟨buf, 8, state⟩)
  pure s.1

end Mldsa
