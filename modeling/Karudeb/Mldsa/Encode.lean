import Karudeb.Mldsa.Pack

/-!
# ML-DSA: keys and signatures as bytes

The encoders and decoders of `mldsa.c`.  Keys are written to a fresh buffer and
returned as a string.  A signature is written over what its buffer holds, since
the caller may pass a pointer into that buffer as the challenge: `packSig` takes
the challenge as a function of the buffer, `id` where the two are one.
-/

namespace Mldsa

open Bits

/-! ## Keys -/

/-- `pack_pk`. -/
def packPk (par : MldsaParam) (rho : Bytes) (t1 : PolyVec par.k) : Chk (List UInt8) := do
  let t ← packGroups par.k fun i => polyt1Pack (t1.rd i)
  pure (rho.take 32 ++ t)

/-- `unpack_pk`, with the result `(rho, t1)`. -/
def unpackPk (par : MldsaParam) (pk : Bytes) : Chk (Bytes × PolyVec par.k) := do
  let rho := Bytes.ofList (pk.take 32)
  let t1 ← Chk.tab par.k fun i => polyt1Unpack (pk.drop (32 + i * 320))
  pure (rho, t1)

/-- What `unpack_sk` reads. -/
structure SecretKey (par : MldsaParam) where
  /-- Seed of the matrix. -/
  rho : Bytes
  /-- Seed of the signing randomness. -/
  key : Bytes
  /-- Hash of the public key. -/
  tr : Bytes
  /-- First secret vector. -/
  s1 : PolyVec par.ell
  /-- Second secret vector. -/
  s2 : PolyVec par.k
  /-- Low bits of the public vector. -/
  t0 : PolyVec par.k

/-- `pack_sk`. -/
def packSk (par : MldsaParam) (sk : SecretKey par) : Chk (List UInt8) := do
  let b1 ← packGroups par.ell fun i => polyetaPack par (sk.s1.rd i)
  let b2 ← packGroups par.k fun i => polyetaPack par (sk.s2.rd i)
  let b3 ← packGroups par.k fun i => polyt0Pack (sk.t0.rd i)
  pure (sk.rho.take 32 ++ sk.key.take 32 ++ sk.tr.take 64 ++ b1 ++ b2 ++ b3)

/-- `unpack_sk`. -/
def unpackSk (par : MldsaParam) (sk : Bytes) : Chk (SecretKey par) := do
  let rho := Bytes.ofList (sk.take 32)
  let key := Bytes.ofList ((sk.drop 32).take 32)
  let tr := Bytes.ofList ((sk.drop 64).take 64)
  let sk := sk.drop 128
  let s1 ← Chk.tab par.ell fun i => polyetaUnpack par (sk.drop (i * par.etaSz))
  let sk := sk.drop (par.ell * par.etaSz)
  let s2 ← Chk.tab par.k fun i => polyetaUnpack par (sk.drop (i * par.etaSz))
  let sk := sk.drop (par.k * par.etaSz)
  let t0 ← Chk.tab par.k fun i => polyt0Unpack (sk.drop (i * 416))
  pure { rho, key, tr, s1, s2, t0 }

/-! ## Signatures -/

/-- The loop over a row of the hint in `pack_sig`.  The hint starts at byte `o`, and
`k` counts the positions written so far. -/
def packHintRow (o : ℕ) (h : Poly) (s : Bytes × ℕ) : Bytes × ℕ :=
  (List.range 256).foldl (fun s j =>
    if h.rd j ≠ 0 then (s.1.put (o + s.2) [UInt8.ofNat j], s.2 + 1) else s) s

/-- The part of `pack_sig` that encodes `h` from byte `o` on. -/
def packHint (par : MldsaParam) (sig : Bytes) (o : ℕ) (h : PolyVec par.k) : Bytes :=
  let sig := (List.range (par.omega + par.k)).foldl (fun sig i => sig.put (o + i) [0]) sig
  ((List.range par.k).foldl (fun s i =>
    let s := packHintRow o (h.rd i) s
    (s.1.put (o + (par.omega + i)) [UInt8.ofNat s.2], s.2)) (sig, 0)).1

/-- `pack_sig`. -/
def packSig (par : MldsaParam) (sig : Bytes) (c : Bytes → Bytes) (z : PolyVec par.ell)
    (h : PolyVec par.k) : Chk Bytes := do
  let sig := (List.range par.cpSz).foldl (fun sig i => sig.put i [c sig i]) sig
  let sig ← (List.range par.ell).foldlM (fun sig i => do
    let r ← polyzPack par (z.rd i)
    pure (sig.put (par.cpSz + i * par.pzpSz) r)) sig
  pure (packHint par sig (par.cpSz + par.ell * par.pzpSz) h)

/-- The loop over a row of the hint in `unpack_sig`, which reads the positions
`k, ..., cut - 1`. -/
def unpackHintRow (sig : Bytes) (k cut : ℕ) : Option Poly :=
  (List.range (cut - k)).foldlM (fun h n =>
    let j := k + n
    -- coefficients are ordered for strong unforgeability
    if j > k ∧ sig j ≤ sig (j - 1) then none else some (h.wr (sig j).toNat 1))
    (Vector.tab 256 fun _ => 0)

/-- The part of `unpack_sig` that decodes `h`. -/
def unpackHint (par : MldsaParam) (sig : Bytes) : Option (PolyVec par.k) := do
  let s ← (List.range par.k).foldlM (fun s i =>
    let cut := (sig (par.omega + i)).toNat
    if cut < s.2 ∨ cut > par.omega then none
    else (unpackHintRow sig s.2 cut).map fun row => (s.1.wr i row, cut))
    (Vector.tab par.k fun _ => Vector.tab 256 fun _ => 0, 0)
  -- extra indices are zero for strong unforgeability
  if (List.range (par.omega - s.2)).any fun n => sig (s.2 + n) ≠ 0 then none else some s.1

/-- `unpack_sig`, with the result `(c, z, h)` where the C function returns 0. -/
def unpackSig (par : MldsaParam) (sig : Bytes) :
    Chk (Option (List UInt8 × PolyVec par.ell × PolyVec par.k)) := do
  let c := sig.take par.cpSz
  let sig := sig.drop par.cpSz
  let z ← Chk.tab par.ell fun i => polyzUnpack par (sig.drop (i * par.pzpSz))
  let sig := sig.drop (par.ell * par.pzpSz)
  pure ((unpackHint par sig).map fun h => (c, z, h))

end Mldsa
