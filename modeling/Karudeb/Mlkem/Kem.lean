import Karudeb.Mlkem.Kpke

/-!
# ML-KEM: key generation, encapsulation and decapsulation

`mlkem_keygen_internal`, `mlkem_encaps_internal` and `mlkem_decaps_internal` of
`mlkem.c`, and the comparison and the conditional move of `verify.c` on bytes.
-/

namespace Mlkem

/-! ## Comparing and moving without a branch -/

/-- `verify`. -/
def verify (a b : Bytes) (len : ℕ) : ℕ :=
  let r : UInt8 := (List.range len).foldl (fun r i => r ||| (a i ^^^ b i)) 0
  ((-r.toUInt64) >>> 63).toNat

/-- `cmov`. -/
def cmov (r x : Bytes) (len : ℕ) (b : UInt8) : Bytes :=
  let b := -b
  (List.range len).foldl (fun r i => r.put i [r i ^^^ (b &&& (r i ^^^ x i))]) r

/-! ## The scheme -/

/-- `mlkem_keygen_internal`, with the result `(ek, dk)`; `dk` is a buffer. -/
def keygenInternal (build : Build) (H : Hash) (par : MlkemParam) (dk d z : Bytes) :
    Prog (List UInt8 × Bytes) := do
  let (ek, dkPke) ← kpkeKeygen build H par d
  let dk := dk.put 0 dkPke
  let dk := dk.put (par.k * polySz) ((Bytes.ofList ek).take par.ekSz)
  let dk := dk.put (par.dkSz - 2 * symSz) (hashH H ((Bytes.ofList ek).take par.ekSz))
  -- value `z` for pseudo-random output on reject
  let dk := dk.put (par.dkSz - symSz) (z.take symSz)
  pure (ek, dk)

/-- `mlkem_encaps_internal`, with the result `(kk, ct)`. -/
def encapsInternal (build : Build) (H : Hash) (par : MlkemParam) (ek m : Bytes) :
    Prog (List UInt8 × List UInt8) := do
  let buf := m.take symSz ++ hashH H (ek.take par.ekSz)
  let kr := Bytes.ofList (hashG H buf)
  let ct ← kpkeEncrypt build H par ek (Bytes.ofList buf) (kr.drop symSz)
  pure (kr.take symSz, ct)

/-- `mlkem_decaps_internal`, which writes to the buffer `kp`. -/
def decapsInternal (build : Build) (H : Hash) (par : MlkemParam) (kp dk ct : Bytes) :
    Prog Bytes := do
  let pk := dk.drop (par.k * polySz)
  let m ← kpkeDecrypt build par dk ct
  let buf := m ++ (dk.drop (par.dkSz - 2 * symSz)).take symSz
  let kr := Bytes.ofList (hashG H buf)
  let cmp ← kpkeEncrypt build H par pk (Bytes.ofList buf) (kr.drop symSz)
  let fail := verify ct (Bytes.ofList cmp) par.ctSz
  -- rejection key
  let kp := kp.put 0 (shake256Rkprf H par (dk.drop (par.dkSz - symSz)) ct)
  pure (cmov kp kr symSz (if fail = 0 then 1 else 0))

end Mlkem
