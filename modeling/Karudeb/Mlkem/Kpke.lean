import Karudeb.Mlkem.Sample

/-!
# ML-KEM: the encryption scheme inside

`kpke_keygen`, `kpke_encrypt` and `kpke_decrypt` of `mlkem_kpke.c`.  The
stretches of polynomial arithmetic between sampling and encoding are functions of
their own.
-/

namespace Mlkem

variable {k : ℕ}

/-! ## Keys -/

/-- `pack_ek`. -/
def packEk (ek : PolyVec k) (seed : Bytes) : Chk (List UInt8) := do
  let r ← polyvecTobytes ek
  pure (r ++ seed.take symSz)

/-- `unpack_ek`. -/
def unpackEk (par : MlkemParam) (packedek : Bytes) : Chk (PolyVec par.k × Bytes) := do
  let ek ← polyvecFrombytes par.k packedek
  pure (ek, packedek.drop (par.k * polySz))

/-- `pack_dk`. -/
def packDk (dk : PolyVec k) : Chk (List UInt8) := polyvecTobytes dk

/-- `unpack_dk`. -/
def unpackDk (par : MlkemParam) (packeddk : Bytes) : Chk (PolyVec par.k) :=
  polyvecFrombytes par.k packeddk

/-! ## Key generation -/

/-- The polynomial arithmetic of `kpke_keygen`, with the result `(ekpv, dkpv)`. -/
def keygenVectors (build : Build) (a : Vector (PolyVec k) k) (dkpv e : PolyVec k) :
    Chk (PolyVec k × PolyVec k) := do
  let dkpv ← polyvecNtt build dkpv
  let e ← polyvecNtt build e
  -- matrix-vector multiplication
  let ekpv ← Chk.tab k fun i => do
    let t ← polyvecBasemulAccMontgomery build (a.rd i) dkpv
    polyTomont build t
  let ekpv ← polyvecAdd build ekpv e
  let ekpv ← polyvecReduce build ekpv
  pure (ekpv, dkpv)

/-- `kpke_keygen`, with the result `(ek, dk)`. -/
def kpkeKeygen (build : Build) (H : Hash) (par : MlkemParam) (d : Bytes) :
    Prog (List UInt8 × List UInt8) := do
  let buf := Bytes.ofList (hashG H (d.take symSz ++ [UInt8.ofNat par.k]))
  let publicseed := buf
  let noiseseed := buf.drop symSz
  let a ← genMatrix build H par publicseed false
  let dkpv := Vector.tab par.k fun i => polyGetnoiseEta1 build H par noiseseed i
  let e := Vector.tab par.k fun i => polyGetnoiseEta1 build H par noiseseed (par.k + i)
  let (ekpv, dkpv) ← keygenVectors build a dkpv e
  let dk ← packDk dkpv
  let ek ← packEk ekpv publicseed
  pure (ek, dk)

/-! ## Encryption -/

/-- The polynomial arithmetic of `kpke_encrypt`, with the result `(b, v)`. -/
def encryptVectors (build : Build) (at' : Vector (PolyVec k) k) (ekpv sp ep : PolyVec k)
    (epp msg : Poly) : Chk (PolyVec k × Poly) := do
  let sp ← polyvecNtt build sp
  -- matrix-vector multiplication
  let b ← Chk.tab k fun i => polyvecBasemulAccMontgomery build (at'.rd i) sp
  let v ← polyvecBasemulAccMontgomery build ekpv sp
  let b ← polyvecInvnttTomont build b
  let v ← polyInvnttTomont build v
  let b ← polyvecAdd build b ep
  let v ← polyAdd build v epp
  let v ← polyAdd build v msg
  let b ← polyvecReduce build b
  let v ← polyReduce build v
  pure (b, v)

/-- `kpke_encrypt`. -/
def kpkeEncrypt (build : Build) (H : Hash) (par : MlkemParam) (ek m r : Bytes) :
    Prog (List UInt8) := do
  let (ekpv, seed) ← unpackEk par ek
  let msg ← polyFrommsg m
  let at' ← genMatrix build H par seed true
  let sp := Vector.tab par.k fun i => polyGetnoiseEta1 build H par r i
  let ep := Vector.tab par.k fun i => polyGetnoiseEta2 build H r (par.k + i)
  let epp := polyGetnoiseEta2 build H r (par.k + par.k)
  let (b, v) ← encryptVectors build at' ekpv sp ep epp msg
  packCiphertext par b v

/-! ## Decryption -/

/-- The polynomial arithmetic of `kpke_decrypt`. -/
def decryptVectors (build : Build) (dkpv b : PolyVec k) (v : Poly) : Chk Poly := do
  let b ← polyvecNtt build b
  let mp ← polyvecBasemulAccMontgomery build dkpv b
  let mp ← polyInvnttTomont build mp
  let mp ← polySub build v mp
  polyReduce build mp

/-- `kpke_decrypt`. -/
def kpkeDecrypt (build : Build) (par : MlkemParam) (dk c : Bytes) : Chk (List UInt8) := do
  let (b, v) ← unpackCiphertext par c
  let dkpv ← unpackDk par dk
  let mp ← decryptVectors build dkpv b v
  polyTomsg mp

end Mlkem
