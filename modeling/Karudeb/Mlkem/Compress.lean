import Karudeb.Lib.Bits
import Karudeb.Mlkem.Poly

/-!
# ML-KEM: encoding polynomials

The encoders and decoders of `mlkem_poly.c` and `polyvec.c`, each a loop over
groups of coefficients that fill whole bytes, and the ciphertext of
`mlkem_kpke.c`.  One turn of an encoder takes the coefficients of its group, as
unsigned numbers, to bytes; one turn of a decoder takes bytes to such numbers.
Encoders record that they want coefficients between `-q` and `q`.
-/

namespace Mlkem

open Word Bits

/-! ## Single coefficients -/

/-- The precondition of the encoders. -/
def wantCoeff (a : ℤ) : Chk Unit := Chk.require (decide (-parQ < a ∧ a < parQ))

/-- The standard representative, computed in a signed 32-bit word. -/
def posRep (a : ℤ) : Chk ℤ := do
  wantCoeff a
  Chk.word 32 (a + land 32 (a / 2 ^ 15) parQ)

/-- The standard representative, computed in an unsigned 16-bit word. -/
def posRep16 (a : ℤ) : Chk ℕ := do
  wantCoeff a
  let t := unsigned 16 a
  pure ((t + unsigned 16 (land 32 (wrap 16 t / 2 ^ 15) parQ)) % 2 ^ 16)

/-- The division-free rounding of the encoders: shift by `d`, add `c`, multiply by `m` and
shift back by `s`, in unsigned words of `w` bits, and keep `d` bits. -/
def roundWord (w d c m s u : ℕ) : ℕ :=
  let d0 := u <<< d % 2 ^ w
  let d0 := (d0 + c) % 2 ^ w
  let d0 := d0 * m % 2 ^ w
  let d0 := d0 >>> s
  d0 &&& (2 ^ d - 1)

/-- An entry of `t` in `poly_compress` for `dv = 4`. -/
def compress4 (a : ℤ) : Chk ℕ :=
  (fun u => roundWord 32 4 1665 80635 28 (unsigned 32 u)) <$> posRep a

/-- An entry of `t` in `poly_compress` for `dv = 5`. -/
def compress5 (a : ℤ) : Chk ℕ :=
  (fun u => roundWord 32 5 1664 40318 27 (unsigned 32 u)) <$> posRep a

/-- An entry of `t` in `polyvec_compress` for `du = 10`. -/
def compress10 (a : ℤ) : Chk ℕ := roundWord 64 10 1665 1290167 32 <$> posRep16 a

/-- An entry of `t` in `polyvec_compress` for `du = 11`. -/
def compress11 (a : ℤ) : Chk ℕ := roundWord 64 11 1664 645084 31 <$> posRep16 a

/-- A bit of `poly_tomsg`, which takes the coefficient as it is. -/
def compress1 (a : ℤ) : Chk ℕ := do
  wantCoeff a
  pure (roundWord 32 1 1665 80635 28 (unsigned 32 a))

/-- A coefficient from `d` bits. -/
def decompressWord (d x : ℕ) : ℤ := wrap 16 (((x * 3329 + 2 ^ (d - 1)) % 2 ^ 32) >>> d : ℕ)

/-- `cmov_int16`. -/
def cmovInt16 (r v b : ℤ) : ℤ := lxor 16 r (land 16 (-b) (lxor 16 r v))

/-! ## The turns of the encoders -/

/-- A turn of `poly_compress` for `dv = 4`. -/
def packC4 (t : ℕ → ℕ) : List UInt8 := [
  UInt8.ofNat (t 0 ||| t 1 <<< 4),
  UInt8.ofNat (t 2 ||| t 3 <<< 4),
  UInt8.ofNat (t 4 ||| t 5 <<< 4),
  UInt8.ofNat (t 6 ||| t 7 <<< 4)]

/-- A turn of `poly_compress` for `dv = 5`. -/
def packC5 (t : ℕ → ℕ) : List UInt8 := [
  UInt8.ofNat (t 0 >>> 0 ||| t 1 <<< 5),
  UInt8.ofNat (t 1 >>> 3 ||| t 2 <<< 2 ||| t 3 <<< 7),
  UInt8.ofNat (t 3 >>> 1 ||| t 4 <<< 4),
  UInt8.ofNat (t 4 >>> 4 ||| t 5 <<< 1 ||| t 6 <<< 6),
  UInt8.ofNat (t 6 >>> 2 ||| t 7 <<< 3)]

/-- A turn of `polyvec_compress` for `du = 10`. -/
def packC10 (t : ℕ → ℕ) : List UInt8 := [
  UInt8.ofNat (t 0 >>> 0),
  UInt8.ofNat (t 0 >>> 8 ||| t 1 <<< 2),
  UInt8.ofNat (t 1 >>> 6 ||| t 2 <<< 4),
  UInt8.ofNat (t 2 >>> 4 ||| t 3 <<< 6),
  UInt8.ofNat (t 3 >>> 2)]

/-- A turn of `polyvec_compress` for `du = 11`. -/
def packC11 (t : ℕ → ℕ) : List UInt8 := [
  UInt8.ofNat (t 0 >>> 0),
  UInt8.ofNat (t 0 >>> 8 ||| t 1 <<< 3),
  UInt8.ofNat (t 1 >>> 5 ||| t 2 <<< 6),
  UInt8.ofNat (t 2 >>> 2),
  UInt8.ofNat (t 2 >>> 10 ||| t 3 <<< 1),
  UInt8.ofNat (t 3 >>> 7 ||| t 4 <<< 4),
  UInt8.ofNat (t 4 >>> 4 ||| t 5 <<< 7),
  UInt8.ofNat (t 5 >>> 1),
  UInt8.ofNat (t 5 >>> 9 ||| t 6 <<< 2),
  UInt8.ofNat (t 6 >>> 6 ||| t 7 <<< 5),
  UInt8.ofNat (t 7 >>> 3)]

/-- A turn of `poly_tobytes`. -/
def pack12 (t : ℕ → ℕ) : List UInt8 := [
  UInt8.ofNat (t 0 >>> 0),
  UInt8.ofNat (t 0 >>> 8 ||| t 1 <<< 4),
  UInt8.ofNat (t 1 >>> 4)]

/-- A turn of `poly_tomsg`. -/
def packMsg (t : ℕ → ℕ) : List UInt8 := [
  UInt8.ofNat ((List.range 8).foldl (fun m j => m ||| t j <<< j) 0)]

/-! ## The turns of the decoders -/

/-- A turn of `poly_decompress` for `dv = 4`. -/
def unpackC4 (a : ℕ → ℕ) : List ℕ := [a 0 &&& 15, a 0 >>> 4]

/-- A turn of `poly_decompress` for `dv = 5`, where `t` holds bytes. -/
def unpackC5 (a : ℕ → ℕ) : List ℕ := [
  (a 0 >>> 0) % 2 ^ 8 &&& 31,
  (a 0 >>> 5 ||| a 1 <<< 3) % 2 ^ 8 &&& 31,
  (a 1 >>> 2) % 2 ^ 8 &&& 31,
  (a 1 >>> 7 ||| a 2 <<< 1) % 2 ^ 8 &&& 31,
  (a 2 >>> 4 ||| a 3 <<< 4) % 2 ^ 8 &&& 31,
  (a 3 >>> 1) % 2 ^ 8 &&& 31,
  (a 3 >>> 6 ||| a 4 <<< 2) % 2 ^ 8 &&& 31,
  (a 4 >>> 3) % 2 ^ 8 &&& 31]

/-- A turn of `polyvec_decompress` for `du = 10`, where `t` holds 16-bit words. -/
def unpackC10 (a : ℕ → ℕ) : List ℕ := [
  (a 0 >>> 0 ||| a 1 <<< 8) % 2 ^ 16 &&& 0x3FF,
  (a 1 >>> 2 ||| a 2 <<< 6) % 2 ^ 16 &&& 0x3FF,
  (a 2 >>> 4 ||| a 3 <<< 4) % 2 ^ 16 &&& 0x3FF,
  (a 3 >>> 6 ||| a 4 <<< 2) % 2 ^ 16 &&& 0x3FF]

/-- A turn of `polyvec_decompress` for `du = 11`, where `t` holds 16-bit words. -/
def unpackC11 (a : ℕ → ℕ) : List ℕ := [
  (a 0 >>> 0 ||| a 1 <<< 8) % 2 ^ 16 &&& 0x7FF,
  (a 1 >>> 3 ||| a 2 <<< 5) % 2 ^ 16 &&& 0x7FF,
  (a 2 >>> 6 ||| a 3 <<< 2 ||| a 4 <<< 10) % 2 ^ 16 &&& 0x7FF,
  (a 4 >>> 1 ||| a 5 <<< 7) % 2 ^ 16 &&& 0x7FF,
  (a 5 >>> 4 ||| a 6 <<< 4) % 2 ^ 16 &&& 0x7FF,
  (a 6 >>> 7 ||| a 7 <<< 1 ||| a 8 <<< 9) % 2 ^ 16 &&& 0x7FF,
  (a 8 >>> 2 ||| a 9 <<< 6) % 2 ^ 16 &&& 0x7FF,
  (a 9 >>> 5 ||| a 10 <<< 3) % 2 ^ 16 &&& 0x7FF]

/-- A turn of `poly_frombytes`. -/
def unpack12 (a : ℕ → ℕ) : List ℕ := [
  (a 0 >>> 0 ||| a 1 <<< 8) &&& 0xFFF,
  (a 1 >>> 4 ||| a 2 <<< 4) &&& 0xFFF]

/-- A turn of `poly_frommsg`. -/
def unpackMsg (a : ℕ → ℕ) : List ℕ := (List.range 8).map fun j => a 0 >>> j &&& 1

/-! ## Polynomials -/

/-- A loop that encodes `m` coefficients a turn. -/
def packLoop (m : ℕ) (f : ℤ → Chk ℕ) (p : (ℕ → ℕ) → List UInt8) (a : Poly) : Chk (List UInt8) :=
  packGroups (256 / m) fun i =>
    (fun t : Vector ℕ m => p t.rd) <$> Chk.tab m fun j => f (a.rd (m * i + j))

/-- A loop that decodes `nb` bytes to `m` coefficients a turn. -/
def unpackLoop (m nb : ℕ) (u : (ℕ → ℕ) → List ℕ) (f : ℕ → ℤ) (b : Bytes) : Chk Poly :=
  unpackGroups m 256 fun i => pure ((u fun j => (b (nb * i + j)).toNat).map f)

/-- `poly_compress`. -/
def polyCompress (par : MlkemParam) (a : Poly) : Chk (List UInt8) :=
  if par.dv = 4 then packLoop 8 compress4 packC4 a else packLoop 8 compress5 packC5 a

/-- `poly_decompress`. -/
def polyDecompress (par : MlkemParam) (a : Bytes) : Chk Poly :=
  if par.dv = 4 then unpackLoop 2 1 unpackC4 (decompressWord 4) a
  else unpackLoop 8 5 unpackC5 (decompressWord 5) a

/-- `poly_tobytes`. -/
def polyTobytes (a : Poly) : Chk (List UInt8) := packLoop 2 posRep16 pack12 a

/-- `poly_frombytes`. -/
def polyFrombytes (a : Bytes) : Chk Poly := unpackLoop 2 3 unpack12 (fun x => (x : ℤ)) a

/-- `poly_frommsg`. -/
def polyFrommsg (msg : Bytes) : Chk Poly :=
  unpackLoop 8 1 unpackMsg (fun x => cmovInt16 0 ((parQ + 1) / 2) x) msg

/-- `poly_tomsg`. -/
def polyTomsg (a : Poly) : Chk (List UInt8) := packLoop 8 compress1 packMsg a

/-! ## Vectors of polynomials -/

section PolyVec

variable {k : ℕ}

/-- `polyvec_compress`. -/
def polyvecCompress (par : MlkemParam) (a : PolyVec k) : Chk (List UInt8) :=
  packGroups k fun i =>
    if par.du = 11 then packLoop 8 compress11 packC11 (a.rd i)
    else packLoop 4 compress10 packC10 (a.rd i)

/-- `polyvec_decompress`; the pointer moves by the bytes of a polynomial each turn. -/
def polyvecDecompress (par : MlkemParam) (k : ℕ) (a : Bytes) : Chk (PolyVec k) :=
  if par.du = 11 then
    Chk.tab k fun i => unpackLoop 8 11 unpackC11 (decompressWord 11) (a.drop (i * (32 * 11)))
  else
    Chk.tab k fun i => unpackLoop 4 5 unpackC10 (decompressWord 10) (a.drop (i * (64 * 5)))

/-- `polyvec_tobytes`. -/
def polyvecTobytes (a : PolyVec k) : Chk (List UInt8) := packGroups k fun i => polyTobytes (a.rd i)

/-- `polyvec_frombytes`. -/
def polyvecFrombytes (k : ℕ) (a : Bytes) : Chk (PolyVec k) :=
  Chk.tab k fun i => polyFrombytes (a.drop (i * polySz))

end PolyVec

/-! ## Ciphertexts -/

/-- `pack_ciphertext`. -/
def packCiphertext (par : MlkemParam) (b : PolyVec par.k) (v : Poly) : Chk (List UInt8) := do
  let l ← polyvecCompress par b
  let l' ← polyCompress par v
  pure (l ++ l')

/-- `unpack_ciphertext`. -/
def unpackCiphertext (par : MlkemParam) (c : Bytes) : Chk (PolyVec par.k × Poly) := do
  let b ← polyvecDecompress par par.k c
  let v ← polyDecompress par (c.drop (par.k * par.du * (256 / 8)))
  pure (b, v)

end Mlkem
