import Karudeb.Lib.Bits
import Karudeb.Mldsa.Poly

/-!
# ML-DSA: packing polynomials

The hand-written bit packers of `mldsa_poly.c`, each a loop over groups of
coefficients that fill whole bytes.  One turn of a packer takes the coefficients
of its group, as unsigned numbers, to bytes; one turn of an unpacker takes bytes
to such numbers.  Where a function does nothing for a parameter no set has (an
`eta` other than 2 and 4, a `gamma1` other than `2^17` and `2^19`), a packer
writes no bytes and an unpacker leaves zeros.
-/

namespace Mldsa

open Word Bits

/-- The low byte of `x | y` for 32-bit words `x` and `y`. -/
def orByte (x y : ℤ) : UInt8 := UInt8.ofNat (unsigned 32 x ||| unsigned 32 y)

/-- The array `t` of a packer: `m` coefficients from entry `o` on, subtracted from
`b` and stored as unsigned `w`-bit words. -/
def subFrom (w m : ℕ) (b : ℤ) (a : Poly) (o : ℕ) : Chk (Vector ℕ m) :=
  Chk.tab m fun j => unsigned w <$> Chk.word 32 (b - a.rd (o + j))

/-- The end of a turn of an unpacker: each entry is subtracted from `b`. -/
def subAll (b : ℤ) (l : List ℕ) : Chk (List ℤ) := l.mapM fun x : ℕ => Chk.word 32 (b - (x : ℤ))

/-! ## Secret vectors -/

/-- A turn of `polyeta_pack` for `eta = 2`. -/
def packEta2 (t : ℕ → ℕ) : List UInt8 := [
  UInt8.ofNat (t 0 >>> 0 ||| t 1 <<< 3 ||| t 2 <<< 6),
  UInt8.ofNat (t 2 >>> 2 ||| t 3 <<< 1 ||| t 4 <<< 4 ||| t 5 <<< 7),
  UInt8.ofNat (t 5 >>> 1 ||| t 6 <<< 2 ||| t 7 <<< 5)]

/-- A turn of `polyeta_pack` for `eta = 4`. -/
def packEta4 (t : ℕ → ℕ) : List UInt8 := [UInt8.ofNat (t 0 ||| t 1 <<< 4)]

/-- `polyeta_pack`. -/
def polyetaPack (par : MldsaParam) (a : Poly) : Chk (List UInt8) :=
  if par.eta = 2 then
    packGroups 32 fun i => (fun t => packEta2 t.rd) <$> subFrom 8 8 2 a (8 * i)
  else if par.eta = 4 then
    packGroups 128 fun i => (fun t => packEta4 t.rd) <$> subFrom 8 2 4 a (2 * i)
  else
    pure []

/-- A turn of `polyeta_unpack` for `eta = 2`. -/
def unpackEta2 (a : ℕ → ℕ) : List ℕ := [
  a 0 >>> 0 &&& 7,
  a 0 >>> 3 &&& 7,
  (a 0 >>> 6 ||| a 1 <<< 2) &&& 7,
  a 1 >>> 1 &&& 7,
  a 1 >>> 4 &&& 7,
  (a 1 >>> 7 ||| a 2 <<< 1) &&& 7,
  a 2 >>> 2 &&& 7,
  a 2 >>> 5 &&& 7]

/-- A turn of `polyeta_unpack` for `eta = 4`. -/
def unpackEta4 (a : ℕ → ℕ) : List ℕ := [a 0 &&& 0x0F, a 0 >>> 4]

/-- `polyeta_unpack`. -/
def polyetaUnpack (par : MldsaParam) (p : Bytes) : Chk Poly :=
  if par.eta = 2 then
    unpackGroups 8 256 fun i => subAll 2 (unpackEta2 fun j => (p (3 * i + j)).toNat)
  else if par.eta = 4 then
    unpackGroups 2 256 fun i => subAll 4 (unpackEta4 fun j => (p (1 * i + j)).toNat)
  else
    pure (Vector.tab 256 fun _ => 0)

/-! ## Public vectors -/

/-- A turn of `polyt1_pack`. -/
def packT1 (a : ℕ → ℤ) : Chk (List UInt8) := do
  let s1 ← shl (a 1) 2
  let s2 ← shl (a 2) 4
  let s3 ← shl (a 3) 6
  pure [
    orByte (a 0) 0,
    orByte (a 0 / 2 ^ 8) s1,
    orByte (a 1 / 2 ^ 6) s2,
    orByte (a 2 / 2 ^ 4) s3,
    orByte (a 3 / 2 ^ 2) 0]

/-- `polyt1_pack`. -/
def polyt1Pack (a : Poly) : Chk (List UInt8) :=
  packGroups 64 fun i => packT1 fun j => a.rd (4 * i + j)

/-- A turn of `polyt1_unpack`. -/
def unpackT1 (a : ℕ → ℕ) : List ℕ := [
  (a 0 >>> 0 ||| a 1 <<< 8) &&& 0x3FF,
  (a 1 >>> 2 ||| a 2 <<< 6) &&& 0x3FF,
  (a 2 >>> 4 ||| a 3 <<< 4) &&& 0x3FF,
  (a 3 >>> 6 ||| a 4 <<< 2) &&& 0x3FF]

/-- `polyt1_unpack`. -/
def polyt1Unpack (p : Bytes) : Chk Poly :=
  unpackGroups 4 256 fun i =>
    pure ((unpackT1 fun j => (p (5 * i + j)).toNat).map fun x : ℕ => (x : ℤ))

/-- A turn of `polyt0_pack`. -/
def packT0 (t : ℕ → ℕ) : List UInt8 := [
  UInt8.ofNat (t 0),
  UInt8.ofNat (t 0 >>> 8 ||| t 1 <<< 5),
  UInt8.ofNat (t 1 >>> 3),
  UInt8.ofNat (t 1 >>> 11 ||| t 2 <<< 2),
  UInt8.ofNat (t 2 >>> 6 ||| t 3 <<< 7),
  UInt8.ofNat (t 3 >>> 1),
  UInt8.ofNat (t 3 >>> 9 ||| t 4 <<< 4),
  UInt8.ofNat (t 4 >>> 4),
  UInt8.ofNat (t 4 >>> 12 ||| t 5 <<< 1),
  UInt8.ofNat (t 5 >>> 7 ||| t 6 <<< 6),
  UInt8.ofNat (t 6 >>> 2),
  UInt8.ofNat (t 6 >>> 10 ||| t 7 <<< 3),
  UInt8.ofNat (t 7 >>> 5)]

/-- `polyt0_pack`. -/
def polyt0Pack (a : Poly) : Chk (List UInt8) :=
  packGroups 32 fun i => (fun t => packT0 t.rd) <$> subFrom 32 8 (2 ^ (parD - 1)) a (8 * i)

/-- A turn of `polyt0_unpack`. -/
def unpackT0 (a : ℕ → ℕ) : List ℕ := [
  (a 0 ||| a 1 <<< 8) &&& 0x1FFF,
  (a 1 >>> 5 ||| a 2 <<< 3 ||| a 3 <<< 11) &&& 0x1FFF,
  (a 3 >>> 2 ||| a 4 <<< 6) &&& 0x1FFF,
  (a 4 >>> 7 ||| a 5 <<< 1 ||| a 6 <<< 9) &&& 0x1FFF,
  (a 6 >>> 4 ||| a 7 <<< 4 ||| a 8 <<< 12) &&& 0x1FFF,
  (a 8 >>> 1 ||| a 9 <<< 7) &&& 0x1FFF,
  (a 9 >>> 6 ||| a 10 <<< 2 ||| a 11 <<< 10) &&& 0x1FFF,
  (a 11 >>> 3 ||| a 12 <<< 5) &&& 0x1FFF]

/-- `polyt0_unpack`. -/
def polyt0Unpack (p : Bytes) : Chk Poly :=
  unpackGroups 8 256 fun i =>
    subAll (2 ^ (parD - 1)) (unpackT0 fun j => (p (13 * i + j)).toNat)

/-! ## Responses and commitments -/

/-- A turn of `polyz_pack` for `gamma1 = 2^17`. -/
def packZ17 (t : ℕ → ℕ) : List UInt8 := [
  UInt8.ofNat (t 0),
  UInt8.ofNat (t 0 >>> 8),
  UInt8.ofNat (t 0 >>> 16 ||| t 1 <<< 2),
  UInt8.ofNat (t 1 >>> 6),
  UInt8.ofNat (t 1 >>> 14 ||| t 2 <<< 4),
  UInt8.ofNat (t 2 >>> 4),
  UInt8.ofNat (t 2 >>> 12 ||| t 3 <<< 6),
  UInt8.ofNat (t 3 >>> 2),
  UInt8.ofNat (t 3 >>> 10)]

/-- A turn of `polyz_pack` for `gamma1 = 2^19`. -/
def packZ19 (t : ℕ → ℕ) : List UInt8 := [
  UInt8.ofNat (t 0),
  UInt8.ofNat (t 0 >>> 8),
  UInt8.ofNat (t 0 >>> 16 ||| t 1 <<< 4),
  UInt8.ofNat (t 1 >>> 4),
  UInt8.ofNat (t 1 >>> 12)]

/-- `polyz_pack`. -/
def polyzPack (par : MldsaParam) (a : Poly) : Chk (List UInt8) :=
  if par.gamma1 = 1 <<< 17 then
    packGroups 64 fun i => (fun t => packZ17 t.rd) <$> subFrom 32 4 (2 ^ 17) a (4 * i)
  else if par.gamma1 = 1 <<< 19 then
    packGroups 128 fun i => (fun t => packZ19 t.rd) <$> subFrom 32 2 (2 ^ 19) a (2 * i)
  else
    pure []

/-- A turn of `polyz_unpack` for `gamma1 = 2^17`. -/
def unpackZ17 (a : ℕ → ℕ) : List ℕ := [
  (a 0 ||| a 1 <<< 8 ||| a 2 <<< 16) &&& 0x3FFFF,
  (a 2 >>> 2 ||| a 3 <<< 6 ||| a 4 <<< 14) &&& 0x3FFFF,
  (a 4 >>> 4 ||| a 5 <<< 4 ||| a 6 <<< 12) &&& 0x3FFFF,
  (a 6 >>> 6 ||| a 7 <<< 2 ||| a 8 <<< 10) &&& 0x3FFFF]

/-- A turn of `polyz_unpack` for `gamma1 = 2^19`, where the second mask is not
applied. -/
def unpackZ19 (a : ℕ → ℕ) : List ℕ := [
  (a 0 ||| a 1 <<< 8 ||| a 2 <<< 16) &&& 0xFFFFF,
  a 2 >>> 4 ||| a 3 <<< 4 ||| a 4 <<< 12]

/-- `polyz_unpack`. -/
def polyzUnpack (par : MldsaParam) (p : Bytes) : Chk Poly :=
  if par.gamma1 = 1 <<< 17 then
    unpackGroups 4 256 fun i => subAll (2 ^ 17) (unpackZ17 fun j => (p (9 * i + j)).toNat)
  else if par.gamma1 = 1 <<< 19 then
    unpackGroups 2 256 fun i => subAll (2 ^ 19) (unpackZ19 fun j => (p (5 * i + j)).toNat)
  else
    pure (Vector.tab 256 fun _ => 0)

/-- A turn of `polyw1_pack` for `gamma2 = (Q - 1) / 88`. -/
def packW88 (a : ℕ → ℤ) : Chk (List UInt8) := do
  let s1 ← shl (a 1) 6
  let s2 ← shl (a 2) 4
  let s3 ← shl (a 3) 2
  pure [orByte (a 0) s1, orByte (a 1 / 2 ^ 2) s2, orByte (a 2 / 2 ^ 4) s3]

/-- A turn of `polyw1_pack` for `gamma2 = (Q - 1) / 32`. -/
def packW32 (a : ℕ → ℤ) : Chk (List UInt8) := do
  let s1 ← shl (a 1) 4
  pure [orByte (a 0) s1]

/-- `polyw1_pack`. -/
def polyw1Pack (par : MldsaParam) (a : Poly) : Chk (List UInt8) :=
  if par.gamma2 = (8380417 - 1) / 88 then
    packGroups 64 fun i => packW88 fun j => a.rd (4 * i + j)
  else
    packGroups 128 fun i => packW32 fun j => a.rd (2 * i + j)

end Mldsa
