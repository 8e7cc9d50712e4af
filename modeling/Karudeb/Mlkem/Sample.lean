import Karudeb.Lib.Prog
import Karudeb.Lib.Shake
import Karudeb.Mlkem.Compress

/-!
# ML-KEM: sampling

The matrix sampler of `mlkem_kpke.c`, the noise samplers of `cbd.c` and
`mlkem_poly.c`, and what `symmetric-shake.c` makes of the hash functions.  Both
builds are here: `mlkem_rej_uniform` of `rvv_poly.c` and the samplers of
`cbd_rvv.c` are read lane by lane.
-/

namespace Mlkem

open Word Rvv

/-! ## Hash functions -/

/-- `MLKEM_SYM_SZ`, also `MLKEM_SS_SZ` and `MLKEM_MSG_SZ`. -/
abbrev symSz : ℕ := 32

/-- `hash_h`. -/
def hashH (H : Hash) (m : List UInt8) : List UInt8 := (H.sha3_256 m).take 32

/-- `hash_g`. -/
def hashG (H : Hash) (m : List UInt8) : List UInt8 := (H.sha3_512 m).take 64

/-- `kyber_shake128_absorb`, or `xof_absorb`. -/
def xofAbsorb (seed : Bytes) (x y : ℕ) : KeccakState :=
  shakeFinalize (shakeAbsorb shakeInit (seed.take symSz ++ [UInt8.ofNat x, UInt8.ofNat y]))

/-- `kyber_shake256_prf`, or `prf`. -/
def prf (H : Hash) (outlen : ℕ) (key : Bytes) (nonce : ℕ) : List UInt8 :=
  shake256 H outlen (key.take symSz ++ [UInt8.ofNat nonce])

/-- `kyber_shake256_rkprf`. -/
def shake256Rkprf (H : Hash) (par : MlkemParam) (key ctIn : Bytes) : List UInt8 :=
  let s := shakeInit
  let s := shakeAbsorb s (key.take symSz)
  let s := shakeAbsorb s (ctIn.take par.ctSz)
  let s := shakeFinalize s
  (shake256Squeeze H symSz s).1

/-! ## Uniform coefficients -/

/-- Where `mlkem_rej_uniform` stands. -/
structure RejCursor where
  /-- How many coefficients were written. -/
  ctr : ℕ
  /-- The next byte of the buffer. -/
  pos : ℕ
  /-- The memory that is written to. -/
  r : ℕ → ℤ

/-- Write `val` behind what was written, if it is below the modulus. -/
def rejStore (o : ℕ) (s : RejCursor) (val : ℕ) : RejCursor :=
  if val < 3329 then ⟨s.ctr + 1, s.pos, Mem.put s.r (o + s.ctr) [(val : ℤ)]⟩ else s

/-- The loop of the scalar `mlkem_rej_uniform`.  The pointer `r` of the source is cell `o`, and
`pos` is a 32-bit number. -/
def rejScalar (o len : ℕ) (buf : Bytes) (buflen : ℕ) : RejCursor → Prog (ℕ × (ℕ → ℤ)) :=
  Prog.loop fun s => pure (
    if s.ctr < len ∧ (s.pos + 3) % 2 ^ 32 ≤ buflen then
      let b0 := (buf s.pos).toNat
      let b1 := (buf ((s.pos + 1) % 2 ^ 32)).toNat
      let b2 := (buf ((s.pos + 2) % 2 ^ 32)).toNat
      let val0 := (b0 >>> 0 ||| b1 <<< 8) &&& 0xFFF
      let val1 := (b1 >>> 4 ||| b2 <<< 4) &&& 0xFFF
      let s := { s with pos := (s.pos + 3) % 2 ^ 32 }
      let s := rejStore o s val0
      let s := if s.ctr < len then rejStore o s val1 else s
      Sum.inl s
    else Sum.inr (s.ctr, s.r))

/-- A turn of the vector loop: sixteen candidates. -/
def rejVector (o len : ℕ) (buf : Bytes) (s : RejCursor) : RejCursor :=
  let vl := 16
  let vl23 := 12
  let vid := vidV vl
  let srl12v := vmuluVX 16 vid 12
  let sel12v := vsrlVX srl12v 4
  let sll12v := vsllVX 16 vid 2
  let x := vle16V (buf.drop s.pos) vl23
  let pos := s.pos + vl23 * 2
  let x := vrgatherVV x sel12v
  let x := vorVV (vsrlVV 16 x srl12v) (vsllVV 16 (vslidedownuVX x 1) sll12v)
  let x := vandVX x 0xFFF
  let lt := vmsltuVX x 3329
  let y := vcompressVM x lt
  let n := vcpopM lt
  let n := if s.ctr + n > len then len - s.ctr else n
  ⟨s.ctr + n, pos, vseV 16 s.r (o + s.ctr) y n⟩

/-- The vector `mlkem_rej_uniform`, whose counters are 64-bit numbers. -/
def rejVectorLoop (o len : ℕ) (buf : Bytes) (buflen : ℕ) : RejCursor → Prog (ℕ × (ℕ → ℤ)) :=
  Prog.loop fun s => pure (
    if s.ctr < len ∧ s.pos + 12 * 2 ≤ buflen then Sum.inl (rejVector o len buf s)
    else Sum.inr (s.ctr, s.r))

/-- `mlkem_rej_uniform`: the number of coefficients written, and the memory after. -/
def mlkemRejUniform (build : Build) (r : ℕ → ℤ) (o len : ℕ) (buf : Bytes) (buflen : ℕ) :
    Prog (ℕ × (ℕ → ℤ)) :=
  match build with
  | .scalar => rejScalar o len buf buflen ⟨0, 0, r⟩
  | .rvv => rejVectorLoop o len buf buflen ⟨0, 0, r⟩

/-- `XOF_BLOCKBYTES`. -/
abbrev xofBlockbytes : ℕ := shake128Rate

/-- `GEN_MATRIX_NBLOCKS`. -/
abbrev genMatrixNblocks : ℕ :=
  (12 * 256 / 8 * (1 <<< 12) / 3329 + xofBlockbytes) / xofBlockbytes

/-- What `gen_matrix` keeps from turn to turn of the loop over one entry. -/
structure EntryState where
  /-- How many coefficients were written. -/
  ctr : ℕ
  /-- The memory that is written to. -/
  r : ℕ → ℤ
  /-- The buffer. -/
  buf : Bytes
  /-- The sponge. -/
  state : KeccakState

/-- The body of the inner loop of `gen_matrix`. -/
def genEntryStep (build : Build) (H : Hash) (s : EntryState) : Prog EntryState := do
  let (blk, state) := shake128Squeezeblocks H 1 s.state
  let buf := s.buf.put 0 blk
  let t ← mlkemRejUniform build s.r s.ctr (256 - s.ctr) buf xofBlockbytes
  pure ⟨s.ctr + t.1, t.2, buf, state⟩

/-- What `gen_matrix` does for one entry, whose memory is `r`, with the buffer as it is. -/
def genEntry (build : Build) (H : Hash) (seed : Bytes) (x y : ℕ) (r : ℕ → ℤ) (buf : Bytes) :
    Prog (ℕ → ℤ) := do
  let (blk, state) := shake128Squeezeblocks H genMatrixNblocks (xofAbsorb seed x y)
  let buf := buf.put 0 blk
  let t ← mlkemRejUniform build r 0 256 buf (genMatrixNblocks * xofBlockbytes)
  Prog.loop (fun s : EntryState =>
    if s.ctr < 256 then Sum.inl <$> genEntryStep build H s else pure (Sum.inr s.r))
    ⟨t.1, t.2, buf, state⟩

/-- The polynomial that 256 cells hold. -/
def ofCells (r : ℕ → ℤ) : Poly := Vector.tab 256 r

/-- `gen_matrix`; the entries and the buffer start as zeros here, which no entry keeps. -/
def genMatrix (build : Build) (H : Hash) (par : MlkemParam) (seed : Bytes) (transposed : Bool) :
    Prog (Vector (PolyVec par.k) par.k) :=
  Prog.tab par.k fun i => Prog.tab par.k fun j =>
    ofCells <$> (if transposed then genEntry build H seed i j (fun _ => 0) (fun _ => 0)
      else genEntry build H seed j i (fun _ => 0) (fun _ => 0))

/-! ## Noise -/

/-- `load32_littleendian`. -/
def load32Littleendian (x : Bytes) : ℕ :=
  (x 0).toNat ||| (x 1).toNat <<< 8 ||| (x 2).toNat <<< 16 ||| (x 3).toNat <<< 24

/-- `load24_littleendian`. -/
def load24Littleendian (x : Bytes) : ℕ :=
  (x 0).toNat ||| (x 1).toNat <<< 8 ||| (x 2).toNat <<< 16

/-- `cbd2`. -/
def cbd2 (buf : Bytes) : Poly :=
  Butterfly.ofRegs 256 (Vector.tab 32 fun i =>
    let t := load32Littleendian (buf.drop (4 * i))
    let d := t &&& 0x55555555
    let d := (d + (t >>> 1 &&& 0x55555555)) % 2 ^ 32
    (Vector.tab 8 fun j =>
      let a := d >>> (4 * j + 0) &&& 0x3
      let b := d >>> (4 * j + 2) &&& 0x3
      (a : ℤ) - b))

/-- `cbd3`. -/
def cbd3 (buf : Bytes) : Poly :=
  Butterfly.ofRegs 256 (Vector.tab 64 fun i =>
    let t := load24Littleendian (buf.drop (3 * i))
    let d := t &&& 0x00249249
    let d := (d + (t >>> 1 &&& 0x00249249)) % 2 ^ 32
    let d := (d + (t >>> 2 &&& 0x00249249)) % 2 ^ 32
    (Vector.tab 4 fun j =>
      let a := d >>> (6 * j + 0) &&& 0x7
      let b := d >>> (6 * j + 3) &&& 0x7
      (a : ℤ) - b))

/-- The body of the loop of `cbd2_rvv`. -/
def cbd2Reg (b : Vector ℕ 16) : Vector ℤ (2 * 16) :=
  let d := vadduVV 8 (vandVX b 0x55) (vandVX (vsrlVX b 1) 0x55)
  let c0u := vsubuVV 8 (vandVX d 0x3) (vandVX (vsrlVX d 2) 0x3)
  let c1u := vsubuVV 8 (vandVX (vsrlVX d 4) 0x3) (vsrlVX d 6)
  -- sign extension keeps the values
  let c0w := vreinterpretV 8 c0u
  let c1w := vreinterpretV 8 c1u
  interleaveV 2 fun f => if f = 0 then c0w else c1w

/-- `cbd2_rvv`. -/
def cbd2Rvv (buf : Bytes) : Poly :=
  Butterfly.ofRegs 256 (Vector.tab 8 fun i => cbd2Reg (vle8V (buf.drop (16 * i)) 16))

/-- The body of the first loop of `cbd3_rvv`, on the three fields of eight segments. -/
def cbd3Reg (raw : ℕ → Vector ℕ 8) : Vector ℤ (4 * 8) :=
  let m := 0x00249249
  let t := raw 0
  let t := vorVV t (vsllVX 32 (raw 1) 8)
  let t := vorVV t (vsllVX 32 (raw 2) 16)
  let d := vandVX t m
  let d := vadduVV 32 d (vandVX (vsrlVX t 1) m)
  let d := vadduVV 32 d (vandVX (vsrlVX t 2) m)
  let c0 := vsubuVV 32 (vandVX d 0x7) (vandVX (vsrlVX d 3) 0x7)
  let c1 := vsubuVV 32 (vandVX (vsrlVX d 6) 0x7) (vandVX (vsrlVX d 9) 0x7)
  let c2 := vsubuVV 32 (vandVX (vsrlVX d 12) 0x7) (vandVX (vsrlVX d 15) 0x7)
  let c3 := vsubuVV 32 (vandVX (vsrlVX d 18) 0x7) (vsrlVX d 21)
  interleaveV 4 fun f => vreinterpretV 32 (if f = 0 then c0 else if f = 1 then c1
    else if f = 2 then c2 else c3)

/-- `cbd3_rvv`, which narrows what it stored in a second loop. -/
def cbd3Rvv (buf : Bytes) : Poly :=
  let tmp : Vector ℤ 256 := Butterfly.ofRegs 256 (Vector.tab 8 fun i =>
    cbd3Reg (vlseg3e8V (buf.drop (24 * i)) 8))
  Butterfly.ofRegs 256 (Vector.tab 16 fun j => vncvtXXW 16 (tmp.slice (16 * j) 16))

/-- `poly_cbd_eta1`. -/
def polyCbdEta1 (build : Build) (par : MlkemParam) (buf : Bytes) : Poly :=
  match build with
  | .scalar => if par.eta1 = 2 then cbd2 buf else cbd3 buf
  | .rvv => if par.eta1 = 2 then cbd2Rvv buf else cbd3Rvv buf

/-- `poly_cbd_eta2`. -/
def polyCbdEta2 (build : Build) (buf : Bytes) : Poly :=
  match build with
  | .scalar => cbd2 buf
  | .rvv => cbd2Rvv buf

/-- `poly_getnoise_eta1`. -/
def polyGetnoiseEta1 (build : Build) (H : Hash) (par : MlkemParam) (seed : Bytes) (nonce : ℕ) :
    Poly :=
  polyCbdEta1 build par (Bytes.ofList (prf H (par.eta1 * (256 / 4)) seed nonce))

/-- `poly_getnoise_eta2`. -/
def polyGetnoiseEta2 (build : Build) (H : Hash) (seed : Bytes) (nonce : ℕ) : Poly :=
  polyCbdEta2 build (Bytes.ofList (prf H (parEta2 * 256 / 4) seed nonce))

end Mlkem
