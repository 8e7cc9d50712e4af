import Karudeb.Lib.Prog
import Karudeb.Lib.Buffer

/-!
# The hash functions, as `fips202.c` computes them

The state is 25 lanes of 64 bits, and `perm` stands for the permutation
`KeccakF1600_StatePermute`.  Message and output are strings; a loop that runs
until all of a message is read, or all of an output is written, is a `Prog`.
Both copies of the file are the same code.
-/

namespace Fips202

/-- `uint64_t s[25]`. -/
abbrev Lanes := Vector (BitVec 64) 25

/-! ## Bytes and lanes -/

/-- `(uint64_t) x << 8 * k`. -/
def laneOf (x : UInt8) (k : ℕ) : BitVec 64 := x.toBitVec.setWidth 64 <<< (8 * k)

/-- `(uint8_t) (u >> 8 * k)`. -/
def byteOf (u : BitVec 64) (k : ℕ) : UInt8 := UInt8.ofBitVec ((u >>> (8 * k)).setWidth 8)

/-- `load64`. -/
def load64 (x : Bytes) : BitVec 64 := (List.range 8).foldl (fun r i => r ||| laneOf (x i) i) 0

/-- `store64`. -/
def store64 (u : BitVec 64) : List UInt8 := (List.range 8).map (byteOf u)

/-- `s[i / 8] ^= (uint64_t) x << 8 * (i % 8)`. -/
def xorByte (s : Lanes) (i : ℕ) (x : UInt8) : Lanes :=
  s.wr (i / 8) (s.rd (i / 8) ^^^ laneOf x (i % 8))

/-- The loop that does this with the bytes `*in++`, from position `i` on. -/
def xorBytes (s : Lanes) (i : ℕ) : List UInt8 → Lanes
  | [] => s
  | x :: l => xorBytes (xorByte s i x) (i + 1) l

/-- `s[i / 8] >> 8 * (i % 8)`, stored into a byte. -/
def byteAt (s : Lanes) (i : ℕ) : UInt8 := byteOf (s.rd (i / 8)) (i % 8)

/-! ## The sponge -/

/-- `keccak_init`. -/
def keccakInit : Lanes := Vector.tab 25 fun _ => 0

/-- The loops of `keccak_absorb`, on the state, the position and what is left to read. -/
def absorbStep (perm : Lanes → Lanes) (r : ℕ) :
    Lanes × ℕ × List UInt8 → (Lanes × ℕ × List UInt8) ⊕ (Lanes × ℕ)
  | (s, pos, inp) =>
    if pos + inp.length ≥ r then
      Sum.inl (perm (xorBytes s pos (inp.take (r - pos))), 0, inp.drop (r - pos))
    else Sum.inr (xorBytes s pos inp, pos + inp.length)

/-- `keccak_absorb`, with the state and the new position. -/
def keccakAbsorb (perm : Lanes → Lanes) (s : Lanes) (pos r : ℕ) (inp : List UInt8) :
    Prog (Lanes × ℕ) :=
  Prog.loop (fun t => pure (absorbStep perm r t)) (s, pos, inp)

/-- `keccak_finalize`. -/
def keccakFinalize (s : Lanes) (pos r : ℕ) (p : UInt8) : Lanes :=
  let s := xorByte s pos p
  s.wr (r / 8 - 1) (s.rd (r / 8 - 1) ^^^ 1 <<< 63)

/-- A turn of the loop of `keccak_squeeze`, on the output so far, the number of bytes that
are left, the state and the position. -/
def squeezeStep (perm : Lanes → Lanes) (r : ℕ) :
    List UInt8 × ℕ × Lanes × ℕ → (List UInt8 × ℕ × Lanes × ℕ) ⊕ (List UInt8 × Lanes × ℕ)
  | (out, outlen, s, pos) =>
    if outlen = 0 then Sum.inr (out, s, pos)
    else
      let (s, pos) := if pos = r then (perm s, 0) else (s, pos)
      let n := min (r - pos) outlen
      Sum.inl (out ++ (List.range n).map fun j => byteAt s (pos + j), outlen - n, s, pos + n)

/-- `keccak_squeeze`, with the output, the state and the new position. -/
def keccakSqueeze (perm : Lanes → Lanes) (outlen : ℕ) (s : Lanes) (pos r : ℕ) :
    Prog (List UInt8 × Lanes × ℕ) :=
  Prog.loop (fun t => pure (squeezeStep perm r t)) ([], outlen, s, pos)

/-- The loops of `keccak_absorb_once`, on the state and what is left to read. -/
def absorbOnceStep (perm : Lanes → Lanes) (r : ℕ) (p : UInt8) :
    Lanes × List UInt8 → (Lanes × List UInt8) ⊕ Lanes
  | (s, inp) =>
    if inp.length ≥ r then
      Sum.inl (perm ((List.range (r / 8)).foldl (fun s i =>
        s.wr i (s.rd i ^^^ load64 ((Bytes.ofList inp).drop (8 * i)))) s), inp.drop r)
    else
      let s := xorBytes s 0 inp
      let s := xorByte s inp.length p
      Sum.inr (s.wr ((r - 1) / 8) (s.rd ((r - 1) / 8) ^^^ 1 <<< 63))

/-- `keccak_absorb_once`. -/
def keccakAbsorbOnce (perm : Lanes → Lanes) (r : ℕ) (inp : List UInt8) (p : UInt8) : Prog Lanes :=
  Prog.loop (fun t => pure (absorbOnceStep perm r p t)) (keccakInit, inp)

/-- `keccak_squeezeblocks`. -/
def keccakSqueezeblocks (perm : Lanes → Lanes) (r : ℕ) : ℕ → Lanes → List UInt8 × Lanes
  | 0, s => ([], s)
  | n + 1, s =>
    let s := perm s
    let (out, s') := keccakSqueezeblocks perm r n s
    ((List.range (r / 8)).flatMap (fun i => store64 (s.rd i)) ++ out, s')

/-! ## The incremental interface

Each function is there once for each rate, which `Xof` chooses. -/

/-- `keccak_state`. -/
structure KeccakState where
  /-- The lanes. -/
  s : Lanes
  /-- The position in the block; it counts bytes absorbed before `finalize`, and bytes
  squeezed behind it. -/
  pos : ℕ

/-- The extendable output functions. -/
inductive Xof
  | shake128
  | shake256
  deriving DecidableEq

/-- `SHAKE128_RATE`, `SHAKE256_RATE`. -/
def Xof.rate : Xof → ℕ
  | shake128 => 168
  | shake256 => 136

section

variable (perm : Lanes → Lanes) (x : Xof)

/-- `shake*_init`. -/
def shakeInit : KeccakState := ⟨keccakInit, 0⟩

/-- `shake*_absorb`. -/
def shakeAbsorb (state : KeccakState) (inp : List UInt8) : Prog KeccakState := do
  let (s, pos) ← keccakAbsorb perm state.s state.pos x.rate inp
  pure ⟨s, pos⟩

/-- `shake*_finalize`. -/
def shakeFinalize (state : KeccakState) : KeccakState :=
  ⟨keccakFinalize state.s state.pos x.rate 0x1F, x.rate⟩

/-- `shake*_squeeze`. -/
def shakeSqueeze (outlen : ℕ) (state : KeccakState) : Prog (List UInt8 × KeccakState) := do
  let (out, s, pos) ← keccakSqueeze perm outlen state.s state.pos x.rate
  pure (out, ⟨s, pos⟩)

/-- `shake*_absorb_once`. -/
def shakeAbsorbOnce (inp : List UInt8) : Prog KeccakState := do
  let s ← keccakAbsorbOnce perm x.rate inp 0x1F
  pure ⟨s, x.rate⟩

/-- `shake*_squeezeblocks`, which leaves the position as it is. -/
def shakeSqueezeblocks (nblocks : ℕ) (state : KeccakState) : List UInt8 × KeccakState :=
  let (out, s) := keccakSqueezeblocks perm x.rate nblocks state.s
  (out, { state with s })

/-- `shake128_absorb`. -/
def shake128Absorb := shakeAbsorb perm .shake128

/-- `shake256_absorb`. -/
def shake256Absorb := shakeAbsorb perm .shake256

/-- `shake128_finalize`. -/
def shake128Finalize := shakeFinalize .shake128

/-- `shake256_finalize`. -/
def shake256Finalize := shakeFinalize .shake256

/-- `shake128_squeeze`. -/
def shake128Squeeze := shakeSqueeze perm .shake128

/-- `shake256_squeeze`. -/
def shake256Squeeze := shakeSqueeze perm .shake256

/-- `shake128_absorb_once`. -/
def shake128AbsorbOnce := shakeAbsorbOnce perm .shake128

/-- `shake256_absorb_once`. -/
def shake256AbsorbOnce := shakeAbsorbOnce perm .shake256

/-- `shake128_squeezeblocks`. -/
def shake128Squeezeblocks := shakeSqueezeblocks perm .shake128

/-- `shake256_squeezeblocks`. -/
def shake256Squeezeblocks := shakeSqueezeblocks perm .shake256

/-! ## The functions that are called once -/

/-- `shake128` and `shake256`. -/
def shake (outlen : ℕ) (inp : List UInt8) : Prog (List UInt8) := do
  let state ← shakeAbsorbOnce perm x inp
  let nblocks := outlen / x.rate
  let (out, state) := shakeSqueezeblocks perm x nblocks state
  let (out', _) ← shakeSqueeze perm x (outlen - nblocks * x.rate) state
  pure (out ++ out')

/-- `shake128`. -/
def shake128 := shake perm .shake128

/-- `shake256`. -/
def shake256 := shake perm .shake256

/-- `sha3_256` and `sha3_512`, with the rate and the number of lanes of the digest. -/
def sha3With (r n : ℕ) (inp : List UInt8) : Prog (List UInt8) := do
  let s ← keccakAbsorbOnce perm r inp 0x06
  let s := perm s
  pure ((List.range n).flatMap fun i => store64 (s.rd i))

/-- `sha3_256`. -/
def sha3_256 : List UInt8 → Prog (List UInt8) := sha3With perm 136 4

/-- `sha3_512`. -/
def sha3_512 : List UInt8 → Prog (List UInt8) := sha3With perm 72 8

end

end Fips202
