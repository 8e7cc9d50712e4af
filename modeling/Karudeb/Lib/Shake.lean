import Karudeb.Lib.Buffer

/-!
# The hash functions, and the incremental interface to them

A sponge is used through the bytes it gives for a message: `Hash` is any choice
of these.  `KeccakState` is the functional reading of a `keccak_state`: what was
absorbed so far, and how many bytes were squeezed out again.
-/

/-- A choice of hash functions: the endless output of each extendable one and the
digest of each other, for every message. -/
structure Hash where
  /-- `SHAKE128`. -/
  shake128 : List UInt8 → Bytes
  /-- `SHAKE256`. -/
  shake256 : List UInt8 → Bytes
  /-- `SHA3-256`, 32 bytes. -/
  sha3_256 : List UInt8 → Bytes
  /-- `SHA3-512`, 64 bytes. -/
  sha3_512 : List UInt8 → Bytes

/-- Hash functions that always give zeros. -/
def zeroHash : Hash := ⟨fun _ _ => 0, fun _ _ => 0, fun _ _ => 0, fun _ _ => 0⟩

/-- `keccak_state`. -/
structure KeccakState where
  /-- What was absorbed. -/
  msg : List UInt8
  /-- How many bytes were squeezed. -/
  pos : ℕ

/-- `shake128_init`, `shake256_init`. -/
def shakeInit : KeccakState := ⟨[], 0⟩

/-- `shake128_absorb`, `shake256_absorb`. -/
def shakeAbsorb (st : KeccakState) (m : List UInt8) : KeccakState := { st with msg := st.msg ++ m }

/-- `shake128_finalize`, `shake256_finalize`. -/
def shakeFinalize (st : KeccakState) : KeccakState := { st with pos := 0 }

/-- Take the next `n` bytes of the output `f`. -/
def squeeze (f : List UInt8 → Bytes) (n : ℕ) (st : KeccakState) : List UInt8 × KeccakState :=
  (((f st.msg).drop st.pos).take n, { st with pos := st.pos + n })

/-- `SHAKE128_RATE`. -/
abbrev shake128Rate : ℕ := 168

/-- `SHAKE256_RATE`. -/
abbrev shake256Rate : ℕ := 136

/-- `shake128_squeezeblocks`. -/
def shake128Squeezeblocks (H : Hash) (nblocks : ℕ) (st : KeccakState) :
    List UInt8 × KeccakState :=
  squeeze H.shake128 (nblocks * shake128Rate) st

/-- `shake256_squeezeblocks`. -/
def shake256Squeezeblocks (H : Hash) (nblocks : ℕ) (st : KeccakState) :
    List UInt8 × KeccakState :=
  squeeze H.shake256 (nblocks * shake256Rate) st

/-- `shake256_squeeze`. -/
def shake256Squeeze (H : Hash) (outlen : ℕ) (st : KeccakState) : List UInt8 × KeccakState :=
  squeeze H.shake256 outlen st

/-- `shake128`. -/
def shake128 (H : Hash) (outlen : ℕ) (m : List UInt8) : List UInt8 := (H.shake128 m).take outlen

/-- `shake256`. -/
def shake256 (H : Hash) (outlen : ℕ) (m : List UInt8) : List UInt8 := (H.shake256 m).take outlen
