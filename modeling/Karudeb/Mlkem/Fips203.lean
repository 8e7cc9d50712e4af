import Karudeb.Lib.Bits
import Karudeb.Lib.Ntt
import Karudeb.Lib.Reject
import Karudeb.Lib.Shake
import Karudeb.Mlkem.Reduce
import Mathlib.Algebra.QuadraticAlgebra.Basic

/-!
# ML-KEM: the mathematics of FIPS 203

What the standard says, in its own terms: the ring, the transform, compression
and encoding.  Nothing here is translated from the code.

* `ntt_mul_even`, `ntt_mul_odd` : products are computed pair by pair of entries.
-/

namespace Fips203

open Mlkem

/-! ## The ring and the transform -/

/-- `R_q = Z_q[X] / (X^256 + 1)`. -/
abbrev Rq : Type := Negacyclic Zq 256

/-- `BitRev7`, the number with the seven binary digits of `n` in the opposite order. -/
def bitRev7 (n : ℕ) : ℕ := (List.range 7).foldl (fun r i => 2 * r + n / 2 ^ i % 2) 0

/-- `zeta^(2*BitRev7(i)+1)`, the constant of the modulus that pair `i` of a transform belongs to. -/
def gamma (i : ℕ) : Zq := 17 ^ (2 * bitRev7 i + 1)

/-- The residues modulo `X^2 - gamma i`. -/
abbrev Residue (i : ℕ) : Type := QuadraticAlgebra Zq (gamma i) 0

/-- The residue of `X`. -/
def residueX (i : ℕ) : Residue i := ⟨0, 1⟩

theorem zeta_pow : (17 : Zq) ^ 128 = -1 := by decide +kernel

theorem gamma_pow (i : ℕ) : gamma i ^ 128 = -1 := by
  unfold gamma
  rw [← pow_mul, mul_comm, pow_mul, zeta_pow]
  exact Odd.neg_one_pow ⟨bitRev7 i, rfl⟩

theorem residueX_sq (i : ℕ) : residueX i ^ 2 = algebraMap Zq (Residue i) (gamma i) := by
  rw [pow_two]
  refine QuadraticAlgebra.ext ?_ ?_ <;> simp [residueX]

theorem residueX_pow (i : ℕ) : residueX i ^ 256 = -1 := by
  rw [show 256 = 2 * 128 from rfl, pow_mul, residueX_sq, ← map_pow, gamma_pow, map_neg, map_one]

/-- The residue modulo `X^2 - gamma i`. -/
noncomputable def residue (i : ℕ) : Rq →+* Residue i :=
  Negacyclic.valueAt (residueX i) (residueX_pow i)

/-- Entry `k` of `NTT(w)`: the entries `2 * i` and `2 * i + 1` are the coefficients of the
residue of `w` modulo `X^2 - gamma i`. -/
noncomputable def ntt (w : Rq) (k : ℕ) : Zq :=
  if k % 2 = 0 then (residue (k / 2) w).re else (residue (k / 2) w).im

theorem ntt_even (w : Rq) (i : ℕ) : ntt w (2 * i) = (residue i w).re := by
  unfold ntt
  rw [if_pos (by omega), Nat.mul_div_cancel_left i (by norm_num)]

theorem ntt_odd (w : Rq) (i : ℕ) : ntt w (2 * i + 1) = (residue i w).im := by
  unfold ntt
  rw [if_neg (by omega), show (2 * i + 1) / 2 = i by omega]

theorem ntt_add (u v : Rq) (k : ℕ) : ntt (u + v) k = ntt u k + ntt v k := by
  unfold ntt
  rw [map_add]
  split
  · rfl
  · rfl

theorem ntt_sub (u v : Rq) (k : ℕ) : ntt (u - v) k = ntt u k - ntt v k := by
  unfold ntt
  rw [map_sub]
  split
  · rfl
  · rfl

theorem ntt_zero (k : ℕ) : ntt 0 k = 0 := by
  unfold ntt
  rw [map_zero]
  split
  · rfl
  · rfl

/-- **`BaseCaseMultiply`**, the even entry. -/
theorem ntt_mul_even (u v : Rq) (i : ℕ) : ntt (u * v) (2 * i) =
    ntt u (2 * i) * ntt v (2 * i) + gamma i * (ntt u (2 * i + 1) * ntt v (2 * i + 1)) := by
  simp only [ntt_even, ntt_odd, map_mul, QuadraticAlgebra.re_mul, mul_assoc]

/-- **`BaseCaseMultiply`**, the odd entry. -/
theorem ntt_mul_odd (u v : Rq) (i : ℕ) : ntt (u * v) (2 * i + 1) =
    ntt u (2 * i) * ntt v (2 * i + 1) + ntt u (2 * i + 1) * ntt v (2 * i) := by
  simp only [ntt_even, ntt_odd, map_mul, QuadraticAlgebra.im_mul, zero_mul, add_zero]

/-- The ring element with given coefficients. -/
noncomputable def ofInts (f : ℕ → ℤ) : Rq := Negacyclic.ofCoeffs 256 fun i => (f i : Zq)

theorem degree_pos : 0 < 256 := by norm_num

/-- Coefficient `k` of a ring element, from 0 to `q - 1`. -/
noncomputable def std (w : Rq) (k : ℕ) : ℤ := (Negacyclic.coeff degree_pos w k).val

/-! ## Compression and encoding -/

/-- `Compress_d(x)`, the nearest integer to `2^d * x / q` modulo `2^d`. -/
def compress (d x : ℕ) : ℕ := (2 ^ (d + 1) * x + 3329) / (2 * 3329) % 2 ^ d

/-- `Decompress_d(y)`, the nearest integer to `q * y / 2^d`. -/
def decompress (d y : ℕ) : ℕ := (2 * 3329 * y + 2 ^ d) / 2 ^ (d + 1)

/-- `ByteEncode_d(F)`. -/
def byteEncode (d : ℕ) (f : ℕ → ℕ) : List UInt8 := Bits.pack d f (32 * d)

/-- Entry `k` of `ByteDecode_d(B)`, before it is taken modulo `q` for `d = 12`. -/
def byteDecode (d : ℕ) (b : Bytes) (k : ℕ) : ℕ := Bits.unpack d b k

theorem compress_lt (d x : ℕ) : compress d x < 2 ^ d := Nat.mod_lt _ (Nat.two_pow_pos d)

theorem byteDecode_lt (d : ℕ) (b : Bytes) (k : ℕ) : byteDecode d b k < 2 ^ d := Bits.unpack_lt d b k

theorem length_byteEncode (d : ℕ) (f : ℕ → ℕ) : (byteEncode d f).length = 32 * d :=
  Bits.length_pack _

theorem byteEncode_congr {d : ℕ} {f g : ℕ → ℕ} (h : ∀ k < 256, f k = g k) :
    byteEncode d f = byteEncode d g :=
  Bits.pack_congr h (by omega)

theorem byteEncode_byteDecode {d : ℕ} (hd : 0 < d) (b : Bytes) :
    byteEncode d (byteDecode d b) = b.take (32 * d) :=
  Bits.pack_unpack hd b _

theorem byteDecode_byteEncode {d : ℕ} {f : ℕ → ℕ} {b : Bytes}
    (hb : b.take (32 * d) = byteEncode d f) {k : ℕ} (hk : k < 256) (hf : f k < 2 ^ d) :
    byteDecode d b k = f k :=
  Bits.unpack_pack hb (by omega) hf hk

/-! ## Sampling -/

/-- `PRF_eta(s, b)`. -/
def prf (H : Hash) (eta : ℕ) (s : List UInt8) (b : ℕ) : List UInt8 :=
  (H.shake256 (s ++ [UInt8.ofNat b])).take (64 * eta)

/-- Candidate `p` of `SampleNTT` in a stream of bytes. -/
def sampleCand (s : Bytes) (p : ℕ) : Option ℤ :=
  if byteDecode 12 s p < 3329 then some (byteDecode 12 s p : ℤ) else none

/-- `SampleNTT(B)` comes to the values `a`. -/
def SampleNtt (H : Hash) (B : List UInt8) (a : List ℤ) : Prop :=
  Reject.First (sampleCand (H.shake128 B)) 256 a

/-- Coefficient `k` of `SamplePolyCBD_eta(B)`. -/
def samplePolyCbd (eta : ℕ) (B : Bytes) (k : ℕ) : ℤ :=
  let b := Bits.bit 8 fun i => (B i).toNat
  ((∑ j ∈ Finset.range eta, b (2 * k * eta + j) : ℕ) : ℤ) -
    (∑ j ∈ Finset.range eta, b (2 * k * eta + eta + j) : ℕ)

/-! ## The encryption scheme -/

/-- The matrix for the seed `rho`: `SampleNTT` gives the transforms of `A`. -/
def SampleMatrix (H : Hash) (k : ℕ) (rho : List UInt8) (A : ℕ → ℕ → Rq) : Prop :=
  ∀ i < k, ∀ j < k, ∃ a, SampleNtt H (rho ++ [UInt8.ofNat j, UInt8.ofNat i]) a ∧
    ∀ n < 256, ntt (A i j) n = ((a.getD n 0 : ℤ) : Zq)

/-- `SamplePolyCBD_eta(PRF_eta(s, N))`. -/
noncomputable def noise (H : Hash) (eta : ℕ) (s : List UInt8) (N : ℕ) : Rq :=
  ofInts (samplePolyCbd eta (Bytes.ofList (prf H eta s N)))

/-- `ByteEncode_12(NTT(w))`, for a vector. -/
noncomputable def encodeNtt (k : ℕ) (w : ℕ → Rq) : List UInt8 :=
  (List.range k).flatMap fun i => byteEncode 12 fun n => (ntt (w i) n).val

/-- `ByteDecode_12` gives the transforms of `w`; what is not below `q` is read modulo `q`. -/
def DecodesNtt (k : ℕ) (b : Bytes) (w : ℕ → Rq) : Prop :=
  ∀ i < k, ∀ n < 256, ntt (w i) n = ((byteDecode 12 (b.drop (i * 384)) n : ℕ) : Zq)

/-- `ByteEncode_d(Compress_d(w))`. -/
noncomputable def encodeRq (d : ℕ) (w : Rq) : List UInt8 :=
  byteEncode d fun n => compress d (std w n).toNat

/-- `Decompress_d(ByteDecode_d(b))`. -/
noncomputable def decodeRq (d : ℕ) (b : Bytes) : Rq :=
  ofInts fun n => (decompress d (byteDecode d b n) : ℤ)

/-- `K-PKE.KeyGen(d)` comes to the keys `ek` and `dk`. -/
def KpkeKeyGen (H : Hash) (par : MlkemParam) (d ek dk : List UInt8) : Prop :=
  let g := H.sha3_512 (d ++ [UInt8.ofNat par.k])
  let rho := g.take 32
  let sigma := (g.drop 32).take 32
  let s i := noise H par.eta1 sigma i
  let e i := noise H par.eta1 sigma (par.k + i)
  ∃ A, SampleMatrix H par.k rho A ∧
    ek = encodeNtt par.k (fun i => ∑ j ∈ Finset.range par.k, A i j * s j + e i) ++ rho ∧
    dk = encodeNtt par.k s

/-- `K-PKE.Encrypt(ek, m, r)` comes to the ciphertext `c`. -/
def KpkeEncrypt (H : Hash) (par : MlkemParam) (ek m : Bytes) (r c : List UInt8) : Prop :=
  let y i := noise H par.eta1 r i
  let e1 i := noise H 2 r (par.k + i)
  let e2 := noise H 2 r (2 * par.k)
  ∃ A t, SampleMatrix H par.k ((ek.drop (par.k * 384)).take 32) A ∧ DecodesNtt par.k ek t ∧
    c = (List.range par.k).flatMap (fun i =>
        encodeRq par.du (∑ j ∈ Finset.range par.k, A j i * y j + e1 i)) ++
      encodeRq par.dv (∑ j ∈ Finset.range par.k, t j * y j + e2 + decodeRq 1 m)

/-- `K-PKE.Decrypt(dk, c)` comes to the message `m`. -/
def KpkeDecrypt (par : MlkemParam) (dk c : Bytes) (m : List UInt8) : Prop :=
  let u i := decodeRq par.du (c.drop (i * (32 * par.du)))
  let v := decodeRq par.dv (c.drop (par.k * (32 * par.du)))
  ∃ s, DecodesNtt par.k dk s ∧ m = encodeRq 1 (v - ∑ i ∈ Finset.range par.k, s i * u i)

/-! ## The key-encapsulation mechanism -/

/-- `ML-KEM.KeyGen_internal(d, z)` comes to the keys `ek` and `dk`. -/
def KemKeyGen (H : Hash) (par : MlkemParam) (d z ek dk : List UInt8) : Prop :=
  ∃ dkPke, KpkeKeyGen H par d ek dkPke ∧ dk = dkPke ++ ek ++ (H.sha3_256 ek).take 32 ++ z

/-- `ML-KEM.Encaps_internal(ek, m)` comes to the shared key `K` and the ciphertext `c`. -/
def KemEncaps (H : Hash) (par : MlkemParam) (ek m K c : List UInt8) : Prop :=
  let g := H.sha3_512 (m ++ (H.sha3_256 ek).take 32)
  KpkeEncrypt H par (Bytes.ofList ek) (Bytes.ofList m) ((g.drop 32).take 32) c ∧ K = g.take 32

/-- `ML-KEM.Decaps_internal(dk, c)` comes to the shared key `K`. -/
def KemDecaps (H : Hash) (par : MlkemParam) (dk c K : List UInt8) : Prop :=
  let dkPke := dk.take (384 * par.k)
  let ekPke := (dk.drop (384 * par.k)).take (384 * par.k + 32)
  let h := (dk.drop (768 * par.k + 32)).take 32
  let z := (dk.drop (768 * par.k + 64)).take 32
  ∃ m c', KpkeDecrypt par (Bytes.ofList dkPke) (Bytes.ofList c) m ∧
    let g := H.sha3_512 (m ++ h)
    KpkeEncrypt H par (Bytes.ofList ekPke) (Bytes.ofList m) ((g.drop 32).take 32) c' ∧
      K = if c = c' then g.take 32 else (H.shake256 (z ++ c)).take 32

section Rounding

variable {d x y : ℕ}

/-- The number that is rounded to `Compress_d(x)`, before it is cut off. -/
theorem round_bounds (d x : ℕ) {c : ℕ} (hc : c = (2 ^ (d + 1) * x + 3329) / (2 * 3329)) :
    2 * 3329 * c ≤ 2 ^ (d + 1) * x + 3329 ∧ 2 ^ (d + 1) * x < 2 * 3329 * c + 3329 := by
  omega

theorem decompress_bounds (d y : ℕ) :
    2 ^ (d + 1) * decompress d y ≤ 2 * 3329 * y + 2 ^ d ∧
      2 * 3329 * y < 2 ^ (d + 1) * decompress d y + 2 ^ d := by
  have hpow : 2 ^ (d + 1) = 2 * 2 ^ d := pow_succ' 2 d
  have h1 := Nat.div_add_mod (2 * 3329 * y + 2 ^ d) (2 ^ (d + 1))
  have h2 := Nat.mod_lt (2 * 3329 * y + 2 ^ d) (Nat.two_pow_pos (d + 1))
  unfold decompress
  omega

theorem decompress_lt (hd : 2 ^ d < 3329) (hy : y < 2 ^ d) : decompress d y < 3329 := by
  have hpow : 2 ^ (d + 1) = 2 * 2 ^ d := pow_succ' 2 d
  have hle := (decompress_bounds d y).1
  refine Nat.lt_of_mul_lt_mul_left (hle.trans_lt ?_)
  rw [hpow]
  omega

/-- **Compression undoes decompression**, as long as a code has fewer bits than a coefficient. -/
theorem compress_decompress (hd : 2 ^ d < 3329) (hy : y < 2 ^ d) :
    compress d (decompress d y) = y := by
  obtain ⟨h1, h2⟩ := decompress_bounds d y
  have hc : (2 ^ (d + 1) * decompress d y + 3329) / (2 * 3329) = y := by
    refine Nat.div_eq_of_lt_le ?_ ?_ <;> omega
  unfold compress
  rw [hc, Nat.mod_eq_of_lt hy]

/-- **Decompression undoes compression** up to the rounding of `q / 2^(d+1)`; a large
coefficient may become zero instead of `q`. -/
theorem decompress_compress (hx : x < 3329) :
    (decompress d (compress d x) ≤ x + (3329 + 2 ^ d) / 2 ^ (d + 1) ∧
      x ≤ decompress d (compress d x) + (3329 + 2 ^ d) / 2 ^ (d + 1)) ∨
    decompress d (compress d x) + 3329 ≤ x + (3329 + 2 ^ d) / 2 ^ (d + 1) := by
  have hpow : 2 ^ (d + 1) = 2 * 2 ^ d := pow_succ' 2 d
  have hpos := Nat.two_pow_pos (d + 1)
  have hB1 := Nat.div_add_mod (3329 + 2 ^ d) (2 ^ (d + 1))
  have hB2 := Nat.mod_lt (3329 + 2 ^ d) hpos
  set B := (3329 + 2 ^ d) / 2 ^ (d + 1)
  set c := (2 ^ (d + 1) * x + 3329) / (2 * 3329) with hc
  obtain ⟨hc1, hc2⟩ := round_bounds d x hc
  have hcomp : compress d x = c % 2 ^ d := rfl
  have hle : c ≤ 2 ^ d := by
    have : 2 ^ (d + 1) * x ≤ 2 ^ (d + 1) * 3328 := Nat.mul_le_mul_left _ (by omega)
    omega
  rcases hle.lt_or_eq with hlt | heq
  · left
    rw [hcomp, Nat.mod_eq_of_lt hlt]
    obtain ⟨h1, h2⟩ := decompress_bounds d c
    constructor
    · refine Nat.le_of_lt_succ (Nat.lt_of_mul_lt_mul_left (a := 2 ^ (d + 1)) ?_)
      rw [Nat.succ_eq_add_one, mul_add, mul_add]
      omega
    · refine Nat.le_of_lt_succ (Nat.lt_of_mul_lt_mul_left (a := 2 ^ (d + 1)) ?_)
      rw [Nat.succ_eq_add_one, mul_add, mul_add]
      omega
  · right
    have hzero : decompress d 0 = 0 := by
      unfold decompress
      exact Nat.div_eq_of_lt (by omega)
    rw [hcomp, heq, Nat.mod_self, hzero, zero_add]
    refine Nat.le_of_lt_succ (Nat.lt_of_mul_lt_mul_left (a := 2 ^ (d + 1)) ?_)
    rw [Nat.succ_eq_add_one, mul_add, mul_add]
    omega

end Rounding

end Fips203
