import Karudeb.Lib.Bits
import Karudeb.Lib.Ntt
import Karudeb.Lib.Reject
import Karudeb.Lib.Shake
import Karudeb.Mldsa.Reduce

/-!
# ML-DSA: the mathematics of FIPS 204

What the standard says, in its own terms: the ring, the transform, sampling,
rounding and encoding as mathematical functions and relations.  Nothing here is
translated from the code.
-/

namespace Fips204

open Mldsa

/-! ## The ring and the transform -/

/-- `R_q = Z_q[X] / (X^256 + 1)`. -/
abbrev Rq : Type := Negacyclic Zq 256

/-- The number whose `w` binary digits are those of `n` in the opposite order. -/
def bitRev (w n : ℕ) : ℕ := (List.range w).foldl (fun r i => 2 * r + n / 2 ^ i % 2) 0

/-- The root of unity `zeta^(2*BitRev8(k)+1)` that entry `k` of a transform
stands for. -/
def nttPoint (k : ℕ) : Zq := 1753 ^ (2 * bitRev 8 k + 1)

theorem zeta_pow : (1753 : Zq) ^ 256 = -1 := by decide +kernel

theorem nttPoint_pow (k : ℕ) : nttPoint k ^ 256 = -1 := by
  unfold nttPoint
  rw [← pow_mul, mul_comm, pow_mul, zeta_pow]
  exact Odd.neg_one_pow ⟨bitRev 8 k, rfl⟩

/-- Entry `k` of `NTT(w)`, the value of `w` at its root of unity. -/
noncomputable def ntt (w : Rq) (k : ℕ) : Zq := Negacyclic.evalAt (nttPoint k) (nttPoint_pow k) w

/-- The ring element with given coefficients. -/
noncomputable def ofInts (f : ℕ → ℤ) : Rq := Negacyclic.ofCoeffs 256 fun i => (f i : Zq)

theorem degree_pos : 0 < 256 := by norm_num

/-- Coefficient `k` of a ring element, from 0 to `q - 1`. -/
noncomputable def std (w : Rq) (k : ℕ) : ℤ := (Negacyclic.coeff degree_pos w k).val

/-! ## Packing -/

/-- The number of binary digits of a positive number. -/
def bitlen (n : ℕ) : ℕ := n.log2 + 1

/-- `SimpleBitPack(w, b)`. -/
def simpleBitPack (b : ℕ) (w : ℕ → ℕ) : List UInt8 := Bits.pack (bitlen b) w (32 * bitlen b)

/-- Coefficient `k` of `SimpleBitUnpack(v, b)`. -/
def simpleBitUnpack (b : ℕ) (v : Bytes) (k : ℕ) : ℕ := Bits.unpack (bitlen b) v k

/-- `BitPack(w, a, b)`. -/
def bitPack (a b : ℕ) (w : ℕ → ℤ) : List UInt8 :=
  Bits.pack (bitlen (a + b)) (fun k => (b - w k).toNat) (32 * bitlen (a + b))

/-- Coefficient `k` of `BitUnpack(v, a, b)`. -/
def bitUnpack (a b : ℕ) (v : Bytes) (k : ℕ) : ℤ := b - Bits.unpack (bitlen (a + b)) v k

theorem lt_two_pow_bitlen (n : ℕ) : n < 2 ^ bitlen n := Nat.lt_log2_self

theorem length_simpleBitPack (b : ℕ) (w : ℕ → ℕ) : (simpleBitPack b w).length = 32 * bitlen b :=
  Bits.length_pack _

theorem simpleBitPack_congr {b : ℕ} {w w' : ℕ → ℕ} (h : ∀ k < 256, w k = w' k) :
    simpleBitPack b w = simpleBitPack b w' :=
  Bits.pack_congr (fun k hk => h k hk) (by omega)

theorem simpleBitUnpack_simpleBitPack {b : ℕ} {w : ℕ → ℕ} {v : Bytes}
    (hv : v.take (32 * bitlen b) = simpleBitPack b w) {k : ℕ} (hk : k < 256)
    (hw : w k < 2 ^ bitlen b) : simpleBitUnpack b v k = w k :=
  Bits.unpack_pack hv (by omega) hw hk

theorem simpleBitPack_simpleBitUnpack (b : ℕ) (v : Bytes) :
    simpleBitPack b (simpleBitUnpack b v) = v.take (32 * bitlen b) :=
  Bits.pack_unpack (Nat.succ_pos _) v _

theorem length_bitPack (a b : ℕ) (w : ℕ → ℤ) : (bitPack a b w).length = 32 * bitlen (a + b) :=
  Bits.length_pack _

theorem bitPack_congr {a b : ℕ} {w w' : ℕ → ℤ} (h : ∀ k < 256, w k = w' k) :
    bitPack a b w = bitPack a b w' :=
  Bits.pack_congr (fun k hk => by rw [h k hk]) (by omega)

theorem bitUnpack_congr {a b : ℕ} {v v' : Bytes} (h : ∀ j < 32 * bitlen (a + b), v j = v' j) {k : ℕ}
    (hk : k < 256) : bitUnpack a b v k = bitUnpack a b v' k := by
  unfold bitUnpack Bits.unpack
  have hle : bitlen (a + b) * (k + 1) ≤ bitlen (a + b) * 256 := Nat.mul_le_mul_left _ hk
  rw [Nat.mul_succ] at hle
  have hbytes : ∀ j < 32 * bitlen (a + b), (v j).toNat = (v' j).toNat := fun j hj => by rw [h j hj]
  rw [Bits.regroup_congr hbytes (by omega)]

/-- **Unpacking what was packed.** -/
theorem bitUnpack_coded {a b : ℕ} {w : ℕ → ℤ} {v : Bytes}
    (hv : v.take (32 * bitlen (a + b)) = bitPack a b w) {k : ℕ} (hk : k < 256)
    (hw : 0 ≤ b - w k ∧ b - w k < 2 ^ bitlen (a + b)) : bitUnpack a b v k = w k := by
  obtain ⟨h1, h2⟩ := hw
  have h : Bits.unpack (bitlen (a + b)) v k = (b - w k).toNat :=
    Bits.unpack_pack hv (by omega) (by zify; omega) hk
  unfold bitUnpack
  omega

theorem bitUnpack_bitPack {a b : ℕ} {w : ℕ → ℤ} {v : Bytes}
    (hv : v.take (32 * bitlen (a + b)) = bitPack a b w) {k : ℕ} (hk : k < 256)
    (hw : -a ≤ w k ∧ w k ≤ b) : bitUnpack a b v k = w k := by
  obtain ⟨h1, h2⟩ := hw
  have hlt := lt_two_pow_bitlen (a + b)
  zify at hlt
  exact bitUnpack_coded hv hk ⟨by omega, by omega⟩

/-- **Packing what was unpacked.** -/
theorem bitPack_bitUnpack (a b : ℕ) (v : Bytes) :
    bitPack a b (bitUnpack a b v) = v.take (32 * bitlen (a + b)) := by
  unfold bitPack bitUnpack
  have h : ∀ k, ((b : ℤ) - (b - Bits.unpack (bitlen (a + b)) v k)).toNat =
      Bits.unpack (bitlen (a + b)) v k := fun k => by omega
  simp only [h]
  exact Bits.pack_unpack (Nat.succ_pos _) v _

/-! ## Sampling -/

/-- `IntegerToBytes(x, 2)`. -/
def integerToBytes2 (x : ℕ) : List UInt8 := [UInt8.ofNat x, UInt8.ofNat (x / 256)]

/-- `CoeffFromThreeBytes(b0, b1, b2)`. -/
def coeffFromThreeBytes (b0 b1 b2 : ℕ) : Option ℤ :=
  let z : ℕ := 2 ^ 16 * (b2 % 128) + 2 ^ 8 * b1 + b0
  if z < 8380417 then some (z : ℤ) else none

/-- Candidate `p` of `RejNTTPoly` in a stream of bytes. -/
def uniformCand (s : Bytes) (p : ℕ) : Option ℤ :=
  coeffFromThreeBytes (s (3 * p)).toNat (s (3 * p + 1)).toNat (s (3 * p + 2)).toNat

/-- `RejNTTPoly(seed)` comes to the values `a`. -/
def RejNttPoly (H : Hash) (seed : List UInt8) (a : List ℤ) : Prop :=
  Reject.First (uniformCand (H.shake128 seed)) 256 a

/-- `ExpandA(rho)` comes to the transforms of the matrix `A`. -/
def ExpandA (H : Hash) (k ell : ℕ) (rho : List UInt8) (A : ℕ → ℕ → Rq) : Prop :=
  ∀ r < k, ∀ s < ell, ∃ a, RejNttPoly H (rho ++ [UInt8.ofNat s, UInt8.ofNat r]) a ∧
    ∀ n < 256, ntt (A r s) n = ((a.getD n 0 : ℤ) : Zq)

/-- `CoeffFromHalfByte(b)`. -/
def coeffFromHalfByte (eta b : ℕ) : Option ℤ :=
  if eta = 2 ∧ b < 15 then some (2 - ((b % 5 : ℕ) : ℤ))
  else if eta = 4 ∧ b < 9 then some (4 - (b : ℤ))
  else none

/-- Candidate `p` of `RejBoundedPoly` in a stream of bytes. -/
def etaCand (eta : ℕ) (s : Bytes) (p : ℕ) : Option ℤ :=
  coeffFromHalfByte eta (if p % 2 = 0 then (s (p / 2)).toNat % 16 else (s (p / 2)).toNat / 16)

/-- `RejBoundedPoly(seed)` comes to the coefficients `a`. -/
def RejBoundedPoly (H : Hash) (eta : ℕ) (seed : List UInt8) (a : List ℤ) : Prop :=
  Reject.First (etaCand eta (H.shake256 seed)) 256 a

/-- Component `r` of `ExpandMask(rho, mu)`. -/
def expandMask (H : Hash) (gamma1 : ℕ) (rho : List UInt8) (mu r : ℕ) (k : ℕ) : ℤ :=
  bitUnpack (gamma1 - 1) gamma1 (H.shake256 (rho ++ integerToBytes2 (mu + r))) k

/-- `p'` is the position behind the first byte from `p` on that is at most `i`. -/
def NextBelow (s : Bytes) (i p p' : ℕ) : Prop :=
  p < p' ∧ (s (p' - 1)).toNat ≤ i ∧ ∀ q, p ≤ q → q + 1 < p' → i < (s q).toNat

/-- The turn of `SampleInBall` that moves coefficient `j` to `i` and puts a sign in
its place. -/
def ballStep (c : ℕ → ℤ) (i j sign : ℕ) : ℕ → ℤ :=
  Function.update (Function.update c i (c j)) j ((-1) ^ sign)

/-- `SampleInBall(rho)` comes to the coefficients `c`: `pos m` is where turn `m` starts
to read the stream. -/
def SampleInBall (H : Hash) (tau : ℕ) (rho : List UInt8) (c : ℕ → ℤ) : Prop :=
  let s := H.shake256 rho
  ∃ pos : ℕ → ℕ, pos 0 = 8 ∧
    (∀ m < tau, NextBelow s (256 - tau + m) (pos m) (pos (m + 1))) ∧
    ∀ k < 256, c k = (List.range tau).foldl (fun c m =>
      ballStep c (256 - tau + m) (s (pos (m + 1) - 1)).toNat
        (Bits.bit 8 (fun i => (s i).toNat) m)) (fun _ => 0) k

/-! ## Rounding -/

/-- `r mod± alpha`. -/
def modPm (r alpha : ℤ) : ℤ := if r % alpha ≤ alpha / 2 then r % alpha else r % alpha - alpha

/-- `Power2Round(r)`. -/
def power2Round (r : ℤ) : ℤ × ℤ :=
  let rp := r % 8380417
  let r0 := modPm rp (2 ^ 13)
  ((rp - r0) / 2 ^ 13, r0)

/-- `Decompose(r)`. -/
def decompose (gamma2 r : ℤ) : ℤ × ℤ :=
  let rp := r % 8380417
  let r0 := modPm rp (2 * gamma2)
  if rp - r0 = 8380417 - 1 then (0, r0 - 1) else ((rp - r0) / (2 * gamma2), r0)

/-- `HighBits(r)`. -/
def highBits (gamma2 r : ℤ) : ℤ := (decompose gamma2 r).1

/-- `LowBits(r)`. -/
def lowBits (gamma2 r : ℤ) : ℤ := (decompose gamma2 r).2

/-- `MakeHint(z, r)`. -/
def makeHint (gamma2 z r : ℤ) : ℤ := if highBits gamma2 r ≠ highBits gamma2 (r + z) then 1 else 0

/-- `UseHint(h, r)`. -/
def useHint (gamma2 h r : ℤ) : ℤ :=
  let m := (8380417 - 1) / (2 * gamma2)
  let d := decompose gamma2 r
  if h = 1 ∧ d.2 > 0 then (d.1 + 1) % m
  else if h = 1 ∧ d.2 ≤ 0 then (d.1 - 1) % m
  else d.1

/-! ## Keys -/

/-- `pkEncode(rho, t1)`. -/
def pkEncode (par : MldsaParam) (rho : List UInt8) (t1 : ℕ → ℕ → ℤ) : List UInt8 :=
  rho ++ (List.range par.k).flatMap fun i => simpleBitPack (2 ^ 10 - 1) fun j => (t1 i j).toNat

/-- The coefficients of `t1` in `pkDecode(pk)`. -/
def pkT1 (pk : Bytes) (r j : ℕ) : ℤ := simpleBitUnpack (2 ^ 10 - 1) (pk.drop (32 + r * 320)) j

/-- `skEncode(rho, K, tr, s1, s2, t0)`. -/
def skEncode (par : MldsaParam) (rho key tr : List UInt8) (s1 s2 t0 : ℕ → ℕ → ℤ) : List UInt8 :=
  rho ++ key ++ tr ++ (List.range par.ell).flatMap (fun i => bitPack par.eta par.eta (s1 i)) ++
    (List.range par.k).flatMap (fun i => bitPack par.eta par.eta (s2 i)) ++
      (List.range par.k).flatMap fun i => bitPack (2 ^ 12 - 1) (2 ^ 12) (t0 i)

/-! ## Signatures -/

/-- The positions of the nonzero coefficients in row `i` of a hint. -/
def hintRow (h : ℕ → ℕ → ℤ) (i : ℕ) : List ℕ := (List.range 256).filter fun j => h i j ≠ 0

/-- The rows of a hint before row `m`, one behind the other. -/
def hintRows (h : ℕ → ℕ → ℤ) (m : ℕ) : List ℕ := (List.range m).flatMap (hintRow h)

/-- The number of nonzero coefficients before row `m`. -/
def hintWeight (h : ℕ → ℕ → ℤ) (m : ℕ) : ℕ := (hintRows h m).length

/-- `HintBitPack(h)`. -/
def hintBitPack (k omega : ℕ) (h : ℕ → ℕ → ℤ) : List UInt8 :=
  (hintRows h k).map UInt8.ofNat ++ List.replicate (omega - hintWeight h k) 0 ++
    (List.range k).map fun i => UInt8.ofNat (hintWeight h (i + 1))

/-- `sigEncode(c, z, h)`. -/
def sigEncode (par : MldsaParam) (c : List UInt8) (z h : ℕ → ℕ → ℤ) : List UInt8 :=
  c ++ (List.range par.ell).flatMap (fun i => bitPack (par.gamma1 - 1) par.gamma1 (z i)) ++
    hintBitPack par.k par.omega h

/-- `w1Encode(w1)`. -/
def w1Encode (par : MldsaParam) (w1 : ℕ → ℕ → ℤ) : List UInt8 :=
  (List.range par.k).flatMap fun i =>
    simpleBitPack ((8380417 - 1) / (2 * par.gamma2) - 1) fun j => (w1 i j).toNat

/-! ## Key generation -/

/-- `A x`, for a matrix with `ell` columns. -/
noncomputable def matVec (ell : ℕ) (A : ℕ → ℕ → Rq) (x : ℕ → Rq) (r : ℕ) : Rq :=
  ∑ s ∈ Finset.range ell, A r s * x s

/-- `ExpandS(rho)` comes to the secret vectors `s1`, `s2`. -/
def ExpandS (H : Hash) (par : MldsaParam) (rho : List UInt8) (s1 s2 : ℕ → ℕ → ℤ) : Prop :=
  (∀ r < par.ell, ∃ a, RejBoundedPoly H par.eta (rho ++ integerToBytes2 r) a ∧
    ∀ j < 256, s1 r j = a.getD j 0) ∧
  ∀ r < par.k, ∃ a, RejBoundedPoly H par.eta (rho ++ integerToBytes2 (par.ell + r)) a ∧
    ∀ j < 256, s2 r j = a.getD j 0

/-- `ML-DSA.KeyGen_internal(xi)` comes to the keys `pk`, `sk`. -/
def KeyGen (H : Hash) (par : MldsaParam) (xi pk sk : List UInt8) : Prop :=
  let buf := H.shake256 (xi ++ [UInt8.ofNat par.k] ++ [UInt8.ofNat par.ell])
  let rho := buf.take 32
  let K := (buf.drop 96).take 32
  ∃ A s1 s2, ExpandA H par.k par.ell rho A ∧ ExpandS H par ((buf.drop 32).take 64) s1 s2 ∧
    let t r := matVec par.ell A (fun s => ofInts (s1 s)) r + ofInts (s2 r)
    pk = pkEncode par rho (fun r j => (power2Round (std (t r) j)).1) ∧
      sk = skEncode par rho K ((H.shake256 pk).take 64) s1 s2
        fun r j => (power2Round (std (t r) j)).2

/-! ## Signing -/

/-- `‖w‖∞ < b`. -/
def NormLt (w : Rq) (b : ℤ) : Prop := ∀ j < 256, |modPm (std w j) 8380417| < b

/-- The commitment `w` of one iteration of `Sign_internal`, from the mask `y`. -/
noncomputable def signW (ell : ℕ) (A : ℕ → ℕ → Rq) (y : ℕ → ℕ → ℤ) (r : ℕ) : Rq :=
  matVec ell A (fun s => ofInts (y s)) r

/-- The commitment hash. -/
noncomputable def signCtilde (H : Hash) (par : MldsaParam) (mu : List UInt8) (w : ℕ → Rq) : List UInt8 :=
  (H.shake256 (mu ++ w1Encode par fun r j => highBits par.gamma2 (std (w r) j))).take par.cpSz

/-- What an iteration takes from the secret key. -/
structure SignKey where
  /-- The matrix. -/
  A : ℕ → ℕ → Rq
  /-- First secret vector. -/
  s1 : ℕ → Rq
  /-- Second secret vector. -/
  s2 : ℕ → Rq
  /-- Low bits of the public vector. -/
  t0 : ℕ → Rq

/-- The hint of an iteration. -/
noncomputable def signHint (par : MldsaParam) (key : SignKey) (w : ℕ → Rq) (c : Rq) (r j : ℕ) : ℤ :=
  makeHint par.gamma2 (std (-(c * key.t0 r)) j) (std (w r - c * key.s2 r + c * key.t0 r) j)

/-- The four tests that an iteration has to pass. -/
def Passes (par : MldsaParam) (key : SignKey) (y : ℕ → ℕ → ℤ) (w : ℕ → Rq) (c : Rq) : Prop :=
  (∀ r < par.ell, NormLt (ofInts (y r) + c * key.s1 r) (par.gamma1 - par.beta)) ∧
  (∀ r < par.k, ∀ j < 256,
    |lowBits par.gamma2 (std (w r - c * key.s2 r) j)| < par.gamma2 - par.beta) ∧
  (∀ r < par.k, NormLt (c * key.t0 r) par.gamma2) ∧
  hintWeight (signHint par key w c) par.k ≤ par.omega

/-- `ML-DSA.Sign_internal` comes to the signature `sig`, in the first iteration that passes
the tests; the iterations before it have challenges, too. -/
def Sign (H : Hash) (par : MldsaParam) (key : SignKey) (mu rho sig : List UInt8) : Prop :=
  let y kappa := expandMask H par.gamma1 rho (par.ell * kappa)
  let w kappa := signW par.ell key.A (y kappa)
  let ctilde kappa := signCtilde H par mu (w kappa)
  ∃ (c : ℕ → ℕ → ℤ) (kappa : ℕ),
    (∀ n ≤ kappa, SampleInBall H par.tau (ctilde n) (c n)) ∧
    (∀ n < kappa, ¬Passes par key (y n) (w n) (ofInts (c n))) ∧
    Passes par key (y kappa) (w kappa) (ofInts (c kappa)) ∧
    sig = sigEncode par (ctilde kappa)
      (fun r j => modPm (std (ofInts (y kappa r) + ofInts (c kappa) * key.s1 r) j) 8380417)
      (signHint par key (w kappa) (ofInts (c kappa)))

/-! ## Verification -/

/-- Row `r` of `A z - c t1 2^d`, the `w'_Approx` of the standard. -/
noncomputable def wApprox (ell : ℕ) (A : ℕ → ℕ → Rq) (z : ℕ → Rq) (c t1 : Rq) (r : ℕ) : Rq :=
  matVec ell A z r - c * t1 * 2 ^ 13

/-- `ML-DSA.Verify_internal` accepts the decoded signature `(c, z, h)` for the public key
`(rho, t1)` and the message representative `mu`. -/
def Verify (H : Hash) (par : MldsaParam) (rho : List UInt8) (t1 : ℕ → Rq) (mu ctilde : List UInt8)
    (z h : ℕ → ℕ → ℤ) : Prop :=
  (∀ r < par.ell, ∀ j < 256, |z r j| < par.gamma1 - par.beta) ∧
  ∃ A c, ExpandA H par.k par.ell rho A ∧ SampleInBall H par.tau ctilde c ∧
    ctilde = (H.shake256 (mu ++ w1Encode par fun r j => useHint par.gamma2 (h r j)
      (std (wApprox par.ell A (fun s => ofInts (z s)) (ofInts c) (t1 r) r) j))).take par.cpSz

end Fips204
