import Karudeb.Mlkem.KemSpec
import Mathlib.Data.ZMod.ValMinAbs

/-!
# ML-KEM: decapsulation gives the encapsulated key

* `noise_identity` : what is decrypted is the message and the noise.
* `encodeRq_noisy` : a message survives noise of up to 831 in each coefficient.
* `kpkeDecrypt_noise` : decryption under the key of an exchange.
* `decaps_correct` : decapsulation gives the key that encapsulation gave.
-/

/-! ## The noise of an exchange -/

/-- **The noise identity**, in any commutative ring: with `t = A s + e`, `u = Aᵀ y + e₁ + du`
and `v = tᵀ y + e₂ + m + dv`, what `v - sᵀ u` adds to `m` is free of `A`. -/
theorem noise_identity {R : Type} [CommRing R] (k : ℕ) (A : ℕ → ℕ → R) (s e y e₁ du : ℕ → R)
    (e₂ m dv : R) :
    ∑ j ∈ Finset.range k, (∑ l ∈ Finset.range k, A j l * s l + e j) * y j + e₂ + m + dv -
      ∑ l ∈ Finset.range k, s l * (∑ j ∈ Finset.range k, A j l * y j + e₁ l + du l) =
    m + (∑ j ∈ Finset.range k, e j * y j + e₂ + dv -
      ∑ l ∈ Finset.range k, s l * (e₁ l + du l)) := by
  have hswap : ∑ j ∈ Finset.range k, (∑ l ∈ Finset.range k, A j l * s l) * y j =
      ∑ l ∈ Finset.range k, s l * ∑ j ∈ Finset.range k, A j l * y j := by
    simp only [Finset.sum_mul, Finset.mul_sum]
    rw [Finset.sum_comm]
    exact Finset.sum_congr rfl fun l _ => Finset.sum_congr rfl fun j _ => by ring
  have ht : ∑ j ∈ Finset.range k, (∑ l ∈ Finset.range k, A j l * s l + e j) * y j =
      ∑ j ∈ Finset.range k, (∑ l ∈ Finset.range k, A j l * s l) * y j +
        ∑ j ∈ Finset.range k, e j * y j := by
    rw [← Finset.sum_add_distrib]
    exact Finset.sum_congr rfl fun j _ => add_mul _ _ _
  have hu : ∑ l ∈ Finset.range k, s l * (∑ j ∈ Finset.range k, A j l * y j + e₁ l + du l) =
      ∑ l ∈ Finset.range k, s l * ∑ j ∈ Finset.range k, A j l * y j +
        ∑ l ∈ Finset.range k, s l * (e₁ l + du l) := by
    rw [← Finset.sum_add_distrib]
    exact Finset.sum_congr rfl fun l _ => by ring
  rw [ht, hu, hswap]
  ring

namespace Mlkem

open Word Negacyclic Fips203 Prog

variable {H : Hash} {k : ℕ}

/-- What compression to `d` bits adds to the coefficients. -/
noncomputable def roundErr (d : ℕ) (w : Rq) : Rq :=
  ofInts (fun n => decompress d (compress d (std w n).toNat)) - w

/-- `N = eᵀ y + e2 + dv - sᵀ (e1 + du)`, for the matrix `A`, the noise seeds `sigma` of the
keys and `r` of the ciphertext, and the message `m`. -/
noncomputable def decodingNoise (H : Hash) (par : MlkemParam) (A : ℕ → ℕ → Rq)
    (sigma r : List UInt8) (m : Bytes) : Rq :=
  let s i := noise H par.eta1 sigma i
  let e i := noise H par.eta1 sigma (par.k + i)
  let y i := noise H par.eta1 r i
  let e1 i := noise H 2 r (par.k + i)
  let e2 := noise H 2 r (2 * par.k)
  let t i := ∑ j ∈ Finset.range par.k, A i j * s j + e i
  let u i := ∑ j ∈ Finset.range par.k, A j i * y j + e1 i
  let v := ∑ j ∈ Finset.range par.k, t j * y j + e2 + decodeRq 1 m
  ∑ j ∈ Finset.range par.k, e j * y j + e2 + roundErr par.dv v -
    ∑ i ∈ Finset.range par.k, s i * (e1 i + roundErr par.du (u i))

/-! ## Rounding -/

/-- **A message survives** an error of up to 831 in every coefficient. -/
theorem encodeRq_noisy (m : Bytes) {w : Rq}
    (hw : ∀ n < 256, |(Negacyclic.coeff degree_pos w n).valMinAbs| ≤ 831) :
    encodeRq 1 (decodeRq 1 m + w) = m.take 32 := by
  rw [← byteEncode_byteDecode (show 0 < 1 by norm_num) m]
  refine byteEncode_congr fun n hn => ?_
  have hcoeff : Negacyclic.coeff degree_pos (decodeRq 1 m + w) n =
      (((decompress 1 (byteDecode 1 m n) : ℕ) : ℤ) +
        (Negacyclic.coeff degree_pos w n).valMinAbs : ℤ) := by
    rw [Negacyclic.coeff_add, Int.cast_add, ZMod.coe_valMinAbs]
    exact congrArg (· + _) (coeff_ofCoeffs degree_pos _ hn)
  rw [std, hcoeff, Int.toNat_natCast]
  exact compress_noisy (byteDecode_lt 1 m n) (hw n hn)

/-- Decoding what was encoded adds the rounding error. -/
theorem decodeRq_encodeRq {d : ℕ} {w : Rq} {b : Bytes} (hb : b.take (32 * d) = encodeRq d w) :
    decodeRq d b = w + roundErr d w := by
  rw [roundErr, add_sub_cancel]
  refine ofCoeffs_congr fun n hn => ?_
  dsimp only
  rw [byteDecode_byteEncode hb hn (compress_lt _ _)]

/-! ## How large the noise is -/

/-- A residue is at most as far from zero as any number it is the residue of. -/
theorem abs_valMinAbs_le {a : Zq} {e : ℤ} {B : ℕ} (ha : a = e) (he : |e| ≤ B) (hB : B ≤ 1664) :
    |a.valMinAbs| ≤ B := by
  obtain ⟨hlo, hhi⟩ := abs_le.1 he
  have hrange : e * 2 ∈ Set.Ioc (-((3329 : ℕ) : ℤ)) (3329 : ℕ) := by
    constructor <;> push_cast <;> omega
  rwa [(ZMod.valMinAbs_spec _ _).2 ⟨ha, hrange⟩]

theorem abs_valMinAbs_add_le (a b : Zq) : |(a + b).valMinAbs| ≤ |a.valMinAbs| + |b.valMinAbs| := by
  have h := ZMod.natAbs_valMinAbs_add_le a b
  have htri := Int.natAbs_add_le a.valMinAbs b.valMinAbs
  rw [Int.abs_eq_natAbs, Int.abs_eq_natAbs, Int.abs_eq_natAbs]
  omega

/-- A centred binomial sample is small. -/
theorem abs_noise_le {eta : ℕ} (heta : eta ≤ 3) (s : List UInt8) (N : ℕ) {n : ℕ} (hn : n < 256) :
    |(Negacyclic.coeff degree_pos (noise H eta s N) n).valMinAbs| ≤ eta :=
  abs_valMinAbs_le (coeff_ofCoeffs degree_pos _ hn) (abs_samplePolyCbd_le eta _ n) (by omega)

/-- Compression adds little. -/
theorem abs_roundErr_le {d : ℕ} (hd : (3329 + 2 ^ d) / 2 ^ (d + 1) ≤ 1664) (w : Rq) {n : ℕ}
    (hn : n < 256) : |(Negacyclic.coeff degree_pos (roundErr d w) n).valMinAbs| ≤
      ((3329 + 2 ^ d) / 2 ^ (d + 1) : ℕ) := by
  have hx : (std w n).toNat = (Negacyclic.coeff degree_pos w n).val := by
    rw [std, Int.toNat_natCast]
  have hlt : (Negacyclic.coeff degree_pos w n : Zq).val < 3329 := ZMod.val_lt _
  have hcoeff : Negacyclic.coeff degree_pos (roundErr d w) n =
      ((decompress d (compress d (std w n).toNat) : ℤ) : Zq) - (((std w n).toNat : ℤ) : Zq) := by
    rw [roundErr, Negacyclic.coeff_sub, ofInts, coeff_ofCoeffs degree_pos _ hn, hx, Int.cast_natCast,
      Int.cast_natCast, ZMod.natCast_zmod_val]
  rw [← hx] at hlt
  have hq : ((3329 : ℤ) : Zq) = 0 := by decide
  rcases decompress_compress (d := d) hlt with ⟨h1, h2⟩ | h
  · refine abs_valMinAbs_le (hcoeff.trans (Int.cast_sub _ _).symm) (abs_le.2 ⟨?_, ?_⟩) hd <;> omega
  · -- a large coefficient was rounded to zero instead of `q`
    refine abs_valMinAbs_le (e := (decompress d (compress d (std w n).toNat) : ℤ) -
      (std w n).toNat + 3329) ?_ (abs_le.2 ⟨?_, ?_⟩) hd
    · rw [hcoeff, Int.cast_add, Int.cast_sub, hq, add_zero]
    · omega
    · omega

/-! ## Transforms in memory -/

/-- The transforms that were encoded are those that are decoded. -/
theorem decodesNtt_encodeNtt {b : Bytes} {w : ℕ → Rq} (hb : b.take (k * 384) = encodeNtt k w) :
    DecodesNtt k b w := by
  intro i hi n hn
  have hblock := (Bytes.take_flatMap b fun j _ => length_byteEncode 12 _).1 hb i hi
  have hlt := ZMod.val_lt (ntt (w i) n)
  rw [byteDecode_byteEncode hblock hn (by omega)]
  exact (ZMod.natCast_zmod_val _).symm

theorem decodesNtt_unique {b : Bytes} {w w' : ℕ → Rq} (h : DecodesNtt k b w)
    (h' : DecodesNtt k b w') {i : ℕ} (hi : i < k) : w i = w' i :=
  ntt_injective fun n hn => (h i hi n hn).trans (h' i hi n hn).symm

theorem sampleMatrix_unique {rho : List UInt8} {A A' : ℕ → ℕ → Rq}
    (h : SampleMatrix H k rho A) (h' : SampleMatrix H k rho A') {i j : ℕ} (hi : i < k)
    (hj : j < k) : A i j = A' i j := by
  obtain ⟨L, hL, hA⟩ := h i hi j hj
  obtain ⟨L', hL', hA'⟩ := h' i hi j hj
  obtain rfl := hL.unique hL'
  exact ntt_injective fun n hn => (hA n hn).trans (hA' n hn).symm

/-! ## The exchange -/

/-- **Decryption under the key of an exchange** gives the message, if the noise is small. -/
theorem kpkeDecrypt_noise (i : Fin 3) {A : ℕ → ℕ → Rq} {sigma r : List UInt8} {dk ct m : Bytes}
    (hdk : dk.take ((mlkemPar i).k * 384) =
      encodeNtt (mlkemPar i).k fun j => noise H (mlkemPar i).eta1 sigma j)
    (hct : ct.take (mlkemPar i).ctSz = (List.range (mlkemPar i).k).flatMap (fun l =>
        encodeRq (mlkemPar i).du (∑ j ∈ Finset.range (mlkemPar i).k,
          A j l * noise H (mlkemPar i).eta1 r j + noise H 2 r ((mlkemPar i).k + l))) ++
      encodeRq (mlkemPar i).dv (∑ j ∈ Finset.range (mlkemPar i).k,
        (∑ l ∈ Finset.range (mlkemPar i).k, A j l * noise H (mlkemPar i).eta1 sigma l +
          noise H (mlkemPar i).eta1 sigma ((mlkemPar i).k + j)) * noise H (mlkemPar i).eta1 r j +
        noise H 2 r (2 * (mlkemPar i).k) + decodeRq 1 m))
    (hN : ∀ n < 256, |(Negacyclic.coeff degree_pos
      (decodingNoise H (mlkemPar i) A sigma r m) n).valMinAbs| ≤ 831) :
    KpkeDecrypt (mlkemPar i) dk ct (m.take 32) := by
  refine ⟨_, decodesNtt_encodeNtt hdk, ?_⟩
  obtain ⟨hblocks, hv⟩ := ciphertext_blocks i hct
  have hsum : ∑ l ∈ Finset.range (mlkemPar i).k, noise H (mlkemPar i).eta1 sigma l *
        decodeRq (mlkemPar i).du (ct.drop (l * (32 * (mlkemPar i).du))) =
      ∑ l ∈ Finset.range (mlkemPar i).k, noise H (mlkemPar i).eta1 sigma l * _ :=
    Finset.sum_congr rfl fun l hl => by rw [decodeRq_encodeRq (hblocks l (Finset.mem_range.1 hl))]
  rw [decodeRq_encodeRq hv, hsum, noise_identity]
  exact (encodeRq_noisy m hN).symm

/-- The encapsulation key is read up to `ek_sz` bytes. -/
theorem kpkeEncrypt_congr_ek (i : Fin 3) {ek ek' m : Bytes} {r c : List UInt8}
    (h : ek.take (mlkemPar i).ekSz = ek'.take (mlkemPar i).ekSz) :
    KpkeEncrypt H (mlkemPar i) ek m r c → KpkeEncrypt H (mlkemPar i) ek' m r c := by
  rw [(dkSz_eq i).1, Bytes.take_add, Bytes.take_add] at h
  obtain ⟨hvec, hseed⟩ := List.append_inj h (by rw [Bytes.length_take, Bytes.length_take])
  rintro ⟨A, t, hA, ht, rfl⟩
  refine ⟨A, t, hseed ▸ hA, fun j hj n hn => ?_, rfl⟩
  rw [ht j hj n hn]
  have hbytes : ∀ b < 384, (ek.drop (j * 384)) b = (ek'.drop (j * 384)) b := by
    intro b hb
    have hj' := Nat.mul_le_mul_right 384 (Nat.succ_le_of_lt hj)
    exact @Bytes.take_inj ek (j * 384 + b) _ ek' hvec (by omega)
  exact congrArg _ (Bits.regroup_congr (N := 384)
    (fun b hb => congrArg UInt8.toNat (hbytes b (by omega))) (by omega))

/-- The first block of the digest of the seed of a key. -/
def keyRho (H : Hash) (par : MlkemParam) (d : Bytes) : List UInt8 :=
  (H.sha3_512 (d.take 32 ++ [UInt8.ofNat par.k])).take 32

/-- The second block, which seeds the noise. -/
def keySigma (H : Hash) (par : MlkemParam) (d : Bytes) : List UInt8 :=
  ((H.sha3_512 (d.take 32 ++ [UInt8.ofNat par.k])).drop 32).take 32

/-- The coins of the ciphertext for the message `m` and the encapsulation key `ek`. -/
def encapsCoins (H : Hash) (ek : List UInt8) (m : Bytes) : List UInt8 :=
  ((H.sha3_512 (m.take 32 ++ (H.sha3_256 ek).take 32)).drop 32).take 32

/-- **What is encapsulated** under a key of key generation is the ciphertext of the exchange. -/
theorem encrypt_exchange (i : Fin 3) {A : ℕ → ℕ → Rq} {d m : Bytes} {ek s r ct : List UInt8}
    (hA : SampleMatrix H (mlkemPar i).k (keyRho H (mlkemPar i) d) A)
    (hkey : KpkeKeyGen H (mlkemPar i) (d.take 32) ek s)
    (hct : KpkeEncrypt H (mlkemPar i) (Bytes.ofList ek) m r ct) :
    s = encodeNtt (mlkemPar i).k (fun j => noise H (mlkemPar i).eta1 (keySigma H (mlkemPar i) d) j) ∧
    ct = (List.range (mlkemPar i).k).flatMap (fun l =>
        encodeRq (mlkemPar i).du (∑ j ∈ Finset.range (mlkemPar i).k,
          A j l * noise H (mlkemPar i).eta1 r j + noise H 2 r ((mlkemPar i).k + l))) ++
      encodeRq (mlkemPar i).dv (∑ j ∈ Finset.range (mlkemPar i).k,
        (∑ l ∈ Finset.range (mlkemPar i).k,
            A j l * noise H (mlkemPar i).eta1 (keySigma H (mlkemPar i) d) l +
          noise H (mlkemPar i).eta1 (keySigma H (mlkemPar i) d) ((mlkemPar i).k + j)) *
            noise H (mlkemPar i).eta1 r j +
        noise H 2 r (2 * (mlkemPar i).k) + decodeRq 1 m) := by
  obtain ⟨A₁, hA₁, rfl, rfl⟩ := hkey
  obtain ⟨A₂, t, hA₂, ht, rfl⟩ := hct
  obtain ⟨hvec, hrho⟩ := Bytes.take_eq_append (Bytes.take_ofList (encodeNtt (mlkemPar i).k
    (fun j => ∑ l ∈ Finset.range (mlkemPar i).k,
      A₁ j l * noise H (mlkemPar i).eta1 (keySigma H (mlkemPar i) d) l +
        noise H (mlkemPar i).eta1 (keySigma H (mlkemPar i) d) ((mlkemPar i).k + j)) ++
      keyRho H (mlkemPar i) d))
  have hrholen : (keyRho H (mlkemPar i) d).length = 32 := Bytes.length_take _ _
  rw [length_encodeNtt] at hvec hrho
  rw [hrholen] at hrho
  have hA₂' : SampleMatrix H (mlkemPar i).k (keyRho H (mlkemPar i) d) A₂ := hrho ▸ hA₂
  -- the matrix and the public vector are determined by what was encoded
  have ht' : ∀ j < (mlkemPar i).k, t j = ∑ l ∈ Finset.range (mlkemPar i).k,
      A j l * noise H (mlkemPar i).eta1 (keySigma H (mlkemPar i) d) l +
        noise H (mlkemPar i).eta1 (keySigma H (mlkemPar i) d) ((mlkemPar i).k + j) := by
    intro j hj
    have hrow : ∑ l ∈ Finset.range (mlkemPar i).k,
          A₁ j l * noise H (mlkemPar i).eta1 (keySigma H (mlkemPar i) d) l =
        ∑ l ∈ Finset.range (mlkemPar i).k,
          A j l * noise H (mlkemPar i).eta1 (keySigma H (mlkemPar i) d) l :=
      Finset.sum_congr rfl fun l hl => by
        rw [sampleMatrix_unique hA₁ hA hj (Finset.mem_range.1 hl)]
    rw [decodesNtt_unique ht (decodesNtt_encodeNtt hvec) hj, hrow]
  have hu : ∀ l < (mlkemPar i).k, ∑ j ∈ Finset.range (mlkemPar i).k,
        A₂ j l * noise H (mlkemPar i).eta1 r j =
      ∑ j ∈ Finset.range (mlkemPar i).k, A j l * noise H (mlkemPar i).eta1 r j :=
    fun l hl => Finset.sum_congr rfl fun j hj => by
      rw [sampleMatrix_unique hA₂' hA (Finset.mem_range.1 hj) hl]
  have hv : ∑ j ∈ Finset.range (mlkemPar i).k, t j * noise H (mlkemPar i).eta1 r j = _ :=
    Finset.sum_congr rfl fun j hj => by rw [ht' j (Finset.mem_range.1 hj)]
  refine ⟨rfl, ?_⟩
  dsimp only
  rw [hv, List.flatMap_congr fun l hl => by rw [hu l (List.mem_range.1 hl)]]

/-- **Decapsulation gives the encapsulated key**, for keys of key generation, as long as
every centred coefficient of the noise is at most 831.  The three functions may come from
different builds. -/
theorem decaps_correct (keyBuild encBuild decBuild : Build) (H : Hash) (i : Fin 3)
    {dk₀ d z dk m kp kp' : Bytes} {ek kk ct : List UInt8} {A : ℕ → ℕ → Rq}
    (hkey : (keygenInternal keyBuild H (mlkemPar i) dk₀ d z).Returns (ek, dk))
    (henc : (encapsInternal encBuild H (mlkemPar i) (Bytes.ofList ek) m).Returns (kk, ct))
    (hA : SampleMatrix H (mlkemPar i).k (keyRho H (mlkemPar i) d) A)
    (hN : ∀ n < 256, |(Negacyclic.coeff degree_pos (decodingNoise H (mlkemPar i) A
      (keySigma H (mlkemPar i) d) (encapsCoins H ek m) m) n).valMinAbs| ≤ 831) :
    (decapsInternal decBuild H (mlkemPar i) kp dk (Bytes.ofList ct)).Returns kp' ↔
      kp' = kp.put 0 kk := by
  obtain ⟨s, hgen, rfl⟩ := (returns_keygenInternal keyBuild i).1 hkey
  obtain ⟨hs, hek⟩ := length_kpkeKeyGen i hgen
  have hread : (Bytes.ofList ek).take (mlkemPar i).ekSz = ek := hek ▸ Bytes.take_ofList ek
  obtain ⟨hct, rfl⟩ := (returns_encapsInternal encBuild i).1 henc
  rw [hread] at hct
  -- what stands where in the decapsulation key
  set dk := dk₀.put 0 (s ++ ek ++ (H.sha3_256 ek).take 32 ++ z.take 32) with hdk
  obtain ⟨hpart, -⟩ := Bytes.take_eq_append (Bytes.take_put dk₀
    (s ++ ek ++ (H.sha3_256 ek).take 32 ++ z.take 32))
  obtain ⟨hpart, hh⟩ := Bytes.take_eq_append hpart
  obtain ⟨hsec, hpub⟩ := Bytes.take_eq_append hpart
  rw [← hdk, Bytes.length_take, List.length_append, hs, hek] at hh
  rw [← hdk, hs] at hsec hpub
  rw [hek] at hpub
  have hdigest : decapsDigest H (mlkemPar i) dk (m.take 32) =
      H.sha3_512 (m.take 32 ++ (H.sha3_256 ek).take 32) := by
    rw [decapsDigest, (dkSz_eq i).2, Nat.add_sub_cancel, hh]
  -- decryption gives the message, which is encrypted to the same ciphertext
  have hlen := length_kpkeEncrypt i hct
  have hctake : (Bytes.ofList ct).take (mlkemPar i).ctSz = ct := hlen ▸ Bytes.take_ofList ct
  obtain ⟨hexs, hexc⟩ := encrypt_exchange i hA hgen hct
  have hdec : KpkeDecrypt (mlkemPar i) dk (Bytes.ofList ct) (m.take 32) :=
    kpkeDecrypt_noise i (hsec.trans hexs) (hctake.trans hexc) hN
  have hagain : Reencrypts decBuild H (mlkemPar i) dk (Bytes.ofList ct) (m.take 32) ct := by
    rw [reencrypts_iff, hdigest]
    refine ⟨hdec, kpkeEncrypt_congr_ek i (hread.trans hpub.symm) ?_⟩
    exact (kpkeEncrypt_congr fun j hj => (Bytes.ofList_take hj).symm).1 hct
  rw [returns_decapsInternal]
  constructor
  · rintro ⟨m', c, hmc, rfl⟩
    obtain ⟨rfl, rfl⟩ := reencrypts_unique hagain hmc
    rw [if_pos hctake.symm, hdigest, hread]
  · rintro rfl
    refine ⟨_, _, hagain, ?_⟩
    rw [if_pos hctake.symm, hdigest, hread]

/-- Hash functions whose digests count up, and whose `SHAKE256` gives zeros behind a last byte of
0 or 1 and ones behind any other. -/
def countHash : Hash where
  shake128 := fun _ _ => 0
  shake256 := fun m _ => if m.getLast? = some 0 ∨ m.getLast? = some 1 then 0 else 1
  sha3_256 := fun _ n => UInt8.ofNat (n + 1)
  sha3_512 := fun _ n => UInt8.ofNat (n + 1)

theorem sampleMatrix_countHash (k : ℕ) (rho : List UInt8) :
    SampleMatrix countHash k rho fun _ _ => 0 :=
  sampleMatrix_of_zero (fun _ => rfl) k rho

/-- The nonces 0 and 1 are those of the vectors `s` and `y` of ML-KEM-512. -/
theorem noise_countHash (eta : ℕ) (s : List UInt8) {N : ℕ} (hN : N < 2) :
    noise countHash eta s N = 0 := by
  have hlast : (s ++ [UInt8.ofNat N]).getLast? = some 0 ∨
      (s ++ [UInt8.ofNat N]).getLast? = some 1 := by
    rw [List.getLast?_append_of_ne_nil _ (List.cons_ne_nil _ _)]
    interval_cases N
    · exact .inl rfl
    · exact .inr rfl
  exact noise_of_zero (funext fun _ => if_pos hlast)

/-- What is left of the noise then is small. -/
theorem decodingNoise_countHash (A : ℕ → ℕ → Rq) (sigma r : List UInt8) (m : Bytes) {n : ℕ}
    (hn : n < 256) : |(Negacyclic.coeff degree_pos
      (decodingNoise countHash (mlkemPar 0) A sigma r m) n).valMinAbs| ≤ 831 := by
  have hsum : ∀ (seed : List UInt8) (f : ℕ → Rq), ∑ j ∈ Finset.range (mlkemPar 0).k,
      noise countHash (mlkemPar 0).eta1 seed j * f j = 0 := fun seed f =>
    Finset.sum_eq_zero fun j hj => by
      rw [noise_countHash _ _ (Finset.mem_range.1 hj), zero_mul]
  have hsum' : ∀ (seed : List UInt8) (f : ℕ → Rq), ∑ j ∈ Finset.range (mlkemPar 0).k,
      f j * noise countHash (mlkemPar 0).eta1 seed j = 0 := by
    intro seed f
    rw [← hsum seed f]
    exact Finset.sum_congr rfl fun j _ => mul_comm _ _
  unfold decodingNoise
  dsimp only
  rw [hsum, hsum', zero_add, sub_zero, Negacyclic.coeff_add]
  calc |(Negacyclic.coeff degree_pos (noise countHash 2 r (2 * (mlkemPar 0).k)) n +
        Negacyclic.coeff degree_pos (roundErr (mlkemPar 0).dv _) n).valMinAbs|
      ≤ |(Negacyclic.coeff degree_pos (noise countHash 2 r (2 * (mlkemPar 0).k)) n).valMinAbs| +
          |(Negacyclic.coeff degree_pos (roundErr (mlkemPar 0).dv _) n).valMinAbs| :=
        abs_valMinAbs_add_le _ _
    _ ≤ (2 : ℕ) + ((3329 + 2 ^ (mlkemPar 0).dv) / 2 ^ ((mlkemPar 0).dv + 1) : ℕ) :=
        add_le_add (abs_noise_le (by norm_num) _ _ hn) (abs_roundErr_le (by decide) _ hn)
    _ ≤ 831 := by decide

/-- An exchange with noise in the keys and the ciphertext, whose key is not the rejection key. -/
theorem decaps_correct_count : ∃ (dk : Bytes) (ek ct : List UInt8),
    (keygenInternal .rvv countHash (mlkemPar 0) (fun _ => 0) (fun n => UInt8.ofNat n)
      fun _ => 7).Returns (ek, dk) ∧
    (encapsInternal .scalar countHash (mlkemPar 0) (Bytes.ofList ek)
      fun n => UInt8.ofNat (3 * n)).Returns ((List.range 32).map fun n => UInt8.ofNat (n + 1), ct) ∧
    (decapsInternal .rvv countHash (mlkemPar 0) (fun _ => 0) dk (Bytes.ofList ct)).Returns
      (Bytes.put (fun _ => 0) 0 ((List.range 32).map fun n => UInt8.ofNat (n + 1))) ∧
    (countHash.shake256 (Bytes.take (fun _ => 7) 32 ++ ct)).take 32 ≠
      (List.range 32).map fun n => UInt8.ofNat (n + 1) := by
  have hkey := (@returns_keygenInternal countHash .rvv 0 (fun _ => 0) (fun n => UInt8.ofNat n)
    (fun _ => 7) _ _).2 ⟨_, ⟨_, sampleMatrix_countHash _ _, rfl, rfl⟩, rfl⟩
  obtain ⟨ct, hct⟩ := (@exists_kpkeEncrypt countHash (mlkemPar 0) (Bytes.ofList _)
    (fun n => UInt8.ofNat (3 * n)) _).2 ⟨_, sampleMatrix_countHash _ _⟩
  have henc := (returns_encapsInternal .scalar 0).2 ⟨hct, rfl⟩
  refine ⟨_, _, _, hkey, henc, (decaps_correct .rvv .scalar .rvv countHash 0 hkey henc
    (sampleMatrix_countHash _ _) fun n hn => decodingNoise_countHash _ _ _ _ hn).2 rfl, fun h => ?_⟩
  -- the bytes of the rejection key are all the same
  have hbyte : ∀ n < 32, (countHash.shake256 (Bytes.take (fun _ => 7) 32 ++ _)) n =
      UInt8.ofNat (n + 1) := fun n hn => List.map_inj_left.1 h n (List.mem_range.2 hn)
  exact absurd ((hbyte 0 (by norm_num)).symm.trans (hbyte 1 (by norm_num))) (by decide)

end Mlkem
