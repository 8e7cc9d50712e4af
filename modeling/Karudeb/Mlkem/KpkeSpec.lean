import Karudeb.Mlkem.EncodeSpec
import Karudeb.Mlkem.Kpke
import Karudeb.Mlkem.SampleSpec

/-!
# ML-KEM: the encryption scheme is the standard's

* `returns_genMatrix_iff` : the matrix in memory is the transform of a matrix over the ring.
* `keygenVectors_spec`, `encryptVectors_spec`, `decryptVectors_spec` : what the arithmetic
  between sampling and encoding computes, in either build.
* `kpke_exact` : `kpke_keygen`, `kpke_encrypt` and `kpke_decrypt` give what the standard
  comes to.
-/

namespace Mlkem

open Word Negacyclic Fips203 Prog

variable {H : Hash} {k : ℕ}

/-! ## The matrix -/

/-- The matrix in memory. -/
noncomputable def matOf (k : ℕ) (A : ℕ → ℕ → Rq) : Vector (PolyVec k) k :=
  Vector.tab k fun i => Vector.tab k fun j => Vector.tab 256 fun n => ((ntt (A i j) n).val : ℤ)

theorem rd_matOf (A : ℕ → ℕ → Rq) {i j n : ℕ} (hi : i < k) (hj : j < k) (hn : n < 256) :
    (((matOf k A).rd i).rd j).rd n = (ntt (A i j) n).val := by
  unfold matOf
  rw [Vector.rd_tab _ hi, Vector.rd_tab _ hj, Vector.rd_tab _ hn]

theorem matOf_spec (A : ℕ → ℕ → Rq) {i j : ℕ} (hi : i < k) (hj : j < k) :
    Bounded 4095 (((matOf k A).rd i).rd j) ∧ NttRep 1 (((matOf k A).rd i).rd j) (A i j) := by
  constructor
  · intro n hn
    rw [rd_matOf A hi hj hn]
    have hlt := ZMod.val_lt (ntt (A i j) n)
    rw [abs_of_nonneg (Int.natCast_nonneg _)]
    omega
  · intro n hn
    rw [rd_matOf A hi hj hn, mul_one, Int.cast_natCast]
    exact ZMod.natCast_zmod_val _

/-- An entry of the matrix in memory holds the samples, as they are reduced. -/
theorem val_ntt_eq {w : Rq} {L : List ℤ} {seed : List UInt8} (hL : SampleNtt H seed L)
    (hw : ∀ n < 256, ntt w n = ((L.getD n 0 : ℤ) : Zq)) {n : ℕ} (hn : n < 256) :
    ((ntt w n).val : ℤ) = L.getD n 0 := by
  have hlen : n < L.length := by rwa [hL.length_eq]
  have hrange : 0 ≤ L.getD n 0 ∧ L.getD n 0 < 3329 := by
    rw [List.getD_eq_getElem _ _ hlen]
    obtain ⟨p, hp⟩ := hL.mem (List.getElem_mem hlen)
    exact sampleCand_bounds hp
  rw [hw n hn, ZMod.val_intCast]
  exact Int.emod_eq_of_lt hrange.1 hrange.2

/-- **The matrix in memory is the transform of the standard's**, or of its transpose. -/
theorem returns_genMatrix_iff (build : Build) {par : MlkemParam} {seed : Bytes}
    {transposed : Bool} {mat : Vector (PolyVec par.k) par.k} :
    (genMatrix build H par seed transposed).Returns mat ↔
      ∃ A, SampleMatrix H par.k (seed.take 32) A ∧
        mat = matOf par.k fun i j => if transposed then A j i else A i j := by
  rw [returns_genMatrix]
  constructor
  · intro h
    choose! L hL hmat using h
    have hA : ∀ i j, ∃ w : Rq, ∀ n < 256, ntt w n = (((L i j).getD n 0 : ℤ) : Zq) :=
      fun i j => ntt_surjective _
    choose A hA using hA
    refine ⟨fun i j => if transposed then A j i else A i j, fun i hi j hj => ?_, ?_⟩
    · cases transposed with
      | false => exact ⟨L i j, hL i hi j hj, hA i j⟩
      | true => exact ⟨L j i, hL j hj i hi, hA j i⟩
    · refine Vector.ext_rd fun i hi => Vector.ext_rd fun j hj => Vector.ext_rd fun n hn => ?_
      have hA' : (if transposed then if transposed then A i j else A j i
          else if transposed then A j i else A i j) = A i j := by
        cases transposed <;> rfl
      rw [rd_matOf _ hi hj hn, hA', val_ntt_eq (hL i hi j hj) (hA i j) hn, hmat i hi j hj,
        rd_ofSamples _ hn]
  · rintro ⟨A, hA, rfl⟩ i hi j hj
    cases transposed with
    | false =>
      obtain ⟨L, hL, hw⟩ := hA i hi j hj
      refine ⟨L, hL, Vector.ext_rd fun n hn => ?_⟩
      rw [rd_matOf _ hi hj hn, rd_ofSamples _ hn]
      exact val_ntt_eq hL hw hn
    | true =>
      obtain ⟨L, hL, hw⟩ := hA j hj i hi
      refine ⟨L, hL, Vector.ext_rd fun n hn => ?_⟩
      rw [rd_matOf _ hi hj hn, rd_ofSamples _ hn]
      exact val_ntt_eq hL hw hn

/-! ## The arithmetic -/

variable {a : Vector (PolyVec k) k} {A : ℕ → ℕ → Rq} {s e u : PolyVec k} {w : ℕ → Rq}

/-- **The arithmetic of `kpke_keygen`**: the transforms of `A s + e` and of `s`. -/
theorem keygenVectors_spec (build : Build) (hk : 0 < k) (hk4 : k ≤ 4)
    (ha : ∀ i < k, ∀ j < k, Bounded 4095 ((a.rd i).rd j) ∧ NttRep 1 ((a.rd i).rd j) (A i j))
    (hs : ∀ i < k, Bounded 3 (s.rd i)) (he : ∀ i < k, Bounded 3 (e.rd i)) :
    Chk.Holds (keygenVectors build a s e) fun p =>
      (∀ i < k, Bounded 3328 (p.1.rd i) ∧ NttRep 1 (p.1.rd i)
        (∑ j ∈ Finset.range k, A i j * toRq (s.rd j) + toRq (e.rd i))) ∧
      ∀ i < k, Bounded 3328 (p.2.rd i) ∧ NttRep 1 (p.2.rd i) (toRq (s.rd i)) := by
  unfold keygenVectors
  refine (polyvecNtt_spec build hs (by norm_num)).bind fun s' hs' => ?_
  refine (polyvecNtt_spec build he (by norm_num)).bind fun e' he' => ?_
  have hrow : ∀ i < k, Chk.Holds (polyvecBasemulAccMontgomery build (a.rd i) s' >>= fun t =>
      polyTomont build t) fun r => Bounded 2341 r ∧
        NttRep 1 r (∑ j ∈ Finset.range k, A i j * toRq (s.rd j)) := by
    intro i hi
    refine (polyvecBasemulAccMontgomery_spec build hk hk4 (fun j hj => (ha i hi j hj).1)
      (fun j hj => (hs' j hj).1) (fun j hj => (ha i hi j hj).2) fun j hj => (hs' j hj).2).bind
        fun t ht => ?_
    refine (polyTomont_spec build (ht.1.mono (by norm_num))).mono fun r hr => ⟨hr.1, fun n hn => ?_⟩
    have hrep := ht.2 n hn
    rw [mul_one, mul_one] at hrep
    rw [hr.2 n hn, mul_one, hrep]
  refine (Chk.Holds.tab hrow).bind fun t ht => ?_
  refine (polyvecAdd_spec build (fun i hi => (ht i hi).1) (fun i hi => (he' i hi).1)
    (by norm_num)).bind fun v hv => ?_
  refine (polyvecReduce_spec build fun i hi => (hv i hi).1.mono (by norm_num)).bind fun r hr => ?_
  refine Chk.Holds.pure ⟨fun i hi => ⟨(hr i hi).1.mono (by norm_num), ?_⟩, hs'⟩
  exact ((ht i hi).2.add (he' i hi).2 (hv i hi).2).congr (hr i hi).2

/-- **The arithmetic of `kpke_encrypt`**: `A y + e1` and `t y + e2 + m`, for the matrix it
is given. -/
theorem encryptVectors_spec (build : Build) (hk : 0 < k) (hk4 : k ≤ 4)
    (ha : ∀ i < k, ∀ j < k, Bounded 4095 ((a.rd i).rd j) ∧ NttRep 1 ((a.rd i).rd j) (A i j))
    (ht : ∀ i < k, Bounded 4095 (u.rd i) ∧ NttRep 1 (u.rd i) (w i))
    (hs : ∀ i < k, Bounded 3 (s.rd i)) (he : ∀ i < k, Bounded 3 (e.rd i)) {epp msg : Poly}
    (hepp : Bounded 3 epp) (hmsg : Bounded 3328 msg) :
    Chk.Holds (encryptVectors build a u s e epp msg) fun p =>
      (∀ i < k, Bounded 1664 (p.1.rd i) ∧
        toRq (p.1.rd i) = ∑ j ∈ Finset.range k, A i j * toRq (s.rd j) + toRq (e.rd i)) ∧
      Bounded 1664 p.2 ∧
        toRq p.2 = ∑ j ∈ Finset.range k, w j * toRq (s.rd j) + toRq epp + toRq msg := by
  unfold encryptVectors
  refine (polyvecNtt_spec build hs (by norm_num)).bind fun s' hs' => ?_
  have hrow : ∀ i < k, Chk.Holds (polyvecBasemulAccMontgomery build (a.rd i) s') fun r =>
      Bounded 1664 r ∧ NttRep (2 ^ 16 * (1 * 1)) r (∑ j ∈ Finset.range k, A i j * toRq (s.rd j)) :=
    fun i hi => polyvecBasemulAccMontgomery_spec build hk hk4 (fun j hj => (ha i hi j hj).1)
      (fun j hj => (hs' j hj).1) (fun j hj => (ha i hi j hj).2) fun j hj => (hs' j hj).2
  simp only [mul_one] at hrow
  refine (Chk.Holds.tab hrow).bind fun b hb => ?_
  have hprod := polyvecBasemulAccMontgomery_spec build hk hk4 (fun j hj => (ht j hj).1)
    (fun j hj => (hs' j hj).1) (fun j hj => (ht j hj).2) fun j hj => (hs' j hj).2
  simp only [mul_one] at hprod
  refine hprod.bind fun v hv => ?_
  refine (polyvecInvnttTomont_spec build (fun i hi => (hb i hi).1) fun i hi => (hb i hi).2).bind
    fun b' hb' => ?_
  refine (polyInvnttTomont_spec build hv.1 hv.2).bind fun v' hv' => ?_
  refine (polyvecAdd_spec build (fun i hi => (hb' i hi).1) he (by norm_num)).bind fun b'' hb'' => ?_
  refine (polyAdd_spec build hv'.1 hepp (by norm_num)).bind fun v₁ hv₁ => ?_
  refine (polyAdd_spec build hv₁.1 hmsg (by norm_num)).bind fun v₂ hv₂ => ?_
  refine (polyvecReduce_spec build fun i hi => (hb'' i hi).1.mono (by norm_num)).bind fun r hr => ?_
  refine (polyReduce_spec build (hv₂.1.mono (by norm_num))).bind fun x hx => ?_
  refine Chk.Holds.pure ⟨fun i hi => ⟨(hr i hi).1, ?_⟩, hx.1, ?_⟩
  · rw [toRq_congr (hr i hi).2, ← (hb' i hi).2]
    exact toRq_add fun n hn => by rw [(hb'' i hi).2 n hn, Int.cast_add]
  · rw [toRq_congr hx.2, ← hv'.2, ← toRq_add fun n hn => by rw [hv₁.2 n hn, Int.cast_add]]
    exact toRq_add fun n hn => by rw [hv₂.2 n hn, Int.cast_add]

/-- **The arithmetic of `kpke_decrypt`**: `v - s u`. -/
theorem decryptVectors_spec (build : Build) (hk : 0 < k) (hk4 : k ≤ 4)
    (hs : ∀ i < k, Bounded 4095 (s.rd i) ∧ NttRep 1 (s.rd i) (w i))
    (hu : ∀ i < k, Bounded 3328 (u.rd i)) {v : Poly} (hv : Bounded 3328 v) :
    Chk.Holds (decryptVectors build s u v) fun r => Bounded 1664 r ∧
      toRq r = toRq v - ∑ i ∈ Finset.range k, w i * toRq (u.rd i) := by
  unfold decryptVectors
  refine (polyvecNtt_spec build hu (by norm_num)).bind fun u' hu' => ?_
  have hprod := polyvecBasemulAccMontgomery_spec build hk hk4 (fun j hj => (hs j hj).1)
    (fun j hj => (hu' j hj).1) (fun j hj => (hs j hj).2) fun j hj => (hu' j hj).2
  simp only [mul_one] at hprod
  refine hprod.bind fun p hp => ?_
  refine (polyInvnttTomont_spec build hp.1 hp.2).bind fun p' hp' => ?_
  refine (polySub_spec build hv hp'.1 (by norm_num)).bind fun d hd => ?_
  refine (polyReduce_spec build (hd.1.mono (by norm_num))).mono fun r hr => ⟨hr.1, ?_⟩
  rw [toRq_congr hr.2, ← hp'.2]
  exact toRq_sub fun n hn => by rw [hd.2 n hn, Int.cast_sub]

/-! ## Encoding -/

/-- Coefficients in memory, reduced to the standard representatives. -/
theorem std_toRq (a : Poly) {n : ℕ} (hn : n < 256) : (std (toRq a) n).toNat = (a.rd n : Zq).val := by
  have hcoeff : Negacyclic.coeff degree_pos (toRq a) n = (a.rd n : Zq) :=
    coeff_ofCoeffs degree_pos _ hn
  unfold std
  rw [hcoeff, Int.toNat_natCast]

theorem encodeRq_toRq (d : ℕ) (a : Poly) :
    encodeRq d (toRq a) = byteEncode d fun n => compress d (a.rd n : Zq).val :=
  byteEncode_congr fun n hn => by rw [std_toRq a hn]

theorem decodeRq_eq (d : ℕ) (b : Bytes) :
    toRq (Vector.tab 256 fun n => (decompress d (byteDecode d b n) : ℤ)) = decodeRq d b :=
  ofCoeffs_congr fun n hn => by rw [Vector.rd_tab _ hn]

theorem encodeNtt_congr {w w' : ℕ → Rq} (h : ∀ i < k, w i = w' i) :
    encodeNtt k w = encodeNtt k w' :=
  List.flatMap_congr fun i hi => by rw [h i (List.mem_range.1 hi)]

/-- **`polyvec_tobytes`** writes the transforms. -/
theorem polyvecTobytes_rep (h : ∀ i < k, Bounded 3328 (s.rd i) ∧ NttRep 1 (s.rd i) (w i)) :
    polyvecTobytes s = pure (encodeNtt k w) := by
  rw [polyvecTobytes_eq fun i hi n hn => ((h i hi).1 n hn).trans_lt (by norm_num)]
  refine congrArg pure (List.flatMap_congr fun i hi => byteEncode_congr fun n hn => ?_)
  rw [← (h i (List.mem_range.1 hi)).2 n hn, mul_one]

/-- The vector that `polyvec_frombytes` reads. -/
def decodedVec (k : ℕ) (b : Bytes) : PolyVec k :=
  Vector.tab k fun i => Vector.tab 256 fun n => (byteDecode 12 (b.drop (i * 384)) n : ℤ)

theorem polyvecFrombytes_decoded (k : ℕ) (b : Bytes) :
    polyvecFrombytes k b = pure (decodedVec k b) := polyvecFrombytes_eq k b

/-- **What `polyvec_frombytes` reads** are transforms of a vector over the ring. -/
theorem decodedVec_spec {b : Bytes} (hw : DecodesNtt k b w) {i : ℕ} (hi : i < k) :
    Bounded 4095 ((decodedVec k b).rd i) ∧ NttRep 1 ((decodedVec k b).rd i) (w i) := by
  unfold decodedVec
  rw [Vector.rd_tab _ hi]
  constructor
  · intro n hn
    have hlt := byteDecode_lt 12 (b.drop (i * 384)) n
    rw [Vector.rd_tab _ hn, abs_of_nonneg (Int.natCast_nonneg _)]
    omega
  · intro n hn
    rw [Vector.rd_tab _ hn, hw i hi n hn, mul_one, Int.cast_natCast]

theorem exists_decodesNtt (k : ℕ) (b : Bytes) : ∃ w, DecodesNtt k b w := by
  choose w hw using fun i : ℕ =>
    ntt_surjective fun n => ((byteDecode 12 (b.drop (i * 384)) n : ℕ) : Zq)
  exact ⟨w, fun i _ => hw i⟩

/-! ## Noise -/

theorem toRq_polyGetnoiseEta1 (build : Build) (i : Fin 3) (seed : Bytes) (nonce : ℕ) :
    toRq (polyGetnoiseEta1 build H (mlkemPar i) seed nonce) =
      noise H (mlkemPar i).eta1 (seed.take 32) nonce :=
  ofCoeffs_congr fun n hn => by rw [rd_polyGetnoiseEta1 build H i seed nonce hn]

theorem toRq_polyGetnoiseEta2 (build : Build) (seed : Bytes) (nonce : ℕ) :
    toRq (polyGetnoiseEta2 build H seed nonce) = noise H 2 (seed.take 32) nonce :=
  ofCoeffs_congr fun n hn => by rw [rd_polyGetnoiseEta2 build H seed nonce hn]

theorem bounded_polyGetnoiseEta1 (build : Build) (i : Fin 3) (seed : Bytes) (nonce : ℕ) :
    Bounded 3 (polyGetnoiseEta1 build H (mlkemPar i) seed nonce) := by
  intro n hn
  have heta : (mlkemPar i).eta1 ≤ 3 := by fin_cases i <;> decide
  rw [rd_polyGetnoiseEta1 build H i seed nonce hn]
  exact (abs_samplePolyCbd_le _ _ _).trans (by exact_mod_cast heta)

theorem bounded_polyGetnoiseEta2 (build : Build) (seed : Bytes) (nonce : ℕ) :
    Bounded 3 (polyGetnoiseEta2 build H seed nonce) := by
  intro n hn
  rw [rd_polyGetnoiseEta2 build H seed nonce hn]
  exact (abs_samplePolyCbd_le _ _ _).trans (by norm_num)

theorem k_range (i : Fin 3) : 0 < (mlkemPar i).k ∧ (mlkemPar i).k ≤ 4 := by
  fin_cases i <;> decide

/-! ## Key generation -/

/-- **What `kpke_keygen` packs** for a matrix. -/
theorem keygenVectors_eq (build : Build) (i : Fin 3) (A : ℕ → ℕ → Rq) (seed noiseseed : Bytes) :
    (do
      let p ← keygenVectors build (matOf (mlkemPar i).k A)
        (Vector.tab _ fun j => polyGetnoiseEta1 build H (mlkemPar i) noiseseed j)
        (Vector.tab _ fun j => polyGetnoiseEta1 build H (mlkemPar i) noiseseed ((mlkemPar i).k + j))
      let dk ← packDk p.2
      let ek ← packEk p.1 seed
      pure (ek, dk)) = (pure
        (encodeNtt (mlkemPar i).k (fun r => ∑ j ∈ Finset.range (mlkemPar i).k,
            A r j * noise H (mlkemPar i).eta1 (noiseseed.take 32) j +
              noise H (mlkemPar i).eta1 (noiseseed.take 32) ((mlkemPar i).k + r)) ++ seed.take 32,
          encodeNtt (mlkemPar i).k fun j => noise H (mlkemPar i).eta1 (noiseseed.take 32) j) :
        Chk (List UInt8 × List UInt8)) := by
  have hnoise : ∀ r < (mlkemPar i).k, toRq ((Vector.tab (mlkemPar i).k fun j =>
      polyGetnoiseEta1 build H (mlkemPar i) noiseseed j).rd r) =
        noise H (mlkemPar i).eta1 (noiseseed.take 32) r := fun r hr => by
    rw [Vector.rd_tab _ hr, toRq_polyGetnoiseEta1]
  have hpublic : ∀ r < (mlkemPar i).k, ∑ j ∈ Finset.range (mlkemPar i).k,
      A r j * toRq ((Vector.tab (mlkemPar i).k fun j =>
        polyGetnoiseEta1 build H (mlkemPar i) noiseseed j).rd j) +
      toRq ((Vector.tab (mlkemPar i).k fun j =>
        polyGetnoiseEta1 build H (mlkemPar i) noiseseed ((mlkemPar i).k + j)).rd r) =
      ∑ j ∈ Finset.range (mlkemPar i).k,
        A r j * noise H (mlkemPar i).eta1 (noiseseed.take 32) j +
          noise H (mlkemPar i).eta1 (noiseseed.take 32) ((mlkemPar i).k + r) := by
    intro r hr
    rw [Vector.rd_tab _ hr, toRq_polyGetnoiseEta1, Finset.sum_congr rfl fun j hj => by
      rw [hnoise j (Finset.mem_range.1 hj)]]
  refine Chk.Holds.eq_pure ((keygenVectors_spec build (k_range i).1 (k_range i).2
    (fun r hr j hj => matOf_spec A hr hj) (fun j hj => ?_) fun j hj => ?_).bind fun p hp => ?_)
  · rw [Vector.rd_tab _ hj]
    exact bounded_polyGetnoiseEta1 build i noiseseed j
  · rw [Vector.rd_tab _ hj]
    exact bounded_polyGetnoiseEta1 build i noiseseed _
  · unfold packDk packEk
    rw [polyvecTobytes_rep hp.2, polyvecTobytes_rep hp.1, pure_bind, pure_bind, pure_bind,
      encodeNtt_congr hnoise, encodeNtt_congr hpublic]
    exact Chk.Holds.pure rfl

/-- The two halves of a digest of 64 bytes. -/
theorem digest_halves (g : Bytes) : (Bytes.ofList (g.take 64)).take 32 = g.take 32 ∧
    ((Bytes.ofList (g.take 64)).drop 32).take 32 = (g.drop 32).take 32 := by
  constructor
  · exact Bytes.take_congr fun i hi => Bytes.ofList_take (by omega)
  · exact Bytes.take_congr fun i hi => Bytes.ofList_take (show 32 + i < 64 by omega)

/-- **`kpke_keygen`**, in either build, gives what the standard comes to. -/
theorem returns_kpkeKeygen (build : Build) (i : Fin 3) {d : Bytes} {ek dk : List UInt8} :
    (kpkeKeygen build H (mlkemPar i) d).Returns (ek, dk) ↔
      KpkeKeyGen H (mlkemPar i) (d.take 32) ek dk := by
  unfold kpkeKeygen KpkeKeyGen
  obtain ⟨hrho, hsigma⟩ := digest_halves
    (H.sha3_512 (d.take 32 ++ [UInt8.ofNat (mlkemPar i).k]))
  simp only [returns_bind, returns_lift, returns_pure, exists_eq_left', returns_genMatrix_iff,
    hashG, hrho, if_neg Bool.false_ne_true]
  have hval : ∀ A, _ := fun A => congrArg Chk.val (keygenVectors_eq (H := H) build i A
    (Bytes.ofList ((H.sha3_512 (d.take 32 ++ [UInt8.ofNat (mlkemPar i).k])).take 64))
    ((Bytes.ofList ((H.sha3_512 (d.take 32 ++ [UInt8.ofNat (mlkemPar i).k])).take 64)).drop 32))
  simp only [Chk.val_bind, Chk.val_pure, hrho, hsigma] at hval
  constructor
  · rintro ⟨_, ⟨A, hA, rfl⟩, h⟩
    rw [hval A, Prod.mk.injEq] at h
    exact ⟨A, hA, h.1.symm, h.2.symm⟩
  · rintro ⟨A, hA, rfl, rfl⟩
    exact ⟨_, ⟨A, hA, rfl⟩, hval A⟩

/-! ## Encryption -/

/-- **What `kpke_encrypt` packs** for a matrix and a public vector. -/
theorem encryptVectors_eq (build : Build) (i : Fin 3) (A : ℕ → ℕ → Rq) {ek : Bytes}
    (hw : DecodesNtt (mlkemPar i).k ek w) (m r : Bytes) :
    (do
      let p ← encryptVectors build (matOf (mlkemPar i).k A) (decodedVec _ ek)
        (Vector.tab _ fun j => polyGetnoiseEta1 build H (mlkemPar i) r j)
        (Vector.tab _ fun j => polyGetnoiseEta2 build H r ((mlkemPar i).k + j))
        (polyGetnoiseEta2 build H r ((mlkemPar i).k + (mlkemPar i).k))
        (Vector.tab 256 fun n => (decompress 1 (byteDecode 1 m n) : ℤ))
      packCiphertext (mlkemPar i) p.1 p.2) =
      pure ((List.range (mlkemPar i).k).flatMap (fun l => encodeRq (mlkemPar i).du
          (∑ j ∈ Finset.range (mlkemPar i).k, A l j * noise H (mlkemPar i).eta1 (r.take 32) j +
            noise H 2 (r.take 32) ((mlkemPar i).k + l))) ++
        encodeRq (mlkemPar i).dv
          (∑ j ∈ Finset.range (mlkemPar i).k, w j * noise H (mlkemPar i).eta1 (r.take 32) j +
            noise H 2 (r.take 32) (2 * (mlkemPar i).k) + decodeRq 1 m)) := by
  have hnoise : ∀ j ∈ Finset.range (mlkemPar i).k, toRq ((Vector.tab (mlkemPar i).k fun j =>
      polyGetnoiseEta1 build H (mlkemPar i) r j).rd j) =
        noise H (mlkemPar i).eta1 (r.take 32) j := fun j hj => by
    rw [Vector.rd_tab _ (Finset.mem_range.1 hj), toRq_polyGetnoiseEta1]
  refine Chk.Holds.eq_pure ((encryptVectors_spec build (k_range i).1 (k_range i).2
    (fun l hl j hj => matOf_spec A hl hj) (fun j hj => decodedVec_spec hw hj) (fun j hj => ?_)
    (fun j hj => ?_) (bounded_polyGetnoiseEta2 build r _) fun n hn => ?_).bind fun p hp => ?_)
  · rw [Vector.rd_tab _ hj]
    exact bounded_polyGetnoiseEta1 build i r j
  · rw [Vector.rd_tab _ hj]
    exact bounded_polyGetnoiseEta2 build r _
  · have hlt := decompress_lt (d := 1) (by norm_num) (byteDecode_lt 1 m n)
    rw [Vector.rd_tab _ hn, abs_of_nonneg (Int.natCast_nonneg _)]
    omega
  · obtain ⟨hb, hv, hvsum⟩ := hp
    rw [packCiphertext_eq i (fun j hj l hl => ((hb j hj).1 l hl).trans_lt (by norm_num))
      fun l hl => (hv l hl).trans_lt (by norm_num), ← encodeRq_toRq, hvsum, decodeRq_eq,
      toRq_polyGetnoiseEta2, ← two_mul, Finset.sum_congr rfl fun j hj => by rw [hnoise j hj]]
    refine Chk.Holds.pure (congrArg (fun l => l ++ _) (List.flatMap_congr fun l hl => ?_))
    rw [List.mem_range] at hl
    rw [← encodeRq_toRq, (hb l hl).2, Vector.rd_tab _ hl, toRq_polyGetnoiseEta2,
      Finset.sum_congr rfl fun j hj => by rw [hnoise j hj]]

/-- **`kpke_encrypt`**, in either build, gives what the standard comes to. -/
theorem returns_kpkeEncrypt (build : Build) (i : Fin 3) {ek m r : Bytes} {c : List UInt8} :
    (kpkeEncrypt build H (mlkemPar i) ek m r).Returns c ↔
      KpkeEncrypt H (mlkemPar i) ek m (r.take 32) c := by
  have hval : ∀ A w, DecodesNtt (mlkemPar i).k ek w → _ := fun A w hw =>
    congrArg Chk.val (encryptVectors_eq (H := H) build i A hw m r)
  simp only [Chk.val_bind, Chk.val_pure] at hval
  unfold kpkeEncrypt KpkeEncrypt unpackEk
  rw [polyvecFrombytes_decoded, polyFrommsg_eq, pure_bind]
  simp only [returns_bind, returns_lift, exists_eq_left', returns_genMatrix_iff,
    if_true, Chk.val_pure]
  constructor
  · rintro ⟨_, ⟨A, hA, rfl⟩, h⟩
    obtain ⟨w, hw⟩ := exists_decodesNtt (mlkemPar i).k ek
    rw [hval _ w hw] at h
    exact ⟨A, w, hA, hw, h.symm⟩
  · rintro ⟨A, t, hA, ht, rfl⟩
    exact ⟨_, ⟨A, hA, rfl⟩, hval _ t ht⟩

/-! ## Decryption -/

/-- **`kpke_decrypt`**, in either build, gives what the standard comes to. -/
theorem kpkeDecrypt_iff (build : Build) (i : Fin 3) {dk c : Bytes} {m : List UInt8} :
    kpkeDecrypt build (mlkemPar i) dk c = pure m ↔ KpkeDecrypt (mlkemPar i) dk c m := by
  have hrun : ∀ w, DecodesNtt (mlkemPar i).k dk w → kpkeDecrypt build (mlkemPar i) dk c =
      pure (encodeRq 1 (decodeRq (mlkemPar i).dv (c.drop ((mlkemPar i).k * (32 * (mlkemPar i).du))) -
        ∑ j ∈ Finset.range (mlkemPar i).k,
          w j * decodeRq (mlkemPar i).du (c.drop (j * (32 * (mlkemPar i).du))))) := by
    intro w hw
    unfold kpkeDecrypt unpackDk
    rw [unpackCiphertext_eq, pure_bind, polyvecFrombytes_decoded]
    dsimp only
    rw [pure_bind]
    refine Chk.Holds.eq_pure ((decryptVectors_spec build (k_range i).1 (k_range i).2
      (fun j hj => decodedVec_spec hw hj) (fun j hj n hn => ?_) fun n hn => ?_).bind fun p hp => ?_)
    · rw [Vector.rd_tab _ hj, Vector.rd_tab _ hn, abs_of_nonneg (Int.natCast_nonneg _)]
      have hlt := decompress_lt (du_lt i).2 (byteDecode_lt (mlkemPar i).du
        (c.drop (j * (32 * (mlkemPar i).du))) n)
      omega
    · rw [Vector.rd_tab _ hn, abs_of_nonneg (Int.natCast_nonneg _)]
      have hlt := decompress_lt (dv_lt i).2 (byteDecode_lt (mlkemPar i).dv
        (c.drop ((mlkemPar i).k * (32 * (mlkemPar i).du))) n)
      omega
    · rw [polyTomsg_eq hp.1, ← encodeRq_toRq, hp.2, decodeRq_eq]
      refine Chk.Holds.pure ?_
      rw [Finset.sum_congr rfl fun j hj => by
        rw [Vector.rd_tab _ (Finset.mem_range.1 hj), decodeRq_eq]]
  obtain ⟨w, hw⟩ := exists_decodesNtt (mlkemPar i).k dk
  constructor
  · intro h
    rw [hrun w hw] at h
    exact ⟨w, hw, (congrArg Chk.val h).symm⟩
  · rintro ⟨t, ht, rfl⟩
    exact hrun t ht

theorem exists_kpkeDecrypt (par : MlkemParam) (dk c : Bytes) : ∃ m, KpkeDecrypt par dk c m := by
  obtain ⟨w, hw⟩ := exists_decodesNtt par.k dk
  exact ⟨_, w, hw, rfl⟩

theorem length_encodeRq (d : ℕ) (w : Rq) : (encodeRq d w).length = 32 * d := length_byteEncode d _

theorem length_kpkeEncrypt (i : Fin 3) {ek m : Bytes} {r c : List UInt8}
    (h : KpkeEncrypt H (mlkemPar i) ek m r c) : c.length = (mlkemPar i).ctSz := by
  obtain ⟨A, t, -, -, rfl⟩ := h
  rw [List.length_append, List.length_flatMap, List.map_congr_left fun j _ => length_encodeRq _ _,
    length_encodeRq, ctSz_eq]
  simp

theorem length_kpkeDecrypt {par : MlkemParam} {dk c : Bytes} {m : List UInt8}
    (h : KpkeDecrypt par dk c m) : m.length = 32 := by
  obtain ⟨w, -, rfl⟩ := h
  exact length_encodeRq 1 _

/-- **The encryption scheme is the standard's**, in either build and for every input: a
function returns exactly when the sampling ends, and what the standard comes to. -/
theorem kpke_exact (build : Build) (H : Hash) (i : Fin 3) :
    (∀ (d : Bytes) (ek dk : List UInt8),
      (kpkeKeygen build H (mlkemPar i) d).Returns (ek, dk) ↔
        KpkeKeyGen H (mlkemPar i) (d.take 32) ek dk) ∧
    (∀ (ek m r : Bytes) (c : List UInt8),
      (kpkeEncrypt build H (mlkemPar i) ek m r).Returns c ↔
        KpkeEncrypt H (mlkemPar i) ek m (r.take 32) c) ∧
    ∀ (dk c : Bytes) (m : List UInt8),
      kpkeDecrypt build (mlkemPar i) dk c = pure m ↔ KpkeDecrypt (mlkemPar i) dk c m :=
  ⟨fun _ _ _ => returns_kpkeKeygen build i, fun _ _ _ _ => returns_kpkeEncrypt build i,
    fun _ _ _ => kpkeDecrypt_iff build i⟩

/-! ## Safety -/

theorem safe_genMatrix_iff (build : Build) (par : MlkemParam) (seed : Bytes) (transposed : Bool) :
    (genMatrix build H par seed transposed).Safe fun mat => ∃ A,
      SampleMatrix H par.k (seed.take 32) A ∧
        mat = matOf par.k fun i j => if transposed then A j i else A i j :=
  Safe.of_forall ((safe_genMatrix build H par seed transposed).mono fun _ _ => trivial)
    fun _ => (returns_genMatrix_iff build).1

theorem safe_kpkeKeygen (build : Build) (i : Fin 3) (d : Bytes) :
    (kpkeKeygen build H (mlkemPar i) d).Safe fun _ => True := by
  unfold kpkeKeygen
  refine (safe_genMatrix_iff build _ _ _).bind ?_
  rintro _ ⟨A, -, rfl⟩
  -- what is left makes no further use of fuel
  exact Safe.lift_pure (keygenVectors_eq build i A _ _) trivial

theorem safe_kpkeEncrypt (build : Build) (i : Fin 3) (ek m r : Bytes) :
    (kpkeEncrypt build H (mlkemPar i) ek m r).Safe fun _ => True := by
  obtain ⟨w, hw⟩ := exists_decodesNtt (mlkemPar i).k ek
  unfold kpkeEncrypt unpackEk
  rw [polyvecFrombytes_decoded, polyFrommsg_eq, pure_bind]
  refine (safe_genMatrix_iff build _ _ _).bind ?_
  rintro _ ⟨A, -, rfl⟩
  exact Safe.lift_pure (encryptVectors_eq build i _ hw m r) trivial

end Mlkem
