import Karudeb.Mlkem.Kem
import Karudeb.Mlkem.KpkeSpec

/-!
# ML-KEM: decapsulation, and the two builds

* `returns_keygenInternal` : what stands where in a decapsulation key.
* `returns_encapsInternal`, `returns_decapsInternal` : the results, in either build.
* `decaps_exact` : decapsulation, down to the implicit rejection.
* `builds_agree` : the two builds return the same bytes.
* `kem_safe` : no check fails in any execution, whatever the keys are.
-/

namespace Mlkem

open Word Fips203 Prog

variable {H : Hash}

/-! ## Comparing and moving -/

theorem foldl_or_eq_zero (f : ℕ → UInt8) (n : ℕ) :
    (List.range n).foldl (fun r i => r ||| f i) 0 = 0 ↔ ∀ i < n, f i = 0 := by
  induction n with
  | zero => exact iff_of_true rfl fun i hi => absurd hi (Nat.not_lt_zero i)
  | succ n ih =>
    rw [List.range_succ, List.foldl_append, List.foldl_cons, List.foldl_nil, UInt8.or_eq_zero_iff,
      ih]
    exact Nat.forall_lt_succ_right.symm

/-- The sign of the negated byte tells whether it is zero. -/
theorem neg_shift_eq_zero : ∀ r : UInt8, ((-r.toUInt64) >>> 63).toNat = 0 ↔ r = 0 := by
  intro r
  cases r with
  | ofBitVec r =>
    revert r
    decide +kernel

/-- **`verify`** compares all the bytes. -/
theorem verify_eq_zero (a b : Bytes) (len : ℕ) :
    verify a b len = 0 ↔ a.take len = b.take len := by
  unfold verify
  dsimp only
  rw [neg_shift_eq_zero, foldl_or_eq_zero]
  simp only [UInt8.xor_eq_zero_iff]
  exact ⟨Bytes.take_congr, fun h i hi => Bytes.take_inj h hi⟩

/-- **`cmov`** moves the bytes or leaves them. -/
theorem cmov_eq (r x : Bytes) (len : ℕ) (p : Prop) [Decidable p] :
    cmov r x len (if p then 1 else 0) = if p then r.put 0 (x.take len) else r := by
  have hone : ∀ u v : UInt8, u ^^^ (-1 &&& (u ^^^ v)) = v := by
    intro u v
    rw [UInt8.neg_one_and, ← UInt8.xor_assoc, UInt8.xor_self, UInt8.zero_xor]
  have hzero : ∀ u v : UInt8, u ^^^ (-0 &&& (u ^^^ v)) = u := by
    intro u v
    rw [UInt8.neg_zero, UInt8.zero_and, UInt8.xor_zero]
  unfold cmov
  split
  · simp only [hone]
    exact Bytes.foldl_copy r x len
  · simp only [hzero]
    exact Bytes.foldl_copy_self r len

/-! ## The scheme -/

theorem dkSz_eq (i : Fin 3) : (mlkemPar i).ekSz = (mlkemPar i).k * 384 + 32 ∧
    (mlkemPar i).dkSz = (mlkemPar i).k * 384 + (mlkemPar i).ekSz + 64 := by
  fin_cases i <;> decide

/-- Only the first 32 bytes of a message are encrypted. -/
theorem kpkeEncrypt_congr {par : MlkemParam} {ek m m' : Bytes} (h : ∀ j < 32, m j = m' j)
    {r c : List UInt8} : KpkeEncrypt H par ek m r c ↔ KpkeEncrypt H par ek m' r c := by
  have hdec : decodeRq 1 m = decodeRq 1 m' := by
    refine Negacyclic.ofCoeffs_congr fun n hn => ?_
    have hbit : byteDecode 1 m n = byteDecode 1 m' n :=
      Bits.regroup_congr (N := 32) (fun j hj => congrArg UInt8.toNat (h j hj)) (by omega)
    dsimp only
    rw [hbit]
  unfold KpkeEncrypt
  rw [hdec]

theorem length_encodeNtt (k : ℕ) (w : ℕ → Rq) : (encodeNtt k w).length = k * 384 := by
  rw [encodeNtt, List.length_flatMap, List.map_congr_left fun j _ => length_byteEncode 12 _]
  simp

theorem length_kpkeKeyGen (i : Fin 3) {d ek s : List UInt8} (h : KpkeKeyGen H (mlkemPar i) d ek s) :
    s.length = (mlkemPar i).k * 384 ∧ ek.length = (mlkemPar i).ekSz := by
  obtain ⟨A, -, rfl, rfl⟩ := h
  rw [List.length_append, length_encodeNtt, length_encodeNtt, Bytes.length_take]
  exact ⟨rfl, (dkSz_eq i).1.symm⟩

/-- **`mlkem_keygen_internal`**: the key of the encryption scheme, the encapsulation key,
its digest and `z`, one behind the other. -/
theorem returns_keygenInternal (build : Build) (i : Fin 3) {dk d z dk' : Bytes}
    {ek : List UInt8} : (keygenInternal build H (mlkemPar i) dk d z).Returns (ek, dk') ↔
      ∃ s, KpkeKeyGen H (mlkemPar i) (d.take 32) ek s ∧
        dk' = dk.put 0 (s ++ ek ++ (H.sha3_256 ek).take 32 ++ z.take 32) := by
  have hput : ∀ {s : List UInt8}, KpkeKeyGen H (mlkemPar i) (d.take 32) ek s →
      (((dk.put 0 s).put ((mlkemPar i).k * 384) ((Bytes.ofList ek).take (mlkemPar i).ekSz)).put
        ((mlkemPar i).dkSz - 2 * 32) (hashH H ((Bytes.ofList ek).take (mlkemPar i).ekSz))).put
          ((mlkemPar i).dkSz - 32) (z.take 32) =
        dk.put 0 (s ++ ek ++ (H.sha3_256 ek).take 32 ++ z.take 32) := by
    intro s hs
    obtain ⟨hs, hek⟩ := length_kpkeKeyGen i hs
    have hh : (mlkemPar i).dkSz - 2 * 32 = 0 + (s ++ ek).length := by
      rw [List.length_append, hs, hek, (dkSz_eq i).2, Nat.zero_add]
      rfl
    have hz : (mlkemPar i).dkSz - 32 = 0 + (s ++ ek ++ (H.sha3_256 ek).take 32).length := by
      rw [List.length_append, List.length_append, Bytes.length_take, hs, hek, (dkSz_eq i).2,
        Nat.zero_add]
      rfl
    rw [hz, hh, ← hek, Bytes.take_ofList, ← hs, ← Nat.zero_add s.length, Bytes.put_put, hashH,
      Bytes.put_put, Bytes.put_put]
  unfold keygenInternal
  simp only [returns_bind, returns_pure, Prod.exists, returns_kpkeKeygen, Prod.mk.injEq]
  constructor
  · rintro ⟨_, s, hs, rfl, rfl⟩
    exact ⟨s, hs, hput hs⟩
  · rintro ⟨s, hs, rfl⟩
    exact ⟨ek, s, hs, rfl, hput hs⟩

/-- **`mlkem_encaps_internal`**. -/
theorem returns_encapsInternal (build : Build) (i : Fin 3) {ek m : Bytes} {kk ct : List UInt8} :
    (encapsInternal build H (mlkemPar i) ek m).Returns (kk, ct) ↔
      let g := H.sha3_512 (m.take 32 ++ (H.sha3_256 (ek.take (mlkemPar i).ekSz)).take 32)
      KpkeEncrypt H (mlkemPar i) ek m ((g.drop 32).take 32) ct ∧ kk = g.take 32 := by
  obtain ⟨hfst, hsnd⟩ := digest_halves
    (H.sha3_512 (m.take 32 ++ (H.sha3_256 (ek.take (mlkemPar i).ekSz)).take 32))
  have hm : ∀ j < 32, Bytes.ofList
      (m.take 32 ++ (H.sha3_256 (ek.take (mlkemPar i).ekSz)).take 32) j = m j := by
    intro j hj
    have hlen : j < (m.take 32).length := by rwa [Bytes.length_take]
    rw [Bytes.ofList, List.getD_append _ _ _ _ hlen]
    exact Bytes.ofList_take hj
  unfold encapsInternal
  simp only [returns_bind, returns_pure, returns_kpkeEncrypt, Prod.mk.injEq, hashG, hashH, hfst,
    hsnd, kpkeEncrypt_congr hm]
  constructor
  · rintro ⟨_, hc, rfl, rfl⟩
    exact ⟨hc, rfl⟩
  · rintro ⟨hc, rfl⟩
    exact ⟨ct, hc, rfl, rfl⟩

/-- The blocks of a ciphertext. -/
theorem ciphertext_blocks (i : Fin 3) {ct : Bytes} {u : ℕ → Rq} {v : Rq}
    (h : ct.take (mlkemPar i).ctSz = (List.range (mlkemPar i).k).flatMap (fun l =>
      encodeRq (mlkemPar i).du (u l)) ++ encodeRq (mlkemPar i).dv v) :
    (∀ l < (mlkemPar i).k, (ct.drop (l * (32 * (mlkemPar i).du))).take (32 * (mlkemPar i).du) =
      encodeRq (mlkemPar i).du (u l)) ∧
    (ct.drop ((mlkemPar i).k * (32 * (mlkemPar i).du))).take (32 * (mlkemPar i).dv) =
      encodeRq (mlkemPar i).dv v := by
  have hlen : ((List.range (mlkemPar i).k).flatMap fun l =>
      encodeRq (mlkemPar i).du (u l)).length = (mlkemPar i).k * (32 * (mlkemPar i).du) := by
    rw [List.length_flatMap, List.map_congr_left fun j _ => length_encodeRq _ _]
    simp
  rw [ctSz_eq, Bytes.take_add] at h
  obtain ⟨hu, hv⟩ := List.append_inj h (by rw [Bytes.length_take, hlen])
  exact ⟨(Bytes.take_flatMap ct fun j _ => length_encodeRq _ _).1 hu, hv⟩

theorem exists_kpkeEncrypt {par : MlkemParam} {ek m : Bytes} {r : List UInt8} :
    (∃ c, KpkeEncrypt H par ek m r c) ↔
      ∃ A, SampleMatrix H par.k ((ek.drop (par.k * 384)).take 32) A := by
  constructor
  · rintro ⟨c, A, t, hA, -, -⟩
    exact ⟨A, hA⟩
  · rintro ⟨A, hA⟩
    obtain ⟨t, ht⟩ := exists_decodesNtt par.k ek
    exact ⟨_, A, t, hA, ht, rfl⟩

/-! ## Decapsulation -/

/-- The digest of the decrypted message and the digest of the encapsulation key, which is
the key and then the coins. -/
def decapsDigest (H : Hash) (par : MlkemParam) (dk : Bytes) (m : List UInt8) : Bytes :=
  H.sha3_512 (m ++ (dk.drop (par.dkSz - 64)).take 32)

/-- Decapsulation decrypts `ct` to `m`, and encrypts that to `c` again. -/
def Reencrypts (build : Build) (H : Hash) (par : MlkemParam) (dk ct : Bytes)
    (m c : List UInt8) : Prop :=
  kpkeDecrypt build par dk ct = pure m ∧
    (kpkeEncrypt build H par (dk.drop (par.k * 384)) (Bytes.ofList m)
      ((decapsDigest H par dk m).drop 32)).Returns c

/-- The rejection key. -/
def rejectKey (H : Hash) (par : MlkemParam) (dk ct : Bytes) : List UInt8 :=
  (H.shake256 ((dk.drop (par.dkSz - 32)).take 32 ++ ct.take par.ctSz)).take 32

theorem reencrypts_iff (build : Build) (i : Fin 3) {dk ct : Bytes} {m c : List UInt8} :
    Reencrypts build H (mlkemPar i) dk ct m c ↔ KpkeDecrypt (mlkemPar i) dk ct m ∧
      KpkeEncrypt H (mlkemPar i) (dk.drop ((mlkemPar i).k * 384)) (Bytes.ofList m)
        (((decapsDigest H (mlkemPar i) dk m).drop 32).take 32) c := by
  unfold Reencrypts
  rw [kpkeDecrypt_iff, returns_kpkeEncrypt]

/-- **`mlkem_decaps_internal`**. -/
theorem returns_decapsInternal (build : Build) (i : Fin 3) {kp dk ct kp' : Bytes} :
    (decapsInternal build H (mlkemPar i) kp dk ct).Returns kp' ↔
      ∃ m c, Reencrypts build H (mlkemPar i) dk ct m c ∧
        kp' = kp.put 0 (if c = ct.take (mlkemPar i).ctSz then
          (decapsDigest H (mlkemPar i) dk m).take 32 else rejectKey H (mlkemPar i) dk ct) := by
  have hm : ∀ {m : List UInt8}, KpkeDecrypt (mlkemPar i) dk ct m → ∀ h : List UInt8, ∀ j < 32,
      Bytes.ofList (m ++ h) j = Bytes.ofList m j := fun hdec h j hj =>
    List.getD_append _ _ _ _ (by rwa [length_kpkeDecrypt hdec])
  have hout : ∀ {m c : List UInt8}, Reencrypts build H (mlkemPar i) dk ct m c →
      cmov (kp.put 0 (shake256Rkprf H (mlkemPar i) (dk.drop ((mlkemPar i).dkSz - 32)) ct))
        (Bytes.ofList ((decapsDigest H (mlkemPar i) dk m).take 64)) 32
        (if verify ct (Bytes.ofList c) (mlkemPar i).ctSz = 0 then 1 else 0) =
      kp.put 0 (if c = ct.take (mlkemPar i).ctSz then
          (decapsDigest H (mlkemPar i) dk m).take 32 else rejectKey H (mlkemPar i) dk ct) := by
    intro m c h
    have hlen := length_kpkeEncrypt i ((reencrypts_iff build i).1 h).2
    have heq : verify ct (Bytes.ofList c) (mlkemPar i).ctSz = 0 ↔ c = ct.take (mlkemPar i).ctSz := by
      rw [verify_eq_zero, ← hlen, Bytes.take_ofList]
      exact eq_comm
    rw [cmov_eq, (digest_halves _).1]
    by_cases hc : c = ct.take (mlkemPar i).ctSz
    · have hlen : (shake256Rkprf H (mlkemPar i) (dk.drop ((mlkemPar i).dkSz - 32)) ct).length =
          ((decapsDigest H (mlkemPar i) dk m).take 32).length := by
        rw [Bytes.length_take]
        exact Bytes.length_take _ _
      rw [if_pos (heq.2 hc), if_pos hc, Bytes.put_put_self hlen]
    · rw [if_neg fun h => hc (heq.1 h), if_neg hc]
      rfl
  unfold decapsInternal
  simp only [returns_bind, returns_lift, returns_pure, exists_eq_left', hashG]
  obtain ⟨m, hdec⟩ := exists_kpkeDecrypt (mlkemPar i) dk ct
  have hpure := (kpkeDecrypt_iff build i).2 hdec
  have henc : ∀ c, (kpkeEncrypt build H (mlkemPar i) (dk.drop ((mlkemPar i).k * polySz))
      (Bytes.ofList (m ++ (dk.drop ((mlkemPar i).dkSz - 2 * symSz)).take symSz))
      ((Bytes.ofList ((decapsDigest H (mlkemPar i) dk m).take 64)).drop symSz)).Returns c ↔
        Reencrypts build H (mlkemPar i) dk ct m c := by
    intro c
    rw [returns_kpkeEncrypt, (digest_halves _).2, kpkeEncrypt_congr (hm hdec _), reencrypts_iff]
    exact (and_iff_right hdec).symm
  rw [hpure, Chk.val_pure]
  constructor
  · rintro ⟨c, hc, rfl⟩
    exact ⟨m, c, (henc c).1 hc, hout ((henc c).1 hc)⟩
  · rintro ⟨m', c, hc, rfl⟩
    have hm' : m' = m := (congrArg Chk.val (hc.1.symm.trans hpure))
    subst hm'
    exact ⟨c, (henc c).2 hc, hout hc⟩

/-- A ciphertext is rejected under a key: it is encrypted again to something else. -/
def Rejects (build : Build) (H : Hash) (par : MlkemParam) (dk ct : Bytes) : Prop :=
  ∃ m c, Reencrypts build H par dk ct m c ∧ c ≠ ct.take par.ctSz

theorem kpkeDecrypt_unique {i : Fin 3} {dk ct : Bytes} {m m' : List UInt8}
    (h : KpkeDecrypt (mlkemPar i) dk ct m) (h' : KpkeDecrypt (mlkemPar i) dk ct m') : m = m' :=
  congrArg Chk.val (((kpkeDecrypt_iff .scalar i).2 h).symm.trans ((kpkeDecrypt_iff .scalar i).2 h'))

theorem reencrypts_unique {build : Build} {i : Fin 3} {dk ct : Bytes} {m m' c c' : List UInt8}
    (h : Reencrypts build H (mlkemPar i) dk ct m c)
    (h' : Reencrypts build H (mlkemPar i) dk ct m' c') : m = m' ∧ c = c' := by
  have hm : m = m' := congrArg Chk.val (h.1.symm.trans h'.1)
  subst hm
  exact ⟨rfl, returns_unique h.2 h'.2⟩

/-- What a rejected ciphertext gives. -/
theorem take_of_rejects {build : Build} {i : Fin 3} {kp dk ct kp' : Bytes}
    (hrej : Rejects build H (mlkemPar i) dk ct)
    (h : (decapsInternal build H (mlkemPar i) kp dk ct).Returns kp') :
    kp'.take 32 = rejectKey H (mlkemPar i) dk ct := by
  obtain ⟨m, c, hmc, rfl⟩ := (returns_decapsInternal build i).1 h
  obtain ⟨m', c', hmc', hne⟩ := hrej
  obtain ⟨rfl, rfl⟩ := reencrypts_unique hmc hmc'
  rw [if_neg hne]
  have hlen : (rejectKey H (mlkemPar i) dk ct).length = 32 := Bytes.length_take _ _
  rw [← hlen]
  exact Bytes.take_put kp _

/-- **Decapsulation.**  It ends exactly when the matrix of the key can be sampled.  It then
writes the key of the decrypted message where that is encrypted to all the bytes of the
ciphertext, and the rejection key where it is not.  Under two keys with the same `z`, a
ciphertext that both reject gives the same. -/
theorem decaps_exact (build : Build) (H : Hash) (i : Fin 3) :
    (∀ kp dk ct : Bytes, (∃ kp', (decapsInternal build H (mlkemPar i) kp dk ct).Returns kp') ↔
      ∃ A, SampleMatrix H (mlkemPar i).k
        ((dk.drop ((mlkemPar i).k * 384 + (mlkemPar i).k * 384)).take 32) A) ∧
    (∀ kp dk ct kp' : Bytes, (decapsInternal build H (mlkemPar i) kp dk ct).Returns kp' ↔
      ∃ m c, Reencrypts build H (mlkemPar i) dk ct m c ∧
        kp' = kp.put 0 (if c = ct.take (mlkemPar i).ctSz then
          (decapsDigest H (mlkemPar i) dk m).take 32 else rejectKey H (mlkemPar i) dk ct)) ∧
    ∀ kp₁ kp₂ dk₁ dk₂ ct kp₁' kp₂' : Bytes,
      (dk₁.drop ((mlkemPar i).dkSz - 32)).take 32 = (dk₂.drop ((mlkemPar i).dkSz - 32)).take 32 →
      Rejects build H (mlkemPar i) dk₁ ct → Rejects build H (mlkemPar i) dk₂ ct →
      (decapsInternal build H (mlkemPar i) kp₁ dk₁ ct).Returns kp₁' →
      (decapsInternal build H (mlkemPar i) kp₂ dk₂ ct).Returns kp₂' →
        kp₁'.take 32 = kp₂'.take 32 := by
  refine ⟨fun kp dk ct => ?_, fun _ _ _ _ => returns_decapsInternal build i, ?_⟩
  · obtain ⟨m, hm⟩ := exists_kpkeDecrypt (mlkemPar i) dk ct
    have hc := @exists_kpkeEncrypt H (mlkemPar i) (dk.drop ((mlkemPar i).k * 384))
      (Bytes.ofList m) (((decapsDigest H (mlkemPar i) dk m).drop 32).take 32)
    rw [← Bytes.drop_drop, ← hc]
    constructor
    · rintro ⟨kp', h⟩
      obtain ⟨m', c, hmc, -⟩ := (returns_decapsInternal build i).1 h
      have hmc' := (reencrypts_iff build i).1 hmc
      obtain rfl := kpkeDecrypt_unique hm hmc'.1
      exact ⟨c, hmc'.2⟩
    · rintro ⟨c, hc⟩
      exact ⟨_, (returns_decapsInternal build i).2
        ⟨m, c, (reencrypts_iff build i).2 ⟨hm, hc⟩, rfl⟩⟩
  · intro kp₁ kp₂ dk₁ dk₂ ct kp₁' kp₂' hz hrej₁ hrej₂ h₁ h₂
    rw [take_of_rejects hrej₁ h₁, take_of_rejects hrej₂ h₂, rejectKey, rejectKey, hz]

theorem byteDecode_zero (d n : ℕ) : byteDecode d (fun _ => 0) n = 0 :=
  Bits.fromBits_zero fun j => by simp [Bits.bit]

/-- Where `SHAKE128` gives zeros, the matrix is zero. -/
theorem sampleMatrix_of_zero (hH : ∀ m, H.shake128 m = fun _ => 0) (k : ℕ) (rho : List UInt8) :
    SampleMatrix H k rho fun _ _ => 0 := by
  intro i hi j hj
  refine ⟨_, Reject.first_const (x := (0 : ℤ)) (fun p => ?_) 256, fun n hn => ?_⟩
  · unfold sampleCand
    rw [hH, byteDecode_zero]
    rfl
  · rw [ntt_zero, List.getD_replicate _ hn, Int.cast_zero]

/-- Where `SHAKE256` gives zeros, the noise is zero. -/
theorem noise_of_zero {eta N : ℕ} {s : List UInt8}
    (h : H.shake256 (s ++ [UInt8.ofNat N]) = fun _ => 0) : noise H eta s N = 0 := by
  have hbit : ∀ p, Bits.bit 8 (fun i => ((fun _ => 0 : Bytes) i).toNat) p = 0 := by
    intro p
    simp [Bits.bit]
  have hcoeff : ∀ n, samplePolyCbd eta (Bytes.ofList (Fips203.prf H eta s N)) n = 0 := by
    intro n
    unfold Fips203.prf samplePolyCbd
    dsimp only
    rw [h, Bytes.ofList_take_zero]
    simp only [hbit, Finset.sum_const_zero, sub_self]
  unfold noise ofInts
  simp only [hcoeff, Int.cast_zero]
  exact Negacyclic.ofCoeffs_zero

theorem sampleMatrix_zeroHash (k : ℕ) (rho : List UInt8) :
    SampleMatrix zeroHash k rho fun _ _ => 0 :=
  sampleMatrix_of_zero (fun _ => rfl) k rho

theorem noise_zeroHash (eta : ℕ) (s : List UInt8) (N : ℕ) : noise zeroHash eta s N = 0 :=
  noise_of_zero rfl

theorem std_zero (n : ℕ) : std 0 n = 0 := by
  rw [std, Negacyclic.coeff_zero, ZMod.val_zero, Int.natCast_zero]

theorem compress_zero (d : ℕ) : compress d 0 = 0 := by simp [compress]

/-- Where every hash is zero, a ciphertext of ones is rejected. -/
theorem rejects_zeroHash (build : Build) (i : Fin 3) (dk : Bytes) :
    Rejects build zeroHash (mlkemPar i) dk fun _ => 255 := by
  obtain ⟨m, hm⟩ := exists_kpkeDecrypt (mlkemPar i) dk fun _ => 255
  obtain ⟨c, hc⟩ := (@exists_kpkeEncrypt zeroHash (mlkemPar i) (dk.drop ((mlkemPar i).k * 384))
    (Bytes.ofList m) (((decapsDigest zeroHash (mlkemPar i) dk m).drop 32).take 32)).2
      ⟨_, sampleMatrix_zeroHash _ _⟩
  refine ⟨m, c, (reencrypts_iff _ _).2 ⟨hm, hc⟩, ?_⟩
  rintro rfl
  obtain ⟨A, t, -, -, hct⟩ := hc
  have hblock := (ciphertext_blocks i hct).1 0 (k_range i).1
  have hcode := byteDecode_byteEncode hblock (show 0 < 256 by norm_num) (compress_lt _ _)
  simp only [noise_zeroHash, mul_zero, Finset.sum_const_zero, add_zero, std_zero, Int.toNat_zero,
    compress_zero] at hcode
  have hones : byteDecode (mlkemPar i).du (Bytes.drop (fun _ => 255)
      (0 * (32 * (mlkemPar i).du))) 0 ≠ 0 := by
    fin_cases i <;> decide
  exact hones hcode

/-- Two keys that share `z` but nothing else. -/
theorem decaps_exact_ones : ∃ kp₁ kp₂ : Bytes,
    (decapsInternal .rvv zeroHash (mlkemPar 0) (fun _ => 0) (fun _ => 0) fun _ => 255).Returns kp₁ ∧
    (decapsInternal .rvv zeroHash (mlkemPar 0) (fun _ => 0)
      (fun j => if j < (mlkemPar 0).dkSz - 32 then 1 else 0) fun _ => 255).Returns kp₂ ∧
    kp₁.take 32 = kp₂.take 32 := by
  generalize (0 : Fin 3) = i
  have hz : (Bytes.drop (fun _ => 0) ((mlkemPar i).dkSz - 32)).take 32 = (Bytes.drop (fun j =>
      if j < (mlkemPar i).dkSz - 32 then 1 else 0) ((mlkemPar i).dkSz - 32)).take 32 :=
    Bytes.take_congr fun j _ => (if_neg (Nat.not_lt.2 (Nat.le_add_right _ j))).symm
  obtain ⟨hret, -, hsame⟩ := decaps_exact .rvv zeroHash i
  obtain ⟨kp₁, h₁⟩ := (hret (fun _ => 0) (fun _ => 0) fun _ => 255).2 ⟨_, sampleMatrix_zeroHash _ _⟩
  obtain ⟨kp₂, h₂⟩ := (hret (fun _ => 0) (fun j => if j < (mlkemPar i).dkSz - 32 then 1 else 0)
    fun _ => 255).2 ⟨_, sampleMatrix_zeroHash _ _⟩
  exact ⟨kp₁, kp₂, h₁, h₂, hsame _ _ _ _ _ _ _ hz (rejects_zeroHash _ _ _)
    (rejects_zeroHash _ _ _) h₁ h₂⟩

/-! ## The two builds -/

/-- **The vector and the scalar build are interchangeable**: they return the same, for
every input and all hash functions. -/
theorem builds_agree (H : Hash) (i : Fin 3) :
    (∀ (dk d z dk' : Bytes) (ek : List UInt8),
      (keygenInternal .rvv H (mlkemPar i) dk d z).Returns (ek, dk') ↔
        (keygenInternal .scalar H (mlkemPar i) dk d z).Returns (ek, dk')) ∧
    (∀ (ek m : Bytes) (kk ct : List UInt8),
      (encapsInternal .rvv H (mlkemPar i) ek m).Returns (kk, ct) ↔
        (encapsInternal .scalar H (mlkemPar i) ek m).Returns (kk, ct)) ∧
    ∀ kp dk ct kp' : Bytes,
      (decapsInternal .rvv H (mlkemPar i) kp dk ct).Returns kp' ↔
        (decapsInternal .scalar H (mlkemPar i) kp dk ct).Returns kp' := by
  refine ⟨fun dk d z dk' ek => ?_, fun ek m kk ct => ?_, fun kp dk ct kp' => ?_⟩
  · rw [returns_keygenInternal, returns_keygenInternal]
  · rw [returns_encapsInternal, returns_encapsInternal]
  · simp only [returns_decapsInternal, reencrypts_iff]

/-! ## Safety -/

/-- **No check fails** in any execution of the three functions, in either build, whatever
the keys, the ciphertext and the hash functions are. -/
theorem kem_safe (build : Build) (H : Hash) (i : Fin 3) :
    (∀ dk d z : Bytes, (keygenInternal build H (mlkemPar i) dk d z).Safe fun _ => True) ∧
    (∀ ek m : Bytes, (encapsInternal build H (mlkemPar i) ek m).Safe fun _ => True) ∧
    ∀ kp dk ct : Bytes, (decapsInternal build H (mlkemPar i) kp dk ct).Safe fun _ => True := by
  refine ⟨fun dk d z => ?_, fun ek m => ?_, fun kp dk ct => ?_⟩
  · exact (safe_kpkeKeygen build i d).bind fun _ _ => Safe.pure trivial
  · exact (safe_kpkeEncrypt build i ek _ _).bind fun _ _ => Safe.pure trivial
  · obtain ⟨m, hm⟩ := exists_kpkeDecrypt (mlkemPar i) dk ct
    have hdec : (liftM (kpkeDecrypt build (mlkemPar i) dk ct) : Prog (List UInt8)).Safe
        fun _ => True := Safe.lift_pure ((kpkeDecrypt_iff build i).2 hm) trivial
    refine hdec.bind fun _ _ => ?_
    exact (safe_kpkeEncrypt build i _ _ _).bind fun _ _ => Safe.pure trivial

end Mlkem
