import Karudeb.Mlkem.Correctness

/-!
# ML-KEM: the standard's three functions, and an exchange between two parties

* `kem_exact` : the three functions are those of the standard, on as many bytes as the keys,
  the message and the ciphertext have.
* `KeySections` : what stands where in a decapsulation key.
* `keys_fit` : the vectors in the two keys fit together.
* `exchange_reencaps` : once there are keys, encapsulation and decapsulation end on every input,
  and decapsulation is decryption followed by encapsulation.
-/

namespace Mlkem

open Word Negacyclic Fips203 Prog

variable {H : Hash} {i : Fin 3} {k : ℕ}

/-! ## Sections of a string -/

theorem drop_take_take (b : Bytes) {o m n : ℕ} (h : o + m ≤ n) :
    ((b.take n).drop o).take m = (b.drop o).take m := by
  refine List.ext_getElem (by simp; omega) fun j h1 h2 => ?_
  rw [Bytes.length_take] at h2
  rw [List.getElem_take, List.getElem_drop, Bytes.getElem_take, Bytes.getElem_take]
  rfl

theorem take_take (b : Bytes) {m n : ℕ} (h : m ≤ n) : (b.take n).take m = b.take m := by
  have hdrop := drop_take_take b (o := 0) (m := m) (n := n) (by omega)
  rwa [List.drop_zero, Bytes.drop_zero] at hdrop

theorem take_ofList_take (b : Bytes) (n : ℕ) : (Bytes.ofList (b.take n)).take n = b.take n :=
  Bytes.take_ofList_of_length (Bytes.length_take b n)

/-- A vector is decoded from 384 bytes for each row. -/
theorem decodesNtt_congr {b b' : Bytes} {w : ℕ → Rq} (h : b.take (k * 384) = b'.take (k * 384)) :
    DecodesNtt k b w ↔ DecodesNtt k b' w := by
  refine forall₂_congr fun j hj => forall₂_congr fun n hn => ?_
  have hbytes : ∀ p < 384, (b.drop (j * 384)) p = (b'.drop (j * 384)) p := by
    intro p hp
    have hj' := Nat.mul_le_mul_right 384 (Nat.succ_le_of_lt hj)
    exact @Bytes.take_inj b (j * 384 + p) _ b' h (by omega)
  have hcode : byteDecode 12 (b.drop (j * 384)) n = byteDecode 12 (b'.drop (j * 384)) n :=
    Bits.regroup_congr (N := 384) (fun p hp => congrArg UInt8.toNat (hbytes p (by omega))) (by omega)
  rw [hcode]

theorem decodeRq_congr {d : ℕ} {b b' : Bytes} (h : b.take (32 * d) = b'.take (32 * d)) :
    decodeRq d b = decodeRq d b' := by
  refine ofCoeffs_congr fun n hn => ?_
  have hle : d * n + d ≤ 8 * (32 * d) := by
    have hmul := Nat.mul_le_mul_left d hn
    rw [Nat.mul_succ] at hmul
    omega
  have hcode : byteDecode d b n = byteDecode d b' n :=
    Bits.regroup_congr (N := 32 * d) (fun p hp => congrArg UInt8.toNat (Bytes.take_inj h hp)) hle
  dsimp only
  rw [hcode]

/-- Decryption reads the key and the ciphertext up to their sizes. -/
theorem kpkeDecrypt_congr {dk dk' c c' : Bytes} {m : List UInt8}
    (hdk : dk.take ((mlkemPar i).k * 384) = dk'.take ((mlkemPar i).k * 384))
    (hc : c.take (mlkemPar i).ctSz = c'.take (mlkemPar i).ctSz) :
    KpkeDecrypt (mlkemPar i) dk c m ↔ KpkeDecrypt (mlkemPar i) dk' c' m := by
  rw [ctSz_eq] at hc
  have hblock : ∀ o n, o + n ≤ (mlkemPar i).k * (32 * (mlkemPar i).du) + 32 * (mlkemPar i).dv →
      (c.drop o).take n = (c'.drop o).take n := fun o n hle => by
    rw [← drop_take_take c hle, hc, drop_take_take c' hle]
  have hv := decodeRq_congr (hblock ((mlkemPar i).k * (32 * (mlkemPar i).du)) _ le_rfl)
  have hu : ∀ j < (mlkemPar i).k, decodeRq (mlkemPar i).du (c.drop (j * (32 * (mlkemPar i).du))) =
      decodeRq (mlkemPar i).du (c'.drop (j * (32 * (mlkemPar i).du))) := by
    intro j hj
    have hmul := Nat.mul_le_mul_right (32 * (mlkemPar i).du) (Nat.succ_le_of_lt hj)
    rw [Nat.succ_mul] at hmul
    exact decodeRq_congr (hblock _ _ (by omega))
  unfold KpkeDecrypt
  dsimp only
  refine exists_congr fun s => and_congr (decodesNtt_congr hdk) ?_
  rw [hv, Finset.sum_congr rfl fun j hj => by rw [hu j (Finset.mem_range.1 hj)]]

/-- Encryption reads the key and the message up to their sizes. -/
theorem kpkeEncrypt_congr_iff {ek ek' m m' : Bytes} {r c : List UInt8}
    (hek : ek.take (mlkemPar i).ekSz = ek'.take (mlkemPar i).ekSz) (hm : m.take 32 = m'.take 32) :
    KpkeEncrypt H (mlkemPar i) ek m r c ↔ KpkeEncrypt H (mlkemPar i) ek' m' r c := by
  rw [kpkeEncrypt_congr fun j hj => Bytes.take_inj hm hj]
  exact ⟨kpkeEncrypt_congr_ek i hek, kpkeEncrypt_congr_ek i hek.symm⟩

/-! ## The three functions -/

/-- What is read of a decapsulation key, and what is read of the ciphertext. -/
theorem kemDecaps_iff {dk ct : Bytes} {kk : List UInt8} :
    KemDecaps H (mlkemPar i) (dk.take (mlkemPar i).dkSz) (ct.take (mlkemPar i).ctSz) kk ↔
      ∃ m c, KpkeDecrypt (mlkemPar i) dk ct m ∧
        KpkeEncrypt H (mlkemPar i) (dk.drop ((mlkemPar i).k * 384)) (Bytes.ofList m)
          (((decapsDigest H (mlkemPar i) dk m).drop 32).take 32) c ∧
        kk = if c = ct.take (mlkemPar i).ctSz then (decapsDigest H (mlkemPar i) dk m).take 32
          else rejectKey H (mlkemPar i) dk ct := by
  obtain ⟨hek, hdk⟩ := dkSz_eq i
  have hsec : (Bytes.ofList ((dk.take (mlkemPar i).dkSz).take (384 * (mlkemPar i).k))).take
      ((mlkemPar i).k * 384) = dk.take ((mlkemPar i).k * 384) := by
    rw [take_take _ (by omega), mul_comm 384, take_ofList_take]
  have hpub : (Bytes.ofList (((dk.take (mlkemPar i).dkSz).drop (384 * (mlkemPar i).k)).take
      (384 * (mlkemPar i).k + 32))).take (mlkemPar i).ekSz =
        (dk.drop ((mlkemPar i).k * 384)).take (mlkemPar i).ekSz := by
    rw [drop_take_take _ (by omega), mul_comm 384, ← hek, take_ofList_take]
  have hh : ((dk.take (mlkemPar i).dkSz).drop (768 * (mlkemPar i).k + 32)).take 32 =
      (dk.drop ((mlkemPar i).dkSz - 64)).take 32 := by
    rw [drop_take_take _ (by omega), show 768 * (mlkemPar i).k + 32 = (mlkemPar i).dkSz - 64 by omega]
  have hz : ((dk.take (mlkemPar i).dkSz).drop (768 * (mlkemPar i).k + 64)).take 32 =
      (dk.drop ((mlkemPar i).dkSz - 32)).take 32 := by
    rw [drop_take_take _ (by omega), show 768 * (mlkemPar i).k + 64 = (mlkemPar i).dkSz - 32 by omega]
  unfold KemDecaps rejectKey
  dsimp only
  rw [hh, hz]
  refine exists_congr fun m => exists_congr fun c => ?_
  rw [kpkeDecrypt_congr hsec (take_ofList_take _ _), kpkeEncrypt_congr_iff hpub rfl, decapsDigest]
  refine and_congr_right fun _ => and_congr_right fun _ => ?_
  rw [if_congr (eq_comm (a := ct.take (mlkemPar i).ctSz)) rfl rfl]

theorem returns_kemKeyGen (build : Build) {buf d z dk : Bytes} {ek : List UInt8} :
    (keygenInternal build H (mlkemPar i) buf d z).Returns (ek, dk) ↔
      ∃ dk', KemKeyGen H (mlkemPar i) (d.take 32) (z.take 32) ek dk' ∧ dk = buf.put 0 dk' := by
  rw [returns_keygenInternal]
  constructor
  · rintro ⟨s, hs, rfl⟩
    exact ⟨_, ⟨s, hs, rfl⟩, rfl⟩
  · rintro ⟨_, ⟨s, hs, rfl⟩, rfl⟩
    exact ⟨s, hs, rfl⟩

theorem returns_kemEncaps (build : Build) {ek m : Bytes} {kk ct : List UInt8} :
    (encapsInternal build H (mlkemPar i) ek m).Returns (kk, ct) ↔
      KemEncaps H (mlkemPar i) (ek.take (mlkemPar i).ekSz) (m.take 32) kk ct := by
  rw [returns_encapsInternal]
  unfold KemEncaps
  dsimp only
  rw [kpkeEncrypt_congr_iff (take_ofList_take ek _) (take_ofList_take m 32)]

theorem returns_kemDecaps (build : Build) {buf dk ct kp : Bytes} :
    (decapsInternal build H (mlkemPar i) buf dk ct).Returns kp ↔
      ∃ kk, KemDecaps H (mlkemPar i) (dk.take (mlkemPar i).dkSz) (ct.take (mlkemPar i).ctSz) kk ∧
        kp = buf.put 0 kk := by
  rw [returns_decapsInternal]
  simp only [kemDecaps_iff, reencrypts_iff]
  constructor
  · rintro ⟨m, c, ⟨hdec, henc⟩, rfl⟩
    exact ⟨_, ⟨m, c, hdec, henc, rfl⟩, rfl⟩
  · rintro ⟨_, ⟨m, c, hdec, henc, rfl⟩, rfl⟩
    exact ⟨m, c, ⟨hdec, henc⟩, rfl⟩

/-- **The three functions are the standard's**, in either build.  They return what
`KeyGen_internal`, `Encaps_internal` and `Decaps_internal` come to, on as many bytes as the keys,
the message and the ciphertext have, and the rest of a buffer stays as it is. -/
theorem kem_exact (build : Build) (H : Hash) (i : Fin 3) :
    (∀ (buf d z dk : Bytes) (ek : List UInt8),
      (keygenInternal build H (mlkemPar i) buf d z).Returns (ek, dk) ↔
        ∃ dk', KemKeyGen H (mlkemPar i) (d.take 32) (z.take 32) ek dk' ∧ dk = buf.put 0 dk') ∧
    (∀ (ek m : Bytes) (kk ct : List UInt8),
      (encapsInternal build H (mlkemPar i) ek m).Returns (kk, ct) ↔
        KemEncaps H (mlkemPar i) (ek.take (mlkemPar i).ekSz) (m.take 32) kk ct) ∧
    ∀ buf dk ct kp : Bytes, (decapsInternal build H (mlkemPar i) buf dk ct).Returns kp ↔
      ∃ kk, KemDecaps H (mlkemPar i) (dk.take (mlkemPar i).dkSz) (ct.take (mlkemPar i).ctSz) kk ∧
        kp = buf.put 0 kk :=
  ⟨fun _ _ _ _ _ => returns_kemKeyGen build, fun _ _ _ _ => returns_kemEncaps build,
    fun _ _ _ _ => returns_kemDecaps build⟩

/-! ## A pair of keys -/

/-- What stands where in a decapsulation key for `ek`, with the key `s` of the encryption
scheme. -/
structure KeySections (H : Hash) (par : MlkemParam) (ek s : List UInt8) (z dk : Bytes) : Prop where
  /-- The key of the encryption scheme. -/
  secret : dk.take (par.k * 384) = s
  /-- The encapsulation key. -/
  pub : (dk.drop (par.k * 384)).take par.ekSz = ek
  /-- Its digest. -/
  digest : (dk.drop (par.dkSz - 64)).take 32 = (H.sha3_256 ek).take 32
  /-- The seed of the rejection keys. -/
  reject : (dk.drop (par.dkSz - 32)).take 32 = z.take 32

/-- **The sections of a key** that key generation writes. -/
theorem keySections_of_put (buf z : Bytes) {d : Bytes} {ek s : List UInt8}
    (hgen : KpkeKeyGen H (mlkemPar i) (d.take 32) ek s) :
    KeySections H (mlkemPar i) ek s z
      (buf.put 0 (s ++ ek ++ (H.sha3_256 ek).take 32 ++ z.take 32)) := by
  obtain ⟨hs, hek⟩ := length_kpkeKeyGen i hgen
  obtain ⟨-, hdk⟩ := dkSz_eq i
  obtain ⟨hpart, hz⟩ := Bytes.take_eq_append (Bytes.take_put buf
    (s ++ ek ++ (H.sha3_256 ek).take 32 ++ z.take 32))
  obtain ⟨hpart, hh⟩ := Bytes.take_eq_append hpart
  obtain ⟨hsec, hpub⟩ := Bytes.take_eq_append hpart
  rw [Bytes.length_take, List.length_append, List.length_append, Bytes.length_take, hs, hek] at hz
  rw [Bytes.length_take, List.length_append, hs, hek] at hh
  rw [hs] at hsec hpub
  rw [hek] at hpub
  refine ⟨hsec, hpub, ?_, ?_⟩
  · rw [hdk, Nat.add_sub_cancel]
    exact hh
  · rw [hdk, show (mlkemPar i).k * 384 + (mlkemPar i).ekSz + 64 - 32 =
      (mlkemPar i).k * 384 + (mlkemPar i).ekSz + 32 by omega]
    exact hz

/-- What is read of an encapsulation key that key generation made. -/
theorem kpkeKeyGen_decodes {d ek s : List UInt8} (hgen : KpkeKeyGen H (mlkemPar i) d ek s) :
    ∃ A sigma, SampleMatrix H (mlkemPar i).k
        (((Bytes.ofList ek).drop ((mlkemPar i).k * 384)).take 32) A ∧
      DecodesNtt (mlkemPar i).k (Bytes.ofList ek) (fun r => ∑ j ∈ Finset.range (mlkemPar i).k,
        A r j * noise H (mlkemPar i).eta1 sigma j +
          noise H (mlkemPar i).eta1 sigma ((mlkemPar i).k + r)) ∧
      s = encodeNtt (mlkemPar i).k fun j => noise H (mlkemPar i).eta1 sigma j := by
  obtain ⟨A, hA, hpub, hsecret⟩ := hgen
  have hread := Bytes.take_ofList ek
  rw [hpub] at hread
  obtain ⟨hvec, hrho⟩ := Bytes.take_eq_append hread
  rw [length_encodeNtt, ← hpub] at hvec hrho
  rw [Bytes.length_take] at hrho
  exact ⟨A, _, hrho ▸ hA, decodesNtt_encodeNtt hvec, hsecret⟩

/-- **A pair of keys fits together.**  The decapsulation key holds the encapsulation key, its
digest and `z`; and what is decoded from the two keys satisfies `t = A s + e` over the ring, for
vectors with small coefficients and the matrix of the seed in the encapsulation key. -/
theorem keys_fit (build : Build) (H : Hash) (i : Fin 3) {buf d z dk : Bytes} {ek : List UInt8}
    (hkey : (keygenInternal build H (mlkemPar i) buf d z).Returns (ek, dk)) :
    ek.length = (mlkemPar i).ekSz ∧ (∀ p, (mlkemPar i).dkSz ≤ p → dk p = buf p) ∧
    ∃ s, KeySections H (mlkemPar i) ek s z dk ∧ ∃ A t u e : ℕ → _,
      SampleMatrix H (mlkemPar i).k
        (((Bytes.ofList ek).drop ((mlkemPar i).k * 384)).take 32) A ∧
      DecodesNtt (mlkemPar i).k (Bytes.ofList ek) t ∧ DecodesNtt (mlkemPar i).k dk u ∧
      (∀ r < (mlkemPar i).k, t r = ∑ j ∈ Finset.range (mlkemPar i).k, A r j * u j + e r) ∧
      ∀ r < (mlkemPar i).k, ∀ n < 256,
        |(Negacyclic.coeff degree_pos (u r) n).valMinAbs| ≤ (mlkemPar i).eta1 ∧
          |(Negacyclic.coeff degree_pos (e r) n).valMinAbs| ≤ (mlkemPar i).eta1 := by
  obtain ⟨s, hgen, rfl⟩ := (returns_keygenInternal build i).1 hkey
  obtain ⟨hs, hek⟩ := length_kpkeKeyGen i hgen
  have hsec := keySections_of_put buf z hgen
  refine ⟨hek, fun p hp => Bytes.put_of_le ?_, s, hsec, ?_⟩
  · rw [List.length_append, List.length_append, List.length_append, Bytes.length_take,
      Bytes.length_take, hs, hek]
    have hdk := (dkSz_eq i).2
    omega
  · obtain ⟨A, sigma, hA, ht, hsecret⟩ := kpkeKeyGen_decodes hgen
    have heta : (mlkemPar i).eta1 ≤ 3 := by fin_cases i <;> decide
    exact ⟨A, _, _, fun r => noise H (mlkemPar i).eta1 sigma ((mlkemPar i).k + r), hA, ht,
      decodesNtt_encodeNtt (hsec.secret.trans hsecret), fun r _ => rfl,
      fun r _ n hn => ⟨abs_noise_le heta _ _ hn, abs_noise_le heta _ _ hn⟩⟩

/-- Where `SHAKE128` gives zeros, the matrix is sampled and there are keys. -/
theorem exists_keys_of_zero (hH : ∀ m, H.shake128 m = fun _ => 0) (build : Build) (i : Fin 3)
    (buf d z : Bytes) : ∃ (ek : List UInt8) (dk : Bytes),
      (keygenInternal build H (mlkemPar i) buf d z).Returns (ek, dk) :=
  ⟨_, _, (returns_keygenInternal build i).2 ⟨_, ⟨_, sampleMatrix_of_zero hH _ _, rfl, rfl⟩, rfl⟩⟩

/-- Keys with errors in them, in a buffer of nines. -/
theorem keys_fit_count : ∃ (ek : List UInt8) (dk : Bytes),
    (keygenInternal .rvv countHash (mlkemPar 0) (fun _ => 9) (fun n => UInt8.ofNat n)
      fun _ => 7).Returns (ek, dk) ∧
    ek.length = 800 ∧ dk 1632 = 9 ∧ (dk.drop 768).take 800 = ek ∧
      (dk.drop 1600).take 32 = List.replicate 32 7 := by
  obtain ⟨ek, dk, hkey⟩ := exists_keys_of_zero (H := countHash) (fun _ => rfl) .rvv 0 (fun _ => 9)
    (fun n => UInt8.ofNat n) fun _ => 7
  obtain ⟨hlen, hbehind, s, hsec, -⟩ := keys_fit .rvv countHash 0 hkey
  exact ⟨ek, dk, hkey, hlen, hbehind 1632 le_rfl, hsec.pub, hsec.reject⟩

/-! ## An exchange -/

/-- **Decapsulation is decryption and encapsulation.**  For keys of key generation,
encapsulation and decapsulation end on every message and every ciphertext, whichever builds the
parties run: decapsulation encapsulates the message it decrypts, and gives the key of that if the
ciphertext is that ciphertext and the rejection key otherwise.  So what no encapsulation sends is
rejected. -/
theorem exchange_reencaps (keyBuild encBuild decBuild : Build) (H : Hash) (i : Fin 3)
    {buf d z dk : Bytes} {ek : List UInt8}
    (hkey : (keygenInternal keyBuild H (mlkemPar i) buf d z).Returns (ek, dk)) :
    (∀ m : Bytes, ∃ kk ct,
      (encapsInternal encBuild H (mlkemPar i) (Bytes.ofList ek) m).Returns (kk, ct)) ∧
    (∀ kp ct : Bytes, ∃ m kk c, kpkeDecrypt decBuild (mlkemPar i) dk ct = pure m ∧
      (encapsInternal encBuild H (mlkemPar i) (Bytes.ofList ek) (Bytes.ofList m)).Returns (kk, c) ∧
      (decapsInternal decBuild H (mlkemPar i) kp dk ct).Returns
        (kp.put 0 (if c = ct.take (mlkemPar i).ctSz then kk
          else (H.shake256 (z.take 32 ++ ct.take (mlkemPar i).ctSz)).take 32))) ∧
    ∀ kp ct kp' : Bytes,
      (∀ m kk, ¬(encapsInternal encBuild H (mlkemPar i) (Bytes.ofList ek) m).Returns
        (kk, ct.take (mlkemPar i).ctSz)) →
      (decapsInternal decBuild H (mlkemPar i) kp dk ct).Returns kp' →
        kp' = kp.put 0 ((H.shake256 (z.take 32 ++ ct.take (mlkemPar i).ctSz)).take 32) := by
  obtain ⟨s, hgen, rfl⟩ := (returns_keygenInternal keyBuild i).1 hkey
  have hsec := keySections_of_put buf z hgen
  set dk := buf.put 0 (s ++ ek ++ (H.sha3_256 ek).take 32 ++ z.take 32)
  have hek := (length_kpkeKeyGen i hgen).2
  have hread : (Bytes.ofList ek).take (mlkemPar i).ekSz = ek := Bytes.take_ofList_of_length hek
  -- the matrix was sampled for the keys
  obtain ⟨A, -, hA, -⟩ := kpkeKeyGen_decodes hgen
  have henc : ∀ m r, ∃ c, KpkeEncrypt H (mlkemPar i) (Bytes.ofList ek) m r c := fun m r =>
    exists_kpkeEncrypt.2 ⟨A, hA⟩
  have hencaps : ∀ m, ∃ kk ct,
      (encapsInternal encBuild H (mlkemPar i) (Bytes.ofList ek) m).Returns (kk, ct) := by
    intro m
    obtain ⟨c, hc⟩ := henc m _
    exact ⟨_, c, (returns_encapsInternal encBuild i).2 ⟨hc, rfl⟩⟩
  have hdecaps : ∀ kp ct : Bytes, ∃ m kk c, kpkeDecrypt decBuild (mlkemPar i) dk ct = pure m ∧
      (encapsInternal encBuild H (mlkemPar i) (Bytes.ofList ek) (Bytes.ofList m)).Returns (kk, c) ∧
      (decapsInternal decBuild H (mlkemPar i) kp dk ct).Returns
        (kp.put 0 (if c = ct.take (mlkemPar i).ctSz then kk
          else (H.shake256 (z.take 32 ++ ct.take (mlkemPar i).ctSz)).take 32)) := by
    intro kp ct
    obtain ⟨m, hm⟩ := exists_kpkeDecrypt (mlkemPar i) dk ct
    obtain ⟨kk, c, hc⟩ := hencaps (Bytes.ofList m)
    refine ⟨m, kk, c, (kpkeDecrypt_iff decBuild i).2 hm, hc, ?_⟩
    obtain ⟨hct, rfl⟩ := (returns_encapsInternal encBuild i).1 hc
    have hmlen := Bytes.take_ofList_of_length (length_kpkeDecrypt hm)
    have hdigest : decapsDigest H (mlkemPar i) dk m =
        H.sha3_512 (m ++ (H.sha3_256 ek).take 32) := by
      rw [decapsDigest, hsec.digest]
    rw [hread, hmlen] at hct ⊢
    refine (returns_decapsInternal decBuild i).2 ⟨m, c, (reencrypts_iff decBuild i).2 ⟨hm, ?_⟩, ?_⟩
    · rw [hdigest]
      exact (kpkeEncrypt_congr_iff (hread.trans hsec.pub.symm) rfl).1 hct
    · rw [hdigest, rejectKey, hsec.reject]
  refine ⟨hencaps, hdecaps, fun kp ct kp' hno hret => ?_⟩
  obtain ⟨m, kk, c, -, hc, hdec⟩ := hdecaps kp ct
  have hne : c ≠ ct.take (mlkemPar i).ctSz := by
    rintro rfl
    exact hno _ _ hc
  rw [returns_unique hret hdec, if_neg hne]

/-- A ciphertext of ones, under keys with errors in them. -/
theorem exchange_reencaps_ones : ∃ (ek kk : List UInt8) (dk : Bytes),
    (keygenInternal .rvv countHash (mlkemPar 0) (fun _ => 0) (fun n => UInt8.ofNat n)
      fun _ => 7).Returns (ek, dk) ∧
    (decapsInternal .scalar countHash (mlkemPar 0) (fun _ => 0) dk fun _ => 255).Returns
      (Bytes.put (fun _ => 0) 0 kk) := by
  obtain ⟨ek, dk, hkey⟩ := exists_keys_of_zero (H := countHash) (fun _ => rfl) .rvv 0 (fun _ => 0)
    (fun n => UInt8.ofNat n) fun _ => 7
  obtain ⟨m, kk, c, -, -, hdec⟩ := (exchange_reencaps .rvv .rvv .scalar countHash 0 hkey).2.1
    (fun _ => 0) fun _ => 255
  exact ⟨ek, _, dk, hkey, hdec⟩

end Mlkem
