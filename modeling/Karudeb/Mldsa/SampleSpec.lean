import Karudeb.Mldsa.Sample
import Karudeb.Mldsa.PackSpec

/-!
# ML-DSA: the samplers are those of the standard

However the code cuts the output of a sponge into blocks, what it returns is what
the standard reads off the endless stream, and it returns whenever the stream
gives enough.

* `returns_polyUniform`, `returns_polyvecMatrixExpand` : `RejNTTPoly` and
  `ExpandA`.
* `returns_polyUniformEta` : `RejBoundedPoly`.
* `polyvecUniformGamma1_eq` : `ExpandMask`.
* `returns_polyChallenge` : `SampleInBall`.
* `safe_polyUniform`, `safe_polyUniformEta`, `safe_polyChallenge` : the ranges of
  what they return, on any output of the sponge.
-/

namespace Mldsa

open Bits Fips204 Prog Reject

/-! ## Streams -/

theorem stream128Init_eq (seed : Bytes) (nonce : ℕ) :
    stream128Init seed nonce = ⟨seed.take 32 ++ integerToBytes2 nonce, 0⟩ := by
  unfold stream128Init integerToBytes2
  rw [Nat.shiftRight_eq_div_pow]
  rfl

theorem stream256Init_eq (seed : Bytes) (nonce : ℕ) :
    stream256Init seed nonce = ⟨seed.take 64 ++ integerToBytes2 nonce, 0⟩ := by
  unfold stream256Init integerToBytes2
  rw [Nat.shiftRight_eq_div_pow]
  rfl

theorem rd_ofSamples (L : List ℤ) {k : ℕ} (hk : k < 256) : (ofSamples L).rd k = L.getD k 0 :=
  Vector.rd_tab _ hk

/-! ## Uniform coefficients -/

theorem uniform_value {b0 b1 : ℕ} (h0 : b0 < 256) (h1 : b1 < 256) (b2 : ℕ) :
    (b0 ||| b1 <<< 8 ||| b2 <<< 16) &&& 0x7FFFFF = 2 ^ 16 * (b2 % 128) + 2 ^ 8 * b1 + b0 := by
  have hm : ∀ x, x &&& 0x7FFFFF = x % 2 ^ 23 := fun x => and_mask 23
  rw [hm, or_shl 8 (by omega), or_shl 16 (by omega)]
  omega

/-- A scan of a buffer keeps the accepted ones among its candidates, and up to two
bytes behind them are left. -/
theorem rejUniform_eq (s : Bytes) (len m p : ℕ) {e : ℕ} (he : e < 3) :
    rejUniform len ((s.drop (3 * p)).take (3 * m + e)) =
      ((List.range m).filterMap fun r => uniformCand s (p + r)).take len := by
  induction m generalizing p len with
  | zero => interval_cases e <;> simp [rejUniform, Bytes.take, List.range_succ]
  | succ m ih =>
    have hcons : (s.drop (3 * p)).take (3 * (m + 1) + e) =
        s (3 * p) :: s (3 * p + 1) :: s (3 * p + 2) :: (s.drop (3 * (p + 1))).take (3 * m + e) := by
      rw [show 3 * (m + 1) + e = 3 * m + e + 1 + 1 + 1 by omega, Bytes.take_succ, Bytes.take_succ,
        Bytes.take_succ, Bytes.drop_drop, Bytes.drop_drop, Bytes.drop_drop]
      rfl
    have htail : (fun r => uniformCand s (p + (r + 1))) = fun r => uniformCand s (p + 1 + r) := by
      funext r
      rw [Nat.add_assoc, Nat.add_comm 1 r]
    rw [hcons, List.range_succ_eq_map, List.filterMap_cons, List.filterMap_map]
    unfold rejUniform
    by_cases hlen : len = 0
    · rw [if_pos hlen, hlen, List.take_zero]
    · rw [if_neg hlen, uniform_value (UInt8.toNat_lt _) (UInt8.toNat_lt _), ih, ih]
      obtain ⟨l, rfl⟩ : ∃ l, len = l + 1 := ⟨len - 1, by omega⟩
      have hcand : uniformCand s (p + 0) =
          coeffFromThreeBytes (s (3 * p)).toNat (s (3 * p + 1)).toNat (s (3 * p + 2)).toNat := rfl
      rw [hcand]
      unfold coeffFromThreeBytes
      dsimp only
      split
      · rw [List.take_succ_cons]
        refine congrArg _ (congrArg _ ?_)
        exact List.filterMap_congr fun r _ => (congrFun htail r).symm
      · exact congrArg _ (List.filterMap_congr fun r _ => (congrFun htail r).symm)

/-- The states of `poly_uniform`, a whole number of candidates at a time. -/
def UniformInv (H : Hash) (msg : List UInt8) (s : UniformState) : Prop :=
  s.a = (accepted (uniformCand (H.shake128 msg)) (s.state.pos / 3)).take 256 ∧
    3 ∣ s.buf.length ∧ s.state.msg = msg ∧ 3 ∣ s.state.pos

theorem uniformStep_inv {H : Hash} {msg : List UInt8} {s : UniformState} (hs : UniformInv H msg s) :
    UniformInv H msg (uniformStep H s) ∧
      s.state.pos / 3 < (uniformStep H s).state.pos / 3 := by
  obtain ⟨ha, hbuf, hmsg, p, hp⟩ := hs
  have hoff : s.buf.length % 3 = 0 := Nat.mod_eq_zero_of_dvd hbuf
  have hstep : uniformStep H s = ⟨s.a ++ rejUniform (256 - s.a.length)
      (((H.shake128 msg).drop (3 * p)).take (3 * 56)),
      ((H.shake128 msg).drop (3 * p)).take (3 * 56), ⟨msg, 3 * p + 168⟩⟩ := by
    unfold uniformStep shake128Squeezeblocks squeeze
    dsimp only
    rw [hoff, Nat.sub_zero, List.drop_length, List.nil_append, hmsg, hp,
      show 1 * shake128Rate = 3 * 56 from rfl]
  rw [hp, Nat.mul_div_cancel_left _ (by norm_num)] at ha
  have hscan := rejUniform_eq (H.shake128 msg) (256 - s.a.length) 56 p (show 0 < 3 by norm_num)
  rw [Nat.add_zero] at hscan
  rw [hstep, hscan]
  refine ⟨⟨?_, ?_, rfl, ?_⟩, ?_⟩
  · have hidx : (3 * p + 168) / 3 = p + 56 := by omega
    dsimp only
    rw [hidx, ha]
    exact take_block _ _ _
  · rw [Bytes.length_take]
    exact ⟨56, rfl⟩
  · exact ⟨p + 56, by dsimp only; omega⟩
  · dsimp only
    omega

theorem uniformInit_inv (H : Hash) (msg : List UInt8) :
    UniformInv H msg ⟨rejUniform 256 ((H.shake128 msg).take 840), (H.shake128 msg).take 840,
      ⟨msg, 840⟩⟩ := by
  refine ⟨?_, ?_, rfl, ⟨280, rfl⟩⟩
  · have h := rejUniform_eq (H.shake128 msg) 256 280 0 (show 0 < 3 by norm_num)
    rw [Nat.mul_zero, Bytes.drop_zero, Nat.add_zero] at h
    rw [h]
    simp only [Nat.zero_add]
    rfl
  · rw [Bytes.length_take]
    exact ⟨280, rfl⟩

theorem polyUniform_start (H : Hash) (seed : Bytes) (nonce : ℕ) :
    polyUniform H seed nonce = Prog.loop (fun s : UniformState =>
      pure (if s.a.length < 256 then Sum.inl (uniformStep H s) else Sum.inr (ofSamples s.a)))
      ⟨rejUniform 256 ((H.shake128 (seed.take 32 ++ integerToBytes2 nonce)).take 840),
        (H.shake128 (seed.take 32 ++ integerToBytes2 nonce)).take 840,
        ⟨seed.take 32 ++ integerToBytes2 nonce, 840⟩⟩ := by
  unfold polyUniform shake128Squeezeblocks squeeze
  rw [stream128Init_eq, Bytes.drop_zero, show 5 * shake128Rate = 840 from rfl]

/-- **`poly_uniform` is `RejNTTPoly`.** -/
theorem returns_polyUniform {H : Hash} {seed : Bytes} {nonce : ℕ} {a : Poly} :
    (polyUniform H seed nonce).Returns a ↔
      ∃ L, RejNttPoly H (seed.take 32 ++ integerToBytes2 nonce) L ∧ a = ofSamples L := by
  rw [polyUniform_start]
  exact returns_sampler UniformState.a (fun s => s.state.pos / 3) (UniformInv H _)
    (fun s hs => hs.1) (fun s hs _ => uniformStep_inv hs) ofSamples (fun _ => rfl)
    (uniformInit_inv H _)

theorem uniformCand_range {s : Bytes} {p : ℕ} {x : ℤ} (h : uniformCand s p = some x) :
    0 ≤ x ∧ x < 8380417 := by
  unfold uniformCand coeffFromThreeBytes at h
  dsimp only at h
  split at h
  · cases h
    omega
  · cases h

/-- The polynomial of samples in a range. -/
theorem ofSamples_mem (P : ℤ → Prop) {L : List ℤ} (hL : ∀ x ∈ L, P x) (hlen : 256 ≤ L.length) :
    ∀ k < 256, P ((ofSamples L).rd k) := by
  intro k hk
  rw [rd_ofSamples L hk, List.getD_eq_getElem _ _ (by omega)]
  exact hL _ (List.getElem_mem _)

theorem safe_polyUniform (H : Hash) (seed : Bytes) (nonce : ℕ) :
    (polyUniform H seed nonce).Safe fun a => ∀ k < 256, 0 ≤ a.rd k ∧ a.rd k < 8380417 := by
  rw [polyUniform_start]
  refine safe_sampler UniformState.a (fun s => s.state.pos / 3) (UniformInv H _) (fun s hs => hs.1)
    (fun s hs _ => uniformStep_inv hs) (fun s _ hmem hlen => ?_) (uniformInit_inv H _)
  refine ofSamples_mem (fun x => 0 ≤ x ∧ x < 8380417) (fun x hx => ?_) hlen
  obtain ⟨p, hp⟩ := hmem x hx
  exact uniformCand_range hp

theorem nonce_matrix {i j : ℕ} (hj : j < 256) :
    integerToBytes2 ((i <<< 8) + j) = [UInt8.ofNat j, UInt8.ofNat i] := by
  have h : ((i <<< 8) + j) / 256 = i := by
    rw [Nat.shiftLeft_eq]
    omega
  unfold integerToBytes2
  rw [h, byte_congr (show ((i <<< 8) + j) % 256 = j % 256 by rw [Nat.shiftLeft_eq]; omega)]

/-- **`polyvec_matrix_expand` is `ExpandA`**, in the domain of the transform. -/
theorem returns_polyvecMatrixExpand {H : Hash} {par : MldsaParam} {rho : Bytes}
    (hell : par.ell ≤ 256) {mat : Vector (PolyVec par.ell) par.k} :
    (polyvecMatrixExpand H par rho).Returns mat ↔ ∀ r < par.k, ∀ s < par.ell,
      ∃ L, RejNttPoly H (rho.take 32 ++ [UInt8.ofNat s, UInt8.ofNat r]) L ∧
        (mat.rd r).rd s = ofSamples L := by
  unfold polyvecMatrixExpand Linked.polyvecMatrixExpand Linked.plain
  simp only [returns_tab, returns_polyUniform]
  refine forall₂_congr fun r _ => forall₂_congr fun s hs => ?_
  rw [nonce_matrix (show s < 256 by omega)]

theorem safe_polyvecMatrixExpand (H : Hash) (par : MldsaParam) (rho : Bytes) :
    (polyvecMatrixExpand H par rho).Safe fun mat => ∀ r < par.k, ∀ s < par.ell, ∀ k < 256,
      0 ≤ ((mat.rd r).rd s).rd k ∧ ((mat.rd r).rd s).rd k < 8380417 :=
  Safe.tab fun _ _ => Safe.tab fun _ _ => safe_polyUniform H rho _

/-! ## Secret coefficients -/

theorem eta2Coeff_eq {t : ℕ} (ht : t < 16) : eta2Coeff t = coeffFromHalfByte 2 t := by
  have h : ∀ t < 16, eta2Coeff t = coeffFromHalfByte 2 t := by decide
  exact h t ht

theorem eta4Coeff_eq (t : ℕ) : eta4Coeff t = coeffFromHalfByte 4 t := by
  unfold eta4Coeff coeffFromHalfByte
  simp

/-- Up to two entries from one byte, and the rest. -/
theorem take_two (o0 o1 : Option ℤ) (len : ℕ) (X : List ℤ) (hlen : len ≠ 0) :
    let a1 := if o0.toList.length < len then o1.toList else []
    o0.toList ++ (a1 ++ X.take (len - o0.toList.length - a1.length)) =
      (o0.toList ++ (o1.toList ++ X)).take len := by
  obtain ⟨l, rfl⟩ : ∃ l, len = l + 1 := ⟨len - 1, by omega⟩
  rcases o0 with _ | a
  · rcases o1 with _ | b <;> simp
  · rcases l with _ | l
    · simp
    · rcases o1 with _ | b <;> simp

/-- A scan of a buffer keeps the accepted ones among its half bytes. -/
theorem rejEta_eq {coeff : ℕ → Option ℤ} {eta : ℕ}
    (hcoeff : ∀ t < 16, coeff t = coeffFromHalfByte eta t) (s : Bytes) (len m p : ℕ) :
    rejEta coeff len ((s.drop p).take m) =
      ((List.range (2 * m)).filterMap fun r => etaCand eta s (2 * p + r)).take len := by
  induction m generalizing p len with
  | zero => simp [rejEta, Bytes.take]
  | succ m ih =>
    have hlo : coeff ((s p).toNat &&& 0x0F) = etaCand eta s (2 * p + 0) := by
      have hm : (s p).toNat &&& 0x0F = (s p).toNat % 16 := and_mask 4
      rw [hm, hcoeff _ (Nat.mod_lt _ (by norm_num))]
      unfold etaCand
      rw [if_pos (by omega), show (2 * p + 0) / 2 = p by omega]
    have hhi : coeff ((s p).toNat >>> 4) = etaCand eta s (2 * p + 1) := by
      have hlt := (s p).toNat_lt
      rw [Nat.shiftRight_eq_div_pow, hcoeff _ (by omega)]
      unfold etaCand
      rw [if_neg (by omega), show (2 * p + 1) / 2 = p by omega]
    have htail : (fun r => etaCand eta s (2 * p + (r + 2))) =
        fun r => etaCand eta s (2 * (p + 1) + r) := by
      funext r
      rw [show 2 * p + (r + 2) = 2 * (p + 1) + r by omega]
    have hsplit : (List.range (2 * (m + 1))).filterMap (fun r => etaCand eta s (2 * p + r)) =
        (etaCand eta s (2 * p + 0)).toList ++ ((etaCand eta s (2 * p + 1)).toList ++
          (List.range (2 * m)).filterMap fun r => etaCand eta s (2 * (p + 1) + r)) := by
      rw [← htail, show 2 * (m + 1) = 2 * m + 1 + 1 by omega, List.range_succ_eq_map,
        List.range_succ_eq_map]
      simp only [List.filterMap_cons, List.filterMap_map, List.map_cons, List.map_map]
      cases etaCand eta s (2 * p + 0) <;> cases etaCand eta s (2 * p + 1) <;> rfl
    rw [Bytes.take_succ, Bytes.drop_drop, hsplit]
    unfold rejEta
    by_cases hlen : len = 0
    · rw [if_pos hlen, hlen, List.take_zero]
    · have hbyte : s.drop p 0 = s p := rfl
      rw [if_neg hlen, hbyte, hlo, hhi]
      dsimp only
      rw [ih]
      exact take_two _ _ len _ hlen

/-- The states of the loops of `poly_uniform_eta_2` and `poly_uniform_eta_4`. -/
def EtaInv (H : Hash) (eta : ℕ) (msg : List UInt8) (s : List ℤ × KeccakState) : Prop :=
  s.1 = (accepted (etaCand eta (H.shake256 msg)) (2 * s.2.pos)).take 256 ∧ s.2.msg = msg

/-- **`poly_uniform_eta_2` and `poly_uniform_eta_4` are `RejBoundedPoly`.** -/
theorem returns_polyUniformEtaWith {H : Hash} {coeff : ℕ → Option ℤ} {eta : ℕ}
    (hcoeff : ∀ t < 16, coeff t = coeffFromHalfByte eta t) {nblocks : ℕ} {seed : Bytes}
    {nonce : ℕ} :
    (∀ a, (polyUniformEtaWith H (rejEta coeff) nblocks seed nonce).Returns a ↔
      ∃ L, RejBoundedPoly H eta (seed.take 64 ++ integerToBytes2 nonce) L ∧ a = ofSamples L) ∧
    ∀ P : ℤ → Prop, (∀ s p x, etaCand eta s p = some x → P x) →
      (polyUniformEtaWith H (rejEta coeff) nblocks seed nonce).Safe
        fun a => ∀ k < 256, P (a.rd k) := by
  obtain ⟨msg, hmsg⟩ : ∃ msg, msg = seed.take 64 ++ integerToBytes2 nonce := ⟨_, rfl⟩
  have hstart : polyUniformEtaWith H (rejEta coeff) nblocks seed nonce =
      Prog.loop (fun s : List ℤ × KeccakState =>
        pure (if s.1.length < 256 then
          Sum.inl (s.1 ++ rejEta coeff (256 - s.1.length)
            (shake256Squeezeblocks H 1 s.2).1, (shake256Squeezeblocks H 1 s.2).2)
        else Sum.inr (ofSamples s.1)))
        (rejEta coeff 256 ((H.shake256 msg).take (nblocks * 136)), ⟨msg, nblocks * 136⟩) := by
    unfold polyUniformEtaWith shake256Squeezeblocks squeeze
    rw [stream256Init_eq, ← hmsg, Bytes.drop_zero]
    simp only [Nat.zero_add]
  have hinit : EtaInv H eta msg
      (rejEta coeff 256 ((H.shake256 msg).take (nblocks * 136)), ⟨msg, nblocks * 136⟩) := by
    refine ⟨?_, rfl⟩
    have h := rejEta_eq hcoeff (H.shake256 msg) 256 (nblocks * 136) 0
    rw [Bytes.drop_zero] at h
    dsimp only
    rw [h]
    simp only [Nat.mul_zero, Nat.zero_add]
    rfl
  have hstep : ∀ s, EtaInv H eta msg s → s.1.length < 256 →
      EtaInv H eta msg (s.1 ++ rejEta coeff (256 - s.1.length)
        (shake256Squeezeblocks H 1 s.2).1, (shake256Squeezeblocks H 1 s.2).2) ∧
        2 * s.2.pos < 2 * (shake256Squeezeblocks H 1 s.2).2.pos := by
    rintro ⟨a, st⟩ ⟨ha, hst⟩ _
    dsimp only at ha hst
    have hpos : (shake256Squeezeblocks H 1 st).2 = ⟨msg, st.pos + 136⟩ := by
      rw [← hst]
      rfl
    have hblk : (shake256Squeezeblocks H 1 st).1 = ((H.shake256 msg).drop st.pos).take 136 := by
      rw [← hst]
      rfl
    dsimp only
    rw [hpos, hblk, rejEta_eq hcoeff, ha]
    refine ⟨⟨?_, rfl⟩, by dsimp only; omega⟩
    dsimp only
    rw [Nat.mul_add]
    exact take_block _ _ _
  rw [hstart, hmsg.symm]
  constructor
  · intro a
    exact returns_sampler Prod.fst (fun s => 2 * s.2.pos) (EtaInv H eta msg) (fun s hs => hs.1)
      hstep ofSamples (fun _ => rfl) hinit
  · intro P hP
    refine safe_sampler Prod.fst (fun s => 2 * s.2.pos) (EtaInv H eta msg) (fun s hs => hs.1)
      hstep (fun s _ hmem hlen => ofSamples_mem P (fun x hx => ?_) hlen) hinit
    obtain ⟨p, hp⟩ := hmem x hx
    exact hP _ p x hp

theorem etaCand_range {eta : ℕ} {s : Bytes} {p : ℕ} {x : ℤ} (h : etaCand eta s p = some x) :
    -eta ≤ x ∧ x ≤ eta := by
  unfold etaCand at h
  generalize (if p % 2 = 0 then (s (p / 2)).toNat % 16 else (s (p / 2)).toNat / 16) = b at h
  unfold coeffFromHalfByte at h
  split at h
  · rename_i h2
    have hx := Option.some.inj h
    omega
  · split at h
    · rename_i h4
      have hx := Option.some.inj h
      omega
    · cases h

/-- **`poly_uniform_eta` is `RejBoundedPoly`.** -/
theorem returns_polyUniformEta {H : Hash} (i : Fin 3) {seed : Bytes} {nonce : ℕ} {a : Poly} :
    (polyUniformEta H (mldsaPar i) seed nonce).Returns a ↔
      ∃ L, RejBoundedPoly H (mldsaPar i).eta (seed.take 64 ++ integerToBytes2 nonce) L ∧
        a = ofSamples L := by
  unfold polyUniformEta
  rcases eta_cases i with h | h
  · rw [if_pos h, h]
    exact (returns_polyUniformEtaWith fun t ht => eta2Coeff_eq ht).1 a
  · rw [if_neg (by rw [h]; norm_num), if_pos h, h]
    exact (returns_polyUniformEtaWith fun t _ => eta4Coeff_eq t).1 a

theorem safe_polyUniformEta (H : Hash) (i : Fin 3) (seed : Bytes) (nonce : ℕ) :
    (polyUniformEta H (mldsaPar i) seed nonce).Safe fun a =>
      ∀ k < 256, -(mldsaPar i).eta ≤ a.rd k ∧ a.rd k ≤ (mldsaPar i).eta := by
  unfold polyUniformEta
  rcases eta_cases i with h | h
  · rw [if_pos h, h]
    exact (returns_polyUniformEtaWith fun t ht => eta2Coeff_eq ht).2 (fun x => -(2 : ℕ) ≤ x ∧ x ≤ (2 : ℕ))
      fun s p x hx => etaCand_range hx
  · rw [if_neg (by rw [h]; norm_num), if_pos h, h]
    exact (returns_polyUniformEtaWith fun t _ => eta4Coeff_eq t).2 (fun x => -(4 : ℕ) ≤ x ∧ x ≤ (4 : ℕ))
      fun s p x hx => etaCand_range hx

/-! ## Masks -/

theorem integerToBytes2_mod (x : ℕ) : integerToBytes2 (x % 2 ^ 16) = integerToBytes2 x := by
  unfold integerToBytes2
  rw [byte_congr (show x % 2 ^ 16 % 256 = x % 256 by omega),
    byte_congr (show x % 2 ^ 16 / 256 % 256 = x / 256 % 256 by omega)]

/-- **`poly_uniform_gamma1` is `ExpandMask`.** -/
theorem polyvecUniformGamma1_eq (H : Hash) (i : Fin 3) (seed : Bytes) (nonce : ℕ) :
    polyvecUniformGamma1 H (mldsaPar i) seed nonce =
      pure (Vector.tab (mldsaPar i).ell fun r => Vector.tab 256
        (expandMask H (mldsaPar i).gamma1 (seed.take 64) ((mldsaPar i).ell * nonce) r)) := by
  have hblocks : (mldsaPar i).pzpSz ≤
      ((mldsaPar i).pzpSz + shake256Rate - 1) / shake256Rate * shake256Rate := by
    fin_cases i <;> decide
  unfold polyvecUniformGamma1
  rw [← Chk.tab_pure]
  refine Chk.tab_congr fun r _ => ?_
  unfold polyUniformGamma1 shake256Squeezeblocks squeeze expandMask
  rw [stream256Init_eq, integerToBytes2_mod, Bytes.drop_zero]
  dsimp only
  rw [polyzUnpack_eq]
  refine congrArg pure (Vector.tab_congr fun k hk => bitUnpack_congr (fun j hj => ?_) hk)
  rw [← pzpSz_eq] at hj
  exact Bytes.ofList_take (by omega)

/-! ## Challenges -/

/-- What `poly_challenge` keeps once it has read `p` bytes of the output for `msg`. -/
def challengeAt (H : Hash) (msg : List UInt8) (p : ℕ) : ChallengeState :=
  ⟨((H.shake256 msg).drop (136 * ((p - 1) / 136))).take 136, p - 136 * ((p - 1) / 136),
    ⟨msg, 136 * ((p - 1) / 136) + 136⟩⟩

/-- How many bytes were read. -/
def bytesRead (s : ChallengeState) : ℕ := s.state.pos - 136 + s.pos

variable {H : Hash} {msg : List UInt8}

theorem bytesRead_challengeAt {p : ℕ} (hp : 0 < p) : bytesRead (challengeAt H msg p) = p := by
  unfold bytesRead challengeAt
  dsimp only
  omega

/-- A byte is read, behind a refill where the buffer is used up. -/
theorem challengeRefill_challengeAt {p : ℕ} (hp : 0 < p) :
    challengeRefill H (challengeAt H msg p) =
      ⟨((H.shake256 msg).drop (136 * (p / 136))).take 136, p % 136,
        ⟨msg, 136 * (p / 136) + 136⟩⟩ := by
  unfold challengeRefill challengeAt shake256Squeezeblocks squeeze
  dsimp only
  rw [show 1 * shake256Rate = 136 from rfl]
  by_cases h : p % 136 = 0
  · have hq : 136 * ((p - 1) / 136) + 136 = 136 * (p / 136) := by omega
    rw [if_pos (show shake256Rate ≤ _ by simp only [shake256Rate]; omega), hq, h]
  · have hq : (p - 1) / 136 = p / 136 := by omega
    rw [if_neg (show ¬shake256Rate ≤ _ by simp only [shake256Rate]; omega), hq]
    congr 1
    omega

/-- A turn of the inner loop of `poly_challenge`. -/
def challengeTurn (H : Hash) (msg : List UInt8) (i p : ℕ) : ChallengeState ⊕ (ℕ × ChallengeState) :=
  if (H.shake256 msg p).toNat > i then Sum.inl (challengeAt H msg (p + 1))
  else Sum.inr ((H.shake256 msg p).toNat, challengeAt H msg (p + 1))

theorem challengeTurn_eq {i p : ℕ} (hp : 0 < p) :
    (let s := challengeRefill H (challengeAt H msg p)
     let b := (s.buf.getD s.pos 0).toNat
     let s := { s with pos := s.pos + 1 }
     if b > i then Sum.inl s else Sum.inr (b, s)) = challengeTurn H msg i p := by
  have hlt : p % 136 < 136 := Nat.mod_lt p (by norm_num)
  have hbyte : (((H.shake256 msg).drop (136 * (p / 136))).take 136).getD (p % 136) 0 =
      H.shake256 msg p := by
    have h : Bytes.ofList (((H.shake256 msg).drop (136 * (p / 136))).take 136) (p % 136) =
        (H.shake256 msg).drop (136 * (p / 136)) (p % 136) := Bytes.ofList_take hlt
    rw [Bytes.ofList, Bytes.drop, Nat.div_add_mod] at h
    exact h
  have hnext : (⟨((H.shake256 msg).drop (136 * (p / 136))).take 136, p % 136 + 1,
      ⟨msg, 136 * (p / 136) + 136⟩⟩ : ChallengeState) = challengeAt H msg (p + 1) := by
    unfold challengeAt
    rw [Nat.add_sub_cancel]
    congr 1
    omega
  rw [challengeRefill_challengeAt hp]
  dsimp only
  rw [hbyte, hnext]
  rfl

/-- **The inner loop of `poly_challenge`** reads on to the next byte that will do. -/
theorem returns_challengeByte {i p : ℕ} (hp : 0 < p) {r : ℕ × ChallengeState} :
    (challengeByte H i (challengeAt H msg p)).Returns r ↔
      ∃ p', NextBelow (H.shake256 msg) i p p' ∧
        r = ((H.shake256 msg (p' - 1)).toNat, challengeAt H msg p') := by
  unfold challengeByte
  rw [returns_loop]
  constructor
  · intro h
    generalize hs : challengeAt H msg p = s at h
    induction h generalizing p with
    | @done s r h =>
      subst hs
      have h := (challengeTurn_eq hp).symm.trans (returns_pure.1 h)
      unfold challengeTurn at h
      by_cases hlt : (H.shake256 msg p).toNat > i
      · rw [if_pos hlt] at h
        cases h
      · rw [if_neg hlt] at h
        cases h
        refine ⟨p + 1, ⟨Nat.lt_succ_self p, ?_, fun q hq1 hq2 => absurd hq1 (by omega)⟩, rfl⟩
        rw [Nat.add_sub_cancel]
        omega
    | @next s s' r h _ ih =>
      subst hs
      have h := (challengeTurn_eq hp).symm.trans (returns_pure.1 h)
      unfold challengeTurn at h
      by_cases hlt : (H.shake256 msg p).toNat > i
      · rw [if_pos hlt] at h
        obtain ⟨p', ⟨hpp', hle, hskip⟩, rfl⟩ := ih (Nat.succ_pos p) (Sum.inl.inj h)
        refine ⟨p', ⟨by omega, hle, fun q hq1 hq2 => ?_⟩, rfl⟩
        rcases Nat.eq_or_lt_of_le hq1 with rfl | hq1
        · exact hlt
        · exact hskip q hq1 hq2
      · rw [if_neg hlt] at h
        cases h
  · rintro ⟨p', ⟨hpp', hle, hskip⟩, rfl⟩
    -- the bytes still to be skipped bound the turns still to come
    obtain ⟨k, rfl⟩ : ∃ k, p' = p + 1 + k := ⟨p' - (p + 1), by omega⟩
    induction k generalizing p with
    | zero =>
      refine .done (returns_pure.2 ((challengeTurn_eq hp).trans ?_))
      unfold challengeTurn
      rw [Nat.add_zero, Nat.add_sub_cancel] at *
      rw [if_neg (by omega)]
    | succ k ih =>
      have hnext : p + 1 + (k + 1) = p + 1 + 1 + k := by omega
      have hturn : challengeTurn H msg i p = Sum.inl (challengeAt H msg (p + 1)) :=
        if_pos (hskip p le_rfl (by omega))
      refine .next (returns_pure.2 ((challengeTurn_eq hp).trans hturn)) ?_
      rw [hnext] at hle hskip ⊢
      exact ih (Nat.succ_pos p) (by omega) hle fun q hq1 hq2 => hskip q (by omega) hq2

/-- The signs of `poly_challenge`, from the first eight bytes. -/
theorem signs_eq (s : Bytes) :
    (List.range 8).foldl (fun signs i => signs ||| ((s.take 136).getD i 0).toNat <<< (8 * i)) 0 =
      value 8 8 fun i => (s i).toNat := by
  have hbyte : ∀ i < 8, ((s.take 136).getD i 0).toNat = (s i).toNat := by
    intro i hi
    have h : Bytes.ofList (s.take 136) i = s i := Bytes.ofList_take (by omega)
    exact congrArg UInt8.toNat h
  have hlt : ∀ i, (s i).toNat < 256 := fun i => (s i).toNat_lt
  have h0 := hlt 0
  have h1 := hlt 1
  have h2 := hlt 2
  have h3 := hlt 3
  have h4 := hlt 4
  have h5 := hlt 5
  have h6 := hlt 6
  simp only [show List.range 8 = [0, 1, 2, 3, 4, 5, 6, 7] from rfl, List.foldl_cons, List.foldl_nil]
  simp only [hbyte 0 (by omega), hbyte 1 (by omega), hbyte 2 (by omega), hbyte 3 (by omega),
    hbyte 4 (by omega), hbyte 5 (by omega), hbyte 6 (by omega), hbyte 7 (by omega), value]
  rw [or_shl 0 (by norm_num), or_shl 8 (by omega), or_shl 16 (by omega), or_shl 24 (by omega),
    or_shl 32 (by omega), or_shl 40 (by omega), or_shl 48 (by omega), or_shl 56 (by omega)]
  ring

/-- A sign bit, as the code and as the standard reads it. -/
theorem sign_bit (signs : ℕ) : 1 - 2 * ((signs &&& 1 : ℕ) : ℤ) = (-1) ^ (signs % 2) := by
  have hm : signs &&& 1 = signs % 2 := and_mask 1
  rw [hm]
  rcases Nat.mod_two_eq_zero_or_one signs with h | h <;> rw [h] <;> norm_num

/-- A turn of the outer loop of `poly_challenge`. -/
theorem returns_challengeStep {i p signs : ℕ} (hp : 0 < p) {c : Poly}
    {r : Poly × ℕ × ChallengeState} :
    (challengeStep H (c, signs, challengeAt H msg p) i).Returns r ↔
      ∃ p', NextBelow (H.shake256 msg) i p p' ∧
        r = ((c.wr i (c.rd (H.shake256 msg (p' - 1)).toNat)).wr (H.shake256 msg (p' - 1)).toNat
          ((-1) ^ (signs % 2)), signs / 2, challengeAt H msg p') := by
  unfold challengeStep
  simp only [returns_bind, returns_challengeByte hp, returns_pure, sign_bit, Nat.shiftRight_one]
  constructor
  · rintro ⟨_, ⟨p', hp', rfl⟩, rfl⟩
    exact ⟨p', hp', rfl⟩
  · rintro ⟨p', hp', rfl⟩
    exact ⟨_, ⟨p', hp', rfl⟩, rfl⟩

/-- The same step on a polynomial and on its coefficients. -/
theorem tab_ballStep {c : ℕ → ℤ} {i j sign : ℕ} (hi : i < 256) (hj : j ≤ i) :
    ((Vector.tab 256 c).wr i ((Vector.tab 256 c).rd j)).wr j ((-1) ^ sign) =
      Vector.tab 256 (ballStep c i j sign) := by
  apply Vector.ext_rd
  intro k hk
  unfold ballStep
  rw [Vector.rd_wr, Vector.rd_wr, Vector.rd_tab _ hk, Vector.rd_tab _ hk,
    Vector.rd_tab _ (lt_of_le_of_lt hj hi)]
  by_cases hjk : j = k
  · rw [if_pos ⟨hjk, hk⟩, hjk, Function.update_self]
  · rw [if_neg (fun h => hjk h.1), Function.update_of_ne (Ne.symm hjk)]
    by_cases hik : i = k
    · rw [if_pos ⟨hik, hk⟩, hik, Function.update_self]
    · rw [if_neg (fun h => hik h.1), Function.update_of_ne (Ne.symm hik)]

/-- The coefficients after `m` turns, when turn `m` starts to read at `pos m`. -/
def ballAfter (s : Bytes) (tau : ℕ) (pos : ℕ → ℕ) (m : ℕ) : ℕ → ℤ :=
  (List.range m).foldl (fun c m => ballStep c (256 - tau + m) (s (pos (m + 1) - 1)).toNat
    (bit 8 (fun i => (s i).toNat) m)) fun _ => 0

/-- What the outer loop of `poly_challenge` keeps after `m` turns. -/
def challengeAfter (H : Hash) (msg : List UInt8) (tau : ℕ) (pos : ℕ → ℕ) (m : ℕ) :
    Poly × ℕ × ChallengeState :=
  (Vector.tab 256 (ballAfter (H.shake256 msg) tau pos m),
    value 8 8 (fun i => (H.shake256 msg i).toNat) / 2 ^ m, challengeAt H msg (pos m))

/-- One turn, for any choice of where the next one starts. -/
theorem returns_challengeAfter {tau m : ℕ} (htau : tau ≤ 64) (hm : m < tau) {pos : ℕ → ℕ}
    (hpos : 0 < pos m) :
    NextBelow (H.shake256 msg) (256 - tau + m) (pos m) (pos (m + 1)) →
      (challengeStep H (challengeAfter H msg tau pos m) (256 - tau + m)).Returns
        (challengeAfter H msg tau pos (m + 1)) := by
  intro hnext
  refine (returns_challengeStep hpos).2 ⟨_, hnext, ?_⟩
  have hbit : value 8 8 (fun i => (H.shake256 msg i).toNat) / 2 ^ m % 2 =
      bit 8 (fun i => (H.shake256 msg i).toNat) m :=
    bit_value (fun i _ => (H.shake256 msg i).toNat_lt) (by omega)
  unfold challengeAfter
  rw [hbit, tab_ballStep (by omega) hnext.2.1, pow_succ, Nat.div_div_eq_div_mul]
  refine Prod.ext ?_ rfl
  dsimp only
  unfold ballAfter
  rw [List.range_succ, List.foldl_append]
  rfl

theorem polyChallenge_start (H : Hash) (par : MldsaParam) (seed : Bytes) :
    polyChallenge H par seed = (do
      let s ← (List.range par.tau).foldlM (fun s n => challengeStep H s (256 - par.tau + n))
        (challengeAfter H (seed.take par.cpSz) par.tau (fun _ => 8) 0)
      pure s.1) := by
  have hstart : challengeAfter H (seed.take par.cpSz) par.tau (fun _ => 8) 0 =
      (Vector.tab 256 fun _ => 0, value 8 8 (fun i => (H.shake256 (seed.take par.cpSz) i).toNat),
        ⟨(H.shake256 (seed.take par.cpSz)).take 136, 8, ⟨seed.take par.cpSz, 136⟩⟩) := by
    unfold challengeAfter challengeAt ballAfter
    rw [pow_zero, Nat.div_one]
    rfl
  unfold polyChallenge
  rw [hstart, ← signs_eq]
  rfl

/-- **`poly_challenge` is `SampleInBall`.** -/
theorem returns_polyChallenge {par : MldsaParam} (htau : par.tau ≤ 64) {seed : Bytes} {a : Poly} :
    (polyChallenge H par seed).Returns a ↔
      ∃ c, SampleInBall H par.tau (seed.take par.cpSz) c ∧ a = Vector.tab 256 c := by
  rw [polyChallenge_start, returns_bind]
  simp only [returns_pure, returns_foldlM]
  constructor
  · rintro ⟨_, ⟨t, ht0, ht, rfl⟩, rfl⟩
    -- where turn `m` starts can be seen from the state it starts in
    obtain ⟨pos, hpos⟩ : ∃ pos : ℕ → ℕ, ∀ m, pos m = bytesRead (t m).2.2 := ⟨_, fun _ => rfl⟩
    have hpos0 : pos 0 = 8 := by
      rw [hpos, ht0]
      exact bytesRead_challengeAt (by norm_num)
    have hnext : ∀ m < par.tau, 0 < pos m →
        t m = challengeAfter H (seed.take par.cpSz) par.tau pos m →
          NextBelow (H.shake256 (seed.take par.cpSz)) (256 - par.tau + m) (pos m) (pos (m + 1)) := by
      intro m hm h0 heq
      have hstep := ht m hm
      rw [heq] at hstep
      obtain ⟨p', hbelow, hp'⟩ := (returns_challengeStep h0).1 hstep
      have hread : pos (m + 1) = p' := by
        rw [hpos, hp']
        exact bytesRead_challengeAt (by have := hbelow.1; omega)
      rwa [hread]
    have hrun : ∀ m ≤ par.tau, 0 < pos m ∧
        t m = challengeAfter H (seed.take par.cpSz) par.tau pos m := by
      intro m
      induction m with
      | zero =>
        refine fun _ => ⟨by omega, ?_⟩
        rw [ht0]
        unfold challengeAfter
        rw [hpos0]
        rfl
      | succ m ih =>
        intro hm
        obtain ⟨h0, heq⟩ := ih (by omega)
        have hbelow := hnext m hm h0 heq
        have hstep := ht m hm
        rw [heq] at hstep
        exact ⟨lt_trans h0 hbelow.1,
          returns_unique hstep (returns_challengeAfter htau hm h0 hbelow)⟩
    refine ⟨ballAfter (H.shake256 (seed.take par.cpSz)) par.tau pos par.tau,
      ⟨pos, hpos0, fun m hm => hnext m hm (hrun m hm.le).1 (hrun m hm.le).2, fun k _ => rfl⟩, ?_⟩
    rw [(hrun par.tau le_rfl).2]
    rfl
  · rintro ⟨c, ⟨pos, hpos0, hnext, hc⟩, rfl⟩
    have hpos : ∀ m ≤ par.tau, 0 < pos m := by
      intro m
      induction m with
      | zero => intro _; omega
      | succ m ih =>
        intro hm
        have := (hnext m hm).1
        omega
    refine ⟨challengeAfter H (seed.take par.cpSz) par.tau pos par.tau,
      ⟨challengeAfter H (seed.take par.cpSz) par.tau pos, ?_, ?_, rfl⟩, ?_⟩
    · unfold challengeAfter
      rw [hpos0]
      rfl
    · exact fun m hm => returns_challengeAfter htau hm (hpos m hm.le) (hnext m hm)
    · exact Vector.tab_congr fun k hk => (hc k hk).symm

/-- On any output of the sponge, a challenge has the coefficients `-1`, `0` and `1`. -/
theorem safe_polyChallenge (H : Hash) (par : MldsaParam) (seed : Bytes) :
    (polyChallenge H par seed).Safe fun a => ∀ k, -1 ≤ a.rd k ∧ a.rd k ≤ 1 := by
  have hwr : ∀ (c : Poly) i x, (∀ k, -1 ≤ c.rd k ∧ c.rd k ≤ 1) → -1 ≤ x ∧ x ≤ 1 →
      ∀ k, -1 ≤ (c.wr i x).rd k ∧ (c.wr i x).rd k ≤ 1 := by
    intro c i x hc hx k
    rw [Vector.rd_wr]
    split
    · exact hx
    · exact hc k
  have hbyte : ∀ i s, (challengeByte H i s).Safe fun _ => True := by
    intro i s
    refine Safe.loop (fun _ => True) (fun s _ => Safe.pure ?_) trivial
    split
    · trivial
    · trivial
  unfold polyChallenge
  refine Safe.bind (Safe.foldlM (fun s => ∀ k, -1 ≤ s.1.rd k ∧ s.1.rd k ≤ 1) ?_ ?_)
    fun s hs => Safe.pure hs
  · intro k
    by_cases hk : k < 256
    · rw [Vector.rd_tab _ hk]
      norm_num
    · rw [Vector.rd_of_le _ (Nat.not_lt.1 hk)]
      decide
  · rintro ⟨c, signs, s⟩ n hc
    refine Safe.bind (hbyte _ _) fun r _ => Safe.pure ?_
    refine hwr _ _ _ (hwr _ _ _ hc (hc _)) ?_
    have hm : signs &&& 1 = signs % 2 := and_mask 1
    rw [hm]
    omega

end Mldsa
