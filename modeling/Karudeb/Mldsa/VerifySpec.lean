import Karudeb.Mldsa.KeygenSpec

/-!
# ML-DSA: verification is the standard's

* `polyvecPackW1_eq`, `returns_challenge` : the encoding of `w1` and the challenge
  polynomial, which signing uses as well.
* `verifyVectors_eq` : the high bits that verification arrives at, exactly, for
  every response and every public key that can be decoded.
* `verify_accepts` : what is accepted.
-/

namespace Mldsa

open Word Bits Negacyclic Fips204 Prog

variable {H : Hash}

/-! ## The challenge -/

theorem hashTwo_eq (H : Hash) (n : ℕ) (m m' : List UInt8) :
    hashTwo H n m m' = (H.shake256 (m ++ m')).take n := by
  unfold hashTwo shake256Squeeze squeeze
  exact congrArg (Bytes.take · n) (Bytes.drop_zero _)

/-- High bits in range. -/
def InW1 (i : Fin 3) (w1 : PolyVec (mldsaPar i).k) : Prop :=
  ∀ r < (mldsaPar i).k, ∀ j < 256,
    0 ≤ coeffs w1 r j ∧ coeffs w1 r j < 8380416 / (2 * (mldsaPar i).gamma2)

theorem w1pSz_eq (i : Fin 3) :
    (mldsaPar i).w1pSz = 32 * bitlen ((8380417 - 1) / (2 * (mldsaPar i).gamma2) - 1) := by
  fin_cases i <;> decide

theorem length_w1Encode (i : Fin 3) (w1 : ℕ → ℕ → ℤ) :
    (w1Encode (mldsaPar i) w1).length = (mldsaPar i).k * (mldsaPar i).w1pSz := by
  unfold w1Encode
  rw [length_simpleBitPacks, w1pSz_eq]

theorem w1Encode_congr {par : MldsaParam} {w1 w1' : ℕ → ℕ → ℤ}
    (h : ∀ r < par.k, ∀ j < 256, w1 r j = w1' r j) : w1Encode par w1 = w1Encode par w1' :=
  List.flatMap_congr fun r hr => simpleBitPack_congr fun j hj => by
    rw [h r (List.mem_range.1 hr) j hj]

/-- `polyveck_pack_w1` stores `w1Encode`. -/
theorem polyvecPackW1_eq (i : Fin 3) (b : Bytes) {w1 : PolyVec (mldsaPar i).k} (h : InW1 i w1) :
    polyvecPackW1 (mldsaPar i) b w1 = pure (b.put 0 (w1Encode (mldsaPar i) (coeffs w1))) := by
  have hrun : ∀ n ≤ (mldsaPar i).k, (List.range n).foldlM (fun (b : Bytes) r => do
      let t ← polyw1Pack (mldsaPar i) (w1.rd r)
      pure (b.put (r * (mldsaPar i).w1pSz) t)) b =
      (pure ((List.range n).foldl (fun (b : Bytes) r => b.put (0 + r * (mldsaPar i).w1pSz)
        (simpleBitPack ((8380417 - 1) / (2 * (mldsaPar i).gamma2) - 1) fun j =>
          (coeffs w1 r j).toNat)) b) : Chk Bytes) := by
    intro n
    induction n with
    | zero => exact fun _ => rfl
    | succ n ih =>
      intro hn
      rw [Chk.foldlM_range_succ, ih (by omega), pure_bind, polyw1Pack_eq i (h n (by omega)),
        pure_bind, List.range_succ, List.foldl_append, List.foldl_cons, List.foldl_nil, Nat.zero_add]
      rfl
  unfold polyvecPackW1
  rw [hrun _ le_rfl, Bytes.foldl_put b 0 fun r _ => by rw [length_simpleBitPack, w1pSz_eq]]
  rfl

/-- The challenge polynomial is that of the standard, and its coefficients are small. -/
theorem returns_challenge (i : Fin 3) {seed : Bytes} {cp : Poly} :
    (polyChallenge H (mldsaPar i) seed).Returns cp ↔
      ∃ c, SampleInBall H (mldsaPar i).tau (seed.take (mldsaPar i).cpSz) c ∧
        cp = Vector.tab 256 c :=
  returns_polyChallenge (tau_le i)

theorem challenge_bounded {i : Fin 3} {seed : Bytes} {cp : Poly}
    (h : (polyChallenge H (mldsaPar i) seed).Returns cp) : Bounded 1 cp := by
  have hsafe := (safe_polyChallenge H (mldsaPar i) seed).of_returns h
  exact fun j _ => hsafe j

theorem toRq_tab (c : ℕ → ℤ) : toRq (Vector.tab 256 c) = ofInts c :=
  ofInts_congr fun _ hj => Vector.rd_tab _ hj

/-- There is only one challenge. -/
theorem challenge_unique (i : Fin 3) {rho : List UInt8} (hrho : rho.length = (mldsaPar i).cpSz)
    {c c' : ℕ → ℤ} (h : SampleInBall H (mldsaPar i).tau rho c)
    (h' : SampleInBall H (mldsaPar i).tau rho c') : ofInts c = ofInts c' := by
  have hseed := Bytes.take_ofList_of_length hrho
  have hret : ∀ c, SampleInBall H (mldsaPar i).tau rho c →
      (polyChallenge H (mldsaPar i) (Bytes.ofList rho)).Returns (Vector.tab 256 c) := fun c hc =>
    (returns_challenge i).2 ⟨c, hseed.symm ▸ hc, rfl⟩
  have htab := returns_unique (hret c h) (hret c' h')
  rw [← toRq_tab, htab, toRq_tab]

/-! ## The arithmetic -/

theorem NttRep.sub {c : Zq} {a b r : Poly} {u v : Rq} (hu : NttRep c a u) (hv : NttRep c b v)
    (h : ∀ j < 256, (r.rd j : Zq) = a.rd j - b.rd j) : NttRep c r (u - v) := by
  intro j hj
  rw [ntt_sub, ← hu j hj, ← hv j hj, h j hj, sub_mul]

theorem toRq_shift {a b : Poly} (h : ∀ j < 256, b.rd j = a.rd j * 2 ^ 13) :
    toRq b = toRq a * 2 ^ 13 :=
  (ofInts_congr h).trans (ofInts_shift a.rd)

/-- The vector whose high bits verification reconstructs. -/
noncomputable def verifyW {k ell : ℕ} (A : ℕ → ℕ → Rq) (z : PolyVec ell) (cp : Poly) (t1 : PolyVec k)
    (r : ℕ) : Rq :=
  wApprox ell A (toRqs z) (toRq cp) (toRqs t1 r) r

theorem polyvecUseHint_eq (i : Fin 3) {n : ℕ} {v h : PolyVec n} (hv : VecStd v)
    (hh : ∀ r < n, ∀ j < 256, coeffs h r j = 0 ∨ coeffs h r j = 1) :
    polyvecUseHint (mldsaPar i) v h = pure (Vector.tab n fun r => Vector.tab 256 fun j =>
      useHint (mldsaPar i).gamma2 (coeffs h r j) (coeffs v r j)) := by
  unfold polyvecUseHint
  rw [Chk.tab_congr fun r hr => polyUseHint_eq i (hv r hr) (hh r hr), Chk.tab_pure]
  rfl

/-- What `caddq` leaves of a vector over the ring are its standard representatives. -/
theorem coeffs_std {n : ℕ} {v : PolyVec n} {w : ℕ → Rq} (hv : VecStd v)
    (hw : ∀ r < n, toRqs v r = w r) : ∀ r < n, ∀ j < 256, coeffs v r j = std (w r) j :=
  fun r hr j hj => by rw [← hw r hr, toRqs, std_toRq (hv r hr) hj, coeffs]

/-- **The high bits that verification arrives at**, without any overflow. -/
theorem verifyVectors_eq (i : Fin 3) (A : ℕ → ℕ → Rq) {z : PolyVec (mldsaPar i).ell} {cp : Poly}
    {t1 h : PolyVec (mldsaPar i).k} (hz : VecBounded (2 ^ 19) z) (hc : Bounded 1 cp) (ht : InT1 t1)
    (hh : IsHint (mldsaPar i).k (coeffs h)) :
    verifyVectors (matOf _ _ A) z cp t1 h = pure (Vector.tab _ fun r => Vector.tab 256 fun j =>
      useHint (mldsaPar i).gamma2 (coeffs h r j) (std (verifyW A z cp t1 r) j)) := by
  refine Chk.Holds.eq_pure ?_
  unfold verifyVectors Transforms.verifyVectors
  refine (polyvecNtt_spec hz (by norm_num)).bind fun zhat hzhat => ?_
  refine (matOf_mul_spec i A hzhat.1 (by norm_num) hzhat.2).bind fun p hp => ?_
  refine (polyNtt_spec hc (by norm_num)).bind fun chat hchat => ?_
  refine (polyvecShiftl_spec ht).bind fun t hts => ?_
  have htb : VecBounded 8380416 t := by
    intro r hr j hj
    obtain ⟨h1, h2⟩ := ht r hr j hj
    unfold coeffs at h1 h2
    rw [hts r hr j hj]
    constructor <;> omega
  refine (polyvecNtt_spec htb (by norm_num)).bind fun that hthat => ?_
  refine (polyvecPointwisePolyMontgomery_spec hchat.1 hthat.1 (by norm_num) hchat.2 hthat.2).bind
    fun q hq => ?_
  refine (polyvecSub_spec hp.1 hq.1 (by norm_num)).bind fun d hd => ?_
  have hdrep : VecRep (2 ^ 32) d (verifyW A z cp t1) := by
    intro r hr
    have h2 := hq.2 r hr
    rw [one_mul, mul_one] at h2
    have hshift : toRq cp * toRqs t r = toRq cp * toRqs t1 r * 2 ^ 13 := by
      rw [mul_assoc]
      exact congrArg _ (toRq_shift (hts r hr))
    unfold verifyW wApprox
    rw [← hshift]
    exact (hp.2 r hr).sub h2 fun j hj => by rw [hd.2 r hr j hj, Int.cast_sub]
  refine (polyvecReduce_rep (hd.1.mono (by norm_num)) hdrep).bind fun e he => ?_
  refine (polyvecInvnttTomont_spec (he.1.mono (by norm_num)) he.2).bind fun f hf => ?_
  refine (polyvecCaddq_spec (hf.1.mono (by norm_num))).bind fun g hg => ?_
  have hring : ∀ r < (mldsaPar i).k, toRqs g r = verifyW A z cp t1 r := fun r hr =>
    (toRq_congr (hg.2 r hr)).trans (hf.2 r hr)
  rw [polyvecUseHint_eq i hg.1 hh]
  refine Chk.Holds.pure (Vector.tab_congr fun r hr => Vector.tab_congr fun j hj => ?_)
  rw [coeffs_std hg.1 hring r hr j hj]

/-! ## Acceptance -/

theorem hintBitPack_congr {h h' : ℕ → ℕ → ℤ} {k omega : ℕ}
    (hh : ∀ r < k, ∀ j < 256, h r j = h' r j) : hintBitPack k omega h = hintBitPack k omega h' := by
  have hrows : ∀ n ≤ k, hintRows h n = hintRows h' n := fun n hn =>
    hintRows_congr fun r hr => hh r (by omega)
  unfold hintBitPack hintWeight
  rw [hrows k le_rfl]
  refine congrArg _ (List.map_congr_left fun r hr => ?_)
  rw [hrows (r + 1) (List.mem_range.1 hr)]

theorem sigEncode_congr {par : MldsaParam} {c : List UInt8} {z z' h h' : ℕ → ℕ → ℤ}
    (hz : ∀ r < par.ell, ∀ j < 256, z r j = z' r j) (hh : ∀ r < par.k, ∀ j < 256, h r j = h' r j) :
    sigEncode par c z h = sigEncode par c z' h' := by
  have hblocks : (List.range par.ell).flatMap (fun r => bitPack (par.gamma1 - 1) par.gamma1 (z r)) =
      (List.range par.ell).flatMap fun r => bitPack (par.gamma1 - 1) par.gamma1 (z' r) :=
    List.flatMap_congr fun r hr => bitPack_congr (hz r (List.mem_range.1 hr))
  unfold sigEncode
  rw [hblocks, hintBitPack_congr hh]

/-- Bounds of the norm tests. -/
theorem norm_bounds (i : Fin 3) : (mldsaPar i).beta < (mldsaPar i).gamma1 ∧
    (mldsaPar i).beta < (mldsaPar i).gamma2 ∧ (mldsaPar i).gamma1 ≤ 2 ^ 19 ∧
      (mldsaPar i).gamma2 ≤ 1047552 := by
  fin_cases i <;> decide

theorem InZ.bounded {i : Fin 3} {z : PolyVec (mldsaPar i).ell} (hz : InZ i (coeffs z)) :
    VecBounded (2 ^ 19) z := by
  obtain ⟨-, -, hle, -⟩ := norm_bounds i
  intro r hr j hj
  obtain ⟨h1, h2⟩ := hz r hr j hj
  unfold coeffs at h1 h2
  constructor <;> omega

/-- The high bits that verification arrives at are in range. -/
theorem inW1_useHint (i : Fin 3) (h : ℕ → ℕ → ℤ) (w : ℕ → Rq) :
    InW1 i (Vector.tab _ fun r => Vector.tab 256 fun j =>
      useHint (mldsaPar i).gamma2 (h r j) (std (w r) j)) := by
  intro r hr j hj
  rw [coeffs_tab hr hj]
  exact useHint_range (gamma2_cases_int i) _ _

/-- The comparison of two strings of one length, byte by byte. -/
theorem all_getD_eq {c c' : List UInt8} {n : ℕ} (hc : c.length = n) (hc' : c'.length = n) :
    ((List.range n).all fun i => c.getD i 0 = c'.getD i 0) = decide (c = c') := by
  rw [Bool.eq_iff_iff, List.all_eq_true, decide_eq_true_eq]
  constructor
  · intro h
    refine List.ext_getElem (hc.trans hc'.symm) fun j h1 h2 => ?_
    have hj := h j (List.mem_range.2 (by omega))
    rw [decide_eq_true_eq, List.getD_eq_getElem _ _ h1, List.getD_eq_getElem _ _ h2] at hj
    exact hj
  · rintro rfl j _
    exact decide_eq_true rfl

/-- What verification compares the challenge with. -/
noncomputable def verifyHash (H : Hash) (par : MldsaParam) (t1 : ℕ → ℕ → ℤ) (mu : List UInt8)
    (A : ℕ → ℕ → Rq) (cf : ℕ → ℤ) (z h : ℕ → ℕ → ℤ) : List UInt8 :=
  (H.shake256 (mu ++ w1Encode par fun r j => useHint par.gamma2 (h r j)
    (std (wApprox par.ell A (fun s => ofInts (z s)) (ofInts cf) (ofInts (t1 r)) r) j))).take
      par.cpSz

theorem verifyHash_congr {par : MldsaParam} {t1 t1' z z' h h' : ℕ → ℕ → ℤ} {mu : List UInt8}
    {A : ℕ → ℕ → Rq} {cf : ℕ → ℤ} (ht : ∀ r < par.k, ∀ j < 256, t1 r j = t1' r j)
    (hz : ∀ r < par.ell, ∀ j < 256, z r j = z' r j) (hh : ∀ r < par.k, ∀ j < 256, h r j = h' r j) :
    verifyHash H par t1 mu A cf z h = verifyHash H par t1' mu A cf z' h' := by
  have hmat : ∀ r, matVec par.ell A (fun s => ofInts (z s)) r =
      matVec par.ell A (fun s => ofInts (z' s)) r := fun r =>
    Finset.sum_congr rfl fun s hs => congrArg _ (ofInts_congr (hz s (Finset.mem_range.1 hs)))
  unfold verifyHash wApprox
  rw [w1Encode_congr fun r hr j hj => by rw [hmat r, hh r hr j hj, ofInts_congr (ht r hr)]]

/-- The end of verification, from `w1` on. -/
theorem returns_verify_compare (i : Fin 3) {A : ℕ → ℕ → Rq} {mu c : List UInt8} {cf : ℕ → ℤ}
    {z : PolyVec (mldsaPar i).ell} {t1 h : PolyVec (mldsaPar i).k} (hc : c.length = (mldsaPar i).cpSz)
    (hz : InZ i (coeffs z)) (hcf : Bounded 1 (Vector.tab 256 cf)) (ht : InT1 t1)
    (hh : IsHint (mldsaPar i).k (coeffs h)) {v : ℕ} :
    Returns (do
      let w1 ← verifyVectors (matOf _ _ A) z (Vector.tab 256 cf) t1 h
      let buf ← polyvecPackW1 (mldsaPar i) (fun _ => 0) w1
      let c2 := hashTwo H (mldsaPar i).cpSz mu (buf.take ((mldsaPar i).k * (mldsaPar i).w1pSz))
      pure (if (List.range (mldsaPar i).cpSz).all fun i => c.getD i 0 = c2.getD i 0 then 1 else 0) :
        Prog ℕ) v ↔
    v = if c = verifyHash H (mldsaPar i) (coeffs t1) mu A cf (coeffs z) (coeffs h) then 1 else 0 := by
  have hw1 := @w1Encode_congr (mldsaPar i) _ _ fun r hr j hj =>
    coeffs_tab (n := (mldsaPar i).k) (f := fun r j => useHint (mldsaPar i).gamma2 (coeffs h r j)
      (std (verifyW A z (Vector.tab 256 cf) t1 r) j)) hr hj
  simp only [returns_bind, returns_lift, returns_pure]
  rw [verifyVectors_eq i A hz.bounded hcf ht hh]
  simp only [Chk.val_pure, exists_eq_left', polyvecPackW1_eq i _ (inW1_useHint i _ _), hashTwo_eq]
  rw [← length_w1Encode i, Bytes.take_put, hw1, all_getD_eq hc (Bytes.length_take _ _)]
  simp only [decide_eq_true_eq, verifyW, toRq_tab]
  exact eq_comm

/-- What is left of verification once the signature is decoded and `z` is short. -/
theorem returns_verify_tail (i : Fin 3) {rho : Bytes} {mu c : List UInt8}
    {z : PolyVec (mldsaPar i).ell} {t1 h : PolyVec (mldsaPar i).k} (hc : c.length = (mldsaPar i).cpSz)
    (hz : InZ i (coeffs z)) (ht : InT1 t1) (hh : IsHint (mldsaPar i).k (coeffs h)) {v : ℕ} :
    Returns (do
      let cp ← polyChallenge H (mldsaPar i) (Bytes.ofList c)
      let mat ← polyvecMatrixExpand H (mldsaPar i) rho
      let w1 ← verifyVectors mat z cp t1 h
      let buf ← polyvecPackW1 (mldsaPar i) (fun _ => 0) w1
      let c2 := hashTwo H (mldsaPar i).cpSz mu (buf.take ((mldsaPar i).k * (mldsaPar i).w1pSz))
      pure (if (List.range (mldsaPar i).cpSz).all fun i => c.getD i 0 = c2.getD i 0 then 1 else 0) :
        Prog ℕ) v ↔
    ∃ A cf, ExpandA H (mldsaPar i).k (mldsaPar i).ell (rho.take 32) A ∧
      SampleInBall H (mldsaPar i).tau c cf ∧
        v = if c = verifyHash H (mldsaPar i) (coeffs t1) mu A cf (coeffs z) (coeffs h)
          then 1 else 0 := by
  have hseed := Bytes.take_ofList_of_length hc
  rw [returns_bind]
  constructor
  · rintro ⟨cp, hcp, hret⟩
    obtain ⟨mat, hmat, hret⟩ := returns_bind.1 hret
    obtain ⟨A, hA, rfl⟩ := (returns_polyvecMatrixExpand_iff i).1 hmat
    have hb := challenge_bounded hcp
    obtain ⟨cf, hcf, rfl⟩ := (returns_challenge i).1 hcp
    rw [hseed] at hcf
    exact ⟨A, cf, hA, hcf, (returns_verify_compare i hc hz hb ht hh).1 hret⟩
  · rintro ⟨A, cf, hA, hcf, hv⟩
    have hcp : (polyChallenge H (mldsaPar i) (Bytes.ofList c)).Returns (Vector.tab 256 cf) :=
      (returns_challenge i).2 ⟨cf, by rwa [hseed], rfl⟩
    refine ⟨_, hcp, returns_bind.2 ⟨_, (returns_polyvecMatrixExpand_iff i).2 ⟨A, hA, rfl⟩, ?_⟩⟩
    exact (returns_verify_compare i hc hz (challenge_bounded hcp) ht hh).2 hv

/-- What verification returns, by what the decoder and the norm test say. -/
theorem returns_verifyInternal (i : Fin 3) {pk : Bytes} {m mu : List UInt8} {sig : Bytes} {v : ℕ}
    (hmu : (H.shake256 ((H.shake256 (pk.take (mldsaPar i).pkSz)).take 64 ++ m)).take 64 = mu) :
    (verifyInternal H (mldsaPar i) pk m sig (mldsaPar i).sigSz).Returns v ↔
      match (unpackSig (mldsaPar i) sig).val with
      | none => v = 0
      | some (c, z, h) =>
        (∃ r < (mldsaPar i).ell, ∃ j < 256,
          ((mldsaPar i).gamma1 - (mldsaPar i).beta : ℤ) ≤ |coeffs z r j|) ∧ v = 0 ∨
        (∀ r < (mldsaPar i).ell, ∀ j < 256,
          |coeffs z r j| < (mldsaPar i).gamma1 - (mldsaPar i).beta) ∧
        ∃ A cf, ExpandA H (mldsaPar i).k (mldsaPar i).ell (pk.take 32) A ∧
          SampleInBall H (mldsaPar i).tau c cf ∧
            v = if c = verifyHash H (mldsaPar i) (pkT1 pk) mu A cf (coeffs z) (coeffs h)
              then 1 else 0 := by
  have hbb : ((mldsaPar i).gamma1 - (mldsaPar i).beta : ℤ) ≤ 1047552 := by
    obtain ⟨-, -, hle, -⟩ := norm_bounds i
    omega
  unfold verifyInternal Linked.verifyInternal polyveclChknorm
  rw [if_neg (by simp), unpackPk_eq]
  rcases hsig : (unpackSig (mldsaPar i) sig).val with _ | ⟨c, z, h⟩
  · simp only [returns_bind, returns_lift, Chk.val_pure, exists_eq_left', hsig, returns_pure]
    exact eq_comm
  · obtain ⟨hc, hz, hh, hw, -⟩ := (unpackSig_eq_some i).1 hsig
    have hnorm := (polyvecChknorm_spec hbb (hz.bounded.mono (by norm_num))).2
    have hmu : hashTwo H 64 (shake256 H 64 (pk.take (mldsaPar i).pkSz)) m = mu :=
      (hashTwo_eq H _ _ _).trans hmu
    have hrho : (decodePk (mldsaPar i) pk).1.take 32 = pk.take 32 := ofList_take_take _ _
    have hpk : ∀ A cf, verifyHash H (mldsaPar i) (coeffs (decodePk (mldsaPar i) pk).2) mu A cf
        (coeffs z) (coeffs h) =
          verifyHash H (mldsaPar i) (pkT1 pk) mu A cf (coeffs z) (coeffs h) := fun A cf =>
      verifyHash_congr (fun r hr j hj => coeffs_tab hr hj) (fun _ _ _ _ => rfl) fun _ _ _ _ => rfl
    simp only [returns_bind, returns_lift, Chk.val_pure, exists_eq_left', hsig]
    split
    · rename_i hlong
      rw [returns_pure]
      constructor
      · rintro rfl
        exact Or.inl ⟨hnorm.1 hlong, rfl⟩
      · rintro (⟨-, rfl⟩ | ⟨hshort, -⟩)
        · rfl
        · obtain ⟨r, hr, j, hj, hle⟩ := hnorm.1 hlong
          exact absurd (hshort r hr j hj) (not_lt.2 hle)
    · rename_i hlong
      have hshort : ∀ r < (mldsaPar i).ell, ∀ j < 256,
          |coeffs z r j| < (mldsaPar i).gamma1 - (mldsaPar i).beta := fun r hr j hj =>
        not_le.1 fun hle => hlong (hnorm.2 ⟨r, hr, j, hj, hle⟩)
      rw [hmu]
      refine (returns_verify_tail i hc hz (inT1_decodePk (mldsaPar i) pk) hh).trans ?_
      simp only [hpk, hrho]
      constructor
      · exact fun hret => Or.inr ⟨hshort, hret⟩
      · rintro (⟨⟨r, hr, j, hj, hle⟩, -⟩ | ⟨-, hret⟩)
        · exact absurd (hshort r hr j hj) (not_lt.2 hle)
        · exact hret

theorem inZ_of_short {i : Fin 3} {z : ℕ → ℕ → ℤ} (hz : ∀ r < (mldsaPar i).ell, ∀ j < 256,
    |z r j| < (mldsaPar i).gamma1 - (mldsaPar i).beta) : InZ i z := by
  intro r hr j hj
  have h := abs_lt.1 (hz r hr j hj)
  constructor <;> omega

/-- The challenge seed stands in front. -/
theorem take_cpSz {i : Fin 3} {sig : Bytes} {c : List UInt8} {z h : ℕ → ℕ → ℤ}
    (hc : c.length = (mldsaPar i).cpSz)
    (henc : sig.take (mldsaPar i).sigSz = sigEncode (mldsaPar i) c z h) :
    sig.take (mldsaPar i).cpSz = c := by
  rw [sigSz_eq, Nat.add_assoc, Bytes.take_add] at henc
  unfold sigEncode at henc
  rw [List.append_assoc] at henc
  exact List.append_inj_left henc ((Bytes.length_take _ _).trans hc.symm)

/-- **Exactly what verification accepts.**  It returns 1 for the encodings of the signatures
that the standard's verification accepts and for nothing else, with the products taken in
the ring; and it returns 0 or 1 wherever its samplings end. -/
theorem verify_accepts (H : Hash) (i : Fin 3) (pk : Bytes) (m : List UInt8) (sig : Bytes)
    (sigSz : ℕ) :
    ((verifyInternal H (mldsaPar i) pk m sig sigSz).Returns 1 ↔ sigSz = (mldsaPar i).sigSz ∧
      ∃ (c : List UInt8) (z h : ℕ → ℕ → ℤ), c.length = (mldsaPar i).cpSz ∧
        IsHint (mldsaPar i).k h ∧ hintWeight h (mldsaPar i).k ≤ (mldsaPar i).omega ∧
        sig.take (mldsaPar i).sigSz = sigEncode (mldsaPar i) c z h ∧
        Verify H (mldsaPar i) (pk.take 32) (fun r => ofInts (pkT1 pk r))
          ((H.shake256 ((H.shake256 (pk.take (mldsaPar i).pkSz)).take 64 ++ m)).take 64) c z h) ∧
    ((∃ A, ExpandA H (mldsaPar i).k (mldsaPar i).ell (pk.take 32) A) →
      (∃ cf, SampleInBall H (mldsaPar i).tau (sig.take (mldsaPar i).cpSz) cf) →
        ∃ v, v ≤ 1 ∧ (verifyInternal H (mldsaPar i) pk m sig sigSz).Returns v) := by
  by_cases hsz : sigSz = (mldsaPar i).sigSz
  · subst hsz
    constructor
    · rw [returns_verifyInternal i rfl]
      constructor
      · intro hret
        split at hret
        · cases hret
        · rename_i c z h hsig
          obtain ⟨hc, hz, hh, hw, henc⟩ := (unpackSig_eq_some i).1 hsig
          rcases hret with ⟨-, hzero⟩ | ⟨hshort, A, cf, hA, hcf, hv⟩
          · cases hzero
          · refine ⟨rfl, c, coeffs z, coeffs h, hc, hh, hw, henc, hshort, A, cf, hA, hcf, ?_⟩
            by_contra hne
            exact absurd (hv.trans (if_neg hne)) one_ne_zero
      · rintro ⟨-, c, z, h, hc, hh, hw, henc, hshort, A, cf, hA, hcf, heq⟩
        have hzv := fun r hr j hj => coeffs_tab (n := (mldsaPar i).ell) (f := z) (r := r) (j := j) hr hj
        have hhv := fun r hr j hj => coeffs_tab (n := (mldsaPar i).k) (f := h) (r := r) (j := j) hr hj
        have hsig : (unpackSig (mldsaPar i) sig).val = some (c,
            Vector.tab _ fun r => Vector.tab 256 (z r), Vector.tab _ fun r => Vector.tab 256 (h r)) := by
          refine (unpackSig_eq_some i).2 ⟨hc, ?_, ?_, ?_, ?_⟩
          · exact fun r hr j hj => by rw [hzv r hr j hj]; exact inZ_of_short hshort r hr j hj
          · exact fun r hr j hj => by rw [hhv r hr j hj]; exact hh r hr j hj
          · rwa [hintWeight_congr hhv]
          · rw [henc, sigEncode_congr hzv hhv]
        rw [hsig]
        refine Or.inr ⟨?_, A, cf, hA, hcf, ?_⟩
        · intro r hr j hj
          rw [hzv r hr j hj]
          exact hshort r hr j hj
        · rw [verifyHash_congr (fun _ _ _ _ => rfl) hzv hhv]
          exact (if_pos heq).symm
    · rintro ⟨A, hA⟩ ⟨cf, hcf⟩
      rcases hsig : (unpackSig (mldsaPar i) sig).val with _ | ⟨c, z, h⟩
      · refine ⟨0, zero_le_one, (returns_verifyInternal i rfl).2 ?_⟩
        rw [hsig]
      · by_cases hshort : ∀ r < (mldsaPar i).ell, ∀ j < 256,
            |coeffs z r j| < (mldsaPar i).gamma1 - (mldsaPar i).beta
        · obtain ⟨hc, -, -, -, henc⟩ := (unpackSig_eq_some i).1 hsig
          rw [take_cpSz hc henc] at hcf
          let v := if c = verifyHash H (mldsaPar i) (pkT1 pk) ((H.shake256 ((H.shake256 (pk.take
            (mldsaPar i).pkSz)).take 64 ++ m)).take 64) A cf (coeffs z) (coeffs h) then 1 else 0
          refine ⟨v, ?_, (returns_verifyInternal i rfl).2 ?_⟩
          · exact ite_le_one le_rfl zero_le_one
          · rw [hsig]
            exact Or.inr ⟨hshort, A, cf, hA, hcf, rfl⟩
        · refine ⟨0, zero_le_one, (returns_verifyInternal i rfl).2 ?_⟩
          rw [hsig]
          refine Or.inl ⟨?_, rfl⟩
          push Not at hshort
          exact hshort
  · have hpure : verifyInternal H (mldsaPar i) pk m sig sigSz = pure 0 := if_pos hsz
    rw [hpure]
    refine ⟨⟨fun h => ?_, fun h => absurd h.1 hsz⟩, fun _ _ => ⟨0, zero_le_one, returns_pure.2 rfl⟩⟩
    cases returns_pure.1 h

end Mldsa
