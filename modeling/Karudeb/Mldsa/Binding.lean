import Karudeb.Mldsa.Interface

/-!
# ML-DSA: what an accepted signature binds

Two accepted signatures with one challenge seed are for the same key and the same message,
and with the same response they are the same bytes; or else the verifications themselves
hash two different strings to the same digest.

* `useHint_inj`, `w1Encode_inj` : the hint can be read off the corrected high bits, and these
  off their encoding.
* `exists_verifyHashes`, `VerifyHashes.unique` : the one string whose hash is compared.
* `accepted_binds` : the statement above, with the colliding strings named.
-/

namespace Mldsa

open Word Bits Negacyclic Fips204 Prog

variable {H : Hash} {i : Fin 3}

/-! ## Reading a hint off what it corrects -/

/-- **A hint changes the high bits.** -/
theorem useHint_inj {gamma2 h h' r : ℤ} (hg : gamma2 = 95232 ∨ gamma2 = 261888)
    (hh : h = 0 ∨ h = 1) (hh' : h' = 0 ∨ h' = 1) (heq : useHint gamma2 h r = useHint gamma2 h' r) :
    h = h' := by
  have hne : useHint gamma2 0 r ≠ useHint gamma2 1 r := by
    obtain ⟨hlo, hhi, -, -⟩ := decompose_spec (a := r) hg
    rcases hd : decompose gamma2 r with ⟨r1, r0⟩
    rw [hd] at hlo hhi
    rw [useHint_zero, hd]
    -- there are 16 or 44 high parts, so that the next one and the one before are others
    rcases lt_or_ge 0 r0 with h0 | h0
    · rw [useHint_one_of_pos hd h0]
      rcases hg with rfl | rfl <;> dsimp only at * <;> omega
    · rw [useHint_one_of_nonpos hd h0]
      rcases hg with rfl | rfl <;> dsimp only at * <;> omega
  rcases hh with rfl | rfl <;> rcases hh' with rfl | rfl
  · rfl
  · exact absurd heq hne
  · exact absurd heq.symm hne
  · rfl

theorem simpleBitPack_inj {b : ℕ} {w w' : ℕ → ℕ} (h : simpleBitPack b w = simpleBitPack b w') {j : ℕ}
    (hj : j < 256) (hw : w j ≤ b) (hw' : w' j ≤ b) : w j = w' j := by
  have hv := Bytes.take_ofList_of_length (length_simpleBitPack b w)
  have hlt := lt_two_pow_bitlen b
  rw [← simpleBitUnpack_simpleBitPack hv hj (hw.trans_lt hlt),
    simpleBitUnpack_simpleBitPack (hv.trans h) hj (hw'.trans_lt hlt)]

/-- **The encoding of high bits is injective.** -/
theorem w1Encode_inj {w w' : ℕ → ℕ → ℤ}
    (hw : ∀ r j, 0 ≤ w r j ∧ w r j < 8380416 / (2 * (mldsaPar i).gamma2))
    (hw' : ∀ r j, 0 ≤ w' r j ∧ w' r j < 8380416 / (2 * (mldsaPar i).gamma2))
    (h : w1Encode (mldsaPar i) w = w1Encode (mldsaPar i) w') {r j : ℕ} (hr : r < (mldsaPar i).k)
    (hj : j < 256) : w r j = w' r j := by
  have hle : ∀ x : ℤ, 0 ≤ x ∧ x < 8380416 / (2 * (mldsaPar i).gamma2) →
      x.toNat ≤ (8380417 - 1) / (2 * (mldsaPar i).gamma2) - 1 := by
    intro x hx
    rcases gamma2_cases i with hg | hg <;> rw [hg] at hx ⊢ <;> omega
  have hrow : ∀ w, (Bytes.ofList (w1Encode (mldsaPar i) w)).take
      ((mldsaPar i).k * (mldsaPar i).w1pSz) = w1Encode (mldsaPar i) w := fun w =>
    Bytes.take_ofList_of_length (length_w1Encode i w)
  have hblock := fun w => (Bytes.take_flatMap (Bytes.ofList (w1Encode (mldsaPar i) w))
    (fun r (_ : r < (mldsaPar i).k) => (length_simpleBitPack _ fun j => (w r j).toNat).trans
      (w1pSz_eq i).symm)).1 (hrow w) r hr
  have hpack := (hblock w).symm.trans ((congrArg (fun l => ((Bytes.ofList l).drop
    (r * (mldsaPar i).w1pSz)).take (mldsaPar i).w1pSz) h).trans (hblock w'))
  have hnat := simpleBitPack_inj hpack hj (hle _ (hw r j)) (hle _ (hw' r j))
  have h0 := (hw r j).1
  have h0' := (hw' r j).1
  omega

/-! ## The string that is hashed -/

/-- The high bits that verification arrives at. -/
noncomputable def verifyHigh (par : MldsaParam) (t1 : ℕ → ℕ → ℤ) (A : ℕ → ℕ → Rq) (cf : ℕ → ℤ)
    (z h : ℕ → ℕ → ℤ) (r j : ℕ) : ℤ :=
  useHint par.gamma2 (h r j)
    (std (wApprox par.ell A (fun s => ofInts (z s)) (ofInts cf) (ofInts (t1 r)) r) j)

theorem verifyHigh_range (t1 : ℕ → ℕ → ℤ) (A : ℕ → ℕ → Rq) (cf : ℕ → ℤ) (z h : ℕ → ℕ → ℤ) (r j : ℕ) :
    0 ≤ verifyHigh (mldsaPar i) t1 A cf z h r j ∧
      verifyHigh (mldsaPar i) t1 A cf z h r j < 8380416 / (2 * (mldsaPar i).gamma2) :=
  useHint_range (gamma2_cases_int i) _ _

/-- The approximation of `w` is that of one matrix and one challenge. -/
theorem wApprox_unique {rho c : List UInt8} {A A' : ℕ → ℕ → Rq} {cf cf' : ℕ → ℤ}
    (hA : ExpandA H (mldsaPar i).k (mldsaPar i).ell rho A)
    (hA' : ExpandA H (mldsaPar i).k (mldsaPar i).ell rho A') (hc : c.length = (mldsaPar i).cpSz)
    (hcf : SampleInBall H (mldsaPar i).tau c cf) (hcf' : SampleInBall H (mldsaPar i).tau c cf')
    (z : ℕ → Rq) (t1 : Rq) {r : ℕ} (hr : r < (mldsaPar i).k) :
    wApprox (mldsaPar i).ell A z (ofInts cf) t1 r = wApprox (mldsaPar i).ell A' z (ofInts cf') t1 r := by
  have hmat : matVec (mldsaPar i).ell A z r = matVec (mldsaPar i).ell A' z r :=
    Finset.sum_congr rfl fun s hs => by rw [expandA_unique hA hA' hr (Finset.mem_range.1 hs)]
  unfold wApprox
  rw [hmat, challenge_unique i hc hcf hcf']

/-- The message with the hash of the public key before it. -/
def verifyMsg (H : Hash) (i : Fin 3) (pk : Bytes) (m : List UInt8) : List UInt8 :=
  (H.shake256 (pk.take (mldsaPar i).pkSz)).take 64 ++ m

/-- `x` is the string whose hash verification compares with the challenge seed. -/
def VerifyHashes (H : Hash) (i : Fin 3) (pk : Bytes) (m : List UInt8) (sig : Bytes)
    (x : List UInt8) : Prop :=
  ∃ c z h A cf, (unpackSig (mldsaPar i) sig).val = some (c, z, h) ∧
    ExpandA H (mldsaPar i).k (mldsaPar i).ell (pk.take 32) A ∧
    SampleInBall H (mldsaPar i).tau c cf ∧
    x = (H.shake256 (verifyMsg H i pk m)).take 64 ++
      w1Encode (mldsaPar i) (verifyHigh (mldsaPar i) (pkT1 pk) A cf (coeffs z) (coeffs h))

/-- Verification hashes one string only. -/
theorem VerifyHashes.unique {pk : Bytes} {m : List UInt8} {sig : Bytes} {x x' : List UInt8}
    (h : VerifyHashes H i pk m sig x) (h' : VerifyHashes H i pk m sig x') : x = x' := by
  obtain ⟨c, z, hint, A, cf, hsig, hA, hcf, rfl⟩ := h
  obtain ⟨c', z', hint', A', cf', hsig', hA', hcf', rfl⟩ := h'
  obtain ⟨rfl, rfl, rfl⟩ : c = c' ∧ z = z' ∧ hint = hint' := by
    have hsome := hsig.symm.trans hsig'
    simpa using hsome
  have hc := ((unpackSig_eq_some i).1 hsig).1
  refine congrArg _ (w1Encode_congr fun r hr j _ => ?_)
  unfold verifyHigh
  rw [wApprox_unique hA hA' hc hcf hcf' _ _ hr]

/-- **A signature is accepted for its hash only.** -/
theorem exists_verifyHashes {pk : Bytes} {m : List UInt8} {sig : Bytes} {sz : ℕ}
    (h : (verifyInternal H (mldsaPar i) pk m sig sz).Returns 1) :
    ∃ x, VerifyHashes H i pk m sig x ∧
      sig.take (mldsaPar i).cpSz = (H.shake256 x).take (mldsaPar i).cpSz := by
  by_cases hsz : sz = (mldsaPar i).sigSz
  · subst hsz
    rw [returns_verifyInternal i rfl] at h
    rcases hsig : (unpackSig (mldsaPar i) sig).val with _ | ⟨c, z, hint⟩
    · rw [hsig] at h
      cases h
    · rw [hsig] at h
      rcases h with ⟨-, hzero⟩ | ⟨-, A, cf, hA, hcf, hv⟩
      · cases hzero
      · obtain ⟨hc, -, -, -, henc⟩ := (unpackSig_eq_some i).1 hsig
        refine ⟨_, ⟨c, z, hint, A, cf, hsig, hA, hcf, rfl⟩, ?_⟩
        rw [take_cpSz hc henc]
        by_contra hne
        exact absurd (hv.trans (if_neg hne)) one_ne_zero
  · have hpure : verifyInternal H (mldsaPar i) pk m sig sz = pure 0 := if_pos hsz
    rw [hpure, returns_pure] at h
    cases h

/-! ## Binding -/

/-- Two different strings with the same digest of `n` bytes. -/
def Collide (f : List UInt8 → Bytes) (n : ℕ) (x x' : List UInt8) : Prop :=
  x ≠ x' ∧ (f x).take n = (f x').take n

theorem eq_or_collide {f : List UInt8 → Bytes} {n : ℕ} {x x' : List UInt8}
    (h : (f x).take n = (f x').take n) : x = x' ∨ Collide f n x x' := by
  by_cases hx : x = x'
  · exact .inl hx
  · exact .inr ⟨hx, h⟩

/-- Signatures with the same bytes of the response have the same response. -/
theorem unpackSig_z_congr {sig sig' : Bytes} {c c' : List UInt8} {z z' : PolyVec (mldsaPar i).ell}
    {h h' : PolyVec (mldsaPar i).k} (hsig : (unpackSig (mldsaPar i) sig).val = some (c, z, h))
    (hsig' : (unpackSig (mldsaPar i) sig').val = some (c', z', h'))
    (heq : sig.take ((mldsaPar i).cpSz + (mldsaPar i).ell * (mldsaPar i).pzpSz) =
      sig'.take ((mldsaPar i).cpSz + (mldsaPar i).ell * (mldsaPar i).pzpSz)) : c = c' ∧ z = z' := by
  rw [unpackSig_eq, Chk.val_pure, Option.map_eq_some_iff] at hsig hsig'
  obtain ⟨_, -, hsome⟩ := hsig
  obtain ⟨_, -, hsome'⟩ := hsig'
  simp only [Prod.mk.injEq] at hsome hsome'
  obtain ⟨rfl, rfl, -⟩ := hsome
  obtain ⟨rfl, rfl, -⟩ := hsome'
  constructor
  · rw [Bytes.take_add, Bytes.take_add] at heq
    exact List.append_inj_left heq (by rw [Bytes.length_take, Bytes.length_take])
  · refine Vector.tab_congr fun r hr => Vector.tab_congr fun j hj => bitUnpack_congr ?_ hj
    intro p hp
    rw [← pzpSz_eq] at hp
    have hblock : (r + 1) * (mldsaPar i).pzpSz ≤ (mldsaPar i).ell * (mldsaPar i).pzpSz :=
      Nat.mul_le_mul_right _ hr
    rw [Nat.succ_mul] at hblock
    change sig ((mldsaPar i).cpSz + r * (mldsaPar i).pzpSz + p) =
      sig' ((mldsaPar i).cpSz + r * (mldsaPar i).pzpSz + p)
    exact Bytes.take_inj heq (by omega)

/-- **What an accepted signature binds.**  Where two accepted signatures have the same challenge
seed, they are for one public key and one message, and the same response leaves one hint only;
or the two verifications hash two different strings to one digest. -/
theorem accepted_binds (H : Hash) (i : Fin 3) {pk pk' : Bytes} {m m' : List UInt8}
    {sig sig' : Bytes} {sz sz' : ℕ} (h : (verifyInternal H (mldsaPar i) pk m sig sz).Returns 1)
    (h' : (verifyInternal H (mldsaPar i) pk' m' sig' sz').Returns 1)
    (hc : sig.take (mldsaPar i).cpSz = sig'.take (mldsaPar i).cpSz) :
    (pk.take (mldsaPar i).pkSz = pk'.take (mldsaPar i).pkSz ∧ m = m' ∧
      (sig.take ((mldsaPar i).cpSz + (mldsaPar i).ell * (mldsaPar i).pzpSz) =
          sig'.take ((mldsaPar i).cpSz + (mldsaPar i).ell * (mldsaPar i).pzpSz) →
        sig.take (mldsaPar i).sigSz = sig'.take (mldsaPar i).sigSz)) ∨
    Collide H.shake256 64 (pk.take (mldsaPar i).pkSz) (pk'.take (mldsaPar i).pkSz) ∨
    Collide H.shake256 64 (verifyMsg H i pk m) (verifyMsg H i pk' m') ∨
    ∃ x x', VerifyHashes H i pk m sig x ∧ VerifyHashes H i pk' m' sig' x' ∧
      Collide H.shake256 (mldsaPar i).cpSz x x' := by
  obtain ⟨x, hx, hdigest⟩ := exists_verifyHashes h
  obtain ⟨x', hx', hdigest'⟩ := exists_verifyHashes h'
  rcases eq_or_collide (hdigest.symm.trans (hc.trans hdigest')) with rfl | hcoll
  · obtain ⟨c, z, hint, A, cf, hsig, hA, hcf, heq⟩ := hx
    obtain ⟨c', z', hint', A', cf', hsig', hA', hcf', heq'⟩ := hx'
    obtain ⟨hmu, hw⟩ := List.append_inj (heq.symm.trans heq')
      (by rw [Bytes.length_take, Bytes.length_take])
    rcases eq_or_collide hmu with hmsg | hcoll
    · unfold verifyMsg at hmsg
      obtain ⟨htr, rfl⟩ := List.append_inj hmsg (by rw [Bytes.length_take, Bytes.length_take])
      rcases eq_or_collide htr with hpk | hcoll
      · refine .inl ⟨hpk, rfl, fun hz => ?_⟩
        obtain ⟨rfl, rfl⟩ := unpackSig_z_congr hsig hsig' hz
        obtain ⟨hlen, -, hh, -, henc⟩ := (unpackSig_eq_some i).1 hsig
        obtain ⟨-, -, hh', -, henc'⟩ := (unpackSig_eq_some i).1 hsig'
        rw [← take_rho_congr hpk] at hA'
        rw [henc, henc']
        refine sigEncode_congr (fun _ _ _ _ => rfl) fun r hr j hj => ?_
        have hhigh := w1Encode_inj (verifyHigh_range _ _ _ _ _) (verifyHigh_range _ _ _ _ _) hw hr hj
        have ht1 : ofInts (pkT1 pk' r) = ofInts (pkT1 pk r) :=
          ofInts_congr fun n hn => (pkT1_congr hpk hr hn).symm
        unfold verifyHigh at hhigh
        rw [ht1, wApprox_unique hA hA' hlen hcf hcf' _ _ hr] at hhigh
        exact useHint_inj (gamma2_cases_int i) (hh r hr j hj) (hh' r hr j hj) hhigh
      · exact .inr (.inl hcoll)
    · exact .inr (.inr (.inl hcoll))
  · exact .inr (.inr (.inr ⟨x, x', hx, hx', hcoll⟩))

/-- Where every hash is constant, the signature of zeros is accepted for every message. -/
theorem exists_accepted_constHash (pk : Bytes) : ∃ sig : Bytes, ∀ m,
    (verifyInternal constHash (mldsaPar 0) pk m sig 2420).Returns 1 := by
  have hz : InZ 0 (coeffs (Vector.tab (mldsaPar 0).ell fun _ => Vector.tab 256 fun _ => 0)) :=
    inZ_of_short fun r hr j hj => by rw [coeffs_zero hr hj]; decide
  have hh : IsHint (mldsaPar 0).k
      (coeffs (Vector.tab (mldsaPar 0).k fun _ => Vector.tab 256 fun _ => 0)) :=
    fun r hr j hj => .inl (coeffs_zero hr hj)
  have hw := (hintWeight_zero (mldsaPar 0).k).trans_le (Nat.zero_le (mldsaPar 0).omega)
  have hlen := length_sigEncode 0
    (coeffs (Vector.tab (mldsaPar 0).ell fun _ => Vector.tab 256 fun _ => 0))
    (Bytes.length_take (fun _ => 0x22) (mldsaPar 0).cpSz) hw
  have hunpack := (unpackSig_eq_some 0).2
    ⟨Bytes.length_take _ _, hz, hh, hw, Bytes.take_ofList_of_length hlen⟩
  obtain ⟨cf, hcf⟩ := exists_ball_constHash
  generalize Bytes.ofList _ = sig at hunpack
  refine ⟨sig, fun m => (returns_verifyInternal 0 rfl).2 ?_⟩
  rw [hunpack]
  refine .inr ⟨fun r hr j hj => ?_, _, cf, expandA_constHash _ _ _, hcf _, (if_pos rfl).symm⟩
  rw [coeffs_zero hr hj]
  decide

/-- A signature that is accepted for two messages comes with a collision. -/
theorem accepted_binds_const : ∃ sig : Bytes,
    (verifyInternal constHash (mldsaPar 0) (fun _ => 0) [] sig 2420).Returns 1 ∧
    (verifyInternal constHash (mldsaPar 0) (fun _ => 0) [1] sig 2420).Returns 1 ∧
      (Collide constHash.shake256 64 (verifyMsg constHash 0 (fun _ => 0) [])
          (verifyMsg constHash 0 (fun _ => 0) [1]) ∨
        ∃ x x', VerifyHashes constHash 0 (fun _ => 0) [] sig x ∧
          VerifyHashes constHash 0 (fun _ => 0) [1] sig x' ∧ Collide constHash.shake256 32 x x') := by
  obtain ⟨sig, hsig⟩ := exists_accepted_constHash fun _ => 0
  refine ⟨sig, hsig [], hsig [1], ?_⟩
  rcases accepted_binds constHash 0 (hsig []) (hsig [1]) rfl with ⟨-, hm, -⟩ | ⟨hne, -⟩ | hcoll
  · cases hm
  · exact absurd rfl hne
  · exact hcoll

end Mldsa
