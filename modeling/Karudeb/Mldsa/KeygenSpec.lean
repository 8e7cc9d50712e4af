import Karudeb.Mldsa.Internal
import Karudeb.Mldsa.KeySpec
import Karudeb.Mldsa.PolyvecSpec
import Karudeb.Mldsa.SampleSpec

/-!
# ML-DSA: key generation is the standard's

* `returns_polyvecMatrixExpand_iff` : the matrix in memory is the transform of a
  matrix over the ring.
* `keygenVectors_eq` : `t1` and `t0` are the rounded `A s1 + s2`.
* `returns_keygen_vectors`, `returns_keygenInternal` : key generation returns what `KeyGen` comes to.
* `keygen_decode`, `keygen_wellFormed` : what is decoded from the keys, and that it fits together.
-/

namespace Mldsa

open Word Negacyclic Fips204 Prog

variable {H : Hash}

/-! ## The matrix -/

/-- The matrix in memory. -/
noncomputable def matOf (k ell : ℕ) (A : ℕ → ℕ → Rq) : Vector (PolyVec ell) k :=
  Vector.tab k fun r => Vector.tab ell fun s => Vector.tab 256 fun n => ((ntt (A r s) n).val : ℤ)

theorem rd_matOf {k ell : ℕ} (A : ℕ → ℕ → Rq) {r s n : ℕ} (hr : r < k) (hs : s < ell)
    (hn : n < 256) : (((matOf k ell A).rd r).rd s).rd n = (ntt (A r s) n).val := by
  unfold matOf
  rw [Vector.rd_tab _ hr, Vector.rd_tab _ hs, Vector.rd_tab _ hn]

theorem matOf_bounded (k ell : ℕ) (A : ℕ → ℕ → Rq) {r : ℕ} (hr : r < k) :
    VecBounded 8380416 ((matOf k ell A).rd r) := by
  intro s hs n hn
  rw [rd_matOf A hr hs hn]
  have hlt := ZMod.val_lt (ntt (A r s) n)
  constructor <;> omega

theorem matOf_rep (k ell : ℕ) (A : ℕ → ℕ → Rq) {r : ℕ} (hr : r < k) :
    VecRep 1 ((matOf k ell A).rd r) (A r) := by
  intro s hs n hn
  rw [rd_matOf A hr hs hn, mul_one, Int.cast_natCast]
  exact ZMod.natCast_zmod_val _

theorem ell_range (i : Fin 3) : 1 ≤ (mldsaPar i).ell ∧ (mldsaPar i).ell ≤ 7 := by
  fin_cases i <;> decide

/-- **The product of the matrix in memory** with a transformed vector. -/
theorem matOf_mul_spec (i : Fin 3) (A : ℕ → ℕ → Rq) {v : PolyVec (mldsaPar i).ell} {x : ℕ → Rq} {B : ℤ}
    (hv : VecBounded B v) (hB : 8380416 * B < 2 ^ 31 * 8380417) (hx : VecRep 1 v x) :
    Chk.Holds (polyvecMatrixPointwiseMontgomery (matOf (mldsaPar i).k (mldsaPar i).ell A) v) fun t =>
      VecBounded (7 * 8380416) t ∧ VecRep (2 ^ 32) t (matVec (mldsaPar i).ell A x) := by
  obtain ⟨hell, hell'⟩ := ell_range i
  have hmat := fun r hr => matOf_bounded (mldsaPar i).k (mldsaPar i).ell A (r := r) hr
  have hrep := fun r hr => matOf_rep (mldsaPar i).k (mldsaPar i).ell A (r := r) hr
  have h := polyvecMatrixPointwiseMontgomery_spec hell hell' hmat hv hB hrep hx
  rw [one_mul, mul_one] at h
  exact h

/-- An entry of the matrix in memory holds the samples, as they are reduced. -/
theorem val_ntt_eq {w : Rq} {L : List ℤ} {seed : List UInt8} (hL : RejNttPoly H seed L)
    (hw : ∀ n < 256, ntt w n = ((L.getD n 0 : ℤ) : Zq)) {n : ℕ} (hn : n < 256) :
    ((ntt w n).val : ℤ) = L.getD n 0 := by
  have hlen : n < L.length := by rwa [hL.length_eq]
  have hrange : 0 ≤ L.getD n 0 ∧ L.getD n 0 < 8380417 := by
    rw [List.getD_eq_getElem _ _ hlen]
    obtain ⟨p, hp⟩ := hL.mem (List.getElem_mem hlen)
    exact uniformCand_range hp
  rw [hw n hn, ZMod.val_intCast]
  exact Int.emod_eq_of_lt hrange.1 hrange.2

/-- **The matrix in memory is the transform of `ExpandA(rho)`.** -/
theorem returns_polyvecMatrixExpand_iff (i : Fin 3) {rho : Bytes}
    {mat : Vector (PolyVec (mldsaPar i).ell) (mldsaPar i).k} :
    (polyvecMatrixExpand H (mldsaPar i) rho).Returns mat ↔
      ∃ A, ExpandA H (mldsaPar i).k (mldsaPar i).ell (rho.take 32) A ∧ mat = matOf _ _ A := by
  have hell : (mldsaPar i).ell ≤ 256 := by fin_cases i <;> decide
  rw [returns_polyvecMatrixExpand hell]
  constructor
  · intro h
    choose! L hL hmat using h
    have hA : ∀ r s, ∃ w : Rq, ∀ n < 256, ntt w n = (((L r s).getD n 0 : ℤ) : Zq) :=
      fun r s => ntt_surjective _
    choose A hA using hA
    refine ⟨A, fun r hr s hs => ⟨L r s, hL r hr s hs, hA r s⟩, ?_⟩
    refine Vector.ext_rd fun r hr => Vector.ext_rd fun s hs => Vector.ext_rd fun n hn => ?_
    rw [rd_matOf A hr hs hn, val_ntt_eq (hL r hr s hs) (hA r s) hn, hmat r hr s hs,
      rd_ofSamples _ hn]
  · rintro ⟨A, hA, rfl⟩ r hr s hs
    obtain ⟨L, hL, hw⟩ := hA r hr s hs
    refine ⟨L, hL, Vector.ext_rd fun n hn => ?_⟩
    rw [rd_matOf A hr hs hn, val_ntt_eq hL hw hn, rd_ofSamples _ hn]

/-- There is only one matrix. -/
theorem expandA_unique {k ell : ℕ} {rho : List UInt8} {A A' : ℕ → ℕ → Rq}
    (h : ExpandA H k ell rho A) (h' : ExpandA H k ell rho A') {r s : ℕ} (hr : r < k)
    (hs : s < ell) : A r s = A' r s := by
  obtain ⟨L, hL, hA⟩ := h r hr s hs
  obtain ⟨L', hL', hA'⟩ := h' r hr s hs
  refine ntt_injective fun n hn => ?_
  rw [hA n hn, hA' n hn, hL.unique hL']

/-! ## The secret vectors -/

theorem returns_polyvecUniformEta (i : Fin 3) {n nonce : ℕ} {seed : Bytes} {v : PolyVec n} :
    (polyvecUniformEta H (mldsaPar i) n seed nonce).Returns v ↔ ∀ r < n, ∃ L,
      RejBoundedPoly H (mldsaPar i).eta (seed.take 64 ++ integerToBytes2 (nonce + r)) L ∧
        ∀ j < 256, coeffs v r j = L.getD j 0 := by
  unfold polyvecUniformEta
  rw [returns_tab]
  refine forall₂_congr fun r hr => ?_
  rw [returns_polyUniformEta]
  refine exists_congr fun L => and_congr_right fun hL => ?_
  constructor
  · intro h j hj
    rw [coeffs, h, rd_ofSamples _ hj]
  · intro h
    refine Vector.ext_rd fun j hj => ?_
    rw [rd_ofSamples _ hj]
    exact h j hj

theorem rejBoundedPoly_range {eta : ℕ} {seed : List UInt8} {L : List ℤ}
    (hL : RejBoundedPoly H eta seed L) {j : ℕ} (hj : j < 256) :
    -eta ≤ L.getD j 0 ∧ L.getD j 0 ≤ eta := by
  have hlen : j < L.length := by rwa [hL.length_eq]
  rw [List.getD_eq_getElem _ _ hlen]
  obtain ⟨p, hp⟩ := hL.mem (List.getElem_mem hlen)
  exact etaCand_range hp

/-- What `ExpandS` comes to is in range. -/
theorem inEta_of_samples {i : Fin 3} {n : ℕ} {v : PolyVec n} {seed : ℕ → List UInt8}
    (h : ∀ r < n, ∃ L, RejBoundedPoly H (mldsaPar i).eta (seed r) L ∧
      ∀ j < 256, coeffs v r j = L.getD j 0) : InEta i v := by
  intro r hr j hj
  obtain ⟨L, hL, hv⟩ := h r hr
  rw [hv j hj]
  exact rejBoundedPoly_range hL hj

/-! ## The public vector -/

theorem InEta.bounded {i : Fin 3} {n : ℕ} {v : PolyVec n} (h : InEta i v) : VecBounded 11 v := by
  have heta : (mldsaPar i).eta ≤ 11 := by fin_cases i <;> decide
  intro r hr j hj
  obtain ⟨h1, h2⟩ := h r hr j hj
  unfold coeffs at h1 h2
  constructor <;> omega

theorem polyvecPower2round_eq {n : ℕ} {v : PolyVec n} (hv : VecStd v) :
    polyvecPower2round v = pure
      (Vector.tab n fun r => Vector.tab 256 fun j => (power2Round (coeffs v r j)).1,
        Vector.tab n fun r => Vector.tab 256 fun j => (power2Round (coeffs v r j)).2) := by
  unfold polyvecPower2round polyvecPairs
  rw [Chk.tab_congr fun r hr => polyPower2round_eq (hv r hr), Chk.tab_pure, pure_bind]
  refine congrArg pure (Prod.ext ?_ ?_)
  · exact Vector.tab_congr fun r hr => by rw [Vector.rd_tab _ hr]; rfl
  · exact Vector.tab_congr fun r hr => by rw [Vector.rd_tab _ hr]; rfl

/-- The public vector. -/
noncomputable def publicT {k ell : ℕ} (A : ℕ → ℕ → Rq) (s1 : PolyVec ell) (s2 : PolyVec k) (r : ℕ) :
    Rq :=
  matVec ell A (toRqs s1) r + toRqs s2 r

theorem ofInts_congr {f g : ℕ → ℤ} (h : ∀ j < 256, f j = g j) : ofInts f = ofInts g :=
  ofCoeffs_congr fun j hj => by rw [h j hj]

theorem matVec_congr {ell : ℕ} {A : ℕ → ℕ → Rq} {x y : ℕ → Rq} (h : ∀ s < ell, x s = y s) (r : ℕ) :
    matVec ell A x r = matVec ell A y r :=
  Finset.sum_congr rfl fun s hs => by rw [h s (Finset.mem_range.1 hs)]

theorem publicT_eq {k ell : ℕ} (A : ℕ → ℕ → Rq) {s1 : PolyVec ell} {s2 : PolyVec k}
    {f1 f2 : ℕ → ℕ → ℤ} (h1 : ∀ r < ell, ∀ j < 256, coeffs s1 r j = f1 r j)
    (h2 : ∀ r < k, ∀ j < 256, coeffs s2 r j = f2 r j) {r : ℕ} (hr : r < k) :
    publicT A s1 s2 r = matVec ell A (fun s => ofInts (f1 s)) r + ofInts (f2 r) := by
  have hs1 : matVec ell A (toRqs s1) r = matVec ell A (fun s => ofInts (f1 s)) r :=
    matVec_congr (fun s hs => ofInts_congr (h1 s hs)) r
  have hs2 : toRqs s2 r = ofInts (f2 r) := ofInts_congr (h2 r hr)
  rw [publicT, hs1, hs2]

/-- The high parts of a rounded vector. -/
noncomputable def t1Of (k : ℕ) (t : ℕ → Rq) : PolyVec k :=
  Vector.tab k fun r => Vector.tab 256 fun j => (power2Round (std (t r) j)).1

/-- The low parts of a rounded vector. -/
noncomputable def t0Of (k : ℕ) (t : ℕ → Rq) : PolyVec k :=
  Vector.tab k fun r => Vector.tab 256 fun j => (power2Round (std (t r) j)).2

/-- **The rounded public vector**, without any overflow. -/
theorem keygenVectors_eq (i : Fin 3) (A : ℕ → ℕ → Rq) {s1 : PolyVec (mldsaPar i).ell}
    {s2 : PolyVec (mldsaPar i).k} (h1 : VecBounded 11 s1) (h2 : VecBounded 11 s2) :
    keygenVectors (matOf _ _ A) s1 s2 =
      pure (t1Of _ (publicT A s1 s2), t0Of _ (publicT A s1 s2)) := by
  refine Chk.Holds.eq_pure ?_
  unfold keygenVectors Transforms.keygenVectors
  refine (polyvecNtt_spec h1 (by norm_num)).bind fun s1hat hs => ?_
  refine (matOf_mul_spec i A hs.1 (by norm_num) hs.2).bind fun p hp => ?_
  refine (polyvecReduce_rep (hp.1.mono (by norm_num)) hp.2).bind fun q hq => ?_
  refine (polyvecInvnttTomont_spec (hq.1.mono (by norm_num)) hq.2).bind fun t ht => ?_
  refine (polyvecAdd_spec ht.1 h2 (by norm_num)).bind fun u hu => ?_
  refine (polyvecCaddq_spec (hu.1.mono (by norm_num))).bind fun v hv => ?_
  have hring : ∀ r < (mldsaPar i).k, toRq (v.rd r) = publicT A s1 s2 r := by
    intro r hr
    have hadd : toRq (v.rd r) = toRq (t.rd r) + toRq (s2.rd r) :=
      toRq_add fun j hj => by rw [hv.2 r hr j hj, hu.2 r hr j hj, Int.cast_add]
    rw [hadd]
    exact congrArg (· + toRq (s2.rd r)) (ht.2 r hr)
  have hcoeffs : ∀ r < (mldsaPar i).k, ∀ j < 256, coeffs v r j = std (publicT A s1 s2 r) j :=
    fun r hr j hj => by rw [← hring r hr, std_toRq (hv.1 r hr) hj, coeffs]
  rw [polyvecPower2round_eq hv.1]
  refine Chk.Holds.pure (Prod.ext ?_ ?_)
  · exact Vector.tab_congr fun r hr => Vector.tab_congr fun j hj => by rw [hcoeffs r hr j hj]
  · exact Vector.tab_congr fun r hr => Vector.tab_congr fun j hj => by rw [hcoeffs r hr j hj]

/-! ## The keys -/

/-- The high parts of the rounding fit into ten bits. -/
theorem power2Round_range {a : ℤ} (h0 : 0 ≤ a) (hq : a < 8380417) :
    0 ≤ (power2Round a).1 ∧ (power2Round a).1 < 2 ^ 10 := by
  obtain ⟨ha, hlo, hhi⟩ := power2Round_spec h0 hq
  constructor <;> omega

theorem inT1_t1Of (k : ℕ) (t : ℕ → Rq) : InT1 (t1Of k t) := by
  intro r hr j hj
  unfold t1Of
  rw [coeffs_tab hr hj]
  exact power2Round_range (std_range _ _).1 (std_range _ _).2

theorem inT0_t0Of (k : ℕ) (t : ℕ → Rq) : InT0 (t0Of k t) := by
  intro r hr j hj
  unfold t0Of
  rw [coeffs_tab hr hj]
  exact (power2Round_spec (std_range _ _).1 (std_range _ _).2).2

theorem skEncode_congr {par : MldsaParam} {rho key tr : List UInt8} {s1 s1' s2 s2' t0 t0' : ℕ → ℕ → ℤ}
    (h1 : ∀ r < par.ell, ∀ j < 256, s1 r j = s1' r j) (h2 : ∀ r < par.k, ∀ j < 256, s2 r j = s2' r j)
    (h0 : ∀ r < par.k, ∀ j < 256, t0 r j = t0' r j) :
    skEncode par rho key tr s1 s2 t0 = skEncode par rho key tr s1' s2' t0' := by
  have hblocks : ∀ {n a b : ℕ} {f g : ℕ → ℕ → ℤ}, (∀ r < n, ∀ j < 256, f r j = g r j) →
      (List.range n).flatMap (fun r => bitPack a b (f r)) =
        (List.range n).flatMap fun r => bitPack a b (g r) :=
    fun h => List.flatMap_congr fun r hr => bitPack_congr (h r (List.mem_range.1 hr))
  unfold skEncode
  rw [hblocks h1, hblocks h2, hblocks h0]

theorem pkEncode_congr {par : MldsaParam} {rho : List UInt8} {t1 t1' : ℕ → ℕ → ℤ}
    (h : ∀ r < par.k, ∀ j < 256, t1 r j = t1' r j) : pkEncode par rho t1 = pkEncode par rho t1' := by
  unfold pkEncode
  refine congrArg _ (List.flatMap_congr fun r hr => simpleBitPack_congr fun j hj => ?_)
  rw [h r (List.mem_range.1 hr) j hj]

/-- A section of a string in a buffer. -/
theorem take_drop_ofList (b : Bytes) {n o m : ℕ} (h : o + m ≤ n) :
    ((Bytes.ofList (b.take n)).drop o).take m = (b.drop o).take m :=
  Bytes.take_congr fun _ hj => Bytes.ofList_take (by omega)

/-- What is left of key generation once the samples are there. -/
theorem returns_keygen_tail (i : Fin 3) (A : ℕ → ℕ → Rq) {rho key : Bytes}
    {s1 : PolyVec (mldsaPar i).ell} {s2 : PolyVec (mldsaPar i).k} (h1 : InEta i s1)
    (h2 : InEta i s2) {pk sk : List UInt8} :
    Returns (do
      let (t1, t0) ← keygenVectors (matOf _ _ A) s1 s2
      let pk ← packPk (mldsaPar i) rho t1
      let tr := shake256 H 64 ((Bytes.ofList pk).take (mldsaPar i).pkSz)
      let sk ← packSk (mldsaPar i) ⟨rho, key, Bytes.ofList tr, s1, s2, t0⟩
      pure (pk, sk) : Prog _) (pk, sk) ↔
    pk = pkEncode (mldsaPar i) (rho.take 32) (coeffs (t1Of (mldsaPar i).k (publicT A s1 s2))) ∧
      sk = skEncode (mldsaPar i) (rho.take 32) (key.take 32) ((H.shake256 pk).take 64) (coeffs s1)
        (coeffs s2) (coeffs (t0Of (mldsaPar i).k (publicT A s1 s2))) := by
  have hsk := fun tr => @packSk_eq i ⟨rho, key, tr, s1, s2, t0Of _ (publicT A s1 s2)⟩ h1.coded
    h2.coded (inT0_t0Of _ _)
  have hlen := length_pkEncode i (Bytes.length_take rho 32)
    (coeffs (t1Of (mldsaPar i).k (publicT A s1 s2)))
  have htr : ∀ pk, (Bytes.ofList (shake256 H 64 pk)).take 64 = (H.shake256 pk).take 64 :=
    fun pk => ofList_take_take _ 64
  simp only [returns_bind, returns_lift, returns_pure]
  rw [keygenVectors_eq i A h1.bounded h2.bounded]
  simp only [Chk.val_pure, exists_eq_left', packPk_eq (inT1_t1Of _ _), hsk, Prod.mk.injEq, htr]
  rw [← hlen, Bytes.take_ofList]
  constructor
  · rintro ⟨rfl, rfl⟩
    exact ⟨rfl, rfl⟩
  · rintro ⟨rfl, rfl⟩
    exact ⟨rfl, rfl⟩

/-- The string that the seeds are sections of. -/
def keygenSeeds (H : Hash) (par : MldsaParam) (xi : List UInt8) : Bytes :=
  H.shake256 (xi ++ [UInt8.ofNat par.k] ++ [UInt8.ofNat par.ell])

/-- What key generation returns, in terms of the vectors in memory. -/
theorem returns_keygen_vectors (i : Fin 3) {seed : Bytes} {pk sk : List UInt8} :
    (keygenInternal H (mldsaPar i) seed).Returns (pk, sk) ↔
      let buf := keygenSeeds H (mldsaPar i) (seed.take 32)
      ∃ A, ∃ s1 : PolyVec (mldsaPar i).ell, ∃ s2 : PolyVec (mldsaPar i).k,
        ExpandA H (mldsaPar i).k (mldsaPar i).ell (buf.take 32) A ∧
        ExpandS H (mldsaPar i) ((buf.drop 32).take 64) (coeffs s1) (coeffs s2) ∧
        pk = pkEncode (mldsaPar i) (buf.take 32) (coeffs (t1Of (mldsaPar i).k (publicT A s1 s2))) ∧
        sk = skEncode (mldsaPar i) (buf.take 32) ((buf.drop 96).take 32) ((H.shake256 pk).take 64)
          (coeffs s1) (coeffs s2) (coeffs (t0Of (mldsaPar i).k (publicT A s1 s2))) := by
  have hrho : ∀ m, (Bytes.ofList (shake256 H 128 m)).take 32 = (H.shake256 m).take 32 :=
    fun m => Bytes.take_congr fun _ hj => Bytes.ofList_take (by omega)
  have hrhop : ∀ m, ((Bytes.ofList (shake256 H 128 m)).drop 32).take 64 =
      ((H.shake256 m).drop 32).take 64 := fun m => take_drop_ofList _ (by norm_num)
  have hkey : ∀ m, ((Bytes.ofList (shake256 H 128 m)).drop 96).take 32 =
      ((H.shake256 m).drop 96).take 32 := fun m => take_drop_ofList _ (by norm_num)
  unfold keygenInternal Linked.keygenInternal polyveclUniformEta polyveckUniformEta keygenSeeds ExpandS
  dsimp only
  rw [returns_bind]
  simp only [plain_polyvecMatrixExpand, returns_polyvecMatrixExpand_iff, hrho]
  constructor
  · rintro ⟨_, ⟨A, hA, rfl⟩, h⟩
    obtain ⟨s1, h1, h⟩ := returns_bind.1 h
    obtain ⟨s2, h2, h⟩ := returns_bind.1 h
    rw [returns_polyvecUniformEta] at h1 h2
    obtain ⟨hpk, hsk⟩ := (returns_keygen_tail i A (inEta_of_samples h1) (inEta_of_samples h2)).1 h
    rw [hrho] at hpk hsk
    rw [Bytes.drop_drop, hkey] at hsk
    rw [hrhop] at h1 h2
    simp only [Nat.zero_add] at h1
    exact ⟨A, s1, s2, hA, ⟨h1, h2⟩, hpk, hsk⟩
  · rintro ⟨A, s1, s2, hA, ⟨h1, h2⟩, hpk, hsk⟩
    refine ⟨_, ⟨A, hA, rfl⟩, returns_bind.2 ⟨s1, ?_, returns_bind.2 ⟨s2, ?_, ?_⟩⟩⟩
    · rw [returns_polyvecUniformEta, hrhop]
      simpa only [Nat.zero_add] using h1
    · rwa [returns_polyvecUniformEta, hrhop]
    · refine (returns_keygen_tail i A (inEta_of_samples h1) (inEta_of_samples h2)).2 ?_
      rw [hrho, Bytes.drop_drop, hkey]
      exact ⟨hpk, hsk⟩

/-- **Key generation returns what `KeyGen` comes to.** -/
theorem returns_keygenInternal (i : Fin 3) {seed : Bytes} {pk sk : List UInt8} :
    (keygenInternal H (mldsaPar i) seed).Returns (pk, sk) ↔
      KeyGen H (mldsaPar i) (seed.take 32) pk sk := by
  rw [returns_keygen_vectors]
  unfold KeyGen ExpandS
  dsimp only
  constructor
  · rintro ⟨A, s1, s2, hA, hS, hpk, hsk⟩
    refine ⟨A, coeffs s1, coeffs s2, hA, hS, hpk.trans ?_, hsk.trans ?_⟩
    · exact pkEncode_congr fun r hr j hj => coeffs_tab hr hj
    · exact skEncode_congr (fun _ _ _ _ => rfl) (fun _ _ _ _ => rfl) fun r hr j hj => coeffs_tab hr hj
  · rintro ⟨A, f1, f2, hA, ⟨h1, h2⟩, hpk, hsk⟩
    have hv : ∀ {n : ℕ} (f : ℕ → ℕ → ℤ), ∀ r < n, ∀ j < 256,
        coeffs (Vector.tab n fun r => Vector.tab 256 (f r)) r j = f r j :=
      fun f r hr j hj => coeffs_tab hr hj
    refine ⟨A, Vector.tab _ fun r => Vector.tab 256 (f1 r), Vector.tab _ fun r => Vector.tab 256 (f2 r),
      hA, ⟨fun r hr => ?_, fun r hr => ?_⟩, hpk.trans ?_, hsk.trans ?_⟩
    · obtain ⟨L, hL, hf⟩ := h1 r hr
      exact ⟨L, hL, fun j hj => (hv f1 r hr j hj).trans (hf j hj)⟩
    · obtain ⟨L, hL, hf⟩ := h2 r hr
      exact ⟨L, hL, fun j hj => (hv f2 r hr j hj).trans (hf j hj)⟩
    · refine pkEncode_congr fun r hr j hj => ?_
      unfold t1Of
      rw [coeffs_tab hr hj, publicT_eq A (hv f1) (hv f2) hr]
    · refine skEncode_congr (fun r hr j hj => (hv f1 r hr j hj).symm)
        (fun r hr j hj => (hv f2 r hr j hj).symm) fun r hr j hj => ?_
      unfold t0Of
      rw [coeffs_tab hr hj, publicT_eq A (hv f1) (hv f2) hr]

/-! ## What the keys say -/

theorem ofInts_std (w : Rq) : ofInts (std w) = w := by
  have hcast : ∀ j, ((std w j : ℤ) : Zq) = coeff (show 0 < 256 by norm_num) w j := by
    intro j
    unfold std
    rw [Int.cast_natCast]
    exact ZMod.natCast_zmod_val _
  unfold ofInts
  simp only [hcast]
  exact ofCoeffs_coeff _ w

theorem ofInts_shift (f : ℕ → ℤ) : ofInts (fun j => f j * 2 ^ 13) = ofInts f * 2 ^ 13 := by
  have hscale := ofCoeffs_smul (n := 256) (2 ^ 13 : Zq) fun j => (f j : Zq)
  rw [map_pow, map_ofNat, mul_comm] at hscale
  refine Eq.trans (ofCoeffs_congr fun j _ => ?_) hscale
  push_cast
  ring

/-- A vector in two parts. -/
theorem ofInts_parts (f g : ℕ → ℤ) :
    ofInts (fun j => f j * 2 ^ 13 + g j) = ofInts f * 2 ^ 13 + ofInts g := by
  rw [← ofInts_shift]
  refine Eq.trans (ofCoeffs_congr fun j _ => ?_) (ofCoeffs_add _ _)
  push_cast
  ring

/-- The rounded parts of a vector are the vector. -/
theorem publicT_parts {k : ℕ} (t : ℕ → Rq) {r : ℕ} (hr : r < k) :
    toRqs (t1Of k t) r * 2 ^ 13 + toRqs (t0Of k t) r = t r := by
  have hparts : ∀ j < 256, coeffs (t1Of k t) r j * 2 ^ 13 + coeffs (t0Of k t) r j = std (t r) j := by
    intro j hj
    unfold t1Of t0Of
    rw [coeffs_tab hr hj, coeffs_tab hr hj]
    exact (power2Round_spec (std_range _ _).1 (std_range _ _).2).1.symm
  calc toRqs (t1Of k t) r * 2 ^ 13 + toRqs (t0Of k t) r
      = ofInts fun j => coeffs (t1Of k t) r j * 2 ^ 13 + coeffs (t0Of k t) r j :=
        (ofInts_parts _ _).symm
    _ = ofInts (std (t r)) := ofInts_congr hparts
    _ = t r := ofInts_std _

/-- The lengths of the keys, and what is decoded from any memory that holds them. -/
theorem keygen_decode (i : Fin 3) {rho key : Bytes} {A : ℕ → ℕ → Rq} {s1 : PolyVec (mldsaPar i).ell}
    {s2 : PolyVec (mldsaPar i).k} (h1 : InEta i s1) (h2 : InEta i s2) {pk sk : List UInt8}
    (hpk : pk = pkEncode (mldsaPar i) (rho.take 32) (coeffs (t1Of (mldsaPar i).k (publicT A s1 s2))))
    (hsk : sk = skEncode (mldsaPar i) (rho.take 32) (key.take 32) ((H.shake256 pk).take 64) (coeffs s1)
      (coeffs s2) (coeffs (t0Of (mldsaPar i).k (publicT A s1 s2)))) :
    pk.length = (mldsaPar i).pkSz ∧ sk.length = (mldsaPar i).skSz ∧
      (∀ p : Bytes, p.take (mldsaPar i).pkSz = pk → decodePk (mldsaPar i) p =
        (Bytes.ofList (rho.take 32), t1Of _ (publicT A s1 s2))) ∧
      ∀ p : Bytes, p.take (mldsaPar i).skSz = sk → decodeSk i p =
        ⟨Bytes.ofList (rho.take 32), Bytes.ofList (key.take 32),
          Bytes.ofList ((H.shake256 pk).take 64), s1, s2, t0Of _ (publicT A s1 s2)⟩ := by
  refine ⟨?_, ?_, fun p hp => ?_, fun p hp => ?_⟩
  · rw [hpk]
    exact length_pkEncode i (Bytes.length_take _ _) _
  · rw [hsk]
    exact length_skEncode i (Bytes.length_take _ _) (Bytes.length_take _ _) (Bytes.length_take _ _) _ _ _
  · exact decodePk_pkEncode i (inT1_t1Of _ _) (hp.trans hpk)
  · exact @decodeSk_skEncode i ⟨rho, key, H.shake256 pk, s1, s2, t0Of (mldsaPar i).k (publicT A s1 s2)⟩
      h1.coded h2.coded (inT0_t0Of _ _) p (hp.trans hsk)

/-- **A pair of keys is well formed.**  What is decoded from the two keys has the same seed
of the matrix and the hash of the public key, every part in its range, and
`t1 * 2^13 + t0 = A s1 + s2` over the ring. -/
theorem keygen_wellFormed (H : Hash) (i : Fin 3) (seed : Bytes) (pk sk : List UInt8)
    (h : (keygenInternal H (mldsaPar i) seed).Returns (pk, sk)) :
    pk.length = (mldsaPar i).pkSz ∧ sk.length = (mldsaPar i).skSz ∧
      ∃ (A : ℕ → ℕ → Rq) (key : SecretKey (mldsaPar i)) (rho : Bytes) (t1 : PolyVec (mldsaPar i).k),
        unpackSk (mldsaPar i) (Bytes.ofList sk) = pure key ∧
        unpackPk (mldsaPar i) (Bytes.ofList pk) = pure (rho, t1) ∧
        rho.take 32 = key.rho.take 32 ∧ key.tr.take 64 = (H.shake256 pk).take 64 ∧
        InEta i key.s1 ∧ InEta i key.s2 ∧ InT0 key.t0 ∧ InT1 t1 ∧
        ExpandA H (mldsaPar i).k (mldsaPar i).ell (rho.take 32) A ∧
        ∀ r < (mldsaPar i).k, toRqs t1 r * 2 ^ 13 + toRqs key.t0 r =
          matVec (mldsaPar i).ell A (toRqs key.s1) r + toRqs key.s2 r := by
  obtain ⟨A, s1, s2, hA, ⟨h1, h2⟩, hpk, hsk⟩ := (returns_keygen_vectors i).1 h
  have hr1 := inEta_of_samples h1
  have hr2 := inEta_of_samples h2
  obtain ⟨hlen, hlen', hdpk, hdsk⟩ := keygen_decode i hr1 hr2 hpk hsk
  have hdpk := hdpk (Bytes.ofList pk) (Bytes.take_ofList_of_length hlen)
  have hdsk := hdsk (Bytes.ofList sk) (Bytes.take_ofList_of_length hlen')
  refine ⟨hlen, hlen', A, _, _, _, (unpackSk_eq i _).trans (congrArg pure hdsk),
    (unpackPk_eq _ _).trans (congrArg pure hdpk), rfl, ofList_take_take _ _, hr1, hr2,
    inT0_t0Of _ _, inT1_t1Of _ _, ?_, fun r hr => publicT_parts _ hr⟩
  rwa [ofList_take_take]

theorem rejNttPoly_zeroHash (seed : List UInt8) :
    RejNttPoly zeroHash seed (List.replicate 256 0) := by
  have hcand : ∀ p, uniformCand (zeroHash.shake128 seed) p = some 0 := fun p => rfl
  exact Reject.first_const hcand 256

theorem rejBoundedPoly_zeroHash (i : Fin 3) (seed : List UInt8) :
    RejBoundedPoly zeroHash (mldsaPar i).eta seed (List.replicate 256 (mldsaPar i).eta) := by
  refine Reject.first_const (fun p => ?_) 256
  unfold etaCand zeroHash
  dsimp only
  rw [show (if p % 2 = 0 then (0 : UInt8).toNat % 16 else (0 : UInt8).toNat / 16) = 0 by split <;> rfl]
  rcases eta_cases i with h | h <;> rw [h] <;> rfl

theorem expandA_zeroHash (k ell : ℕ) (rho : List UInt8) :
    ExpandA zeroHash k ell rho fun _ _ => 0 := by
  refine fun r _ s _ => ⟨_, rejNttPoly_zeroHash _, fun n hn => ?_⟩
  rw [List.getD_replicate _ hn, Int.cast_zero]
  exact map_zero _

/-- The keys of a seed of zeros, where every hash is zero. -/
theorem keygen_wellFormed_zero : ∃ pk sk,
    (keygenInternal zeroHash (mldsaPar 0) fun _ => 0).Returns (pk, sk) ∧
      pk.length = 1312 ∧ sk.length = 2560 := by
  have hsamples : ∀ (n : ℕ) (seed : ℕ → List UInt8), ∀ r < n,
      ∃ L, RejBoundedPoly zeroHash (mldsaPar 0).eta (seed r) L ∧ ∀ j < 256,
         coeffs (Vector.tab n fun _ => Vector.tab 256 fun _ => (2 : ℤ)) r j = L.getD j 0 := by
    intro n seed r hr
    refine ⟨_, rejBoundedPoly_zeroHash 0 (seed r), fun j hj => ?_⟩
    rw [coeffs_tab hr hj, List.getD_replicate _ hj]
    rfl
  have hret := (@returns_keygen_vectors zeroHash 0 (fun _ => 0) _ _).2
    ⟨_, _, _, expandA_zeroHash _ _ _, ⟨hsamples _ _, hsamples _ _⟩, rfl, rfl⟩
  obtain ⟨hpk, hsk, -⟩ := keygen_wellFormed zeroHash 0 _ _ _ hret
  exact ⟨_, _, hret, hpk, hsk⟩

end Mldsa
