import Karudeb.Mldsa.EncodeSpec

/-!
# ML-DSA: the key codecs

* `packPk_eq`, `packSk_eq` : the encoders write `pkEncode` and `skEncode`.
* `unpackPk_eq`, `unpackSk_eq` : the decoders read the fields behind one another.
* `keyCodec_bijective` : so the codecs are bijections, of strings of `pk_sz` and
  `sk_sz` bytes.
-/

namespace Mldsa

open Word Bits Fips204

/-! ## Sections of equal blocks -/

/-- A section of packed polynomials holds what its blocks unpack to. -/
theorem section_bitUnpack (p : Bytes) (off n a b : ℕ) :
    (List.range n).flatMap (fun r => bitPack a b fun j =>
      bitUnpack a b (p.drop (off + r * (32 * bitlen (a + b)))) j) =
        (p.drop off).take (n * (32 * bitlen (a + b))) := by
  refine ((Bytes.take_flatMap _ fun r _ => length_bitPack a b _).2 fun r _ => ?_).symm
  rw [Bytes.drop_drop, bitPack_bitUnpack]

/-- The blocks of a section of packed polynomials unpack to what was packed. -/
theorem bitUnpack_section {p : Bytes} {off n a b : ℕ} {z : ℕ → ℕ → ℤ}
    (h : (p.drop off).take (n * (32 * bitlen (a + b))) =
      (List.range n).flatMap fun r => bitPack a b (z r))
    (hz : ∀ r < n, ∀ j < 256, 0 ≤ b - z r j ∧ b - z r j < 2 ^ bitlen (a + b)) {r j : ℕ}
    (hr : r < n) (hj : j < 256) :
    bitUnpack a b (p.drop (off + r * (32 * bitlen (a + b)))) j = z r j := by
  have hblock := (Bytes.take_flatMap _ fun r _ => length_bitPack a b (z r)).1 h r hr
  rw [Bytes.drop_drop] at hblock
  exact bitUnpack_coded hblock hj (hz r hr j hj)

theorem length_bitPacks (a b n : ℕ) (z : ℕ → ℕ → ℤ) :
    ((List.range n).flatMap fun r => bitPack a b (z r)).length = n * (32 * bitlen (a + b)) := by
  rw [List.length_flatMap, List.map_congr_left fun r _ => length_bitPack a b (z r)]
  simp

theorem length_simpleBitPacks (b n : ℕ) (z : ℕ → ℕ → ℕ) :
    ((List.range n).flatMap fun r => simpleBitPack b (z r)).length = n * (32 * bitlen b) := by
  rw [List.length_flatMap, List.map_congr_left fun r _ => length_simpleBitPack b (z r)]
  simp

theorem etaSz_eq (i : Fin 3) :
    (mldsaPar i).etaSz = 32 * bitlen ((mldsaPar i).eta + (mldsaPar i).eta) := by
  fin_cases i <;> decide

theorem bitlen_t0 : 32 * bitlen (2 ^ 12 - 1 + 2 ^ 12) = 416 := by decide

theorem bitlen_t1 : 32 * bitlen (2 ^ 10 - 1) = 320 := by decide

theorem skSz_eq (i : Fin 3) : (mldsaPar i).skSz =
    128 + (mldsaPar i).ell * (mldsaPar i).etaSz + (mldsaPar i).k * (mldsaPar i).etaSz +
      (mldsaPar i).k * 416 := by
  fin_cases i <;> decide

theorem pkSz_eq (i : Fin 3) : (mldsaPar i).pkSz = 32 + (mldsaPar i).k * 320 := by
  fin_cases i <;> decide

/-! ## Ranges -/

/-- The coefficients of a secret vector are at most `eta` in absolute value. -/
def InEta (i : Fin 3) {n : ℕ} (s : PolyVec n) : Prop :=
  ∀ r < n, ∀ j < 256, -(mldsaPar i).eta ≤ coeffs s r j ∧ coeffs s r j ≤ (mldsaPar i).eta

/-- The coefficients are those that a packed secret vector can hold. -/
def EtaCoded (i : Fin 3) {n : ℕ} (s : PolyVec n) : Prop :=
  ∀ r < n, ∀ j < 256, 0 ≤ (mldsaPar i).eta - coeffs s r j ∧
    (mldsaPar i).eta - coeffs s r j < 2 ^ bitlen ((mldsaPar i).eta + (mldsaPar i).eta)

/-- Low parts of a rounding by `2^13`. -/
def InT0 {n : ℕ} (t : PolyVec n) : Prop :=
  ∀ r < n, ∀ j < 256, -2 ^ 12 < coeffs t r j ∧ coeffs t r j ≤ 2 ^ 12

/-- High parts of a rounding by `2^13`. -/
def InT1 {n : ℕ} (t : PolyVec n) : Prop :=
  ∀ r < n, ∀ j < 256, 0 ≤ coeffs t r j ∧ coeffs t r j < 2 ^ 10

theorem InEta.coded {i : Fin 3} {n : ℕ} {s : PolyVec n} (h : InEta i s) : EtaCoded i s := by
  intro r hr j hj
  obtain ⟨h1, h2⟩ := h r hr j hj
  have hlt := lt_two_pow_bitlen ((mldsaPar i).eta + (mldsaPar i).eta)
  zify at hlt
  constructor <;> omega

/-! ## Encoding -/

/-- **`pack_sk` writes `skEncode`.** -/
theorem packSk_eq (i : Fin 3) {sk : SecretKey (mldsaPar i)} (h1 : EtaCoded i sk.s1)
    (h2 : EtaCoded i sk.s2) (h0 : InT0 sk.t0) :
    packSk (mldsaPar i) sk = pure (skEncode (mldsaPar i) (sk.rho.take 32) (sk.key.take 32)
      (sk.tr.take 64) (coeffs sk.s1) (coeffs sk.s2) (coeffs sk.t0)) := by
  have heta : ∀ {n : ℕ} {s : PolyVec n}, EtaCoded i s →
      packGroups n (fun r => polyetaPack (mldsaPar i) (s.rd r)) =
        pure ((List.range n).flatMap fun r =>
          bitPack (mldsaPar i).eta (mldsaPar i).eta (coeffs s r)) :=
    fun hs => packGroups_congr fun r hr => polyetaPack_eq i (hs r hr)
  have ht0 : packGroups (mldsaPar i).k (fun r => polyt0Pack (sk.t0.rd r)) =
      pure ((List.range (mldsaPar i).k).flatMap fun r =>
        bitPack (2 ^ 12 - 1) (2 ^ 12) (coeffs sk.t0 r)) := by
    refine packGroups_congr fun r hr => polyt0Pack_eq fun j hj => ?_
    obtain ⟨hlo, hhi⟩ := h0 r hr j hj
    unfold coeffs at hlo hhi
    constructor <;> omega
  unfold packSk
  rw [heta h1, pure_bind, heta h2, pure_bind, ht0, pure_bind]
  rfl

/-- **`pack_pk` writes `pkEncode`.** -/
theorem packPk_eq {par : MldsaParam} {rho : Bytes} {t1 : PolyVec par.k} (h : InT1 t1) :
    packPk par rho t1 = pure (pkEncode par (rho.take 32) (coeffs t1)) := by
  have ht1 : packGroups par.k (fun r => polyt1Pack (t1.rd r)) =
      pure ((List.range par.k).flatMap fun r =>
        simpleBitPack (2 ^ 10 - 1) fun j => (coeffs t1 r j).toNat) :=
    packGroups_congr fun r hr => polyt1Pack_eq (h r hr)
  unfold packPk
  rw [ht1, pure_bind]
  rfl

theorem length_skEncode (i : Fin 3) {rho key tr : List UInt8} (hrho : rho.length = 32)
    (hkey : key.length = 32) (htr : tr.length = 64) (s1 s2 t0 : ℕ → ℕ → ℤ) :
    (skEncode (mldsaPar i) rho key tr s1 s2 t0).length = (mldsaPar i).skSz := by
  unfold skEncode
  rw [List.length_append, List.length_append, List.length_append, List.length_append,
    List.length_append, length_bitPacks, length_bitPacks, length_bitPacks, bitlen_t0, ← etaSz_eq,
    hrho, hkey, htr, skSz_eq]

theorem length_pkEncode (i : Fin 3) {rho : List UInt8} (hrho : rho.length = 32)
    (t1 : ℕ → ℕ → ℤ) : (pkEncode (mldsaPar i) rho t1).length = (mldsaPar i).pkSz := by
  unfold pkEncode
  rw [List.length_append, length_simpleBitPacks, bitlen_t1, hrho, pkSz_eq]

/-! ## Decoding -/

/-- What `unpack_sk` reads from the string at `p`. -/
def decodeSk (i : Fin 3) (p : Bytes) : SecretKey (mldsaPar i) :=
  let par := mldsaPar i
  { rho := Bytes.ofList (p.take 32)
    key := Bytes.ofList ((p.drop 32).take 32)
    tr := Bytes.ofList ((p.drop 64).take 64)
    s1 := Vector.tab par.ell fun r => Vector.tab 256
      (bitUnpack par.eta par.eta (p.drop (128 + r * par.etaSz)))
    s2 := Vector.tab par.k fun r => Vector.tab 256
      (bitUnpack par.eta par.eta (p.drop (128 + par.ell * par.etaSz + r * par.etaSz)))
    t0 := Vector.tab par.k fun r => Vector.tab 256 (bitUnpack (2 ^ 12 - 1) (2 ^ 12)
      (p.drop (128 + par.ell * par.etaSz + par.k * par.etaSz + r * 416))) }

/-- `unpack_sk` reads its fields, and nothing overflows. -/
theorem unpackSk_eq (i : Fin 3) (p : Bytes) : unpackSk (mldsaPar i) p = pure (decodeSk i p) := by
  unfold unpackSk decodeSk
  simp only [polyetaUnpack_eq, polyt0Unpack_eq, Chk.tab_pure, pure_bind, Bytes.drop_drop]

/-- What `unpack_pk` reads from the string at `p`. -/
def decodePk (par : MldsaParam) (p : Bytes) : Bytes × PolyVec par.k :=
  (Bytes.ofList (p.take 32), Vector.tab par.k fun r => Vector.tab 256 fun j =>
    (simpleBitUnpack (2 ^ 10 - 1) (p.drop (32 + r * 320)) j : ℤ))

theorem unpackPk_eq (par : MldsaParam) (p : Bytes) : unpackPk par p = pure (decodePk par p) := by
  unfold unpackPk decodePk
  simp only [polyt1Unpack_eq, Chk.tab_pure, pure_bind]

theorem ofList_take_take (p : Bytes) (n : ℕ) : (Bytes.ofList (p.take n)).take n = p.take n :=
  Bytes.take_congr fun _ hi => Bytes.ofList_take hi

/-- A decoded public key is in range. -/
theorem inT1_decodePk (par : MldsaParam) (p : Bytes) : InT1 (decodePk par p).2 := by
  intro r hr j hj
  have hlt : simpleBitUnpack (2 ^ 10 - 1) (p.drop (32 + r * 320)) j < 1024 := by
    have h := unpack_lt (bitlen (2 ^ 10 - 1)) (p.drop (32 + r * 320)) j
    exact lt_of_lt_of_eq h (by decide)
  unfold decodePk
  rw [coeffs_tab hr hj]
  generalize simpleBitUnpack (2 ^ 10 - 1) (p.drop (32 + r * 320)) j = u at hlt
  constructor <;> omega

/-- A decoded secret vector is one that can be encoded. -/
theorem decodeSk_range (i : Fin 3) (p : Bytes) :
    EtaCoded i (decodeSk i p).s1 ∧ EtaCoded i (decodeSk i p).s2 ∧ InT0 (decodeSk i p).t0 := by
  have heta : ∀ q : Bytes, ∀ j, 0 ≤ (mldsaPar i).eta -
      bitUnpack (mldsaPar i).eta (mldsaPar i).eta q j ∧ (mldsaPar i).eta -
        bitUnpack (mldsaPar i).eta (mldsaPar i).eta q j <
          2 ^ bitlen ((mldsaPar i).eta + (mldsaPar i).eta) := by
    intro q j
    have h := unpack_lt (bitlen ((mldsaPar i).eta + (mldsaPar i).eta)) q j
    unfold bitUnpack
    rw [sub_sub_cancel]
    zify at h
    exact ⟨Int.natCast_nonneg _, h⟩
  have ht0 : ∀ q : Bytes, ∀ j, -2 ^ 12 < bitUnpack (2 ^ 12 - 1) (2 ^ 12) q j ∧
      bitUnpack (2 ^ 12 - 1) (2 ^ 12) q j ≤ 2 ^ 12 := by
    intro q j
    have h := unpack_lt (bitlen (2 ^ 12 - 1 + 2 ^ 12)) q j
    have hlen : 2 ^ bitlen (2 ^ 12 - 1 + 2 ^ 12) = 8192 := by decide
    rw [hlen] at h
    unfold bitUnpack
    generalize unpack (bitlen (2 ^ 12 - 1 + 2 ^ 12)) q j = u at *
    push_cast
    constructor <;> omega
  unfold decodeSk
  refine ⟨fun r hr j hj => ?_, fun r hr j hj => ?_, fun r hr j hj => ?_⟩
  · rw [coeffs_tab hr hj]
    exact heta _ j
  · rw [coeffs_tab hr hj]
    exact heta _ j
  · rw [coeffs_tab hr hj]
    exact ht0 _ j

/-! ## Round trips -/

/-- A string of `sk_sz` bytes is its fields one behind the other. -/
theorem take_skSz (i : Fin 3) (p : Bytes) : p.take (mldsaPar i).skSz =
    p.take 32 ++ (p.drop 32).take 32 ++ (p.drop 64).take 64 ++
      (p.drop 128).take ((mldsaPar i).ell * (mldsaPar i).etaSz) ++
        (p.drop (128 + (mldsaPar i).ell * (mldsaPar i).etaSz)).take
          ((mldsaPar i).k * (mldsaPar i).etaSz) ++
          (p.drop (128 + (mldsaPar i).ell * (mldsaPar i).etaSz +
            (mldsaPar i).k * (mldsaPar i).etaSz)).take ((mldsaPar i).k * 416) := by
  rw [skSz_eq, Bytes.take_add, Bytes.take_add, Bytes.take_add, show 128 = 32 + 32 + 64 from rfl,
    Bytes.take_add p (32 + 32) 64, Bytes.take_add p 32 32]

/-- The encoding of what was decoded from a string is the string. -/
theorem skEncode_decodeSk (i : Fin 3) (p : Bytes) :
    skEncode (mldsaPar i) ((decodeSk i p).rho.take 32) ((decodeSk i p).key.take 32)
      ((decodeSk i p).tr.take 64) (coeffs (decodeSk i p).s1) (coeffs (decodeSk i p).s2)
      (coeffs (decodeSk i p).t0) = p.take (mldsaPar i).skSz := by
  have hs1 := section_bitUnpack p 128 (mldsaPar i).ell (mldsaPar i).eta (mldsaPar i).eta
  have hs2 := section_bitUnpack p (128 + (mldsaPar i).ell * (mldsaPar i).etaSz) (mldsaPar i).k
    (mldsaPar i).eta (mldsaPar i).eta
  have ht0 := section_bitUnpack p (128 + (mldsaPar i).ell * (mldsaPar i).etaSz +
    (mldsaPar i).k * (mldsaPar i).etaSz) (mldsaPar i).k (2 ^ 12 - 1) (2 ^ 12)
  rw [← etaSz_eq] at hs1 hs2
  rw [bitlen_t0] at ht0
  have hblocks : ∀ {n a b : ℕ} {f : ℕ → ℕ → ℤ}, (List.range n).flatMap (fun r => bitPack a b
      (coeffs (Vector.tab n fun r => Vector.tab 256 (f r)) r)) =
      (List.range n).flatMap fun r => bitPack a b (f r) := by
    intro n a b f
    exact List.flatMap_congr fun r hr => bitPack_congr fun j hj => coeffs_tab (List.mem_range.1 hr) hj
  unfold skEncode decodeSk
  rw [take_skSz]
  dsimp only
  rw [hblocks, hblocks, hblocks, hs1, hs2, ht0, ofList_take_take, ofList_take_take,
    ofList_take_take]

/-- What is decoded from an encoding is what was encoded. -/
theorem decodeSk_skEncode (i : Fin 3) {sk : SecretKey (mldsaPar i)} (h1 : EtaCoded i sk.s1)
    (h2 : EtaCoded i sk.s2) (h0 : InT0 sk.t0) {p : Bytes}
    (hp : p.take (mldsaPar i).skSz = skEncode (mldsaPar i) (sk.rho.take 32) (sk.key.take 32)
      (sk.tr.take 64) (coeffs sk.s1) (coeffs sk.s2) (coeffs sk.t0)) :
    decodeSk i p = { sk with
      rho := Bytes.ofList (sk.rho.take 32)
      key := Bytes.ofList (sk.key.take 32)
      tr := Bytes.ofList (sk.tr.take 64) } := by
  unfold skEncode at hp
  rw [take_skSz] at hp
  obtain ⟨hp, ht0⟩ := List.append_inj' hp (by rw [Bytes.length_take, length_bitPacks, bitlen_t0])
  obtain ⟨hp, hs2⟩ := List.append_inj' hp (by rw [Bytes.length_take, length_bitPacks, etaSz_eq])
  obtain ⟨hp, hs1⟩ := List.append_inj' hp (by rw [Bytes.length_take, length_bitPacks, etaSz_eq])
  obtain ⟨hp, htr⟩ := List.append_inj' hp (by rw [Bytes.length_take, Bytes.length_take])
  obtain ⟨hrho, hkey⟩ := List.append_inj' hp (by rw [Bytes.length_take, Bytes.length_take])
  rw [etaSz_eq] at hs1 hs2
  rw [← bitlen_t0] at ht0
  have es1 : (decodeSk i p).s1 = sk.s1 := by
    refine Vector.ext_rd fun r hr => Vector.ext_rd fun j hj => ?_
    unfold decodeSk
    rw [Vector.rd_tab _ hr, Vector.rd_tab _ hj, etaSz_eq]
    exact bitUnpack_section hs1 h1 hr hj
  have es2 : (decodeSk i p).s2 = sk.s2 := by
    refine Vector.ext_rd fun r hr => Vector.ext_rd fun j hj => ?_
    unfold decodeSk
    rw [Vector.rd_tab _ hr, Vector.rd_tab _ hj, etaSz_eq]
    exact bitUnpack_section hs2 h2 hr hj
  have et0 : (decodeSk i p).t0 = sk.t0 := by
    refine Vector.ext_rd fun r hr => Vector.ext_rd fun j hj => ?_
    unfold decodeSk
    rw [Vector.rd_tab _ hr, Vector.rd_tab _ hj, ← bitlen_t0]
    refine bitUnpack_section ht0 (fun r hr j hj => ?_) hr hj
    obtain ⟨hlo, hhi⟩ := h0 r hr j hj
    rw [show bitlen (2 ^ 12 - 1 + 2 ^ 12) = 13 by decide, Nat.cast_pow, Nat.cast_ofNat]
    constructor <;> omega
  rw [← es1, ← es2, ← et0, ← hrho, ← hkey, ← htr]
  rfl

/-- A string of `pk_sz` bytes is the seed and the packed vector. -/
theorem take_pkSz (i : Fin 3) (p : Bytes) : p.take (mldsaPar i).pkSz =
    p.take 32 ++ (p.drop 32).take ((mldsaPar i).k * 320) := by
  rw [pkSz_eq, Bytes.take_add]

theorem pkEncode_decodePk (i : Fin 3) (p : Bytes) :
    pkEncode (mldsaPar i) ((decodePk (mldsaPar i) p).1.take 32)
      (coeffs (decodePk (mldsaPar i) p).2) = p.take (mldsaPar i).pkSz := by
  unfold pkEncode decodePk
  dsimp only
  rw [take_pkSz, ofList_take_take]
  congr 1
  refine ((Bytes.take_flatMap _ fun r _ =>
    (length_simpleBitPack _ _).trans bitlen_t1).2 fun r hr => ?_).symm
  have hcoeffs : ∀ j < 256, (coeffs (Vector.tab (mldsaPar i).k fun r => Vector.tab 256 fun j =>
      (simpleBitUnpack (2 ^ 10 - 1) (p.drop (32 + r * 320)) j : ℤ)) r j).toNat =
        simpleBitUnpack (2 ^ 10 - 1) (p.drop (32 + r * 320)) j := by
    intro j hj
    rw [coeffs_tab hr hj, Int.toNat_natCast]
  rw [simpleBitPack_congr hcoeffs, simpleBitPack_simpleBitUnpack, bitlen_t1, Bytes.drop_drop]

theorem decodePk_pkEncode (i : Fin 3) {rho : Bytes} {t1 : PolyVec (mldsaPar i).k} (h : InT1 t1)
    {p : Bytes} (hp : p.take (mldsaPar i).pkSz =
      pkEncode (mldsaPar i) (rho.take 32) (coeffs t1)) :
    decodePk (mldsaPar i) p = (Bytes.ofList (rho.take 32), t1) := by
  unfold pkEncode at hp
  rw [take_pkSz] at hp
  obtain ⟨hrho, ht1⟩ := List.append_inj hp (by rw [Bytes.length_take, Bytes.length_take])
  have hblock := (Bytes.take_flatMap _ fun r _ =>
    (length_simpleBitPack (2 ^ 10 - 1) fun j => (coeffs t1 r j).toNat).trans bitlen_t1).1 ht1
  unfold decodePk
  refine Prod.ext (by rw [← hrho]) (Vector.ext_rd fun r hr => Vector.ext_rd fun j hj => ?_)
  obtain ⟨hlo, hhi⟩ := h r hr j hj
  have hr := hblock r hr
  rw [Bytes.drop_drop, ← bitlen_t1] at hr
  dsimp only
  rw [Vector.rd_tab _ ‹_›, Vector.rd_tab _ hj, ← bitlen_t1,
    simpleBitUnpack_simpleBitPack hr hj ?_]
  · exact Int.toNat_of_nonneg hlo
  · rw [show bitlen (2 ^ 10 - 1) = 10 by decide]
    omega

/-- **The key codecs are bijections.** -/
theorem keyCodec_bijective (i : Fin 3) :
    (∀ p : Bytes, (unpackSk (mldsaPar i) p >>= packSk (mldsaPar i)) =
      pure (p.take (mldsaPar i).skSz)) ∧
    (∀ p : Bytes, (unpackPk (mldsaPar i) p >>= fun pk => packPk (mldsaPar i) pk.1 pk.2) =
      pure (p.take (mldsaPar i).pkSz)) ∧
    (∀ sk : SecretKey (mldsaPar i), InEta i sk.s1 → InEta i sk.s2 → InT0 sk.t0 →
      ∃ b, packSk (mldsaPar i) sk = pure b ∧ b.length = (mldsaPar i).skSz ∧
        ∀ p : Bytes, p.take (mldsaPar i).skSz = b → unpackSk (mldsaPar i) p = pure { sk with
          rho := Bytes.ofList (sk.rho.take 32)
          key := Bytes.ofList (sk.key.take 32)
          tr := Bytes.ofList (sk.tr.take 64) }) ∧
    (∀ (rho : Bytes) (t1 : PolyVec (mldsaPar i).k), InT1 t1 →
      ∃ b, packPk (mldsaPar i) rho t1 = pure b ∧ b.length = (mldsaPar i).pkSz ∧
        ∀ p : Bytes, p.take (mldsaPar i).pkSz = b →
          unpackPk (mldsaPar i) p = pure (Bytes.ofList (rho.take 32), t1)) ∧
    -- nothing behind the string is read
    ∀ p q : Bytes, (p.take (mldsaPar i).skSz = q.take (mldsaPar i).skSz →
        unpackSk (mldsaPar i) p = unpackSk (mldsaPar i) q) ∧
      (p.take (mldsaPar i).pkSz = q.take (mldsaPar i).pkSz →
        unpackPk (mldsaPar i) p = unpackPk (mldsaPar i) q) := by
  refine ⟨fun p => ?_, fun p => ?_, fun sk h1 h2 h0 => ?_, fun rho t1 h1 => ?_,
    fun p q => ⟨fun hpq => ?_, fun hpq => ?_⟩⟩
  · obtain ⟨h1, h2, h0⟩ := decodeSk_range i p
    rw [unpackSk_eq, pure_bind, packSk_eq i h1 h2 h0, skEncode_decodeSk]
  · rw [unpackPk_eq, pure_bind, packPk_eq (inT1_decodePk _ p), pkEncode_decodePk]
  · refine ⟨_, packSk_eq i h1.coded h2.coded h0, length_skEncode i (Bytes.length_take _ _)
      (Bytes.length_take _ _) (Bytes.length_take _ _) _ _ _, fun p hp => ?_⟩
    rw [unpackSk_eq, decodeSk_skEncode i h1.coded h2.coded h0 hp]
  · refine ⟨_, packPk_eq h1, length_pkEncode i (Bytes.length_take _ _) _, fun p hp => ?_⟩
    rw [unpackPk_eq, decodePk_pkEncode i h1 hp]
  · -- both strings are the encoding of what `q` decodes to
    obtain ⟨h1, h2, h0⟩ := decodeSk_range i q
    have hp := decodeSk_skEncode i h1 h2 h0 (hpq.trans (skEncode_decodeSk i q).symm)
    have hq := decodeSk_skEncode i h1 h2 h0 (skEncode_decodeSk i q).symm
    rw [unpackSk_eq, unpackSk_eq, hp.trans hq.symm]
  · have hp := decodePk_pkEncode i (inT1_decodePk _ q) (hpq.trans (pkEncode_decodePk i q).symm)
    have hq := decodePk_pkEncode i (inT1_decodePk _ q) (pkEncode_decodePk i q).symm
    rw [unpackPk_eq, unpackPk_eq, hp.trans hq.symm]

/-- A secret key with coefficients from `-eta` to `eta` and from `-2^12 + 1` on. -/
def rampKey : SecretKey (mldsaPar 0) where
  rho := fun n => UInt8.ofNat n
  key := fun n => UInt8.ofNat (32 + n)
  tr := fun n => UInt8.ofNat (64 + n)
  s1 := Vector.tab _ fun _ => Vector.tab 256 fun j => (j % 5 : ℕ) - 2
  s2 := Vector.tab _ fun r => Vector.tab 256 fun j => 2 - ((j + r) % 5 : ℕ)
  t0 := Vector.tab _ fun r => Vector.tab 256 fun j => 32 * (j : ℤ) - 4095 + r

/-- High parts up to `2^10 - 1`. -/
def rampT1 : PolyVec (mldsaPar 0).k := Vector.tab _ fun r => Vector.tab 256 fun j => 4 * (j : ℤ) + r

/-- A pair of keys that are encoded and decoded again. -/
theorem keyCodec_bijective_ramp :
    (∃ b, packSk (mldsaPar 0) rampKey = pure b ∧ b.length = 2560 ∧
      unpackSk (mldsaPar 0) (Bytes.ofList b) = pure { rampKey with
        rho := Bytes.ofList ((List.range 32).map UInt8.ofNat)
        key := Bytes.ofList ((List.range 32).map fun n => UInt8.ofNat (32 + n))
        tr := Bytes.ofList ((List.range 64).map fun n => UInt8.ofNat (64 + n)) }) ∧
    ∃ b, packPk (mldsaPar 0) rampKey.rho rampT1 = pure b ∧ b.length = 1312 ∧
      unpackPk (mldsaPar 0) (Bytes.ofList b) =
        pure (Bytes.ofList ((List.range 32).map UInt8.ofNat), rampT1) := by
  have heta : (mldsaPar 0).eta = 2 := rfl
  have hs1 : InEta 0 rampKey.s1 := by
    intro r hr j hj
    rw [rampKey, coeffs_tab hr hj, heta]
    omega
  have hs2 : InEta 0 rampKey.s2 := by
    intro r hr j hj
    rw [rampKey, coeffs_tab hr hj, heta]
    omega
  have hk : (mldsaPar 0).k = 4 := rfl
  have ht0 : InT0 rampKey.t0 := by
    intro r hr j hj
    rw [rampKey, coeffs_tab hr hj]
    omega
  have ht1 : InT1 rampT1 := by
    intro r hr j hj
    rw [rampT1, coeffs_tab hr hj]
    omega
  obtain ⟨-, -, hsk, hpk, -⟩ := keyCodec_bijective 0
  obtain ⟨b, hb, hlen, hdec⟩ := hsk rampKey hs1 hs2 ht0
  obtain ⟨b', hb', hlen', hdec'⟩ := hpk rampKey.rho rampT1 ht1
  exact ⟨⟨b, hb, hlen, hdec _ (Bytes.take_ofList_of_length hlen)⟩, b', hb', hlen',
    hdec' _ (Bytes.take_ofList_of_length hlen')⟩

end Mldsa
