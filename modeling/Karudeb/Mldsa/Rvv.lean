import Karudeb.Lib.Rvv
import Karudeb.Mldsa.Ntt

/-!
# ML-DSA: the vector transform

`mldsa_ntt` and `mldsa_invntt` as the vector code runs them, on registers of
eight lanes: the top layer through memory, three layers between sixteen
registers, and the last four layers inside register pairs that are permuted on
the way.

* `rvvNtt_eq`, `rvvInvntt_eq` : the programs are the same eight layers as the
  scalar ones, with the butterflies of the vector unit.
* `rvvNtt_val`, `rvvInvntt_val` : and leave the same coefficients.
-/

namespace Mldsa

open Word Butterfly Rvv

/-! ## Tables -/

/-- `rvv_zeta`. -/
def rvvZeta : Table := [
  [2091667, 3407706, 2316500, 3817976, -3342478, 2244091, -2446433, -3562462, 2725464, 2706023,
    95776, -3930395, -1528703, -3677745, -3041255, 0],
  [266997, 2434439, -1235728, 3513181, -3520352, -3759364, -1197226, -3193378, 1024112, 3077325,
    3530437, -1452451, 3475950, 2176455, -1585221, 25847],
  [900702, 1859098, 909542, 819034, 495491, -1613174, -43260, -522500, -1079900, -1661693,
    -3592148, -1257611, 1939314, -4083598, -1000202, -2608894],
  [-655327, -3122442, 2031748, 3207046, -3556995, -525098, -768622, -3595838, 3585928, -2537516,
    3915439, -3190144, -3157330, -3632928, 126922, -518909],
  [342297, 286988, -2437823, 4108315, 3437287, -3342277, 1735879, 203044, -549488, -3861115,
    -3043716, 3412210, -983419, 2147896, 2715295, 237124],
  [2842341, 2691481, -2590150, 1265009, 4055324, 1247620, 2486353, 1595974, -1119584, 3574422,
    -2867647, -2967645, -3693493, -411027, -2477047, -777960],
  [-3767016, 1250494, 2635921, -3548272, -2994039, 1869119, 1903435, -1050970, 2619752, 3539968,
    -300467, -671102, -1228525, -22981, -1308169, -876248],
  [-1333058, 1237275, -3318210, -1430225, -451100, 1312455, 3306115, -1962642, -2108549, 2348700,
    -539299, -381987, 1349076, 1852771, -1430430, 466468],
  [-1279661, 1917081, -2546312, -1374803, 1500165, 777191, 2235880, 3406031, -2118186, -1699267,
    -1643818, -3343383, 264944, 508951, 3097992, 1826347],
  [-542412, -2831860, -1671176, -1846953, -2584293, -3724270, 594136, -3776993, -3859737, 3505694,
    -3821735, 44288, -1100098, 904516, 3958618, 2353451],
  [-2013608, 2432395, 2454455, -164721, 1957272, 3369112, 185531, -1207385, -1399561, 3507263,
    -2140649, -3724342, -8578, 1653064, -3249728, -359251],
  [-3183426, 162844, 1616392, 3014001, 810149, 1652634, -3694233, -1799107, -3277672, -1600420,
    3699596, 2389356, -210977, 759969, -1316856, -2091905],
  [-3038916, 3523897, 3866901, 269760, 2213111, -975884, 1717735, 472078, 1757237, 811944, 531354,
    189548, -3553272, 3159746, -1851402, 3119733],
  [-426683, 1723600, -1803090, 1910376, -1667432, -1104333, -260646, -3833893, -19422, 954230,
    3881043, -2409325, -177440, 1315589, 1341330, -2884855],
  [-2939036, -2235985, -420899, -2286327, 183443, -976891, 1612842, -3545687, 4010497, 3900724,
    -2556880, 1285669, -1584928, -812732, -1439742, 3111497],
  [-554416, 3919660, -48306, -1362209, 3937738, 1400424, -846154, 1976782, 280005, 2071892,
    -2797779, -3019102, -3881060, -3628969, 3839961, 2680103]]

/-- `rvv_izeta`. -/
def rvvIzeta : Table := [
  [-1976782, 846154, -1400424, -3937738, 1362209, 48306, -3919660, 554416, -280005, 2797779,
    -2071892, -3839961, 3628969, 3881060, 3019102, 0],
  [3545687, -1612842, 976891, -183443, 2286327, 420899, 2235985, 2939036, -4010497, 2556880,
    -3900724, 1439742, 812732, 1584928, -1285669, 0],
  [3833893, 260646, 1104333, 1667432, -1910376, 1803090, -1723600, 426683, 19422, -3881043,
    -954230, -1341330, -1315589, 177440, 2409325, 0],
  [-472078, -1717735, 975884, -2213111, -269760, -3866901, -3523897, 3038916, -1757237, -531354,
    -811944, 1851402, -3159746, 3553272, -189548, 0],
  [1799107, 3694233, -1652634, -810149, -3014001, -1616392, -162844, 3183426, 3277672, -3699596,
    1600420, 1316856, -759969, 210977, -2389356, 0],
  [1207385, -185531, -3369112, -1957272, 164721, -2454455, -2432395, 2013608, 1399561, 2140649,
    -3507263, 3249728, -1653064, 8578, 3724342, 0],
  [3776993, -594136, 3724270, 2584293, 1846953, 1671176, 2831860, 542412, 3859737, 3821735,
    -3505694, -3958618, -904516, 1100098, -44288, 0],
  [-3406031, -2235880, -777191, -1500165, 1374803, 2546312, -1917081, 1279661, 2118186, 1643818,
    1699267, -3097992, -508951, -264944, 3343383, 0],
  [1962642, -3306115, -1312455, 451100, 1430225, 3318210, -1237275, 1333058, 2108549, 539299,
    -2348700, 1430430, -1852771, -1349076, 381987, 0],
  [1050970, -1903435, -1869119, 2994039, 3548272, -2635921, -1250494, 3767016, -2619752, 300467,
    -3539968, 1308169, 22981, 1228525, 671102, 0],
  [-1595974, -2486353, -1247620, -4055324, -1265009, 2590150, -2691481, -2842341, 1119584,
    2867647, -3574422, 2477047, 411027, 3693493, 2967645, 0],
  [-203044, -1735879, 3342277, -3437287, -4108315, 2437823, -286988, -342297, 549488, 3043716,
    3861115, -2715295, -2147896, 983419, -3412210, 0],
  [3595838, 768622, 525098, 3556995, -3207046, -2031748, 3122442, 655327, -3585928, -3915439,
    2537516, -126922, 3632928, 3157330, 3190144, 0],
  [522500, 43260, 1613174, -495491, -819034, -909542, -1859098, -900702, 1079900, 3592148,
    1661693, 1000202, 4083598, -1939314, 1257611, 0],
  [3193378, 1197226, 3759364, 3520352, -3513181, 1235728, -2434439, -266997, -1024112, -3530437,
    -3077325, 1585221, -2176455, -3475950, 1452451, 0],
  [3562462, 2446433, -2244091, 3342478, -3817976, -2316500, -3407706, -2091667, -2725464, -95776,
    -2706023, 3041255, 3677745, 1528703, 3930395, 0]]

/-! ## Butterflies -/

section Macros

variable {vl : ℕ}

/-- `fq_redc2`. -/
def fqRedc2 (a : Vector ℤ vl) : Chk (Vector ℤ vl) := do
  let t := vncvtXXW 32 a
  let t := vmulVX 32 t parQinv
  let a ← vsubVV 64 a (vwmulVX t parQ)
  pure (vnsraWX 32 a 32)

/-- `RVV_BFLY_FX2`. -/
def bflyFx2 (uz : ℤ) (u0 u1 : Vector ℤ vl) : Chk (Vector ℤ vl × Vector ℤ vl) := do
  let ut ← fqRedc2 (vwmulVX u1 uz)
  let u1 ← vsubVV 32 u0 ut
  let u0 ← vaddVV 32 u0 ut
  pure (u0, u1)

/-- `RVV_BFLY_FV2`. -/
def bflyFv2 (uz : Vector ℤ vl) (u0 u1 : Vector ℤ vl) : Chk (Vector ℤ vl × Vector ℤ vl) := do
  let ut ← fqRedc2 (vwmulVV u1 uz)
  let u1 ← vsubVV 32 u0 ut
  let u0 ← vaddVV 32 u0 ut
  pure (u0, u1)

/-- `RVV_BFLY_RX2`. -/
def bflyRx2 (uz : ℤ) (u0 u1 : Vector ℤ vl) : Chk (Vector ℤ vl × Vector ℤ vl) := do
  let ut ← vsubVV 32 u0 u1
  let u0 ← vaddVV 32 u0 u1
  let u1 ← fqRedc2 (vwmulVX ut uz)
  pure (u0, u1)

/-- `RVV_BFLY_RV2`. -/
def bflyRv2 (uz : Vector ℤ vl) (u0 u1 : Vector ℤ vl) : Chk (Vector ℤ vl × Vector ℤ vl) := do
  let ut ← vsubVV 32 u0 u1
  let u0 ← vaddVV 32 u0 u1
  let u1 ← fqRedc2 (vwmulVV ut uz)
  pure (u0, u1)

/-- `fq_redc2` in one lane. -/
def redcLane (a : ℤ) : Chk ℤ := do
  let d ← Chk.word 64 (a - wrap 32 (wrap 32 a * parQinv) * parQ)
  pure (wrap 32 (d / 2 ^ 32))

/-- The forward butterfly in one lane. -/
def fwdLane (z u v : ℤ) : Chk (ℤ × ℤ) := do
  let t ← redcLane (v * z)
  let hi ← Chk.word 32 (u - t)
  let lo ← Chk.word 32 (u + t)
  pure (lo, hi)

/-- The reverse butterfly in one lane. -/
def revLane (z u v : ℤ) : Chk (ℤ × ℤ) := do
  let t ← Chk.word 32 (u - v)
  let lo ← Chk.word 32 (u + v)
  let hi ← redcLane (t * z)
  pure (lo, hi)

theorem fqRedc2_eq (a : Vector ℤ vl) : fqRedc2 a = Chk.tab vl fun i => redcLane (a.rd i) := by
  refine Chk.ext (Vector.ext_rd fun i hi => ?_) (Bool.eq_iff_iff.2 ?_)
  · simp [fqRedc2, redcLane, vsubVV, vnsraWX, vncvtXXW, vmulVX, vwmulVX, hi]
  · rw [fqRedc2, Chk.ok_bind, Chk.ok_pure, Bool.and_true, vsubVV, Chk.ok_tab, Chk.ok_tab]
    exact forall₂_congr fun i hi => by
      simp [redcLane, vncvtXXW, vmulVX, vwmulVX, hi]

theorem bflyFv2_eq (uz u0 u1 : Vector ℤ vl) : bflyFv2 uz u0 u1 = laneBfly fwdLane uz.rd u0 u1 := by
  refine Chk.ext (Prod.ext (Vector.ext_rd fun i hi => ?_) (Vector.ext_rd fun i hi => ?_))
    (Bool.eq_iff_iff.2 ?_)
  · simp [bflyFv2, fqRedc2_eq, vaddVV, vwmulVV, laneBfly_fst, fwdLane, hi]
  · simp [bflyFv2, fqRedc2_eq, vsubVV, vwmulVV, laneBfly_snd, fwdLane, hi]
  · simp only [bflyFv2, fqRedc2_eq, vsubVV, vaddVV, Chk.ok_bind, Chk.ok_pure, Bool.and_true,
      Bool.and_eq_true, Chk.ok_tab, laneBfly_ok, ← forall₂_and]
    exact forall₂_congr fun i hi => by simp [fwdLane, vwmulVV, hi]

theorem bflyFx2_eq (uz : ℤ) (u0 u1 : Vector ℤ vl) :
    bflyFx2 uz u0 u1 = laneBfly fwdLane (fun _ => uz) u0 u1 := by
  refine Chk.ext (Prod.ext (Vector.ext_rd fun i hi => ?_) (Vector.ext_rd fun i hi => ?_))
    (Bool.eq_iff_iff.2 ?_)
  · simp [bflyFx2, fqRedc2_eq, vaddVV, vwmulVX, laneBfly_fst, fwdLane, hi]
  · simp [bflyFx2, fqRedc2_eq, vsubVV, vwmulVX, laneBfly_snd, fwdLane, hi]
  · simp only [bflyFx2, fqRedc2_eq, vsubVV, vaddVV, Chk.ok_bind, Chk.ok_pure, Bool.and_true,
      Bool.and_eq_true, Chk.ok_tab, laneBfly_ok, ← forall₂_and]
    exact forall₂_congr fun i hi => by simp [fwdLane, vwmulVX, hi]

theorem bflyRv2_eq (uz u0 u1 : Vector ℤ vl) : bflyRv2 uz u0 u1 = laneBfly revLane uz.rd u0 u1 := by
  refine Chk.ext (Prod.ext (Vector.ext_rd fun i hi => ?_) (Vector.ext_rd fun i hi => ?_))
    (Bool.eq_iff_iff.2 ?_)
  · simp [bflyRv2, vaddVV, laneBfly_fst, revLane, hi]
  · simp [bflyRv2, fqRedc2_eq, vsubVV, vwmulVV, laneBfly_snd, revLane, hi]
  · simp only [bflyRv2, fqRedc2_eq, vsubVV, vaddVV, Chk.ok_bind, Chk.ok_pure, Bool.and_true,
      Bool.and_eq_true, Chk.ok_tab, laneBfly_ok, ← forall₂_and]
    exact forall₂_congr fun i hi => by simp [revLane, vwmulVV, hi]

theorem bflyRx2_eq (uz : ℤ) (u0 u1 : Vector ℤ vl) :
    bflyRx2 uz u0 u1 = laneBfly revLane (fun _ => uz) u0 u1 := by
  refine Chk.ext (Prod.ext (Vector.ext_rd fun i hi => ?_) (Vector.ext_rd fun i hi => ?_))
    (Bool.eq_iff_iff.2 ?_)
  · simp [bflyRx2, vaddVV, laneBfly_fst, revLane, hi]
  · simp [bflyRx2, fqRedc2_eq, vsubVV, vwmulVX, laneBfly_snd, revLane, hi]
  · simp only [bflyRx2, fqRedc2_eq, vsubVV, vaddVV, Chk.ok_bind, Chk.ok_pure, Bool.and_true,
      Bool.and_eq_true, Chk.ok_tab, laneBfly_ok, ← forall₂_and]
    exact forall₂_congr fun i hi => by simp [revLane, vwmulVX, hi]

end Macros

/-! ## Inside a register pair -/

/-- `vector_ntt2`, less its store: the last four layers on a register pair. -/
def vectorNtt2 (v0 v1 : Vector ℤ 8) (o : ℕ) : Chk (Vector ℤ (8 + 8)) := do
  let v2p4 := bitswapPerm 32 2 3 16
  let v2p2 := bitswapPerm 32 1 3 16
  let v2p1 := bitswapPerm 32 0 3 16
  let v2p0 := vrgatherVV (vrgatherVV v2p1 v2p2) v2p4
  let vid := vidV 8
  let cs4 := vadduVX 32 (vsrlVX vid 2) 1
  let cs2 := vadduVX 32 (vsrlVX vid 1) 3
  let c8 := rvvZeta.slice o 8
  let cz := rvvZeta.slice (o + 8) 8
  let (v0, v1) ← bflyFx2 (vmvXS cz) v0 v1
  let vp := vrgatherVV (vcreateV v0 v1) v2p4
  let (v0, v1) ← bflyFv2 (vrgatherVV cz cs4) (vgetV vp 0) (vgetV vp 1)
  let vp := vrgatherVV (vcreateV v0 v1) v2p2
  let (v0, v1) ← bflyFv2 (vrgatherVV cz cs2) (vgetV vp 0) (vgetV vp 1)
  let vp := vrgatherVV (vcreateV v0 v1) v2p1
  let (v0, v1) ← bflyFv2 c8 (vgetV vp 0) (vgetV vp 1)
  pure (vrgatherVV (vcreateV v0 v1) v2p0)

/-- `vector_intt2`: the first four inverse layers on a register pair. -/
def vectorIntt2 (vp : Vector ℤ (8 + 8)) (o : ℕ) : Chk (Vector ℤ (8 + 8)) := do
  let v2p4 := bitswapPerm 32 2 3 16
  let v2p2 := bitswapPerm 32 1 3 16
  let v2p1 := bitswapPerm 32 0 3 16
  let v2pi := vrgatherVV (vrgatherVV v2p4 v2p2) v2p1
  let vid := vidV 8
  let cs4 := vadduVX 32 (vsrlVX vid 2) 1
  let cs2 := vadduVX 32 (vsrlVX vid 1) 3
  let c8 := rvvIzeta.slice o 8
  let cz := rvvIzeta.slice (o + 8) 8
  let vp := vrgatherVV vp v2pi
  let (v0, v1) ← bflyRv2 c8 (vgetV vp 0) (vgetV vp 1)
  let vp := vrgatherVV (vcreateV v0 v1) v2p1
  let (v0, v1) ← bflyRv2 (vrgatherVV cz cs2) (vgetV vp 0) (vgetV vp 1)
  let vp := vrgatherVV (vcreateV v0 v1) v2p2
  let (v0, v1) ← bflyRv2 (vrgatherVV cz cs4) (vgetV vp 0) (vgetV vp 1)
  let vp := vrgatherVV (vcreateV v0 v1) v2p4
  let (v0, v1) ← bflyRx2 (vmvXS cz) (vgetV vp 0) (vgetV vp 1)
  pure (vcreateV v0 v1)

theorem bflyFv2_bind {α : Type} (c : Vector ℤ 8) (vp : Vector ℤ (8 + 8))
    (f : Vector ℤ (8 + 8) → Chk α) :
    (bflyFv2 c (vgetV vp 0) (vgetV vp 1) >>= fun v => f (vcreateV v.1 v.2)) =
      pairStep fwdLane c.rd vp >>= f := by
  rw [pairStep, bind_map_left, bflyFv2_eq]
  rfl

theorem bflyRv2_bind {α : Type} (c : Vector ℤ 8) (vp : Vector ℤ (8 + 8))
    (f : Vector ℤ (8 + 8) → Chk α) :
    (bflyRv2 c (vgetV vp 0) (vgetV vp 1) >>= fun v => f (vcreateV v.1 v.2)) =
      pairStep revLane c.rd vp >>= f := by
  rw [pairStep, bind_map_left, bflyRv2_eq]
  rfl

theorem bflyRx2_bind {α : Type} (c : ℤ) (vp : Vector ℤ (8 + 8)) (f : Vector ℤ (8 + 8) → Chk α) :
    (bflyRx2 c (vgetV vp 0) (vgetV vp 1) >>= fun v => f (vcreateV v.1 v.2)) =
      pairStep revLane (fun _ => c) vp >>= f := by
  rw [pairStep, bind_map_left, bflyRx2_eq]
  rfl

theorem bflyFx2_bind {α : Type} (c : ℤ) (v0 v1 : Vector ℤ 8) (f : Vector ℤ (8 + 8) → Chk α) :
    (bflyFx2 c v0 v1 >>= fun v => f (vcreateV v.1 v.2)) =
      pairStep fwdLane (fun _ => c) (pair v0 v1) >>= f := by
  rw [pairStep, bind_map_left, bflyFx2_eq, slice_pair_zero, slice_pair_self]
  rfl

/-- The permutations and twiddles of `vector_ntt2`. -/
def nttSteps (o : ℕ) : List (Vector ℕ (8 + 8) × (ℕ → ℤ)) :=
  let cz := rvvZeta.slice (o + 8) 8
  [(vidV 16, fun _ => vmvXS cz),
    (bitswapPerm 32 2 3 16, (vrgatherVV cz (vadduVX 32 (vsrlVX (vidV 8) 2) 1)).rd),
    (bitswapPerm 32 1 3 16, (vrgatherVV cz (vadduVX 32 (vsrlVX (vidV 8) 1) 3)).rd),
    (bitswapPerm 32 0 3 16, (rvvZeta.slice o 8).rd)]

/-- The last four layers of `mldsa_ntt` on section `j` of half `s`. -/
def nttTail (s j : ℕ) : List (ℕ × (ℕ → ℤ)) :=
  [8, 4, 2, 1].map fun len =>
    (len, fun b => zetas.rd (128 / len + (128 / (2 * len) * s + ((8 + 8) / (2 * len) * j + b))))

/-- The permutations and twiddles of `vector_intt2`. -/
def invnttSteps (o : ℕ) : List (Vector ℕ (8 + 8) × (ℕ → ℤ)) :=
  let cz := rvvIzeta.slice (o + 8) 8
  [(vrgatherVV (vrgatherVV (bitswapPerm 32 2 3 16) (bitswapPerm 32 1 3 16))
      (bitswapPerm 32 0 3 16), (rvvIzeta.slice o 8).rd),
    (bitswapPerm 32 0 3 16, (vrgatherVV cz (vadduVX 32 (vsrlVX (vidV 8) 1) 3)).rd),
    (bitswapPerm 32 1 3 16, (vrgatherVV cz (vadduVX 32 (vsrlVX (vidV 8) 2) 1)).rd),
    (bitswapPerm 32 2 3 16, fun _ => vmvXS cz)]

/-- The first four layers of `mldsa_invntt` on section `j` of half `s`. -/
def invnttHead (s j : ℕ) : List (ℕ × (ℕ → ℤ)) :=
  [1, 2, 4, 8].map fun len => (len, fun b =>
    -zetas.rd (256 / len - 1 - (128 / (2 * len) * s + ((8 + 8) / (2 * len) * j + b))))

/-- **The vector steps are the layers**: their permutations bring the partners together,
and their lanes hold the twiddles. -/
theorem steps_meet (o s j : ℕ) :
    Meets (vidV (8 + 8)) ((nttSteps o).map Prod.fst) ((nttTail s j).map Prod.fst)
        (vrgatherVV (vrgatherVV (bitswapPerm 32 2 3 16) (bitswapPerm 32 1 3 16))
          (bitswapPerm 32 0 3 16)) ∧
      Meets (vidV (8 + 8)) ((invnttSteps o).map Prod.fst) ((invnttHead s j).map Prod.fst)
        (vidV (8 + 8)) := by
  simp only [nttSteps, nttTail, invnttSteps, invnttHead, List.map_cons, List.map_nil]
  decide +kernel

theorem steps_twiddled : ∀ s < 2, ∀ j < 8,
    Twiddled (vidV (8 + 8)) (nttSteps (128 * s + 16 * j)) (nttTail s j) ∧
      Twiddled (vidV (8 + 8)) (invnttSteps (128 * s + 16 * j)) (invnttHead s j) := by
  decide +kernel

theorem gather_vidV {α : Type} [Inhabited α] {n : ℕ} (x : Vector α n) : gather x (vidV n) = x :=
  gather_id x _ fun i hi => by simp [vidV, hi]

theorem vectorNtt2_eq_steps (v0 v1 : Vector ℤ 8) (o : ℕ) :
    vectorNtt2 v0 v1 o =
      permSteps fwdLane (nttSteps o) (gather (pair v0 v1) (vidV (8 + 8))) >>= fun x =>
        pure (vrgatherVV x (vrgatherVV (vrgatherVV (bitswapPerm 32 0 3 16)
          (bitswapPerm 32 1 3 16)) (bitswapPerm 32 2 3 16))) := by
  simp only [permSteps, nttSteps, gather_vidV, bind_assoc, pure_bind, ← bflyFx2_bind,
    ← bflyFv2_bind]
  rfl

/-- `vector_ntt2` runs the last four layers on its section. -/
theorem vectorNtt2_eq (v0 v1 : Vector ℤ 8) {s j : ℕ} (hs : s < 2) (hj : j < 8) :
    vectorNtt2 v0 v1 (128 * s + 16 * j) =
      (nttTail s j).foldlM (fun x l => layerChk l.1 (fun b => fwdLane (l.2 b)) x) (pair v0 v1) := by
  rw [vectorNtt2_eq_steps, permSteps_eq _ (steps_meet _ s j).1 (steps_twiddled s hs j hj).1,
    bind_map_left]
  refine (bind_pure_comp _ _).trans ((congrArg (· <$> _) (funext fun y => ?_)).trans (id_map' _))
  rw [vrgatherVV, gather_gather _ _ _ (by decide +kernel)]
  exact gather_id y _ (by decide +kernel)

/-- `vector_intt2` runs the first four inverse layers on its section. -/
theorem vectorIntt2_eq (vp : Vector ℤ (8 + 8)) {s j : ℕ} (hs : s < 2) (hj : j < 8) :
    vectorIntt2 vp (128 * s + 16 * j) =
      (invnttHead s j).foldlM (fun x l => layerChk l.1 (fun b => revLane (l.2 b)) x) vp := by
  have h : ∀ o, vectorIntt2 vp o = permSteps revLane (invnttSteps o)
      (gather vp (vidV (8 + 8))) := by
    intro o
    simp only [permSteps, invnttSteps, gather_vidV, ← bflyRv2_bind, ← bflyRx2_bind]
    rfl
  rw [h, permSteps_eq _ (steps_meet _ s j).2 (steps_twiddled s hs j hj).2]
  simp only [gather_vidV, id_map']

/-! ## The transforms -/

/-- The butterflies between the sixteen registers of `mldsa_ntt`, on the half
that starts at `i`. -/
def nttRegOps (i : ℕ) : List (Op ℤ) :=
  let zeta := rvvZeta.rd (0x2f + (i >>> 3))
  [⟨0, 8, zeta⟩, ⟨1, 9, zeta⟩, ⟨2, 10, zeta⟩, ⟨3, 11, zeta⟩,
    ⟨4, 12, zeta⟩, ⟨5, 13, zeta⟩, ⟨6, 14, zeta⟩, ⟨7, 15, zeta⟩] ++
  (let zeta := rvvZeta.rd (0x4f + (i >>> 2))
  [⟨0, 4, zeta⟩, ⟨1, 5, zeta⟩, ⟨2, 6, zeta⟩, ⟨3, 7, zeta⟩]) ++
  (let zeta := rvvZeta.rd (0x5f + (i >>> 2))
  [⟨8, 12, zeta⟩, ⟨9, 13, zeta⟩, ⟨10, 14, zeta⟩, ⟨11, 15, zeta⟩]) ++
  (let zeta := rvvZeta.rd (0x8f + (i >>> 1))
  [⟨0, 2, zeta⟩, ⟨1, 3, zeta⟩]) ++
  (let zeta := rvvZeta.rd (0x9f + (i >>> 1))
  [⟨4, 6, zeta⟩, ⟨5, 7, zeta⟩]) ++
  (let zeta := rvvZeta.rd (0xaf + (i >>> 1))
  [⟨8, 10, zeta⟩, ⟨9, 11, zeta⟩]) ++
  (let zeta := rvvZeta.rd (0xbf + (i >>> 1))
  [⟨12, 14, zeta⟩, ⟨13, 15, zeta⟩])

/-- The butterflies between the sixteen registers of `mldsa_invntt`, on the half
that starts at `i`. -/
def invnttRegOps (i : ℕ) : List (Op ℤ) :=
  let g16 := i >>> 5
  let g32 := i >>> 6
  (let zeta := -zetas.rd (15 - g16)
  [⟨0, 2, zeta⟩, ⟨1, 3, zeta⟩]) ++
  (let zeta := -zetas.rd (15 - (g16 + 1))
  [⟨4, 6, zeta⟩, ⟨5, 7, zeta⟩]) ++
  (let zeta := -zetas.rd (15 - (g16 + 2))
  [⟨8, 10, zeta⟩, ⟨9, 11, zeta⟩]) ++
  (let zeta := -zetas.rd (15 - (g16 + 3))
  [⟨12, 14, zeta⟩, ⟨13, 15, zeta⟩]) ++
  (let zeta := -zetas.rd (7 - g32)
  [⟨0, 4, zeta⟩, ⟨1, 5, zeta⟩, ⟨2, 6, zeta⟩, ⟨3, 7, zeta⟩]) ++
  (let zeta := -zetas.rd (7 - (g32 + 1))
  [⟨8, 12, zeta⟩, ⟨9, 13, zeta⟩, ⟨10, 14, zeta⟩, ⟨11, 15, zeta⟩]) ++
  (let zeta := -zetas.rd (3 - (i >>> 7))
  [⟨0, 8, zeta⟩, ⟨1, 9, zeta⟩, ⟨2, 10, zeta⟩, ⟨3, 11, zeta⟩,
    ⟨4, 12, zeta⟩, ⟨5, 13, zeta⟩, ⟨6, 14, zeta⟩, ⟨7, 15, zeta⟩])

/-- `mldsa_ntt` of the vector build. -/
def rvvNtt (a : Vector ℤ 256) : Chk (Vector ℤ 256) := do
  let zeta := rvvZeta.rd 0x1f
  let a ← (List.range 16).foldlM (fun a j => do
    let (v0, v1) ← bflyFx2 zeta (a.slice (8 * j) 8) (a.slice (8 * j + 128) 8)
    pure ((a.splice (8 * j) v0).splice (8 * j + 128) v1)) a
  (List.range 2).foldlM (fun a s => do
    let i := 128 * s
    let v : Vector (Vector ℤ 8) 16 := Vector.tab 16 fun r => a.slice (i + 8 * r) 8
    let v ← run bflyFx2 (nttRegOps i) v
    (List.range 8).foldlM (fun a j => do
      let o := i + 16 * j
      let vp ← vectorNtt2 (v.rd (2 * j)) (v.rd (2 * j + 1)) o
      pure (a.splice o vp)) a) a

/-- `mldsa_invntt` of the vector build. -/
def rvvInvntt (a : Vector ℤ 256) : Chk (Vector ℤ 256) := do
  let a ← (List.range 2).foldlM (fun a s => do
    let i := 128 * s
    let vps ← Chk.tab 8 fun j => vectorIntt2 (a.slice (i + 16 * j) (8 + 8)) (i + 16 * j)
    let v : Vector (Vector ℤ 8) 16 := Vector.tab 16 fun r => vgetV (vps.rd (r / 2)) (r % 2)
    let v ← run bflyRx2 (invnttRegOps i) v
    pure ((List.range 16).foldl (fun a r => a.splice (i + 8 * r) (v.rd r)) a)) a
  let zeta := -zetas.rd 1
  (List.range 16).foldlM (fun a j => do
    let (v0, v1) ← bflyRx2 zeta (a.slice (8 * j) 8) (a.slice (8 * j + 128) 8)
    let v0 ← fqRedc2 (vwmulVX v0 41978)
    let v1 ← fqRedc2 (vwmulVX v1 41978)
    pure ((a.splice (8 * j) v0).splice (8 * j + 128) v1)) a

/-! ## Layers -/

/-- The layers of the vector `mldsa_ntt`. -/
def rvvNttLayer (len : ℕ) (a : Vector ℤ 256) : Chk (Vector ℤ 256) :=
  layerChk len (fun b => fwdLane (zetas.rd (128 / len + b))) a

theorem run_bflyFx2 {m : ℕ} (ops : List (Op ℤ)) (v : Vector (Vector ℤ 8) m) :
    run bflyFx2 ops v = run (fun z => laneBfly fwdLane fun _ => z) ops v := by
  have h : (bflyFx2 : ℤ → Vector ℤ 8 → Vector ℤ 8 → _) = fun z => laneBfly fwdLane fun _ => z :=
    funext fun z => funext fun u => funext fun v => bflyFx2_eq z u v
  rw [h]

theorem run_bflyRx2 {m : ℕ} (ops : List (Op ℤ)) (v : Vector (Vector ℤ 8) m) :
    run bflyRx2 ops v = run (fun z => laneBfly revLane fun _ => z) ops v := by
  have h : (bflyRx2 : ℤ → Vector ℤ 8 → Vector ℤ 8 → _) = fun z => laneBfly revLane fun _ => z :=
    funext fun z => funext fun u => funext fun v => bflyRx2_eq z u v
  rw [h]

/-- **The register butterflies are layers**, between the registers and at the top. -/
theorem regOps_layers :
    (∀ s < 2, RegLayers 16 (nttRegOps (128 * s)) ([8, 4, 2].map fun d =>
      (d, fun b => zetas.rd (128 / (8 * d) + (128 / (2 * (8 * d)) * s + b))))) ∧
    (∀ s < 2, RegLayers 16 (invnttRegOps (128 * s)) ([2, 4, 8].map fun d =>
      (d, fun b => -zetas.rd (256 / (8 * d) - 1 - (128 / (2 * (8 * d)) * s + b))))) ∧
    IsLayer 32 16 (fun b => zetas.rd (128 / 128 + b))
      ((List.range 16).map fun j => ⟨j, j + 16, rvvZeta.rd 0x1f⟩) ∧
    IsLayer 32 16 (fun b => -zetas.rd (256 / 128 - 1 - b))
      ((List.range 16).map fun j => ⟨j, j + 16, -zetas.rd 1⟩) := by
  decide +kernel

/-- The three layers of `mldsa_ntt` between the registers of half `s`. -/
theorem run_nttRegOps {s : ℕ} (hs : s < 2) (x : Vector ℤ 128) :
    run bflyFx2 (nttRegOps (128 * s)) (toRegs 8 16 x) =
      toRegs 8 16 <$> [64, 32, 16].foldlM (fun x len =>
        layerChk len (fun b => fwdLane (zetas.rd (128 / len + (128 / (2 * len) * s + b)))) x) x := by
  rw [run_bflyFx2, run_regLayers fwdLane rfl (by norm_num) (regOps_layers.1 s hs)]
  rfl

/-- The three layers of `mldsa_invntt` between the registers of half `s`. -/
theorem run_invnttRegOps {s : ℕ} (hs : s < 2) (x : Vector ℤ 128) :
    run bflyRx2 (invnttRegOps (128 * s)) (toRegs 8 16 x) =
      toRegs 8 16 <$> [16, 32, 64].foldlM (fun x len => layerChk len
        (fun b => revLane (-zetas.rd (256 / len - 1 - (128 / (2 * len) * s + b)))) x) x := by
  rw [run_bflyRx2, run_regLayers revLane rfl (by norm_num) (regOps_layers.2.1 s hs)]
  rfl

/-- The pair of registers that `vector_ntt2` is given. -/
theorem pair_toRegs {j : ℕ} (hj : j < 8) (x : Vector ℤ 128) :
    pair ((toRegs 8 16 x).rd (2 * j)) ((toRegs 8 16 x).rd (2 * j + 1)) =
      x.slice (16 * j) (8 + 8) := by
  refine Vector.ext_rd fun i hi => ?_
  rw [rd_toRegs _ (by omega), rd_toRegs _ (by omega), pair, Vector.rd_tab _ hi,
    Vector.rd_slice _ _ hi]
  split
  · rw [Vector.rd_slice _ _ (by omega)]
    congr 1
    omega
  · rw [Vector.rd_slice _ _ (by omega)]
    congr 1
    omega

/-- The registers that the calls of `vector_intt2` leave. -/
theorem vgetV_toRegs (v : Vector (Vector ℤ (8 + 8)) 8) :
    (Vector.tab 16 fun r => vgetV (v.rd (r / 2)) (r % 2)) = toRegs 8 16 (ofRegs 128 v) := by
  refine Vector.ext_rd fun r hr => Vector.ext_rd fun l hl => ?_
  rw [Vector.rd_tab _ hr, vgetV, Vector.rd_slice _ _ hl, rd_toRegs _ hr, Vector.rd_slice _ _ hl,
    show 8 * r + l = (8 + 8) * (r / 2) + (8 * (r % 2) + l) by omega,
    rd_ofRegs (show 128 = (8 + 8) * 8 from rfl) _ (by omega) (by omega)]

/-- One half of `mldsa_ntt`, between its load and its stores. -/
theorem nttHalf_eq {s : ℕ} (hs : s < 2) (x : Vector ℤ 128) :
    (run bflyFx2 (nttRegOps (128 * s)) (toRegs 8 16 x) >>= fun v =>
        ofRegs 128 <$> Chk.tab 8 fun j =>
          vectorNtt2 (v.rd (2 * j)) (v.rd (2 * j + 1)) (128 * s + 16 * j)) =
      [64, 32, 16, 8, 4, 2, 1].foldlM (fun x len => layerChk len
        (fun b => fwdLane (zetas.rd (128 / len + (128 / (2 * len) * s + b)))) x) x := by
  rw [run_nttRegOps hs, bind_map_left,
    show [64, 32, 16, 8, 4, 2, 1] = [64, 32, 16] ++ [8, 4, 2, 1] from rfl, List.foldlM_append]
  refine congrArg _ (funext fun y => ?_)
  rw [← sections_layers (show 128 = (8 + 8) * 8 from rfl) (by norm_num) _ _ (by decide), sections]
  refine congrArg _ (Chk.tab_congr fun j hj => ?_)
  rw [vectorNtt2_eq _ _ hs hj, pair_toRegs hj]
  rfl

/-- One half of `mldsa_invntt`, between its loads and its stores. -/
theorem invnttHalf_eq {s : ℕ} (hs : s < 2) (x : Vector ℤ 128) :
    ((Chk.tab 8 fun j => vectorIntt2 (x.slice (16 * j) (8 + 8)) (128 * s + 16 * j)) >>= fun vps =>
        ofRegs 128 <$> run bflyRx2 (invnttRegOps (128 * s))
          (Vector.tab 16 fun r => vgetV (vps.rd (r / 2)) (r % 2))) =
      [1, 2, 4, 8, 16, 32, 64].foldlM (fun x len => layerChk len
        (fun b => revLane (-zetas.rd (256 / len - 1 - (128 / (2 * len) * s + b)))) x) x := by
  rw [show [1, 2, 4, 8, 16, 32, 64] = [1, 2, 4, 8] ++ [16, 32, 64] from rfl, List.foldlM_append,
    ← sections_layers (show 128 = (8 + 8) * 8 from rfl) (by norm_num) _ _ (by decide), sections,
    bind_map_left]
  have hhead : ∀ j < 8, vectorIntt2 (x.slice (16 * j) (8 + 8)) (128 * s + 16 * j) =
      [1, 2, 4, 8].foldlM (fun x len => layerChk len (fun b => revLane (-zetas.rd
        (256 / len - 1 - (128 / (2 * len) * s + ((8 + 8) / (2 * len) * j + b))))) x)
        (x.slice (16 * j) (8 + 8)) := fun j hj => vectorIntt2_eq _ hs hj
  rw [Chk.tab_congr hhead]
  refine congrArg _ (funext fun vps => ?_)
  rw [vgetV_toRegs, run_invnttRegOps hs, Functor.map_map]
  simp only [ofRegs_toRegs (show 128 = 8 * 16 from rfl) (by norm_num), id_map']

/-- The registers of half `s`, loaded one by one. -/
theorem toRegs_slice (a : Vector ℤ 256) (o : ℕ) :
    (Vector.tab 16 fun r => a.slice (o + 8 * r) 8) = toRegs 8 16 (a.slice o 128) :=
  Vector.tab_congr fun r hr => (Vector.slice_slice a (by omega)).symm

/-- The top layer of `mldsa_ntt`, through memory. -/
theorem nttTop_eq (a : Vector ℤ 256) :
    ((List.range 16).foldlM (fun (a : Vector ℤ 256) j => do
      let (v0, v1) ← bflyFx2 (rvvZeta.rd 0x1f) (a.slice (8 * j) 8) (a.slice (8 * j + 128) 8)
      pure ((a.splice (8 * j) v0).splice (8 * j + 128) v1)) a) = rvvNttLayer 128 a := by
  have h := memRun_isLayer (show 256 = 8 * 32 from rfl) (by norm_num) (by norm_num)
    (by norm_num) fwdLane regOps_layers.2.2.1 a
  rw [memRun, List.foldlM_map] at h
  simp only [← bflyFx2_eq, mul_add, Nat.reduceMul] at h
  exact h

/-- The loop over the halves in `mldsa_ntt`. -/
theorem nttHalves_eq (a : Vector ℤ 256) :
    ((List.range 2).foldlM (fun (a : Vector ℤ 256) s => do
      let v ← run bflyFx2 (nttRegOps (128 * s))
        (Vector.tab 16 fun r => a.slice (128 * s + 8 * r) 8)
      (List.range 8).foldlM (fun a j => do
        let vp ← vectorNtt2 (v.rd (2 * j)) (v.rd (2 * j + 1)) (128 * s + 16 * j)
        pure (a.splice (128 * s + 16 * j) vp)) a) a) =
      [64, 32, 16, 8, 4, 2, 1].foldlM (fun a len => rvvNttLayer len a) a := by
  have hlayers := sections_layers (show 256 = 128 * 2 from rfl) (by norm_num)
    (fun len b => fwdLane (zetas.rd (128 / len + b))) [64, 32, 16, 8, 4, 2, 1]
    (by decide) a
  rw [← foldlM_sections rfl (by norm_num)] at hlayers
  refine (Chk.foldlM_range_congr (fun s hs a => ?_) a).trans hlayers
  rw [← nttHalf_eq hs, toRegs_slice, bind_assoc]
  refine congrArg _ (funext fun v => ?_)
  rw [bind_map_left]
  exact (foldlM_splice (128 * s) (fun j _ => vectorNtt2 (v.rd (2 * j)) (v.rd (2 * j + 1))
    (128 * s + 16 * j)) (by norm_num) (show 128 * s + (8 + 8) * 8 ≤ 256 by omega) a).trans
    (bind_pure_comp _ _).symm

/-- **The vector `mldsa_ntt` is the eight layers.** -/
theorem rvvNtt_eq (a : Vector ℤ 256) :
    rvvNtt a = [128, 64, 32, 16, 8, 4, 2, 1].foldlM (fun a len => rvvNttLayer len a) a := by
  rw [rvvNtt, nttTop_eq, List.foldlM_cons]
  exact congrArg _ (funext fun a' => nttHalves_eq a')

/-- The last inverse butterfly in one lane, with the scaling by `mont^2/256`. -/
def revScaleLane (z u v : ℤ) : Chk (ℤ × ℤ) := do
  let p ← revLane z u v
  let lo ← redcLane (p.1 * 41978)
  let hi ← redcLane (p.2 * 41978)
  pure (lo, hi)

/-- The layers of the vector `mldsa_invntt`. -/
def rvvInvnttLayer (len : ℕ) (a : Vector ℤ 256) : Chk (Vector ℤ 256) :=
  layerChk len (fun b => revLane (-zetas.rd (256 / len - 1 - b))) a

/-- The loop over the halves in `mldsa_invntt`. -/
theorem invnttHalves_eq (a : Vector ℤ 256) :
    ((List.range 2).foldlM (fun (a : Vector ℤ 256) s => do
      let vps ← Chk.tab 8 fun j =>
        vectorIntt2 (a.slice (128 * s + 16 * j) (8 + 8)) (128 * s + 16 * j)
      let v ← run bflyRx2 (invnttRegOps (128 * s))
        (Vector.tab 16 fun r => vgetV (vps.rd (r / 2)) (r % 2))
      pure ((List.range 16).foldl (fun a r => a.splice (128 * s + 8 * r) (v.rd r)) a)) a) =
      [1, 2, 4, 8, 16, 32, 64].foldlM (fun a len => rvvInvnttLayer len a) a := by
  have hlayers := sections_layers (show 256 = 128 * 2 from rfl) (by norm_num)
    (fun len b => revLane (-zetas.rd (256 / len - 1 - b))) [1, 2, 4, 8, 16, 32, 64]
    (by decide) a
  rw [← foldlM_sections rfl (by norm_num)] at hlayers
  refine (Chk.foldlM_range_congr (fun s hs a => ?_) a).trans hlayers
  have hslice : ∀ j < 8, vectorIntt2 (a.slice (128 * s + 16 * j) (8 + 8)) (128 * s + 16 * j) =
      vectorIntt2 ((a.slice (128 * s) 128).slice (16 * j) (8 + 8)) (128 * s + 16 * j) :=
    fun j hj => by rw [Vector.slice_slice a (by omega)]
  rw [← invnttHalf_eq hs, bind_assoc, Chk.tab_congr hslice]
  refine congrArg _ (funext fun vps => ?_)
  rw [bind_map_left]
  refine congrArg _ (funext fun v => congrArg pure ?_)
  exact foldl_splice (128 * s) (by norm_num) (show 128 * s + 8 * 16 ≤ 256 by omega) v a

theorem bflyRx2_scale {vl : ℕ} (uz : ℤ) (u0 u1 : Vector ℤ vl) :
    (do
      let (v0, v1) ← bflyRx2 uz u0 u1
      let v0 ← fqRedc2 (vwmulVX v0 41978)
      let v1 ← fqRedc2 (vwmulVX v1 41978)
      pure (v0, v1)) = laneBfly revScaleLane (fun _ => uz) u0 u1 := by
  rw [bflyRx2_eq]
  refine Chk.ext (Prod.ext (Vector.ext_rd fun i hi => ?_) (Vector.ext_rd fun i hi => ?_))
    (Bool.eq_iff_iff.2 ?_)
  · simp [fqRedc2_eq, vwmulVX, laneBfly_fst, revScaleLane, hi]
  · simp [fqRedc2_eq, vwmulVX, laneBfly_snd, revScaleLane, hi]
  · simp only [fqRedc2_eq, Chk.ok_bind, Chk.ok_pure, Bool.and_true,
      Bool.and_eq_true, Chk.ok_tab, laneBfly_ok, ← forall₂_and]
    exact forall₂_congr fun i hi => by
      simp [revScaleLane, vwmulVX, laneBfly_fst, laneBfly_snd, hi]

/-- The bottom layer of `mldsa_invntt`, through memory. -/
theorem invnttTop_eq (a : Vector ℤ 256) :
    ((List.range 16).foldlM (fun (a : Vector ℤ 256) j => do
      let (v0, v1) ← bflyRx2 (-zetas.rd 1) (a.slice (8 * j) 8) (a.slice (8 * j + 128) 8)
      let v0 ← fqRedc2 (vwmulVX v0 41978)
      let v1 ← fqRedc2 (vwmulVX v1 41978)
      pure ((a.splice (8 * j) v0).splice (8 * j + 128) v1)) a) =
      layerChk 128 (fun b => revScaleLane (-zetas.rd (256 / 128 - 1 - b))) a := by
  have h := memRun_isLayer (show 256 = 8 * 32 from rfl) (by norm_num) (by norm_num)
    (by norm_num) revScaleLane regOps_layers.2.2.2 a
  rw [memRun, List.foldlM_map] at h
  simp only [← bflyRx2_scale, mul_add, Nat.reduceMul, bind_assoc, pure_bind] at h
  exact h

/-- **The vector `mldsa_invntt` is the eight layers**, the last of them with the
scaling. -/
theorem rvvInvntt_eq (a : Vector ℤ 256) :
    rvvInvntt a = [1, 2, 4, 8, 16, 32, 64].foldlM (fun a len => rvvInvnttLayer len a) a >>=
      layerChk 128 (fun b => revScaleLane (-zetas.rd (256 / 128 - 1 - b))) := by
  rw [rvvInvntt, ← invnttHalves_eq]
  refine congrArg _ (funext fun a' => ?_)
  rw [invnttTop_eq]

/-! ## The same coefficients -/

theorem redcLane_val (x : ℤ) : (redcLane x).val = (Chk.word 64 x >>= montgomeryReduce).val := by
  simp only [redcLane, montgomeryReduce, Chk.val_bind, Chk.val_word, Chk.val_pure,
    wrap_wrap (show 32 ≤ 64 by norm_num), wrap_sub_wrap]

theorem fwdLane_val (z u v : ℤ) : (fwdLane z u v).val = (nttBfly z u v).val := by
  simp only [fwdLane, nttBfly, Chk.val_bind, Chk.val_word, Chk.val_pure, redcLane_val,
    mul_comm v z]

theorem revLane_val (z u v : ℤ) : (revLane z u v).val = (invnttBfly z u v).val := by
  simp only [revLane, invnttBfly, Chk.val_bind, Chk.val_word, Chk.val_pure, redcLane_val,
    mul_comm z]

theorem rvvNtt_val (a : Vector ℤ 256) : (rvvNtt a).val = (mldsaNtt a).val := by
  rw [rvvNtt_eq, mldsaNtt_eq]
  exact val_layers_congr (fun _ _ u v => fwdLane_val _ u v) _ a

/-- Scaling every entry after a layer is scaling in the butterflies. -/
theorem layer_scale (len : ℕ) (bf : ℕ → ℤ → ℤ → ℤ × ℤ) (f : ℤ → ℤ) (x : ℕ → ℤ) (k : ℕ) :
    layer len (fun b u v => (f (bf b u v).1, f (bf b u v).2)) x k = f (layer len bf x k) := by
  unfold layer
  split <;> rfl

theorem rvvInvntt_val (a : Vector ℤ 256) : (rvvInvntt a).val = (mldsaInvntt a).val := by
  have hhead : ([1, 2, 4, 8, 16, 32, 64].foldlM (fun a len => rvvInvnttLayer len a) a).val =
      ([1, 2, 4, 8, 16, 32, 64].foldlM (fun a len => invnttLayer len a) a).val :=
    val_layers_congr (fun _ _ u v => revLane_val _ u v) _ a
  have htail : [1, 2, 4, 8, 16, 32, 64, 128].foldlM (fun a len => invnttLayer len a) a =
      [1, 2, 4, 8, 16, 32, 64].foldlM (fun a len => invnttLayer len a) a >>= invnttLayer 128 := by
    rw [show [1, 2, 4, 8, 16, 32, 64, 128] = [1, 2, 4, 8, 16, 32, 64] ++ [128] from rfl,
      List.foldlM_append]
    exact congrArg _ (funext fun a => bind_pure _)
  rw [rvvInvntt_eq, mldsaInvntt_eq, htail]
  simp only [Chk.val_bind, hhead, Chk.val_tab]
  set y := ([1, 2, 4, 8, 16, 32, 64].foldlM (fun a len => invnttLayer len a) a).val
  refine Vector.tab_congr fun k hk => ?_
  have hbf : ∀ z u v, (revScaleLane z u v).val =
      ((invnttScale (invnttBfly z u v).val.1).val, (invnttScale (invnttBfly z u v).val.2).val) := by
    intro z u v
    simp only [revScaleLane, invnttScale, Chk.val_bind, Chk.val_pure, redcLane_val, revLane_val,
      mul_comm _ (41978 : ℤ)]
  simp only [hbf]
  rw [layer_scale 128 (fun b u v => (invnttBfly _ u v).val) (fun x => (invnttScale x).val),
    invnttLayer, val_layerChk, Vector.rd_tab _ hk]

/-- **The vector transforms are bit-identical to the scalar ones.** -/
theorem rvv_transforms_val (a : Vector ℤ 256) :
    (rvvNtt a).val = (mldsaNtt a).val ∧ (rvvInvntt a).val = (mldsaInvntt a).val :=
  ⟨rvvNtt_val a, rvvInvntt_val a⟩

end Mldsa
