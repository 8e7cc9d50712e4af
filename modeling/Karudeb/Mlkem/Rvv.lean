import Karudeb.Lib.Rvv
import Karudeb.Mlkem.Ntt

/-!
# ML-KEM: the vector transform

`rvv_poly.c`: the transforms and the coefficientwise operations of the vector
build, on registers of sixteen lanes.  A polynomial is a bank of sixteen
registers; four layers run between registers and the last three inside register
pairs that are permuted on the way.

* `rvvPolyNtt_eq`, `rvvPolyInvntt_eq` : the programs are the same seven layers as
  the scalar ones, with the butterflies of the vector unit and a normalization.
-/

namespace Mlkem

open Word Butterfly Rvv

/-! ## Tables -/

/-- `zeta` of `mlkem_poly_ntt`. -/
def rvvZeta : Table := [
  [-1044, -758, 573, -1325, 1223, 652, -552, 1015, -1103, 430, 555, 843, -1251, 871, 1550, 105],
  [-359, -1517, 264, 383, -1293, 1491, -282, -1544, 422, 587, 177, -235, -291, -460, 1574, 1653],
  [1493, 1422, -829, 1458, 516, -8, -320, -666, -246, 778, 1159, -147, -777, 1483, -602, 1119],
  [287, 202, -1602, -130, -1618, -1162, 126, 1469, -1590, 644, -872, 349, 418, 329, -156, -75],
  [-171, 622, -681, 1017, -853, -90, -271, 830, 817, 1097, 603, 610, 1322, -1285, -1465, 384],
  [1577, 182, 732, 608, 107, -1421, -247, -951, -1215, -136, 1218, -1335, -874, 220, -1187, -1659],
    [962, -1202, -1542, 411, -398, 961, -1508, -725, -1185, -1530, -1278, 794, -1510, -854, -870,
    478],
  [-1474, 1468, -205, -1571, 448, -1065, 677, -1275, -108, -308, 996, 991, 958, -1460, 1522, 1628]]

/-- `izeta` of `mlkem_poly_invntt_tomont`. -/
def rvvIzeta : Table := [
  [-1044, 758, 1571, 205, 1275, -677, 1065, -448, -1628, -1522, 1460, -958, -991, -996, 308, 108],
  [1517, 359, -411, 1542, 725, 1508, -961, 398, -478, 870, 854, 1510, -794, 1278, 1530, 1185],
  [-202, -287, -608, -732, 951, 247, 1421, -107, 1659, 1187, -220, 874, 1335, -1218, 136, 1215],
  [-1422, -1493, -1017, 681, -830, 271, 90, 853, -384, 1465, 1285, -1322, -610, -603, -1097, -817],
  [-1468, 1474, 130, 1602, -1469, -126, 1162, 1618, 75, 156, -329, -418, -349, 872, -644, 1590],
  [1202, -962, -1458, 829, 666, 320, 8, -516, -1119, 602, -1483, 777, 147, -1159, -778, 246],
  [-182, -1577, -383, -264, 1544, 282, -1491, 1293, -1653, -1574, 460, 291, 235, -177, -587, -422],
  [-622, 171, 1325, -573, -1015, 552, -652, -1223, -105, -1550, -871, 1251, -843, -555, -430, 1103]]

/-- `roots` of `poly_basemul_montgomery`. -/
def rvvRoots : Table := [
    [-1044, -1103, -1044, 1103, -1044, 430, -1044, -430, -1044, 555, -1044, -555, -1044, 843, -1044,
    -843],
    [-1044, -1251, -1044, 1251, -1044, 871, -1044, -871, -1044, 1550, -1044, -1550, -1044, 105,
    -1044, -105],
    [-1044, 422, -1044, -422, -1044, 587, -1044, -587, -1044, 177, -1044, -177, -1044, -235, -1044,
    235],
    [-1044, -291, -1044, 291, -1044, -460, -1044, 460, -1044, 1574, -1044, -1574, -1044, 1653,
    -1044, -1653],
    [-1044, -246, -1044, 246, -1044, 778, -1044, -778, -1044, 1159, -1044, -1159, -1044, -147,
    -1044, 147],
    [-1044, -777, -1044, 777, -1044, 1483, -1044, -1483, -1044, -602, -1044, 602, -1044, 1119,
    -1044, -1119],
    [-1044, -1590, -1044, 1590, -1044, 644, -1044, -644, -1044, -872, -1044, 872, -1044, 349, -1044,
    -349],
    [-1044, 418, -1044, -418, -1044, 329, -1044, -329, -1044, -156, -1044, 156, -1044, -75, -1044,
    75],
    [-1044, 817, -1044, -817, -1044, 1097, -1044, -1097, -1044, 603, -1044, -603, -1044, 610, -1044,
    -610],
    [-1044, 1322, -1044, -1322, -1044, -1285, -1044, 1285, -1044, -1465, -1044, 1465, -1044, 384,
    -1044, -384],
    [-1044, -1215, -1044, 1215, -1044, -136, -1044, 136, -1044, 1218, -1044, -1218, -1044, -1335,
    -1044, 1335],
    [-1044, -874, -1044, 874, -1044, 220, -1044, -220, -1044, -1187, -1044, 1187, -1044, -1659,
    -1044, 1659],
    [-1044, -1185, -1044, 1185, -1044, -1530, -1044, 1530, -1044, -1278, -1044, 1278, -1044, 794,
    -1044, -794],
    [-1044, -1510, -1044, 1510, -1044, -854, -1044, 854, -1044, -870, -1044, 870, -1044, 478, -1044,
    -478],
    [-1044, -108, -1044, 108, -1044, -308, -1044, 308, -1044, 996, -1044, -996, -1044, 991, -1044,
    -991],
    [-1044, 958, -1044, -958, -1044, -1460, -1044, 1460, -1044, 1522, -1044, -1522, -1044, 1628,
    -1044, -1628]]

/-- `MONT_QI`, the inverse of `-parQ` modulo `2^16`. -/
abbrev montQi : ℤ := 3327

/-- `MONT_R1`, `2^16` modulo `q`. -/
abbrev montR1 : ℤ := 2285

/-- `MONT_R2`, `2^32` modulo `q`. -/
abbrev montR2 : ℤ := 1353

/-- `MONT_NR`, `2^32 / 128` modulo `q`. -/
abbrev montNr : ℤ := 1441

/-! ## Arithmetic -/

section Macros

variable {vl : ℕ}

/-- `fq_redc`. -/
def fqRedc (rh rl : Vector ℤ vl) : Chk (Vector ℤ vl) :=
  let t := vmulVX 16 rl montQi
  let t := vmulhVX 16 t parQ
  let c := vmsneVX rl 0
  vadcVVM 16 t rh c

/-- `fq_redc2`. -/
def fqRedc2 (z : Vector ℤ vl) : Chk (Vector ℤ vl) := do
  let t := vmulVX 16 (vncvtXXW 16 z) montQi
  let z ← vaddVV 32 z (vwmulVX t parQ)
  pure (vnsraWX 16 z 16)

/-- `fq_barrett`. -/
def fqBarrett (a : Vector ℤ vl) : Chk (Vector ℤ vl) := do
  let v := (2 ^ 26 + parQ / 2) / parQ
  let t := vmulhVX 16 a v
  let t ← vaddVX 16 t (2 ^ (25 - 16))
  let t := vsraVX t (26 - 16)
  let t := vmulVX 16 t parQ
  vsubVV 16 a t

/-- `fq_cadd`. -/
def fqCadd (rx : Vector ℤ vl) : Chk (Vector ℤ vl) :=
  let bn := vmsltVX rx 0
  vaddVXMu 16 bn rx rx parQ

/-- `fq_csub`. -/
def fqCsub (rx : Vector ℤ vl) : Chk (Vector ℤ vl) :=
  let bn := vmsgeVX rx parQ
  vsubVXMu 16 bn rx rx parQ

/-- `fq_mul_vv`. -/
def fqMulVV (rx ry : Vector ℤ vl) : Chk (Vector ℤ vl) :=
  let rh := vmulhVV 16 rx ry
  let rl := vmulVV 16 rx ry
  fqRedc rh rl

/-- `fq_mul_vx`. -/
def fqMulVX (rx : Vector ℤ vl) (ry : ℤ) : Chk (Vector ℤ vl) :=
  let rh := vmulhVX 16 rx ry
  let rl := vmulVX 16 rx ry
  fqRedc rh rl

/-- `fq_mulq_vx`. -/
def fqMulqVX (rx : Vector ℤ vl) (ry : ℤ) : Chk (Vector ℤ vl) := fqMulVX rx ry >>= fqCadd

/-- `RVV_BFLY_FX`. -/
def bflyFx (uc : ℤ) (u0 u1 : Vector ℤ vl) : Chk (Vector ℤ vl × Vector ℤ vl) := do
  let ut ← fqMulVX u1 uc
  let u1 ← vsubVV 16 u0 ut
  let u0 ← vaddVV 16 u0 ut
  pure (u0, u1)

/-- `RVV_BFLY_FV`. -/
def bflyFv (uc u0 u1 : Vector ℤ vl) : Chk (Vector ℤ vl × Vector ℤ vl) := do
  let ut ← fqMulVV u1 uc
  let u1 ← vsubVV 16 u0 ut
  let u0 ← vaddVV 16 u0 ut
  pure (u0, u1)

/-- `RVV_BFLY_RX`. -/
def bflyRx (uc : ℤ) (u0 u1 : Vector ℤ vl) : Chk (Vector ℤ vl × Vector ℤ vl) := do
  let ut ← vsubVV 16 u0 u1
  let u0 ← vaddVV 16 u0 u1
  let u0 ← fqCsub u0
  let u1 ← fqMulVX ut uc
  pure (u0, u1)

/-- `RVV_BFLY_RV`. -/
def bflyRv (uc u0 u1 : Vector ℤ vl) : Chk (Vector ℤ vl × Vector ℤ vl) := do
  let ut ← vsubVV 16 u0 u1
  let u0 ← vaddVV 16 u0 u1
  let u0 ← fqCsub u0
  let u1 ← fqMulVV ut uc
  pure (u0, u1)

/-! ### One lane -/

/-- `fq_mul_vv` in one lane. -/
def mulLane (x y : ℤ) : Chk ℤ :=
  Chk.word 16 (wrap 16 (wrap 16 (x * y) * montQi) * parQ / 2 ^ 16 + x * y / 2 ^ 16 +
    if wrap 16 (x * y) ≠ 0 then 1 else 0)

/-- `fq_redc2` in one lane. -/
def redcLane (z : ℤ) : Chk ℤ := do
  let s ← Chk.word 32 (z + wrap 16 (wrap 16 z * montQi) * parQ)
  pure (wrap 16 (s / 2 ^ 16))

/-- `fq_barrett` in one lane. -/
def barrettLane (a : ℤ) : Chk ℤ := do
  let t ← Chk.word 16 (a * ((2 ^ 26 + parQ / 2) / parQ) / 2 ^ 16 + 2 ^ (25 - 16))
  Chk.word 16 (a - wrap 16 (t / 2 ^ (26 - 16) * parQ))

/-- `fq_cadd` in one lane. -/
def caddLane (x : ℤ) : Chk ℤ := if x < 0 then Chk.word 16 (x + parQ) else pure x

/-- `fq_csub` in one lane. -/
def csubLane (x : ℤ) : Chk ℤ := if parQ ≤ x then Chk.word 16 (x - parQ) else pure x

/-- `fq_mulq_vx` in one lane. -/
def mulqLane (y x : ℤ) : Chk ℤ := mulLane x y >>= caddLane

/-- The forward butterfly in one lane. -/
def fwdLane (z u v : ℤ) : Chk (ℤ × ℤ) := do
  let t ← mulLane v z
  let hi ← Chk.word 16 (u - t)
  let lo ← Chk.word 16 (u + t)
  pure (lo, hi)

/-- The reverse butterfly in one lane. -/
def revLane (z u v : ℤ) : Chk (ℤ × ℤ) := do
  let t ← Chk.word 16 (u - v)
  let s ← Chk.word 16 (u + v)
  let lo ← csubLane s
  let hi ← mulLane t z
  pure (lo, hi)

theorem fqMulVV_eq (rx ry : Vector ℤ vl) :
    fqMulVV rx ry = Chk.tab vl fun i => mulLane (rx.rd i) (ry.rd i) :=
  Chk.tab_congr fun i hi => by
    simp [mulLane, vmulhVX, vmulVX, vmulVV, vmulhVV, vmsneVX, hi]

theorem fqMulVX_eq (rx : Vector ℤ vl) (ry : ℤ) :
    fqMulVX rx ry = Chk.tab vl fun i => mulLane (rx.rd i) ry :=
  Chk.tab_congr fun i hi => by
    simp [mulLane, vmulhVX, vmulVX, vmsneVX, hi]

theorem fqRedc2_eq (z : Vector ℤ vl) : fqRedc2 z = Chk.tab vl fun i => redcLane (z.rd i) := by
  refine Chk.ext (Vector.ext_rd fun i hi => ?_) (Bool.eq_iff_iff.2 ?_)
  · simp [fqRedc2, redcLane, vaddVV, vnsraWX, vncvtXXW, vmulVX, vwmulVX, hi]
  · rw [fqRedc2, Chk.ok_bind, Chk.ok_pure, Bool.and_true, vaddVV, Chk.ok_tab, Chk.ok_tab]
    exact forall₂_congr fun i hi => by
      simp [redcLane, vncvtXXW, vmulVX, vwmulVX, hi]

theorem fqCadd_eq (rx : Vector ℤ vl) : fqCadd rx = Chk.tab vl fun i => caddLane (rx.rd i) :=
  Chk.tab_congr fun i hi => by simp [caddLane, vmsltVX, hi]

theorem fqCsub_eq (rx : Vector ℤ vl) : fqCsub rx = Chk.tab vl fun i => csubLane (rx.rd i) :=
  Chk.tab_congr fun i hi => by simp [csubLane, vmsgeVX, hi]

theorem fqMulqVX_eq (rx : Vector ℤ vl) (ry : ℤ) :
    fqMulqVX rx ry = Chk.tab vl fun i => mulqLane ry (rx.rd i) := by
  unfold fqMulqVX
  rw [fqMulVX_eq, funext fqCadd_eq]
  exact Chk.tab_bind_tab vl (fun i => mulLane (rx.rd i) ry) fun _ x => caddLane x

theorem bflyFv_eq (uc u0 u1 : Vector ℤ vl) : bflyFv uc u0 u1 = laneBfly fwdLane uc.rd u0 u1 := by
  refine Chk.ext (Prod.ext (Vector.ext_rd fun i hi => ?_) (Vector.ext_rd fun i hi => ?_))
    (Bool.eq_iff_iff.2 ?_)
  · simp [bflyFv, fqMulVV_eq, vaddVV, laneBfly_fst, fwdLane, hi]
  · simp [bflyFv, fqMulVV_eq, vsubVV, laneBfly_snd, fwdLane, hi]
  · simp only [bflyFv, fqMulVV_eq, vsubVV, vaddVV, Chk.ok_bind, Chk.ok_pure, Bool.and_true,
      Bool.and_eq_true, Chk.ok_tab, laneBfly_ok, ← forall₂_and]
    exact forall₂_congr fun i hi => by simp [fwdLane, hi]

theorem bflyRv_eq (uc u0 u1 : Vector ℤ vl) : bflyRv uc u0 u1 = laneBfly revLane uc.rd u0 u1 := by
  refine Chk.ext (Prod.ext (Vector.ext_rd fun i hi => ?_) (Vector.ext_rd fun i hi => ?_))
    (Bool.eq_iff_iff.2 ?_)
  · simp [bflyRv, vaddVV, fqCsub_eq, laneBfly_fst, revLane, hi]
  · simp [bflyRv, fqMulVV_eq, vsubVV, laneBfly_snd, revLane, hi]
  · simp only [bflyRv, fqMulVV_eq, fqCsub_eq, vsubVV, vaddVV, Chk.ok_bind, Chk.ok_pure,
      Bool.and_true, Bool.and_eq_true, Chk.ok_tab, laneBfly_ok, ← forall₂_and]
    exact forall₂_congr fun i hi => by simp [revLane, hi]

/-- A product with a scalar is one with a register full of it. -/
theorem fqMulVX_splat (rx : Vector ℤ vl) (ry : ℤ) :
    fqMulVX rx ry = fqMulVV rx (Vector.tab vl fun _ => ry) := by
  rw [fqMulVX_eq, fqMulVV_eq]
  exact Chk.tab_congr fun i hi => by rw [Vector.rd_tab _ hi]

theorem bflyFx_eq (uc : ℤ) (u0 u1 : Vector ℤ vl) :
    bflyFx uc u0 u1 = laneBfly fwdLane (fun _ => uc) u0 u1 := by
  have hsplat : bflyFx uc u0 u1 = bflyFv (Vector.tab vl fun _ => uc) u0 u1 := by
    unfold bflyFx bflyFv
    rw [fqMulVX_splat]
  rw [hsplat, bflyFv_eq]
  exact laneBfly_congr _ _ _ _ fun i hi => Vector.rd_tab _ hi

theorem bflyRx_eq (uc : ℤ) (u0 u1 : Vector ℤ vl) :
    bflyRx uc u0 u1 = laneBfly revLane (fun _ => uc) u0 u1 := by
  have hsplat : bflyRx uc u0 u1 = bflyRv (Vector.tab vl fun _ => uc) u0 u1 := by
    unfold bflyRx bflyRv
    simp only [fqMulVX_splat]
  rw [hsplat, bflyRv_eq]
  exact laneBfly_congr _ _ _ _ fun i hi => Vector.rd_tab _ hi

end Macros

/-! ## Inside a register pair -/

/-- `vector_ntt2`: the last three layers on a register pair, and a normalization. -/
def vectorNtt2 (vp : Vector ℤ (16 + 16)) (cz : Vector ℤ 16) : Chk (Vector ℤ (16 + 16)) := do
  let v2p8 := bitswapPerm 16 3 4 32
  let v2p4 := bitswapPerm 16 2 4 32
  let v2p2 := bitswapPerm 16 1 4 32
  let v2p1 := vrgatherVV (vrgatherVV v2p2 v2p4) v2p8
  let vid := vidV 16
  let cs8 := vadduVX 16 (vsrlVX vid 3) 2
  let cs4 := vadduVX 16 (vsrlVX vid 2) (2 + 2)
  let cs2 := vadduVX 16 (vsrlVX vid 1) (2 + 2 + 4)
  -- swap 8
  let vp := vrgatherVV vp v2p8
  let (t0, t1) ← bflyFv (vrgatherVV cz cs8) (vgetV vp 0) (vgetV vp 1)
  -- swap 4
  let vp := vrgatherVV (vcreateV t0 t1) v2p4
  let (t0, t1) ← bflyFv (vrgatherVV cz cs4) (vgetV vp 0) (vgetV vp 1)
  -- swap 2
  let vp := vrgatherVV (vcreateV t0 t1) v2p2
  let (t0, t1) ← bflyFv (vrgatherVV cz cs2) (vgetV vp 0) (vgetV vp 1)
  -- normalize
  let t0 ← fqMulqVX t0 montR1
  let t1 ← fqMulqVX t1 montR1
  pure (vrgatherVV (vcreateV t0 t1) v2p1)

/-- `vector_intt2`: the first three inverse layers on a register pair, and a
normalization. -/
def vectorIntt2 (vp : Vector ℤ (16 + 16)) (cz : Vector ℤ 16) : Chk (Vector ℤ (16 + 16)) := do
  let v2p8 := bitswapPerm 16 3 4 32
  let v2p4 := bitswapPerm 16 2 4 32
  let v2p2 := bitswapPerm 16 1 4 32
  let v2p0 := vrgatherVV (vrgatherVV v2p8 v2p4) v2p2
  let vid := vidV 16
  let cs8 := vadduVX 16 (vsrlVX vid 3) 2
  let cs4 := vadduVX 16 (vsrlVX vid 2) (2 + 2)
  let cs2 := vadduVX 16 (vsrlVX vid 1) (2 + 2 + 4)
  -- initial permute
  let vp := vrgatherVV vp v2p0
  let (t0, t1) ← bflyRv (vrgatherVV cz cs2) (vgetV vp 0) (vgetV vp 1)
  -- swap 2
  let vp := vrgatherVV (vcreateV t0 t1) v2p2
  let (t0, t1) ← bflyRv (vrgatherVV cz cs4) (vgetV vp 0) (vgetV vp 1)
  -- swap 4
  let vp := vrgatherVV (vcreateV t0 t1) v2p4
  let (t0, t1) ← bflyRv (vrgatherVV cz cs8) (vgetV vp 0) (vgetV vp 1)
  -- swap 8
  let vp := vrgatherVV (vcreateV t0 t1) v2p8
  -- normalize
  let t0 ← fqMulqVX (vgetV vp 0) montR1
  let t1 ← fqMulqVX (vgetV vp 1) montR1
  pure (vcreateV t0 t1)

theorem bflyFv_bind {α : Type} (c : Vector ℤ 16) (vp : Vector ℤ (16 + 16))
    (f : Vector ℤ 16 × Vector ℤ 16 → Chk α) :
    (bflyFv c (vgetV vp 0) (vgetV vp 1) >>= f) =
      pairStep fwdLane c.rd vp >>= fun x => f (vgetV x 0, vgetV x 1) := by
  rw [pairStep, bind_map_left, bflyFv_eq]
  refine congrArg _ (funext fun v => ?_)
  rw [vgetV, vgetV, Nat.mul_zero, Nat.mul_one, slice_pair_zero, slice_pair_self]

theorem bflyRv_bind {α : Type} (c : Vector ℤ 16) (vp : Vector ℤ (16 + 16))
    (f : Vector ℤ 16 × Vector ℤ 16 → Chk α) :
    (bflyRv c (vgetV vp 0) (vgetV vp 1) >>= f) =
      pairStep revLane c.rd vp >>= fun x => f (vgetV x 0, vgetV x 1) := by
  rw [pairStep, bind_map_left, bflyRv_eq]
  refine congrArg _ (funext fun v => ?_)
  rw [vgetV, vgetV, Nat.mul_zero, Nat.mul_one, slice_pair_zero, slice_pair_self]

theorem vcreateV_vgetV (vp : Vector ℤ (16 + 16)) : vcreateV (vgetV vp 0) (vgetV vp 1) = vp := by
  refine Vector.ext_rd fun i hi => ?_
  rw [vcreateV, pair, Vector.rd_tab _ hi]
  split
  · rw [vgetV, Vector.rd_slice _ _ (by omega), Nat.mul_zero, Nat.zero_add]
  · rw [vgetV, Vector.rd_slice _ _ (by omega)]
    congr 1
    omega

/-- The normalization of a register pair. -/
theorem fqMulqVX_bind {α : Type} (y : ℤ) (vp : Vector ℤ (16 + 16))
    (f : Vector ℤ (16 + 16) → Chk α) :
    (do
      let t0 ← fqMulqVX (vgetV vp 0) y
      let t1 ← fqMulqVX (vgetV vp 1) y
      f (vcreateV t0 t1)) = (Chk.tab (16 + 16) fun i => mulqLane y (vp.rd i)) >>= f := by
  have h : (do
      let t0 ← fqMulqVX (vgetV vp 0) y
      let t1 ← fqMulqVX (vgetV vp 1) y
      pure (vcreateV t0 t1)) = Chk.tab (16 + 16) fun i => mulqLane y (vp.rd i) := by
    have hlo : ∀ i < 16, (vgetV vp 0).rd i = vp.rd i := fun i hi => by
      rw [vgetV, Vector.rd_slice _ _ hi, Nat.mul_zero, Nat.zero_add]
    have hhi : ∀ i < 16, (vgetV vp 1).rd i = vp.rd (16 + i) := fun i hi => by
      rw [vgetV, Vector.rd_slice _ _ hi]
    refine Chk.ext (Vector.ext_rd fun i hi => ?_) (Bool.eq_iff_iff.2 ?_)
    · simp only [fqMulqVX_eq, Chk.val_bind, Chk.val_pure, Chk.val_tab]
      rw [Vector.rd_tab _ hi, vcreateV, pair, Vector.rd_tab _ hi]
      split
      · rename_i hlt
        rw [Vector.rd_tab _ hlt, hlo i hlt]
      · obtain ⟨j, rfl⟩ := Nat.exists_eq_add_of_le (not_lt.1 ‹¬i < 16›)
        rw [Nat.add_sub_cancel_left, Vector.rd_tab _ (by omega), hhi j (by omega)]
    · simp only [fqMulqVX_eq, Chk.ok_bind, Chk.ok_pure, Bool.and_true, Bool.and_eq_true, Chk.ok_tab]
      constructor
      · rintro ⟨h0, h1⟩ i hi
        by_cases hlt : i < 16
        · rw [← hlo i hlt]
          exact h0 i hlt
        · obtain ⟨j, rfl⟩ := Nat.exists_eq_add_of_le (not_lt.1 hlt)
          rw [← hhi j (by omega)]
          exact h1 j (by omega)
      · intro h
        refine ⟨fun i hi => ?_, fun i hi => ?_⟩
        · rw [hlo i hi]
          exact h i (by omega)
        · rw [hhi i hi]
          exact h (16 + i) (by omega)
  rw [← h, bind_assoc]
  refine congrArg _ (funext fun t0 => ?_)
  rw [bind_assoc]
  exact congrArg _ (funext fun t1 => (pure_bind _ _).symm)

/-- The permutations and twiddles of `vector_ntt2`. -/
def nttSteps (cz : Vector ℤ 16) : List (Vector ℕ (16 + 16) × (ℕ → ℤ)) := [
  (bitswapPerm 16 3 4 32, (vrgatherVV cz (vadduVX 16 (vsrlVX (vidV 16) 3) 2)).rd),
  (bitswapPerm 16 2 4 32, (vrgatherVV cz (vadduVX 16 (vsrlVX (vidV 16) 2) (2 + 2))).rd),
  (bitswapPerm 16 1 4 32, (vrgatherVV cz (vadduVX 16 (vsrlVX (vidV 16) 1) (2 + 2 + 4))).rd)]

/-- The last three layers of `mlkem_ntt` on section `j`. -/
def nttTail (j : ℕ) : List (ℕ × (ℕ → ℤ)) :=
  [8, 4, 2].map fun len =>
    (len, fun b => zetas.rd (128 / len + ((16 + 16) / (2 * len) * j + b)))

/-- The permutations and twiddles of `vector_intt2`. -/
def invnttSteps (cz : Vector ℤ 16) : List (Vector ℕ (16 + 16) × (ℕ → ℤ)) := [
  (vrgatherVV (vrgatherVV (bitswapPerm 16 3 4 32) (bitswapPerm 16 2 4 32)) (bitswapPerm 16 1 4 32),
    (vrgatherVV cz (vadduVX 16 (vsrlVX (vidV 16) 1) (2 + 2 + 4))).rd),
  (bitswapPerm 16 1 4 32, (vrgatherVV cz (vadduVX 16 (vsrlVX (vidV 16) 2) (2 + 2))).rd),
  (bitswapPerm 16 2 4 32, (vrgatherVV cz (vadduVX 16 (vsrlVX (vidV 16) 3) 2)).rd)]

/-- The first three layers of `mlkem_invntt` on section `j`. -/
def invnttHead (j : ℕ) : List (ℕ × (ℕ → ℤ)) :=
  [2, 4, 8].map fun len =>
    (len, fun b => -zetas.rd (256 / len - 1 - ((16 + 16) / (2 * len) * j + b)))

/-- **The vector steps are the layers**: their permutations bring the partners together,
and their lanes hold the twiddles. -/
theorem steps_meet (cz : Vector ℤ 16) (j : ℕ) :
    Meets (vidV (16 + 16)) ((nttSteps cz).map Prod.fst) ((nttTail j).map Prod.fst)
        (vrgatherVV (vrgatherVV (bitswapPerm 16 3 4 32) (bitswapPerm 16 2 4 32))
          (bitswapPerm 16 1 4 32)) ∧
      Meets (vidV (16 + 16)) ((invnttSteps cz).map Prod.fst) ((invnttHead j).map Prod.fst)
        (bitswapPerm 16 3 4 32) := by
  simp only [nttSteps, nttTail, invnttSteps, invnttHead, List.map_cons, List.map_nil]
  decide +kernel

theorem steps_twiddled : ∀ j < 8,
    Twiddled (vidV (16 + 16)) (nttSteps (rvvZeta.slice (16 * j) 16)) (nttTail j) ∧
      Twiddled (vidV (16 + 16)) (invnttSteps (rvvIzeta.slice (16 * j) 16)) (invnttHead j) := by
  decide +kernel

theorem gather_vidV {α : Type} [Inhabited α] {n : ℕ} (x : Vector α n) : gather x (vidV n) = x :=
  gather_id x _ fun i hi => by simp [vidV, hi]

theorem vectorNtt2_eq_steps (vp : Vector ℤ (16 + 16)) (cz : Vector ℤ 16) :
    vectorNtt2 vp cz = permSteps fwdLane (nttSteps cz) (gather vp (vidV (16 + 16))) >>= fun x =>
      (Chk.tab (16 + 16) fun i => mulqLane montR1 (x.rd i)) >>= fun x =>
        pure (vrgatherVV x (vrgatherVV (vrgatherVV (bitswapPerm 16 1 4 32)
          (bitswapPerm 16 2 4 32)) (bitswapPerm 16 3 4 32))) := by
  simp only [vectorNtt2, permSteps, nttSteps, gather_vidV, bind_assoc, pure_bind, bflyFv_bind,
    vcreateV_vgetV]
  refine congrArg _ (funext fun x0 => congrArg _ (funext fun x1 => congrArg _ (funext fun x2 => ?_)))
  exact fqMulqVX_bind montR1 x2 fun x => pure (vrgatherVV x (vrgatherVV (vrgatherVV
    (bitswapPerm 16 1 4 32) (bitswapPerm 16 2 4 32)) (bitswapPerm 16 3 4 32)))

/-- `vector_ntt2` runs the last three layers on its section, and normalizes. -/
theorem vectorNtt2_eq (vp : Vector ℤ (16 + 16)) {j : ℕ} (hj : j < 8) :
    vectorNtt2 vp (rvvZeta.slice (16 * j) 16) =
      (nttTail j).foldlM (fun x l => layerChk l.1 (fun b => fwdLane (l.2 b)) x) vp >>= fun x =>
        Chk.tab (16 + 16) fun i => mulqLane montR1 (x.rd i) := by
  rw [vectorNtt2_eq_steps, permSteps_eq _ (steps_meet _ j).1 (steps_twiddled j hj).1,
    bind_map_left]
  refine congrArg _ (funext fun y => ?_)
  rw [tab_gather _ _ (by decide +kernel) (by decide +kernel), bind_map_left]
  refine (bind_pure_comp _ _).trans ((congrArg (· <$> _) (funext fun y => ?_)).trans (id_map' _))
  rw [vrgatherVV, gather_gather _ _ _ (by decide +kernel)]
  exact gather_id y _ (by decide +kernel)

/-- `vector_intt2` runs the first three inverse layers on its section, and normalizes. -/
theorem vectorIntt2_eq (vp : Vector ℤ (16 + 16)) {j : ℕ} (hj : j < 8) :
    vectorIntt2 vp (rvvIzeta.slice (16 * j) 16) =
      (invnttHead j).foldlM (fun x l => layerChk l.1 (fun b => revLane (l.2 b)) x) vp >>= fun x =>
        Chk.tab (16 + 16) fun i => mulqLane montR1 (x.rd i) := by
  have hsteps : ∀ cz, vectorIntt2 vp cz =
      permSteps revLane (invnttSteps cz) (gather vp (vidV (16 + 16))) >>= fun x =>
        Chk.tab (16 + 16) fun i => mulqLane montR1 ((vrgatherVV x (bitswapPerm 16 3 4 32)).rd i) := by
    intro cz
    simp only [vectorIntt2, permSteps, invnttSteps, gather_vidV, bind_assoc, pure_bind, bflyRv_bind,
      vcreateV_vgetV]
    refine congrArg _ (funext fun x0 => congrArg _ (funext fun x1 => congrArg _ (funext fun x2 => ?_)))
    exact (fqMulqVX_bind montR1 _ pure).trans (bind_pure _)
  rw [hsteps, permSteps_eq _ (steps_meet _ j).2 (steps_twiddled j hj).2, bind_map_left]
  refine congrArg _ (funext fun y => ?_)
  rw [vrgatherVV, gather_gather _ _ _ (by decide +kernel), gather_id _ _ (by decide +kernel)]

/-! ## The transforms -/

/-- The butterflies between the registers of `mlkem_poly_ntt`. -/
def nttRegOps : List (Op ℤ) :=
  let z := rvvZeta.rd
  [⟨0, 8, z 0x01⟩, ⟨1, 9, z 0x01⟩, ⟨2, 10, z 0x01⟩, ⟨3, 11, z 0x01⟩,
   ⟨4, 12, z 0x01⟩, ⟨5, 13, z 0x01⟩, ⟨6, 14, z 0x01⟩, ⟨7, 15, z 0x01⟩,
   ⟨0, 4, z 0x10⟩, ⟨1, 5, z 0x10⟩, ⟨2, 6, z 0x10⟩, ⟨3, 7, z 0x10⟩,
   ⟨8, 12, z 0x11⟩, ⟨9, 13, z 0x11⟩, ⟨10, 14, z 0x11⟩, ⟨11, 15, z 0x11⟩,
   ⟨0, 2, z 0x20⟩, ⟨1, 3, z 0x20⟩, ⟨4, 6, z 0x21⟩, ⟨5, 7, z 0x21⟩,
   ⟨8, 10, z 0x30⟩, ⟨9, 11, z 0x30⟩, ⟨12, 14, z 0x31⟩, ⟨13, 15, z 0x31⟩,
   ⟨0, 1, z 0x40⟩, ⟨2, 3, z 0x41⟩, ⟨4, 5, z 0x50⟩, ⟨6, 7, z 0x51⟩,
   ⟨8, 9, z 0x60⟩, ⟨10, 11, z 0x61⟩, ⟨12, 13, z 0x70⟩, ⟨14, 15, z 0x71⟩]

/-- The butterflies between the registers of `mlkem_poly_invntt_tomont`. -/
def invnttRegOps : List (Op ℤ) :=
  let z := rvvIzeta.rd
  [⟨0, 1, z 0x40⟩, ⟨2, 3, z 0x41⟩, ⟨4, 5, z 0x50⟩, ⟨6, 7, z 0x51⟩,
   ⟨8, 9, z 0x60⟩, ⟨10, 11, z 0x61⟩, ⟨12, 13, z 0x70⟩, ⟨14, 15, z 0x71⟩,
   ⟨0, 2, z 0x20⟩, ⟨1, 3, z 0x20⟩, ⟨4, 6, z 0x21⟩, ⟨5, 7, z 0x21⟩,
   ⟨8, 10, z 0x30⟩, ⟨9, 11, z 0x30⟩, ⟨12, 14, z 0x31⟩, ⟨13, 15, z 0x31⟩,
   ⟨0, 4, z 0x10⟩, ⟨1, 5, z 0x10⟩, ⟨2, 6, z 0x10⟩, ⟨3, 7, z 0x10⟩,
   ⟨8, 12, z 0x11⟩, ⟨9, 13, z 0x11⟩, ⟨10, 14, z 0x11⟩, ⟨11, 15, z 0x11⟩,
   ⟨0, 8, z 0x01⟩, ⟨1, 9, z 0x01⟩, ⟨2, 10, z 0x01⟩, ⟨3, 11, z 0x01⟩,
   ⟨4, 12, z 0x01⟩, ⟨5, 13, z 0x01⟩, ⟨6, 14, z 0x01⟩, ⟨7, 15, z 0x01⟩]

/-- `mlkem_poly_ntt` of the vector build. -/
def rvvPolyNtt (r : Vector ℤ 256) : Chk (Vector ℤ 256) := do
  let v : Vector (Vector ℤ 16) 16 := Vector.tab 16 fun i => r.slice (16 * i) 16
  let v ← run bflyFx nttRegOps v
  (List.range 8).foldlM (fun r j => do
    let vp ← vectorNtt2 (vcreateV (v.rd (2 * j)) (v.rd (2 * j + 1))) (rvvZeta.slice (16 * j) 16)
    pure (r.splice ((16 + 16) * j) vp)) r

/-- `mlkem_poly_invntt_tomont` of the vector build. -/
def rvvPolyInvntt (r : Vector ℤ 256) : Chk (Vector ℤ 256) := do
  let vps ← Chk.tab 8 fun j =>
    vectorIntt2 (r.slice ((16 + 16) * j) (16 + 16)) (rvvIzeta.slice (16 * j) 16)
  let v : Vector (Vector ℤ 16) 16 := Vector.tab 16 fun i => vgetV (vps.rd (i / 2)) (i % 2)
  let v ← run bflyRx invnttRegOps v
  let v ← Chk.tab 16 fun i => fqMulqVX (v.rd i) montNr
  pure ((List.range 16).foldl (fun r i => r.splice (16 * i) (v.rd i)) r)

theorem run_bflyFx {m : ℕ} (ops : List (Op ℤ)) (v : Vector (Vector ℤ 16) m) :
    run bflyFx ops v = run (fun z => laneBfly fwdLane fun _ => z) ops v := by
  have h : (bflyFx : ℤ → Vector ℤ 16 → Vector ℤ 16 → _) = fun z => laneBfly fwdLane fun _ => z :=
    funext fun z => funext fun u => funext fun v => bflyFx_eq z u v
  rw [h]

theorem run_bflyRx {m : ℕ} (ops : List (Op ℤ)) (v : Vector (Vector ℤ 16) m) :
    run bflyRx ops v = run (fun z => laneBfly revLane fun _ => z) ops v := by
  have h : (bflyRx : ℤ → Vector ℤ 16 → Vector ℤ 16 → _) = fun z => laneBfly revLane fun _ => z :=
    funext fun z => funext fun u => funext fun v => bflyRx_eq z u v
  rw [h]

/-- **The register butterflies are layers.** -/
theorem regOps_layers :
    RegLayers 16 nttRegOps ([8, 4, 2, 1].map fun d =>
      (d, fun b => zetas.rd (128 / (16 * d) + b))) ∧
    RegLayers 16 invnttRegOps ([1, 2, 4, 8].map fun d =>
      (d, fun b => -zetas.rd (256 / (16 * d) - 1 - b))) := by
  decide +kernel

/-- The four layers of `mlkem_ntt` between registers. -/
theorem run_nttRegOps (x : Vector ℤ 256) :
    run bflyFx nttRegOps (toRegs 16 16 x) =
      toRegs 16 16 <$> [128, 64, 32, 16].foldlM (fun x len =>
        layerChk len (fun b => fwdLane (zetas.rd (128 / len + b))) x) x := by
  rw [run_bflyFx, run_regLayers fwdLane rfl (by norm_num) regOps_layers.1]
  rfl

/-- The four layers of `mlkem_invntt` between registers. -/
theorem run_invnttRegOps (x : Vector ℤ 256) :
    run bflyRx invnttRegOps (toRegs 16 16 x) =
      toRegs 16 16 <$> [16, 32, 64, 128].foldlM (fun x len =>
        layerChk len (fun b => revLane (-zetas.rd (256 / len - 1 - b))) x) x := by
  rw [run_bflyRx, run_regLayers revLane rfl (by norm_num) regOps_layers.2]
  rfl

/-- The pair of registers that `vector_ntt2` is given. -/
theorem vcreateV_toRegs {j : ℕ} (hj : j < 8) (x : Vector ℤ 256) :
    vcreateV ((toRegs 16 16 x).rd (2 * j)) ((toRegs 16 16 x).rd (2 * j + 1)) =
      x.slice ((16 + 16) * j) (16 + 16) := by
  refine Vector.ext_rd fun i hi => ?_
  rw [rd_toRegs _ (by omega), rd_toRegs _ (by omega), vcreateV, pair, Vector.rd_tab _ hi,
    Vector.rd_slice _ _ hi]
  split
  · rw [Vector.rd_slice _ _ (by omega)]
    congr 1
    omega
  · rw [Vector.rd_slice _ _ (by omega)]
    congr 1
    omega

/-- The registers that the calls of `vector_intt2` leave. -/
theorem vgetV_toRegs (v : Vector (Vector ℤ (16 + 16)) 8) :
    (Vector.tab 16 fun i => vgetV (v.rd (i / 2)) (i % 2)) = toRegs 16 16 (ofRegs 256 v) := by
  refine Vector.ext_rd fun r hr => Vector.ext_rd fun l hl => ?_
  rw [Vector.rd_tab _ hr, vgetV, Vector.rd_slice _ _ hl, rd_toRegs _ hr, Vector.rd_slice _ _ hl,
    show 16 * r + l = (16 + 16) * (r / 2) + (16 * (r % 2) + l) by omega,
    rd_ofRegs (show 256 = (16 + 16) * 8 from rfl) _ (by omega) (by omega)]

/-- Storing all registers overwrites the whole array. -/
theorem storeRegs_eq (r : Vector ℤ 256) :
    (fun v : Vector (Vector ℤ 16) 16 =>
      (List.range 16).foldl (fun r i => r.splice (16 * i) (v.rd i)) r) = ofRegs 256 := by
  refine funext fun v => ?_
  have h := foldl_splice 0 (show 0 < 16 by norm_num) (show 0 + 16 * 16 ≤ 256 by norm_num) v r
  simp only [zero_add] at h
  rw [h]
  refine Vector.ext_rd fun k hk => ?_
  rw [Vector.rd_splice _ _ _ hk, if_pos ⟨Nat.zero_le k, by omega⟩, Nat.sub_zero]

/-- **The vector `mlkem_poly_ntt` is the seven layers and a normalization.** -/
theorem rvvPolyNtt_eq (r : Vector ℤ 256) :
    rvvPolyNtt r = [128, 64, 32, 16, 8, 4, 2].foldlM
      (fun a len => layerChk len (fun b => fwdLane (zetas.rd (128 / len + b))) a) r >>= fun x =>
        Chk.tab 256 fun k => mulqLane montR1 (x.rd k) := by
  have hn : 256 = (16 + 16) * 8 := rfl
  have hloads : (Vector.tab 16 fun i => r.slice (16 * i) 16) = toRegs 16 16 r := rfl
  rw [rvvPolyNtt, hloads, run_nttRegOps, bind_map_left,
    show [128, 64, 32, 16, 8, 4, 2] = [128, 64, 32, 16] ++ [8, 4, 2] from rfl, List.foldlM_append,
    bind_assoc]
  refine congrArg _ (funext fun y => ?_)
  rw [← sections_layers hn (by norm_num) _ _ (by decide)]
  simp only [← sections_tab hn (show 0 < 16 + 16 by norm_num) (mulqLane montR1)]
  rw [sections_bind hn]
  refine (foldlM_sections hn (by norm_num) (fun j _ => vectorNtt2 (vcreateV
    ((toRegs 16 16 y).rd (2 * j)) ((toRegs 16 16 y).rd (2 * j + 1))) (rvvZeta.slice (16 * j) 16))
      r).trans ?_
  unfold sections
  refine congrArg _ (Chk.tab_congr fun j hj => ?_)
  dsimp only
  rw [vcreateV_toRegs hj, vectorNtt2_eq _ hj]
  rfl

/-- The calls of `vector_intt2` are the first three layers and a normalization. -/
theorem vectorIntt2_sections (r : Vector ℤ 256) :
    ofRegs 256 <$> (Chk.tab 8 fun j => vectorIntt2 (r.slice ((16 + 16) * j) (16 + 16))
      (rvvIzeta.slice (16 * j) 16)) = (do
        let x ← [2, 4, 8].foldlM
          (fun a len => layerChk len (fun b => revLane (-zetas.rd (256 / len - 1 - b))) a) r
        Chk.tab 256 fun k => mulqLane montR1 (x.rd k)) := by
  have hn : 256 = (16 + 16) * 8 := rfl
  rw [← sections_layers hn (by norm_num) _ _ (by decide)]
  simp only [← sections_tab hn (show 0 < 16 + 16 by norm_num) (mulqLane montR1)]
  rw [sections_bind hn]
  unfold sections
  refine congrArg _ (Chk.tab_congr fun j hj => ?_)
  rw [vectorIntt2_eq _ hj]
  rfl

/-- The last loop of `mlkem_poly_invntt_tomont` scales all coefficients. -/
theorem scaleRegs_eq (r x : Vector ℤ 256) :
    (do
      let v ← Chk.tab 16 fun i => fqMulqVX ((toRegs 16 16 x).rd i) montNr
      pure ((List.range 16).foldl (fun r i => r.splice (16 * i) (v.rd i)) r)) =
      Chk.tab 256 fun k => mulqLane montNr (x.rd k) := by
  have hlanes : ∀ i < 16, fqMulqVX ((toRegs 16 16 x).rd i) montNr =
      Chk.tab 16 fun l => mulqLane montNr (x.rd (16 * i + l)) := fun i hi => by
    rw [fqMulqVX_eq, rd_toRegs _ hi]
    exact Chk.tab_congr fun l hl => by rw [Vector.rd_slice _ _ hl]
  rw [Chk.tab_congr hlanes, bind_pure_comp, storeRegs_eq]
  exact ofRegs_tab (show 256 = 16 * 16 from rfl) (by norm_num) fun k => mulqLane montNr (x.rd k)

/-- The loops over the registers of `mlkem_poly_invntt_tomont`. -/
theorem rvvPolyInvntt_regs (r x : Vector ℤ 256) :
    (do
      let v ← run bflyRx invnttRegOps (toRegs 16 16 x)
      let v ← Chk.tab 16 fun i => fqMulqVX (v.rd i) montNr
      pure ((List.range 16).foldl (fun r i => r.splice (16 * i) (v.rd i)) r)) = (do
      let x ← [16, 32, 64, 128].foldlM
        (fun a len => layerChk len (fun b => revLane (-zetas.rd (256 / len - 1 - b))) a) x
      Chk.tab 256 fun k => mulqLane montNr (x.rd k)) := by
  rw [run_invnttRegOps, bind_map_left]
  exact congrArg _ (funext fun x => scaleRegs_eq r x)

/-- **The vector `mlkem_poly_invntt_tomont` is the seven layers**, with a normalization after
the third of them and the scaling at the end. -/
theorem rvvPolyInvntt_eq (r : Vector ℤ 256) :
    rvvPolyInvntt r = (do
      let x ← [2, 4, 8].foldlM
        (fun a len => layerChk len (fun b => revLane (-zetas.rd (256 / len - 1 - b))) a) r
      let x ← Chk.tab 256 fun k => mulqLane montR1 (x.rd k)
      let x ← [16, 32, 64, 128].foldlM
        (fun a len => layerChk len (fun b => revLane (-zetas.rd (256 / len - 1 - b))) a) x
      Chk.tab 256 fun k => mulqLane montNr (x.rd k)) := by
  rw [← bind_assoc, ← vectorIntt2_sections, bind_map_left]
  simp only [rvvPolyInvntt, vgetV_toRegs]
  exact congrArg _ (funext fun vps => rvvPolyInvntt_regs r (ofRegs 256 vps))

end Mlkem
