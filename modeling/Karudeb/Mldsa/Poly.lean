import Karudeb.Mldsa.Ntt

/-!
# ML-DSA: polynomials and vectors of polynomials

The coefficientwise operations of `mldsa_poly.c` and the loops of `polyvec.c`
over them.  Every 32-bit sum, difference, doubling and shift and every 64-bit
product is checked, and `power2round`, `decompose_32` and `decompose_88` (which
`use_hint_32` and `use_hint_88` call on their argument) record that they want a
standard representative.  `Transforms` are the transform and its inverse of one
build, with which the loops over vectors come in that build.
-/

namespace Mldsa

open Word

/-- `poly_t`. -/
abbrev Poly := Vector ℤ 256

/-- `a << k`, which is defined for `0 ≤ a` as long as nothing is shifted out. -/
def shl (a : ℤ) (k : ℕ) : Chk ℤ := do
  Chk.require (decide (0 ≤ a))
  Chk.word 32 (a * 2 ^ k)

/-! ## Rounding -/

/-- `power2round`, with the result `(a1, a0)`. -/
def power2round (a : ℤ) : Chk (ℤ × ℤ) := do
  Chk.require (decide (0 ≤ a ∧ a < parQ))
  let s ← Chk.word 32 (a + 2 ^ (parD - 1))
  let s ← Chk.word 32 (s - 1)
  let a1 := s / 2 ^ parD
  let p ← shl a1 parD
  let a0 ← Chk.word 32 (a - p)
  pure (a1, a0)

/-- The last two lines of `decompose_32` and `decompose_88`. -/
def decomposeLow (gamma2 a a1 : ℤ) : Chk ℤ := do
  let p ← Chk.word 32 (a1 * 2)
  let p ← Chk.word 32 (p * gamma2)
  let a0 ← Chk.word 32 (a - p)
  let d ← Chk.word 32 ((parQ - 1) / 2 - a0)
  Chk.word 32 (a0 - land 32 (d / 2 ^ 31) parQ)

/-- `decompose_32`, with the result `(a1, a0)`. -/
def decompose32 (a : ℤ) : Chk (ℤ × ℤ) := do
  Chk.require (decide (0 ≤ a ∧ a < parQ))
  let s ← Chk.word 32 (a + 127)
  let p ← Chk.word 32 (s / 2 ^ 7 * 1025)
  let s ← Chk.word 32 (p + 2 ^ 21)
  let a1 := land 32 (s / 2 ^ 22) 15
  let a0 ← decomposeLow ((parQ - 1) / 32) a a1
  pure (a1, a0)

/-- `decompose_88`, with the result `(a1, a0)`. -/
def decompose88 (a : ℤ) : Chk (ℤ × ℤ) := do
  Chk.require (decide (0 ≤ a ∧ a < parQ))
  let s ← Chk.word 32 (a + 127)
  let p ← Chk.word 32 (s / 2 ^ 7 * 11275)
  let s ← Chk.word 32 (p + 2 ^ 23)
  let a1 := s / 2 ^ 24
  let d ← Chk.word 32 (43 - a1)
  let a1 := lxor 32 a1 (land 32 (d / 2 ^ 31) a1)
  let a0 ← decomposeLow ((parQ - 1) / 88) a a1
  pure (a1, a0)

/-- `make_hint`. -/
def makeHint (a0 a1 gamma2 : ℤ) : ℕ :=
  if a0 > gamma2 ∨ a0 < -gamma2 ∨ (a0 = -gamma2 ∧ a1 ≠ 0) then 1 else 0

/-- `use_hint_32`. -/
def useHint32 (a hint : ℤ) : Chk ℤ := do
  let (a1, a0) ← decompose32 a
  if hint = 0 then
    pure a1
  else if a0 > 0 then do
    let s ← Chk.word 32 (a1 + 1)
    pure (land 32 s 15)
  else do
    let s ← Chk.word 32 (a1 - 1)
    pure (land 32 s 15)

/-- `use_hint_88`. -/
def useHint88 (a hint : ℤ) : Chk ℤ := do
  let (a1, a0) ← decompose88 a
  if hint = 0 then
    pure a1
  else if a0 > 0 then
    if a1 = 43 then pure 0 else Chk.word 32 (a1 + 1)
  else
    if a1 = 0 then pure 43 else Chk.word 32 (a1 - 1)

/-! ## Polynomials -/

/-- `mldsa_poly_reduce`. -/
def polyReduce (a : Poly) : Chk Poly := Chk.tab 256 fun i => reduce32 (a.rd i)

/-- `poly_caddq`. -/
def polyCaddq (a : Poly) : Chk Poly := Chk.tab 256 fun i => caddq (a.rd i)

/-- `mldsa_poly_add`. -/
def polyAdd (a b : Poly) : Chk Poly := Chk.tab 256 fun i => Chk.word 32 (a.rd i + b.rd i)

/-- `mldsa_poly_sub`. -/
def polySub (a b : Poly) : Chk Poly := Chk.tab 256 fun i => Chk.word 32 (a.rd i - b.rd i)

/-- `poly_shiftl`. -/
def polyShiftl (a : Poly) : Chk Poly := Chk.tab 256 fun i => shl (a.rd i) parD

/-- `mldsa_poly_ntt`. -/
def polyNtt (a : Poly) : Chk Poly := mldsaNtt a

/-- `mldsa_poly_invntt_tomont`. -/
def polyInvnttTomont (a : Poly) : Chk Poly := mldsaInvntt a

/-- `poly_pointwise_montgomery`. -/
def polyPointwiseMontgomery (a b : Poly) : Chk Poly :=
  Chk.tab 256 fun i => Chk.word 64 (a.rd i * b.rd i) >>= montgomeryReduce

/-- A loop that writes two polynomials at once. -/
def polyPairs (f : ℤ → Chk (ℤ × ℤ)) (a : Poly) : Chk (Poly × Poly) := do
  let r ← Chk.tab 256 fun i => f (a.rd i)
  pure (Vector.tab 256 fun i => (r.rd i).1, Vector.tab 256 fun i => (r.rd i).2)

/-- `poly_power2round`, with the result `(a1, a0)`. -/
def polyPower2round (a : Poly) : Chk (Poly × Poly) := polyPairs power2round a

/-- `poly_decompose`, with the result `(a1, a0)`. -/
def polyDecompose (par : MldsaParam) (a : Poly) : Chk (Poly × Poly) :=
  if par.gamma2 = (8380417 - 1) / 32 then polyPairs decompose32 a else polyPairs decompose88 a

/-- `poly_make_hint`, with the number of hints. -/
def polyMakeHint (par : MldsaParam) (a0 a1 : Poly) : Poly × ℕ :=
  let h := Vector.tab 256 fun i => makeHint (a0.rd i) (a1.rd i) par.gamma2
  (Vector.tab 256 fun i => (h.rd i : ℤ), (List.range 256).foldl (fun s i => s + h.rd i) 0)

/-- `poly_use_hint`. -/
def polyUseHint (par : MldsaParam) (a h : Poly) : Chk Poly :=
  if par.gamma2 = (8380417 - 1) / 32 then Chk.tab 256 fun i => useHint32 (a.rd i) (h.rd i)
  else Chk.tab 256 fun i => useHint88 (a.rd i) (h.rd i)

/-- The comparison of one coefficient in `poly_chknorm`. -/
def coeffChknorm (a bb : ℤ) : Chk Bool := do
  let d ← Chk.word 32 (2 * a)
  let t ← Chk.word 32 (a - land 32 (a / 2 ^ 31) d)
  pure (decide (t ≥ bb))

/-- `poly_chknorm`. -/
def polyChknorm (a : Poly) (bb : ℤ) : Chk Bool :=
  if bb > (parQ - 1) / 8 then pure true else Chk.any 256 fun i => coeffChknorm (a.rd i) bb

/-- The functions on polynomials that a build has in a version of its own. -/
structure Transforms where
  /-- `mldsa_poly_ntt`. -/
  polyNtt : Poly → Chk Poly
  /-- `mldsa_poly_invntt_tomont`. -/
  polyInvnttTomont : Poly → Chk Poly

/-- The scalar versions. -/
def Transforms.scalar : Transforms := ⟨Mldsa.polyNtt, Mldsa.polyInvnttTomont⟩

/-! ## Vectors of polynomials -/

/-- `pvecl_t` and `pveck_t`, as far as the parameter set uses them. -/
abbrev PolyVec (n : ℕ) := Vector Poly n

section PolyVec

variable {n : ℕ}

/-- `polyvecl_reduce`, `polyveck_reduce`. -/
def polyvecReduce (v : PolyVec n) : Chk (PolyVec n) := Chk.tab n fun i => polyReduce (v.rd i)

/-- `polyveck_caddq`. -/
def polyvecCaddq (v : PolyVec n) : Chk (PolyVec n) := Chk.tab n fun i => polyCaddq (v.rd i)

/-- `polyvecl_add`, `polyveck_add`. -/
def polyvecAdd (u v : PolyVec n) : Chk (PolyVec n) := Chk.tab n fun i => polyAdd (u.rd i) (v.rd i)

/-- `polyveck_sub`. -/
def polyvecSub (u v : PolyVec n) : Chk (PolyVec n) := Chk.tab n fun i => polySub (u.rd i) (v.rd i)

/-- `polyveck_shiftl`. -/
def polyvecShiftl (v : PolyVec n) : Chk (PolyVec n) := Chk.tab n fun i => polyShiftl (v.rd i)

/-- `polyvecl_ntt`, `polyveck_ntt`. -/
def Transforms.polyvecNtt (T : Transforms) (v : PolyVec n) : Chk (PolyVec n) :=
  Chk.tab n fun i => T.polyNtt (v.rd i)

/-- `polyvecl_invntt_tomont`, `polyveck_invntt_tomont`. -/
def Transforms.polyvecInvnttTomont (T : Transforms) (v : PolyVec n) : Chk (PolyVec n) :=
  Chk.tab n fun i => T.polyInvnttTomont (v.rd i)

/-- `polyvecl_ntt`, `polyveck_ntt`, with the scalar transform. -/
def polyvecNtt (v : PolyVec n) : Chk (PolyVec n) := Transforms.scalar.polyvecNtt v

/-- `polyvecl_invntt_tomont`, `polyveck_invntt_tomont`, with the scalar transform. -/
def polyvecInvnttTomont (v : PolyVec n) : Chk (PolyVec n) :=
  Transforms.scalar.polyvecInvnttTomont v

/-- `polyvecl_pointwise_poly_montgomery`, `polyveck_pointwise_poly_montgomery`. -/
def polyvecPointwisePolyMontgomery (a : Poly) (v : PolyVec n) : Chk (PolyVec n) :=
  Chk.tab n fun i => polyPointwiseMontgomery a (v.rd i)

/-- `polyvecl_pointwise_acc_montgomery`. -/
def polyvecPointwiseAccMontgomery (u v : PolyVec n) : Chk Poly := do
  let w ← polyPointwiseMontgomery (u.rd 0) (v.rd 0)
  (List.range (n - 1)).foldlM
    (fun w i => polyPointwiseMontgomery (u.rd (i + 1)) (v.rd (i + 1)) >>= polyAdd w) w

/-- `polyvec_matrix_pointwise_montgomery`. -/
def polyvecMatrixPointwiseMontgomery {k : ℕ} (mat : Vector (PolyVec n) k) (v : PolyVec n) :
    Chk (PolyVec k) :=
  Chk.tab k fun i => polyvecPointwiseAccMontgomery (mat.rd i) v

/-- `polyvecl_chknorm`, `polyveck_chknorm`. -/
def polyvecChknorm (v : PolyVec n) (bound : ℤ) : Chk Bool :=
  Chk.any n fun i => polyChknorm (v.rd i) bound

/-- A loop that writes two vectors at once. -/
def polyvecPairs (f : Poly → Chk (Poly × Poly)) (v : PolyVec n) : Chk (PolyVec n × PolyVec n) := do
  let r ← Chk.tab n fun i => f (v.rd i)
  pure (Vector.tab n fun i => (r.rd i).1, Vector.tab n fun i => (r.rd i).2)

/-- `polyveck_power2round`, with the result `(v1, v0)`. -/
def polyvecPower2round (v : PolyVec n) : Chk (PolyVec n × PolyVec n) :=
  polyvecPairs polyPower2round v

/-- `polyveck_decompose`, with the result `(v1, v0)`. -/
def polyvecDecompose (par : MldsaParam) (v : PolyVec n) : Chk (PolyVec n × PolyVec n) :=
  polyvecPairs (polyDecompose par) v

/-- `polyveck_make_hint`, with the number of hints. -/
def polyvecMakeHint (par : MldsaParam) (v0 v1 : PolyVec n) : PolyVec n × ℕ :=
  let r := Vector.tab n fun i => polyMakeHint par (v0.rd i) (v1.rd i)
  (Vector.tab n fun i => (r.rd i).1, (List.range n).foldl (fun s i => s + (r.rd i).2) 0)

/-- `polyveck_use_hint`. -/
def polyvecUseHint (par : MldsaParam) (u h : PolyVec n) : Chk (PolyVec n) :=
  Chk.tab n fun i => polyUseHint par (u.rd i) (h.rd i)

end PolyVec

/-! ## The two kinds of vectors -/

section

variable (par : MldsaParam)

/-- `polyvecl_reduce`. -/
def polyveclReduce (v : PolyVec par.ell) : Chk (PolyVec par.ell) := polyvecReduce v

/-- `polyveck_reduce`. -/
def polyveckReduce (v : PolyVec par.k) : Chk (PolyVec par.k) := polyvecReduce v

/-- `polyvecl_add`. -/
def polyveclAdd (u v : PolyVec par.ell) : Chk (PolyVec par.ell) := polyvecAdd u v

/-- `polyveck_add`. -/
def polyveckAdd (u v : PolyVec par.k) : Chk (PolyVec par.k) := polyvecAdd u v

/-- `polyvecl_pointwise_poly_montgomery`. -/
def polyveclPointwisePolyMontgomery (a : Poly) (v : PolyVec par.ell) : Chk (PolyVec par.ell) :=
  polyvecPointwisePolyMontgomery a v

/-- `polyveck_pointwise_poly_montgomery`. -/
def polyveckPointwisePolyMontgomery (a : Poly) (v : PolyVec par.k) : Chk (PolyVec par.k) :=
  polyvecPointwisePolyMontgomery a v

/-- `polyvecl_chknorm`. -/
def polyveclChknorm (v : PolyVec par.ell) (bound : ℤ) : Chk Bool := polyvecChknorm v bound

/-- `polyveck_chknorm`. -/
def polyveckChknorm (v : PolyVec par.k) (bound : ℤ) : Chk Bool := polyvecChknorm v bound

variable (T : Transforms)

/-- `polyvecl_ntt`. -/
def Transforms.polyveclNtt (v : PolyVec par.ell) : Chk (PolyVec par.ell) := T.polyvecNtt v

/-- `polyveck_ntt`. -/
def Transforms.polyveckNtt (v : PolyVec par.k) : Chk (PolyVec par.k) := T.polyvecNtt v

/-- `polyvecl_invntt_tomont`. -/
def Transforms.polyveclInvnttTomont (v : PolyVec par.ell) : Chk (PolyVec par.ell) :=
  T.polyvecInvnttTomont v

/-- `polyveck_invntt_tomont`. -/
def Transforms.polyveckInvnttTomont (v : PolyVec par.k) : Chk (PolyVec par.k) :=
  T.polyvecInvnttTomont v

end

end Mldsa
