import Karudeb.Mlkem.Rvv

/-!
# ML-KEM: polynomials and vectors of polynomials

The arithmetic of `mlkem_ntt.c` and `rvv_poly.c` on whole polynomials, in both
builds, and the loops of `polyvec.c` over it.

* `rvvPolyAdd_eq`, `rvvPolySub_eq`, `rvvPolyReduce_eq`, `rvvPolyTomont_eq` : the
  register loops of the vector build work coefficient by coefficient.
-/

namespace Mlkem

open Word Butterfly Rvv

/-- `poly_t`. -/
abbrev Poly := Vector ℤ 256

/-! ## Products in the transform domain -/

/-- The body of the loop of `poly_basemul_montgomery`. -/
def basemulBlock (a b : Poly) (i : ℕ) : Chk (Vector ℤ 4) := do
  let p ← basemul (a.rd (4 * i)) (a.rd (4 * i + 1)) (b.rd (4 * i)) (b.rd (4 * i + 1))
    (zetas.rd (64 + i))
  let s ← basemul (a.rd (4 * i + 2)) (a.rd (4 * i + 3)) (b.rd (4 * i + 2)) (b.rd (4 * i + 3))
    (-zetas.rd (64 + i))
  pure #v[p.1, p.2, s.1, s.2]

/-- `poly_basemul_montgomery` of the scalar build. -/
def scalarPolyBasemulMontgomery (a b : Poly) : Chk Poly :=
  ofRegs 256 <$> Chk.tab 64 (basemulBlock a b)

/-- A loop over the registers of a polynomial that stores one register a turn. -/
def forRegs (f : ℕ → Chk (Vector ℤ 16)) : Chk Poly := ofRegs 256 <$> Chk.tab 16 f

/-- The body of the loop of `poly_basemul_montgomery` of the vector build. -/
def basemulReg (vz vt vu : Vector ℤ 16) : Chk (Vector ℤ 16) := do
  let sw0 := vxorVX (vidV 16) 1
  let sb0 := vmsequVX (vandVX (vidV 16) 1) 0
  let p ← fqMulVV vt vu
  let wa := vwmulVV vz p
  let wb := vwmulVV vt (vrgatherVV vu sw0)
  let wa ← vaddVV 32 wa (vslidedownVX wa 1)
  let wb ← vaddVV 32 wb (vslideupVX wb wb 1)
  let wa := vmergeVVM wb wa sb0
  fqRedc2 wa

/-- `poly_basemul_montgomery` of the vector build. -/
def rvvPolyBasemulMontgomery (a b : Poly) : Chk Poly :=
  forRegs fun i => basemulReg (rvvRoots.slice (16 * i) 16) (a.slice (16 * i) 16)
    (b.slice (16 * i) 16)

/-- `poly_basemul_montgomery`. -/
def polyBasemulMontgomery : Build → Poly → Poly → Chk Poly
  | .scalar => scalarPolyBasemulMontgomery
  | .rvv => rvvPolyBasemulMontgomery

/-! ## Coefficient by coefficient -/

/-- `poly_tomont` of the vector build. -/
def rvvPolyTomont (r : Poly) : Chk Poly := forRegs fun i => fqMulVX (r.slice (16 * i) 16) montR2

/-- `mlkem_poly_reduce` of the vector build. -/
def rvvPolyReduce (r : Poly) : Chk Poly := forRegs fun i => fqBarrett (r.slice (16 * i) 16)

/-- `mlkem_poly_add` of the vector build. -/
def rvvPolyAdd (a b : Poly) : Chk Poly :=
  forRegs fun i => vaddVV 16 (a.slice (16 * i) 16) (b.slice (16 * i) 16)

/-- `mlkem_poly_sub` of the vector build. -/
def rvvPolySub (a b : Poly) : Chk Poly :=
  forRegs fun i => vsubVV 16 (a.slice (16 * i) 16) (b.slice (16 * i) 16)

/-- `poly_tomont`. -/
def polyTomont : Build → Poly → Chk Poly
  | .scalar => fun r => Chk.tab 256 fun i => Chk.word 32 (r.rd i * (2 ^ 32 % parQ)) >>= montgomeryReduce
  | .rvv => rvvPolyTomont

/-- `mlkem_poly_reduce`. -/
def polyReduce : Build → Poly → Chk Poly
  | .scalar => fun r => Chk.tab 256 fun i => barrettReduce (r.rd i)
  | .rvv => rvvPolyReduce

/-- `mlkem_poly_add`. -/
def polyAdd : Build → Poly → Poly → Chk Poly
  | .scalar => fun a b => Chk.tab 256 fun i => Chk.word 16 (a.rd i + b.rd i)
  | .rvv => rvvPolyAdd

/-- `mlkem_poly_sub`. -/
def polySub : Build → Poly → Poly → Chk Poly
  | .scalar => fun a b => Chk.tab 256 fun i => Chk.word 16 (a.rd i - b.rd i)
  | .rvv => rvvPolySub

/-! ## The transforms -/

/-- `mlkem_poly_ntt`. -/
def polyNtt : Build → Poly → Chk Poly
  | .scalar => fun r => mlkemNtt r >>= polyReduce .scalar
  | .rvv => rvvPolyNtt

/-- `mlkem_poly_invntt_tomont`. -/
def polyInvnttTomont : Build → Poly → Chk Poly
  | .scalar => mlkemInvntt
  | .rvv => rvvPolyInvntt

/-! ## Vectors of polynomials -/

/-- `pvec_t`, as far as the parameter set uses it. -/
abbrev PolyVec (k : ℕ) := Vector Poly k

section PolyVec

variable {k : ℕ}

/-- `polyvec_ntt`. -/
def polyvecNtt (build : Build) (r : PolyVec k) : Chk (PolyVec k) :=
  Chk.tab k fun i => polyNtt build (r.rd i)

/-- `polyvec_invntt_tomont`. -/
def polyvecInvnttTomont (build : Build) (r : PolyVec k) : Chk (PolyVec k) :=
  Chk.tab k fun i => polyInvnttTomont build (r.rd i)

/-- `polyvec_basemul_acc_montgomery`. -/
def polyvecBasemulAccMontgomery (build : Build) (a b : PolyVec k) : Chk Poly := do
  let r ← polyBasemulMontgomery build (a.rd 0) (b.rd 0)
  let r ← (List.range (k - 1)).foldlM (fun r i => do
    let t ← polyBasemulMontgomery build (a.rd (i + 1)) (b.rd (i + 1))
    polyAdd build r t) r
  polyReduce build r

/-- `polyvec_reduce`. -/
def polyvecReduce (build : Build) (r : PolyVec k) : Chk (PolyVec k) :=
  Chk.tab k fun i => polyReduce build (r.rd i)

/-- `polyvec_add`. -/
def polyvecAdd (build : Build) (a b : PolyVec k) : Chk (PolyVec k) :=
  Chk.tab k fun i => polyAdd build (a.rd i) (b.rd i)

end PolyVec

/-! ## The register loops -/

theorem forRegs_tab {f : ℕ → Chk (Vector ℤ 16)} {g : ℕ → Chk ℤ}
    (h : ∀ i < 16, f i = Chk.tab 16 fun l => g (16 * i + l)) : forRegs f = Chk.tab 256 g := by
  unfold forRegs
  rw [Chk.tab_congr h]
  exact ofRegs_tab (show 256 = 16 * 16 from rfl) (by norm_num) g

/-- One lane of a register loaded from a polynomial. -/
theorem rd_load (a : Poly) (i : ℕ) {l : ℕ} (hl : l < 16) :
    (a.slice (16 * i) 16 : Vector ℤ 16).rd l = a.rd (16 * i + l) := Vector.rd_slice _ _ hl

theorem fqBarrett_eq {vl : ℕ} (a : Vector ℤ vl) :
    fqBarrett a = Chk.tab vl fun i => barrettLane (a.rd i) := by
  refine Chk.ext (Vector.ext_rd fun i hi => ?_) (Bool.eq_iff_iff.2 ?_)
  · simp [fqBarrett, barrettLane, vaddVX, vsubVV, vmulhVX, vsraVX, vmulVX, hi]
  · simp only [fqBarrett, vaddVX, vsubVV, Chk.ok_bind, Bool.and_eq_true, Chk.ok_tab, ← forall₂_and]
    exact forall₂_congr fun i hi => by simp [barrettLane, vmulhVX, vsraVX, vmulVX, hi]

theorem rvvPolyTomont_eq (r : Poly) :
    rvvPolyTomont r = Chk.tab 256 fun k => mulLane (r.rd k) montR2 :=
  forRegs_tab fun i _ => by
    rw [fqMulVX_eq]
    exact Chk.tab_congr fun l hl => by rw [rd_load r i hl]

theorem rvvPolyReduce_eq (r : Poly) :
    rvvPolyReduce r = Chk.tab 256 fun k => barrettLane (r.rd k) :=
  forRegs_tab fun i _ => by
    rw [fqBarrett_eq]
    exact Chk.tab_congr fun l hl => by rw [rd_load r i hl]

theorem rvvPolyAdd_eq (a b : Poly) :
    rvvPolyAdd a b = Chk.tab 256 fun k => Chk.word 16 (a.rd k + b.rd k) :=
  forRegs_tab fun i _ => Chk.tab_congr fun l hl => by rw [rd_load a i hl, rd_load b i hl]

theorem rvvPolySub_eq (a b : Poly) :
    rvvPolySub a b = Chk.tab 256 fun k => Chk.word 16 (a.rd k - b.rd k) :=
  forRegs_tab fun i _ => Chk.tab_congr fun l hl => by rw [rd_load a i hl, rd_load b i hl]

end Mlkem
