import Karudeb.Mldsa.Ntt
import Karudeb.Mldsa.Fips204

/-!
# ML-DSA: what the transform computes

* `mldsaNtt_spec` : from coefficients of any size up to `B` the forward transform
  gives the values of the polynomial at the roots of unity, grown by at most
  `8 * (Q - 1)`, and nothing overflows.
* `mldsaInvntt_spec` : from values below `Q` the inverse transform gives the
  coefficients of the polynomial with these values, times `2^32`.
-/

namespace Mldsa

open Word Butterfly Ntt Negacyclic Fips204

/-! ## The table -/

/-- `2^(-32)` modulo `Q`. -/
abbrev rInv : Zq := 8265825

theorem rInv_mul : rInv * 2 ^ 32 = 1 := by decide

/-- The twiddles as elements of the ring. -/
def zq (i : ℕ) : Zq := (zetas.rd i : Zq) * rInv

/-- The constants of the moduli `X^B - c`. -/
def cq (i : ℕ) : Zq := if i ≤ 1 then -1 else if i % 2 = 0 then zq (i / 2) else -zq (i / 2)

/-- The twiddles of the inverse layers. -/
def zqInv (i : ℕ) : Zq := -zq (3 * 2 ^ i.log2 - 1 - i)

/-- **What the table holds**: square roots of one another, at the end the points of the
transform, each beside its inverse, and all of them centered. -/
theorem zetas_table :
    (∀ i < 256, 1 ≤ i → zetas.rd i * zetas.rd i ≡
      (if i ≤ 1 then -1 else if i % 2 = 0 then 1 else -1) *
        (if i ≤ 1 then 2 ^ 32 else zetas.rd (i / 2)) * 2 ^ 32 [ZMOD 8380417]) ∧
    (∀ k < 256, (if k % 2 = 0 then 1 else -1) * zetas.rd (128 + k / 2) ≡
      1753 ^ (2 * bitRev 8 k + 1) * 2 ^ 32 [ZMOD 8380417]) ∧
    (∀ i < 256, 1 ≤ i →
      -zetas.rd (3 * 2 ^ i.log2 - 1 - i) * zetas.rd i ≡ 2 ^ 32 * 2 ^ 32 [ZMOD 8380417]) ∧
    (∀ i < 256, -4190208 ≤ zetas.rd i ∧ zetas.rd i ≤ 4190208) := by
  decide +kernel

theorem zetas_bound {i : ℕ} (hi : i < 256) : -4190208 ≤ zetas.rd i ∧ zetas.rd i ≤ 4190208 :=
  zetas_table.2.2.2 i hi

theorem zmod_cast {a b : ℤ} (h : a ≡ b [ZMOD 8380417]) : (a : Zq) = (b : Zq) :=
  (ZMod.intCast_eq_intCast_iff a b 8380417).2 h

theorem zq_roots : Roots 256 cq zq where
  sq := by
    intro i h1 h2
    have h := zmod_cast (zetas_table.1 i h2 h1)
    have hr := rInv_mul
    unfold cq zq at *
    split_ifs at h ⊢ <;> push_cast at h
    · linear_combination rInv * rInv * h - (1 + rInv * 2 ^ 32) * hr
    · linear_combination rInv * rInv * h + zetas.rd (i / 2) * rInv * hr
    · linear_combination rInv * rInv * h - zetas.rd (i / 2) * rInv * hr
  even := by
    intro i hi
    unfold cq
    rw [if_neg (by omega), if_pos (by omega), Nat.mul_div_cancel_left i (by norm_num)]
  odd := by
    intro i hi
    unfold cq
    rw [if_neg (by omega), if_neg (by omega), show (2 * i + 1) / 2 = i by omega]

theorem cq_leaf {k : ℕ} (hk : k < 256) : cq (256 + k) = nttPoint k := by
  have h := zmod_cast (zetas_table.2.1 k hk)
  have hr := rInv_mul
  unfold cq zq nttPoint
  rw [if_neg (by omega), show (256 + k) / 2 = 128 + k / 2 by omega,
    show (256 + k) % 2 = k % 2 by omega]
  split_ifs at h ⊢
  all_goals
    push_cast at h
    linear_combination rInv * h + 1753 ^ (2 * bitRev 8 k + 1) * hr

theorem zq_inverse : Inverse 256 zq zqInv := by
  intro i h1 h2
  have h := zmod_cast (zetas_table.2.2.1 i h2 h1)
  have hr := rInv_mul
  unfold zqInv zq
  push_cast at h
  linear_combination rInv * rInv * h + (1 + rInv * 2 ^ 32) * hr

/-! ## The forward transform -/

/-- The layers compute the values at the roots of unity. -/
theorem down_eq_ntt (x : ℕ → Zq) {k : ℕ} (hk : k < 256) :
    down 128 zq [128, 64, 32, 16, 8, 4, 2, 1] x k = ntt (ofCoeffs 256 x) k := by
  have htower : Tower 128 256 [128, 64, 32, 16, 8, 4, 2, 1] 1 := by
    simp only [Tower]
    decide
  have hres := residues_down zq_roots (by norm_num) htower (residues_start 256 _ x)
  have heval := eval_of_residues hres hk
  rw [show 2 * 128 / 1 + k = 256 + k from rfl, cq_leaf hk] at heval
  unfold ntt ofCoeffs
  rw [evalAt_mk, heval]

/-- The scaling of the table drops out of the forward butterfly. -/
theorem nttBfly_holds {i : ℕ} (hi : i < 256) (B : ℤ) (hB : B + 8380416 < 2 ^ 31) {u v : ℤ}
    (hu : -B ≤ u ∧ u ≤ B) (hv : -B ≤ v ∧ v ≤ B) :
    Chk.Holds (nttBfly (zetas.rd i) u v) fun p =>
      (-(B + 8380416) ≤ p.1 ∧ p.1 ≤ B + 8380416 ∧ (p.1 : Zq) = u + zq i * v) ∧
        (-(B + 8380416) ≤ p.2 ∧ p.2 ≤ B + 8380416 ∧ (p.2 : Zq) = u - zq i * v) := by
  obtain ⟨hz1, hz2⟩ := zetas_bound hi
  have hp1 : -(4190208 * 2 ^ 31) ≤ zetas.rd i * v := by nlinarith
  have hp2 : zetas.rd i * v ≤ 4190208 * 2 ^ 31 := by nlinarith
  unfold nttBfly
  rw [Chk.word64 (by omega) (by omega), pure_bind]
  refine (montgomeryReduce_spec (by simp only [parQ]; omega) (by simp only [parQ]; omega)).bind ?_
  rintro t ⟨hcast, ht1, ht2⟩
  simp only [parQ] at ht1 ht2
  rw [Chk.word32 (by omega) (by omega), pure_bind, Chk.word32 (by omega) (by omega), pure_bind]
  have ht : (t : Zq) = zq i * v := by
    push_cast at hcast
    unfold zq
    linear_combination rInv * hcast - (t : Zq) * rInv_mul
  refine Chk.Holds.pure ⟨⟨by omega, by omega, ?_⟩, by omega, by omega, ?_⟩
  · push_cast
    rw [ht]
  · push_cast
    rw [ht]

theorem twiddle_lt {len b : ℕ} (hlen : len ∈ [128, 64, 32, 16, 8, 4, 2, 1])
    (hb : 2 * len * b < 256) : 128 / len + b < 256 := by
  simp only [List.mem_cons, List.not_mem_nil, or_false] at hlen
  rcases hlen with rfl | rfl | rfl | rfl | rfl | rfl | rfl | rfl <;> omega

/-- **The forward transform** evaluates, and nothing overflows. -/
theorem mldsaNtt_spec {B : ℤ} (hB : B + 8 * 8380416 < 2 ^ 31) {a : Vector ℤ 256}
    (ha : ∀ k < 256, -B ≤ a.rd k ∧ a.rd k ≤ B) :
    Chk.Holds (mldsaNtt a) fun r => ∀ k < 256,
      (-(B + 8 * 8380416) ≤ r.rd k ∧ r.rd k ≤ B + 8 * 8380416) ∧
        (r.rd k : Zq) = ntt (ofCoeffs 256 fun i => (a.rd i : Zq)) k := by
  rw [mldsaNtt_eq]
  have hlens : ∀ len ∈ [128, 64, 32, 16, 8, 4, 2, 1], 0 < len ∧ 2 * len ∣ 256 := by decide
  have h := layers_holds (fun len b => nttBfly (zetas.rd (128 / len + b)))
    (fun len => fwd fun b => zq (128 / len + b)) _ hlens
    (fun i u u' => (-(B + i * 8380416) ≤ u ∧ u ≤ B + i * 8380416) ∧ (u : Zq) = u')
    (fun i hi len hlen b hb u v u' v' hu hv => by
      obtain ⟨hu, rfl⟩ := hu
      obtain ⟨hv, rfl⟩ := hv
      have hidx : 128 / len + b < 256 := twiddle_lt hlen hb
      simp only [List.length_cons, List.length_nil] at hi
      refine (nttBfly_holds hidx (B + i * 8380416) (by omega) hu hv).mono ?_
      rintro p ⟨⟨h1, h2, h3⟩, h4, h5, h6⟩
      refine ⟨⟨⟨?_, ?_⟩, h3⟩, ⟨?_, ?_⟩, h6⟩ <;> push_cast <;> linarith)
    (fun k hk => ⟨by simpa using ha k hk, rfl⟩)
  refine h.mono fun r hr k hk => ?_
  obtain ⟨hb, hc⟩ := hr k hk
  exact ⟨by simpa using hb, hc.trans (down_eq_ntt _ hk)⟩

theorem ntt_smul (c : Zq) (x : ℕ → Zq) (k : ℕ) :
    ntt (ofCoeffs 256 fun i => c * x i) k = c * ntt (ofCoeffs 256 x) k := by
  unfold ntt
  rw [ofCoeffs_smul, map_mul]
  congr 1
  rw [AdjoinRoot.algebraMap_eq, ← AdjoinRoot.mk_C, evalAt_mk, Polynomial.eval_C]

/-- A polynomial is determined by its values. -/
theorem ntt_injective {u v : Rq} (h : ∀ k < 256, ntt u k = ntt v k) : u = v := by
  have hn : 0 < 256 := by norm_num
  have hlens : ∀ len ∈ [128, 64, 32, 16, 8, 4, 2, 1], 0 < len ∧ len ∣ 128 := by decide
  have hN : ∀ len ∈ [128, 64, 32, 16, 8, 4, 2, 1], 2 * 128 ≤ 256 * len := by decide
  rw [← ofCoeffs_coeff hn u, ← ofCoeffs_coeff hn v] at h ⊢
  have hdown : ∀ k < 2 * 128, down 128 zq [128, 64, 32, 16, 8, 4, 2, 1] (coeff hn u) k =
      down 128 zq [128, 64, 32, 16, 8, 4, 2, 1] (coeff hn v) k := by
    intro k hk
    rw [down_eq_ntt _ hk, down_eq_ntt _ hk, h k hk]
  refine ofCoeffs_congr fun i hi => ?_
  have hup := up_congr zqInv (fun len hl => hlens len (List.mem_reverse.1 hl)) hdown i hi
  rw [up_down (by norm_num) zq_inverse hlens hN _ i hi, up_down (by norm_num) zq_inverse hlens hN _ i hi]
    at hup
  simp only [List.length_cons, List.length_nil] at hup
  have hunit : (8347681 : Zq) * 2 ^ 8 = 1 := by decide
  linear_combination 8347681 * hup - (coeff hn u i - coeff hn v i) * hunit

/-- Every row of values is that of a polynomial. -/
theorem ntt_surjective (v : ℕ → Zq) : ∃ w : Rq, ∀ k < 256, ntt w k = v k := by
  have hlens : ∀ len ∈ [128, 64, 32, 16, 8, 4, 2, 1], 0 < len ∧ len ∣ 128 := by decide
  have hN : ∀ len ∈ [128, 64, 32, 16, 8, 4, 2, 1], 2 * 128 ≤ 256 * len := by decide
  refine ⟨ofCoeffs 256 fun i => 8347681 * up 128 zqInv [128, 64, 32, 16, 8, 4, 2, 1].reverse v i,
    fun k hk => ?_⟩
  have hcancel := down_up (by norm_num) zq_inverse hlens hN v k hk
  have hunit : (8347681 : Zq) * 2 ^ 8 = 1 := by decide
  rw [ntt_smul, ← down_eq_ntt _ hk, hcancel]
  simp only [List.length_cons, List.length_nil]
  linear_combination v k * hunit

/-! ## The inverse transform -/

theorem invnttBfly_holds {i : ℕ} (hi : i < 256) (B : ℤ) (hB : 8380416 ≤ 2 * B)
    (hB' : 2 * B < 2 ^ 31) {u v : ℤ} (hu : -B ≤ u ∧ u ≤ B) (hv : -B ≤ v ∧ v ≤ B) :
    Chk.Holds (invnttBfly (-zetas.rd i) u v) fun p =>
      (-(2 * B) ≤ p.1 ∧ p.1 ≤ 2 * B ∧ (p.1 : Zq) = u + v) ∧
        (-(2 * B) ≤ p.2 ∧ p.2 ≤ 2 * B ∧ (p.2 : Zq) = -zq i * (u - v)) := by
  obtain ⟨hz1, hz2⟩ := zetas_bound hi
  have hp1 : -(4190208 * 2 ^ 31) ≤ -zetas.rd i * (u - v) := by nlinarith
  have hp2 : -zetas.rd i * (u - v) ≤ 4190208 * 2 ^ 31 := by nlinarith
  unfold invnttBfly
  rw [Chk.word32 (by omega) (by omega), pure_bind, Chk.word32 (by omega) (by omega), pure_bind,
    Chk.word64 (by omega) (by omega), pure_bind]
  refine (montgomeryReduce_spec (by simp only [parQ]; omega) (by simp only [parQ]; omega)).bind ?_
  rintro t ⟨hcast, ht1, ht2⟩
  simp only [parQ] at ht1 ht2
  refine Chk.Holds.pure ⟨⟨by omega, by omega, by push_cast; ring⟩, by omega, by omega, ?_⟩
  push_cast at hcast
  unfold zq
  linear_combination rInv * hcast - (t : Zq) * rInv_mul

/-- The inverse layers of the code are those of the inverse twiddles. -/
theorem zqInv_eq : ∀ len ∈ [1, 2, 4, 8, 16, 32, 64, 128], ∀ b < 128 / len,
    3 * 2 ^ (128 / len + b).log2 - 1 - (128 / len + b) = 256 / len - 1 - b := by
  decide +kernel

theorem invnttScale_holds {x : ℤ} (h1 : -2 ^ 31 ≤ x) (h2 : x ≤ 2 ^ 31) :
    Chk.Holds (invnttScale x) fun t =>
      (-4211198 ≤ t ∧ t ≤ 4211198) ∧ (t : Zq) * 2 ^ 32 = 41978 * x := by
  unfold invnttScale
  rw [Chk.word64 (by omega) (by omega), pure_bind]
  refine (montgomeryReduce_spec (by simp only [parQ]; omega) (by simp only [parQ]; omega)).mono ?_
  rintro t ⟨hcast, ht1, ht2⟩
  simp only [parQ] at ht1 ht2
  push_cast at hcast
  exact ⟨⟨by omega, by omega⟩, hcast⟩

theorem scale_eq : (41978 : Zq) * 256 = 2 ^ 32 * 2 ^ 32 := by decide

theorem inv_twiddle {len b : ℕ} (hlen : len ∈ [1, 2, 4, 8, 16, 32, 64, 128])
    (hb : 2 * len * b < 256) :
    256 / len - 1 - b < 256 ∧ zqInv (128 / len + b) = -zq (256 / len - 1 - b) := by
  have hbl : b < 128 / len := by
    simp only [List.mem_cons, List.not_mem_nil, or_false] at hlen
    rcases hlen with rfl | rfl | rfl | rfl | rfl | rfl | rfl | rfl <;> omega
  have hle : 256 / len ≤ 256 := Nat.div_le_self _ _
  refine ⟨by omega, ?_⟩
  unfold zqInv
  rw [zqInv_eq len hlen b hbl]

/-- The inverse layers of the code, without the scaling. -/
theorem invnttLayers_holds {a : Vector ℤ 256}
    (ha : ∀ k < 256, -8380416 ≤ a.rd k ∧ a.rd k ≤ 8380416) :
    Chk.Holds ([1, 2, 4, 8, 16, 32, 64, 128].foldlM (fun a len => invnttLayer len a) a) fun r =>
      ∀ k < 256, (-2145386496 ≤ r.rd k ∧ r.rd k ≤ 2145386496) ∧
        (r.rd k : Zq) = up 128 zqInv [128, 64, 32, 16, 8, 4, 2, 1].reverse
          (fun i => (a.rd i : Zq)) k := by
  have hlens : ∀ len ∈ [1, 2, 4, 8, 16, 32, 64, 128], 0 < len ∧ 2 * len ∣ 256 := by decide
  have h := layers_holds (fun len b => invnttBfly (-zetas.rd (256 / len - 1 - b)))
    (fun len => inv fun b => zqInv (128 / len + b)) _ hlens
    (fun i u u' => (-(2 ^ i * 8380416) ≤ u ∧ u ≤ 2 ^ i * 8380416) ∧ (u : Zq) = u')
    (fun i hi len hlen b hb u v u' v' hu hv => by
      obtain ⟨hu, rfl⟩ := hu
      obtain ⟨hv, rfl⟩ := hv
      obtain ⟨hidx, htw⟩ := inv_twiddle hlen hb
      have hlo : (1 : ℤ) ≤ 2 ^ i := one_le_pow₀ (by norm_num)
      have hhi : (2 : ℤ) ^ i ≤ 2 ^ 7 := pow_le_pow_right₀ (by norm_num) (Nat.le_of_lt_succ hi)
      refine (invnttBfly_holds hidx (2 ^ i * 8380416) (by omega) (by omega) hu hv).mono ?_
      rintro p ⟨⟨h1, h2, h3⟩, h4, h5, h6⟩
      have hpow : (2 : ℤ) ^ (i + 1) * 8380416 = 2 * (2 ^ i * 8380416) := by ring
      rw [← htw] at h6
      rw [hpow]
      exact ⟨⟨⟨h1, h2⟩, h3⟩, ⟨h4, h5⟩, h6⟩)
    (fun k hk => ⟨by simpa using ha k hk, rfl⟩)
  refine h.mono fun r hr k hk => ?_
  obtain ⟨hb, hc⟩ := hr k hk
  exact ⟨by simpa using hb, hc⟩

/-- **The inverse transform** interpolates, times `2^32`, and nothing overflows. -/
theorem mldsaInvntt_spec {a : Vector ℤ 256}
    (ha : ∀ k < 256, -8380416 ≤ a.rd k ∧ a.rd k ≤ 8380416) :
    Chk.Holds (mldsaInvntt a) fun r =>
      (∀ k < 256, -4211198 ≤ r.rd k ∧ r.rd k ≤ 4211198) ∧
        ∀ k < 256, ntt (ofCoeffs 256 fun i => (r.rd i : Zq)) k = 2 ^ 32 * (a.rd k : Zq) := by
  have hreq : ((List.range 256).all fun i => decide (-parQ < a.rd i ∧ a.rd i < parQ)) = true := by
    simp only [List.all_eq_true, List.mem_range, decide_eq_true_eq, parQ]
    intro k hk
    have := ha k hk
    omega
  rw [mldsaInvntt_eq, Chk.require_true hreq, pure_bind]
  refine (invnttLayers_holds ha).bind fun x hx => ?_
  have hs : ∀ k < 256, Chk.Holds (invnttScale (x.rd k)) fun t =>
      (-4211198 ≤ t ∧ t ≤ 4211198) ∧ (t : Zq) * 2 ^ 32 = 41978 * (x.rd k : Zq) := by
    intro k hk
    obtain ⟨⟨h1, h2⟩, -⟩ := hx k hk
    exact invnttScale_holds (by omega) (by omega)
  have htab := Chk.Holds.tab hs
  refine htab.mono fun r hr => ⟨fun k hk => (hr k hk).1, fun k hk => ?_⟩
  -- 256 times the result is 2^32 times what the layers leave
  have hscale : ∀ i < 256, 256 * (r.rd i : Zq) = 2 ^ 32 * (x.rd i : Zq) := by
    intro i hi
    have h := (hr i hi).2
    linear_combination 256 * rInv * h - (256 * (r.rd i : Zq) - 2 ^ 32 * x.rd i) * rInv_mul +
      rInv * (x.rd i : Zq) * scale_eq
  have hup : ∀ i < 256, (x.rd i : Zq) = up 128 zqInv [128, 64, 32, 16, 8, 4, 2, 1].reverse
      (fun i => (a.rd i : Zq)) i := fun i hi => (hx i hi).2
  have hcancel := down_up (by norm_num) zq_inverse
    (show ∀ len ∈ [128, 64, 32, 16, 8, 4, 2, 1], 0 < len ∧ len ∣ 128 by decide) (by decide)
    (fun i => (a.rd i : Zq)) k hk
  rw [down_eq_ntt _ hk, ← ofCoeffs_congr hup] at hcancel
  have h256 := ntt_smul 256 (fun i => (r.rd i : Zq)) k
  rw [ofCoeffs_congr hscale, ntt_smul, hcancel] at h256
  have hunit : (8347681 : Zq) * 256 = 1 := by decide
  simp only [List.length_cons, List.length_nil] at h256
  linear_combination -8347681 * h256 + (2 ^ 32 * (a.rd k : Zq) -
    ntt (ofCoeffs 256 fun i => (r.rd i : Zq)) k) * hunit

end Mldsa
