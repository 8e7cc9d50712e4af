import Karudeb.Mldsa.Fips204
import Karudeb.Mldsa.Poly

/-!
# ML-DSA: rounding

The division-free rounding of `mldsa_poly.c` is the rounding of the standard, on
every standard representative, and nothing in it overflows.

* `power2round_eq`, `decompose32_eq`, `decompose88_eq`, `useHint32_eq`,
  `useHint88_eq` : the five functions are `Power2Round`, `Decompose` and `UseHint`.
* `rounding_exact` : what they compute, in numbers.
* `hint_recovers` : the hint that is made from the low and high bits of one number
  brings the high bits back from another.
-/

namespace Mldsa

open Word Fips204

/-! ## Single coefficients -/

/-- `power2round` is `Power2Round`. -/
theorem power2round_eq {a : ℤ} (h0 : 0 ≤ a) (hq : a < 8380417) :
    Mldsa.power2round a = pure (power2Round a) := by
  have hs1 : Chk.word 32 (a + 2 ^ (parD - 1)) = pure (a + 4096) :=
    Chk.word32 (by simp only [parD]; omega) (by simp only [parD]; omega)
  have hs2 : Chk.word 32 (a + 4096 - 1) = pure (a + 4095) := by
    rw [show a + 4096 - 1 = a + 4095 by omega]
    exact Chk.word32 (by omega) (by omega)
  have hshl : shl ((a + 4095) / 2 ^ parD) parD = pure ((a + 4095) / 8192 * 8192) := by
    unfold shl
    rw [Chk.require_true (by simp only [parD, decide_eq_true_eq]; omega), pure_bind]
    exact Chk.word32 (by simp only [parD]; omega) (by simp only [parD]; omega)
  have hsub : Chk.word 32 (a - (a + 4095) / 8192 * 8192) = pure (a - (a + 4095) / 8192 * 8192) :=
    Chk.word32 (by omega) (by omega)
  unfold Mldsa.power2round
  rw [Chk.require_true (by simp only [parQ, decide_eq_true_eq]; exact ⟨h0, hq⟩), pure_bind, hs1,
    pure_bind, hs2, pure_bind]
  dsimp only
  rw [hshl, pure_bind, hsub, pure_bind]
  refine congrArg pure ?_
  unfold power2Round modPm
  rw [Int.emod_eq_of_lt h0 hq]
  simp only [parD]
  split
  · exact Prod.ext (by dsimp only; omega) (by dsimp only; omega)
  · exact Prod.ext (by dsimp only; omega) (by dsimp only; omega)

/-- The low part, once the high part is known. -/
theorem decomposeLow_eq {gamma2 a a1 : ℤ} (h1 : 0 ≤ a1 * 2) (h2 : a1 * 2 ≤ 2 ^ 30)
    (hp : a1 * 2 * gamma2 ≤ 8380416) (hp0 : 0 ≤ a1 * 2 * gamma2) (h0 : 0 ≤ a) (hq : a < 8380417) :
    decomposeLow gamma2 a a1 =
      pure (if a - a1 * 2 * gamma2 ≤ 4190208 then a - a1 * 2 * gamma2
        else a - a1 * 2 * gamma2 - 8380417) := by
  have hs1 : Chk.word 32 (a1 * 2) = pure (a1 * 2) := Chk.word32 (by omega) (by omega)
  have hs2 : Chk.word 32 (a1 * 2 * gamma2) = pure (a1 * 2 * gamma2) :=
    Chk.word32 (by omega) (by omega)
  unfold decomposeLow
  rw [hs1, pure_bind, hs2, pure_bind]
  generalize a1 * 2 * gamma2 = p at *
  have hs3 : Chk.word 32 (a - p) = pure (a - p) := Chk.word32 (by omega) (by omega)
  have hs4 : Chk.word 32 ((parQ - 1) / 2 - (a - p)) = pure (4190208 - (a - p)) :=
    Chk.word32 (by simp only [parQ]; omega) (by simp only [parQ]; omega)
  rw [hs3, pure_bind, hs4, pure_bind]
  split
  · have hm : (4190208 - (a - p)) / 2 ^ 31 = 0 := by omega
    rw [hm, land_zero, sub_zero]
    exact hs3
  · have hm : (4190208 - (a - p)) / 2 ^ 31 = -1 := by omega
    rw [hm, land_neg_one (by norm_num), wrap_of_fits (by norm_num) (by decide)]
    exact Chk.word32 (by simp only [parQ]; omega) (by simp only [parQ]; omega)

/-- The multiplication and shift of `decompose_32` round `a / (2 * gamma2)`. -/
theorem bucket32 {a : ℤ} (h0 : 0 ≤ a) (hq : a < 8380417) :
    ((a + 127) / 2 ^ 7 * 1025 + 2 ^ 21) / 2 ^ 22 = (a + 261887) / 523776 := by
  have hb : 0 ≤ (a + 261887) / 523776 ∧ (a + 261887) / 523776 ≤ 16 := by omega
  -- the buckets begin and end at multiples of 128
  have h1 : (a + 261887) / 523776 * 4092 - 2046 < (a + 127) / 2 ^ 7 := by omega
  have h2 : (a + 127) / 2 ^ 7 ≤ (a + 261887) / 523776 * 4092 + 2046 := by omega
  generalize (a + 261887) / 523776 = b at *
  generalize (a + 127) / 2 ^ 7 = x at *
  omega

/-- The multiplication and shift of `decompose_88` round `a / (2 * gamma2)`. -/
theorem bucket88 {a : ℤ} (h0 : 0 ≤ a) (hq : a < 8380417) :
    ((a + 127) / 2 ^ 7 * 11275 + 2 ^ 23) / 2 ^ 24 = (a + 95231) / 190464 := by
  have hb : 0 ≤ (a + 95231) / 190464 ∧ (a + 95231) / 190464 ≤ 44 := by omega
  have h1 : (a + 95231) / 190464 * 1488 - 744 < (a + 127) / 2 ^ 7 := by omega
  have h2 : (a + 127) / 2 ^ 7 ≤ (a + 95231) / 190464 * 1488 + 744 := by omega
  generalize (a + 95231) / 190464 = b at *
  generalize (a + 127) / 2 ^ 7 = x at *
  omega

/-- `decompose_32` is `Decompose` for the larger `gamma2`. -/
theorem decompose32_eq {a : ℤ} (h0 : 0 ≤ a) (hq : a < 8380417) :
    decompose32 a = pure (decompose 261888 a) := by
  have hs1 : Chk.word 32 (a + 127) = pure (a + 127) := Chk.word32 (by omega) (by omega)
  have hs2 : Chk.word 32 ((a + 127) / 2 ^ 7 * 1025) = pure ((a + 127) / 2 ^ 7 * 1025) :=
    Chk.word32 (by omega) (by omega)
  have hs3 : Chk.word 32 ((a + 127) / 2 ^ 7 * 1025 + 2 ^ 21) =
      pure ((a + 127) / 2 ^ 7 * 1025 + 2 ^ 21) := Chk.word32 (by omega) (by omega)
  have hmask : land 32 ((a + 261887) / 523776) 15 = (a + 261887) / 523776 % 16 :=
    land_two_pow_sub_one (show 4 < 32 by norm_num) _
  have hlow := decomposeLow_eq (show 0 ≤ (a + 261887) / 523776 % 16 * 2 by omega) (by omega)
    (show (a + 261887) / 523776 % 16 * 2 * 261888 ≤ 8380416 by omega) (by omega) h0 hq
  unfold decompose32
  rw [Chk.require_true (by simp only [parQ, decide_eq_true_eq]; exact ⟨h0, hq⟩), pure_bind, hs1,
    pure_bind, hs2, pure_bind, hs3, pure_bind]
  dsimp only
  rw [bucket32 h0 hq, hmask, show (parQ - 1) / 32 = 261888 from rfl, hlow, pure_bind]
  refine congrArg pure ?_
  unfold decompose modPm
  rw [Int.emod_eq_of_lt h0 hq]
  dsimp only
  split_ifs <;> refine Prod.ext ?_ ?_ <;> dsimp only <;> omega

/-- `decompose_88` is `Decompose` for the smaller `gamma2`. -/
theorem decompose88_eq {a : ℤ} (h0 : 0 ≤ a) (hq : a < 8380417) :
    decompose88 a = pure (decompose 95232 a) := by
  have hs1 : Chk.word 32 (a + 127) = pure (a + 127) := Chk.word32 (by omega) (by omega)
  have hs2 : Chk.word 32 ((a + 127) / 2 ^ 7 * 11275) = pure ((a + 127) / 2 ^ 7 * 11275) :=
    Chk.word32 (by omega) (by omega)
  have hs3 : Chk.word 32 ((a + 127) / 2 ^ 7 * 11275 + 2 ^ 23) =
      pure ((a + 127) / 2 ^ 7 * 11275 + 2 ^ 23) := Chk.word32 (by omega) (by omega)
  have hs4 : Chk.word 32 (43 - (a + 95231) / 190464) = pure (43 - (a + 95231) / 190464) :=
    Chk.word32 (by omega) (by omega)
  -- the mask is set in the top bucket only
  have hmask : lxor 32 ((a + 95231) / 190464)
      (land 32 ((43 - (a + 95231) / 190464) / 2 ^ 31) ((a + 95231) / 190464)) =
        if (a + 95231) / 190464 = 44 then 0 else (a + 95231) / 190464 := by
    split
    · rename_i h
      rw [h]
      rfl
    · have hm : (43 - (a + 95231) / 190464) / 2 ^ 31 = 0 := by omega
      rw [hm, land_zero, lxor_zero (by norm_num),
        wrap_of_fits (by norm_num) (fits_32.2 ⟨by omega, by omega⟩)]
  have hlow := decomposeLow_eq
    (show 0 ≤ (if (a + 95231) / 190464 = 44 then 0 else (a + 95231) / 190464) * 2 by
      split <;> omega) (by split <;> omega)
    (show (if (a + 95231) / 190464 = 44 then 0 else (a + 95231) / 190464) * 2 * 95232 ≤ 8380416 by
      split <;> omega) (by split <;> omega) h0 hq
  unfold decompose88
  rw [Chk.require_true (by simp only [parQ, decide_eq_true_eq]; exact ⟨h0, hq⟩), pure_bind, hs1,
    pure_bind, hs2, pure_bind, hs3, pure_bind]
  dsimp only
  rw [bucket88 h0 hq, hs4, pure_bind, hmask, show (parQ - 1) / 88 = 95232 from rfl, hlow, pure_bind]
  refine congrArg pure ?_
  unfold decompose modPm
  rw [Int.emod_eq_of_lt h0 hq]
  dsimp only
  split_ifs <;> refine Prod.ext ?_ ?_ <;> dsimp only <;> omega

/-- What `Decompose` gives, in numbers. -/
theorem decompose_spec {gamma2 a : ℤ} (hg : gamma2 = 95232 ∨ gamma2 = 261888) :
    0 ≤ (decompose gamma2 a).1 ∧ (decompose gamma2 a).1 < 8380416 / (2 * gamma2) ∧
      (8380417 : ℤ) ∣ a - ((decompose gamma2 a).1 * (2 * gamma2) + (decompose gamma2 a).2) ∧
      (-gamma2 < (decompose gamma2 a).2 ∧ (decompose gamma2 a).2 ≤ gamma2 ∨
        (decompose gamma2 a).1 = 0 ∧ (decompose gamma2 a).2 = a % 8380417 - 8380417 ∧
          -gamma2 ≤ (decompose gamma2 a).2 ∧ (decompose gamma2 a).2 < 0) := by
  unfold decompose modPm
  dsimp only
  rcases hg with rfl | rfl <;> split_ifs <;> dsimp only <;> omega

/-- `Decompose` is the only way to write a number with a high part in range and a
centred low part, where zero may have the low part `-gamma2` too. -/
theorem decompose_unique {gamma2 a r1 r0 : ℤ} (hg : gamma2 = 95232 ∨ gamma2 = 261888)
    (h1 : 0 ≤ r1) (hm : r1 < 8380416 / (2 * gamma2)) (hr : r0 ≤ gamma2)
    (hr' : -gamma2 < r0 ∨ r1 = 0 ∧ r0 = -gamma2)
    (ha : (8380417 : ℤ) ∣ a - (r1 * (2 * gamma2) + r0)) : decompose gamma2 a = (r1, r0) := by
  have hmod : a % 8380417 = (r1 * (2 * gamma2) + r0) % 8380417 :=
    Int.ModEq.symm (Int.modEq_iff_dvd.2 ha)
  -- the standard representative is the number itself, or a negative low part is wrapped
  have hp : a % 8380417 = r1 * (2 * gamma2) + r0 ∨
      r1 = 0 ∧ r0 < 0 ∧ a % 8380417 = 8380417 + r0 := by
    by_cases hs : 0 ≤ r1 * (2 * gamma2) + r0
    · refine .inl (hmod.trans (Int.emod_eq_of_lt hs ?_))
      rcases hg with rfl | rfl <;> omega
    · have hzero : r1 = 0 := by
        rcases hg with rfl | rfl <;> omega
      subst hzero
      refine .inr ⟨rfl, by omega, ?_⟩
      rcases hg with rfl | rfl <;> omega
  unfold decompose modPm
  dsimp only
  generalize a % 8380417 = p at *
  rcases hp with rfl | ⟨rfl, hneg, rfl⟩
  · have hrem : (r1 * (2 * gamma2) + r0) % (2 * gamma2) =
        if 0 ≤ r0 then r0 else r0 + 2 * gamma2 := by
      rcases hg with rfl | rfl <;> split <;> omega
    rw [hrem]
    rcases hg with rfl | rfl <;> split_ifs <;> refine Prod.ext ?_ ?_ <;> dsimp only <;> omega
  · rcases hg with rfl | rfl <;> split_ifs <;> refine Prod.ext ?_ ?_ <;> dsimp only <;> omega

/-- `use_hint_32` is `UseHint` for the larger `gamma2`. -/
theorem useHint32_eq {a h : ℤ} (h0 : 0 ≤ a) (hq : a < 8380417) (hh : h = 0 ∨ h = 1) :
    useHint32 a h = pure (useHint 261888 h a) := by
  obtain ⟨hlo, hhi, -, -⟩ := @decompose_spec 261888 a (.inr rfl)
  have hm : (8380417 - 1) / (2 * 261888) = (16 : ℤ) := by norm_num
  have hm' : 8380416 / (2 * 261888) = (16 : ℤ) := by norm_num
  have hmask : ∀ x, land 32 x 15 = x % 16 := fun x =>
    land_two_pow_sub_one (show 4 < 32 by norm_num) x
  rw [hm'] at hhi
  unfold useHint32 useHint
  rw [decompose32_eq h0 hq, pure_bind, hm]
  dsimp only
  generalize decompose 261888 a = d at *
  rcases hh with rfl | rfl
  · rw [if_pos rfl, if_neg (by norm_num), if_neg (by norm_num)]
  · rw [if_neg one_ne_zero]
    by_cases hpos : d.2 > 0
    · rw [if_pos hpos, if_pos ⟨rfl, hpos⟩, Chk.word32 (by omega) (by omega), pure_bind, hmask]
    · rw [if_neg hpos, if_neg (fun h => hpos h.2), if_pos ⟨rfl, not_lt.1 hpos⟩,
        Chk.word32 (by omega) (by omega), pure_bind, hmask]

/-- `use_hint_88` is `UseHint` for the smaller `gamma2`. -/
theorem useHint88_eq {a h : ℤ} (h0 : 0 ≤ a) (hq : a < 8380417) (hh : h = 0 ∨ h = 1) :
    useHint88 a h = pure (useHint 95232 h a) := by
  obtain ⟨hlo, hhi, -, -⟩ := @decompose_spec 95232 a (.inl rfl)
  have hm : (8380417 - 1) / (2 * 95232) = (44 : ℤ) := by norm_num
  have hm' : 8380416 / (2 * 95232) = (44 : ℤ) := by norm_num
  rw [hm'] at hhi
  unfold useHint88 useHint
  rw [decompose88_eq h0 hq, pure_bind, hm]
  dsimp only
  generalize decompose 95232 a = d at *
  rcases hh with rfl | rfl
  · rw [if_pos rfl, if_neg (by norm_num), if_neg (by norm_num)]
  · rw [if_neg one_ne_zero]
    by_cases hpos : d.2 > 0
    · rw [if_pos hpos, if_pos (show (1 : ℤ) = 1 ∧ d.2 > 0 from ⟨rfl, hpos⟩)]
      by_cases htop : d.1 = 43
      · rw [if_pos htop, htop]
        rfl
      · rw [if_neg htop, Chk.word32 (by omega) (by omega), Int.emod_eq_of_lt (by omega) (by omega)]
    · rw [if_neg hpos, if_neg (show ¬((1 : ℤ) = 1 ∧ d.2 > 0) from fun h => hpos h.2),
        if_pos (show (1 : ℤ) = 1 ∧ d.2 ≤ 0 from ⟨rfl, not_lt.1 hpos⟩)]
      by_cases hzero : d.1 = 0
      · rw [if_pos hzero, hzero]
        rfl
      · rw [if_neg hzero, Chk.word32 (by omega) (by omega),
          Int.emod_eq_of_lt (by omega) (by omega)]

theorem useHint_zero (gamma2 r : ℤ) : useHint gamma2 0 r = (decompose gamma2 r).1 := by
  unfold useHint
  rw [if_neg (by norm_num), if_neg (by norm_num)]

theorem useHint_one_of_pos {gamma2 r r1 r0 : ℤ} (h : decompose gamma2 r = (r1, r0)) (h0 : 0 < r0) :
    useHint gamma2 1 r = (r1 + 1) % (8380416 / (2 * gamma2)) := by
  unfold useHint
  rw [h, if_pos ⟨rfl, h0⟩]
  rfl

theorem useHint_one_of_nonpos {gamma2 r r1 r0 : ℤ} (h : decompose gamma2 r = (r1, r0))
    (h0 : r0 ≤ 0) : useHint gamma2 1 r = (r1 - 1) % (8380416 / (2 * gamma2)) := by
  unfold useHint
  rw [h, if_neg (fun h' => absurd h'.2 (not_lt.2 h0)), if_pos ⟨rfl, h0⟩]
  rfl

theorem useHint_range {gamma2 : ℤ} (hg : gamma2 = 95232 ∨ gamma2 = 261888) (h r : ℤ) :
    0 ≤ useHint gamma2 h r ∧ useHint gamma2 h r < 8380416 / (2 * gamma2) := by
  obtain ⟨h1, h2, -, -⟩ := decompose_spec (a := r) hg
  have hpos : 0 < 8380416 / (2 * gamma2) := lt_of_le_of_lt h1 h2
  have hmod : ∀ x : ℤ, 0 ≤ x % ((8380417 - 1) / (2 * gamma2)) ∧
      x % ((8380417 - 1) / (2 * gamma2)) < 8380416 / (2 * gamma2) := fun x =>
    ⟨Int.emod_nonneg _ hpos.ne', Int.emod_lt_of_pos _ hpos⟩
  unfold useHint
  dsimp only
  split
  · exact hmod _
  · split
    · exact hmod _
    · exact ⟨h1, h2⟩

/-- **The hint of one number corrects another**: `a0` is the low part that is left of the
first, with the high part `a1`, and `r` is the number with these. -/
theorem useHint_makeHint {gamma2 a0 a1 r : ℤ} (hg : gamma2 = 95232 ∨ gamma2 = 261888)
    (h1 : 0 ≤ a1) (hm : a1 < 8380416 / (2 * gamma2)) (ha0 : -(2 * gamma2) < a0)
    (ha0' : a0 < 2 * gamma2) (hr : (8380417 : ℤ) ∣ r - (a1 * (2 * gamma2) + a0)) :
    useHint gamma2 (Mldsa.makeHint a0 a1 gamma2) r = a1 := by
  have hM : 8380416 / (2 * gamma2) * (2 * gamma2) = 8380416 := by
    rcases hg with rfl | rfl <;> norm_num
  have hdec : ∀ x y, 0 ≤ x → x < 8380416 / (2 * gamma2) → y ≤ gamma2 →
      (-gamma2 < y ∨ x = 0 ∧ y = -gamma2) →
      (8380417 : ℤ) ∣ a1 * (2 * gamma2) + a0 - (x * (2 * gamma2) + y) →
      decompose gamma2 r = (x, y) := by
    intro x y hx hx' hy hy' h
    have hsum := dvd_add hr h
    rw [sub_add_sub_cancel] at hsum
    exact decompose_unique hg hx hx' hy hy' hsum
  have hup : ∀ x y, decompose gamma2 r = (x, y) → 0 < y →
      useHint gamma2 1 r = (x + 1) % (8380416 / (2 * gamma2)) := fun _ _ => useHint_one_of_pos
  have hdown : ∀ x y, decompose gamma2 r = (x, y) → y ≤ 0 →
      useHint gamma2 1 r = (x - 1) % (8380416 / (2 * gamma2)) := fun _ _ => useHint_one_of_nonpos
  generalize 8380416 / (2 * gamma2) = M at *
  unfold Mldsa.makeHint
  by_cases hhint : a0 > gamma2 ∨ a0 < -gamma2 ∨ a0 = -gamma2 ∧ a1 ≠ 0
  · rw [if_pos hhint, Nat.cast_one]
    by_cases hpos : gamma2 < a0
    · by_cases htop : a1 + 1 < M
      · -- one bucket higher, with a negative low part
        have h := hdec (a1 + 1) (a0 - 2 * gamma2) (by omega) htop (by omega) (by omega) ⟨0, by ring⟩
        rw [hdown _ _ h (by omega), add_sub_cancel_right, Int.emod_eq_of_lt h1 hm]
      · -- above the last bucket comes the first
        have hlast : M = a1 + 1 := by omega
        rw [hlast] at hM
        have h := hdec 0 (a0 - 2 * gamma2 - 1) le_rfl (by omega) (by omega) (by omega)
          ⟨1, by linarith⟩
        rw [hdown _ _ h (by omega), hlast, ← Int.add_emod_right,
          Int.emod_eq_of_lt (by omega) (by omega)]
        omega
    · by_cases hzero : a1 = 0
      · -- below the first bucket comes the last
        have h := hdec (M - 1) (a0 + 2 * gamma2 + 1) (by omega) (by omega) (by omega) (by omega)
          ⟨-1, by rw [hzero]; linarith⟩
        rw [hup _ _ h (by omega), sub_add_cancel, Int.emod_self, hzero]
      · -- one bucket lower, with a positive low part
        have h := hdec (a1 - 1) (a0 + 2 * gamma2) (by omega) (by omega) (by omega) (by omega)
          ⟨0, by ring⟩
        rw [hup _ _ h (by omega), sub_add_cancel, Int.emod_eq_of_lt h1 hm]
  · rw [if_neg hhint, Nat.cast_zero, useHint_zero,
      hdec a1 a0 h1 hm (by omega) (by omega) ⟨0, by ring⟩]

/-! ## Polynomials -/

section Poly

variable {a : Poly}

/-- A polynomial of standard representatives. -/
def IsStd (a : Poly) : Prop := ∀ k < 256, 0 ≤ a.rd k ∧ a.rd k < 8380417

theorem polyPairs_eq {f : ℤ → Chk (ℤ × ℤ)} {g : ℤ → ℤ × ℤ}
    (h : ∀ k < 256, f (a.rd k) = pure (g (a.rd k))) :
    polyPairs f a =
      pure (Vector.tab 256 fun k => (g (a.rd k)).1, Vector.tab 256 fun k => (g (a.rd k)).2) := by
  unfold polyPairs
  rw [Chk.tab_congr h, Chk.tab_pure, pure_bind]
  refine congrArg pure (Prod.ext ?_ ?_)
  · exact Vector.tab_congr fun k hk => by rw [Vector.rd_tab _ hk]
  · exact Vector.tab_congr fun k hk => by rw [Vector.rd_tab _ hk]

/-- `poly_power2round` is `Power2Round` on every coefficient. -/
theorem polyPower2round_eq (ha : IsStd a) :
    polyPower2round a = pure (Vector.tab 256 fun k => (power2Round (a.rd k)).1,
      Vector.tab 256 fun k => (power2Round (a.rd k)).2) :=
  polyPairs_eq fun k hk => power2round_eq (ha k hk).1 (ha k hk).2

/-- `poly_decompose` is `Decompose` on every coefficient. -/
theorem polyDecompose_eq (i : Fin 3) (ha : IsStd a) :
    polyDecompose (mldsaPar i) a =
      pure (Vector.tab 256 fun k => (decompose (mldsaPar i).gamma2 (a.rd k)).1,
        Vector.tab 256 fun k => (decompose (mldsaPar i).gamma2 (a.rd k)).2) := by
  unfold polyDecompose
  rcases gamma2_cases i with h | h
  · rw [if_neg (by rw [h]; norm_num), h]
    exact polyPairs_eq fun k hk => decompose88_eq (ha k hk).1 (ha k hk).2
  · rw [if_pos (by rw [h]), h]
    exact polyPairs_eq fun k hk => decompose32_eq (ha k hk).1 (ha k hk).2

/-- `poly_use_hint` is `UseHint` on every coefficient. -/
theorem polyUseHint_eq (i : Fin 3) {h : Poly} (ha : IsStd a)
    (hh : ∀ k < 256, h.rd k = 0 ∨ h.rd k = 1) :
    polyUseHint (mldsaPar i) a h =
      pure (Vector.tab 256 fun k => useHint (mldsaPar i).gamma2 (h.rd k) (a.rd k)) := by
  unfold polyUseHint
  rcases gamma2_cases i with hg | hg
  · rw [if_neg (by rw [hg]; norm_num), hg, ← Chk.tab_pure]
    exact Chk.tab_congr fun k hk => useHint88_eq (ha k hk).1 (ha k hk).2 (hh k hk)
  · rw [if_pos (by rw [hg]), hg, ← Chk.tab_pure]
    exact Chk.tab_congr fun k hk => useHint32_eq (ha k hk).1 (ha k hk).2 (hh k hk)

end Poly

/-! ## Rounding is exact -/

theorem gamma2_cases_int (i : Fin 3) :
    ((mldsaPar i).gamma2 : ℤ) = 95232 ∨ ((mldsaPar i).gamma2 : ℤ) = 261888 := by
  rcases gamma2_cases i with h | h
  · exact .inl (by rw [h]; rfl)
  · exact .inr (by rw [h]; rfl)

/-- `Power2Round`, in numbers. -/
theorem power2Round_spec {a : ℤ} (h0 : 0 ≤ a) (hq : a < 8380417) :
    a = (power2Round a).1 * 2 ^ 13 + (power2Round a).2 ∧
      -2 ^ 12 < (power2Round a).2 ∧ (power2Round a).2 ≤ 2 ^ 12 := by
  unfold power2Round modPm
  rw [Int.emod_eq_of_lt h0 hq]
  dsimp only
  split <;> omega

/-- `Decompose` of a standard representative, in numbers. -/
theorem decompose_std {gamma2 a : ℤ} (hg : gamma2 = 95232 ∨ gamma2 = 261888) (h0 : 0 ≤ a)
    (hq : a < 8380417) :
    0 ≤ (decompose gamma2 a).1 ∧ (decompose gamma2 a).1 < (8380417 - 1) / (2 * gamma2) ∧
      if (8380417 - 1) / (2 * gamma2) * (2 * gamma2) - gamma2 < a then
        (decompose gamma2 a).1 = 0 ∧ (decompose gamma2 a).2 = a - 8380417 ∧
          -gamma2 ≤ (decompose gamma2 a).2 ∧ (decompose gamma2 a).2 < 0
      else a = (decompose gamma2 a).1 * (2 * gamma2) + (decompose gamma2 a).2 ∧
        -gamma2 < (decompose gamma2 a).2 ∧ (decompose gamma2 a).2 ≤ gamma2 := by
  unfold decompose modPm
  rw [Int.emod_eq_of_lt h0 hq]
  dsimp only
  rcases hg with rfl | rfl <;> split_ifs <;> dsimp only <;> omega

/-- **Division-free rounding is exact.**  On standard representatives `poly_power2round`
returns the only quotients and centred remainders by `2^13`, and `poly_decompose` the
quotients and centred remainders by `2 * gamma2`, except that the last bucket is folded
onto the first.  No 32-bit operation on the way overflows. -/
theorem rounding_exact (i : Fin 3) {a : Poly} (ha : ∀ k < 256, 0 ≤ a.rd k ∧ a.rd k < parQ) :
    Chk.Holds (polyPower2round a) (fun r => ∀ k < 256,
      (a.rd k = r.1.rd k * 2 ^ 13 + r.2.rd k ∧ -2 ^ 12 < r.2.rd k ∧ r.2.rd k ≤ 2 ^ 12) ∧
        ∀ a1 a0 : ℤ, a.rd k = a1 * 2 ^ 13 + a0 → -2 ^ 12 < a0 → a0 ≤ 2 ^ 12 →
          a1 = r.1.rd k ∧ a0 = r.2.rd k) ∧
    Chk.Holds (polyDecompose (mldsaPar i) a) (fun r => ∀ k < 256,
      0 ≤ r.1.rd k ∧ r.1.rd k < (parQ - 1) / (2 * (mldsaPar i).gamma2) ∧
        if (parQ - 1) / (2 * (mldsaPar i).gamma2) * (2 * (mldsaPar i).gamma2) -
            (mldsaPar i).gamma2 < a.rd k then
          r.1.rd k = 0 ∧ r.2.rd k = a.rd k - parQ ∧ -(mldsaPar i).gamma2 ≤ r.2.rd k ∧ r.2.rd k < 0
        else a.rd k = r.1.rd k * (2 * (mldsaPar i).gamma2) + r.2.rd k ∧
          -(mldsaPar i).gamma2 < r.2.rd k ∧ r.2.rd k ≤ (mldsaPar i).gamma2) := by
  constructor
  · rw [polyPower2round_eq ha]
    refine Chk.Holds.pure fun k hk => ?_
    obtain ⟨hsum, hlo, hhi⟩ := power2Round_spec (ha k hk).1 (ha k hk).2
    rw [Vector.rd_tab _ hk, Vector.rd_tab _ hk]
    refine ⟨⟨hsum, hlo, hhi⟩, fun a1 a0 h hlo' hhi' => ?_⟩
    constructor <;> omega
  · rw [polyDecompose_eq i ha]
    refine Chk.Holds.pure fun k hk => ?_
    rw [Vector.rd_tab _ hk, Vector.rd_tab _ hk]
    exact decompose_std (gamma2_cases_int i) (ha k hk).1 (ha k hk).2

/-- Rounding at the top of the range. -/
theorem rounding_exact_top :
    Chk.Holds (polyPower2round (Vector.tab 256 fun _ => 8380416)) (fun r => ∀ k < 256,
      ((Vector.tab 256 fun _ => (8380416 : ℤ)).rd k = r.1.rd k * 2 ^ 13 + r.2.rd k ∧
        -2 ^ 12 < r.2.rd k ∧ r.2.rd k ≤ 2 ^ 12) ∧
        ∀ a1 a0 : ℤ, (Vector.tab 256 fun _ => (8380416 : ℤ)).rd k = a1 * 2 ^ 13 + a0 →
          -2 ^ 12 < a0 → a0 ≤ 2 ^ 12 → a1 = r.1.rd k ∧ a0 = r.2.rd k) :=
  (rounding_exact 0 fun k hk => by
    rw [Vector.rd_tab _ hk]
    decide).1

/-! ## Hints -/

theorem makeHint_le (a0 a1 gamma2 : ℤ) :
    Mldsa.makeHint a0 a1 gamma2 = 0 ∨ Mldsa.makeHint a0 a1 gamma2 = 1 := by
  unfold Mldsa.makeHint
  split
  · exact .inr rfl
  · exact .inl rfl

/-- A sum of zeros and ones counts the ones. -/
theorem foldl_count {h : ℕ → ℕ} (hh : ∀ k, h k = 0 ∨ h k = 1) (n : ℕ) :
    (List.range n).foldl (fun s k => s + h k) 0 =
      ((List.range n).filter fun k => h k = 1).length := by
  induction n with
  | zero => rfl
  | succ n ih =>
    rw [List.range_succ, List.foldl_append, ih, List.filter_append, List.length_append]
    rcases hh n with h0 | h1
    · simp [h0]
    · simp [h1]

theorem rd_polyMakeHint (par : MldsaParam) (a0 a1 : Poly) {k : ℕ} (hk : k < 256) :
    (polyMakeHint par a0 a1).1.rd k = (Mldsa.makeHint (a0.rd k) (a1.rd k) par.gamma2 : ℤ) := by
  unfold polyMakeHint
  dsimp only
  rw [Vector.rd_tab _ hk, Vector.rd_tab _ hk]

/-- `poly_make_hint` returns the number of ones. -/
theorem polyMakeHint_count (par : MldsaParam) (a0 a1 : Poly) :
    (polyMakeHint par a0 a1).2 =
      ((List.range 256).filter fun k => (polyMakeHint par a0 a1).1.rd k = 1).length := by
  have h01 : ∀ k, (Vector.tab 256 fun i => Mldsa.makeHint (a0.rd i) (a1.rd i) par.gamma2).rd k = 0 ∨
      (Vector.tab 256 fun i => Mldsa.makeHint (a0.rd i) (a1.rd i) par.gamma2).rd k = 1 := by
    intro k
    by_cases hk : k < 256
    · rw [Vector.rd_tab _ hk]
      exact makeHint_le _ _ _
    · exact .inl (Vector.rd_of_le _ (not_lt.1 hk))
  unfold polyMakeHint
  generalize (Vector.tab 256 fun i => Mldsa.makeHint (a0.rd i) (a1.rd i) par.gamma2) = h at *
  dsimp only
  rw [foldl_count h01]
  refine congrArg List.length (List.filter_congr fun k hk => ?_)
  rw [Vector.rd_tab _ (List.mem_range.1 hk)]
  exact decide_eq_decide.2 Nat.cast_eq_one.symm

/-- **Hints recover the high bits.**  The hint made from what is left of the low part of
`w`, after `s` was taken away and `t` added, brings the high part of `w` back from
`w - s + t`, and `poly_make_hint` returns the number of ones in it. -/
theorem hint_recovers (i : Fin 3) {w : Poly} {s t : ℕ → ℤ}
    (hw : ∀ k < 256, 0 ≤ w.rd k ∧ w.rd k < parQ)
    (hs : ∀ k < 256, |(polyDecompose (mldsaPar i) w).val.2.rd k - s k| < (mldsaPar i).gamma2)
    (ht : ∀ k < 256, |t k| < (mldsaPar i).gamma2) :
    let d := (polyDecompose (mldsaPar i) w).val
    let h := polyMakeHint (mldsaPar i) (Vector.tab 256 fun k => d.2.rd k - s k + t k) d.1
    Chk.Holds (polyUseHint (mldsaPar i) (Vector.tab 256 fun k => (w.rd k - s k + t k) % parQ) h.1)
        (fun r => r = d.1) ∧
      h.2 = ((List.range 256).filter fun k => h.1.rd k = 1).length := by
  have hg := gamma2_cases_int i
  dsimp only
  rw [polyDecompose_eq i hw] at hs ⊢
  simp only [Chk.val_pure] at hs ⊢
  have hstd : IsStd (Vector.tab 256 fun k => (w.rd k - s k + t k) % parQ) := by
    intro k hk
    rw [Vector.rd_tab _ hk]
    exact ⟨Int.emod_nonneg _ (by decide), Int.emod_lt_of_pos _ (by decide)⟩
  constructor
  · rw [polyUseHint_eq i hstd]
    · refine Chk.Holds.pure (Vector.tab_congr fun k hk => ?_)
      rw [rd_polyMakeHint _ _ _ hk, Vector.rd_tab _ hk, Vector.rd_tab _ hk, Vector.rd_tab _ hk,
        Vector.rd_tab _ hk]
      have hsk := abs_lt.1 (hs k hk)
      have htk := abs_lt.1 (ht k hk)
      rw [Vector.rd_tab _ hk] at hsk
      obtain ⟨h1, hm, ⟨e, he⟩, -⟩ := @decompose_spec _ (w.rd k) hg
      refine useHint_makeHint hg h1 hm (by omega) (by omega) ?_
      have hmod := Int.emod_add_mul_ediv (w.rd k - s k + t k) parQ
      exact ⟨e - (w.rd k - s k + t k) / parQ, by simp only [parQ] at *; linarith⟩
    · intro k hk
      rw [rd_polyMakeHint _ _ _ hk]
      rcases makeHint_le _ _ _ with h | h
      · exact .inl (by rw [h]; rfl)
      · exact .inr (by rw [h]; rfl)
  · exact polyMakeHint_count _ _ _

/-- A ramp of coefficients whose low parts end near `gamma2`. -/
def ramp : Poly := Vector.tab 256 fun k => 666292 + (k : ℤ)

theorem isStd_ramp : IsStd ramp := by
  intro k hk
  rw [ramp, Vector.rd_tab _ hk]
  omega

theorem polyDecompose_ramp : polyDecompose (mldsaPar 0) ramp =
    pure (Vector.tab 256 fun _ => 3, Vector.tab 256 fun k => 94900 + (k : ℤ)) := by
  have hall : ∀ k : ℕ, k < 256 →
      decompose (mldsaPar 0).gamma2 (666292 + (k : ℤ)) = (3, 94900 + (k : ℤ)) := by
    decide +kernel
  have hrd : ∀ k < 256, decompose (mldsaPar 0).gamma2 (ramp.rd k) = (3, 94900 + (k : ℤ)) := by
    intro k hk
    rw [ramp, Vector.rd_tab _ hk, hall k hk]
  rw [polyDecompose_eq 0 isStd_ramp]
  refine congrArg pure (Prod.ext (Vector.tab_congr fun k hk => ?_) (Vector.tab_congr fun k hk => ?_))
  · rw [hrd k hk]
  · rw [hrd k hk]

/-- On the ramp, the hint is set where the low part leaves its range. -/
theorem hint_recovers_ramp :
    let d := (polyDecompose (mldsaPar 0) ramp).val
    let h := polyMakeHint (mldsaPar 0) (Vector.tab 256 fun k => d.2.rd k - 60 + 200) d.1
    Chk.Holds (polyUseHint (mldsaPar 0) (Vector.tab 256 fun k => (ramp.rd k - 60 + 200) % parQ) h.1)
        (fun r => r = d.1) ∧ h.2 = 63 := by
  have hs : ∀ k < 256, |(polyDecompose (mldsaPar 0) ramp).val.2.rd k - 60| < (mldsaPar 0).gamma2 := by
    intro k hk
    rw [polyDecompose_ramp, Chk.val_pure, Vector.rd_tab _ hk, show (mldsaPar 0).gamma2 = 95232 from rfl,
      abs_lt]
    omega
  obtain ⟨huse, hcount⟩ := hint_recovers 0 isStd_ramp hs fun k _ => (by decide : |(200 : ℤ)| < _)
  refine ⟨huse, hcount.trans ?_⟩
  have hset : ∀ k : ℕ, k < 256 → Mldsa.makeHint (94900 + (k : ℤ) - 60 + 200) 3 (mldsaPar 0).gamma2 =
      if 192 < k then 1 else 0 := by
    decide +kernel
  rw [polyDecompose_ramp]
  have hones : ∀ k ∈ List.range 256, decide ((polyMakeHint (mldsaPar 0)
      (Vector.tab 256 fun k => (Vector.tab 256 fun k => 94900 + (k : ℤ)).rd k - 60 + 200)
      (Vector.tab 256 fun _ => 3)).1.rd k = 1) = decide (192 < k) := by
    intro k hk
    have hk := List.mem_range.1 hk
    rw [rd_polyMakeHint _ _ _ hk, Vector.rd_tab _ hk, Vector.rd_tab _ hk, Vector.rd_tab _ hk,
      hset k hk]
    split <;> simp [*]
  exact (congrArg List.length (List.filter_congr hones)).trans (by decide)

end Mldsa
