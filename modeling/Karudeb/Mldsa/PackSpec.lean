import Karudeb.Mldsa.Pack
import Karudeb.Mldsa.Fips204

/-!
# ML-DSA: the packers are those of the standard

Every turn of a hand-written packer writes the bytes of one number, the one its
group of coefficients are the digits of, and every turn of an unpacker reads the
digits of one; so the loops are `BitPack`, `SimpleBitPack` and their inverses.

* `polyetaPack_eq`, `polyt1Pack_eq`, `polyt0Pack_eq`, `polyzPack_eq`,
  `polyw1Pack_eq` : on coefficients in range the packers write the standard's
  bytes and no subtraction or shift overflows.
* `polyetaUnpack_eq`, `polyt1Unpack_eq`, `polyt0Unpack_eq`, `polyzUnpack_eq` : on
  any bytes the unpackers read the standard's coefficients.
-/

namespace Mldsa

open Word Bits Fips204

/-! ## The turns -/

theorem and_mask {x : ℕ} (k : ℕ) : x &&& (2 ^ k - 1) = x % 2 ^ k := Nat.and_two_pow_sub_one_eq_mod x k

theorem packEta2_eq {t : ℕ → ℕ} (h : ∀ i < 8, t i < 2 ^ 3) :
    packEta2 t = (List.range 3).map fun j => UInt8.ofNat (value 3 8 t / 2 ^ (8 * j)) := by
  have hd := forall_range h
  unfold packEta2
  simp only [List.range, List.range.loop, List.map, List.Forall, List.cons.injEq, and_true, value,
    Nat.zero_add, Nat.reduceAdd, Nat.shiftRight_eq_div_pow] at hd ⊢
  rw [or_shl 3 (by omega), or_shl 6 (by omega), or_shl 1 (by omega), or_shl 4 (by omega),
    or_shl 7 (by omega), or_shl 2 (by omega), or_shl 5 (by omega)]
  refine ⟨byte_congr ?_, byte_congr ?_, byte_congr ?_⟩ <;> omega

theorem unpackEta2_eq {a : ℕ → ℕ} (h : ∀ i < 3, a i < 2 ^ 8) :
    unpackEta2 a = (List.range 8).map fun i => value 8 3 a / 2 ^ (3 * i) % 2 ^ 3 := by
  have hd := forall_range h
  have hm : ∀ x, x &&& 7 = x % 8 := fun x => and_mask 3
  unfold unpackEta2
  simp only [List.range, List.range.loop, List.map, List.Forall, List.cons.injEq, and_true, value,
    Nat.zero_add, Nat.reduceAdd, Nat.shiftRight_eq_div_pow, hm] at hd ⊢
  rw [or_shl 2 (by omega), or_shl 1 (by omega)]
  refine ⟨?_, ?_, ?_, ?_, ?_, ?_, ?_, ?_⟩ <;> omega

theorem packEta4_eq {t : ℕ → ℕ} (h : ∀ i < 2, t i < 2 ^ 4) :
    packEta4 t = (List.range 1).map fun j => UInt8.ofNat (value 4 2 t / 2 ^ (8 * j)) := by
  have hd := forall_range h
  unfold packEta4
  simp only [List.range, List.range.loop, List.map, List.Forall, List.cons.injEq, and_true, value,
    Nat.zero_add] at hd ⊢
  rw [or_shl 4 (by omega)]
  refine byte_congr ?_
  omega

theorem unpackEta4_eq {a : ℕ → ℕ} (h : ∀ i < 1, a i < 2 ^ 8) :
    unpackEta4 a = (List.range 2).map fun i => value 8 1 a / 2 ^ (4 * i) % 2 ^ 4 := by
  have hd := forall_range h
  have hm : ∀ x, x &&& 15 = x % 16 := fun x => and_mask 4
  unfold unpackEta4
  simp only [List.range, List.range.loop, List.map, List.Forall, List.cons.injEq, and_true, value,
    Nat.shiftRight_eq_div_pow, hm] at hd ⊢
  refine ⟨?_, ?_⟩ <;> omega

theorem unpackT1_eq {a : ℕ → ℕ} (h : ∀ i < 5, a i < 2 ^ 8) :
    unpackT1 a = (List.range 4).map fun i => value 8 5 a / 2 ^ (10 * i) % 2 ^ 10 := by
  have hd := forall_range h
  have hm : ∀ x, x &&& 1023 = x % 1024 := fun x => and_mask 10
  unfold unpackT1
  simp only [List.range, List.range.loop, List.map, List.Forall, List.cons.injEq, and_true, value,
    Nat.zero_add, Nat.reduceAdd, Nat.shiftRight_eq_div_pow, hm] at hd ⊢
  rw [or_shl 8 (by omega), or_shl 6 (by omega), or_shl 4 (by omega), or_shl 2 (by omega)]
  refine ⟨?_, ?_, ?_, ?_⟩ <;> omega

theorem packT0_eq {t : ℕ → ℕ} (h : ∀ i < 8, t i < 2 ^ 13) :
    packT0 t = (List.range 13).map fun j => UInt8.ofNat (value 13 8 t / 2 ^ (8 * j)) := by
  have hd := forall_range h
  unfold packT0
  simp only [List.range, List.range.loop, List.map, List.Forall, List.cons.injEq, and_true, value,
    Nat.zero_add, Nat.reduceAdd, Nat.shiftRight_eq_div_pow] at hd ⊢
  rw [or_shl 5 (by omega), or_shl 2 (by omega), or_shl 7 (by omega), or_shl 4 (by omega),
    or_shl 1 (by omega), or_shl 6 (by omega), or_shl 3 (by omega)]
  refine ⟨?_, ?_, ?_, ?_, ?_, ?_, ?_, ?_, ?_, ?_, ?_, ?_, ?_⟩ <;> refine byte_congr ?_ <;> omega

theorem unpackT0_eq {a : ℕ → ℕ} (h : ∀ i < 13, a i < 2 ^ 8) :
    unpackT0 a = (List.range 8).map fun i => value 8 13 a / 2 ^ (13 * i) % 2 ^ 13 := by
  have hd := forall_range h
  have hm : ∀ x, x &&& 8191 = x % 8192 := fun x => and_mask 13
  unfold unpackT0
  simp only [List.range, List.range.loop, List.map, List.Forall, List.cons.injEq, and_true, value,
    Nat.zero_add, Nat.reduceAdd, Nat.shiftRight_eq_div_pow, hm] at hd ⊢
  rw [or_shl 8 (by omega), or_shl 3 (by omega), or_shl 11 (by omega), or_shl 6 (by omega),
    or_shl 1 (by omega), or_shl 9 (by omega), or_shl 4 (by omega), or_shl 12 (by omega),
    or_shl 7 (by omega), or_shl 2 (by omega), or_shl 10 (by omega), or_shl 5 (by omega)]
  refine ⟨?_, ?_, ?_, ?_, ?_, ?_, ?_, ?_⟩ <;> omega

theorem packZ17_eq {t : ℕ → ℕ} (h : ∀ i < 4, t i < 2 ^ 18) :
    packZ17 t = (List.range 9).map fun j => UInt8.ofNat (value 18 4 t / 2 ^ (8 * j)) := by
  have hd := forall_range h
  unfold packZ17
  simp only [List.range, List.range.loop, List.map, List.Forall, List.cons.injEq, and_true, value,
    Nat.zero_add, Nat.reduceAdd, Nat.shiftRight_eq_div_pow] at hd ⊢
  rw [or_shl 2 (by omega), or_shl 4 (by omega), or_shl 6 (by omega)]
  refine ⟨?_, ?_, ?_, ?_, ?_, ?_, ?_, ?_, ?_⟩ <;> refine byte_congr ?_ <;> omega

theorem unpackZ17_eq {a : ℕ → ℕ} (h : ∀ i < 9, a i < 2 ^ 8) :
    unpackZ17 a = (List.range 4).map fun i => value 8 9 a / 2 ^ (18 * i) % 2 ^ 18 := by
  have hd := forall_range h
  have hm : ∀ x, x &&& 262143 = x % 262144 := fun x => and_mask 18
  unfold unpackZ17
  simp only [List.range, List.range.loop, List.map, List.Forall, List.cons.injEq, and_true, value,
    Nat.zero_add, Nat.reduceAdd, Nat.shiftRight_eq_div_pow, hm] at hd ⊢
  rw [or_shl 8 (by omega), or_shl 16 (by omega), or_shl 6 (by omega), or_shl 14 (by omega),
    or_shl 4 (by omega), or_shl 12 (by omega), or_shl 2 (by omega), or_shl 10 (by omega)]
  refine ⟨?_, ?_, ?_, ?_⟩ <;> omega

theorem packZ19_eq {t : ℕ → ℕ} (h : ∀ i < 2, t i < 2 ^ 20) :
    packZ19 t = (List.range 5).map fun j => UInt8.ofNat (value 20 2 t / 2 ^ (8 * j)) := by
  have hd := forall_range h
  unfold packZ19
  simp only [List.range, List.range.loop, List.map, List.Forall, List.cons.injEq, and_true, value,
    Nat.zero_add, Nat.shiftRight_eq_div_pow] at hd ⊢
  rw [or_shl 4 (by omega)]
  refine ⟨?_, ?_, ?_, ?_, ?_⟩ <;> refine byte_congr ?_ <;> omega

/-- The second entry needs no mask: what is shifted down is four bits shorter. -/
theorem unpackZ19_eq {a : ℕ → ℕ} (h : ∀ i < 5, a i < 2 ^ 8) :
    unpackZ19 a = (List.range 2).map fun i => value 8 5 a / 2 ^ (20 * i) % 2 ^ 20 := by
  have hd := forall_range h
  have hm : ∀ x, x &&& 1048575 = x % 1048576 := fun x => and_mask 20
  unfold unpackZ19
  simp only [List.range, List.range.loop, List.map, List.Forall, List.cons.injEq, and_true, value,
    Nat.zero_add, Nat.reduceAdd, Nat.shiftRight_eq_div_pow, hm] at hd ⊢
  rw [or_shl 8 (by omega), or_shl 16 (by omega), or_shl 4 (by omega), or_shl 12 (by omega)]
  refine ⟨?_, ?_⟩ <;> omega

/-! ### Turns over signed words -/

theorem orByte_cast {x y : ℕ} (hx : x < 2 ^ 32) (hy : y < 2 ^ 32) :
    orByte x y = UInt8.ofNat (x ||| y) := by
  have hu : ∀ {z : ℕ}, z < 2 ^ 32 → unsigned 32 z = z := by
    intro z hz
    unfold unsigned
    omega
  rw [orByte, hu hx, hu hy]

theorem shl_cast {x k : ℕ} (h : x * 2 ^ k < 2 ^ 31) : shl x k = pure ((x * 2 ^ k : ℕ) : ℤ) := by
  have hz : (x : ℤ) * 2 ^ k < 2 ^ 31 := by exact_mod_cast h
  have h0 : (0 : ℤ) ≤ x * 2 ^ k := by positivity
  unfold shl
  rw [Chk.require_true (by simp), pure_bind, Chk.word32 (by omega) (by omega)]
  push_cast
  rfl

theorem packT1_eq {t : ℕ → ℕ} (h : ∀ i < 4, t i < 2 ^ 10) :
    packT1 (fun j => (t j : ℤ)) =
      pure ((List.range 5).map fun j => UInt8.ofNat (value 10 4 t / 2 ^ (8 * j))) := by
  have hd := forall_range h
  simp only [List.range, List.range.loop, List.Forall] at hd
  have hdiv : ∀ (x : ℕ) (k : ℕ), (x : ℤ) / 2 ^ k = ((x / 2 ^ k : ℕ) : ℤ) := by
    intro x k
    push_cast
    rfl
  have h0 : (0 : ℤ) = (0 : ℕ) := rfl
  unfold packT1
  rw [shl_cast (by omega), shl_cast (by omega), shl_cast (by omega), pure_bind, pure_bind,
    pure_bind, hdiv, hdiv, hdiv, hdiv, h0, orByte_cast (by omega) (by omega),
    orByte_cast (by omega) (by omega), orByte_cast (by omega) (by omega),
    orByte_cast (by omega) (by omega), orByte_cast (by omega) (by omega)]
  refine congrArg pure ?_
  simp only [← Nat.shiftLeft_eq]
  rw [or_shl 2 (by omega), or_shl 4 (by omega), or_shl 6 (by omega), Nat.or_zero, Nat.or_zero]
  simp only [List.range, List.range.loop, List.map, List.cons.injEq, and_true, value,
    Nat.zero_add, Nat.reduceAdd]
  refine ⟨?_, ?_, ?_, ?_, ?_⟩ <;> refine byte_congr ?_ <;> omega

theorem packW88_eq {t : ℕ → ℕ} (h : ∀ i < 4, t i < 2 ^ 6) :
    packW88 (fun j => (t j : ℤ)) =
      pure ((List.range 3).map fun j => UInt8.ofNat (value 6 4 t / 2 ^ (8 * j))) := by
  have hd := forall_range h
  simp only [List.range, List.range.loop, List.Forall] at hd
  have hdiv : ∀ (x : ℕ) (k : ℕ), (x : ℤ) / 2 ^ k = ((x / 2 ^ k : ℕ) : ℤ) := by
    intro x k
    push_cast
    rfl
  unfold packW88
  rw [shl_cast (by omega), shl_cast (by omega), shl_cast (by omega), pure_bind, pure_bind,
    pure_bind, hdiv, hdiv, orByte_cast (by omega) (by omega),
    orByte_cast (by omega) (by omega), orByte_cast (by omega) (by omega)]
  refine congrArg pure ?_
  simp only [← Nat.shiftLeft_eq]
  rw [or_shl 6 (by omega), or_shl 4 (by omega), or_shl 2 (by omega)]
  simp only [List.range, List.range.loop, List.map, List.cons.injEq, and_true, value,
    Nat.zero_add, Nat.reduceAdd]
  refine ⟨?_, ?_, ?_⟩ <;> refine byte_congr ?_ <;> omega

theorem packW32_eq {t : ℕ → ℕ} (h : ∀ i < 2, t i < 2 ^ 4) :
    packW32 (fun j => (t j : ℤ)) =
      pure ((List.range 1).map fun j => UInt8.ofNat (value 4 2 t / 2 ^ (8 * j))) := by
  have hd := forall_range h
  simp only [List.range, List.range.loop, List.Forall] at hd
  unfold packW32
  rw [shl_cast (by omega), pure_bind, orByte_cast (by omega) (by omega)]
  refine congrArg pure ?_
  simp only [← Nat.shiftLeft_eq]
  rw [or_shl 4 (by omega)]
  simp only [List.range, List.range.loop, List.map, List.cons.injEq, and_true, value, Nat.zero_add]
  refine byte_congr ?_
  omega

/-! ## The loops -/

/-- A loop of turns that subtract their coefficients from `b`. -/
theorem packGroups_sub {w m nb n v : ℕ} {b : ℤ} {a : Poly} {P : (ℕ → ℕ) → List UInt8}
    (hP : ∀ {t}, (∀ i < m, t i < 2 ^ w) →
      P t = (List.range nb).map fun j => UInt8.ofNat (value w m t / 2 ^ (8 * j)))
    (hwm : w * m = 8 * nb) (hn : m * n = 256) (hwv : w ≤ v) (hw : w ≤ 30)
    (ha : ∀ k < 256, 0 ≤ b - a.rd k ∧ b - a.rd k < 2 ^ w) :
    packGroups n (fun i => (fun t => P t.rd) <$> subFrom v m b a (m * i)) =
      pure (pack w (fun k => (b - a.rd k).toNat) (nb * n)) := by
  have ht : ∀ k < m * n, (b - a.rd k).toNat < 2 ^ w := by
    intro k hk
    obtain ⟨h1, h2⟩ := ha k (by omega)
    zify
    rwa [Int.toNat_of_nonneg h1]
  refine packGroups_eq hwm ht fun g hg => ?_
  have hlast : m * (g + 1) ≤ m * n := Nat.mul_le_mul_left m hg
  rw [Nat.mul_succ] at hlast
  have hsub : subFrom v m b a (m * g) =
      pure (Vector.tab m fun i => (b - a.rd (m * g + i)).toNat) := by
    rw [← Chk.tab_pure]
    refine Chk.tab_congr fun j hj => ?_
    obtain ⟨h1, h2⟩ := ha (m * g + j) (by omega)
    have hp : (2 : ℤ) ^ w ≤ 2 ^ 30 := pow_le_pow_right₀ (by norm_num) hw
    have hv : (2 : ℤ) ^ w ≤ 2 ^ v := pow_le_pow_right₀ (by norm_num) hwv
    rw [Chk.word32 (by omega) (by omega), map_pure]
    unfold unsigned
    rw [Int.emod_eq_of_lt h1 (by omega)]
  have hrd : ∀ i < m, (Vector.tab m fun i => (b - a.rd (m * g + i)).toNat).rd i =
      (b - a.rd (m * g + i)).toNat := fun i hi => Vector.rd_tab _ hi
  rw [hsub, map_pure, hP fun i hi => by rw [hrd i hi]; exact ht _ (by omega), value_congr hrd]

/-- A loop of turns that subtract their entries from `b`. -/
theorem unpackGroups_sub {w m nb : ℕ} {b : ℤ} {p : Bytes} {U : (ℕ → ℕ) → List ℕ}
    (hU : ∀ {a}, (∀ i < nb, a i < 2 ^ 8) →
      U a = (List.range m).map fun i => value 8 nb a / 2 ^ (w * i) % 2 ^ w)
    (hwm : 8 * nb = w * m) (hm : 0 < m) (hn : m ∣ 256) (hw : w ≤ 30) (hb : 0 ≤ b ∧ b ≤ 2 ^ 30) :
    unpackGroups m 256 (fun i => subAll b (U fun j => (p (nb * i + j)).toNat)) =
      pure (Vector.tab 256 fun k => b - unpack w p k) := by
  refine unpackGroups_eq (fun x => b - (x : ℤ)) hwm hm hn fun g _ => ?_
  obtain ⟨hb1, hb2⟩ := hb
  rw [hU fun j _ => (p (nb * g + j)).toNat_lt]
  unfold subAll
  have hsub : ∀ x ∈ (List.range m).map fun i =>
      value 8 nb (fun j => (p (nb * g + j)).toNat) / 2 ^ (w * i) % 2 ^ w,
      Chk.word 32 (b - (x : ℤ)) = pure (b - (x : ℤ)) := by
    intro x hx
    obtain ⟨i, -, rfl⟩ := List.mem_map.1 hx
    have hlt := Nat.mod_lt (value 8 nb (fun j => (p (nb * g + j)).toNat) / 2 ^ (w * i))
      (Nat.two_pow_pos w)
    have hp : 2 ^ w ≤ 2 ^ 30 := Nat.pow_le_pow_right (by norm_num) hw
    refine Chk.word32 ?_ ?_ <;> omega
  rw [Chk.mapM_pure hsub, List.map_map]
  rfl

/-! ## The packers -/

theorem pzpSz_eq (i : Fin 3) :
    (mldsaPar i).pzpSz = 32 * bitlen ((mldsaPar i).gamma1 - 1 + (mldsaPar i).gamma1) := by
  fin_cases i <;> decide

/-- **`polyeta_pack` is `BitPack`**, also on the coefficients out of range that an
encoding can hold. -/
theorem polyetaPack_eq (i : Fin 3) {a : Poly}
    (ha : ∀ k < 256, 0 ≤ (mldsaPar i).eta - a.rd k ∧
      (mldsaPar i).eta - a.rd k < 2 ^ bitlen ((mldsaPar i).eta + (mldsaPar i).eta)) :
    polyetaPack (mldsaPar i) a = pure (bitPack (mldsaPar i).eta (mldsaPar i).eta a.rd) := by
  unfold polyetaPack bitPack
  rcases eta_cases i with h | h
  · rw [if_pos h]
    rw [h] at ha ⊢
    have hlen : bitlen (2 + 2) = 3 := by decide
    rw [hlen] at ha ⊢
    exact packGroups_sub packEta2_eq (by norm_num) (by norm_num) (by norm_num) (by norm_num) ha
  · rw [if_neg (by rw [h]; norm_num), if_pos h]
    rw [h] at ha ⊢
    have hlen : bitlen (4 + 4) = 4 := by decide
    rw [hlen] at ha ⊢
    exact packGroups_sub packEta4_eq (by norm_num) (by norm_num) (by norm_num) (by norm_num) ha

/-- **`polyeta_unpack` is `BitUnpack`.** -/
theorem polyetaUnpack_eq (i : Fin 3) (p : Bytes) :
    polyetaUnpack (mldsaPar i) p =
      pure (Vector.tab 256 (bitUnpack (mldsaPar i).eta (mldsaPar i).eta p)) := by
  unfold polyetaUnpack bitUnpack
  rcases eta_cases i with h | h
  · rw [if_pos h, h]
    have hlen : bitlen (2 + 2) = 3 := by decide
    rw [hlen]
    exact unpackGroups_sub unpackEta2_eq (by norm_num) (by norm_num) (by norm_num) (by norm_num)
      (by norm_num)
  · rw [if_neg (by rw [h]; norm_num), if_pos h, h]
    have hlen : bitlen (4 + 4) = 4 := by decide
    rw [hlen]
    exact unpackGroups_sub unpackEta4_eq (by norm_num) (by norm_num) (by norm_num) (by norm_num)
      (by norm_num)

/-- The coefficients of a nonnegative polynomial as natural numbers. -/
theorem packGroups_nat {w m nb n : ℕ} {a : Poly} {P : (ℕ → ℤ) → Chk (List UInt8)}
    (hP : ∀ {t : ℕ → ℕ}, (∀ i < m, t i < 2 ^ w) → P (fun j => (t j : ℤ)) =
      pure ((List.range nb).map fun j => UInt8.ofNat (value w m t / 2 ^ (8 * j))))
    (hcongr : ∀ {x y : ℕ → ℤ}, (∀ i < m, x i = y i) → P x = P y)
    (hwm : w * m = 8 * nb) (hn : m * n = 256) (ha : ∀ k < 256, 0 ≤ a.rd k ∧ a.rd k < 2 ^ w) :
    packGroups n (fun i => P fun j => a.rd (m * i + j)) =
      pure (pack w (fun k => (a.rd k).toNat) (nb * n)) := by
  have ht : ∀ k < m * n, (a.rd k).toNat < 2 ^ w := by
    intro k hk
    obtain ⟨h1, h2⟩ := ha k (by omega)
    zify
    rwa [Int.toNat_of_nonneg h1]
  refine packGroups_eq hwm ht fun g hg => ?_
  have hlast : m * (g + 1) ≤ m * n := Nat.mul_le_mul_left m hg
  rw [Nat.mul_succ] at hlast
  rw [← hP fun i hi => ht (m * g + i) (by omega)]
  exact hcongr fun i hi => (Int.toNat_of_nonneg (ha _ (by omega)).1).symm

/-- **`polyt1_pack` is `SimpleBitPack`.** -/
theorem polyt1Pack_eq {a : Poly} (ha : ∀ k < 256, 0 ≤ a.rd k ∧ a.rd k < 2 ^ 10) :
    polyt1Pack a = pure (simpleBitPack (2 ^ 10 - 1) fun k => (a.rd k).toNat) := by
  have hlen : bitlen (2 ^ 10 - 1) = 10 := by decide
  unfold polyt1Pack simpleBitPack
  rw [hlen]
  refine packGroups_nat packT1_eq (fun {x y} h => ?_) (by norm_num) (by norm_num) ha
  unfold packT1
  rw [h 0 (by norm_num), h 1 (by norm_num), h 2 (by norm_num), h 3 (by norm_num)]

/-- **`polyt1_unpack` is `SimpleBitUnpack`.** -/
theorem polyt1Unpack_eq (p : Bytes) :
    polyt1Unpack p = pure (Vector.tab 256 fun k => (simpleBitUnpack (2 ^ 10 - 1) p k : ℤ)) := by
  have hlen : bitlen (2 ^ 10 - 1) = 10 := by decide
  unfold polyt1Unpack simpleBitUnpack
  rw [hlen]
  refine unpackGroups_eq (fun x : ℕ => (x : ℤ)) (show 8 * 5 = 10 * 4 by norm_num) (by norm_num)
    (by norm_num) fun g _ => ?_
  rw [unpackT1_eq fun j _ => (p (5 * g + j)).toNat_lt, List.map_map]
  rfl

/-- **`polyt0_pack` is `BitPack`.** -/
theorem polyt0Pack_eq {a : Poly} (ha : ∀ k < 256, -(2 ^ 12 - 1) ≤ a.rd k ∧ a.rd k ≤ 2 ^ 12) :
    polyt0Pack a = pure (bitPack (2 ^ 12 - 1) (2 ^ 12) a.rd) := by
  have hlen : bitlen (2 ^ 12 - 1 + 2 ^ 12) = 13 := by decide
  have hD : (2 : ℤ) ^ (parD - 1) = 2 ^ 12 := rfl
  unfold polyt0Pack bitPack
  rw [hlen, hD]
  simp only [Nat.cast_pow, Nat.cast_ofNat]
  exact packGroups_sub packT0_eq (by norm_num) (by norm_num) (by norm_num) (by norm_num)
    fun k hk => by have := ha k hk; omega

/-- **`polyt0_unpack` is `BitUnpack`.** -/
theorem polyt0Unpack_eq (p : Bytes) :
    polyt0Unpack p = pure (Vector.tab 256 (bitUnpack (2 ^ 12 - 1) (2 ^ 12) p)) := by
  have hlen : bitlen (2 ^ 12 - 1 + 2 ^ 12) = 13 := by decide
  have hD : (2 : ℤ) ^ (parD - 1) = 2 ^ 12 := rfl
  unfold polyt0Unpack bitUnpack
  rw [hlen, hD]
  simp only [Nat.cast_pow, Nat.cast_ofNat]
  exact unpackGroups_sub unpackT0_eq (by norm_num) (by norm_num) (by norm_num) (by norm_num)
    (by norm_num)

/-- **`polyz_pack` is `BitPack`.** -/
theorem polyzPack_eq (i : Fin 3) {a : Poly}
    (ha : ∀ k < 256, -((mldsaPar i).gamma1 - 1) ≤ a.rd k ∧ a.rd k ≤ (mldsaPar i).gamma1) :
    polyzPack (mldsaPar i) a =
      pure (bitPack ((mldsaPar i).gamma1 - 1) (mldsaPar i).gamma1 a.rd) := by
  unfold polyzPack bitPack
  rcases gamma1_cases i with h | h
  · rw [if_pos (show (mldsaPar i).gamma1 = 1 <<< 17 from h)]
    rw [h] at ha ⊢
    have hlen : bitlen (2 ^ 17 - 1 + 2 ^ 17) = 18 := by decide
    rw [hlen, show 32 * 18 = 9 * 64 by norm_num]
    simp only [Nat.cast_pow, Nat.cast_ofNat] at ha ⊢
    exact packGroups_sub packZ17_eq (by norm_num) (by norm_num) (by norm_num) (by norm_num)
      fun k hk => by have := ha k hk; omega
  · rw [if_neg (by rw [h]; decide), if_pos (show (mldsaPar i).gamma1 = 1 <<< 19 from h)]
    rw [h] at ha ⊢
    have hlen : bitlen (2 ^ 19 - 1 + 2 ^ 19) = 20 := by decide
    rw [hlen, show 32 * 20 = 5 * 128 by norm_num]
    simp only [Nat.cast_pow, Nat.cast_ofNat] at ha ⊢
    exact packGroups_sub packZ19_eq (by norm_num) (by norm_num) (by norm_num) (by norm_num)
      fun k hk => by have := ha k hk; omega

/-- **`polyz_unpack` is `BitUnpack`.** -/
theorem polyzUnpack_eq (i : Fin 3) (p : Bytes) :
    polyzUnpack (mldsaPar i) p =
      pure (Vector.tab 256 (bitUnpack ((mldsaPar i).gamma1 - 1) (mldsaPar i).gamma1 p)) := by
  unfold polyzUnpack bitUnpack
  rcases gamma1_cases i with h | h
  · rw [if_pos (show (mldsaPar i).gamma1 = 1 <<< 17 from h), h]
    have hlen : bitlen (2 ^ 17 - 1 + 2 ^ 17) = 18 := by decide
    rw [hlen]
    simp only [Nat.cast_pow, Nat.cast_ofNat]
    exact unpackGroups_sub unpackZ17_eq (by norm_num) (by norm_num) (by norm_num) (by norm_num)
      (by norm_num)
  · rw [if_neg (by rw [h]; decide), if_pos (show (mldsaPar i).gamma1 = 1 <<< 19 from h), h]
    have hlen : bitlen (2 ^ 19 - 1 + 2 ^ 19) = 20 := by decide
    rw [hlen]
    simp only [Nat.cast_pow, Nat.cast_ofNat]
    exact unpackGroups_sub unpackZ19_eq (by norm_num) (by norm_num) (by norm_num) (by norm_num)
      (by norm_num)

/-- **`polyw1_pack` is `SimpleBitPack`.** -/
theorem polyw1Pack_eq (i : Fin 3) {a : Poly}
    (ha : ∀ k < 256, 0 ≤ a.rd k ∧ a.rd k < 8380416 / (2 * (mldsaPar i).gamma2)) :
    polyw1Pack (mldsaPar i) a =
      pure (simpleBitPack (8380416 / (2 * (mldsaPar i).gamma2) - 1) fun k => (a.rd k).toNat) := by
  unfold polyw1Pack simpleBitPack
  rcases gamma2_cases i with h | h
  · rw [if_pos h]
    rw [h] at ha ⊢
    have hlen : bitlen (8380416 / (2 * 95232) - 1) = 6 := by decide
    rw [hlen]
    refine packGroups_nat packW88_eq (fun {x y} h => ?_) (by norm_num) (by norm_num)
      fun k hk => by have := ha k hk; omega
    unfold packW88
    rw [h 0 (by norm_num), h 1 (by norm_num), h 2 (by norm_num), h 3 (by norm_num)]
  · rw [if_neg (by rw [h]; norm_num)]
    rw [h] at ha ⊢
    have hlen : bitlen (8380416 / (2 * 261888) - 1) = 4 := by decide
    rw [hlen]
    refine packGroups_nat packW32_eq (fun {x y} h => ?_) (by norm_num) (by norm_num)
      fun k hk => by have := ha k hk; omega
    unfold packW32
    rw [h 0 (by norm_num), h 1 (by norm_num)]

end Mldsa
