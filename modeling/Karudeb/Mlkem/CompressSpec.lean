import Karudeb.Mlkem.Compress
import Karudeb.Mlkem.Fips203

/-!
# ML-KEM: the encoders are those of the standard

Every turn of an encoder writes the bytes of one number, the one its group of
coefficients are the digits of, and every turn of a decoder reads the digits of
one; so the loops are `ByteEncode` and `ByteDecode`, and the division-free
rounding is `Compress`.

* `polyCompress_eq`, `polyvecCompress_eq`, `polyTobytes_eq` : the encoders write the
  standard's bytes.
* `polyDecompress_eq`, `polyvecDecompress_eq`, `polyFrombytes_eq` : on any bytes the
  decoders read the standard's coefficients.
* `packCiphertext_unpackCiphertext` : decoding and encoding a ciphertext gives it back.
-/

namespace Mlkem

open Word Bits Fips203

/-! ## Rounding -/

theorem val_cast (a : ℤ) : (((a : Zq).val : ℕ) : ℤ) = a % 3329 := ZMod.val_intCast a

theorem wantCoeff_eq {a : ℤ} (ha : |a| < 3329) : wantCoeff a = pure () := by
  obtain ⟨h1, h2⟩ := abs_lt.1 ha
  refine Chk.require_true ?_
  simp only [decide_eq_true_eq, parQ]
  exact ⟨h1, h2⟩

/-- The sign mask takes `q` or nothing. -/
theorem land_sign {w : ℕ} (hw : 12 < w) {a : ℤ} (ha : |a| < 3329) :
    land w (a / 2 ^ 15) parQ = if a < 0 then 3329 else 0 := by
  obtain ⟨h1, h2⟩ := abs_lt.1 ha
  split
  · have hmask : a / 2 ^ 15 = -1 := by omega
    have hp : (2 : ℤ) ^ 12 ≤ 2 ^ (w - 1) := pow_le_pow_right₀ (by norm_num) (by omega)
    rw [hmask, land_neg_one (by omega)]
    exact wrap_of_fits (by omega) ⟨by simp only [parQ]; omega, by simp only [parQ]; omega⟩
  · have hmask : a / 2 ^ 15 = 0 := by omega
    rw [hmask, land_zero]

theorem posRep_eq {a : ℤ} (ha : |a| < 3329) : posRep a = pure (((a : Zq).val : ℕ) : ℤ) := by
  obtain ⟨h1, h2⟩ := abs_lt.1 ha
  unfold posRep
  rw [wantCoeff_eq ha, pure_bind, land_sign (by norm_num) ha, val_cast]
  split
  · rw [Chk.word32 (by omega) (by omega)]
    congr 1
    omega
  · rw [Chk.word32 (by omega) (by omega)]
    congr 1
    omega

theorem posRep16_eq {a : ℤ} (ha : |a| < 3329) : posRep16 a = pure (a : Zq).val := by
  obtain ⟨h1, h2⟩ := abs_lt.1 ha
  have hval := val_cast a
  have hwrap : wrap 16 (unsigned 16 a) = a := by
    have hmod : ((unsigned 16 a : ℕ) : ℤ) ≡ a [ZMOD 2 ^ 16] := by
      rw [unsigned, Int.toNat_of_nonneg (Int.emod_nonneg _ (by norm_num))]
      exact Int.mod_modEq a _
    rw [wrap_congr hmod]
    exact wrap_of_fits (by norm_num) (fits_16.2 ⟨by omega, by omega⟩)
  unfold posRep16
  rw [wantCoeff_eq ha, pure_bind]
  dsimp only
  rw [hwrap, land_sign (by norm_num) ha]
  refine congrArg pure ?_
  split
  · have hq : unsigned 16 3329 = 3329 := by decide
    rw [hq]
    unfold unsigned
    omega
  · have hq : unsigned 16 0 = 0 := by decide
    rw [hq]
    unfold unsigned
    omega

/-- A finite check of all coefficients, in two levels. -/
theorem forall_coeff {P : ℕ → Prop} (h : ∀ i < 53, ∀ j < 64, 64 * i + j < 3329 → P (64 * i + j)) :
    ∀ x < 3329, P x := by
  intro x hx
  have hx' := h (x / 64) (by omega) (x % 64) (by omega)
  rw [Nat.div_add_mod] at hx'
  exact hx' hx

/-- **The word arithmetic rounds as the standard does**, at every residue. -/
theorem roundWord_eq : ∀ x < 3329,
    roundWord 32 4 1665 80635 28 x = compress 4 x ∧
      roundWord 32 5 1664 40318 27 x = compress 5 x ∧
        roundWord 64 10 1665 1290167 32 x = compress 10 x ∧
          roundWord 64 11 1664 645084 31 x = compress 11 x :=
  forall_coeff (by decide +kernel)

theorem val_lt (a : ℤ) : (a : Zq).val < 3329 := ZMod.val_lt _

theorem unsigned_val (a : ℤ) : unsigned 32 (((a : Zq).val : ℕ) : ℤ) = (a : Zq).val :=
  unsigned_natCast ((val_lt a).trans (by norm_num))

theorem compress4_eq {a : ℤ} (ha : |a| < 3329) : compress4 a = pure (compress 4 (a : Zq).val) := by
  rw [compress4, posRep_eq ha, map_pure, unsigned_val, (roundWord_eq _ (val_lt a)).1]

theorem compress5_eq {a : ℤ} (ha : |a| < 3329) : compress5 a = pure (compress 5 (a : Zq).val) := by
  rw [compress5, posRep_eq ha, map_pure, unsigned_val, (roundWord_eq _ (val_lt a)).2.1]

theorem compress10_eq {a : ℤ} (ha : |a| < 3329) :
    compress10 a = pure (compress 10 (a : Zq).val) := by
  rw [compress10, posRep16_eq ha, map_pure, (roundWord_eq _ (val_lt a)).2.2.1]

theorem compress11_eq {a : ℤ} (ha : |a| < 3329) :
    compress11 a = pure (compress 11 (a : Zq).val) := by
  rw [compress11, posRep16_eq ha, map_pure, (roundWord_eq _ (val_lt a)).2.2.2]

theorem decompressWord_eq {d x : ℕ} (hd : d ∈ [4, 5, 10, 11]) (hx : x < 2 ^ d) :
    decompressWord d x = (decompress d x : ℤ) := by
  have hsmall : ∀ y : ℕ, y < 3330 → wrap 16 (y : ℤ) = y := fun y hy =>
    wrap_of_fits (by norm_num) (fits_16.2 ⟨by omega, by omega⟩)
  unfold decompressWord decompress
  simp only [List.mem_cons, List.not_mem_nil, or_false] at hd
  rcases hd with rfl | rfl | rfl | rfl
  all_goals
    simp only [Nat.reduceSub, Nat.reducePow, Nat.reduceMul, Nat.reduceAdd,
      Nat.shiftRight_eq_div_pow] at hx ⊢
    rw [Nat.mod_eq_of_lt (by omega), hsmall _ (by omega)]
    exact congrArg Nat.cast (by omega)

/-! ## The turns -/

theorem and_mask (x k : ℕ) : x &&& (2 ^ k - 1) = x % 2 ^ k := Nat.and_two_pow_sub_one_eq_mod x k

theorem packC4_eq {t : ℕ → ℕ} (h : ∀ i < 8, t i < 2 ^ 4) :
    packC4 t = (List.range 4).map fun j => UInt8.ofNat (value 4 8 t / 2 ^ (8 * j)) := by
  have hd := forall_range h
  unfold packC4
  simp only [List.range, List.range.loop, List.map, List.Forall, List.cons.injEq, and_true, value,
    Nat.zero_add, Nat.reduceAdd] at hd ⊢
  rw [or_shl 4 (by omega), or_shl 4 (by omega), or_shl 4 (by omega), or_shl 4 (by omega)]
  refine ⟨byte_congr ?_, byte_congr ?_, byte_congr ?_, byte_congr ?_⟩ <;> omega

theorem packC5_eq {t : ℕ → ℕ} (h : ∀ i < 8, t i < 2 ^ 5) :
    packC5 t = (List.range 5).map fun j => UInt8.ofNat (value 5 8 t / 2 ^ (8 * j)) := by
  have hd := forall_range h
  unfold packC5
  simp only [List.range, List.range.loop, List.map, List.Forall, List.cons.injEq, and_true, value,
    Nat.zero_add, Nat.reduceAdd, Nat.shiftRight_eq_div_pow] at hd ⊢
  rw [or_shl 5 (by omega), or_shl 2 (by omega), or_shl 7 (by omega), or_shl 4 (by omega),
    or_shl 1 (by omega), or_shl 6 (by omega), or_shl 3 (by omega)]
  refine ⟨byte_congr ?_, byte_congr ?_, byte_congr ?_, byte_congr ?_, byte_congr ?_⟩ <;> omega

theorem packC10_eq {t : ℕ → ℕ} (h : ∀ i < 4, t i < 2 ^ 10) :
    packC10 t = (List.range 5).map fun j => UInt8.ofNat (value 10 4 t / 2 ^ (8 * j)) := by
  have hd := forall_range h
  unfold packC10
  simp only [List.range, List.range.loop, List.map, List.Forall, List.cons.injEq, and_true, value,
    Nat.zero_add, Nat.reduceAdd, Nat.shiftRight_eq_div_pow] at hd ⊢
  rw [or_shl 2 (by omega), or_shl 4 (by omega), or_shl 6 (by omega)]
  refine ⟨byte_congr ?_, byte_congr ?_, byte_congr ?_, byte_congr ?_, byte_congr ?_⟩ <;> omega

theorem packC11_eq {t : ℕ → ℕ} (h : ∀ i < 8, t i < 2 ^ 11) :
    packC11 t = (List.range 11).map fun j => UInt8.ofNat (value 11 8 t / 2 ^ (8 * j)) := by
  have hd := forall_range h
  unfold packC11
  simp only [List.range, List.range.loop, List.map, List.Forall, List.cons.injEq, and_true, value,
    Nat.zero_add, Nat.reduceAdd, Nat.shiftRight_eq_div_pow] at hd ⊢
  rw [or_shl 3 (by omega), or_shl 6 (by omega), or_shl 1 (by omega), or_shl 4 (by omega),
    or_shl 7 (by omega), or_shl 2 (by omega), or_shl 5 (by omega)]
  refine ⟨?_, ?_, ?_, ?_, ?_, ?_, ?_, ?_, ?_, ?_, ?_⟩ <;> refine byte_congr ?_ <;> omega

theorem pack12_eq {t : ℕ → ℕ} (h : ∀ i < 2, t i < 2 ^ 12) :
    pack12 t = (List.range 3).map fun j => UInt8.ofNat (value 12 2 t / 2 ^ (8 * j)) := by
  have hd := forall_range h
  unfold pack12
  simp only [List.range, List.range.loop, List.map, List.Forall, List.cons.injEq, and_true, value,
    Nat.zero_add, Nat.shiftRight_eq_div_pow] at hd ⊢
  rw [or_shl 4 (by omega)]
  refine ⟨byte_congr ?_, byte_congr ?_, byte_congr ?_⟩ <;> omega

theorem packMsg_eq {t : ℕ → ℕ} (h : ∀ i < 8, t i < 2 ^ 1) :
    packMsg t = (List.range 1).map fun j => UInt8.ofNat (value 1 8 t / 2 ^ (8 * j)) := by
  have hd := forall_range h
  unfold packMsg
  simp only [List.range, List.range.loop, List.map, List.foldl, List.Forall, List.cons.injEq,
    and_true, value, Nat.zero_add, Nat.reduceAdd] at hd ⊢
  rw [or_shl 0 (by omega), or_shl 1 (by omega), or_shl 2 (by omega), or_shl 3 (by omega),
    or_shl 4 (by omega), or_shl 5 (by omega), or_shl 6 (by omega), or_shl 7 (by omega)]
  refine byte_congr ?_
  omega

theorem unpackC4_eq {a : ℕ → ℕ} (h : ∀ i < 1, a i < 2 ^ 8) :
    unpackC4 a = (List.range 2).map fun i => value 8 1 a / 2 ^ (4 * i) % 2 ^ 4 := by
  have hd := forall_range h
  have hm : ∀ x, x &&& 15 = x % 16 := fun x => and_mask x 4
  unfold unpackC4
  simp only [List.range, List.range.loop, List.map, List.Forall, List.cons.injEq, and_true, value,
    Nat.shiftRight_eq_div_pow, hm] at hd ⊢
  refine ⟨?_, ?_⟩ <;> omega

theorem unpackC5_eq {a : ℕ → ℕ} (h : ∀ i < 5, a i < 2 ^ 8) :
    unpackC5 a = (List.range 8).map fun i => value 8 5 a / 2 ^ (5 * i) % 2 ^ 5 := by
  have hd := forall_range h
  have hm : ∀ x, x &&& 31 = x % 32 := fun x => and_mask x 5
  unfold unpackC5
  simp only [List.range, List.range.loop, List.map, List.Forall, List.cons.injEq, and_true, value,
    Nat.zero_add, Nat.reduceAdd, Nat.shiftRight_eq_div_pow, hm] at hd ⊢
  rw [or_shl 3 (by omega), or_shl 1 (by omega), or_shl 4 (by omega), or_shl 2 (by omega)]
  refine ⟨?_, ?_, ?_, ?_, ?_, ?_, ?_, ?_⟩ <;> omega

theorem unpackC10_eq {a : ℕ → ℕ} (h : ∀ i < 5, a i < 2 ^ 8) :
    unpackC10 a = (List.range 4).map fun i => value 8 5 a / 2 ^ (10 * i) % 2 ^ 10 := by
  have hd := forall_range h
  have hm : ∀ x, x &&& 1023 = x % 1024 := fun x => and_mask x 10
  unfold unpackC10
  simp only [List.range, List.range.loop, List.map, List.Forall, List.cons.injEq, and_true, value,
    Nat.zero_add, Nat.reduceAdd, Nat.shiftRight_eq_div_pow, hm] at hd ⊢
  rw [or_shl 8 (by omega), or_shl 6 (by omega), or_shl 4 (by omega), or_shl 2 (by omega)]
  refine ⟨?_, ?_, ?_, ?_⟩ <;> omega

theorem unpackC11_eq {a : ℕ → ℕ} (h : ∀ i < 11, a i < 2 ^ 8) :
    unpackC11 a = (List.range 8).map fun i => value 8 11 a / 2 ^ (11 * i) % 2 ^ 11 := by
  have hd := forall_range h
  have hm : ∀ x, x &&& 2047 = x % 2048 := fun x => and_mask x 11
  unfold unpackC11
  simp only [List.range, List.range.loop, List.map, List.Forall, List.cons.injEq, and_true, value,
    Nat.zero_add, Nat.reduceAdd, Nat.shiftRight_eq_div_pow, hm] at hd ⊢
  rw [or_shl 8 (by omega), or_shl 5 (by omega), or_shl 2 (by omega), or_shl 10 (by omega),
    or_shl 7 (by omega), or_shl 4 (by omega), or_shl 1 (by omega), or_shl 9 (by omega),
    or_shl 6 (by omega), or_shl 3 (by omega)]
  refine ⟨?_, ?_, ?_, ?_, ?_, ?_, ?_, ?_⟩ <;> omega

theorem unpack12_eq {a : ℕ → ℕ} (h : ∀ i < 3, a i < 2 ^ 8) :
    unpack12 a = (List.range 2).map fun i => value 8 3 a / 2 ^ (12 * i) % 2 ^ 12 := by
  have hd := forall_range h
  have hm : ∀ x, x &&& 4095 = x % 4096 := fun x => and_mask x 12
  unfold unpack12
  simp only [List.range, List.range.loop, List.map, List.Forall, List.cons.injEq, and_true, value,
    Nat.zero_add, Nat.reduceAdd, Nat.shiftRight_eq_div_pow, hm] at hd ⊢
  rw [or_shl 8 (by omega), or_shl 4 (by omega)]
  refine ⟨?_, ?_⟩ <;> omega

theorem unpackMsg_eq {a : ℕ → ℕ} (h : ∀ i < 1, a i < 2 ^ 8) :
    unpackMsg a = (List.range 8).map fun i => value 8 1 a / 2 ^ (1 * i) % 2 ^ 1 := by
  have h0 := h 0 (by norm_num)
  refine List.map_congr_left fun i _ => ?_
  rw [Nat.shiftRight_eq_div_pow, Nat.one_mul, pow_one, Nat.and_one_is_mod]
  rfl

/-! ## The loops -/

/-- An encoder writes the bytes of the stream of its numbers. -/
theorem packLoop_eq {w m nb : ℕ} {f : ℤ → Chk ℕ} {p : (ℕ → ℕ) → List UInt8} {a : Poly} {t : ℕ → ℕ}
    (hp : ∀ {t : ℕ → ℕ}, (∀ i < m, t i < 2 ^ w) →
      p t = (List.range nb).map fun j => UInt8.ofNat (value w m t / 2 ^ (8 * j)))
    (hwm : w * m = 8 * nb) (hm : m * (256 / m) = 256) (hf : ∀ k < 256, f (a.rd k) = pure (t k))
    (ht : ∀ k < 256, t k < 2 ^ w) : packLoop m f p a = pure (byteEncode w t) := by
  have hlen : nb * (256 / m) = 32 * w := by
    have h : 8 * (nb * (256 / m)) = 8 * (32 * w) := by
      rw [← mul_assoc, ← hwm, mul_assoc, hm]
      ring
    omega
  unfold packLoop byteEncode
  rw [← hlen]
  refine packGroups_eq hwm (fun k hk => ht k (by omega)) fun g hg => ?_
  have hle : m * (g + 1) ≤ m * (256 / m) := Nat.mul_le_mul_left m hg
  rw [Nat.mul_succ, hm] at hle
  have htab : (Chk.tab m fun j => f (a.rd (m * g + j))) =
      pure (Vector.tab m fun j => t (m * g + j)) := by
    rw [← Chk.tab_pure]
    exact Chk.tab_congr fun j hj => hf _ (by omega)
  have hrd : ∀ j < m, (Vector.tab m fun j => t (m * g + j)).rd j = t (m * g + j) := fun j hj =>
    Vector.rd_tab _ hj
  rw [htab, map_pure, hp fun j hj => by rw [hrd j hj]; exact ht _ (by omega), value_congr hrd]

/-- A decoder reads the numbers of the stream of its bytes. -/
theorem unpackLoop_eq {w m nb : ℕ} {u : (ℕ → ℕ) → List ℕ} {F : ℕ → ℤ} (F' : ℕ → ℤ) (b : Bytes)
    (hu : ∀ {a : ℕ → ℕ}, (∀ i < nb, a i < 2 ^ 8) →
      u a = (List.range m).map fun i => value 8 nb a / 2 ^ (w * i) % 2 ^ w)
    (hwm : 8 * nb = w * m) (hm : 0 < m) (hN : m ∣ 256) (hF : ∀ x < 2 ^ w, F x = F' x) :
    unpackLoop m nb u F b = pure (Vector.tab 256 fun k => F' (byteDecode w b k)) := by
  refine unpackGroups_eq F' hwm hm hN fun g _ => ?_
  rw [hu fun j _ => (b (nb * g + j)).toNat_lt, List.map_map]
  refine congrArg pure (List.map_congr_left fun i _ => ?_)
  exact hF _ (Nat.mod_lt _ (Nat.two_pow_pos w))

/-! ## The encoders and decoders -/

/-- The parameters `du` and `dv` go together. -/
theorem du_dv_cases (i : Fin 3) : ((mlkemPar i).du = 10 ∧ (mlkemPar i).dv = 4) ∨
    ((mlkemPar i).du = 11 ∧ (mlkemPar i).dv = 5) := by
  fin_cases i <;> decide

/-- **`poly_compress` is `ByteEncode` after `Compress`.** -/
theorem polyCompress_eq (i : Fin 3) {a : Poly} (ha : ∀ k < 256, |a.rd k| < 3329) :
    polyCompress (mlkemPar i) a =
      pure (byteEncode (mlkemPar i).dv fun k => compress (mlkemPar i).dv (a.rd k : Zq).val) := by
  unfold polyCompress
  rcases du_dv_cases i with ⟨-, h⟩ | ⟨-, h⟩
  · rw [if_pos h, h]
    exact packLoop_eq packC4_eq (by norm_num) (by norm_num) (fun k hk => compress4_eq (ha k hk))
      fun k _ => compress_lt 4 _
  · rw [if_neg (by rw [h]; norm_num), h]
    exact packLoop_eq packC5_eq (by norm_num) (by norm_num) (fun k hk => compress5_eq (ha k hk))
      fun k _ => compress_lt 5 _

/-- **`poly_decompress` is `Decompress` after `ByteDecode`.** -/
theorem polyDecompress_eq (i : Fin 3) (b : Bytes) :
    polyDecompress (mlkemPar i) b = pure (Vector.tab 256 fun k =>
      (decompress (mlkemPar i).dv (byteDecode (mlkemPar i).dv b k) : ℤ)) := by
  unfold polyDecompress
  rcases du_dv_cases i with ⟨-, h⟩ | ⟨-, h⟩
  · rw [if_pos h, h]
    exact unpackLoop_eq (fun x => decompress 4 x) b unpackC4_eq (by norm_num) (by norm_num)
      (by norm_num) fun x hx => decompressWord_eq (by decide) hx
  · rw [if_neg (by rw [h]; norm_num), h]
    exact unpackLoop_eq (fun x => decompress 5 x) b unpackC5_eq (by norm_num) (by norm_num)
      (by norm_num) fun x hx => decompressWord_eq (by decide) hx

/-- One polynomial of `polyvec_compress` for `du = 10`. -/
theorem packLoop10_eq {a : Poly} (ha : ∀ k < 256, |a.rd k| < 3329) :
    packLoop 4 compress10 packC10 a =
      pure (byteEncode 10 fun k => compress 10 (a.rd k : Zq).val) :=
  packLoop_eq packC10_eq (by norm_num) (by norm_num) (fun k hk => compress10_eq (ha k hk))
    fun k _ => compress_lt 10 _

/-- One polynomial of `polyvec_compress` for `du = 11`. -/
theorem packLoop11_eq {a : Poly} (ha : ∀ k < 256, |a.rd k| < 3329) :
    packLoop 8 compress11 packC11 a =
      pure (byteEncode 11 fun k => compress 11 (a.rd k : Zq).val) :=
  packLoop_eq packC11_eq (by norm_num) (by norm_num) (fun k hk => compress11_eq (ha k hk))
    fun k _ => compress_lt 11 _

/-- **`polyvec_compress`**, polynomial by polynomial. -/
theorem polyvecCompress_eq (i : Fin 3) {k : ℕ} {a : PolyVec k}
    (ha : ∀ j < k, ∀ l < 256, |(a.rd j).rd l| < 3329) :
    polyvecCompress (mlkemPar i) a = pure ((List.range k).flatMap fun j =>
      byteEncode (mlkemPar i).du fun l => compress (mlkemPar i).du ((a.rd j).rd l : Zq).val) := by
  unfold polyvecCompress
  rcases du_dv_cases i with ⟨h, -⟩ | ⟨h, -⟩
  · simp only [h]
    exact packGroups_congr fun j hj => packLoop10_eq (ha j hj)
  · simp only [h]
    exact packGroups_congr fun j hj => packLoop11_eq (ha j hj)

/-- One polynomial of `polyvec_decompress` for `du = 10`. -/
theorem unpackLoop10_eq (b : Bytes) : unpackLoop 4 5 unpackC10 (decompressWord 10) b =
    pure (Vector.tab 256 fun k => (decompress 10 (byteDecode 10 b k) : ℤ)) :=
  unpackLoop_eq (fun x => decompress 10 x) b unpackC10_eq (by norm_num) (by norm_num) (by norm_num)
    fun x hx => decompressWord_eq (by decide) hx

/-- One polynomial of `polyvec_decompress` for `du = 11`. -/
theorem unpackLoop11_eq (b : Bytes) : unpackLoop 8 11 unpackC11 (decompressWord 11) b =
    pure (Vector.tab 256 fun k => (decompress 11 (byteDecode 11 b k) : ℤ)) :=
  unpackLoop_eq (fun x => decompress 11 x) b unpackC11_eq (by norm_num) (by norm_num) (by norm_num)
    fun x hx => decompressWord_eq (by decide) hx

/-- **`polyvec_decompress`**, polynomial by polynomial. -/
theorem polyvecDecompress_eq (i : Fin 3) (k : ℕ) (b : Bytes) :
    polyvecDecompress (mlkemPar i) k b = pure (Vector.tab k fun j => Vector.tab 256 fun l =>
      (decompress (mlkemPar i).du
        (byteDecode (mlkemPar i).du (b.drop (j * (32 * (mlkemPar i).du))) l) : ℤ)) := by
  unfold polyvecDecompress
  rcases du_dv_cases i with ⟨h, -⟩ | ⟨h, -⟩
  · have hne : ¬(mlkemPar i).du = 11 := by
      rw [h]
      norm_num
    rw [if_neg hne, h, ← Chk.tab_pure]
    exact Chk.tab_congr fun j _ => unpackLoop10_eq _
  · rw [if_pos h, h, ← Chk.tab_pure]
    exact Chk.tab_congr fun j _ => unpackLoop11_eq _

/-- **`poly_tobytes` is `ByteEncode_12`** of the standard representatives. -/
theorem polyTobytes_eq {a : Poly} (ha : ∀ k < 256, |a.rd k| < 3329) :
    polyTobytes a = pure (byteEncode 12 fun k => (a.rd k : Zq).val) :=
  packLoop_eq pack12_eq (by norm_num) (by norm_num) (fun k hk => posRep16_eq (ha k hk))
    fun k _ => (val_lt _).trans (by norm_num)

/-- **`poly_frombytes` reads the numbers of `ByteDecode_12`.** -/
theorem polyFrombytes_eq (b : Bytes) :
    polyFrombytes b = pure (Vector.tab 256 fun k => (byteDecode 12 b k : ℤ)) :=
  unpackLoop_eq (fun x => x) b unpack12_eq (by norm_num) (by norm_num) (by norm_num) fun _ _ => rfl

/-- **`polyvec_tobytes`**, polynomial by polynomial. -/
theorem polyvecTobytes_eq {k : ℕ} {a : PolyVec k} (ha : ∀ j < k, ∀ l < 256, |(a.rd j).rd l| < 3329) :
    polyvecTobytes a = pure ((List.range k).flatMap fun j =>
      byteEncode 12 fun l => ((a.rd j).rd l : Zq).val) :=
  packGroups_congr fun j hj => polyTobytes_eq (ha j hj)

/-- **`polyvec_frombytes`**, polynomial by polynomial. -/
theorem polyvecFrombytes_eq (k : ℕ) (b : Bytes) :
    polyvecFrombytes k b = pure (Vector.tab k fun j => Vector.tab 256 fun l =>
      (byteDecode 12 (b.drop (j * 384)) l : ℤ)) := by
  unfold polyvecFrombytes
  rw [← Chk.tab_pure]
  exact Chk.tab_congr fun j _ => polyFrombytes_eq _

/-! ## Decompression and compression -/

theorem round_div (d : ℕ) :
    round ((3329 : ℚ) / 2 ^ (d + 1)) = (3329 + 2 ^ d) / ((2 ^ (d + 1) : ℕ) : ℤ) := by
  have hpos : (2 : ℚ) ^ d ≠ 0 := by positivity
  have hsum : (3329 : ℚ) / 2 ^ (d + 1) + 1 / 2 =
      ((3329 + 2 ^ d : ℤ) : ℚ) / ((2 ^ (d + 1) : ℕ) : ℚ) := by
    push_cast
    rw [pow_succ]
    field_simp
  rw [round_eq, hsum, Rat.floor_intCast_div_natCast]

/-- How far compression moves a coefficient. -/
theorem bmod_compress {d x : ℕ} (hd : 0 < d) (hx : x < 3329) :
    |((decompress d (compress d x) : ℤ) - x).bmod 3329| ≤ round ((3329 : ℚ) / 2 ^ (d + 1)) := by
  have hnear := decompress_compress (d := d) hx
  have hB : (3329 + 2 ^ d) / 2 ^ (d + 1) ≤ 832 := by
    have hpow : 2 ^ (d + 1) = 2 * 2 ^ d := pow_succ' 2 d
    have htwo : 2 ^ 1 ≤ 2 ^ d := Nat.pow_le_pow_right (by norm_num) hd
    refine Nat.le_of_lt_succ (Nat.div_lt_of_lt_mul ?_)
    omega
  have hcast : ((3329 + 2 ^ d) / ((2 ^ (d + 1) : ℕ) : ℤ)) = ((3329 + 2 ^ d) / 2 ^ (d + 1) : ℕ) := by
    push_cast
    rfl
  rw [round_div, hcast, Int.bmod_def]
  refine abs_le.2 ?_
  split <;> omega

/-- The centered difference only depends on the standard representative. -/
theorem bmod_sub_val (y a : ℤ) : (y - a).bmod 3329 = (y - ((a : Zq).val : ℕ)).bmod 3329 := by
  have h : (y - a) % (3329 : ℕ) = (y - ((a : Zq).val : ℕ)) % (3329 : ℕ) := by
    rw [val_cast]
    have := Int.mod_modEq a 3329
    exact (this.symm.sub_left y)
  rw [← Int.emod_bmod, h, Int.emod_bmod]

/-! ## Ciphertexts -/

theorem ctSz_eq (i : Fin 3) : (mlkemPar i).ctSz =
    (mlkemPar i).k * (32 * (mlkemPar i).du) + 32 * (mlkemPar i).dv := by
  fin_cases i <;> decide

theorem du_lt (i : Fin 3) : 0 < (mlkemPar i).du ∧ 2 ^ (mlkemPar i).du < 3329 := by
  fin_cases i <;> decide

theorem dv_lt (i : Fin 3) : 0 < (mlkemPar i).dv ∧ 2 ^ (mlkemPar i).dv < 3329 := by
  fin_cases i <;> decide

theorem vOffset_eq (i : Fin 3) : (mlkemPar i).k * (mlkemPar i).du * (256 / 8) =
    (mlkemPar i).k * (32 * (mlkemPar i).du) := by
  rw [mul_assoc, mul_comm (mlkemPar i).du]

/-- **`pack_ciphertext`** writes the compressed coefficients, block after block. -/
theorem packCiphertext_eq (i : Fin 3) {b : PolyVec (mlkemPar i).k} {v : Poly}
    (hb : ∀ j < (mlkemPar i).k, ∀ l < 256, |(b.rd j).rd l| < 3329)
    (hv : ∀ l < 256, |v.rd l| < 3329) :
    packCiphertext (mlkemPar i) b v = pure (((List.range (mlkemPar i).k).flatMap fun j =>
      byteEncode (mlkemPar i).du fun l => compress (mlkemPar i).du ((b.rd j).rd l : Zq).val) ++
        byteEncode (mlkemPar i).dv fun l => compress (mlkemPar i).dv (v.rd l : Zq).val) := by
  unfold packCiphertext
  rw [polyvecCompress_eq i hb, pure_bind, polyCompress_eq i hv, pure_bind]

/-- **`unpack_ciphertext`** reads them, on any bytes. -/
theorem unpackCiphertext_eq (i : Fin 3) (c : Bytes) :
    unpackCiphertext (mlkemPar i) c = pure
      (Vector.tab (mlkemPar i).k fun j => Vector.tab 256 fun l => (decompress (mlkemPar i).du
        (byteDecode (mlkemPar i).du (c.drop (j * (32 * (mlkemPar i).du))) l) : ℤ),
      Vector.tab 256 fun l => (decompress (mlkemPar i).dv (byteDecode (mlkemPar i).dv
        (c.drop ((mlkemPar i).k * (32 * (mlkemPar i).du))) l) : ℤ)) := by
  unfold unpackCiphertext
  rw [polyvecDecompress_eq, pure_bind, vOffset_eq, polyDecompress_eq, pure_bind]

/-- A decoded coefficient can be encoded, to the same number. -/
theorem decoded_coeff {d y : ℕ} (hd : 2 ^ d < 3329) (hy : y < 2 ^ d) :
    |((decompress d y : ℕ) : ℤ)| < 3329 ∧
      compress d (((decompress d y : ℕ) : ℤ) : Zq).val = y := by
  have hlt := decompress_lt hd hy
  constructor
  · rw [abs_of_nonneg (Int.natCast_nonneg _)]
    exact_mod_cast hlt
  · rw [Int.cast_natCast, ZMod.val_cast_of_lt hlt, compress_decompress hd hy]

/-- **Encoding what was decoded** gives the bytes back. -/
theorem packCiphertext_unpackCiphertext (i : Fin 3) (c : Bytes) :
    (do
      let p ← unpackCiphertext (mlkemPar i) c
      packCiphertext (mlkemPar i) p.1 p.2) = pure (c.take (mlkemPar i).ctSz) := by
  obtain ⟨hpos, hdu⟩ := du_lt i
  obtain ⟨hpos', hdv⟩ := dv_lt i
  rw [unpackCiphertext_eq, pure_bind]
  dsimp only
  have hb : ∀ j < (mlkemPar i).k, ∀ l < 256, ((Vector.tab (mlkemPar i).k fun j =>
      Vector.tab 256 fun l => (decompress (mlkemPar i).du (byteDecode (mlkemPar i).du
        (c.drop (j * (32 * (mlkemPar i).du))) l) : ℤ)).rd j).rd l =
      (decompress (mlkemPar i).du (byteDecode (mlkemPar i).du
        (c.drop (j * (32 * (mlkemPar i).du))) l) : ℤ) := fun j hj l hl => by
    rw [Vector.rd_tab _ hj, Vector.rd_tab _ hl]
  rw [packCiphertext_eq i
    (fun j hj l hl => by
      rw [hb j hj l hl]
      exact (decoded_coeff hdu (byteDecode_lt _ _ _)).1)
    (fun l hl => by
      rw [Vector.rd_tab _ hl]
      exact (decoded_coeff hdv (byteDecode_lt _ _ _)).1)]
  refine congrArg pure ?_
  rw [ctSz_eq, Bytes.take_add]
  refine congrArg₂ (· ++ ·) ?_ ?_
  · refine ((Bytes.take_flatMap _ fun j _ => length_byteEncode _ _).2 fun j hj => ?_).symm
    rw [← byteEncode_byteDecode hpos]
    refine (byteEncode_congr fun l hl => ?_).symm
    rw [hb j hj l hl]
    exact (decoded_coeff hdu (byteDecode_lt _ _ _)).2
  · rw [← byteEncode_byteDecode hpos']
    refine byteEncode_congr fun l hl => ?_
    rw [Vector.rd_tab _ hl]
    exact (decoded_coeff hdv (byteDecode_lt _ _ _)).2

/-- `y` is a coefficient that a decoder can give for `a`, kept in `d` bits. -/
def Near (d : ℕ) (a y : ℤ) : Prop :=
  0 ≤ y ∧ y ≤ parQ ∧ |(y - a).bmod 3329| ≤ round ((3329 : ℚ) / 2 ^ (d + 1))

theorem near_of_compress {d : ℕ} (hpos : 0 < d) (hd : 2 ^ d < 3329) (a : ℤ) :
    Near d a (decompress d (compress d (a : Zq).val) : ℕ) := by
  have hlt := decompress_lt hd (compress_lt d (a : Zq).val)
  refine ⟨Int.natCast_nonneg _, by simp only [parQ]; omega, ?_⟩
  rw [bmod_sub_val]
  exact bmod_compress hpos (val_lt a)

/-- **The ciphertext encoding.**  Encoding what was decoded from any bytes gives the bytes
back, and what is decoded from an encoding differs from what was encoded by the rounding
only. -/
theorem ciphertextCodec (i : Fin 3) :
    (∀ c : Bytes, (do
      let p ← unpackCiphertext (mlkemPar i) c
      packCiphertext (mlkemPar i) p.1 p.2) = pure (c.take (mlkemPar i).ctSz)) ∧
    ∀ (b : PolyVec (mlkemPar i).k) (v : Poly),
      (∀ j < (mlkemPar i).k, ∀ l < 256, |(b.rd j).rd l| < parQ) → (∀ l < 256, |v.rd l| < parQ) →
      ∃ s : List UInt8, packCiphertext (mlkemPar i) b v = pure s ∧
        s.length = (mlkemPar i).ctSz ∧ ∀ c : Bytes, c.take (mlkemPar i).ctSz = s →
          Chk.Holds (unpackCiphertext (mlkemPar i) c) fun p =>
            (∀ j < (mlkemPar i).k, ∀ l < 256,
              Near (mlkemPar i).du ((b.rd j).rd l) ((p.1.rd j).rd l)) ∧
            ∀ l < 256, Near (mlkemPar i).dv (v.rd l) (p.2.rd l) := by
  refine ⟨packCiphertext_unpackCiphertext i, fun b v hb hv => ?_⟩
  obtain ⟨hpos, hdu⟩ := du_lt i
  obtain ⟨hpos', hdv⟩ := dv_lt i
  have hlen : ((List.range (mlkemPar i).k).flatMap fun j => byteEncode (mlkemPar i).du
      fun l => compress (mlkemPar i).du ((b.rd j).rd l : Zq).val).length =
        (mlkemPar i).k * (32 * (mlkemPar i).du) := by
    rw [List.length_flatMap]
    simp [length_byteEncode]
  refine ⟨_, packCiphertext_eq i hb hv, ?_, fun c hc => ?_⟩
  · rw [List.length_append, hlen, length_byteEncode, ctSz_eq]
  · rw [ctSz_eq, Bytes.take_add] at hc
    obtain ⟨hcb, hcv⟩ := List.append_inj hc (by rw [Bytes.length_take, hlen])
    have hblocks := (Bytes.take_flatMap _ fun j _ => length_byteEncode _ _).1 hcb
    rw [unpackCiphertext_eq]
    refine Chk.Holds.pure ⟨fun j hj l hl => ?_, fun l hl => ?_⟩
    · rw [Vector.rd_tab _ hj, Vector.rd_tab _ hl,
        byteDecode_byteEncode (hblocks j hj) hl (compress_lt _ _)]
      exact near_of_compress hpos hdu _
    · rw [Vector.rd_tab _ hl, byteDecode_byteEncode hcv hl (compress_lt _ _)]
      exact near_of_compress hpos' hdv _

/-- The coefficients at the ends of their range. -/
theorem ciphertextCodec_top :
    ∃ s : List UInt8, packCiphertext (mlkemPar 2)
        (Vector.tab _ fun _ => Vector.tab 256 fun _ => 3328) (Vector.tab 256 fun _ => -3328) =
          pure s ∧ s.length = 1568 := by
  obtain ⟨s, hs, hlen, -⟩ := (ciphertextCodec 2).2
    (Vector.tab _ fun _ => Vector.tab 256 fun _ => 3328)
    (Vector.tab 256 fun _ => -3328) (fun j hj l hl => by
      rw [Vector.rd_tab _ hj, Vector.rd_tab _ hl]
      decide) fun l hl => by
      rw [Vector.rd_tab _ hl]
      decide
  exact ⟨s, hs, hlen⟩

end Mlkem
