import Karudeb.Mlkem.CompressSpec
import Karudeb.Mlkem.PolySpec

/-!
# ML-KEM: messages and uncompressed vectors

The encodings that lose nothing.  `poly_tobytes` splits any 12-bit numbers into
bytes, also those from `q` on, and `poly_tomsg` rounds centered representatives as
the standard rounds their residues, although it never corrects their sign.

* `polyTomsg_eq`, `polyFrommsg_eq` : messages are those of the standard.
* `compress_noisy` : a bit survives an error of up to 831.
* `plainCodec` : the three round trips.
-/

namespace Mlkem

open Word Bits Fips203

/-! ## Messages -/

/-- The word arithmetic rounds to a bit as the standard does; a negative representative
wraps around, and is rounded as its residue is. -/
theorem roundWord1_eq : ∀ x < 3329, roundWord 32 1 1665 80635 28 x = compress 1 x ∧
    (0 < x ∧ x ≤ 1664 →
      roundWord 32 1 1665 80635 28 (2 ^ 32 - x) = compress 1 (3329 - x)) :=
  forall_coeff (by decide +kernel)

/-- **A bit of `poly_tomsg`** is the standard's, on a centered representative. -/
theorem compress1_eq {a : ℤ} (ha : |a| ≤ 1664) : compress1 a = pure (compress 1 (a : Zq).val) := by
  obtain ⟨h1, h2⟩ := abs_le.1 ha
  have hval := val_cast a
  unfold compress1
  rw [wantCoeff_eq (ha.trans_lt (by norm_num)), pure_bind]
  refine congrArg pure ?_
  by_cases hneg : a < 0
  · have hunsigned : unsigned 32 a = 2 ^ 32 - a.natAbs := by
      unfold unsigned
      omega
    have hrep : (a : Zq).val = 3329 - a.natAbs := by omega
    rw [hunsigned, hrep]
    exact (roundWord1_eq _ (by omega)).2 ⟨by omega, by omega⟩
  · have hunsigned : unsigned 32 a = a.natAbs := by
      unfold unsigned
      omega
    have hrep : (a : Zq).val = a.natAbs := by omega
    rw [hunsigned, hrep]
    exact (roundWord1_eq _ (by omega)).1

/-- **`poly_tomsg` is `ByteEncode_1` after `Compress_1`.** -/
theorem polyTomsg_eq {a : Poly} (ha : ∀ k < 256, |a.rd k| ≤ 1664) :
    polyTomsg a = pure (byteEncode 1 fun k => compress 1 (a.rd k : Zq).val) :=
  packLoop_eq packMsg_eq (by norm_num) (by norm_num) (fun k hk => compress1_eq (ha k hk))
    fun k _ => compress_lt 1 _

theorem cmovInt16_bit {x : ℕ} (hx : x < 2 ^ 1) :
    cmovInt16 0 ((parQ + 1) / 2) x = (decompress 1 x : ℤ) := by
  have hx' : x = 0 ∨ x = 1 := by omega
  rcases hx' with rfl | rfl
  · decide
  · decide

/-- **`poly_frommsg` is `Decompress_1` after `ByteDecode_1`.** -/
theorem polyFrommsg_eq (msg : Bytes) :
    polyFrommsg msg = pure (Vector.tab 256 fun k => (decompress 1 (byteDecode 1 msg k) : ℤ)) :=
  unpackLoop_eq (fun x => decompress 1 x) msg unpackMsg_eq (by norm_num) (by norm_num)
    (by norm_num) fun _ hx => cmovInt16_bit hx

/-- **A bit survives** an error that stays below a quarter of `q`. -/
theorem compress_noisy {b : ℕ} {e : ℤ} (hb : b < 2 ^ 1) (he : |e| ≤ 831) :
    compress 1 (((decompress 1 b : ℤ) + e : ℤ) : Zq).val = b := by
  obtain ⟨h1, h2⟩ := abs_le.1 he
  have hval := val_cast ((decompress 1 b : ℤ) + e)
  have hb' : b = 0 ∨ b = 1 := by omega
  generalize ((((decompress 1 b : ℤ) + e : ℤ) : Zq).val) = x at *
  unfold compress decompress at *
  rcases hb' with rfl | rfl
  · simp only [Nat.reduceAdd, Nat.reducePow, Nat.reduceMul, Nat.reduceDiv] at *
    omega
  · simp only [Nat.reduceAdd, Nat.reducePow, Nat.reduceMul, Nat.reduceDiv] at *
    omega

-- an error of 832 flips a bit, on one side
example : compress 1 (((decompress 1 1 : ℤ) + 832 : ℤ) : Zq).val = 0 ∧
    compress 1 (((decompress 1 1 : ℤ) - 832 : ℤ) : Zq).val = 1 := by
  decide

/-- `poly_tomsg` after `poly_reduce` after an error on `poly_frommsg`. -/
theorem polyTomsg_noisy (build : Build) (m : Bytes) {e : Poly} (he : ∀ k < 256, |e.rd k| ≤ 831) :
    (do
      let s ← polyFrommsg m
      let s ← polyAdd build s e
      let s ← polyReduce build s
      polyTomsg s) = pure (m.take 32) := by
  rw [polyFrommsg_eq, pure_bind]
  have hbit : ∀ k, byteDecode 1 m k < 2 ^ 1 := fun k => byteDecode_lt 1 m k
  have hm : Bounded 1665 (Vector.tab 256 fun k => (decompress 1 (byteDecode 1 m k) : ℤ)) := by
    intro k hk
    have hb := hbit k
    rw [Vector.rd_tab _ hk, abs_of_nonneg (Int.natCast_nonneg _)]
    unfold decompress
    omega
  refine Chk.Holds.eq_pure ?_
  refine (polyAdd_spec build hm he (by norm_num)).bind fun s hs => ?_
  refine (polyReduce_spec build (hs.1.mono (by norm_num))).bind fun r hr => ?_
  rw [polyTomsg_eq hr.1]
  refine Chk.Holds.pure ?_
  rw [← byteEncode_byteDecode (show 0 < 1 by norm_num) m]
  refine byteEncode_congr fun k hk => ?_
  rw [hr.2 k hk, hs.2 k hk, Vector.rd_tab _ hk]
  exact compress_noisy (hbit k) (he k hk)

/-! ## Uncompressed vectors -/

/-- What an encoder leaves only depends on the numbers it is left for the coefficients. -/
theorem val_packLoop (m : ℕ) (f : ℤ → Chk ℕ) (p : (ℕ → ℕ) → List UInt8) (a : Poly) :
    (packLoop m f p a).val = (packLoop m (fun x => pure (f x).val) p a).val := rfl

/-- Twelve bits are left as they are, also from `q` on. -/
theorem val_posRep16 {x : ℕ} (hx : x < 2 ^ 12) : (posRep16 x).val = x := by
  have hu : unsigned 16 (x : ℤ) = x := unsigned_natCast (by omega)
  have hw : wrap 16 (x : ℤ) = x := wrap_of_fits (by norm_num) (fits_16.2 ⟨by omega, by omega⟩)
  have hmask : ((x : ℤ) / 2 ^ 15) = 0 := by omega
  have h0 : unsigned 16 0 = 0 := by decide
  unfold posRep16
  rw [Chk.val_bind]
  dsimp only
  rw [hu, hw, hmask, land_zero, h0]
  exact Nat.mod_eq_of_lt (by omega)

theorem val_polyTobytes_polyFrombytes (b : Bytes) :
    (polyTobytes (polyFrombytes b).val).val = b.take 384 := by
  have hlt : ∀ k, byteDecode 12 b k < 2 ^ 12 := byteDecode_lt 12 b
  rw [polyFrombytes_eq, Chk.val_pure, polyTobytes, val_packLoop,
    packLoop_eq pack12_eq (by norm_num) (by norm_num)
      (fun k hk => congrArg pure (by rw [Vector.rd_tab _ hk]; exact val_posRep16 (hlt k)))
      fun k _ => hlt k]
  exact byteEncode_byteDecode (by norm_num) b

/-- **Any bytes survive** `polyvec_frombytes` and `polyvec_tobytes`. -/
theorem val_polyvecTobytes_polyvecFrombytes (k : ℕ) (b : Bytes) :
    (polyvecTobytes (polyvecFrombytes k b).val).val = b.take (k * 384) := by
  have hpoly : ∀ j < k, (polyTobytes ((polyvecFrombytes k b).val.rd j)).val =
      (b.drop (j * 384)).take 384 := by
    intro j hj
    have hrd : (polyvecFrombytes k b).val.rd j = (polyFrombytes (b.drop (j * polySz))).val := by
      unfold polyvecFrombytes
      rw [Chk.val_tab, Vector.rd_tab _ hj]
    rw [hrd, val_polyTobytes_polyFrombytes, polySz]
  have hblocks : b.take (k * 384) =
      (List.range k).flatMap fun j => (b.drop (j * 384)).take 384 :=
    (Bytes.take_flatMap b fun j _ => Bytes.length_take _ _).2 fun j _ => rfl
  rw [hblocks]
  exact List.flatMap_congr fun j hj => hpoly j (List.mem_range.1 hj)

/-- **Any small coefficients survive**, as their standard representatives. -/
theorem polyvecFrombytes_polyvecTobytes {k : ℕ} {a : PolyVec k}
    (ha : ∀ j < k, ∀ l < 256, |(a.rd j).rd l| < 3329) :
    ∃ s : List UInt8, polyvecTobytes a = pure s ∧ s.length = k * 384 ∧
      ∀ b : Bytes, b.take (k * 384) = s → polyvecFrombytes k b =
        pure (Vector.tab k fun j => Vector.tab 256 fun l => (a.rd j).rd l % 3329) := by
  refine ⟨_, polyvecTobytes_eq ha, ?_, fun b hb => ?_⟩
  · rw [List.length_flatMap]
    simp [length_byteEncode]
  · have hblocks := (Bytes.take_flatMap b fun j _ => length_byteEncode 12 _).1 hb
    rw [polyvecFrombytes_eq]
    refine congrArg pure (Vector.tab_congr fun j hj => Vector.tab_congr fun l hl => ?_)
    rw [byteDecode_byteEncode (hblocks j hj) hl ((val_lt _).trans (by norm_num)), val_cast]

/-- **The encodings that lose nothing.**  Any bytes survive `polyvec_frombytes` and
`polyvec_tobytes`; a vector with coefficients between `-q` and `q` comes back as its
standard representatives; and a message survives any error of up to 831. -/
theorem plainCodec (i : Fin 3) :
    (∀ b : Bytes, (polyvecTobytes (polyvecFrombytes (mlkemPar i).k b).val).val =
      b.take ((mlkemPar i).k * 384)) ∧
    (∀ a : PolyVec (mlkemPar i).k,
      (∀ j < (mlkemPar i).k, ∀ l < 256, -parQ < (a.rd j).rd l ∧ (a.rd j).rd l < parQ) →
      ∃ s : List UInt8, polyvecTobytes a = pure s ∧ s.length = (mlkemPar i).k * 384 ∧
        ∀ b : Bytes, b.take ((mlkemPar i).k * 384) = s → polyvecFrombytes (mlkemPar i).k b =
          pure (Vector.tab _ fun j => Vector.tab 256 fun l => (a.rd j).rd l % parQ)) ∧
    ∀ (build : Build) (m : Bytes) (e : Poly), (∀ l < 256, |e.rd l| ≤ 831) →
      (do
        let s ← polyFrommsg m
        let s ← polyAdd build s e
        let s ← polyReduce build s
        polyTomsg s) = pure (m.take 32) := by
  refine ⟨fun b => val_polyvecTobytes_polyvecFrombytes _ b, fun a ha => ?_,
    fun build m e he => polyTomsg_noisy build m he⟩
  exact polyvecFrombytes_polyvecTobytes fun j hj l hl => abs_lt.2 (ha j hj l hl)

/-- The coefficients and the errors at the ends of their ranges. -/
theorem plainCodec_top :
    (∃ s : List UInt8, polyvecTobytes (Vector.tab _ fun _ => Vector.tab 256 fun _ => -3328 :
      PolyVec (mlkemPar 2).k) = pure s ∧ s.length = 1536) ∧
    (do
      let s ← polyFrommsg fun _ => 165
      let s ← polyAdd .scalar s (Vector.tab 256 fun _ => -831)
      let s ← polyReduce .scalar s
      polyTomsg s) = pure (Bytes.take (fun _ => 165) 32) := by
  obtain ⟨s, hs, hlen, -⟩ := (plainCodec 2).2.1 (Vector.tab _ fun _ => Vector.tab 256 fun _ => -3328)
    fun j hj l hl => by
      rw [Vector.rd_tab _ hj, Vector.rd_tab _ hl]
      decide
  refine ⟨⟨s, hs, hlen⟩, (plainCodec 2).2.2 .scalar (fun _ => 165) _ fun l hl => ?_⟩
  rw [Vector.rd_tab _ hl]
  norm_num

end Mlkem
