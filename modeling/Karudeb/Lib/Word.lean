import Mathlib.Tactic
import Mathlib.Data.ZMod.Basic

/-!
# Machine words, and Montgomery reduction on them

The reading a `w`-bit machine gives an integer, and the arithmetic of
Montgomery's reduction over that reading, for any width and any odd modulus.

* `wrap w x` is the two's complement reading of `x` in `w` bits and `Fits w x`
  says that `x` survives it untouched (`wrap_of_fits`, `fits_wrap`).
* `land w` is the bitwise conjunction of two `w`-bit words.  The only two masks
  that branch-free code uses are `0` and `-1` (`land_zero`, `land_neg_one`).
* `montRed w q qinv a` is the Montgomery reduction `(a - t*q) / 2^w`, with `t`
  the signed low word of `a * qinv`.  The division is exact (`montRed_mul`), so
  the result is `a / 2^w` modulo `q` (`cast_montRed`), and its size is bounded
  from both sides by the extreme values of `t` (`montRed_le`, `le_montRed`).
-/

namespace Word

/-! ## Two's complement -/

/-- The integer stored in a signed `w`-bit word when `x` is assigned to it. -/
def wrap (w : ℕ) (x : ℤ) : ℤ := (x + 2 ^ (w - 1)) % 2 ^ w - 2 ^ (w - 1)

/-- The range of a signed `w`-bit word. -/
def Fits (w : ℕ) (x : ℤ) : Prop := -2 ^ (w - 1) ≤ x ∧ x < 2 ^ (w - 1)

instance (w : ℕ) (x : ℤ) : Decidable (Fits w x) :=
  inferInstanceAs (Decidable (_ ∧ _))

theorem fits_16 {x : ℤ} : Fits 16 x ↔ -32768 ≤ x ∧ x < 32768 := Iff.rfl

theorem fits_32 {x : ℤ} : Fits 32 x ↔ -2147483648 ≤ x ∧ x < 2147483648 := Iff.rfl

theorem fits_64 {x : ℤ} :
    Fits 64 x ↔ -9223372036854775808 ≤ x ∧ x < 9223372036854775808 := Iff.rfl

theorem two_pow_pred {w : ℕ} (hw : 0 < w) : (2 : ℤ) ^ w = 2 * 2 ^ (w - 1) := by
  rw [← pow_succ', Nat.sub_add_cancel hw]

theorem wrap_of_fits {w : ℕ} (hw : 0 < w) {x : ℤ} (h : Fits w x) : wrap w x = x := by
  obtain ⟨h1, h2⟩ := h
  have hp := two_pow_pred hw
  rw [wrap, Int.emod_eq_of_lt (by omega) (by omega)]
  ring

theorem fits_wrap {w : ℕ} (hw : 0 < w) (x : ℤ) : Fits w (wrap w x) := by
  have hp := two_pow_pred hw
  have hpos : (0 : ℤ) < 2 ^ w := by positivity
  have h1 := Int.emod_nonneg (x + 2 ^ (w - 1)) hpos.ne'
  have h2 := Int.emod_lt_of_pos (x + 2 ^ (w - 1)) hpos
  constructor <;> rw [wrap] <;> omega

theorem wrap_modEq (w : ℕ) (x : ℤ) : wrap w x ≡ x [ZMOD 2 ^ w] := by
  have h : (x + 2 ^ (w - 1)) % 2 ^ w ≡ x + 2 ^ (w - 1) [ZMOD 2 ^ w] := Int.mod_modEq _ _
  simpa [wrap] using h.sub_right (2 ^ (w - 1))

/-- The machine's reading only depends on the residue modulo `2^w`. -/
theorem wrap_congr {w : ℕ} {x y : ℤ} (h : x ≡ y [ZMOD 2 ^ w]) : wrap w x = wrap w y := by
  have h' : x + 2 ^ (w - 1) ≡ y + 2 ^ (w - 1) [ZMOD 2 ^ w] := h.add_right _
  rw [wrap, wrap, h']

/-- Reading a wide word and then its low part is reading the low part. -/
theorem wrap_wrap {w w' : ℕ} (h : w ≤ w') (x : ℤ) : wrap w (wrap w' x) = wrap w x :=
  wrap_congr ((wrap_modEq w' x).of_dvd (pow_dvd_pow 2 h))

/-- Only the final reading of a difference matters. -/
theorem wrap_sub_wrap (w : ℕ) (x y : ℤ) : wrap w (wrap w x - wrap w y) = wrap w (x - y) :=
  wrap_congr ((wrap_modEq w x).sub (wrap_modEq w y))

/-- A signed word as an unsigned one. -/
def unsigned (w : ℕ) (x : ℤ) : ℕ := (x % 2 ^ w).toNat

theorem unsigned_natCast {w x : ℕ} (h : x < 2 ^ w) : unsigned w x = x := by
  have h' : (x : ℤ) < 2 ^ w := by exact_mod_cast h
  rw [unsigned, Int.emod_eq_of_lt (Int.natCast_nonneg x) h', Int.toNat_natCast]

/-! ## Masks -/

/-- Bitwise conjunction of two `w`-bit words. -/
def land (w : ℕ) (x y : ℤ) : ℤ := (BitVec.ofInt w x &&& BitVec.ofInt w y).toInt

@[simp] theorem land_zero (w : ℕ) (y : ℤ) : land w 0 y = 0 := by
  simp [land]

theorem ofInt_toInt_eq_wrap {w : ℕ} (hw : 0 < w) (y : ℤ) : (BitVec.ofInt w y).toInt = wrap w y := by
  have hp := two_pow_pred hw
  have h1 : (BitVec.ofInt w y).toInt ≡ y [ZMOD 2 ^ w] := by
    rw [BitVec.toInt_ofInt]
    have h : Int.bmod y (2 ^ w) % ((2 ^ w : ℕ) : ℤ) = y % ((2 ^ w : ℕ) : ℤ) := Int.bmod_emod
    push_cast at h
    exact h
  rw [← wrap_congr h1, wrap_of_fits hw]
  constructor
  · exact BitVec.le_toInt _
  · exact BitVec.toInt_lt

@[simp] theorem land_neg_one {w : ℕ} (hw : 0 < w) (y : ℤ) : land w (-1) y = wrap w y := by
  have h : BitVec.ofInt w (-1) = BitVec.allOnes w := by
    rw [← BitVec.neg_one_eq_allOnes, BitVec.ofInt_neg]
    rfl
  rw [land, h, BitVec.allOnes_and, ofInt_toInt_eq_wrap hw]

/-- The low bits of a word. -/
theorem land_two_pow_sub_one {w k : ℕ} (hk : k < w) (y : ℤ) : land w y (2 ^ k - 1) = y % 2 ^ k := by
  have hmask : BitVec.ofInt w (2 ^ k - 1) = BitVec.ofNat w (2 ^ k - 1) := by
    rw [← BitVec.ofInt_natCast]
    congr 1
    rw [Nat.cast_sub Nat.one_le_two_pow]
    norm_num
  have hlt : 2 ^ k - 1 < 2 ^ w := by
    have := Nat.pow_le_pow_right (show 0 < 2 by norm_num) hk.le
    have := Nat.two_pow_pos k
    omega
  have hnat : (BitVec.ofInt w y &&& BitVec.ofInt w (2 ^ k - 1)).toNat =
      (BitVec.ofInt w y).toNat % 2 ^ k := by
    rw [hmask, BitVec.toNat_and, BitVec.toNat_ofNat, Nat.mod_eq_of_lt hlt,
      Nat.and_two_pow_sub_one_eq_mod]
  have hdvd : (2 : ℤ) ^ k ∣ 2 ^ w := pow_dvd_pow 2 hk.le
  have hval : ((BitVec.ofInt w y).toNat : ℤ) = y % 2 ^ w := by
    rw [BitVec.toNat_ofInt, Int.toNat_of_nonneg (Int.emod_nonneg _ (by positivity))]
    push_cast
    rfl
  have hsmall : 2 * ((BitVec.ofInt w y).toNat % 2 ^ k) < 2 ^ w := by
    have h1 := Nat.mod_lt (BitVec.ofInt w y).toNat (Nat.two_pow_pos k)
    have h2 := Nat.pow_le_pow_right (show 0 < 2 by norm_num) hk
    rw [Nat.pow_succ] at h2
    omega
  rw [land, BitVec.toInt_eq_toNat_of_lt (by rw [hnat]; exact hsmall), hnat]
  push_cast
  rw [hval, Int.emod_emod_of_dvd _ hdvd]

/-- Bitwise exclusive disjunction of two `w`-bit words. -/
def lxor (w : ℕ) (x y : ℤ) : ℤ := (BitVec.ofInt w x ^^^ BitVec.ofInt w y).toInt

theorem lxor_zero {w : ℕ} (hw : 0 < w) (x : ℤ) : lxor w x 0 = wrap w x := by
  have h : BitVec.ofInt w 0 = 0#w := rfl
  rw [lxor, h, BitVec.xor_zero, ofInt_toInt_eq_wrap hw]

/-! ## Montgomery reduction -/

/-- Montgomery reduction of `a` by the word `2^w`: subtract the multiple of `q`
that clears the low word, and drop that word. -/
def montRed (w : ℕ) (q qinv a : ℤ) : ℤ := (a - wrap w (a * qinv) * q) / 2 ^ w

section Montgomery

variable {w : ℕ} {q qinv : ℤ} (hq : qinv * q ≡ 1 [ZMOD 2 ^ w])

include hq

/-- The low word is cleared exactly. -/
theorem montRed_mul (a : ℤ) : montRed w q qinv a * 2 ^ w = a - wrap w (a * qinv) * q := by
  refine Int.ediv_mul_cancel (Int.ModEq.dvd ?_)
  calc wrap w (a * qinv) * q ≡ a * qinv * q [ZMOD 2 ^ w] := (wrap_modEq w _).mul_right q
    _ = a * (qinv * q) := by ring
    _ ≡ a * 1 [ZMOD 2 ^ w] := hq.mul_left a
    _ = a := mul_one a

/-- Montgomery reduction divides by `2^w` modulo `q`. -/
theorem cast_montRed {p : ℕ} (hp : (q : ZMod p) = 0) (a : ℤ) :
    (montRed w q qinv a : ZMod p) * 2 ^ w = (a : ZMod p) := by
  have h := congrArg (fun z : ℤ => (z : ZMod p)) (montRed_mul hq a)
  push_cast at h
  rw [h, hp]
  ring

theorem montRed_le (hw : 0 < w) (hq0 : 0 ≤ q) (a : ℤ) :
    montRed w q qinv a * 2 ^ w ≤ a + 2 ^ (w - 1) * q := by
  have ht := (fits_wrap hw (a * qinv)).1
  have := mul_le_mul_of_nonneg_right ht hq0
  rw [montRed_mul hq a]
  linarith

theorem le_montRed (hw : 0 < w) (hq0 : 0 ≤ q) (a : ℤ) :
    a - (2 ^ (w - 1) - 1) * q ≤ montRed w q qinv a * 2 ^ w := by
  have ht : wrap w (a * qinv) ≤ 2 ^ (w - 1) - 1 := by
    have := (fits_wrap hw (a * qinv)).2
    omega
  have := mul_le_mul_of_nonneg_right ht hq0
  rw [montRed_mul hq a]
  linarith

end Montgomery

end Word
