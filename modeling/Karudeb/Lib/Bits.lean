import Karudeb.Lib.Buffer
import Mathlib.Data.Nat.Bitwise

/-!
# Streams of fixed-width numbers

Packing is a change of width: the numbers `t 0, t 1, ...` of `w` bits each are
written one after the other, least significant bits first, and the stream is
cut again every `v` bits.

* `regroup w v t` is the stream of `w`-bit numbers `t` cut every `v` bits.
  Packing into bytes is `regroup w 8`, unpacking is `regroup 8 w`, and one is the
  inverse of the other (`regroup_regroup`).
* `regroup_group` : where a group of `n` numbers fills exactly `n'` numbers of
  the other width, the latter are the digits of one number, the `value` of the
  group.  This is what code does that packs by hand, a group a turn.
* `sum_shift_and` : masked shifts that are added count the bits of every digit.
* `or_shl` turns the disjoint disjunctions of such code into sums.
* `packGroups` and `unpackGroups` are the two loops over the groups.
-/

namespace Bits

/-! ## Digits -/

/-- The number with the binary digits `b 0, ..., b (n - 1)`. -/
def fromBits : ℕ → (ℕ → ℕ) → ℕ
  | 0, _ => 0
  | n + 1, b => b 0 + 2 * fromBits n fun i => b (i + 1)

theorem fromBits_lt {n : ℕ} {b : ℕ → ℕ} (hb : ∀ i, b i < 2) : fromBits n b < 2 ^ n := by
  induction n generalizing b with
  | zero => exact Nat.one_pos
  | succ n ih =>
    have h0 := hb 0
    have := ih fun i => hb (i + 1)
    unfold fromBits
    rw [pow_succ]
    omega

theorem fromBits_congr {n : ℕ} {b b' : ℕ → ℕ} (h : ∀ i < n, b i = b' i) :
    fromBits n b = fromBits n b' := by
  induction n generalizing b b' with
  | zero => rfl
  | succ n ih =>
    unfold fromBits
    rw [h 0 (Nat.succ_pos n), ih fun i hi => h (i + 1) (by omega)]

theorem fromBits_zero {n : ℕ} {b : ℕ → ℕ} (hb : ∀ i, b i = 0) : fromBits n b = 0 := by
  induction n generalizing b with
  | zero => rfl
  | succ n ih =>
    unfold fromBits
    rw [hb 0, ih fun i => hb (i + 1)]

theorem fromBits_digit {n i : ℕ} {b : ℕ → ℕ} (hb : ∀ i, b i < 2) (hi : i < n) :
    fromBits n b / 2 ^ i % 2 = b i := by
  induction n generalizing b i with
  | zero => exact absurd hi (Nat.not_lt_zero i)
  | succ n ih =>
    have h0 := hb 0
    unfold fromBits
    rcases i with _ | i
    · rw [pow_zero, Nat.div_one]
      omega
    · have hdiv : (b 0 + 2 * fromBits n fun i => b (i + 1)) / 2 = fromBits n fun i => b (i + 1) := by
        omega
      rw [pow_succ', ← Nat.div_div_eq_div_mul, hdiv]
      exact ih (fun i => hb (i + 1)) (by omega)

/-- The binary digits of `x` give `x` back. -/
theorem fromBits_digits (n x : ℕ) : fromBits n (fun i => x / 2 ^ i % 2) = x % 2 ^ n := by
  induction n generalizing x with
  | zero => simp [fromBits, Nat.mod_one]
  | succ n ih =>
    have hshift : (fun i => x / 2 ^ (i + 1) % 2) = fun i => x / 2 / 2 ^ i % 2 := by
      funext i
      rw [pow_succ', Nat.div_div_eq_div_mul]
    unfold fromBits
    dsimp only
    rw [hshift, ih, pow_zero, Nat.div_one, pow_succ', Nat.mod_mul]

/-! ## Changing the width -/

/-- Bit `p` of the stream of `w`-bit numbers `t`. -/
def bit (w : ℕ) (t : ℕ → ℕ) (p : ℕ) : ℕ := t (p / w) / 2 ^ (p % w) % 2

/-- The stream of `w`-bit numbers `t`, cut every `v` bits. -/
def regroup (w v : ℕ) (t : ℕ → ℕ) (j : ℕ) : ℕ := fromBits v fun i => bit w t (v * j + i)

variable {w v : ℕ} {t t' : ℕ → ℕ}

theorem bit_lt (w : ℕ) (t : ℕ → ℕ) (p : ℕ) : bit w t p < 2 := Nat.mod_lt _ (by norm_num)

theorem bit_add {p i : ℕ} (hp : p < w) : bit w t (w * i + p) = t i / 2 ^ p % 2 := by
  unfold bit
  rw [Nat.mul_add_div (by omega), Nat.div_eq_of_lt hp, Nat.add_zero, Nat.mul_add_mod,
    Nat.mod_eq_of_lt hp]

theorem regroup_lt (j : ℕ) : regroup w v t j < 2 ^ v := fromBits_lt fun _ => bit_lt _ _ _

/-- Cutting a stream does not change its bits. -/
theorem bit_regroup (hv : 0 < v) (p : ℕ) : bit v (regroup w v t) p = bit w t p := by
  have h : fromBits v (fun i => bit w t (v * (p / v) + i)) / 2 ^ (p % v) % 2 =
      bit w t (v * (p / v) + p % v) :=
    fromBits_digit (fun _ => bit_lt _ _ _) (Nat.mod_lt p hv)
  rw [Nat.div_add_mod] at h
  exact h

theorem regroup_self {j : ℕ} (h : t j < 2 ^ w) : regroup w w t j = t j := by
  have hbits : regroup w w t j = fromBits w fun i => t j / 2 ^ i % 2 :=
    fromBits_congr fun i hi => bit_add hi
  rw [hbits, fromBits_digits, Nat.mod_eq_of_lt h]

/-- **Cutting and cutting back** gives the numbers that were there. -/
theorem regroup_regroup (hv : 0 < v) {j : ℕ} (h : t j < 2 ^ w) :
    regroup v w (regroup w v t) j = t j := by
  have hbits : regroup v w (regroup w v t) j = regroup w w t j :=
    fromBits_congr fun i _ => bit_regroup hv _
  rw [hbits, regroup_self h]

theorem regroup_congr {N j : ℕ} (h : ∀ i < N, t i = t' i) (hj : v * j + v ≤ w * N) :
    regroup w v t j = regroup w v t' j := by
  refine fromBits_congr fun i hi => ?_
  unfold bit
  rw [h _ (Nat.div_lt_of_lt_mul (by omega))]

/-! ## Groups -/

/-- The number with the `w`-bit digits `t 0, ..., t (n - 1)`. -/
def value (w : ℕ) : ℕ → (ℕ → ℕ) → ℕ
  | 0, _ => 0
  | n + 1, t => t 0 + 2 ^ w * value w n fun i => t (i + 1)

theorem value_congr {n : ℕ} (h : ∀ i < n, t i = t' i) : value w n t = value w n t' := by
  induction n generalizing t t' with
  | zero => rfl
  | succ n ih =>
    unfold value
    rw [h 0 (Nat.succ_pos n), ih fun i hi => h (i + 1) (by omega)]

theorem bit_value {n p : ℕ} (ht : ∀ i < n, t i < 2 ^ w) (hp : p < w * n) :
    value w n t / 2 ^ p % 2 = bit w t p := by
  induction n generalizing t p with
  | zero => exact absurd hp (by simp)
  | succ n ih =>
    have h0 := ht 0 (Nat.succ_pos n)
    unfold value
    by_cases hlt : p < w
    · -- the bit is one of the first number's
      obtain ⟨d, rfl⟩ : ∃ d, w = p + 1 + d := ⟨w - p - 1, by omega⟩
      have hpow : (2 : ℕ) ^ (p + 1 + d) = 2 ^ p * (2 * 2 ^ d) := by ring
      have hbit : bit (p + 1 + d) t ((p + 1 + d) * 0 + p) = t 0 / 2 ^ p % 2 := bit_add hlt
      rw [Nat.mul_zero, Nat.zero_add] at hbit
      rw [hbit, hpow, Nat.mul_assoc, Nat.add_mul_div_left _ _ (by positivity), Nat.mul_assoc,
        Nat.add_mul_mod_self_left]
    · obtain ⟨p', rfl⟩ : ∃ p', p = w + p' := ⟨p - w, by omega⟩
      have hw : 0 < w := by
        rcases Nat.eq_zero_or_pos w with rfl | hw
        · simp at hp
        · exact hw
      have hdiv : (t 0 + 2 ^ w * value w n fun i => t (i + 1)) / 2 ^ w =
          value w n fun i => t (i + 1) := by
        rw [Nat.add_mul_div_left _ _ (by positivity), Nat.div_eq_of_lt h0, Nat.zero_add]
      have hbit : bit w t (w + p') = bit w (fun i => t (i + 1)) p' := by
        unfold bit
        rw [Nat.add_div_left _ hw, Nat.add_mod_left]
      rw [pow_add, ← Nat.div_div_eq_div_mul, hdiv, hbit]
      exact ih (fun i hi => ht (i + 1) (by omega)) (by rw [Nat.mul_succ] at hp; omega)

/-- **One group.**  The numbers of the other width are the digits of the group's
value. -/
theorem regroup_group {n n' g j : ℕ} (hwv : w * n = v * n') (hj : j < n')
    (ht : ∀ i < n, t (n * g + i) < 2 ^ w) :
    regroup w v t (n' * g + j) = value w n (fun i => t (n * g + i)) / 2 ^ (v * j) % 2 ^ v := by
  rw [← fromBits_digits]
  refine fromBits_congr fun i hi => ?_
  have hmul : v * (j + 1) ≤ v * n' := Nat.mul_le_mul_left v hj
  rw [Nat.mul_succ] at hmul
  have hlt : v * j + i < w * n := by omega
  have hw : 0 < w := by
    rcases Nat.eq_zero_or_pos w with rfl | hw
    · simp at hlt
    · exact hw
  have hpos : v * (n' * g + j) + i = w * (n * g) + (v * j + i) := by
    rw [Nat.mul_add, ← Nat.mul_assoc, ← hwv, Nat.mul_assoc, Nat.add_assoc]
  rw [Nat.div_div_eq_div_mul, ← pow_add, bit_value ht hlt, hpos]
  unfold bit
  rw [Nat.mul_add_div hw, Nat.mul_add_mod]

/-! ## Masks of every `w`-th bit -/

/-- A disjunction of numbers without a common bit is their sum. -/
theorem or_shl {a : ℕ} (k : ℕ) (h : a < 2 ^ k) (b : ℕ) : a ||| b <<< k = a + b * 2 ^ k := by
  rw [Nat.or_comm, ← Nat.shiftLeft_add_eq_or_of_lt h, Nat.shiftLeft_eq, Nat.add_comm]

theorem value_succ (w n : ℕ) (t : ℕ → ℕ) : value w (n + 1) t = value w n t + 2 ^ (w * n) * t n := by
  induction n generalizing t with
  | zero => simp [value]
  | succ n ih =>
    have h : value w (n + 1 + 1) t = t 0 + 2 ^ w * value w (n + 1) fun i => t (i + 1) := rfl
    rw [h, ih]
    have h' : value w (n + 1) t = t 0 + 2 ^ w * value w n fun i => t (i + 1) := rfl
    rw [h', Nat.mul_succ, pow_add]
    ring

theorem value_add (w n : ℕ) (t t' : ℕ → ℕ) :
    value w n t + value w n t' = value w n fun i => t i + t' i := by
  induction n with
  | zero => rfl
  | succ n ih =>
    rw [value_succ, value_succ, value_succ, ← ih]
    ring

theorem value_lt {n : ℕ} (h : ∀ i < n, t i < 2 ^ w) : value w n t < 2 ^ (w * n) := by
  induction n with
  | zero => exact Nat.one_pos
  | succ n ih =>
    have h1 := ih fun i hi => h i (by omega)
    have h2 := Nat.mul_le_mul_left (2 ^ (w * n)) (h n (Nat.lt_succ_self n))
    rw [Nat.mul_succ] at h2
    rw [value_succ, Nat.mul_succ w, pow_add]
    omega

/-- The digits of a value are what it was built from. -/
theorem value_digit {n i : ℕ} (h : ∀ j < n, t j < 2 ^ w) (hi : i < n) :
    value w n t / 2 ^ (w * i) % 2 ^ w = t i := by
  have hgroup := regroup_group (g := 0) (show w * n = w * n from rfl) hi
    fun j hj => by rw [Nat.mul_zero, Nat.zero_add]; exact h j hj
  simp only [Nat.mul_zero, Nat.zero_add] at hgroup
  rw [← hgroup, regroup_self (h i hi)]

/-- The mask keeps the lowest bit of every digit. -/
theorem and_ones (hw : 0 < w) (x n : ℕ) :
    x &&& value w n (fun _ => 1) = value w n fun i => x / 2 ^ (w * i) % 2 := by
  have hone : 1 < 2 ^ w := Nat.one_lt_two_pow (by omega)
  induction n with
  | zero => exact Nat.and_zero x
  | succ n ih =>
    have hmask : value w n (fun _ => 1) < 2 ^ (w * n) := value_lt fun _ _ => hone
    have hlow : (x &&& value w n fun _ => 1) < 2 ^ (w * n) := Nat.and_le_right.trans_lt hmask
    have hshift : 2 ^ (w * n) = 1 <<< (w * n) := by rw [Nat.shiftLeft_eq, Nat.one_mul]
    have hbit : x &&& 2 ^ (w * n) = (x / 2 ^ (w * n) % 2) <<< (w * n) := by
      rw [Nat.and_two_pow, Nat.shiftLeft_eq, Nat.toNat_testBit]
    have hor := or_shl (w * n) hmask 1
    rw [Nat.one_mul, ← hshift] at hor
    rw [value_succ, value_succ, Nat.mul_one, ← hor, Nat.and_or_distrib_left, hbit, or_shl _ hlow, ih,
      Nat.mul_comm]

/-- **Counting bits in parallel.**  The sums of `w` bits each, as digits of one number. -/
theorem sum_shift_and (hw : 0 < w) (x n : ℕ) :
    (∑ s ∈ Finset.range w, (x >>> s &&& value w n fun _ => 1)) =
      value w n fun i => ∑ s ∈ Finset.range w, x / 2 ^ (w * i + s) % 2 := by
  have hone : ∀ s, (x >>> s &&& value w n fun _ => 1) =
      value w n fun i => x / 2 ^ (w * i + s) % 2 := by
    intro s
    rw [and_ones hw]
    refine value_congr fun i _ => ?_
    rw [Nat.shiftRight_eq_div_pow, Nat.div_div_eq_div_mul, ← pow_add, Nat.add_comm]
  have hsum : ∀ m, (∑ s ∈ Finset.range m, (x >>> s &&& value w n fun _ => 1)) =
      value w n fun i => ∑ s ∈ Finset.range m, x / 2 ^ (w * i + s) % 2 := by
    intro m
    induction m with
    | zero =>
      simp only [Finset.range_zero, Finset.sum_empty]
      have hzero : ∀ k, value w k (fun _ => 0) = 0 := by
        intro k
        induction k with
        | zero => rfl
        | succ k ih => rw [value_succ, ih, Nat.mul_zero]
      exact (hzero n).symm
    | succ m ih =>
      simp only [Finset.sum_range_succ]
      rw [ih, hone m, value_add]
  exact hsum w

/-! ## Packing by hand -/

/-- The bounds of a group, one by one. -/
theorem forall_range {n : ℕ} {P : ℕ → Prop} (h : ∀ i < n, P i) : (List.range n).Forall P :=
  List.forall_iff_forall_mem.2 fun i hi => h i (List.mem_range.1 hi)

/-- The stream of `w`-bit numbers `t`, packed into bytes. -/
def pack (w : ℕ) (t : ℕ → ℕ) (nbytes : ℕ) : List UInt8 :=
  (List.range nbytes).map fun j => UInt8.ofNat (regroup w 8 t j)

/-- The stream of `w`-bit numbers in a string of bytes. -/
def unpack (w : ℕ) (b : Bytes) (j : ℕ) : ℕ := regroup 8 w (fun i => (b i).toNat) j

theorem byte_congr {x y : ℕ} (h : x % 256 = y % 256) : UInt8.ofNat x = UInt8.ofNat y := by
  rw [← UInt8.toNat_inj, UInt8.toNat_ofNat', UInt8.toNat_ofNat']
  exact h

@[simp] theorem length_pack (n : ℕ) : (pack w t n).length = n := by
  simp [pack]

theorem pack_congr {N n : ℕ} (h : ∀ i < N, t i = t' i) (hn : 8 * n ≤ w * N) :
    pack w t n = pack w t' n :=
  List.map_congr_left fun j hj =>
    congrArg UInt8.ofNat (regroup_congr h (by have := List.mem_range.1 hj; omega))

/-- **Packing what was unpacked** gives the bytes back. -/
theorem pack_unpack (hw : 0 < w) (b : Bytes) (n : ℕ) : pack w (unpack w b) n = b.take n := by
  refine List.map_congr_left fun j _ => ?_
  have h : regroup w 8 (regroup 8 w fun i => (b i).toNat) j = (b j).toNat :=
    regroup_regroup hw (b j).toNat_lt
  exact (congrArg UInt8.ofNat h).trans UInt8.ofNat_toNat

/-- **Unpacking what was packed** gives the numbers back. -/
theorem unpack_pack {b : Bytes} {N n j : ℕ} (hb : b.take n = pack w t n) (hn : w * N ≤ 8 * n)
    (ht : t j < 2 ^ w) (hj : j < N) : unpack w b j = t j := by
  have hbytes : ∀ i < n, (b i).toNat = regroup w 8 t i := by
    intro i hi
    have h : b i = UInt8.ofNat (regroup w 8 t i) :=
      List.map_inj_left.1 hb i (List.mem_range.2 hi)
    rw [h, UInt8.toNat_ofNat', Nat.mod_eq_of_lt (regroup_lt i)]
  have hle : w * (j + 1) ≤ w * N := Nat.mul_le_mul_left w hj
  rw [Nat.mul_succ] at hle
  have h : regroup 8 w (fun i => (b i).toNat) j = regroup 8 w (regroup w 8 t) j :=
    regroup_congr hbytes (by omega)
  rw [unpack, h, regroup_regroup (by norm_num) ht]

theorem unpack_lt (w : ℕ) (b : Bytes) (j : ℕ) : unpack w b j < 2 ^ w := regroup_lt j

/-! ## The loops -/

/-- A loop that writes a string of bytes a turn. -/
def packGroups (n : ℕ) (f : ℕ → Chk (List UInt8)) : Chk (List UInt8) :=
  ⟨(List.range n).flatMap fun g => (f g).val, (List.range n).all fun g => (f g).ok⟩

/-- A loop that fills an array, `m` entries a turn. -/
def unpackGroups (m n : ℕ) (f : ℕ → Chk (List ℤ)) : Chk (Vector ℤ n) :=
  ⟨Vector.tab n fun k => (f (k / m)).val.getD (k % m) 0,
    (List.range (n / m)).all fun g => (f g).ok⟩

theorem packGroups_congr {n : ℕ} {f : ℕ → Chk (List UInt8)} {l : ℕ → List UInt8}
    (hf : ∀ g < n, f g = pure (l g)) : packGroups n f = pure ((List.range n).flatMap l) := by
  refine Chk.ext ?_ ?_
  · exact List.flatMap_congr fun g hg => by rw [hf g (List.mem_range.1 hg)]; rfl
  · simp only [packGroups, Chk.ok_pure, List.all_eq_true, List.mem_range]
    intro g hg
    rw [hf g hg]
    rfl

/-- A loop that packs groups of `m` numbers into `nb` bytes each. -/
theorem packGroups_eq {m nb n : ℕ} {f : ℕ → Chk (List UInt8)} (hwm : w * m = 8 * nb)
    (ht : ∀ k < m * n, t k < 2 ^ w)
    (hf : ∀ g < n, f g = pure ((List.range nb).map fun j =>
      UInt8.ofNat (value w m (fun i => t (m * g + i)) / 2 ^ (8 * j)))) :
    packGroups n f = pure (pack w t (nb * n)) := by
  rw [packGroups_congr hf]
  refine congrArg pure ?_
  have hgroup : ∀ g < n, ∀ j < nb, UInt8.ofNat (regroup w 8 t (nb * g + j)) =
      UInt8.ofNat (value w m (fun i => t (m * g + i)) / 2 ^ (8 * j)) := by
    intro g hg j hj
    have hlast : m * (g + 1) ≤ m * n := Nat.mul_le_mul_left m hg
    rw [Nat.mul_succ] at hlast
    rw [regroup_group hwm hj fun i hi => ht _ (by omega)]
    exact byte_congr (Nat.mod_mod _ _)
  clear hf ht
  induction n with
  | zero => rfl
  | succ n ih =>
    rw [List.range_succ, List.flatMap_append, ih fun g hg => hgroup g (by omega),
      List.flatMap_singleton]
    unfold pack
    rw [Nat.mul_succ, List.range_add, List.map_append, List.map_map]
    refine congrArg _ (List.map_congr_left fun j hj => ?_)
    exact (hgroup n (Nat.lt_succ_self n) j (List.mem_range.1 hj)).symm

/-- A loop that unpacks groups of `nb` bytes into `m` numbers each. -/
theorem unpackGroups_eq {m nb N : ℕ} {f : ℕ → Chk (List ℤ)} {b : Bytes} (F : ℕ → ℤ)
    (hwm : 8 * nb = w * m) (hm : 0 < m) (hN : m ∣ N)
    (hf : ∀ g < N / m, f g = pure ((List.range m).map fun i =>
      F (value 8 nb (fun j => (b (nb * g + j)).toNat) / 2 ^ (w * i) % 2 ^ w))) :
    unpackGroups m N f = pure (Vector.tab N fun k => F (unpack w b k)) := by
  obtain ⟨n, rfl⟩ := hN
  rw [Nat.mul_div_cancel_left n hm] at hf
  refine Chk.ext ?_ ?_
  · refine Vector.tab_congr fun k hk => ?_
    have hi : k % m < m := Nat.mod_lt k hm
    have hg : k / m < n := Nat.div_lt_of_lt_mul hk
    have hgroup : regroup 8 w (fun j => (b j).toNat) (m * (k / m) + k % m) = _ :=
      regroup_group hwm hi fun j _ => (b (nb * (k / m) + j)).toNat_lt
    rw [Nat.div_add_mod] at hgroup
    rw [hf _ hg, Chk.val_pure, unpack, hgroup, List.getD_eq_getElem _ _ (by simpa using hi)]
    simp
  · simp only [unpackGroups, Chk.ok_pure, List.all_eq_true, List.mem_range,
      Nat.mul_div_cancel_left n hm]
    intro g hg
    rw [hf g hg]
    rfl

end Bits
