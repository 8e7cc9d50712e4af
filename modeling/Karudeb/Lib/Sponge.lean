import Karudeb.Lib.Buffer
import Mathlib.Logic.Function.Iterate

/-!
# Sponges

The sponge construction over a permutation `f` of strings of `b` bytes, with
`r` of them as the rate.  A message is padded and absorbed block by block, and
the output is read off block by block, with a permutation between two blocks.

* `xorStr_xorStr` : strings added one behind the other are one string.
* `toBits_pad` : the padding is the suffix and `pad10*1`.
* `absorb_append` : to absorb one block more is to add it and to permute.
* `xorStr_pad` : to add the padding is to add the suffix and the last bit.
-/

namespace Sponge

variable {b r : ℕ}

/-! ## Strings added to the state -/

/-- Add the string `l` to the state, from byte `o` on. -/
def xorStr (s : Vector UInt8 b) (o : ℕ) (l : List UInt8) : Vector UInt8 b :=
  Vector.tab b fun j => if o ≤ j ∧ j < o + l.length then s.rd j ^^^ l.getD (j - o) 0 else s.rd j

theorem rd_xorStr (s : Vector UInt8 b) (o : ℕ) (l : List UInt8) {j : ℕ} (hj : j < b) :
    (xorStr s o l).rd j =
      if o ≤ j ∧ j < o + l.length then s.rd j ^^^ l.getD (j - o) 0 else s.rd j :=
  Vector.rd_tab _ hj

@[simp] theorem xorStr_nil (s : Vector UInt8 b) (o : ℕ) : xorStr s o [] = s := by
  refine Vector.ext_rd fun j hj => ?_
  rw [rd_xorStr _ _ _ hj, if_neg (by simp)]

theorem xorStr_zeros (s : Vector UInt8 b) (o n : ℕ) : xorStr s o (List.replicate n 0) = s := by
  refine Vector.ext_rd fun j hj => ?_
  rw [rd_xorStr _ _ _ hj, List.length_replicate]
  split
  · rw [List.getD_replicate _ (by omega), UInt8.xor_zero]
  · rfl

/-- Strings added one behind the other are one string. -/
theorem xorStr_xorStr (s : Vector UInt8 b) (o : ℕ) (l l' : List UInt8) :
    xorStr (xorStr s o l) (o + l.length) l' = xorStr s o (l ++ l') := by
  refine Vector.ext_rd fun j hj => ?_
  rw [rd_xorStr _ _ _ hj, rd_xorStr _ _ _ hj, rd_xorStr _ _ _ hj, List.length_append]
  by_cases h1 : o ≤ j ∧ j < o + l.length
  · rw [if_neg (by omega), if_pos h1, if_pos (by omega), List.getD_append _ _ _ _ (by omega)]
  · by_cases h2 : o + l.length ≤ j ∧ j < o + l.length + l'.length
    · rw [if_pos h2, if_neg h1, if_pos (by omega), List.getD_append_right _ _ _ _ (by omega),
        Nat.sub_add_eq]
    · rw [if_neg h2, if_neg h1, if_neg (by omega)]

/-! ## Padding -/

/-- The bits of a string, each byte from its lowest bit on. -/
def toBits (l : List UInt8) : List Bool := l.flatMap fun x => (List.range 8).map x.toNat.testBit

/-- `pad10*1(x, m)`. -/
def pad101 (x m : ℕ) : List Bool := true :: (List.replicate ((x - (m + 2) % x) % x) false ++ [true])

/-- What is put behind a message of `m` bytes: the byte `p`, which holds the suffix and
the first bit of the padding, and the bit that ends the block. -/
def pad (r : ℕ) (p : UInt8) (m : ℕ) : List UInt8 :=
  if r - m % r = 1 then [p ||| 0x80] else p :: (List.replicate (r - m % r - 2) 0 ++ [0x80])

theorem length_pad (hr : 0 < r) (p : UInt8) (m : ℕ) : (pad r p m).length = r - m % r := by
  have hlt := Nat.mod_lt m hr
  unfold pad
  split
  · simp [*]
  · rw [List.length_cons, List.length_append, List.length_replicate, List.length_singleton]
    omega

theorem toBits_append (l l' : List UInt8) : toBits (l ++ l') = toBits l ++ toBits l' :=
  List.flatMap_append

theorem toBits_zeros (n : ℕ) : toBits (List.replicate n 0) = List.replicate (8 * n) false := by
  induction n with
  | zero => rfl
  | succ n ih =>
    rw [List.replicate_succ, Nat.mul_succ, Nat.add_comm, List.replicate_add]
    exact congrArg _ ih

/-- **The padding is the suffix and `pad10*1`.**  Here `sfx` is the suffix, and `z` is how
many zeros of the padding are in its byte. -/
theorem toBits_pad {p : UInt8} {sfx : List Bool} {z : ℕ} (hz : sfx.length + 2 + z = 8) (hpos : 0 < z)
    (hp : toBits [p] = sfx ++ true :: (List.replicate z false ++ [false]))
    (hp' : toBits [p ||| 0x80] = sfx ++ true :: (List.replicate z false ++ [true])) (hr : 0 < r)
    (m : ℕ) : toBits (pad r p m) = sfx ++ pad101 (8 * r) (8 * m + sfx.length) := by
  have hlt := Nat.mod_lt m hr
  have hmod : (8 * m + sfx.length + 2) % (8 * r) = 8 * (m % r) + (sfx.length + 2) := by
    rw [Nat.add_assoc, Nat.add_mod, Nat.mul_mod_mul_left, Nat.mod_eq_of_lt 
      (show sfx.length + 2 < 8 * r by omega), Nat.mod_eq_of_lt (by omega)]
  have hcount : (8 * r - (8 * m + sfx.length + 2) % (8 * r)) % (8 * r) =
      8 * (r - m % r - 1) + z := by
    rw [hmod, Nat.mod_eq_of_lt (by omega)]
    omega
  unfold pad pad101
  rw [hcount]
  split
  · rename_i hone
    rw [hp', hone]
    simp
  · obtain ⟨q, hq⟩ : ∃ q, r - m % r = q + 2 := ⟨r - m % r - 2, by omega⟩
    have hlast : toBits [0x80] = List.replicate 7 false ++ [true] := by decide
    have hsum : 8 * (q + 2 - 1) + z = z + (1 + (8 * q + 7)) := by omega
    rw [hq, Nat.add_sub_cancel, ← List.singleton_append, toBits_append, toBits_append, toBits_zeros,
      hp, hlast, hsum, List.replicate_add z, List.replicate_add 1, List.replicate_add (8 * q)]
    simp only [List.append_assoc, List.cons_append, List.replicate_one, List.nil_append]

/-- To add the padding is to add the suffix and the last bit. -/
theorem xorStr_pad (s : Vector UInt8 b) (hr : 0 < r) {p : UInt8} (hp : p ||| 0x80 = p ^^^ 0x80)
    (m : ℕ) :
    xorStr (xorStr s (m % r) [p]) (r - 1) [0x80] = xorStr s (m % r) (pad r p m) := by
  have hlt := Nat.mod_lt m hr
  unfold pad
  split
  · rename_i hone
    refine Vector.ext_rd fun j hj => ?_
    rw [rd_xorStr _ _ _ hj, rd_xorStr _ _ _ hj, rd_xorStr _ _ _ hj, hp]
    have hlast : r - 1 = m % r := by omega
    rw [hlast]
    simp only [List.length_singleton]
    by_cases hin : m % r ≤ j ∧ j < m % r + 1
    · rw [if_pos hin, if_pos hin, if_pos hin, show j - m % r = 0 by omega]
      exact UInt8.xor_assoc ..
    · rw [if_neg hin, if_neg hin, if_neg hin]
  · have hlast : r - 1 = m % r + [p].length + (List.replicate (r - m % r - 2) (0 : UInt8)).length := by
      rw [List.length_singleton, List.length_replicate]
      omega
    have hsplit : p :: (List.replicate (r - m % r - 2) 0 ++ [0x80]) =
        [p] ++ List.replicate (r - m % r - 2) 0 ++ [0x80] := rfl
    have hzeros := xorStr_xorStr s (m % r) [p] (List.replicate (r - m % r - 2) 0)
    rw [xorStr_zeros] at hzeros
    rw [hlast, hsplit, ← xorStr_xorStr, ← hzeros, List.length_append, Nat.add_assoc]

/-! ## The construction -/

variable {f : Vector UInt8 b → Vector UInt8 b}

/-- The state after the whole blocks of `P`. -/
def absorb (f : Vector UInt8 b → Vector UInt8 b) (r : ℕ) (P : List UInt8) : Vector UInt8 b :=
  (List.range (P.length / r)).foldl (fun s i => f (xorStr s 0 ((P.drop (i * r)).take r)))
    (Vector.tab b fun _ => 0)

/-- The endless output for the message `M`, with `p` as the suffix. -/
def output (f : Vector UInt8 b → Vector UInt8 b) (r : ℕ) (p : UInt8) (M : List UInt8) : Bytes :=
  fun n => (f^[n / r] (absorb f r (M ++ pad r p M.length))).rd (n % r)

theorem absorb_nil (f : Vector UInt8 b → Vector UInt8 b) (r : ℕ) :
    absorb f r [] = Vector.tab b fun _ => 0 := by
  unfold absorb
  rw [List.length_nil, Nat.zero_div]
  rfl

/-- To absorb one block more is to add it and to permute. -/
theorem absorb_append (hr : 0 < r) {P B : List UInt8} (hP : P.length % r = 0) (hB : B.length = r) :
    absorb f r (P ++ B) = f (xorStr (absorb f r P) 0 B) := by
  obtain ⟨n, hn⟩ : r ∣ P.length := Nat.dvd_of_mod_eq_zero hP
  have hdiv : P.length / r = n := by rw [hn, Nat.mul_div_cancel_left n hr]
  have hdiv' : (P ++ B).length / r = n + 1 := by
    rw [List.length_append, hn, hB, Nat.mul_add_div hr, Nat.div_self hr]
  have hlen : P.length = n * r := by rw [hn, Nat.mul_comm]
  unfold absorb
  rw [hdiv, hdiv', List.range_succ, List.foldl_append, List.foldl_cons, List.foldl_nil]
  have hlast : ((P ++ B).drop (n * r)).take r = B := by
    rw [← hlen, List.drop_left, ← hB, List.take_length]
  have hinit : ∀ i ∈ List.range n, ((P ++ B).drop (i * r)).take r = (P.drop (i * r)).take r := by
    intro i hi
    have hle : (i + 1) * r ≤ n * r := Nat.mul_le_mul_right r (List.mem_range.1 hi)
    rw [Nat.succ_mul] at hle
    rw [List.drop_append_of_le_length (by omega),
      List.take_append_of_le_length (by rw [List.length_drop]; omega)]
  rw [hlast, List.foldl_ext _ _ _ fun s i hi => by rw [hinit i hi]]

end Sponge
