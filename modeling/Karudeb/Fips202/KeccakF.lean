import Mathlib.Data.BitVec
import Mathlib.Data.Fin.Basic
import Mathlib.Logic.Function.Basic

/-!
# The permutation Keccak-f[1600]

The step mappings of FIPS 202 on a state array of bits, as the standard writes
them, and the same steps on lanes.  The offsets of `rho` come from the walk
`(x, y) -> (y, 2x + 3y)` through the lanes, and the round constants from the
shift register `rc`.

* `bits` : the state array of an array of lanes.
* `bits_theta`, `bits_rho`, `bits_pi`, `bits_chi`, `bits_iota` : a step on lanes is
  the step of the standard.
* `bits_rnd` : so is a round.
-/

namespace KeccakF

/-! ## The steps of the standard -/

/-- A state array `A[x, y, z]`. -/
abbrev StateArray := Fin 5 → Fin 5 → Fin 64 → Bool

/-- `C[x, z]` of `theta`. -/
def thetaC (A : StateArray) (x : Fin 5) (z : Fin 64) : Bool :=
  A x 0 z ^^ A x 1 z ^^ A x 2 z ^^ A x 3 z ^^ A x 4 z

/-- `D[x, z]` of `theta`. -/
def thetaD (A : StateArray) (x : Fin 5) (z : Fin 64) : Bool :=
  thetaC A (x - 1) z ^^ thetaC A (x + 1) (z - 1)

/-- `theta`. -/
def theta (A : StateArray) : StateArray := fun x y z => A x y z ^^ thetaD A x z

/-- The lane that `rho` comes to in turn `t`. -/
def rhoLane : ℕ → Fin 5 × Fin 5
  | 0 => (1, 0)
  | t + 1 => ((rhoLane t).2, 2 * (rhoLane t).1 + 3 * (rhoLane t).2)

/-- How far `rho` rotates a lane: `(t + 1)(t + 2) / 2`, if it comes to it in turn `t`. -/
def rhoOffset (x y : Fin 5) : ℕ :=
  match (List.range 24).find? fun t => rhoLane t = (x, y) with
  | some t => (t + 1) * (t + 2) / 2
  | none => 0

/-- `rho`. -/
def rho (A : StateArray) : StateArray := fun x y z => A x y (z - Fin.ofNat 64 (rhoOffset x y))

/-- `pi`. -/
def pi (A : StateArray) : StateArray := fun x y z => A (x + 3 * y) x z

/-- `chi`. -/
def chi (A : StateArray) : StateArray :=
  fun x y z => A x y z ^^ ((A (x + 1) y z ^^ true) && A (x + 2) y z)

/-- A turn of the shift register of `rc`. -/
def rcTurn (R : List Bool) : List Bool :=
  let R := false :: R
  let R := R.set 0 (R.getD 0 false ^^ R.getD 8 false)
  let R := R.set 4 (R.getD 4 false ^^ R.getD 8 false)
  let R := R.set 5 (R.getD 5 false ^^ R.getD 8 false)
  let R := R.set 6 (R.getD 6 false ^^ R.getD 8 false)
  R.take 8

/-- `rc(t)`. -/
def rc (t : ℕ) : Bool :=
  if t % 255 = 0 then true
  else ((List.range (t % 255)).foldl (fun R _ => rcTurn R)
    [true, false, false, false, false, false, false, false]).getD 0 false

/-- `RC` of round `ir`. -/
def roundConstant (ir : ℕ) : ℕ → Bool :=
  (List.range 7).foldl (fun RC j => Function.update RC (2 ^ j - 1) (rc (j + 7 * ir))) fun _ => false

/-- `iota`. -/
def iota (ir : ℕ) (A : StateArray) : StateArray := fun x y z =>
  if x = 0 ∧ y = 0 then A x y z ^^ roundConstant ir z else A x y z

/-- `Rnd`. -/
def rnd (A : StateArray) (ir : ℕ) : StateArray := iota ir (chi (pi (rho (theta A))))

/-- `KECCAK-f[1600]`. -/
def keccakF (A : StateArray) : StateArray := (List.range 24).foldl rnd A

/-! ## The steps on lanes -/

/-- An array of lanes. -/
abbrev LaneArray := Fin 5 → Fin 5 → BitVec 64

/-- The state array of an array of lanes. -/
def bits (L : LaneArray) : StateArray := fun x y z => (L x y).getLsbD z

/-- A rotation to the left, by two shifts. -/
def rotl (a : BitVec 64) (offset : ℕ) : BitVec 64 := (a <<< offset) ^^^ (a >>> (64 - offset))

namespace Lane

/-- The lanes in one row, `5 * y + x` that of `x` and `y`. -/
def toVector (L : LaneArray) : Vector (BitVec 64) 25 :=
  #v[L 0 0, L 1 0, L 2 0, L 3 0, L 4 0,
    L 0 1, L 1 1, L 2 1, L 3 1, L 4 1,
    L 0 2, L 1 2, L 2 2, L 3 2, L 4 2,
    L 0 3, L 1 3, L 2 3, L 3 3, L 4 3,
    L 0 4, L 1 4, L 2 4, L 3 4, L 4 4]

/-- A column of lanes. -/
def column (L : LaneArray) (x : Fin 5) : BitVec 64 :=
  L x 0 ^^^ L x 1 ^^^ L x 2 ^^^ L x 3 ^^^ L x 4

/-- `theta`. -/
def theta (L : LaneArray) : LaneArray := fun x y =>
  L x y ^^^ (column L (x - 1) ^^^ rotl (column L (x + 1)) 1)

/-- The offsets of `rho` in the width of a lane, row by row. -/
def offset (x y : Fin 5) : ℕ :=
  ([[0, 1, 62, 28, 27], [36, 44, 6, 55, 20], [3, 10, 43, 25, 39], [41, 45, 15, 21, 8],
    [18, 2, 61, 56, 14]].getD y []).getD x 0

/-- `rho`, which leaves the lane at the origin as it is. -/
def rho (L : LaneArray) : LaneArray := fun x y =>
  if offset x y = 0 then L x y else rotl (L x y) (offset x y)

/-- `pi`. -/
def pi (L : LaneArray) : LaneArray := fun x y => L (x + 3 * y) x

/-- `chi`. -/
def chi (L : LaneArray) : LaneArray := fun x y => L x y ^^^ ((~~~L (x + 1) y) &&& L (x + 2) y)

/-- `iota`. -/
def iota (c : BitVec 64) (L : LaneArray) : LaneArray := fun x y =>
  if x = 0 ∧ y = 0 then L x y ^^^ c else L x y

/-- A round with a given constant. -/
def rnd (c : BitVec 64) (L : LaneArray) : LaneArray := iota c (chi (pi (rho (theta L))))

end Lane

/-! ## Lanes and bits -/

theorem getLsbD_rotl {a : BitVec 64} {k : ℕ} (h0 : 0 < k) (hk : k < 64) (z : Fin 64) :
    (rotl a k).getLsbD z = a.getLsbD (z - Fin.ofNat 64 k : Fin 64) := by
  have hsub : ((z - Fin.ofNat 64 k : Fin 64) : ℕ) = (64 - k + z) % 64 := by
    rw [Fin.sub_def]
    simp only [Fin.val_ofNat, Nat.mod_eq_of_lt hk]
  have hz := z.isLt
  unfold rotl
  rw [hsub, BitVec.getLsbD_xor, BitVec.getLsbD_shiftLeft, BitVec.getLsbD_ushiftRight]
  by_cases hlt : (z : ℕ) < k
  · have hout : a.getLsbD (64 - k + z) = a.getLsbD ((64 - k + z) % 64) := by
      rw [Nat.mod_eq_of_lt (by omega)]
    simp [hlt, hout]
  · have hidx : (64 - k + (z : ℕ)) % 64 = z - k := by omega
    have hhigh : a.getLsbD (64 - k + z) = false := BitVec.getLsbD_of_ge _ _ (by omega)
    simp [hlt, hz, hidx, hhigh]

theorem bits_theta (L : LaneArray) : bits (Lane.theta L) = theta (bits L) := by
  funext x y z
  have hcol : ∀ x z, (Lane.column L x).getLsbD (z : Fin 64) = thetaC (bits L) x z := by
    intro x z
    simp only [Lane.column, thetaC, bits, BitVec.getLsbD_xor, Bool.xor_assoc]
  unfold Lane.theta theta thetaD
  change (L x y ^^^ _).getLsbD z = _
  rw [BitVec.getLsbD_xor, BitVec.getLsbD_xor, getLsbD_rotl Nat.one_pos (by decide), hcol, hcol]
  rfl

/-- **The offsets** of the walk, in the width of a lane. -/
theorem offset_eq : ∀ x y, Lane.offset x y < 64 ∧
    Fin.ofNat 64 (rhoOffset x y) = Fin.ofNat 64 (Lane.offset x y) := by
  decide +kernel

theorem bits_rho (L : LaneArray) : bits (Lane.rho L) = rho (bits L) := by
  funext x y z
  obtain ⟨hlt, hoff⟩ := offset_eq x y
  unfold Lane.rho rho bits
  dsimp only
  rw [hoff]
  by_cases h0 : Lane.offset x y = 0
  · rw [if_pos h0, h0]
    congr 2
    exact (sub_zero z).symm
  · rw [if_neg h0]
    exact getLsbD_rotl (Nat.pos_of_ne_zero h0) hlt z

theorem bits_pi (L : LaneArray) : bits (Lane.pi L) = pi (bits L) := rfl

theorem bits_chi (L : LaneArray) : bits (Lane.chi L) = chi (bits L) := by
  funext x y z
  unfold Lane.chi chi bits
  dsimp only
  rw [BitVec.getLsbD_xor, BitVec.getLsbD_and, BitVec.getLsbD_not]
  simp

theorem bits_iota {ir : ℕ} {c : BitVec 64}
    (hc : ∀ z : Fin 64, c.getLsbD z = roundConstant ir z) (L : LaneArray) :
    bits (Lane.iota c L) = iota ir (bits L) := by
  funext x y z
  unfold Lane.iota iota bits
  dsimp only
  by_cases h : x = 0 ∧ y = 0
  · rw [if_pos h, if_pos h, BitVec.getLsbD_xor, hc]
  · rw [if_neg h, if_neg h]

/-- **A round on lanes** is a round of the standard. -/
theorem bits_rnd {ir : ℕ} {c : BitVec 64}
    (hc : ∀ z : Fin 64, c.getLsbD z = roundConstant ir z) (L : LaneArray) :
    bits (Lane.rnd c L) = rnd (bits L) ir := by
  unfold Lane.rnd rnd
  rw [bits_iota hc, bits_chi, bits_pi, bits_rho, bits_theta]

end KeccakF
