import Karudeb.Fips202.Permute
import Karudeb.Lib.Asm

/-!
# The permutation of the vector build

`KeccakF1600_StatePermute` of `keccak.c` with `VK_KECCAK`: an inline assembly text around
the instruction `vkeccak.vi`, one for long vectors and one for vectors of 128 bits.

* `KeccakUnit` : a vector unit whose instruction is Keccak-f[1600] on the first 25 of
  32 lanes.
* `statePermute_eq` : with any such unit, the text ends without a trap and does to the state
  what the scalar code does, and nothing to the rest of memory.
-/

namespace Vkeccak

open Asm Fips202

/-! ## The instruction -/

/-- A unit with `vkeccak.vi`.  The 1600 bits of the state are the first 25 lanes of an
element group of 32; what becomes of the other seven is left open. -/
structure KeccakUnit extends VectorUnit where
  /-- An element group has 2048 bits. -/
  egs_eq : egs = 32
  /-- The state of the group behind the instruction. -/
  group_keccakF (a : Vector (BitVec 64) egs) :
    stateArray (Vector.tab 25 (group a).rd) = KeccakF.keccakF (stateArray (Vector.tab 25 a.rd))

/-- A unit with `VLEN = 2 ^ (k + 7)`, which leaves the other lanes alone. -/
def keccakUnit (k : ℕ) : KeccakUnit where
  lanes := 2 ^ (k + 1)
  egs := 32
  group a := Vector.tab 32 fun i =>
    if i < 25 then (keccakF1600StatePermute (Vector.tab 25 a.rd)).rd i else a.rd i
  lanes_pow := ⟨k, rfl⟩
  egs_eq := rfl
  group_keccakF a := by
    rw [← permute_keccakF]
    refine congrArg stateArray (Vector.ext_rd fun i hi => ?_)
    rw [Vector.rd_tab _ hi, Vector.rd_tab _ (by omega), if_pos hi]

/-- The state in the 25 cells from cell `o` on. -/
def lanesAt (a : ℕ → BitVec 64) (o : ℕ) : Lanes := Vector.tab 25 fun i => a (o + i)

/-- The cells of a state. -/
theorem toList_lanesAt (a : ℕ → BitVec 64) (o : ℕ) : (lanesAt a o).toList = Mem.read a o 25 := by
  refine List.ext_getElem (by simp) fun i h1 h2 => ?_
  simp [lanesAt, Vector.tab, Mem.read]

variable (u : KeccakUnit)

/-- A register has two lanes, or at least four. -/
theorem lanes_cases : u.lanes = 2 ∨ 4 ≤ u.lanes := by
  obtain ⟨k, hk⟩ := u.lanes_pow
  cases k with
  | zero => exact .inl hk
  | succ k =>
    right
    have hpos : 0 < 2 ^ k := Nat.two_pow_pos k
    rw [hk, Nat.pow_succ, Nat.pow_succ]
    omega

variable {u} in
theorem le_vlmax (hlanes : 4 ≤ u.lanes) : 32 ≤ u.vlmax := by
  unfold VectorUnit.vlmax
  omega

theorem isGroup_zero : IsGroup 0 := by decide

variable {u} in
/-- At the length 32 there is one element group. -/
theorem groups_eq (hlanes : 4 ≤ u.lanes) : u.groups 0 32 = some 1 := by
  have hegs := u.egs_eq
  have hmax := le_vlmax hlanes
  have h := VectorUnit.groups_egs (u := u.toVectorUnit) isGroup_zero (by omega) (by omega)
  rwa [hegs] at h

/-- **The instruction** is the permutation of the scalar build. -/
theorem lanesAt_onGroup (v : ℕ → BitVec 64) :
    lanesAt (u.onGroup v 0) 0 = keccakF1600StatePermute (lanesAt v 0) := by
  have hegs := u.egs_eq
  have hgroup : lanesAt (u.onGroup v 0) 0 =
      Vector.tab 25 (u.group (Vector.tab u.egs fun j => v (0 + j))).rd := by
    refine Vector.tab_congr fun i hi => ?_
    rw [VectorUnit.onGroup_apply, if_pos (by omega), Nat.zero_add, Nat.sub_zero]
  have hstate : Vector.tab 25 (Vector.tab u.egs fun j => v (0 + j)).rd = lanesAt v 0 :=
    Vector.tab_congr fun i hi => Vector.rd_tab _ (by omega)
  apply stateArray_inj
  rw [hgroup, u.group_keccakF, hstate, permute_keccakF]

/-! ## The code -/

/-- The operands of the assembly texts, and the register they clobber. -/
inductive Reg
  | s
  | h
  | p
  | n
  | c0
  | c1
  | t0
  deriving DecidableEq

/-- `vkeccak.vi v0, 0`. -/
def vkeccak24 : Instr Reg := .vgroup 0

/-- The text for `VLEN >= 256`. -/
def statePermuteLong : List (Instr Reg) := [
  .vsetivli 25,
  .vle64 0 .s,
  .li .t0 32,
  .vsetvli .t0,
  vkeccak24,
  .vsetivli 25,
  .vse64 0 .s]

/-- The text for `VLEN == 128`. -/
def statePermuteShort : List (Instr Reg) := [
  .vsetivli 16,
  .vle64 0 .s,
  .vsetivli 9,
  .vle64 8 .h,
  vkeccak24,
  .vsetivli 16,
  .vse64 0 .s,
  .vsetivli 9,
  .vse64 8 .h]

/-- `rv_vlenb`. -/
def rvVlenb : ℕ := 8 * u.lanes

/-- `KeccakF1600_StatePermute`, with `VK_KECCAK`. -/
def StatePermute (state : BitVec 64) (m m' : Machine Reg) : Prop :=
  if rvVlenb u ≥ 32 then u.Ends statePermuteLong (m.setX .s state) m'
  else u.Ends statePermuteShort ((m.setX .s state).setX .h (state + 8 * 16)) m'

/-! ## Either text -/

variable {u} {m : Machine Reg} {state : BitVec 64}

/-- A state that is loaded. -/
theorem lanesAt_put (v a : ℕ → BitVec 64) (o : ℕ) :
    lanesAt (Mem.put v 0 (Mem.read a o 25)) 0 = lanesAt a o := by
  refine Vector.tab_congr fun i hi => ?_
  rw [Mem.put_read, if_pos (by omega), Nat.zero_add, Nat.sub_zero]

/-- Long vectors: the state is one piece, in the first of two element groups or more. -/
theorem ends_statePermuteLong (hlanes : 4 ≤ u.lanes) (hs : m.x .s = state)
    (hfit : Words state 25) : ∃ m', u.Ends statePermuteLong m m' ∧
      m'.mem = Mem.put m.mem (word state)
        (keccakF1600StatePermute (lanesAt m.mem (word state))).toList := by
  have hmax := le_vlmax hlanes
  apply VectorUnit.ends_straight
  apply VectorUnit.wp_vsetivli (by norm_num) (by omega)
  apply VectorUnit.wp_vle64 isGroup_zero (by simpa [hs] using hfit)
  apply VectorUnit.wp_li
  apply VectorUnit.wp_vsetvli (by simpa using hmax)
  apply VectorUnit.wp_vgroup (by simpa using groups_eq hlanes)
  apply VectorUnit.wp_vsetivli (by norm_num) (by omega)
  apply VectorUnit.wp_vse64 isGroup_zero (by simpa [hs] using hfit)
  apply VectorUnit.wp_nil
  simp only [Nat.zero_mul, Machine.setX_x, Machine.setX_v, Machine.setX_mem, hs, if_false,
    reduceCtorEq]
  rw [← toList_lanesAt, lanesAt_onGroup, lanesAt_put]

/-- `VLEN = 128`: the state is in two pieces, one behind the other in registers and in
memory. -/
theorem ends_statePermuteShort (hlanes : u.lanes = 2) (hs : m.x .s = state)
    (hh : m.x .h = state + 8 * 16) (hfit : Words state 25) :
    ∃ m', u.Ends statePermuteShort m m' ∧
      m'.mem = Mem.put m.mem (word state)
        (keccakF1600StatePermute (lanesAt m.mem (word state))).toList := by
  have hmax : u.vlmax = 16 := by
    unfold VectorUnit.vlmax
    rw [hlanes]
  have hegs := u.egs_eq
  have hv8 : IsGroup 8 := by decide
  have hword : word (state + 8 * 16) = word state + 16 := hfit.word_add (k := 16) (by norm_num)
  have hfits : Words state 16 := hfit.mono (by norm_num)
  have hfith : Words (state + 8 * 16) 9 := hfit.add (k := 16) (by norm_num) (by norm_num)
  apply VectorUnit.ends_straight
  apply VectorUnit.wp_vsetivli (by norm_num) (by omega)
  apply VectorUnit.wp_vle64 isGroup_zero (by simpa [hs] using hfits)
  apply VectorUnit.wp_vsetivli (by norm_num) (by omega)
  apply VectorUnit.wp_vle64 hv8 (by simpa [hh] using hfith)
  apply VectorUnit.wp_vgroup
  · -- a group of eight registers is too small, so the vector length does not count
    rw [VectorUnit.groups, if_neg (by omega), if_pos ⟨by simp, by omega⟩]
  apply VectorUnit.wp_vsetivli (by norm_num) (by omega)
  apply VectorUnit.wp_vse64 isGroup_zero (by simpa [hs] using hfits)
  apply VectorUnit.wp_vsetivli (by norm_num) (by omega)
  apply VectorUnit.wp_vse64 hv8 (by simpa [hh] using hfith)
  apply VectorUnit.wp_nil
  simp only [hs, hh, hword, hlanes, Nat.zero_mul, show 8 * 2 = 0 + 16 from rfl, Mem.put_read_add]
  rw [← toList_lanesAt, lanesAt_onGroup, lanesAt_put]

/-- **Both builds are the same permutation.**  On every unit, from any state of the registers
and of memory, `KeccakF1600_StatePermute` of the vector build ends without a trap; the 25 words
at `state` are then what the scalar code makes of them, and all other words are as they were. -/
theorem statePermute_eq (u : KeccakUnit) (m : Machine Reg) (state : BitVec 64)
    (hfit : Words state 25) : ∃ m', StatePermute u state m m' ∧
      m'.mem = Mem.put m.mem (word state)
        (keccakF1600StatePermute (lanesAt m.mem (word state))).toList := by
  unfold StatePermute rvVlenb
  rcases lanes_cases u with hlanes | hlanes
  · rw [hlanes]
    exact ends_statePermuteShort hlanes (by simp) (by simp) hfit
  · obtain ⟨m', hends, hmem⟩ := ends_statePermuteLong (m := m.setX .s state) hlanes (by simp) hfit
    exact ⟨m', by rwa [if_pos (by omega)], hmem⟩

/-- A machine where everything is zero. -/
def zeroMachine : Machine Reg := ⟨fun _ => 0, fun _ => 0, 0, fun _ => 0, fun _ => 0⟩

theorem statePermute_eq_zero : ∃ m', StatePermute (keccakUnit 0) 64 zeroMachine m' ∧
    m'.mem = Mem.put (fun _ => 0) 8
      (keccakF1600StatePermute (lanesAt (fun _ => 0) 8)).toList :=
  statePermute_eq (keccakUnit 0) zeroMachine 64 (by decide)

end Vkeccak
