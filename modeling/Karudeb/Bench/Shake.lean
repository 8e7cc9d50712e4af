import Karudeb.Fips202.Vkeccak

/-!
# The hash benchmark

The timed loops of `shake_bench.c`, which keep the state of a sponge in the vector registers
over many blocks.  A call sets up the operands of a text and runs it; a `Session` is any
sequence of calls, as `report` and `main` make them.
-/

namespace ShakeBench

open Asm Vkeccak Fips202

/-! ## The code -/

/-- The globals, as `main` has set them up before the first loop. -/
structure Globals where
  /-- `st`. -/
  st : BitVec 64
  /-- `in_blocks`. -/
  inBlocks : BitVec 64
  /-- `out_blocks`. -/
  outBlocks : BitVec 64
  /-- `N`. -/
  N : BitVec 32
  /-- `st` has 32 words. -/
  st_words : Words st 32
  /-- The buffers have 21 words for each block. -/
  in_words : Words inBlocks (21 * N.toNat)
  out_words : Words outBlocks (21 * N.toNat)
  /-- `main` ends if there are none. -/
  N_pos : 0 < N.toNat

/-- `VL32`. -/
def vl32 : Instr Reg := .vsetvli .t0

/-- `ABSORB_LOOP`. -/
def absorbLoop (VL BYTES : ℕ) : List (Instr Reg) := loopText
  [.vsetivli 25,
   .vle64 0 .s,
   .li .t0 32,
   .vsetivli VL,
   .rdcycle .c0]
  [.vle64 8 .p,
   .vxor 0 0 8,
   vl32,
   vkeccak24,
   .vsetivli VL,
   .addi .p .p (BitVec.ofNat 64 BYTES),
   .addi .n .n (-1)]
  .n
  [.rdcycle .c1,
   .vsetivli 25,
   .vse64 0 .s]

/-- `SQUEEZE_LOOP`. -/
def squeezeLoop (VL BYTES : ℕ) : List (Instr Reg) := loopText
  [.vsetivli 25,
   .vle64 0 .s,
   .li .t0 32,
   .vsetivli VL,
   .rdcycle .c0]
  [.vse64 0 .p,
   vl32,
   vkeccak24,
   .vsetivli VL,
   .addi .p .p (BitVec.ofNat 64 BYTES),
   .addi .n .n (-1)]
  .n
  [.rdcycle .c1]

/-- The text of `perm_only`. -/
def permLoop : List (Instr Reg) := loopText
  [.vsetivli 25,
   .vle64 0 .s,
   .li .t0 32,
   vl32,
   .rdcycle .c0]
  [vkeccak24,
   .addi .n .n (-1)]
  .n
  [.rdcycle .c1]

/-- The text of `wrapper`. -/
def wrapperLoop : List (Instr Reg) := loopText
  [.vsetivli 25,
   .vle64 0 .s,
   .vse64 0 .s,
   .li .t0 32,
   .rdcycle .c0]
  [.vsetivli 25,
   .vle64 0 .s,
   vl32,
   vkeccak24,
   .vsetivli 25,
   .vse64 0 .s,
   .addi .n .n (-1)]
  .n
  [.rdcycle .c1]

/-- The text of `vset_pair`. -/
def vsetLoop : List (Instr Reg) := loopText
  [.li .t0 32,
   .rdcycle .c0]
  [vl32,
   .vsetivli 21,
   .addi .n .n (-1)]
  .n
  [.rdcycle .c1]

section

variable (u : KeccakUnit) (g : Globals)

/-- Run a text with `st` in `s`, a pointer in `p` and `N` in `n`, and return `c1 - c0`. -/
def Timed (text : List (Instr Reg)) (p : BitVec 64) (m : Machine Reg)
    (r : BitVec 64 × Machine Reg) : Prop :=
  u.Ends text (((m.setX .s g.st).setX .p p).setX .n (g.N.setWidth 64)) r.2 ∧
    r.1 = r.2.x .c1 - r.2.x .c0

/-- What a call reports is the difference of two readings of the cycle counter, the only ones
it takes. -/
def Timing (m : Machine Reg) (r : BitVec 64 × Machine Reg) : Prop :=
  r.1 = m.clock 1 - m.clock 0 ∧ r.2.clock = fun i => m.clock (i + 2)

/-- `absorb168`. -/
def absorb168 := Timed u g (absorbLoop 21 168) g.inBlocks

/-- `absorb136`. -/
def absorb136 := Timed u g (absorbLoop 17 136) g.inBlocks

/-- The absorbing function for a rate. -/
def absorb : Xof → Machine Reg → BitVec 64 × Machine Reg → Prop
  | .shake128 => absorb168 u g
  | .shake256 => absorb136 u g

/-- `squeeze168`. -/
def squeeze168 := Timed u g (squeezeLoop 21 168) g.outBlocks

/-- `squeeze136`. -/
def squeeze136 := Timed u g (squeezeLoop 17 136) g.outBlocks

/-- The squeezing function for a rate. -/
def squeeze : Xof → Machine Reg → BitVec 64 × Machine Reg → Prop
  | .shake128 => squeeze168 u g
  | .shake256 => squeeze136 u g

/-- `perm_only`, which has no pointer. -/
def permOnly := Timed u g permLoop 0

/-- `wrapper`, which has no pointer. -/
def wrapper := Timed u g wrapperLoop 0

/-- `vset_pair`, which has none either. -/
def vsetPair := Timed u g vsetLoop 0

/-- The functions that `report` calls. -/
inductive Fn
  | permOnly
  | wrapper
  | vsetPair
  | absorb (x : Xof)
  | squeeze (x : Xof)

/-- A call. -/
def Fn.Call : Fn → Machine Reg → BitVec 64 × Machine Reg → Prop
  | .permOnly => ShakeBench.permOnly u g
  | .wrapper => ShakeBench.wrapper u g
  | .vsetPair => ShakeBench.vsetPair u g
  | .absorb x => ShakeBench.absorb u g x
  | .squeeze x => ShakeBench.squeeze u g x

/-- Calls one behind the other, with what each of them returns. -/
inductive Session : Machine Reg → List Fn → List (BitVec 64) → Machine Reg → Prop
  | nil {m : Machine Reg} : Session m [] [] m
  | cons {m m₁ m' : Machine Reg} {fn : Fn} {fns : List Fn} {c : BitVec 64}
      {cs : List (BitVec 64)} : fn.Call u g m (c, m₁) → Session m₁ fns cs m' →
      Session m (fn :: fns) (c :: cs) m'

end

/-- The words that a call may write: the state in `st`, and `out_blocks`. -/
def Globals.Owned (g : Globals) (i : ℕ) : Prop :=
  (word g.st ≤ i ∧ i < word g.st + 25) ∨
    (word g.outBlocks ≤ i ∧ i < word g.outBlocks + 21 * g.N.toNat)

end ShakeBench
