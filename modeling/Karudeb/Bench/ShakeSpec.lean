import Karudeb.Bench.Shake
import Karudeb.Fips202.KeccakSpec

/-!
# What the benchmark computes

The loops are timed, but what they do to memory is what the portable code does, or nothing.

* `absorb_eq` : the absorbing loops leave in `st` what `keccak_absorb` makes of it.
* `squeeze_eq` : the squeezing loops store what `keccak_squeeze` gives.
* `ends_wrapperLoop` : the reference loop permutes `st` once a turn.
* `session_ends` : calls in any order end, and write nothing but `st` and `out_blocks`.
-/

namespace ShakeBench

open Asm Vkeccak Fips202

/-! ## Words and bytes -/

/-- The bytes of memory from word `o` on, the low one of a word first. -/
def bytesAt (a : ℕ → BitVec 64) (o : ℕ) : Bytes := fun i => byteOf (a (o + i / 8)) (i % 8)

theorem drop_bytesAt (a : ℕ → BitVec 64) (o n : ℕ) :
    (bytesAt a o).drop (8 * n) = bytesAt a (o + n) := by
  funext i
  unfold Bytes.drop bytesAt
  rw [show (8 * n + i) / 8 = n + i / 8 by omega, show (8 * n + i) % 8 = i % 8 by omega,
    Nat.add_assoc]

theorem toStr_injective : Function.Injective toStr :=
  Function.LeftInverse.injective ofStr_toStr

/-- Words that are added to the first lanes are the string of their bytes. -/
theorem xorBytes_bytesAt (s : Lanes) (a : ℕ → BitVec 64) (o VL : ℕ) :
    xorBytes s 0 ((bytesAt a o).take (8 * VL)) =
      Vector.tab 25 fun i => if i < VL then s.rd i ^^^ a (o + i) else s.rd i := by
  apply toStr_injective
  refine Vector.ext_rd fun j hj => ?_
  rw [toStr_xorBytes, Sponge.rd_xorStr _ _ _ hj, rd_toStr _ hj, rd_toStr _ hj, Bytes.length_take,
    byteAt, byteAt, Vector.rd_tab _ (by omega)]
  by_cases hlt : j / 8 < VL
  · have hj' : j < ((bytesAt a o).take (8 * VL)).length := by
      rw [Bytes.length_take]
      omega
    rw [if_pos hlt, if_pos (by omega), byteOf_xor, Nat.sub_zero, List.getD_eq_getElem _ _ hj',
      Bytes.getElem_take]
    rfl
  · rw [if_neg hlt, if_neg (by omega)]

/-! ## What all loops share -/

variable {u : KeccakUnit} {g : Globals} {m₀ m : Machine Reg} {k VL : ℕ}

/-- The scalar registers after `k` turns of a loop. -/
structure Turns (g : Globals) (m₀ : Machine Reg) (k : ℕ) (m : Machine Reg) : Prop where
  t0 : m.x .t0 = 32
  s : m.x .s = g.st
  n : m.x .n = BitVec.ofNat 64 (g.N.toNat - k)
  c0 : m.x .c0 = m₀.clock 0
  clock : m.clock = fun i => m₀.clock (i + 1)

theorem counter_pred {N : ℕ} (hk : k < N) :
    BitVec.ofNat 64 (N - k) + (-1) = BitVec.ofNat 64 (N - (k + 1)) := by
  have hone : BitVec.ofNat 64 1 + (-1) = 0#64 := by decide
  rw [show N - k = N - (k + 1) + 1 by omega, BitVec.ofNat_add, BitVec.add_assoc, hone,
    BitVec.add_zero]

theorem pointer_succ (p : BitVec 64) :
    p + BitVec.ofNat 64 (8 * (VL * k)) + BitVec.ofNat 64 (8 * VL) =
      p + BitVec.ofNat 64 (8 * (VL * (k + 1))) := by
  rw [BitVec.add_assoc, ← BitVec.ofNat_add, ← Nat.mul_add, ← Nat.mul_succ]

/-- A turn moves the pointer and the counter alone. -/
theorem Turns.next {m' : Machine Reg} (h : Turns g m₀ k m) (hk : k < g.N.toNat)
    (hx : ∀ r, r ≠ .n → r ≠ .p → m'.x r = m.x r) (hn : m'.x .n = m.x .n + (-1))
    (hclock : m'.clock = m.clock) : Turns g m₀ (k + 1) m' where
  t0 := by rw [hx _ (by decide) (by decide), h.t0]
  s := by rw [hx _ (by decide) (by decide), h.s]
  n := by rw [hn, h.n, counter_pred hk]
  c0 := by rw [hx _ (by decide) (by decide), h.c0]
  clock := by rw [hclock, h.clock]

/-- The reading behind the loop. -/
theorem Turns.timing {m' : Machine Reg} (h : Turns g m₀ k m)
    (hc1 : m'.x .c1 = m.clock 0) (hc0 : m'.x .c0 = m.x .c0)
    (hclock : m'.clock = fun i => m.clock (i + 1)) : Timing m₀ (m'.x .c1 - m'.x .c0, m') := by
  refine ⟨?_, ?_⟩
  · simp only [hc1, hc0, h.c0, h.clock]
  · simp only [hclock, h.clock]

/-- The words of a block. -/
theorem block_le (hVL : VL ≤ 21) (hk : k < g.N.toNat) : VL * k + VL ≤ 21 * g.N.toNat := by
  have h := Nat.mul_le_mul hVL (Nat.succ_le_of_lt hk)
  rwa [Nat.mul_succ] at h

/-- In front of the loop: the state is in the registers, and the length that of a block. -/
structure Ready (g : Globals) (VL : ℕ) (m₀ m : Machine Reg) : Prop extends Turns g m₀ 0 m where
  vl : m.vl = VL
  p : m.x .p = m₀.x .p
  mem : m.mem = m₀.mem
  state : lanesAt m.v 0 = lanesAt m₀.mem (word g.st)

/-- What the absorbing and the squeezing text do in front of the loop. -/
theorem wp_ready (hlanes : 4 ≤ u.lanes) (hVL : VL ≤ 21) (hs : m.x .s = g.st)
    (hn : m.x .n = g.N.setWidth 64) :
    u.Wp [.vsetivli 25, .vle64 0 .s, .li .t0 32, .vsetivli VL, .rdcycle .c0] (Ready g VL m) m := by
  have hmax := le_vlmax hlanes
  apply VectorUnit.wp_vsetivli (by norm_num) (by omega)
  apply VectorUnit.wp_vle64 isGroup_zero (by simpa [hs] using g.st_words.mono (by norm_num))
  apply VectorUnit.wp_li
  apply VectorUnit.wp_vsetivli (by omega) (by omega)
  apply VectorUnit.wp_rdcycle
  apply VectorUnit.wp_nil
  constructor
  · exact ⟨by simp, by simp [hs], by simp [hn], by simp, rfl⟩
  · rfl
  · simp
  · rfl
  · simp only [Machine.setX_v, Nat.zero_mul, hs]
    exact lanesAt_put _ _ _

/-- `VL32` and `vkeccak.vi`: the resident state is permuted. -/
theorem wp_vkeccak {is : List (Instr Reg)} {Q : Machine Reg → Prop} (hlanes : 4 ≤ u.lanes)
    (ht0 : m.x .t0 = 32)
    (h : u.Wp is Q { m with vl := 32, v := u.onGroup m.v 0 }) :
    u.Wp (vl32 :: vkeccak24 :: is) Q m := by
  apply VectorUnit.wp_vsetvli (by simpa [ht0] using le_vlmax hlanes)
  apply VectorUnit.wp_vgroup (by simpa [ht0] using groups_eq hlanes)
  simpa [ht0] using h

/-! ## Absorbing -/

/-- After `k` turns of the absorbing loop: what is left to absorb leads from the resident
state to where the whole input leads from the state in memory. -/
structure AbsorbTurns (g : Globals) (VL : ℕ) (m₀ : Machine Reg) (k : ℕ) (m : Machine Reg) : Prop
    extends Turns g m₀ k m where
  vl : m.vl = VL
  p : m.x .p = g.inBlocks + BitVec.ofNat 64 (8 * (VL * k))
  mem : m.mem = m₀.mem
  rest : ∀ res, (keccakAbsorb keccakF1600StatePermute (lanesAt m.v 0) 0 (8 * VL)
      ((bytesAt m₀.mem (word g.inBlocks + VL * k)).take (8 * VL * (g.N.toNat - k)))).Returns res →
    (keccakAbsorb keccakF1600StatePermute (lanesAt m₀.mem (word g.st)) 0 (8 * VL)
      ((bytesAt m₀.mem (word g.inBlocks)).take (8 * VL * g.N.toNat))).Returns res

/-- A block is absorbed, and then the rest. -/
theorem returns_absorb_block {perm : Lanes → Lanes} {s : Lanes} {r n : ℕ} {b : Bytes}
    {res : Lanes × ℕ}
    (h : (keccakAbsorb perm (perm (xorBytes s 0 (b.take r))) 0 r ((b.drop r).take (r * n))).Returns
      res) : (keccakAbsorb perm s 0 r (b.take (r * (n + 1)))).Returns res := by
  rw [Nat.mul_succ, Nat.add_comm, Bytes.take_add]
  refine (Prog.returns_loop_next (congrArg _ ?_)).2 h
  rw [absorbStep, if_pos (by simp), Nat.sub_zero, List.take_left' (Bytes.length_take _ _),
    List.drop_left' (Bytes.length_take _ _)]

/-- `vle64` into `v8` and `vxor` into `v0`: a block is added to the resident state. -/
theorem lanesAt_xor (v a : ℕ → BitVec 64) (o : ℕ) {lanes : ℕ} (hlanes : 4 ≤ lanes) :
    let v₁ := Mem.put v (8 * lanes) (Mem.read a o VL)
    lanesAt (Mem.put v₁ 0 (Mem.read (fun i => v₁ (0 + i) ^^^ v₁ (8 * lanes + i)) 0 VL)) 0 =
      xorBytes (lanesAt v 0) 0 ((bytesAt a o).take (8 * VL)) := by
  intro v₁
  rw [xorBytes_bytesAt]
  refine Vector.tab_congr fun i hi => ?_
  have hstate : v₁ i = (lanesAt v 0).rd i := by
    rw [lanesAt, Vector.rd_tab _ hi, Nat.zero_add]
    exact Mem.put_of_lt (by omega)
  rw [Mem.put_read, Nat.zero_add, Nat.zero_add, Nat.sub_zero, Nat.zero_add, Nat.zero_add]
  by_cases hlt : i < VL
  · have hblock : v₁ (8 * lanes + i) = a (o + i) := by
      refine (Mem.put_read _ _ _ _ _ _).trans ?_
      rw [if_pos (by omega), Nat.add_sub_cancel_left]
    rw [if_pos ⟨Nat.zero_le _, hlt⟩, if_pos hlt, hstate, hblock]
  · rw [if_neg (by omega), if_neg hlt, hstate]

/-- **A turn of the absorbing loop.** -/
theorem wp_absorb_turn (hlanes : 4 ≤ u.lanes) (hpos : 0 < VL) (hVL : VL ≤ 21)
    (hk : k < g.N.toNat) (h : AbsorbTurns g VL m₀ k m) :
    u.Wp [.vle64 8 .p, .vxor 0 0 8, vl32, vkeccak24, .vsetivli VL,
      .addi .p .p (BitVec.ofNat 64 (8 * VL)), .addi .n .n (-1)]
      (AbsorbTurns g VL m₀ (k + 1)) m := by
  have hmax := le_vlmax hlanes
  have hle := block_le hVL hk
  have hv8 : IsGroup 8 := by decide
  have hword : word (m.x .p) = word g.inBlocks + VL * k := by
    rw [h.p, g.in_words.word_add (by omega)]
  have hfit : Words (m.x .p) m.vl := by
    rw [h.p, h.vl]
    exact g.in_words.add hpos hle
  apply VectorUnit.wp_vle64 hv8 hfit
  apply VectorUnit.wp_vxor isGroup_zero isGroup_zero hv8
  refine wp_vkeccak hlanes ?_ ?_
  · exact h.t0
  apply VectorUnit.wp_vsetivli (by omega) (by omega)
  apply VectorUnit.wp_addi
  apply VectorUnit.wp_addi
  apply VectorUnit.wp_nil
  constructor
  · refine h.toTurns.next hk (fun r hn hp => ?_) ?_ rfl
    · simp [hn, hp]
    · simp
  · rfl
  · simp [h.p, pointer_succ]
  · exact h.mem
  · intro res hres
    apply h.rest
    rw [show g.N.toNat - k = g.N.toNat - (k + 1) + 1 by omega]
    apply returns_absorb_block
    rw [drop_bytesAt, Nat.add_assoc, ← Nat.mul_succ, ← lanesAt_xor m.v m₀.mem _ hlanes,
      ← lanesAt_onGroup]
    simpa [hword, h.vl, h.mem] using hres

/-- **The resident loop absorbs.**  The benchmark's absorbing loop runs `N` turns without a
trap, leaves in `st` what `keccak_absorb` makes of the state there and the `N` blocks, and
changes no other word. -/
theorem ends_absorbLoop (u : KeccakUnit) (hlanes : 4 ≤ u.lanes) (g : Globals) {VL : ℕ}
    (hpos : 0 < VL) (hVL : VL ≤ 21) (m : Machine Reg) : ∃ r s',
      Timed u g (absorbLoop VL (8 * VL)) g.inBlocks m r ∧
      (keccakAbsorb keccakF1600StatePermute (lanesAt m.mem (word g.st)) 0 (8 * VL)
        ((bytesAt m.mem (word g.inBlocks)).take (8 * VL * g.N.toNat))).Returns (s', 0) ∧
      r.2.mem = Mem.put m.mem (word g.st) s'.toList ∧ Timing m r := by
  set m₀ := ((m.setX .s g.st).setX .p g.inBlocks).setX .n (g.N.setWidth 64)
  have hmax := le_vlmax hlanes
  have hpre : u.Wp [.vsetivli 25, .vle64 0 .s, .li .t0 32, .vsetivli VL, .rdcycle .c0]
      (AbsorbTurns g VL m₀ 0) m₀ :=
    (wp_ready hlanes hVL (by simp [m₀]) (by simp [m₀])).mono fun m' h =>
      ⟨h.toTurns, h.vl, by simp [h.p, m₀], h.mem, fun res hres => by rwa [h.state] at hres⟩
  have hpost : ∀ m', AbsorbTurns g VL m₀ g.N.toNat m' →
      u.Wp [.rdcycle .c1, .vsetivli 25, .vse64 0 .s] (fun m' =>
        (keccakAbsorb keccakF1600StatePermute (lanesAt m.mem (word g.st)) 0 (8 * VL)
          ((bytesAt m.mem (word g.inBlocks)).take (8 * VL * g.N.toNat))).Returns
            (lanesAt m'.v 0, 0) ∧ m'.mem = Mem.put m.mem (word g.st) (lanesAt m'.v 0).toList ∧
          Timing m (m'.x .c1 - m'.x .c0, m')) m' := by
    intro m' h
    apply VectorUnit.wp_rdcycle
    apply VectorUnit.wp_vsetivli (by norm_num) (by omega)
    apply VectorUnit.wp_vse64 isGroup_zero (by simpa [h.s] using g.st_words.mono (by norm_num))
    apply VectorUnit.wp_nil
    refine ⟨h.rest _ ?_, ?_, h.toTurns.timing (by simp) (by simp) rfl⟩
    · rw [Nat.sub_self, Nat.mul_zero]
      exact (Prog.returns_loop_done (congrArg _ (if_neg (by simp; omega)))).2 rfl
    · simp [h.s, h.mem, toList_lanesAt, m₀]
  obtain ⟨m', hends, hret, hmem, hclock⟩ := VectorUnit.ends_loop (AbsorbTurns g VL m₀) g.N_pos
    (by omega) (fun k m' h => h.n) hpre
    (fun k hk m' h => wp_absorb_turn hlanes hpos hVL hk h) hpost
  exact ⟨(_, m'), lanesAt m'.v 0, ⟨hends, rfl⟩, hret, hmem, hclock⟩

/-! ## Squeezing -/

/-- The loop of `keccak_squeeze`, from any of its states. -/
def squeezeFrom (perm : Lanes → Lanes) (r : ℕ) (t : List UInt8 × ℕ × Lanes × ℕ) :
    Prog (List UInt8 × Lanes × ℕ) :=
  Prog.loop (fun t => pure (squeezeStep perm r t)) t

/-- After `k` turns of the squeezing loop: `keccak_squeeze` has `k` blocks in its output, and
the state with which it comes to the next block is the resident one. -/
structure SqueezeTurns (g : Globals) (VL : ℕ) (m₀ : Machine Reg) (k : ℕ) (m : Machine Reg) : Prop
    extends Turns g m₀ k m where
  vl : m.vl = VL
  p : m.x .p = g.outBlocks + BitVec.ofNat 64 (8 * (VL * k))
  frame : ∀ i, i < word g.outBlocks ∨ word g.outBlocks + VL * k ≤ i → m.mem i = m₀.mem i
  rest : ∃ s pos, (if pos = 8 * VL then (keccakF1600StatePermute s, 0) else (s, pos)) =
      (lanesAt m.v 0, 0) ∧
    ∀ res, (squeezeFrom keccakF1600StatePermute (8 * VL)
        ((bytesAt m.mem (word g.outBlocks)).take (8 * (VL * k)), 8 * VL * (g.N.toNat - k), s,
          pos)).Returns res →
      (keccakSqueeze keccakF1600StatePermute (8 * VL * g.N.toNat) (lanesAt m₀.mem (word g.st)) 0
        (8 * VL)).Returns res

/-- A block is squeezed, and then the rest. -/
theorem returns_squeeze_block {perm : Lanes → Lanes} {s t : Lanes} {pos r n : ℕ} (hr : 0 < r)
    {out : List UInt8} {res : List UInt8 × Lanes × ℕ}
    (hstart : (if pos = r then (perm s, 0) else (s, pos)) = (t, 0))
    (h : (squeezeFrom perm r (out ++ Bytes.take (byteAt t) r, r * n, t, r)).Returns res) :
    (squeezeFrom perm r (out, r * (n + 1), s, pos)).Returns res := by
  have hne : r * (n + 1) ≠ 0 := (Nat.mul_pos hr n.succ_pos).ne'
  have hmin : min r (r * (n + 1)) = r := Nat.min_eq_left (Nat.le_mul_of_pos_right r n.succ_pos)
  refine (Prog.returns_loop_next (congrArg _ ?_)).2 h
  rw [squeezeStep, if_neg hne, hstart]
  simp only [Nat.sub_zero, Nat.zero_add, hmin]
  rw [Nat.mul_succ, Nat.add_sub_cancel]
  rfl

/-- A block that is stored behind the others is a string of the state. -/
theorem take_bytesAt_put (a v : ℕ → BitVec 64) (o n : ℕ) (hVL : VL ≤ 21) :
    (bytesAt (Mem.put a (o + n) (Mem.read v 0 VL)) o).take (8 * n + 8 * VL) =
      (bytesAt a o).take (8 * n) ++ Bytes.take (byteAt (lanesAt v 0)) (8 * VL) := by
  rw [Bytes.take_add, drop_bytesAt]
  congr 1
  · refine Bytes.take_congr fun i hi => ?_
    unfold bytesAt
    rw [Mem.put_of_lt (by omega)]
  · refine Bytes.take_congr fun i hi => ?_
    unfold bytesAt byteAt lanesAt
    rw [Mem.put_read, if_pos (by omega), Nat.add_sub_cancel_left, Vector.rd_tab _ (by omega)]

/-- **A turn of the squeezing loop.** -/
theorem wp_squeeze_turn (hlanes : 4 ≤ u.lanes) (hpos : 0 < VL) (hVL : VL ≤ 21)
    (hk : k < g.N.toNat) (h : SqueezeTurns g VL m₀ k m) :
    u.Wp [.vse64 0 .p, vl32, vkeccak24, .vsetivli VL,
      .addi .p .p (BitVec.ofNat 64 (8 * VL)), .addi .n .n (-1)]
      (SqueezeTurns g VL m₀ (k + 1)) m := by
  have hmax := le_vlmax hlanes
  have hle := block_le hVL hk
  have hword : word (m.x .p) = word g.outBlocks + VL * k := by
    rw [h.p, g.out_words.word_add (by omega)]
  have hfit : Words (m.x .p) m.vl := by
    rw [h.p, h.vl]
    exact g.out_words.add hpos hle
  apply VectorUnit.wp_vse64 isGroup_zero hfit
  refine wp_vkeccak hlanes ?_ ?_
  · exact h.t0
  apply VectorUnit.wp_vsetivli (by omega) (by omega)
  apply VectorUnit.wp_addi
  apply VectorUnit.wp_addi
  apply VectorUnit.wp_nil
  rw [Nat.zero_mul, hword, h.vl]
  constructor
  · refine h.toTurns.next hk (fun r hn hp => ?_) ?_ rfl
    · simp [hn, hp]
    · simp
  · rfl
  · simp [h.p, pointer_succ]
  · intro i hi
    rw [Nat.mul_succ] at hi
    simp only [Machine.setX_mem]
    rw [Mem.put_read, if_neg (by omega)]
    exact h.frame i (by omega)
  · obtain ⟨s, pos, hstart, hrest⟩ := h.rest
    refine ⟨lanesAt m.v 0, 8 * VL, ?_, fun res hres => hrest res ?_⟩
    · rw [if_pos rfl]
      simp only [Machine.setX_v, lanesAt_onGroup]
    · rw [show g.N.toNat - k = g.N.toNat - (k + 1) + 1 by omega]
      refine returns_squeeze_block (by omega) hstart ?_
      rw [← take_bytesAt_put _ _ _ _ hVL, ← Nat.mul_add, ← Nat.mul_succ]
      exact hres

/-- **The resident loop squeezes.**  The benchmark's squeezing loop runs `N` turns without a
trap, stores in `out_blocks` the output of `keccak_squeeze` from the state in `st`, and changes
no other word. -/
theorem ends_squeezeLoop (u : KeccakUnit) (hlanes : 4 ≤ u.lanes) (g : Globals) {VL : ℕ}
    (hpos : 0 < VL) (hVL : VL ≤ 21) (m : Machine Reg) : ∃ r s' pos',
      Timed u g (squeezeLoop VL (8 * VL)) g.outBlocks m r ∧
      (keccakSqueeze keccakF1600StatePermute (8 * VL * g.N.toNat) (lanesAt m.mem (word g.st)) 0
        (8 * VL)).Returns
        ((bytesAt r.2.mem (word g.outBlocks)).take (8 * (VL * g.N.toNat)), s', pos') ∧
      (∀ i, i < word g.outBlocks ∨ word g.outBlocks + VL * g.N.toNat ≤ i →
        r.2.mem i = m.mem i) ∧ Timing m r := by
  set m₀ := ((m.setX .s g.st).setX .p g.outBlocks).setX .n (g.N.setWidth 64)
  have hpre : u.Wp [.vsetivli 25, .vle64 0 .s, .li .t0 32, .vsetivli VL, .rdcycle .c0]
      (SqueezeTurns g VL m₀ 0) m₀ :=
    (wp_ready hlanes hVL (by simp [m₀]) (by simp [m₀])).mono fun m' h =>
      ⟨h.toTurns, h.vl, by simp [h.p, m₀], fun i _ => by rw [h.mem],
        _, 0, if_neg (by omega), fun res hres => by rwa [h.state] at hres⟩
  have hpost : ∀ m', SqueezeTurns g VL m₀ g.N.toNat m' →
      u.Wp [.rdcycle .c1] (fun m' => (∃ s' pos', (keccakSqueeze keccakF1600StatePermute
          (8 * VL * g.N.toNat) (lanesAt m.mem (word g.st)) 0 (8 * VL)).Returns
            ((bytesAt m'.mem (word g.outBlocks)).take (8 * (VL * g.N.toNat)), s', pos')) ∧
          (∀ i, i < word g.outBlocks ∨ word g.outBlocks + VL * g.N.toNat ≤ i →
            m'.mem i = m.mem i) ∧ Timing m (m'.x .c1 - m'.x .c0, m')) m' := by
    intro m' h
    apply VectorUnit.wp_rdcycle
    apply VectorUnit.wp_nil
    obtain ⟨s, pos, -, hrest⟩ := h.rest
    refine ⟨⟨s, pos, hrest _ ?_⟩, h.frame, h.toTurns.timing (by simp) (by simp) rfl⟩
    rw [Nat.sub_self, Nat.mul_zero]
    exact (Prog.returns_loop_done rfl).2 rfl
  obtain ⟨m', hends, ⟨s', pos', hret⟩, hframe, hclock⟩ := VectorUnit.ends_loop
    (SqueezeTurns g VL m₀) g.N_pos (by omega) (fun k m' h => h.n) hpre
    (fun k hk m' h => wp_squeeze_turn hlanes hpos hVL hk h) hpost
  exact ⟨(_, m'), s', pos', ⟨hends, rfl⟩, hret, hframe, hclock⟩

/-! ## The other loops -/

/-- A state that is read back. -/
theorem lanesAt_put_toList (a : ℕ → BitVec 64) (o : ℕ) (s : Lanes) :
    lanesAt (Mem.put a o s.toList) o = s := by
  refine Vector.ext_rd fun i hi => ?_
  have hlt : i < s.toList.length := by simpa using hi
  rw [lanesAt, Vector.rd_tab _ hi, Mem.put_at _ _ hlt, Vector.rd_eq_getElem _ hi]
  simp

/-- A state over another one. -/
theorem put_toList_put (a : ℕ → BitVec 64) (o : ℕ) (s t : Lanes) :
    Mem.put (Mem.put a o s.toList) o t.toList = Mem.put a o t.toList := by
  funext i
  unfold Mem.put
  rw [Vector.length_toList, Vector.length_toList]
  split
  · rfl
  · rfl

/-- After `k` turns of `wrapper`. -/
structure WrapperTurns (g : Globals) (m₀ : Machine Reg) (k : ℕ) (m : Machine Reg) : Prop
    extends Turns g m₀ k m where
  mem : m.mem = Mem.put m₀.mem (word g.st)
    (keccakF1600StatePermute^[k] (lanesAt m₀.mem (word g.st))).toList

theorem wp_wrapper_turn (hlanes : 4 ≤ u.lanes) (hk : k < g.N.toNat) (h : WrapperTurns g m₀ k m) :
    u.Wp [.vsetivli 25, .vle64 0 .s, vl32, vkeccak24, .vsetivli 25, .vse64 0 .s,
      .addi .n .n (-1)] (WrapperTurns g m₀ (k + 1)) m := by
  have hmax := le_vlmax hlanes
  have hfit : Words (m.x .s) 25 := by
    rw [h.s]
    exact g.st_words.mono (by norm_num)
  apply VectorUnit.wp_vsetivli (by norm_num) (by omega)
  apply VectorUnit.wp_vle64 isGroup_zero hfit
  refine wp_vkeccak hlanes ?_ ?_
  · exact h.t0
  apply VectorUnit.wp_vsetivli (by norm_num) (by omega)
  apply VectorUnit.wp_vse64 isGroup_zero hfit
  apply VectorUnit.wp_addi
  apply VectorUnit.wp_nil
  constructor
  · refine h.toTurns.next hk (fun r hn _ => ?_) ?_ rfl
    · simp [hn]
    · simp
  · simp only [Machine.setX_mem, Nat.zero_mul, h.s]
    rw [← toList_lanesAt, lanesAt_onGroup, lanesAt_put, h.mem, lanesAt_put_toList, put_toList_put,
      Function.iterate_succ_apply']

/-- **The reference loop** loads, permutes and stores the state in every turn. -/
theorem ends_wrapperLoop (u : KeccakUnit) (hlanes : 4 ≤ u.lanes) (g : Globals) (m : Machine Reg) :
    ∃ r, wrapper u g m r ∧ r.2.mem = Mem.put m.mem (word g.st)
      (keccakF1600StatePermute^[g.N.toNat] (lanesAt m.mem (word g.st))).toList ∧ Timing m r := by
  set m₀ := ((m.setX .s g.st).setX .p 0).setX .n (g.N.setWidth 64)
  have hmax := le_vlmax hlanes
  have hfit : Words (m₀.x .s) 25 := g.st_words.mono (by norm_num)
  have hpre : u.Wp [.vsetivli 25, .vle64 0 .s, .vse64 0 .s, .li .t0 32, .rdcycle .c0]
      (WrapperTurns g m₀ 0) m₀ := by
    apply VectorUnit.wp_vsetivli (by norm_num) (by omega)
    apply VectorUnit.wp_vle64 isGroup_zero hfit
    apply VectorUnit.wp_vse64 isGroup_zero hfit
    apply VectorUnit.wp_li
    apply VectorUnit.wp_rdcycle
    apply VectorUnit.wp_nil
    constructor
    · exact ⟨by simp, by simp [m₀], by simp [m₀], by simp, rfl⟩
    · simp only [Machine.setX_mem, Nat.zero_mul]
      rw [← toList_lanesAt, lanesAt_put]
      rfl
  have hpost : ∀ m', WrapperTurns g m₀ g.N.toNat m' → u.Wp [.rdcycle .c1] (fun m' =>
      m'.mem = Mem.put m.mem (word g.st)
        (keccakF1600StatePermute^[g.N.toNat] (lanesAt m.mem (word g.st))).toList ∧
        Timing m (m'.x .c1 - m'.x .c0, m')) m' := by
    intro m' h
    apply VectorUnit.wp_rdcycle
    apply VectorUnit.wp_nil
    exact ⟨h.mem, h.toTurns.timing (by simp) (by simp) rfl⟩
  obtain ⟨m', hends, hmem, htime⟩ := VectorUnit.ends_loop (WrapperTurns g m₀) g.N_pos (by omega)
    (fun k m' h => h.n) hpre (fun k hk m' h => wp_wrapper_turn hlanes hk h) hpost
  exact ⟨(_, m'), ⟨hends, rfl⟩, hmem, htime⟩

/-- After `k` turns of a loop that leaves memory alone. -/
structure IdleTurns (g : Globals) (m₀ : Machine Reg) (k : ℕ) (m : Machine Reg) : Prop
    extends Turns g m₀ k m where
  mem : m.mem = m₀.mem

/-- `perm_only` keeps what it does to the state in the registers. -/
theorem ends_permLoop (u : KeccakUnit) (hlanes : 4 ≤ u.lanes) (g : Globals) (m : Machine Reg) :
    ∃ r, permOnly u g m r ∧ r.2.mem = m.mem ∧ Timing m r := by
  set m₀ := ((m.setX .s g.st).setX .p 0).setX .n (g.N.setWidth 64)
  have hmax := le_vlmax hlanes
  have hpre : u.Wp [.vsetivli 25, .vle64 0 .s, .li .t0 32, vl32, .rdcycle .c0]
      (fun m' => IdleTurns g m₀ 0 m' ∧ m'.vl = 32) m₀ := by
    apply VectorUnit.wp_vsetivli (by norm_num) (by omega)
    apply VectorUnit.wp_vle64 isGroup_zero (g.st_words.mono (by norm_num))
    apply VectorUnit.wp_li
    apply VectorUnit.wp_vsetvli (by simpa using hmax)
    apply VectorUnit.wp_rdcycle
    apply VectorUnit.wp_nil
    exact ⟨⟨⟨by simp, by simp [m₀], by simp [m₀], by simp, rfl⟩, rfl⟩, by simp⟩
  have hbody : ∀ k < g.N.toNat, ∀ m, IdleTurns g m₀ k m ∧ m.vl = 32 →
      u.Wp [vkeccak24, .addi .n .n (-1)] (fun m' => IdleTurns g m₀ (k + 1) m' ∧ m'.vl = 32) m := by
    rintro k hk m ⟨h, hvl⟩
    apply VectorUnit.wp_vgroup (by rw [hvl, groups_eq hlanes])
    apply VectorUnit.wp_addi
    apply VectorUnit.wp_nil
    refine ⟨⟨h.toTurns.next hk (fun r hn _ => ?_) ?_ rfl, h.mem⟩, hvl⟩
    · simp [hn]
    · simp
  have hpost : ∀ m', IdleTurns g m₀ g.N.toNat m' ∧ m'.vl = 32 → u.Wp [.rdcycle .c1] (fun m' =>
      m'.mem = m.mem ∧ Timing m (m'.x .c1 - m'.x .c0, m')) m' := by
    rintro m' ⟨h, -⟩
    apply VectorUnit.wp_rdcycle
    apply VectorUnit.wp_nil
    exact ⟨h.mem, h.toTurns.timing (by simp) (by simp) rfl⟩
  obtain ⟨m', hends, hmem, htime⟩ := VectorUnit.ends_loop
    (fun k m' => IdleTurns g m₀ k m' ∧ m'.vl = 32) g.N_pos (by omega) (fun k m' h => h.1.n)
    hpre hbody hpost
  exact ⟨(_, m'), ⟨hends, rfl⟩, hmem, htime⟩

/-- `vset_pair` sets the vector length twice a turn, and does nothing else. -/
theorem ends_vsetLoop (u : KeccakUnit) (hlanes : 4 ≤ u.lanes) (g : Globals) (m : Machine Reg) :
    ∃ r, vsetPair u g m r ∧ r.2.mem = m.mem ∧ Timing m r := by
  set m₀ := ((m.setX .s g.st).setX .p 0).setX .n (g.N.setWidth 64)
  have hmax := le_vlmax hlanes
  have hpre : u.Wp [.li .t0 32, .rdcycle .c0] (IdleTurns g m₀ 0) m₀ := by
    apply VectorUnit.wp_li
    apply VectorUnit.wp_rdcycle
    apply VectorUnit.wp_nil
    exact ⟨⟨by simp, by simp [m₀], by simp [m₀], by simp, rfl⟩, rfl⟩
  have hbody : ∀ k < g.N.toNat, ∀ m, IdleTurns g m₀ k m →
      u.Wp [vl32, .vsetivli 21, .addi .n .n (-1)] (IdleTurns g m₀ (k + 1)) m := by
    intro k hk m h
    apply VectorUnit.wp_vsetvli (by simpa [h.t0] using hmax)
    apply VectorUnit.wp_vsetivli (by norm_num) (by omega)
    apply VectorUnit.wp_addi
    apply VectorUnit.wp_nil
    refine ⟨h.toTurns.next hk (fun r hn _ => ?_) ?_ rfl, h.mem⟩
    · simp [hn]
    · simp
  have hpost : ∀ m', IdleTurns g m₀ g.N.toNat m' → u.Wp [.rdcycle .c1] (fun m' =>
      m'.mem = m.mem ∧ Timing m (m'.x .c1 - m'.x .c0, m')) m' := by
    intro m' h
    apply VectorUnit.wp_rdcycle
    apply VectorUnit.wp_nil
    exact ⟨h.mem, h.toTurns.timing (by simp) (by simp) rfl⟩
  obtain ⟨m', hends, hmem, htime⟩ := VectorUnit.ends_loop (IdleTurns g m₀) g.N_pos (by omega)
    (fun k m' h => h.n) hpre hbody hpost
  exact ⟨(_, m'), ⟨hends, rfl⟩, hmem, htime⟩

/-! ## Calls -/

/-- One block each way. -/
def sampleGlobals : Globals where
  st := 64
  inBlocks := 512
  outBlocks := 1024
  N := 1
  st_words := by decide
  in_words := by decide
  out_words := by decide
  N_pos := by decide

/-- **Absorbing**, with the names and the rates of the two functions. -/
theorem absorb_eq (u : KeccakUnit) (hlanes : 4 ≤ u.lanes) (g : Globals) (x : Xof)
    (m : Machine Reg) : ∃ r s', absorb u g x m r ∧
      (keccakAbsorb keccakF1600StatePermute (lanesAt m.mem (word g.st)) 0 x.rate
        ((bytesAt m.mem (word g.inBlocks)).take (x.rate * g.N.toNat))).Returns (s', 0) ∧
      r.2.mem = Mem.put m.mem (word g.st) s'.toList ∧ Timing m r := by
  cases x with
  | shake128 => exact @ends_absorbLoop u hlanes g 21 (by norm_num) (by norm_num) m
  | shake256 => exact @ends_absorbLoop u hlanes g 17 (by norm_num) (by norm_num) m

theorem absorb_eq_sample : ∃ r s', absorb (keccakUnit 1) sampleGlobals .shake128 zeroMachine r ∧
    (keccakAbsorb keccakF1600StatePermute (lanesAt (fun _ => 0) 8) 0 168
      ((bytesAt (fun _ => 0) 64).take 168)).Returns (s', 0) ∧
    r.2.mem = Mem.put (fun _ => 0) 8 s'.toList ∧ Timing zeroMachine r :=
  absorb_eq (keccakUnit 1) (by decide) sampleGlobals .shake128 zeroMachine

/-- **Squeezing**, with the names and the rates of the two functions. -/
theorem squeeze_eq (u : KeccakUnit) (hlanes : 4 ≤ u.lanes) (g : Globals) (x : Xof)
    (m : Machine Reg) : ∃ r s' pos', squeeze u g x m r ∧
      (keccakSqueeze keccakF1600StatePermute (x.rate * g.N.toNat) (lanesAt m.mem (word g.st)) 0
        x.rate).Returns
        ((bytesAt r.2.mem (word g.outBlocks)).take (x.rate * g.N.toNat), s', pos') ∧
      (∀ i, i < word g.outBlocks ∨ word g.outBlocks + x.rate / 8 * g.N.toNat ≤ i →
        r.2.mem i = m.mem i) ∧ Timing m r := by
  cases x with
  | shake128 =>
    have h := @ends_squeezeLoop u hlanes g 21 (by norm_num) (by norm_num) m
    rwa [← Nat.mul_assoc] at h
  | shake256 =>
    have h := @ends_squeezeLoop u hlanes g 17 (by norm_num) (by norm_num) m
    rwa [← Nat.mul_assoc] at h

theorem squeeze_eq_sample : ∃ r s' pos',
    squeeze (keccakUnit 1) sampleGlobals .shake256 zeroMachine r ∧
    (keccakSqueeze keccakF1600StatePermute 136 (lanesAt (fun _ => 0) 8) 0 136).Returns
      ((bytesAt r.2.mem 128).take 136, s', pos') ∧
    (∀ i, i < 128 ∨ 145 ≤ i → r.2.mem i = 0) ∧ Timing zeroMachine r :=
  squeeze_eq (keccakUnit 1) (by decide) sampleGlobals .shake256 zeroMachine

/-! ## Sessions -/

/-- A state that is written back. -/
theorem put_state_of_not_owned (a : ℕ → BitVec 64) (s : Lanes) {i : ℕ} (hi : ¬ g.Owned i) :
    Mem.put a (word g.st) s.toList i = a i := by
  refine if_neg fun h => hi (.inl ?_)
  rwa [Vector.length_toList] at h

/-- A call ends, writes owned words alone and takes two readings. -/
theorem call_ends (hlanes : 4 ≤ u.lanes) (g : Globals) (fn : Fn) (m : Machine Reg) :
    ∃ r, fn.Call u g m r ∧ (∀ i, ¬ g.Owned i → r.2.mem i = m.mem i) ∧ Timing m r := by
  cases fn with
  | permOnly =>
    obtain ⟨r, hcall, hmem, htime⟩ := ends_permLoop u hlanes g m
    exact ⟨r, hcall, fun i _ => by rw [hmem], htime⟩
  | wrapper =>
    obtain ⟨r, hcall, hmem, htime⟩ := ends_wrapperLoop u hlanes g m
    exact ⟨r, hcall, fun i hi => by rw [hmem, put_state_of_not_owned _ _ hi], htime⟩
  | vsetPair =>
    obtain ⟨r, hcall, hmem, htime⟩ := ends_vsetLoop u hlanes g m
    exact ⟨r, hcall, fun i _ => by rw [hmem], htime⟩
  | absorb x =>
    obtain ⟨r, s', hcall, -, hmem, htime⟩ := absorb_eq u hlanes g x m
    exact ⟨r, hcall, fun i hi => by rw [hmem, put_state_of_not_owned _ _ hi], htime⟩
  | squeeze x =>
    obtain ⟨r, s', pos', hcall, -, hframe, htime⟩ := squeeze_eq u hlanes g x m
    refine ⟨r, hcall, fun i hi => hframe i ?_, htime⟩
    have hrate : x.rate / 8 ≤ 21 := by cases x <;> decide
    have hle := Nat.mul_le_mul_right g.N.toNat hrate
    unfold Globals.Owned at hi
    omega

/-- **No session goes wrong.**  Calls in any order and number, from any state, end without a
trap and write nothing but the state in `st` and `out_blocks`; each returns the difference
of two readings of the cycle counter that no other call takes. -/
theorem session_ends (u : KeccakUnit) (hlanes : 4 ≤ u.lanes) (g : Globals) (fns : List Fn)
    (m : Machine Reg) : ∃ cs m', Session u g m fns cs m' ∧
      (∀ i, ¬ g.Owned i → m'.mem i = m.mem i) ∧
      cs = (List.range fns.length).map fun j => m.clock (2 * j + 1) - m.clock (2 * j) := by
  induction fns generalizing m with
  | nil => exact ⟨[], m, .nil, fun _ _ => rfl, rfl⟩
  | cons fn fns ih =>
    obtain ⟨⟨c, m₁⟩, hcall, hmem, hc, hclock⟩ := call_ends hlanes g fn m
    obtain ⟨cs, m', hrest, hmem', hcs⟩ := ih m₁
    refine ⟨c :: cs, m', .cons hcall hrest, fun i hi => (hmem' i hi).trans (hmem i hi), ?_⟩
    dsimp only at hc hclock
    rw [hcs, List.length_cons, List.range_succ_eq_map, List.map_cons, List.map_map, hc, hclock]
    rfl

theorem session_ends_sample : ∃ cs m',
    Session (keccakUnit 1) sampleGlobals zeroMachine [.absorb .shake128, .squeeze .shake128] cs m' ∧
      (∀ i, ¬ sampleGlobals.Owned i → m'.mem i = 0) ∧ cs = [0, 0] :=
  session_ends (keccakUnit 1) (by decide) sampleGlobals _ zeroMachine

end ShakeBench
