import Karudeb.Lib.Buffer
import Mathlib

/-!
# Assembly texts with vector instructions

A machine for inline assembly: scalar registers, one file of vector lanes, memory in
words, and programs with branches.  Vector instructions are those of 64-bit elements
with `LMUL = 8` and the tail undisturbed.  One instruction, `vgroup`, is left to the
machine: it replaces each element group of a register group by a function of it.

An instruction that traps, or whose effect the architecture leaves open, has no result.

* `step`, `Ends` : a program runs from its first instruction to its end.
* `Wp` : what holds after a straight piece of a program, with one rule for each
  instruction.
* `ends_straight`, `ends_loop` : programs without a branch, and a loop that counts
  down to zero between two straight pieces.
-/

/-! ## Cells -/

namespace Mem

variable {α : Type}

/-- The `n` cells from cell `o` on. -/
def read (a : ℕ → α) (o n : ℕ) : List α := (List.range n).map fun i => a (o + i)

@[simp] theorem length_read (a : ℕ → α) (o n : ℕ) : (read a o n).length = n := by
  simp [read]

/-- A longer piece is a shorter one and what comes behind it. -/
theorem read_add (a : ℕ → α) (o n k : ℕ) : read a o (n + k) = read a o n ++ read a (o + n) k := by
  simp [read, List.range_add, Nat.add_assoc]

/-- Cells are copied one by one. -/
theorem put_read [Inhabited α] (a b : ℕ → α) (o o' n i : ℕ) :
    put a o (read b o' n) i = if o ≤ i ∧ i < o + n then b (o' + (i - o)) else a i := by
  unfold put
  rw [length_read]
  by_cases h : o ≤ i ∧ i < o + n
  · have hlt : i - o < n := by omega
    rw [if_pos h, if_pos h, List.getD_eq_getElem _ _ (by simpa using hlt)]
    simp [read]
  · rw [if_neg h, if_neg h]

/-- Two pieces, copied one behind the other. -/
theorem put_read_add [Inhabited α] (a b : ℕ → α) (o o' n k : ℕ) :
    put (put a o (read b o' n)) (o + n) (read b (o' + n) k) = put a o (read b o' (n + k)) := by
  have h := @put_put α _ a o (read b o' n) (read b (o' + n) k)
  rwa [length_read, ← read_add] at h

end Mem

namespace Asm

/-! ## Machines -/

variable {R : Type}

/-- An instruction, over the scalar registers `R`.  Vector registers are numbered, and the
target of a branch is the place of an instruction. -/
inductive Instr (R : Type)
  | li (rd : R) (imm : BitVec 64)
  | addi (rd rs : R) (imm : BitVec 64)
  | rdcycle (rd : R)
  | vsetivli (uimm : ℕ)
  | vsetvli (rs : R)
  | vle64 (vd : ℕ) (rs : R)
  | vse64 (vs : ℕ) (rs : R)
  | vxor (vd vs2 vs1 : ℕ)
  | vgroup (vd : ℕ)
  | bnez (rs : R) (target : ℕ)

/-- `pre`, then `1: body; bnez n, 1b`, then `post`. -/
def loopText (pre body : List (Instr R)) (n : R) (post : List (Instr R)) : List (Instr R) :=
  pre ++ body ++ .bnez n pre.length :: post

/-- A vector unit. -/
structure VectorUnit where
  /-- The lanes of a register, `VLEN / 64`. -/
  lanes : ℕ
  /-- The elements of a group that `vgroup` works on. -/
  egs : ℕ
  /-- What it makes of them. -/
  group : Vector (BitVec 64) egs → Vector (BitVec 64) egs
  /-- `VLEN` is a power of two, and at least 128. -/
  lanes_pow : ∃ k, lanes = 2 ^ (k + 1)

/-- `VLMAX`. -/
def VectorUnit.vlmax (u : VectorUnit) : ℕ := 8 * u.lanes

/-- The state of a machine. -/
structure Machine (R : Type) where
  /-- The scalar registers. -/
  x : R → BitVec 64
  /-- The lanes of the vector registers, one register behind the other. -/
  v : ℕ → BitVec 64
  /-- The vector length. -/
  vl : ℕ
  /-- The words of memory. -/
  mem : ℕ → BitVec 64
  /-- What the cycle counter will read, each time it is read. -/
  clock : ℕ → BitVec 64

namespace Machine

variable [DecidableEq R]

/-- Write a scalar register. -/
def setX (m : Machine R) (rd : R) (a : BitVec 64) : Machine R :=
  { m with x := Function.update m.x rd a }

@[simp] theorem setX_x (m : Machine R) (rd : R) (a : BitVec 64) (rs : R) :
    (m.setX rd a).x rs = if rs = rd then a else m.x rs := Function.update_apply m.x rd a rs

@[simp] theorem setX_v (m : Machine R) (rd : R) (a : BitVec 64) : (m.setX rd a).v = m.v := rfl

@[simp] theorem setX_vl (m : Machine R) (rd : R) (a : BitVec 64) : (m.setX rd a).vl = m.vl := rfl

@[simp] theorem setX_mem (m : Machine R) (rd : R) (a : BitVec 64) : (m.setX rd a).mem = m.mem := rfl

@[simp] theorem setX_clock (m : Machine R) (rd : R) (a : BitVec 64) :
    (m.setX rd a).clock = m.clock := rfl

end Machine

/-- The address `a` is that of a word, and `n` words fit behind it. -/
def Words (a : BitVec 64) (n : ℕ) : Prop := a.toNat % 8 = 0 ∧ a.toNat + 8 * n ≤ 2 ^ 64

instance (a : BitVec 64) (n : ℕ) : Decidable (Words a n) := inferInstanceAs (Decidable (_ ∧ _))

theorem Words.mono {a : BitVec 64} {n k : ℕ} (h : Words a n) (hk : k ≤ n) : Words a k :=
  ⟨h.1, by have := h.2; omega⟩

/-- The word at an address. -/
def word (a : BitVec 64) : ℕ := a.toNat / 8

section

variable {a : BitVec 64} {n k j : ℕ}

/-- A pointer moved on by whole words does not wrap, up to the last of them. -/
theorem Words.toNat_add (h : Words a n) (hk : k < n) :
    (a + BitVec.ofNat 64 (8 * k)).toNat = a.toNat + 8 * k := by
  have hfit := h.2
  rw [BitVec.toNat_add, BitVec.toNat_ofNat]
  omega

theorem Words.word_add (h : Words a n) (hk : k < n) :
    word (a + BitVec.ofNat 64 (8 * k)) = word a + k := by
  unfold word
  rw [h.toNat_add hk]
  omega

theorem Words.add (h : Words a n) (hj : 0 < j) (hle : k + j ≤ n) :
    Words (a + BitVec.ofNat 64 (8 * k)) j := by
  obtain ⟨halign, hfit⟩ := h
  have hnat := Words.toNat_add ⟨halign, hfit⟩ (k := k) (by omega)
  refine ⟨?_, ?_⟩ <;> omega

end

/-- A register group of eight registers. -/
def IsGroup (vd : ℕ) : Prop := vd % 8 = 0 ∧ vd < 32

instance (vd : ℕ) : Decidable (IsGroup vd) := inferInstanceAs (Decidable (_ ∧ _))

/-! ## Execution -/

namespace VectorUnit

variable (u : VectorUnit)

/-- How many element groups `vgroup` works on.  Where a register group is too small for an
element group, there is one in as many registers as it takes, whatever the vector length. -/
def groups (vd vl : ℕ) : Option ℕ :=
  if u.egs ≤ u.vlmax then
    if IsGroup vd ∧ vl % u.egs = 0 then some (vl / u.egs) else none
  else if vd * u.lanes % u.egs = 0 ∧ vd * u.lanes + u.egs ≤ 32 * u.lanes then some 1 else none

/-- There is one if the vector length is that of an element group. -/
theorem groups_egs {vd : ℕ} (hd : IsGroup vd) (hpos : 0 < u.egs) (hle : u.egs ≤ u.vlmax) :
    u.groups vd u.egs = some 1 := by
  rw [groups, if_pos hle, if_pos ⟨hd, Nat.mod_self _⟩, Nat.div_self hpos]

/-- The element group at lane `o` is replaced. -/
def onGroup (v : ℕ → BitVec 64) (o : ℕ) : ℕ → BitVec 64 :=
  Mem.put v o (u.group (Vector.tab u.egs fun i => v (o + i))).toList

/-- The lanes of an element group are replaced, and no other. -/
theorem onGroup_apply (v : ℕ → BitVec 64) (o i : ℕ) :
    u.onGroup v o i = if o ≤ i ∧ i < o + u.egs then
      (u.group (Vector.tab u.egs fun j => v (o + j))).rd (i - o) else v i := by
  unfold onGroup Mem.put
  rw [Vector.length_toList]
  by_cases h : o ≤ i ∧ i < o + u.egs
  · have hlt : i - o < u.egs := by omega
    rw [if_pos h, if_pos h, Vector.rd_eq_getElem _ hlt,
      List.getD_eq_getElem _ _ (by simpa using hlt)]
    simp
  · rw [if_neg h, if_neg h]

/-- Set the vector length.  What becomes of a request over `VLMAX` is up to the unit. -/
def setVl (m : Machine R) (avl : ℕ) : Option (Machine R) :=
  if avl ≤ u.vlmax then some { m with vl := avl } else none

variable {u} in
theorem setVl_eq {m : Machine R} {avl : ℕ} (hle : avl ≤ u.vlmax) :
    u.setVl m avl = some { m with vl := avl } := if_pos hle

variable [DecidableEq R]

/-- An instruction that is not a branch. -/
def exec : Instr R → Machine R → Option (Machine R)
  | .li rd imm, m => some (m.setX rd imm)
  | .addi rd rs imm, m => some (m.setX rd (m.x rs + imm))
  | .rdcycle rd, m =>
    some { m.setX rd (m.clock 0) with clock := fun i => m.clock (i + 1) }
  -- the immediate has five bits
  | .vsetivli uimm, m => if uimm < 32 then u.setVl m uimm else none
  | .vsetvli rs, m => u.setVl m (m.x rs).toNat
  | .vle64 vd rs, m =>
    if IsGroup vd ∧ Words (m.x rs) m.vl then
      some { m with v := Mem.put m.v (vd * u.lanes) (Mem.read m.mem (word (m.x rs)) m.vl) }
    else none
  | .vse64 vs rs, m =>
    if IsGroup vs ∧ Words (m.x rs) m.vl then
      some { m with mem := Mem.put m.mem (word (m.x rs)) (Mem.read m.v (vs * u.lanes) m.vl) }
    else none
  | .vxor vd vs2 vs1, m =>
    if IsGroup vd ∧ IsGroup vs2 ∧ IsGroup vs1 then
      some { m with
        v := Mem.put m.v (vd * u.lanes)
          (Mem.read (fun i => m.v (vs2 * u.lanes + i) ^^^ m.v (vs1 * u.lanes + i)) 0 m.vl) }
    else none
  | .vgroup vd, m =>
    (u.groups vd m.vl).map fun n =>
      { m with
        v := (List.range n).foldl (fun v g => u.onGroup v (vd * u.lanes + u.egs * g)) m.v }
  | .bnez _ _, _ => none

/-- One step of a program, on the place of the next instruction and the machine. -/
def step (prog : List (Instr R)) : ℕ × Machine R → Option (ℕ × Machine R)
  | (pc, m) =>
    match prog[pc]? with
    | none => none
    | some (.bnez rs target) => some (if m.x rs = 0 then pc + 1 else target, m)
    | some i => (u.exec i m).map fun m' => (pc + 1, m')

/-- A program goes on from one state to another one. -/
def Steps (prog : List (Instr R)) : ℕ × Machine R → ℕ × Machine R → Prop :=
  Relation.ReflTransGen fun s t => u.step prog s = some t

/-- A program runs from its first instruction to its end. -/
def Ends (prog : List (Instr R)) (m m' : Machine R) : Prop :=
  u.Steps prog (0, m) (prog.length, m')

/-- A straight piece of a program. -/
def execs : List (Instr R) → Machine R → Option (Machine R)
  | [], m => some m
  | i :: is, m => (u.exec i m).bind (execs is)

/-- After a straight piece of a program `Q` holds, and nothing traps on the way. -/
def Wp (is : List (Instr R)) (Q : Machine R → Prop) (m : Machine R) : Prop :=
  ∃ m', u.execs is m = some m' ∧ Q m'

/-! ## A rule for each instruction -/

section

variable {u} {m m' : Machine R} {i : Instr R} {is : List (Instr R)} {Q Q' : Machine R → Prop}

theorem Wp.mono (h : u.Wp is Q m) (hQ : ∀ m', Q m' → Q' m') : u.Wp is Q' m := by
  obtain ⟨m', hrun, hm'⟩ := h
  exact ⟨m', hrun, hQ m' hm'⟩

theorem wp_nil (h : Q m) : u.Wp [] Q m := ⟨m, rfl, h⟩

theorem Wp.cons (hi : u.exec i m = some m') (h : u.Wp is Q m') : u.Wp (i :: is) Q m := by
  obtain ⟨m'', hrun, hQ⟩ := h
  exact ⟨m'', by rw [execs, hi, Option.bind_some, hrun], hQ⟩

theorem wp_li {rd : R} {imm : BitVec 64} (h : u.Wp is Q (m.setX rd imm)) :
    u.Wp (.li rd imm :: is) Q m := h.cons rfl

theorem wp_addi {rd rs : R} {imm : BitVec 64} (h : u.Wp is Q (m.setX rd (m.x rs + imm))) :
    u.Wp (.addi rd rs imm :: is) Q m := h.cons rfl

theorem wp_rdcycle {rd : R}
    (h : u.Wp is Q { m.setX rd (m.clock 0) with clock := fun i => m.clock (i + 1) }) :
    u.Wp (.rdcycle rd :: is) Q m := h.cons rfl

theorem wp_vsetivli {uimm : ℕ} (himm : uimm < 32) (hle : uimm ≤ u.vlmax)
    (h : u.Wp is Q { m with vl := uimm }) : u.Wp (.vsetivli uimm :: is) Q m :=
  h.cons ((if_pos himm).trans (setVl_eq hle))

theorem wp_vsetvli {rs : R} (hle : (m.x rs).toNat ≤ u.vlmax)
    (h : u.Wp is Q { m with vl := (m.x rs).toNat }) : u.Wp (.vsetvli rs :: is) Q m :=
  h.cons (setVl_eq hle)

theorem wp_vle64 {vd : ℕ} {rs : R} (hd : IsGroup vd) (hw : Words (m.x rs) m.vl)
    (h : u.Wp is Q { m with
      v := Mem.put m.v (vd * u.lanes) (Mem.read m.mem (word (m.x rs)) m.vl) }) :
    u.Wp (.vle64 vd rs :: is) Q m := h.cons (if_pos ⟨hd, hw⟩)

theorem wp_vse64 {vs : ℕ} {rs : R} (hs : IsGroup vs) (hw : Words (m.x rs) m.vl)
    (h : u.Wp is Q { m with
      mem := Mem.put m.mem (word (m.x rs)) (Mem.read m.v (vs * u.lanes) m.vl) }) :
    u.Wp (.vse64 vs rs :: is) Q m := h.cons (if_pos ⟨hs, hw⟩)

theorem wp_vxor {vd vs2 vs1 : ℕ} (hd : IsGroup vd) (h2 : IsGroup vs2) (h1 : IsGroup vs1)
    (h : u.Wp is Q { m with
      v := Mem.put m.v (vd * u.lanes)
        (Mem.read (fun i => m.v (vs2 * u.lanes + i) ^^^ m.v (vs1 * u.lanes + i)) 0 m.vl) }) :
    u.Wp (.vxor vd vs2 vs1 :: is) Q m := h.cons (if_pos ⟨hd, h2, h1⟩)

/-- `vgroup`, where there is one element group. -/
theorem wp_vgroup {vd : ℕ} (hone : u.groups vd m.vl = some 1)
    (h : u.Wp is Q { m with v := u.onGroup m.v (vd * u.lanes) }) :
    u.Wp (.vgroup vd :: is) Q m := by
  refine h.cons ?_
  rw [exec, hone]
  rfl

end

/-! ## Programs -/

section

variable {u} {prog pre is body post : List (Instr R)} {m m' : Machine R} {Q : Machine R → Prop}

/-- An instruction that is not a branch goes on to the next one. -/
theorem step_exec {pc : ℕ} {i : Instr R} (hi : prog[pc]? = some i) (h : u.exec i m = some m') :
    u.step prog (pc, m) = some (pc + 1, m') := by
  cases i with
  | bnez rs target => cases h
  | _ => simp only [step, hi, h, Option.map_some]

/-- **Block rule.**  A straight piece of a program runs through. -/
theorem steps_execs (pre post : List (Instr R)) (h : u.execs is m = some m') :
    u.Steps (pre ++ is ++ post) (pre.length, m) (pre.length + is.length, m') := by
  induction is generalizing pre m with
  | nil =>
    cases h
    exact .refl
  | cons i is ih =>
    obtain ⟨m₁, hi, his⟩ := Option.bind_eq_some_iff.1 h
    have hstep : u.step (pre ++ i :: is ++ post) (pre.length, m) = some (pre.length + 1, m₁) :=
      step_exec (by simp) hi
    have hrest := ih (pre ++ [i]) his
    rw [List.append_assoc pre, List.singleton_append, List.length_append, List.length_singleton,
      Nat.add_assoc, Nat.add_comm 1] at hrest
    exact .head hstep hrest

/-- A program without a branch. -/
theorem ends_straight (h : u.Wp prog Q m) : ∃ m', u.Ends prog m m' ∧ Q m' := by
  obtain ⟨m', hrun, hQ⟩ := h
  have hsteps := steps_execs [] [] hrun
  rw [List.nil_append, List.append_nil, List.length_nil, Nat.zero_add] at hsteps
  exact ⟨m', hsteps, hQ⟩

/-- **Loop rule.**  The body counts a register down from `N`, and the branch behind it goes
back until that is zero.  `I k` holds after `k` turns. -/
theorem ends_loop {n : R} {N : ℕ} (I : ℕ → Machine R → Prop) (hN : 0 < N) (hlt : N < 2 ^ 64)
    (hn : ∀ k m, I k m → m.x n = BitVec.ofNat 64 (N - k))
    (hpre : u.Wp pre (I 0) m) (hbody : ∀ k < N, ∀ m, I k m → u.Wp body (I (k + 1)) m)
    (hpost : ∀ m, I N m → u.Wp post Q m) :
    ∃ m', u.Ends (loopText pre body n post) m m' ∧ Q m' := by
  unfold loopText
  set prog := pre ++ body ++ Instr.bnez n pre.length :: post with hprog
  obtain ⟨m₀, hrun₀, h₀⟩ := hpre
  have hstart : u.Steps prog (0, m) (pre.length, m₀) := by
    have h := steps_execs [] (body ++ Instr.bnez n pre.length :: post) hrun₀
    rwa [List.nil_append, ← List.append_assoc, List.length_nil, Nat.zero_add] at h
  have hget : prog[pre.length + body.length]? = some (.bnez n pre.length) := by
    rw [hprog, ← List.length_append, List.getElem?_append_right le_rfl, Nat.sub_self]
    rfl
  -- what is left to do from the start of a turn, by induction on the turns left
  have hturns : ∀ j k, k + j + 1 = N → ∀ m, I k m → ∃ m',
      u.Steps prog (pre.length, m) (pre.length + body.length + 1, m') ∧ I N m' := by
    intro j
    induction j with
    | zero =>
      intro k hk m hI
      obtain ⟨m', hrun, hI'⟩ := hbody k (by omega) m hI
      rw [hk] at hI'
      have hzero : m'.x n = 0 := by rw [hn N m' hI', Nat.sub_self]; rfl
      have hstep : u.step prog (pre.length + body.length, m') =
          some (pre.length + body.length + 1, m') := by
        simp only [step, hget, hzero, if_true]
      exact ⟨m', (steps_execs pre _ hrun).tail hstep, hI'⟩
    | succ j ih =>
      intro k hk m hI
      obtain ⟨m', hrun, hI'⟩ := hbody k (by omega) m hI
      have hne : m'.x n ≠ 0 := by
        rw [hn _ m' hI', Ne, ← BitVec.toNat_inj, BitVec.toNat_ofNat,
          Nat.mod_eq_of_lt (by omega)]
        simp
        omega
      have hstep : u.step prog (pre.length + body.length, m') = some (pre.length, m') := by
        simp only [step, hget, hne, if_false]
      obtain ⟨m'', hrest, hIN⟩ := ih (k + 1) (by omega) m' hI'
      exact ⟨m'', ((steps_execs pre _ hrun).tail hstep).trans hrest, hIN⟩
  obtain ⟨m₁, hloop, h₁⟩ := hturns (N - 1) 0 (by omega) m₀ h₀
  obtain ⟨m', hrun, hQ⟩ := hpost m₁ h₁
  have hend : u.Steps prog (pre.length + body.length + 1, m₁) (prog.length, m') := by
    have h := steps_execs (pre ++ body ++ [Instr.bnez n pre.length]) [] hrun
    rw [List.append_nil, List.append_assoc _ [_], List.singleton_append, ← hprog] at h
    have hlen : prog.length = pre.length + body.length + 1 + post.length := by
      simp [hprog]
      omega
    rw [hlen]
    simpa [Nat.add_assoc] using h
  exact ⟨m', (hstart.trans hloop).trans hend, hQ⟩

end

end VectorUnit

end Asm
