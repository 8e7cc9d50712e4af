import Mathlib

/-!
# The memory test of a board

`mem_test` writes and verifies three patterns over a buffer.  The memory behind the buffer
may be faulty: bits of words may share a cell, and cells may be stuck.

* `fill`, `check`, `passes`, `memTest` : the test.
* `memTest_exact` : it succeeds exactly on a memory where no bit is stuck, and bits that share
  a cell are the same in all three patterns.
-/

namespace Board

/-- The memory behind a buffer: the cell of each bit of each word, and what the cells that are
stuck always read as. -/
structure Memory (κ : Type) where
  cell : ℕ → Fin 64 → κ
  stuck : κ → Option Bool

variable {κ : Type} [DecidableEq κ]

/-- `buf[i] = v`, on what the cells hold, bit by bit. -/
def Memory.store (mem : Memory κ) (s : κ → Bool) (i : ℕ) (v : BitVec 64) : κ → Bool :=
  (List.finRange 64).foldl (fun s b => Function.update s (mem.cell i b) (v.getLsb b)) s

/-- What a cell reads as. -/
def Memory.read (mem : Memory κ) (s : κ → Bool) (k : κ) : Bool := (mem.stuck k).getD (s k)

/-- `buf[i]`. -/
def Memory.load (mem : Memory κ) (s : κ → Bool) (i : ℕ) : BitVec 64 :=
  BitVec.ofFnLE fun b => mem.read s (mem.cell i b)

/-- `&buf[i]`. -/
def address (base : BitVec 64) (i : ℕ) : BitVec 64 := base + BitVec.ofNat 64 (8 * i)

/-- What a pass writes to a word, and wants to read from it. -/
def pattern (base : BitVec 64) (pass i : ℕ) : BitVec 64 :=
  if pass = 1 then ~~~address base i
  else if pass = 2 then 0xA5A5A5A5A5A5A5A5
  else address base i

/-- The loop of a pass that writes. -/
def fill (mem : Memory κ) (base : BitVec 64) (pass words : ℕ) (s : κ → Bool) :
    κ → Bool :=
  (List.range words).foldl (fun s i => mem.store s i (pattern base pass i)) s

/-- The loop of a pass that verifies, up to the first mismatch. -/
def check (mem : Memory κ) (base : BitVec 64) (pass words : ℕ) (s : κ → Bool) : Option ℕ :=
  (List.range words).find? fun i => mem.load s i != pattern base pass i

/-- The line that reports a mismatch: pass, address, what was read and what was wanted. -/
structure Mismatch where
  pass : ℕ
  address : BitVec 64
  read : BitVec 64
  want : BitVec 64

/-- The passes that are left. -/
def passes (mem : Memory κ) (base : BitVec 64) (words : ℕ) :
    List ℕ → (κ → Bool) → Option Mismatch
  | [], _ => none
  | pass :: left, s =>
    let s := fill mem base pass words s
    match check mem base pass words s with
    | some i => some ⟨pass, address base i, mem.load s i, pattern base pass i⟩
    | none => passes mem base words left s

/-- How `mem_test` ends. -/
inductive MemResult
  | mmapFailed
  | mismatch (m : Mismatch)
  | ok

def MemResult.code : MemResult → ℕ
  | .ok => 0
  | _ => 1

/-- `mem_test`, where `mmap` gives the start of a buffer of so many bytes, or fails. -/
def memTest (mmap : ℕ → Option (BitVec 64)) (mem : Memory κ) (s : κ → Bool) (mib : ℕ) :
    MemResult :=
  let n := (mib <<< 20) % 2 ^ 64
  match mmap n with
  | none => .mmapFailed
  | some base =>
    match passes mem base (n / 8) [0, 1, 2] s with
    | some m => .mismatch m
    | none => .ok

/-! ## One pass -/

variable {mem : Memory κ} {base : BitVec 64} {pass words : ℕ} {s : κ → Bool}

theorem fill_succ : fill mem base pass (words + 1) s =
    mem.store (fill mem base pass words s) words (pattern base pass words) := by
  unfold fill
  rw [List.range_succ, List.foldl_append]
  rfl

/-- A cell that only bits of one value are written to holds it. -/
theorem store_cell {i : ℕ} {x : BitVec 64} {k : κ} {v : Bool}
    (hv : ∀ b, mem.cell i b = k → x.getLsb b = v) (hs : s k = v ∨ ∃ b, mem.cell i b = k) :
    mem.store s i x k = v := by
  have hlist : ∀ (l : List (Fin 64)) (s : κ → Bool), (s k = v ∨ ∃ b ∈ l, mem.cell i b = k) →
      l.foldl (fun s b => Function.update s (mem.cell i b) (x.getLsb b)) s k = v := by
    intro l
    induction l with
    | nil =>
      rintro s (hs | ⟨b, hb, -⟩)
      · exact hs
      · cases hb
    | cons c l ih =>
      intro s hs
      refine ih _ ?_
      dsimp only
      by_cases hc : mem.cell i c = k
      · rw [← hc, Function.update_self]
        exact .inl (hv c hc)
      · rw [Function.update_of_ne (Ne.symm hc)]
        rcases hs with hs | ⟨b, hb, hbk⟩
        · exact .inl hs
        · rcases List.mem_cons.1 hb with rfl | hb
          · exact absurd hbk hc
          · exact .inr ⟨b, hb, hbk⟩
  refine hlist _ s (hs.imp_right ?_)
  rintro ⟨b, hb⟩
  exact ⟨b, List.mem_finRange b, hb⟩

/-- So does a cell of the buffer after a pass. -/
theorem fill_cell {k : κ} {v : Bool} (hv : ∀ j < words, ∀ c, mem.cell j c = k →
    (pattern base pass j).getLsb c = v) (hk : s k = v ∨ ∃ i < words, ∃ b, mem.cell i b = k) :
    fill mem base pass words s k = v := by
  induction words with
  | zero =>
    rcases hk with hk | ⟨i, hi, -⟩
    · exact hk
    · exact absurd hi (Nat.not_lt_zero i)
  | succ words ih =>
    have hleft := fun j hj => hv j (Nat.lt_succ_of_lt hj)
    rw [fill_succ]
    refine store_cell (hv words (Nat.lt_succ_self words)) ?_
    rcases hk with hk | ⟨i, hi, b, hb⟩
    · exact .inl (ih hleft (.inl hk))
    · rcases Nat.lt_succ_iff_lt_or_eq.1 hi with hlt | rfl
      · exact .inl (ih hleft (.inr ⟨i, hlt, b, hb⟩))
      · exact .inr ⟨b, hb⟩

omit [DecidableEq κ] in
theorem getLsb_load (i : ℕ) (b : Fin 64) :
    (mem.load s i).getLsb b = mem.read s (mem.cell i b) := BitVec.getLsb_ofFnLE _ b

omit [DecidableEq κ] in
theorem check_none_iff : check mem base pass words s = none ↔
    ∀ i < words, mem.load s i = pattern base pass i := by
  simp [check]

theorem passes_none_iff {left : List ℕ} : passes mem base words (pass :: left) s = none ↔
    (∀ i < words, mem.load (fill mem base pass words s) i = pattern base pass i) ∧
      passes mem base words left (fill mem base pass words s) = none := by
  rw [← check_none_iff, passes]
  cases check mem base pass words (fill mem base pass words s) <;> simp

/-! ## The faults -/

/-- No bit of the buffer is stuck. -/
def Free (mem : Memory κ) (words : ℕ) : Prop :=
  ∀ i < words, ∀ b, mem.stuck (mem.cell i b) = none

/-- Bits of the buffer that share a cell are the same in the addresses of their words, and in
the byte `0xA5`. -/
def Alike (mem : Memory κ) (base : BitVec 64) (words : ℕ) : Prop :=
  ∀ i < words, ∀ j < words, ∀ b c, mem.cell i b = mem.cell j c →
    (address base i).getLsb b = (address base j).getLsb c ∧
      BitVec.getLsb 0xA5A5A5A5A5A5A5A5 b = BitVec.getLsb 0xA5A5A5A5A5A5A5A5 c

theorem getLsb_not (x : BitVec 64) (b : Fin 64) : (~~~x).getLsb b = !x.getLsb b :=
  BitVec.getElem_not b.isLt

omit [DecidableEq κ] in
/-- The pattern of any pass is the same then. -/
theorem Alike.pattern_eq (h : Alike mem base words) {i j : ℕ} (hi : i < words) (hj : j < words)
    {b c : Fin 64} (hcell : mem.cell i b = mem.cell j c) (pass : ℕ) :
    (pattern base pass i).getLsb b = (pattern base pass j).getLsb c := by
  obtain ⟨haddr, hfill⟩ := h i hi j hj b c hcell
  unfold pattern
  split
  · rw [getLsb_not, getLsb_not, haddr]
  · split
    · exact hfill
    · exact haddr

theorem address_inj {i j : ℕ} (hbase : base.toNat + 8 * words ≤ 2 ^ 64) (hi : i < words)
    (hj : j < words) (h : address base i = address base j) : i = j := by
  have hnat := congrArg BitVec.toNat h
  simp only [address, BitVec.toNat_add, BitVec.toNat_ofNat] at hnat
  omega

omit [DecidableEq κ] in
/-- Two words that share all their cells bit for bit are one. -/
theorem Alike.word_inj (h : Alike mem base words) (hbase : base.toNat + 8 * words ≤ 2 ^ 64)
    {i j : ℕ} (hi : i < words) (hj : j < words) (hcell : ∀ b, mem.cell i b = mem.cell j b) :
    i = j := by
  refine address_inj hbase hi hj (BitVec.eq_of_getElem_eq fun b hb => ?_)
  exact (h i hi j hj ⟨b, hb⟩ ⟨b, hb⟩ (hcell ⟨b, hb⟩)).1

/-- On a memory without a fault every word reads as it was written. -/
theorem load_fill (hfree : Free mem words) (halike : Alike mem base words) {i : ℕ}
    (hi : i < words) : mem.load (fill mem base pass words s) i = pattern base pass i := by
  refine BitVec.eq_of_getElem_eq fun b hb => (getLsb_load i ⟨b, hb⟩).trans ?_
  rw [Memory.read, hfree i hi]
  refine fill_cell (fun j hj c hc => ?_) (.inr ⟨i, hi, ⟨b, hb⟩, rfl⟩)
  exact halike.pattern_eq hj hi hc pass

omit [DecidableEq κ] in
/-- Bits that share a cell read the same. -/
theorem shared {i j : ℕ} {b c : Fin 64} {x y : BitVec 64} (hi : mem.load s i = x)
    (hj : mem.load s j = y) (hcell : mem.cell i b = mem.cell j c) : x.getLsb b = y.getLsb c := by
  rw [← hi, ← hj, getLsb_load, getLsb_load, hcell]

theorem passes_exact :
    passes mem base words [0, 1, 2] s = none ↔ Free mem words ∧ Alike mem base words := by
  constructor
  · intro h
    obtain ⟨h0, h⟩ := passes_none_iff.1 h
    obtain ⟨h1, h⟩ := passes_none_iff.1 h
    obtain ⟨h2, -⟩ := passes_none_iff.1 h
    refine ⟨fun i hi b => ?_, fun i hi j hj b c hcell => ⟨?_, ?_⟩⟩
    · -- a cell that is stuck reads the same in both passes
      cases hstuck : mem.stuck (mem.cell i b) with
      | none => rfl
      | some v =>
        have hv0 := congrArg (BitVec.getLsb · b) (h0 i hi)
        have hv1 := congrArg (BitVec.getLsb · b) (h1 i hi)
        have hnot : (pattern base 1 i).getLsb b = !(pattern base 0 i).getLsb b := getLsb_not _ b
        simp only [getLsb_load, Memory.read, hstuck, Option.getD_some] at hv0 hv1
        rw [← hv0, ← hv1] at hnot
        cases v <;> cases hnot
    · exact shared (h0 i hi) (h0 j hj) hcell
    · exact shared (h2 i hi) (h2 j hj) hcell
  · rintro ⟨hfree, halike⟩
    refine passes_none_iff.2 ⟨fun i hi => load_fill hfree halike hi, ?_⟩
    refine passes_none_iff.2 ⟨fun i hi => load_fill hfree halike hi, ?_⟩
    exact passes_none_iff.2 ⟨fun i hi => load_fill hfree halike hi, rfl⟩

/-- **The test is exact**, whatever the memory held before.  It exits with 0 exactly if no bit
of the buffer is stuck, and bits of the buffer that share a cell are the same in the
addresses of their words and in `0xA5`.  Then no two words share all their cells bit for bit,
if `mmap` places the buffer within the address space. -/
theorem memTest_exact (mmap : ℕ → Option (BitVec 64)) (mem : Memory κ) (s : κ → Bool)
    (mib : ℕ) (base : BitVec 64) (hmap : mmap ((mib <<< 20) % 2 ^ 64) = some base) :
    ((memTest mmap mem s mib).code = 0 ↔
      Free mem ((mib <<< 20) % 2 ^ 64 / 8) ∧ Alike mem base ((mib <<< 20) % 2 ^ 64 / 8)) ∧
    ((memTest mmap mem s mib).code = 0 → base.toNat + (mib <<< 20) % 2 ^ 64 ≤ 2 ^ 64 →
      ∀ i < (mib <<< 20) % 2 ^ 64 / 8, ∀ j < (mib <<< 20) % 2 ^ 64 / 8,
        (∀ b, mem.cell i b = mem.cell j b) → i = j) := by
  have hexact : (memTest mmap mem s mib).code = 0 ↔
      Free mem ((mib <<< 20) % 2 ^ 64 / 8) ∧ Alike mem base ((mib <<< 20) % 2 ^ 64 / 8) := by
    rw [← passes_exact (s := s), memTest, hmap]
    dsimp only
    cases passes mem base ((mib <<< 20) % 2 ^ 64 / 8) [0, 1, 2] s with
    | none => exact iff_of_true rfl rfl
    | some m => exact iff_of_false Nat.one_ne_zero nofun
  refine ⟨hexact, fun h hbase i hi j hj hcell => ?_⟩
  exact (hexact.1 h).2.word_inj (by omega) hi hj hcell

/-- One mebibyte whose second word shares the low byte of the first. -/
theorem memTest_exact_alias :
    (memTest (fun _ => some 0x1000)
      ⟨fun i b => (if i = 1 ∧ b < 8 then 0 else i, b), fun _ => none⟩
      (fun _ : ℕ × Fin 64 => false) 1).code ≠ 0 := by
  intro h
  have hexact := (memTest_exact (fun _ => some 0x1000)
    ⟨fun i b => (if i = 1 ∧ b < 8 then 0 else i, b), fun _ => none⟩
    (fun _ : ℕ × Fin 64 => false) 1 0x1000 rfl).1
  exact absurd ((hexact.1 h).2 0 (by decide) 1 (by decide) 3 3 rfl).1 (by decide)

end Board
