import Karudeb.Lib.Word

/-!
# Checked computations, and arrays filled by them

A program over fixed-width integers has two readings: the value it leaves, and
whether every operation on the way was inside its range.  `Chk` carries both at
once, so that one definition of a program serves a statement about its results
and a statement about its overflows.

* `Chk.word w x` stores the exact integer `x` into a signed `w`-bit word: the
  value is `wrap w x` and the flag records `Fits w x`.  `Chk.require` records
  any other decidable precondition.
* `Chk.Holds x P` is the triple "no check of `x` fails and its result satisfies
  `P`", with the rules `Holds.pure`, `Holds.bind`, `Holds.foldlM` (the rule of
  invariants for a loop over a list) and `Holds.tab` (a loop that fills an
  array, one element a turn).
* `Vector.rd`, `Vector.wr` and `Vector.tab` read, write and fill an array by
  plain indices; outside the array a read gives the default and a write does
  nothing.
-/

/-! ## Arrays -/

namespace Vector

variable {α β : Type} {n : ℕ}

/-- Read entry `i`. -/
def rd [Inhabited α] (v : Vector α n) (i : ℕ) : α := v.getD i default

/-- Write entry `i`. -/
def wr (v : Vector α n) (i : ℕ) (x : α) : Vector α n := v.setIfInBounds i x

/-- The array whose entry `i` is `f i`. -/
def tab (n : ℕ) (f : ℕ → α) : Vector α n := ⟨((List.range n).map f).toArray, by simp⟩

theorem tab_congr {f g : ℕ → α} (h : ∀ i < n, f i = g i) : tab n f = tab n g := by
  have hl : (List.range n).map f = (List.range n).map g :=
    List.map_congr_left fun i hi => h i (List.mem_range.1 hi)
  simp only [tab, hl]

variable [Inhabited α]

theorem rd_eq_getElem (v : Vector α n) {i : ℕ} (h : i < n) : v.rd i = v[i] := by
  simp [rd, Vector.getD, h]

theorem rd_of_le (v : Vector α n) {i : ℕ} (h : n ≤ i) : v.rd i = default := by
  simp [rd, Vector.getD, Nat.not_lt.2 h]

@[simp] theorem rd_tab (f : ℕ → α) {i : ℕ} (h : i < n) : (tab n f).rd i = f i := by
  simp [rd_eq_getElem _ h, tab]

theorem rd_wr (v : Vector α n) (i j : ℕ) (x : α) :
    (v.wr i x).rd j = if i = j ∧ j < n then x else v.rd j := by
  by_cases hj : j < n
  · rw [rd_eq_getElem _ hj, rd_eq_getElem _ hj, wr, Vector.getElem_setIfInBounds hj]
    simp [hj]
  · rw [rd_of_le _ (Nat.not_lt.1 hj), rd_of_le _ (Nat.not_lt.1 hj)]
    simp [hj]

@[simp] theorem rd_wr_self (v : Vector α n) {i : ℕ} (h : i < n) (x : α) : (v.wr i x).rd i = x := by
  simp [rd_wr, h]

theorem rd_wr_ne (v : Vector α n) {i j : ℕ} (h : i ≠ j) (x : α) : (v.wr i x).rd j = v.rd j := by
  simp [rd_wr, h]

theorem ext_rd {v w : Vector α n} (h : ∀ i < n, v.rd i = w.rd i) : v = w := by
  ext i hi
  have := h i hi
  rwa [rd_eq_getElem _ hi, rd_eq_getElem _ hi] at this

@[simp] theorem tab_rd (v : Vector α n) : tab n v.rd = v :=
  ext_rd fun i hi => by simp [hi]

/-- The `w` entries from `o` on. -/
def slice (a : Vector α n) (o w : ℕ) : Vector α w := tab w fun i => a.rd (o + i)

/-- Write `w` entries from `o` on. -/
def splice {w : ℕ} (a : Vector α n) (o : ℕ) (v : Vector α w) : Vector α n :=
  tab n fun k => if o ≤ k ∧ k < o + w then v.rd (k - o) else a.rd k

@[simp] theorem rd_slice (a : Vector α n) (o : ℕ) {w i : ℕ} (h : i < w) :
    (a.slice o w).rd i = a.rd (o + i) := rd_tab _ h

theorem rd_splice {w : ℕ} (a : Vector α n) (o : ℕ) (v : Vector α w) {k : ℕ} (h : k < n) :
    (a.splice o v).rd k = if o ≤ k ∧ k < o + w then v.rd (k - o) else a.rd k := rd_tab _ h

theorem slice_slice (a : Vector α n) {o w o' w' : ℕ} (h : o' + w' ≤ w) :
    (a.slice o w).slice o' w' = a.slice (o + o') w' := by
  refine tab_congr fun i hi => ?_
  rw [rd_slice _ _ (by omega), Nat.add_assoc]

/-- Fill an array from computations that may give no result. -/
def tabOpt (n : ℕ) (f : ℕ → Option α) : Option (Vector α n) :=
  if (List.range n).all fun i => (f i).isSome then some (tab n fun i => (f i).getD default)
  else none

theorem tabOpt_eq_some {f : ℕ → Option α} {v : Vector α n} :
    tabOpt n f = some v ↔ ∀ i < n, f i = some (v.rd i) := by
  constructor
  · intro h i hi
    rw [tabOpt] at h
    split at h
    · rename_i hall
      simp only [List.all_eq_true, List.mem_range] at hall
      obtain ⟨x, hx⟩ := Option.isSome_iff_exists.1 (hall i hi)
      cases h
      simp [hi, hx]
    · exact absurd h (by simp)
  · intro h
    have hall : ((List.range n).all fun i => (f i).isSome) = true := by
      simp only [List.all_eq_true, List.mem_range]
      intro i hi
      simp [h i hi]
    rw [tabOpt, if_pos hall]
    congr 1
    exact ext_rd fun i hi => by simp [hi, h i hi]

end Vector

/-! ## Constant tables -/

/-- A table of constants, in rows of sixteen. -/
abbrev Table := List (List ℤ)

namespace Table

/-- Entry `i` of the table. -/
def rd (t : Table) (i : ℕ) : ℤ := (t.getD (i / 16) []).getD (i % 16) 0

/-- The `w` entries from `o` on. -/
def slice (t : Table) (o w : ℕ) : Vector ℤ w := Vector.tab w fun i => t.rd (o + i)

@[simp] theorem rd_slice (t : Table) (o : ℕ) {w i : ℕ} (h : i < w) :
    (t.slice o w).rd i = t.rd (o + i) := Vector.rd_tab _ h

end Table

/-! ## Checked values -/

/-- A value together with the record of whether every check made while it was
computed came out true. -/
structure Chk (α : Type) where
  /-- What the program leaves. -/
  val : α
  /-- Whether every check passed. -/
  ok : Bool

namespace Chk

variable {α β σ : Type}

theorem ext {x y : Chk α} (hv : x.val = y.val) (ho : x.ok = y.ok) : x = y := by
  cases x
  cases y
  simp_all

instance : Monad Chk where
  pure a := ⟨a, true⟩
  bind x f := ⟨(f x.val).val, x.ok && (f x.val).ok⟩

@[simp] theorem val_pure (a : α) : (pure a : Chk α).val = a := rfl

@[simp] theorem ok_pure (a : α) : (pure a : Chk α).ok = true := rfl

@[simp] theorem val_bind (x : Chk α) (f : α → Chk β) : (x >>= f).val = (f x.val).val := rfl

@[simp] theorem ok_bind (x : Chk α) (f : α → Chk β) : (x >>= f).ok = (x.ok && (f x.val).ok) := rfl

@[simp] theorem val_map (x : Chk α) (f : α → β) : (f <$> x).val = f x.val := rfl

@[simp] theorem ok_map (x : Chk α) (f : α → β) : (f <$> x).ok = x.ok := Bool.and_true _

@[simp] theorem pure_bind' (a : α) (f : α → Chk β) : (pure a >>= f : Chk β) = f a :=
  Chk.ext rfl (by simp)

instance : LawfulMonad Chk :=
  LawfulMonad.mk' Chk (fun x => Chk.ext rfl (Bool.and_true _)) (fun a f => pure_bind' a f)
    fun x f g => Chk.ext rfl (by simp [Bool.and_assoc])

/-- Record a precondition. -/
def require (b : Bool) : Chk Unit := ⟨(), b⟩

/-- Store an exact integer into a signed `w`-bit word. -/
def word (w : ℕ) (x : ℤ) : Chk ℤ := ⟨Word.wrap w x, decide (Word.Fits w x)⟩

@[simp] theorem ok_require (b : Bool) : (require b).ok = b := rfl

@[simp] theorem val_word (w : ℕ) (x : ℤ) : (word w x).val = Word.wrap w x := rfl

@[simp] theorem ok_word (w : ℕ) (x : ℤ) : (word w x).ok = decide (Word.Fits w x) := rfl

theorem require_true {b : Bool} (h : b = true) : require b = pure () := by
  subst h
  rfl

theorem word_of_fits {w : ℕ} (hw : 0 < w) {x : ℤ} (h : Word.Fits w x) : word w x = pure x :=
  Chk.ext (Word.wrap_of_fits hw h) (by simpa using h)

theorem word16 {x : ℤ} (h1 : -32768 ≤ x) (h2 : x < 32768) : word 16 x = pure x :=
  word_of_fits (by norm_num) (Word.fits_16.2 ⟨h1, h2⟩)

theorem word32 {x : ℤ} (h1 : -2147483648 ≤ x) (h2 : x < 2147483648) : word 32 x = pure x :=
  word_of_fits (by norm_num) (Word.fits_32.2 ⟨h1, h2⟩)

theorem word64 {x : ℤ} (h1 : -9223372036854775808 ≤ x) (h2 : x < 9223372036854775808) :
    word 64 x = pure x :=
  word_of_fits (by norm_num) (Word.fits_64.2 ⟨h1, h2⟩)

/-- A loop that fills an array, one element a turn. -/
def tab (n : ℕ) (f : ℕ → Chk α) : Chk (Vector α n) :=
  ⟨Vector.tab n fun i => (f i).val, (List.range n).all fun i => (f i).ok⟩

@[simp] theorem val_tab (n : ℕ) (f : ℕ → Chk α) :
    (tab n f).val = Vector.tab n fun i => (f i).val := rfl

theorem ok_tab {n : ℕ} {f : ℕ → Chk α} : (tab n f).ok = true ↔ ∀ i < n, (f i).ok = true := by
  simp [tab]

/-- A loop that looks for the first turn that says yes. -/
def any (n : ℕ) (f : ℕ → Chk Bool) : Chk Bool :=
  (List.range n).foldlM (fun found i => if found then pure true else f i) false

/-- Two loops that fill an array one after the other, entry by entry, are one. -/
theorem tab_bind_tab [Inhabited α] (n : ℕ) (f : ℕ → Chk α) (g : ℕ → α → Chk β) :
    (tab n f >>= fun v => tab n fun i => g i (v.rd i)) = tab n fun i => f i >>= g i := by
  refine Chk.ext ?_ (Bool.eq_iff_iff.2 ?_)
  · rw [val_bind, val_tab, val_tab, val_tab]
    exact Vector.tab_congr fun i hi => by rw [Vector.rd_tab _ hi, val_bind]
  · rw [ok_bind, Bool.and_eq_true, ok_tab, ok_tab, ok_tab, ← forall₂_and]
    refine forall₂_congr fun i hi => ?_
    rw [val_tab, Vector.rd_tab _ hi, ok_bind, Bool.and_eq_true]

theorem tab_pure (n : ℕ) (f : ℕ → α) : (tab n fun i => pure (f i)) = pure (Vector.tab n f) :=
  Chk.ext rfl (by simp [tab])

theorem tab_congr {n : ℕ} {f g : ℕ → Chk α} (h : ∀ i < n, f i = g i) : tab n f = tab n g := by
  refine Chk.ext ?_ (Bool.eq_iff_iff.2 ?_)
  · rw [val_tab, val_tab]
    exact Vector.tab_congr fun i hi => by rw [h i hi]
  · rw [ok_tab, ok_tab]
    exact forall₂_congr fun i hi => by rw [h i hi]

theorem mapM_pure {f : α → Chk β} {g : α → β} {l : List α} (h : ∀ a ∈ l, f a = pure (g a)) :
    l.mapM f = pure (l.map g) := by
  induction l with
  | nil => rfl
  | cons a l ih =>
    rw [List.mapM_cons, h a List.mem_cons_self, ih fun b hb => h b (List.mem_cons_of_mem a hb)]
    rfl

theorem foldlM_range_succ (f : σ → ℕ → Chk σ) (m : ℕ) (s : σ) :
    (List.range (m + 1)).foldlM f s = (List.range m).foldlM f s >>= fun s => f s m := by
  rw [List.range_succ, List.foldlM_append]
  refine congrArg _ (funext fun s => ?_)
  rw [List.foldlM_cons]
  exact bind_pure _

theorem foldlM_range_congr {f g : σ → ℕ → Chk σ} {m : ℕ} (h : ∀ i < m, ∀ s, f s i = g s i)
    (s : σ) : (List.range m).foldlM f s = (List.range m).foldlM g s := by
  induction m generalizing s with
  | zero => rfl
  | succ m ih =>
    rw [foldlM_range_succ, foldlM_range_succ, ih fun i hi => h i (by omega)]
    exact congrArg _ (funext fun s => h m (by omega) s)

theorem val_foldlM (f : σ → β → Chk σ) (l : List β) (s : σ) :
    (l.foldlM f s).val = l.foldl (fun s b => (f s b).val) s := by
  induction l generalizing s with
  | nil => rfl
  | cons b l ih => rw [List.foldlM_cons, val_bind, List.foldl_cons, ih]

/-! ## Triples -/

/-- No check fails, and the result satisfies `P`. -/
def Holds (x : Chk α) (P : α → Prop) : Prop := x.ok = true ∧ P x.val

namespace Holds

theorem pure {a : α} {P : α → Prop} (h : P a) : Holds (Pure.pure a) P := ⟨rfl, h⟩

theorem eq_pure {x : Chk α} {a : α} (h : Holds x (· = a)) : x = Pure.pure a := Chk.ext h.2 h.1

theorem mono {x : Chk α} {P Q : α → Prop} (h : Holds x P) (hPQ : ∀ a, P a → Q a) : Holds x Q :=
  ⟨h.1, hPQ _ h.2⟩

theorem and {x : Chk α} {P Q : α → Prop} (hP : Holds x P) (hQ : Holds x Q) :
    Holds x fun a => P a ∧ Q a :=
  ⟨hP.1, hP.2, hQ.2⟩

theorem bind {x : Chk α} {f : α → Chk β} {P : α → Prop} {Q : β → Prop} (hx : Holds x P)
    (hf : ∀ a, P a → Holds (f a) Q) : Holds (x >>= f) Q :=
  ⟨by simp [hx.1, (hf _ hx.2).1], (hf _ hx.2).2⟩

theorem word {w : ℕ} (hw : 0 < w) {x : ℤ} (h : Word.Fits w x) : Holds (word w x) (· = x) := by
  rw [word_of_fits hw h]
  exact Holds.pure rfl

theorem require {b : Bool} (h : b = true) : Holds (require b) fun _ => True := ⟨h, trivial⟩

/-- The rule of invariants: what holds before the loop and is kept by each of
its turns holds after it. -/
theorem foldlM {f : σ → β → Chk σ} {l : List β} {s : σ} (I : ℕ → σ → Prop) (h0 : I 0 s)
    (hstep : ∀ i (hi : i < l.length) s, I i s → Holds (f s l[i]) (I (i + 1))) :
    Holds (l.foldlM f s) (I l.length) := by
  induction l generalizing s I with
  | nil => exact Holds.pure h0
  | cons b l ih =>
    rw [List.foldlM_cons]
    refine (hstep 0 (by simp) s h0).bind fun s' hs' => ?_
    exact ih (fun i => I (i + 1)) hs' fun i hi s hs => hstep (i + 1) (by simpa using hi) s hs

theorem tab [Inhabited α] {n : ℕ} {f : ℕ → Chk α} {P : ℕ → α → Prop}
    (h : ∀ i < n, Holds (f i) (P i)) : Holds (Chk.tab n f) fun v => ∀ i < n, P i (v.rd i) := by
  refine ⟨ok_tab.2 fun i hi => (h i hi).1, fun i hi => ?_⟩
  rw [val_tab, Vector.rd_tab _ hi]
  exact (h i hi).2

theorem any {n : ℕ} {f : ℕ → Chk Bool} {p : ℕ → Prop}
    (h : ∀ i < n, Holds (f i) fun b => b = true ↔ p i) :
    Holds (Chk.any n f) fun b => b = true ↔ ∃ i < n, p i := by
  have hrun : Holds (Chk.any n f) fun b => b = true ↔ ∃ i < (List.range n).length, p i := by
    refine foldlM (fun m b => b = true ↔ ∃ i < m, p i) (by simp) ?_
    intro m hm b hb
    rw [List.getElem_range]
    rw [List.length_range] at hm
    split
    · rename_i hfound
      obtain ⟨i, hi, hp⟩ := hb.1 hfound
      exact pure ⟨fun _ => ⟨i, by omega, hp⟩, fun _ => rfl⟩
    · rename_i hfound
      have hnone : ¬∃ i < m, p i := fun hex => hfound (hb.2 hex)
      refine (h m hm).mono fun c hc => ?_
      rw [hc]
      constructor
      · exact fun hp => ⟨m, by omega, hp⟩
      · rintro ⟨i, hi, hp⟩
        rcases Nat.lt_succ_iff_lt_or_eq.1 hi with hi | rfl
        · exact absurd ⟨i, hi, hp⟩ hnone
        · exact hp
  rwa [List.length_range] at hrun

end Holds

end Chk
