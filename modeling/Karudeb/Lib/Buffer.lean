import Karudeb.Lib.Checked
import Mathlib.Data.List.GetD

/-!
# Memory behind a pointer

`Mem` is memory of any kind of cell, and `Bytes` the memory of bytes from a
pointer on.  A program reads `n` bytes of it with `take`, moves the pointer with
`drop` and stores a string of bytes with `put`.

* `put_put` : stores one behind the other are one store.
* `put_of_lt`, `put_of_le` : a store leaves the other cells as they were.
* `take_put` : what was stored is what is read.
-/

/-! ## Cells of any kind -/

namespace Mem

variable {α : Type} [Inhabited α] {a : ℕ → α} {o i : ℕ} {l l' : List α}

/-- Store the entries of `l` from cell `o` on. -/
def put (a : ℕ → α) (o : ℕ) (l : List α) : ℕ → α :=
  fun i => if o ≤ i ∧ i < o + l.length then l.getD (i - o) default else a i

theorem put_nil (a : ℕ → α) (o : ℕ) : put a o [] = a := by
  funext i
  unfold put
  rw [if_neg (by simp)]

theorem put_of_lt (h : i < o) : put a o l i = a i := if_neg (by omega)

theorem put_of_le (h : o + l.length ≤ i) : put a o l i = a i := if_neg (by omega)

theorem put_at (a : ℕ → α) (o : ℕ) (h : i < l.length) : put a o l (o + i) = l[i] := by
  unfold put
  rw [if_pos (by omega), Nat.add_sub_cancel_left, List.getD_eq_getElem _ _ h]

/-- **Two stores, one behind the other**, are one store. -/
theorem put_put : put (put a o l) (o + l.length) l' = put a o (l ++ l') := by
  funext i
  unfold put
  rw [List.length_append]
  by_cases h1 : o ≤ i ∧ i < o + l.length
  · obtain ⟨hlo, hhi⟩ := h1
    rw [if_neg (by omega), if_pos ⟨hlo, hhi⟩, if_pos (by omega),
      List.getD_append _ _ _ _ (by omega)]
  · by_cases h2 : o + l.length ≤ i ∧ i < o + l.length + l'.length
    · rw [if_pos h2, if_pos (by omega), List.getD_append_right _ _ _ _ (by omega),
        Nat.sub_add_eq]
    · rw [if_neg h2, if_neg h1, if_neg (by omega)]

end Mem

/-! ## Bytes -/

/-- The bytes from a pointer on. -/
abbrev Bytes := ℕ → UInt8

namespace Bytes

/-- The first `n` bytes. -/
def take (b : Bytes) (n : ℕ) : List UInt8 := (List.range n).map b

/-- The pointer, moved on by `o` bytes. -/
def drop (b : Bytes) (o : ℕ) : Bytes := fun i => b (o + i)

/-- A pointer to a given string. -/
def ofList (l : List UInt8) : Bytes := fun i => l.getD i 0

/-- Store the string `l` from byte `o` on. -/
def put (b : Bytes) (o : ℕ) (l : List UInt8) : Bytes :=
  fun i => if o ≤ i ∧ i < o + l.length then l.getD (i - o) 0 else b i

variable {b : Bytes} {o i n : ℕ} {l l' : List UInt8}

@[simp] theorem length_take (b : Bytes) (n : ℕ) : (b.take n).length = n := by
  simp [take]

theorem getElem_take {j : ℕ} (h : j < (b.take n).length) : (b.take n)[j] = b j := by
  simp [take]

theorem take_congr {b' : Bytes} (h : ∀ i < n, b i = b' i) : b.take n = b'.take n :=
  List.map_congr_left fun i hi => h i (List.mem_range.1 hi)

theorem take_inj {b' : Bytes} (h : b.take n = b'.take n) (hi : i < n) : b i = b' i :=
  List.map_inj_left.1 h i (List.mem_range.2 hi)

/-- A longer string is a shorter one and what comes behind it. -/
theorem take_add (b : Bytes) (m n : ℕ) : b.take (m + n) = b.take m ++ (b.drop m).take n := by
  unfold take
  rw [List.range_add, List.map_append, List.map_map]
  rfl

theorem take_succ (b : Bytes) (n : ℕ) : b.take (n + 1) = b 0 :: (b.drop 1).take n := by
  rw [Nat.add_comm, take_add]
  rfl

/-- The two parts of a string in memory. -/
theorem take_eq_append (h : b.take (l ++ l').length = l ++ l') :
    b.take l.length = l ∧ (b.drop l.length).take l'.length = l' := by
  rw [List.length_append, take_add] at h
  exact List.append_inj h (length_take _ _)

theorem take_ofList (l : List UInt8) : (ofList l).take l.length = l := by
  apply List.ext_getElem
  · rw [length_take]
  · intro j h1 h2
    rw [getElem_take]
    exact List.getD_eq_getElem _ _ h2

theorem take_ofList_of_length (h : l.length = n) : (ofList l).take n = l := h ▸ take_ofList l

theorem ofList_take (h : i < n) : ofList (b.take n) i = b i := by
  have hlen : i < (b.take n).length := by rwa [length_take]
  rw [ofList, List.getD_eq_getElem _ _ hlen, getElem_take]

theorem ofList_take_zero (n : ℕ) : ofList (take (fun _ => 0) n) = fun _ => 0 := by
  funext i
  by_cases h : i < n
  · exact ofList_take h
  · exact List.getD_eq_default _ _ (by rw [length_take]; omega)

@[simp] theorem drop_zero (b : Bytes) : b.drop 0 = b := by
  funext i
  simp [drop]

@[simp] theorem drop_drop (b : Bytes) (m n : ℕ) : (b.drop m).drop n = b.drop (m + n) := by
  funext i
  simp [drop, Nat.add_assoc]

/-- A string of `n` strings of `w` bytes each, one by one. -/
theorem take_flatMap (b : Bytes) {w : ℕ} {f : ℕ → List UInt8} (hf : ∀ i < n, (f i).length = w) :
    b.take (n * w) = (List.range n).flatMap f ↔ ∀ i < n, (b.drop (i * w)).take w = f i := by
  induction n with
  | zero => simp [take]
  | succ n ih =>
    have ih := ih fun i hi => hf i (by omega)
    rw [Nat.succ_mul, take_add, List.range_succ, List.flatMap_append, List.flatMap_singleton]
    constructor
    · intro h i hi
      obtain ⟨h1, h2⟩ := List.append_inj' h (by simp [hf n])
      rcases Nat.lt_succ_iff_lt_or_eq.1 hi with hi | rfl
      · exact ih.1 h1 i hi
      · exact h2
    · intro h
      rw [ih.2 fun i hi => h i (by omega), h n (Nat.lt_succ_self n)]

theorem put_nil (b : Bytes) (o : ℕ) : b.put o [] = b := Mem.put_nil b o

theorem put_of_lt (h : i < o) : b.put o l i = b i := Mem.put_of_lt h

theorem put_of_le (h : o + l.length ≤ i) : b.put o l i = b i := Mem.put_of_le h

theorem put_at (b : Bytes) (o : ℕ) (h : i < l.length) : b.put o l (o + i) = l[i] := Mem.put_at b o h

theorem put_put : (b.put o l).put (o + l.length) l' = b.put o (l ++ l') := Mem.put_put

/-- A store leaves nothing of the bytes that it covers. -/
theorem put_congr {b' : Bytes} (h : ∀ i, l.length ≤ i → b i = b' i) : b.put 0 l = b'.put 0 l := by
  funext i
  unfold put
  split
  · rfl
  · exact h i (by omega)

/-- A store over a store of the same length. -/
theorem put_put_self (h : l.length = l'.length) : (b.put o l).put o l' = b.put o l' := by
  funext i
  unfold put
  rw [h]
  by_cases hi : o ≤ i ∧ i < o + l'.length
  · rw [if_pos hi, if_pos hi]
  · rw [if_neg hi, if_neg hi, if_neg hi]

/-- Storing one byte into a string that was just stored. -/
theorem put_set {j : ℕ} (h : j < l.length) (x : UInt8) :
    (b.put o l).put (o + j) [x] = b.put o (l.set j x) := by
  funext i
  unfold put
  rw [List.length_set, List.length_singleton]
  by_cases hi : i = o + j
  · subst hi
    rw [if_pos (by omega), if_pos (by omega), Nat.sub_self, Nat.add_sub_cancel_left,
      List.getD_cons_zero, List.getD_eq_getElem _ _ (by rw [List.length_set]; exact h),
      List.getElem_set_self]
  · rw [if_neg (by omega)]
    by_cases hlo : o ≤ i ∧ i < o + l.length
    · rw [if_pos hlo, if_pos hlo, List.getD_eq_getElem _ _ (by omega),
        List.getD_eq_getElem _ _ (by rw [List.length_set]; omega), List.getElem_set_ne (by omega)]
    · rw [if_neg hlo, if_neg hlo]

/-- The first of the zeros behind a string becomes its next byte. -/
theorem put_next (b : Bytes) (o : ℕ) (l : List UInt8) (d : ℕ) (l' : List UInt8) (x : UInt8) :
    (b.put o (l ++ List.replicate (d + 1) 0 ++ l')).put (o + l.length) [x] =
      b.put o (l ++ [x] ++ List.replicate d 0 ++ l') := by
  rw [put_set (by simp)]
  refine congrArg _ ?_
  simp [List.replicate_succ]

theorem take_put (b : Bytes) (l : List UInt8) : (b.put 0 l).take l.length = l := by
  apply List.ext_getElem
  · rw [length_take]
  · intro j h1 h2
    have h := put_at b 0 h2
    rw [Nat.zero_add] at h
    rw [getElem_take, h]

/-- Storing strings one behind the other stores their concatenation. -/
theorem foldl_put (b : Bytes) (o : ℕ) {w : ℕ} {f : ℕ → List UInt8} (hf : ∀ i < n, (f i).length = w) :
    (List.range n).foldl (fun b i => b.put (o + i * w) (f i)) b =
      b.put o ((List.range n).flatMap f) := by
  induction n with
  | zero => exact (put_nil b o).symm
  | succ n ih =>
    have hlen : ((List.range n).flatMap f).length = n * w := by
      rw [List.length_flatMap, List.map_congr_left fun i hi =>
        hf i (Nat.lt_succ_of_lt (List.mem_range.1 hi))]
      simp
    rw [List.range_succ, List.foldl_append, ih fun i hi => hf i (by omega), List.flatMap_append,
      ← put_put, hlen]
    simp

/-- Copying `n` bytes from elsewhere. -/
theorem foldl_copy (b c : Bytes) (n : ℕ) :
    (List.range n).foldl (fun b i => b.put i [c i]) b = b.put 0 (c.take n) := by
  have h := foldl_put b 0 (show ∀ i < n, [c i].length = 1 from fun _ _ => rfl)
  simp only [Nat.zero_add, Nat.mul_one] at h
  rw [h, take, List.map_eq_flatMap]

/-- Copying `n` bytes onto themselves. -/
theorem foldl_copy_self (b : Bytes) (n : ℕ) :
    (List.range n).foldl (fun b i => b.put i [b i]) b = b := by
  have hself : ∀ (b : Bytes) i, b.put i [b i] = b := by
    intro b i
    funext j
    by_cases h : j = i
    · subst h
      exact put_at b j (show 0 < [b j].length by simp)
    · exact if_neg (by rw [List.length_singleton]; omega)
  induction n with
  | zero => rfl
  | succ n ih => rw [List.range_succ, List.foldl_append, ih, List.foldl_cons, hself, List.foldl_nil]

theorem put_take (b : Bytes) (n : ℕ) : b.put 0 (b.take n) = b := by
  funext i
  by_cases h : i < n
  · have hput := put_at b 0 (show i < (b.take n).length by simpa using h)
    rw [Nat.zero_add] at hput
    rw [hput, getElem_take]
  · exact put_of_le (by rw [length_take]; omega)

end Bytes
