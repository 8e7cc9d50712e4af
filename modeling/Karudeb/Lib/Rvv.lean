import Karudeb.Lib.Buffer
import Karudeb.Lib.Lanes

/-!
# Vector intrinsics

The RISC-V vector instructions on a register of `vl` lanes, read lane by lane.
A register of `w`-bit elements is a `Vector` of the integers its lanes hold;
index registers are unsigned.  Additions and subtractions of signed elements
record whether a lane wrapped; the multiplications whose low word is wanted wrap
by design and record nothing.  Every operation runs on all `vl` lanes, so no
tail or mask policy is involved except where an operation takes a mask.

Loads and stores of whole registers are `Vector.slice` and `Vector.splice`.
-/

/-- How a program is built: for the scalar unit, or with vector intrinsics. -/
inductive Build where
  /-- Without intrinsics. -/
  | scalar
  /-- With intrinsics. -/
  | rvv

namespace Rvv

variable {vl : ℕ}

/-! ## Index registers -/

/-- Lane numbers. -/
def vidV (vl : ℕ) : Vector ℕ vl := Vector.tab vl fun i => i

/-- Logical shift right by a scalar. -/
def vsrlVX (a : Vector ℕ vl) (s : ℕ) : Vector ℕ vl := Vector.tab vl fun i => a.rd i >>> s

/-- Shift left by a scalar, in elements of `w` bits. -/
def vsllVX (w : ℕ) (a : Vector ℕ vl) (s : ℕ) : Vector ℕ vl :=
  Vector.tab vl fun i => (a.rd i <<< s) % 2 ^ w

/-- Logical shift right, lane by lane, in elements of `w` bits; the low bits of a shift
amount count. -/
def vsrlVV (w : ℕ) (a s : Vector ℕ vl) : Vector ℕ vl :=
  Vector.tab vl fun i => a.rd i >>> (s.rd i % w)

/-- Shift left, lane by lane, in elements of `w` bits. -/
def vsllVV (w : ℕ) (a s : Vector ℕ vl) : Vector ℕ vl :=
  Vector.tab vl fun i => (a.rd i <<< (s.rd i % w)) % 2 ^ w

/-- Bitwise exclusive or. -/
def vxorVV (a b : Vector ℕ vl) : Vector ℕ vl := Vector.tab vl fun i => a.rd i ^^^ b.rd i

/-- Bitwise exclusive or with a scalar. -/
def vxorVX (a : Vector ℕ vl) (b : ℕ) : Vector ℕ vl := Vector.tab vl fun i => a.rd i ^^^ b

/-- Bitwise disjunction. -/
def vorVV (a b : Vector ℕ vl) : Vector ℕ vl := Vector.tab vl fun i => a.rd i ||| b.rd i

/-- Bitwise conjunction with a scalar. -/
def vandVX (a : Vector ℕ vl) (b : ℕ) : Vector ℕ vl := Vector.tab vl fun i => a.rd i &&& b

/-- Sum with a scalar, in unsigned elements of `w` bits. -/
def vadduVX (w : ℕ) (a : Vector ℕ vl) (b : ℕ) : Vector ℕ vl :=
  Vector.tab vl fun i => (a.rd i + b) % 2 ^ w

/-- Sum, in unsigned elements of `w` bits. -/
def vadduVV (w : ℕ) (a b : Vector ℕ vl) : Vector ℕ vl :=
  Vector.tab vl fun i => (a.rd i + b.rd i) % 2 ^ w

/-- Difference, in unsigned elements of `w` bits. -/
def vsubuVV (w : ℕ) (a b : Vector ℕ vl) : Vector ℕ vl :=
  Vector.tab vl fun i => (a.rd i + 2 ^ w - b.rd i) % 2 ^ w

/-- Low word of the product with a scalar, in unsigned elements of `w` bits. -/
def vmuluVX (w : ℕ) (a : Vector ℕ vl) (b : ℕ) : Vector ℕ vl :=
  Vector.tab vl fun i => a.rd i * b % 2 ^ w

/-- Unsigned elements of `w` bits, read as signed ones. -/
def vreinterpretV (w : ℕ) (a : Vector ℕ vl) : Vector ℤ vl :=
  Vector.tab vl fun i => Word.wrap w (a.rd i)

/-- The permutation of `vl` lanes that swaps bits `a` and `b`, `a < b`, of the
lane number, computed in elements of `w` bits. -/
def bitswapPerm (w a b vl : ℕ) : Vector ℕ vl :=
  let v2id := vidV vl
  let xa := vsrlVX v2id (b - a)
  let xa := vxorVV xa v2id
  let xa := vandVX xa (1 <<< a)
  let xb := vsllVX w xa (b - a)
  let xa := vxorVV xa xb
  vxorVV v2id xa

/-! ## Moving elements -/

/-- Gather: lane `i` is lane `idx i` of `a`, or zero when there is no such lane. -/
def vrgatherVV {α : Type} [Inhabited α] {vl' : ℕ} (a : Vector α vl') (idx : Vector ℕ vl) :
    Vector α vl :=
  Butterfly.gather a idx

/-- The first lane. -/
def vmvXS (a : Vector ℤ vl) : ℤ := a.rd 0

/-- A register pair from two registers. -/
def vcreateV (v0 v1 : Vector ℤ vl) : Vector ℤ (vl + vl) := Butterfly.pair v0 v1

/-- Register `i` of a pair. -/
def vgetV (vp : Vector ℤ (vl + vl)) (i : ℕ) : Vector ℤ vl := vp.slice (vl * i) vl

/-- Lanes moved down by `s`, with zeros coming in. -/
def vslidedownVX (a : Vector ℤ vl) (s : ℕ) : Vector ℤ vl :=
  Vector.tab vl fun i => if i + s < vl then a.rd (i + s) else 0

/-- Unsigned lanes moved down by `s`, with zeros coming in. -/
def vslidedownuVX (a : Vector ℕ vl) (s : ℕ) : Vector ℕ vl :=
  Vector.tab vl fun i => if i + s < vl then a.rd (i + s) else 0

/-- Lanes moved up by `s`, over those of `dest`. -/
def vslideupVX (dest a : Vector ℤ vl) (s : ℕ) : Vector ℤ vl :=
  Vector.tab vl fun i => if i < s then dest.rd i else a.rd (i - s)

/-- Lanes of `b` where the mask is set, of `a` elsewhere. -/
def vmergeVVM (a b : Vector ℤ vl) (m : Vector Bool vl) : Vector ℤ vl :=
  Vector.tab vl fun i => if m.rd i then b.rd i else a.rd i

/-- Load of `vl` bytes. -/
def vle8V (b : Bytes) (vl : ℕ) : Vector ℕ vl := Vector.tab vl fun i => (b i).toNat

/-- Load of `vl` 16-bit words. -/
def vle16V (b : Bytes) (vl : ℕ) : Vector ℕ vl :=
  Vector.tab vl fun i => (b (2 * i)).toNat + 2 ^ 8 * (b (2 * i + 1)).toNat

/-- Field `f` of `vl` segments of three bytes. -/
def vlseg3e8V (b : Bytes) (vl f : ℕ) : Vector ℕ vl := Vector.tab vl fun i => (b (3 * i + f)).toNat

/-- The lanes where the mask is set, from lane zero on; the lanes behind them,
which the policy leaves open, are zero here. -/
def vcompressVM (a : Vector ℕ vl) (m : Vector Bool vl) : Vector ℕ vl :=
  Vector.tab vl fun i => (((List.range vl).filter m.rd).map a.rd).getD i 0

/-- Store of `m` registers, lane `i` of register `f` in cell `m * i + f`. -/
def interleaveV (m : ℕ) (c : ℕ → Vector ℤ vl) : Vector ℤ (m * vl) :=
  Vector.tab (m * vl) fun i => (c (i % m)).rd (i / m)

/-- Store the first `n` lanes, as signed words of `w` bits, from cell `o` on. -/
def vseV (w : ℕ) (mem : ℕ → ℤ) (o : ℕ) (a : Vector ℕ vl) (n : ℕ) : ℕ → ℤ :=
  Mem.put mem o ((List.range n).map fun i => Word.wrap w (a.rd i))

/-! ## Arithmetic on signed elements of `w` bits -/

/-- Sum, lane by lane. -/
def vaddVV (w : ℕ) (a b : Vector ℤ vl) : Chk (Vector ℤ vl) :=
  Chk.tab vl fun i => Chk.word w (a.rd i + b.rd i)

/-- Difference, lane by lane. -/
def vsubVV (w : ℕ) (a b : Vector ℤ vl) : Chk (Vector ℤ vl) :=
  Chk.tab vl fun i => Chk.word w (a.rd i - b.rd i)

/-- Low word of the product with a scalar. -/
def vmulVX (w : ℕ) (a : Vector ℤ vl) (b : ℤ) : Vector ℤ vl :=
  Vector.tab vl fun i => Word.wrap w (a.rd i * b)

/-- Low word of the product. -/
def vmulVV (w : ℕ) (a b : Vector ℤ vl) : Vector ℤ vl :=
  Vector.tab vl fun i => Word.wrap w (a.rd i * b.rd i)

/-- High word of the product with a scalar. -/
def vmulhVX (w : ℕ) (a : Vector ℤ vl) (b : ℤ) : Vector ℤ vl :=
  Vector.tab vl fun i => a.rd i * b / 2 ^ w

/-- High word of the product. -/
def vmulhVV (w : ℕ) (a b : Vector ℤ vl) : Vector ℤ vl :=
  Vector.tab vl fun i => a.rd i * b.rd i / 2 ^ w

/-- Product with a scalar, in elements of twice the width. -/
def vwmulVX (a : Vector ℤ vl) (b : ℤ) : Vector ℤ vl := Vector.tab vl fun i => a.rd i * b

/-- Product, in elements of twice the width. -/
def vwmulVV (a b : Vector ℤ vl) : Vector ℤ vl := Vector.tab vl fun i => a.rd i * b.rd i

/-- Low half of elements of twice the width. -/
def vncvtXXW (w : ℕ) (a : Vector ℤ vl) : Vector ℤ vl := Vector.tab vl fun i => Word.wrap w (a.rd i)

/-- Arithmetic shift right by a scalar, and the low half of the result. -/
def vnsraWX (w : ℕ) (a : Vector ℤ vl) (s : ℕ) : Vector ℤ vl :=
  Vector.tab vl fun i => Word.wrap w (a.rd i / 2 ^ s)

/-- Arithmetic shift right by a scalar. -/
def vsraVX (a : Vector ℤ vl) (s : ℕ) : Vector ℤ vl := Vector.tab vl fun i => a.rd i / 2 ^ s

/-- Sum with a scalar. -/
def vaddVX (w : ℕ) (a : Vector ℤ vl) (b : ℤ) : Chk (Vector ℤ vl) :=
  Chk.tab vl fun i => Chk.word w (a.rd i + b)

/-- Sum of two registers and the carries of a mask. -/
def vadcVVM (w : ℕ) (a b : Vector ℤ vl) (c : Vector Bool vl) : Chk (Vector ℤ vl) :=
  Chk.tab vl fun i => Chk.word w (a.rd i + b.rd i + if c.rd i then 1 else 0)

/-- Sum with a scalar where the mask is set, lanes of `d` elsewhere. -/
def vaddVXMu (w : ℕ) (m : Vector Bool vl) (d a : Vector ℤ vl) (b : ℤ) : Chk (Vector ℤ vl) :=
  Chk.tab vl fun i => if m.rd i then Chk.word w (a.rd i + b) else pure (d.rd i)

/-- Difference with a scalar where the mask is set, lanes of `d` elsewhere. -/
def vsubVXMu (w : ℕ) (m : Vector Bool vl) (d a : Vector ℤ vl) (b : ℤ) : Chk (Vector ℤ vl) :=
  Chk.tab vl fun i => if m.rd i then Chk.word w (a.rd i - b) else pure (d.rd i)

/-! ## Masks -/

/-- Lanes that differ from a scalar. -/
def vmsneVX (a : Vector ℤ vl) (b : ℤ) : Vector Bool vl := Vector.tab vl fun i => decide (a.rd i ≠ b)

/-- Lanes below a scalar. -/
def vmsltVX (a : Vector ℤ vl) (b : ℤ) : Vector Bool vl := Vector.tab vl fun i => decide (a.rd i < b)

/-- Lanes at or above a scalar. -/
def vmsgeVX (a : Vector ℤ vl) (b : ℤ) : Vector Bool vl := Vector.tab vl fun i => decide (b ≤ a.rd i)

/-- Unsigned lanes below a scalar. -/
def vmsltuVX (a : Vector ℕ vl) (b : ℕ) : Vector Bool vl :=
  Vector.tab vl fun i => decide (a.rd i < b)

/-- The number of lanes that are set. -/
def vcpopM (m : Vector Bool vl) : ℕ := ((List.range vl).filter m.rd).length

/-- Index lanes equal to a scalar. -/
def vmsequVX (a : Vector ℕ vl) (b : ℕ) : Vector Bool vl :=
  Vector.tab vl fun i => decide (a.rd i = b)

/-! ## Keeping the lanes below a bound -/

section Compress

variable {w q n : ℕ} {x : Vector ℕ vl}

/-- The lanes of `x` below `q`, in their order. -/
def below (x : Vector ℕ vl) (q : ℕ) : List ℤ :=
  (List.range vl).filterMap fun i => if x.rd i < q then some (x.rd i : ℤ) else none

theorem below_eq (x : Vector ℕ vl) (q : ℕ) : below x q =
    (((List.range vl).filter (vmsltuVX x q).rd).map x.rd).map fun z : ℕ => (z : ℤ) := by
  have hone : ∀ i ∈ List.range vl, (if x.rd i < q then some (x.rd i : ℤ) else none) =
      (Option.guard (vmsltuVX x q).rd i).map fun i => (x.rd i : ℤ) := by
    intro i hi
    rw [List.mem_range] at hi
    unfold vmsltuVX Option.guard
    rw [Vector.rd_tab _ hi]
    by_cases h : x.rd i < q
    · simp [h]
    · simp [h]
  unfold below
  rw [List.filterMap_congr hone, ← List.map_filterMap, List.filterMap_eq_filter, List.map_map]
  rfl

theorem vcpopM_vmsltuVX (x : Vector ℕ vl) (q : ℕ) : vcpopM (vmsltuVX x q) = (below x q).length := by
  rw [below_eq, List.length_map, List.length_map]
  rfl

theorem length_below_le (x : Vector ℕ vl) (q : ℕ) : (below x q).length ≤ vl := by
  rw [below_eq, List.length_map, List.length_map]
  exact (List.length_filter_le _ _).trans (by rw [List.length_range])

/-- Storing lanes that hold the entries of a list. -/
theorem vseV_list (hw : 0 < w) (mem : ℕ → ℤ) (o : ℕ) {v : Vector ℕ vl} {l : List ℕ}
    (hn : n ≤ l.length) (hv : ∀ i < l.length, v.rd i = l.getD i 0) (hl : ∀ z ∈ l, z < 2 ^ (w - 1)) :
    vseV w mem o v n = Mem.put mem o ((l.map fun z : ℕ => (z : ℤ)).take n) := by
  unfold vseV
  refine congrArg _ (List.ext_getElem ?_ fun i h1 h2 => ?_)
  · rw [List.length_map, List.length_range, List.length_take, List.length_map]
    omega
  · rw [List.length_map, List.length_range] at h1
    have hi : i < l.length := by omega
    have hlt : l[i] < 2 ^ (w - 1) := hl _ (List.getElem_mem hi)
    have hcast : ((2 ^ (w - 1) : ℕ) : ℤ) = 2 ^ (w - 1) := by push_cast; rfl
    rw [List.getElem_map, List.getElem_range, List.getElem_take, List.getElem_map, hv i hi,
      List.getD_eq_getElem _ _ hi]
    exact Word.wrap_of_fits hw ⟨by omega, by omega⟩

/-- **Compress and store** writes the lanes below the bound. -/
theorem vseV_vcompressVM (hw : 0 < w) (hq : q ≤ 2 ^ (w - 1)) (mem : ℕ → ℤ) (o : ℕ)
    (hn : n ≤ (below x q).length) :
    vseV w mem o (vcompressVM x (vmsltuVX x q)) n = Mem.put mem o ((below x q).take n) := by
  have hle := length_below_le x q
  rw [below_eq] at hn hle ⊢
  rw [List.length_map] at hn hle
  refine vseV_list hw mem o hn (fun i hi => ?_) fun z hz => ?_
  · unfold vcompressVM
    rw [Vector.rd_tab _ (by omega)]
  · obtain ⟨i, hi, rfl⟩ := List.mem_map.1 hz
    obtain ⟨hlt, hmask⟩ := List.mem_filter.1 hi
    rw [List.mem_range] at hlt
    unfold vmsltuVX at hmask
    rw [Vector.rd_tab _ hlt] at hmask
    exact (of_decide_eq_true hmask).trans_le hq

/-- Where no lane is left out, they can be stored as they are. -/
theorem vseV_all (hw : 0 < w) (hq : q ≤ 2 ^ (w - 1)) (mem : ℕ → ℤ) (o : ℕ)
    (hall : (below x q).length = vl) (hn : n ≤ vl) :
    vseV w mem o x n = Mem.put mem o ((below x q).take n) := by
  have hself : (List.range vl).filter (vmsltuVX x q).rd = List.range vl := by
    rw [below_eq, List.length_map, List.length_map] at hall
    rw [List.filter_eq_self, ← List.length_filter_eq_length_iff, hall, List.length_range]
  rw [below_eq, hself]
  refine vseV_list hw mem o (by simpa using hn) (fun i hi => ?_) fun z hz => ?_
  · rw [List.length_map, List.length_range] at hi
    rw [List.getD_eq_getElem _ _ (by simpa using hi), List.getElem_map, List.getElem_range]
  · obtain ⟨i, hi, rfl⟩ := List.mem_map.1 hz
    have hmask := List.filter_eq_self.1 hself i hi
    rw [List.mem_range] at hi
    unfold vmsltuVX at hmask
    rw [Vector.rd_tab _ hi] at hmask
    exact (of_decide_eq_true hmask).trans_le hq

end Compress

end Rvv
