import Karudeb.Mldsa.Encode
import Karudeb.Mldsa.PackSpec
import Mathlib.Data.List.Sort

/-!
# ML-DSA: the signature codec

* `unpackHint_eq_some` : the decoder of the hint accepts exactly the bytes that
  `HintBitPack` writes for a hint of at most `omega` ones, and gives that hint
  back.
* `packHint_eq` : the encoder writes `HintBitPack`.
* `packSig_eq`, `unpackSig_eq_some` : the same for whole signatures.
* `sigCodec_bijective` : so every accepted string is the encoding of what it
  decodes to, and every encoding decodes to what was encoded.
-/

namespace Mldsa

open Word Bits Fips204

/-- The coefficients of a vector of polynomials. -/
def coeffs {n : ℕ} (v : PolyVec n) (i j : ℕ) : ℤ := (v.rd i).rd j

theorem coeffs_tab {n : ℕ} {f : ℕ → ℕ → ℤ} {r j : ℕ} (hr : r < n) (hj : j < 256) :
    coeffs (Vector.tab n fun r => Vector.tab 256 (f r)) r j = f r j := by
  unfold coeffs
  rw [Vector.rd_tab _ hr, Vector.rd_tab _ hj]

theorem hintRows_congr {h h' : ℕ → ℕ → ℤ} {k : ℕ} (hh : ∀ r < k, ∀ j < 256, h r j = h' r j) :
    hintRows h k = hintRows h' k := by
  refine List.flatMap_congr fun r hr => List.filter_congr fun j hj => ?_
  rw [hh r (List.mem_range.1 hr) j (List.mem_range.1 hj)]

theorem hintWeight_congr {h h' : ℕ → ℕ → ℤ} {k : ℕ} (hh : ∀ r < k, ∀ j < 256, h r j = h' r j) :
    hintWeight h k = hintWeight h' k := by
  unfold hintWeight
  rw [hintRows_congr hh]

/-! ## Decoding a hint -/

/-- The end of row `i - 1` in the list of positions, as the bytes `y` have it. -/
def cut (omega : ℕ) (y : Bytes) : ℕ → ℕ
  | 0 => 0
  | i + 1 => (y (omega + i)).toNat

/-- The `n` bytes of `y` from position `a` on. -/
def span (y : Bytes) (a n : ℕ) : List ℕ := (List.range n).map fun m => (y (a + m)).toNat

/-- The row with ones at the positions in `l`. -/
def marks (l : List ℕ) : Poly := Vector.tab 256 fun j => if j ∈ l then 1 else 0

theorem span_eq (y : Bytes) (a n : ℕ) : span y a n = ((y.drop a).take n).map UInt8.toNat := by
  unfold span Bytes.take
  rw [List.map_map]
  rfl

theorem span_succ (y : Bytes) (a n : ℕ) :
    span y a (n + 1) = span y a n ++ [(y (a + n)).toNat] := by
  unfold span
  rw [List.range_succ, List.map_append]
  rfl

theorem lt_of_mem_span {y : Bytes} {a n x : ℕ} (h : x ∈ span y a n) : x < 256 := by
  obtain ⟨m, -, rfl⟩ := List.mem_map.1 h
  exact (y (a + m)).toNat_lt

/-- Marking one position more. -/
theorem wr_marks (l : List ℕ) (x : ℕ) : (marks l).wr x 1 = marks (l ++ [x]) := by
  refine Vector.ext_rd fun j hj => ?_
  unfold marks
  rw [Vector.rd_wr, Vector.rd_tab _ hj, Vector.rd_tab _ hj]
  by_cases hx : x = j
  · simp [hx, hj]
  · simp [hx, Ne.symm hx]

/-- The positions rise, one after the other. -/
theorem pairwise_span {y : Bytes} {a n : ℕ} :
    (span y a n).Pairwise (· < ·) ↔ ∀ m, m + 1 < n → y (a + m) < y (a + (m + 1)) := by
  rw [← List.isChain_iff_pairwise, List.isChain_iff_getElem]
  simp [span, UInt8.lt_iff_toNat_lt]

/-- One row: the positions must rise, and are marked. -/
theorem unpackHintRow_eq_some {y : Bytes} {k c : ℕ} {row : Poly} :
    unpackHintRow y k c = some row ↔
      (span y k (c - k)).Pairwise (· < ·) ∧ row = marks (span y k (c - k)) := by
  unfold unpackHintRow
  rw [pairwise_span]
  generalize c - k = n
  induction n generalizing row with
  | zero => simp [span, marks, eq_comm]
  | succ n ih =>
    rw [List.range_succ, List.foldlM_append, Option.bind_eq_bind, Option.bind_eq_some_iff]
    simp only [ih, List.foldlM_cons, List.foldlM_nil, Option.bind_eq_bind]
    constructor
    · rintro ⟨h, ⟨hlt, rfl⟩, hstep⟩
      split at hstep
      · cases hstep
      · rename_i hnot
        refine ⟨fun m hm => ?_, ?_⟩
        · rcases Nat.lt_succ_iff_lt_or_eq.1 hm with hm | rfl
          · exact hlt m hm
          · refine UInt8.not_le.1 fun hle => hnot ⟨by omega, ?_⟩
            exact hle
        · cases hstep
          rw [wr_marks, span_succ]
    · rintro ⟨hlt, rfl⟩
      refine ⟨_, ⟨fun m hm => hlt m (by omega), rfl⟩, ?_⟩
      rw [if_neg]
      · rw [wr_marks, span_succ]
        rfl
      · rintro ⟨hk, hle⟩
        obtain ⟨m, rfl⟩ : ∃ m, n = m + 1 := ⟨n - 1, by omega⟩
        exact absurd (hlt m (by omega)) (UInt8.not_lt.2 hle)

/-- The bytes the decoder of the hint accepts. -/
structure Accepts (k omega : ℕ) (y : Bytes) : Prop where
  le : ∀ i < k, cut omega y i ≤ cut omega y (i + 1)
  bound : ∀ i < k, cut omega y (i + 1) ≤ omega
  rises : ∀ i < k,
    (span y (cut omega y i) (cut omega y (i + 1) - cut omega y i)).Pairwise (· < ·)
  pad : ∀ p < omega, cut omega y k ≤ p → y p = 0

/-- The row the decoder gives. -/
def hintOf (omega : ℕ) (y : Bytes) (i : ℕ) : Poly :=
  marks (span y (cut omega y i) (cut omega y (i + 1) - cut omega y i))

/-- What the decoder accepts, and what it gives. -/
theorem unpackHint_eq {par : MldsaParam} {y : Bytes} {h : PolyVec par.k} :
    unpackHint par y = some h ↔
      Accepts par.k par.omega y ∧ h = Vector.tab par.k (hintOf par.omega y) := by
  have hrun : ∀ m ≤ par.k, ∀ s : PolyVec par.k × ℕ,
      (List.range m).foldlM (fun s i =>
        let c := (y (par.omega + i)).toNat
        if c < s.2 ∨ c > par.omega then none
        else (unpackHintRow y s.2 c).map fun row => (s.1.wr i row, c))
        (Vector.tab par.k fun _ => Vector.tab 256 fun _ => 0, 0) = some s ↔
      (∀ i < m, cut par.omega y i ≤ cut par.omega y (i + 1) ∧ cut par.omega y (i + 1) ≤ par.omega ∧
        (span y (cut par.omega y i)
          (cut par.omega y (i + 1) - cut par.omega y i)).Pairwise (· < ·)) ∧
      s = (Vector.tab par.k fun i => if i < m then hintOf par.omega y i
        else Vector.tab 256 fun _ => 0, cut par.omega y m) := by
    intro m
    induction m with
    | zero => simp [cut, eq_comm]
    | succ m ih =>
      intro hm s
      rw [List.range_succ, List.foldlM_append, Option.bind_eq_bind, Option.bind_eq_some_iff]
      simp only [ih (by omega), List.foldlM_cons, List.foldlM_nil, Option.bind_eq_bind]
      have hcut : (y (par.omega + m)).toNat = cut par.omega y (m + 1) := rfl
      have hwr : (Vector.tab par.k fun i => if i < m then hintOf par.omega y i
          else Vector.tab 256 fun _ => 0).wr m (hintOf par.omega y m) =
          Vector.tab par.k fun i => if i < m + 1 then hintOf par.omega y i
            else Vector.tab 256 fun _ => 0 := by
        refine Vector.ext_rd fun j hj => ?_
        rw [Vector.rd_wr, Vector.rd_tab _ hj, Vector.rd_tab _ hj]
        by_cases hmj : m = j
        · subst hmj
          simp [hj]
        · have hiff : j < m ↔ j < m + 1 := by omega
          simp [hmj, hiff]
      constructor
      · rintro ⟨s', ⟨hall, rfl⟩, hstep⟩
        dsimp only at hstep
        rw [hcut] at hstep
        split at hstep
        · cases hstep
        · rename_i hnot
          obtain ⟨s'', hmap, hs⟩ := Option.bind_eq_some_iff.1 hstep
          obtain ⟨row, hrow, rfl⟩ := Option.map_eq_some_iff.1 hmap
          obtain ⟨hrise, rfl⟩ := unpackHintRow_eq_some.1 hrow
          cases hs
          refine ⟨fun i hi => ?_, Prod.ext hwr rfl⟩
          rcases Nat.lt_succ_iff_lt_or_eq.1 hi with hi | rfl
          · exact hall i hi
          · exact ⟨by omega, by omega, hrise⟩
      · rintro ⟨hall, rfl⟩
        refine ⟨_, ⟨fun i hi => hall i (by omega), rfl⟩, ?_⟩
        obtain ⟨hle, hbound, hrise⟩ := hall m (by omega)
        dsimp only
        rw [hcut, if_neg (by omega), unpackHintRow_eq_some.2 ⟨hrise, rfl⟩, Option.map_some,
          Option.bind_some]
        exact congrArg some (Prod.ext hwr rfl)
  unfold unpackHint
  rw [Option.bind_eq_bind, Option.bind_eq_some_iff]
  simp only [hrun par.k le_rfl]
  have htab : (Vector.tab par.k fun i => if i < par.k then hintOf par.omega y i
      else Vector.tab 256 fun _ => 0) = Vector.tab par.k (hintOf par.omega y) :=
    Vector.tab_congr fun i hi => if_pos hi
  constructor
  · rintro ⟨s, ⟨hall, rfl⟩, hpad⟩
    dsimp only at hpad
    split at hpad
    · cases hpad
    · rename_i hzero
      cases hpad
      refine ⟨⟨fun i hi => (hall i hi).1, fun i hi => (hall i hi).2.1, fun i hi => (hall i hi).2.2,
        fun p hp hcp => ?_⟩, htab⟩
      by_contra hne
      refine hzero (List.any_eq_true.2 ⟨p - cut par.omega y par.k, ?_, ?_⟩)
      · exact List.mem_range.2 (by omega)
      · rw [Nat.add_sub_cancel' hcp]
        simpa using hne
  · rintro ⟨hacc, rfl⟩
    refine ⟨_, ⟨fun i hi => ⟨hacc.le i hi, hacc.bound i hi, hacc.rises i hi⟩, rfl⟩, ?_⟩
    dsimp only
    rw [if_neg, htab]
    intro hany
    obtain ⟨n, hn, hne⟩ := List.any_eq_true.1 hany
    have hn := List.mem_range.1 hn
    rw [hacc.pad _ (by omega) (by omega)] at hne
    simp at hne

/-! ## The hint of the standard -/

theorem hintRows_succ (h : ℕ → ℕ → ℤ) (m : ℕ) :
    hintRows h (m + 1) = hintRows h m ++ hintRow h m := by
  simp [hintRows, List.range_succ]

theorem hintWeight_succ (h : ℕ → ℕ → ℤ) (m : ℕ) :
    hintWeight h (m + 1) = hintWeight h m + (hintRow h m).length := by
  unfold hintWeight
  rw [hintRows_succ, List.length_append]

theorem hintWeight_mono (h : ℕ → ℕ → ℤ) {m n : ℕ} (hmn : m ≤ n) :
    hintWeight h m ≤ hintWeight h n :=
  monotone_nat_of_le_succ (fun m => by rw [hintWeight_succ]; omega) hmn

theorem mem_hintRow {h : ℕ → ℕ → ℤ} {i j : ℕ} : j ∈ hintRow h i ↔ j < 256 ∧ h i j ≠ 0 := by
  simp [hintRow]

theorem pairwise_hintRow (h : ℕ → ℕ → ℤ) (i : ℕ) : (hintRow h i).Pairwise (· < ·) :=
  List.pairwise_lt_range.filter _

/-- Marking rising positions and listing the marks gives the positions back. -/
theorem hintRow_marks {h : ℕ → ℕ → ℤ} {i : ℕ} {l : List ℕ} (hl : l.Pairwise (· < ·))
    (hlt : ∀ x ∈ l, x < 256) (hh : ∀ j < 256, h i j = (marks l).rd j) : hintRow h i = l := by
  refine (pairwise_hintRow h i).eq_of_mem_iff hl fun j => ?_
  rw [mem_hintRow]
  constructor
  · rintro ⟨hj, hne⟩
    by_contra hnot
    rw [hh j hj, marks, Vector.rd_tab _ hj, if_neg hnot] at hne
    exact hne rfl
  · intro hj
    refine ⟨hlt j hj, ?_⟩
    rw [hh j (hlt j hj), marks, Vector.rd_tab _ (hlt j hj), if_pos hj]
    exact one_ne_zero

theorem span_append (y : Bytes) (a n : ℕ) : span y 0 (a + n) = span y 0 a ++ span y a n := by
  rw [span_eq, Bytes.take_add, List.map_append, ← span_eq, span_eq y a n]
  have hdrop : (y.drop 0).drop a = y.drop a := by
    funext i
    simp [Bytes.drop]
  rw [hdrop]

theorem take_eq_span (y : Bytes) (n : ℕ) : y.take n = (span y 0 n).map UInt8.ofNat := by
  unfold span Bytes.take
  rw [List.map_map]
  refine List.map_congr_left fun i _ => ?_
  simp

theorem map_ofNat_inj {l l' : List ℕ} (hl : ∀ x ∈ l, x < 256) (hl' : ∀ x ∈ l', x < 256)
    (h : l.map UInt8.ofNat = l'.map UInt8.ofNat) : l = l' := by
  have hback : ∀ {l : List ℕ}, (∀ x ∈ l, x < 256) →
      (l.map UInt8.ofNat).map UInt8.toNat = l := by
    intro l hl
    rw [List.map_map]
    refine (List.map_congr_left fun x hx => ?_).trans (List.map_id l)
    simpa using hl x hx
  rw [← hback hl, h, hback hl']

theorem length_hintBitPack {k omega : ℕ} {h : ℕ → ℕ → ℤ} (hw : hintWeight h k ≤ omega) :
    (hintBitPack k omega h).length = omega + k := by
  unfold hintBitPack
  rw [List.length_append, List.length_append, List.length_map, List.length_map,
    List.length_replicate, List.length_range]
  unfold hintWeight at *
  omega

/-- The parts of `HintBitPack`, where the bytes `y` hold it. -/
theorem hintBitPack_parts {k omega : ℕ} {h : ℕ → ℕ → ℤ} {y : Bytes}
    (hw : hintWeight h k ≤ omega) :
    y.take (omega + k) = hintBitPack k omega h ↔
      y.take (hintWeight h k) = (hintRows h k).map UInt8.ofNat ∧
        (∀ p < omega, hintWeight h k ≤ p → y p = 0) ∧
          ∀ i < k, y (omega + i) = UInt8.ofNat (hintWeight h (i + 1)) := by
  obtain ⟨d, rfl⟩ : ∃ d, omega = hintWeight h k + d := ⟨omega - hintWeight h k, by omega⟩
  have hlen : ((hintRows h k).map UInt8.ofNat).length = hintWeight h k := List.length_map _
  unfold hintBitPack
  rw [Nat.add_sub_cancel_left, Bytes.take_add, Bytes.take_add]
  have hpad : (y.drop (hintWeight h k)).take d = List.replicate d 0 ↔
      ∀ p < hintWeight h k + d, hintWeight h k ≤ p → y p = 0 := by
    rw [List.eq_replicate_iff]
    constructor
    · rintro ⟨-, hz⟩ p hp hlo
      refine hz (y p) (List.mem_map.2 ⟨p - hintWeight h k, List.mem_range.2 (by omega), ?_⟩)
      exact congrArg y (Nat.add_sub_cancel' hlo)
    · intro hz
      refine ⟨Bytes.length_take _ _, fun x hx => ?_⟩
      obtain ⟨n, hn, rfl⟩ := List.mem_map.1 hx
      have hn := List.mem_range.1 hn
      exact hz _ (by omega) (by omega)
  have hcuts : (y.drop (hintWeight h k + d)).take k =
      (List.range k).map (fun i => UInt8.ofNat (hintWeight h (i + 1))) ↔
        ∀ i < k, y (hintWeight h k + d + i) = UInt8.ofNat (hintWeight h (i + 1)) := by
    unfold Bytes.take
    rw [List.map_inj_left]
    simp only [List.mem_range]
    rfl
  rw [← hpad, ← hcuts]
  constructor
  · intro heq
    obtain ⟨h12, h3⟩ := List.append_inj' heq (by simp)
    obtain ⟨h1, h2⟩ := List.append_inj' h12 (by simp)
    exact ⟨h1, h2, h3⟩
  · rintro ⟨h1, h2, h3⟩
    rw [h1, h2, h3]

/-- Accepted bytes are the encoding of the hint they decode to. -/
theorem Accepts.encodes {k omega : ℕ} {y : Bytes} (hacc : Accepts k omega y)
    {h : ℕ → ℕ → ℤ} (hh : ∀ i < k, ∀ j < 256, h i j = (hintOf omega y i).rd j) :
    hintWeight h k ≤ omega ∧ y.take (omega + k) = hintBitPack k omega h := by
  have hrow : ∀ i < k, hintRow h i =
      span y (cut omega y i) (cut omega y (i + 1) - cut omega y i) := fun i hi =>
    hintRow_marks (hacc.rises i hi) (fun x hx => lt_of_mem_span hx) (hh i hi)
  have hrows : ∀ m ≤ k, hintRows h m = span y 0 (cut omega y m) := by
    intro m
    induction m with
    | zero => exact fun _ => rfl
    | succ m ih =>
      intro hm
      have hle := hacc.le m (by omega)
      obtain ⟨d, hd⟩ : ∃ d, cut omega y (m + 1) = cut omega y m + d :=
        ⟨cut omega y (m + 1) - cut omega y m, by omega⟩
      rw [hintRows_succ, ih (by omega), hrow m (by omega), hd, Nat.add_sub_cancel_left,
        span_append]
  have hweight : ∀ m ≤ k, hintWeight h m = cut omega y m := by
    intro m hm
    unfold hintWeight
    rw [hrows m hm]
    simp [span]
  have hcut : cut omega y k ≤ omega := by
    rcases k with _ | k
    · exact Nat.zero_le omega
    · exact hacc.bound k (Nat.lt_succ_self k)
  have hw : hintWeight h k ≤ omega := by
    rw [hweight k le_rfl]
    exact hcut
  refine ⟨hw, (hintBitPack_parts hw).2 ⟨?_, ?_, ?_⟩⟩
  · rw [hweight k le_rfl, hrows k le_rfl, take_eq_span]
  · intro p hp hlo
    rw [hweight k le_rfl] at hlo
    exact hacc.pad p hp hlo
  · intro i hi
    rw [hweight (i + 1) hi]
    exact UInt8.ofNat_toNat.symm

/-- The encoding of a hint is accepted, and decodes to it. -/
theorem accepts_of_encodes {k omega : ℕ} {y : Bytes} {h : ℕ → ℕ → ℤ} (homega : omega < 256)
    (hw : hintWeight h k ≤ omega) (hy : y.take (omega + k) = hintBitPack k omega h) :
    Accepts k omega y ∧ ∀ i < k, hintOf omega y i = marks (hintRow h i) := by
  obtain ⟨hpos, hpad, hcuts⟩ := (hintBitPack_parts hw).1 hy
  have hcut : ∀ m ≤ k, cut omega y m = hintWeight h m := by
    intro m hm
    rcases m with _ | m
    · rfl
    · have := hintWeight_mono h hm
      have hc : cut omega y (m + 1) = (y (omega + m)).toNat := rfl
      rw [hc, hcuts m hm, UInt8.toNat_ofNat', Nat.mod_eq_of_lt (by omega)]
  have hlt : ∀ m, ∀ x ∈ hintRows h m, x < 256 := by
    intro m x hx
    obtain ⟨i, -, hx⟩ := List.mem_flatMap.1 hx
    exact (mem_hintRow.1 hx).1
  have hspan : ∀ m ≤ k, span y 0 (hintWeight h m) = hintRows h m := by
    have hk : span y 0 (hintWeight h k) = hintRows h k := by
      rw [take_eq_span] at hpos
      exact map_ofNat_inj (fun x hx => lt_of_mem_span hx) (hlt k) hpos
    intro m hm
    obtain ⟨d, hd⟩ : ∃ d, hintWeight h k = hintWeight h m + d :=
      ⟨hintWeight h k - hintWeight h m, by have := hintWeight_mono h hm; omega⟩
    obtain ⟨n, rfl⟩ := Nat.exists_eq_add_of_le hm
    rw [hd, span_append] at hk
    have hsplit : hintRows h (m + n) =
        hintRows h m ++ (List.range n).flatMap fun i => hintRow h (m + i) := by
      unfold hintRows
      rw [List.range_add, List.flatMap_append, List.flatMap_map]
    rw [hsplit] at hk
    exact (List.append_inj hk (by simp [span, hintWeight])).1
  have hrow : ∀ i < k, span y (cut omega y i) (cut omega y (i + 1) - cut omega y i) =
      hintRow h i := by
    intro i hi
    have h1 := hspan (i + 1) hi
    rw [hintWeight_succ, span_append, hspan i (by omega), hintRows_succ] at h1
    rw [hcut i (by omega), hcut (i + 1) hi, hintWeight_succ, Nat.add_sub_cancel_left]
    exact List.append_cancel_left h1
  refine ⟨⟨fun i hi => ?_, fun i hi => ?_, fun i hi => ?_, fun p hp hlo => ?_⟩, fun i hi => ?_⟩
  · rw [hcut i (by omega), hcut (i + 1) hi]
    exact hintWeight_mono h (by omega)
  · rw [hcut (i + 1) hi]
    exact (hintWeight_mono h hi).trans hw
  · rw [hrow i hi]
    exact pairwise_hintRow h i
  · rw [hcut k le_rfl] at hlo
    exact hpad p hp hlo
  · unfold hintOf
    rw [hrow i hi]

/-- A hint has coefficients 0 and 1. -/
def IsHint (k : ℕ) (h : ℕ → ℕ → ℤ) : Prop := ∀ i < k, ∀ j < 256, h i j = 0 ∨ h i j = 1

theorem omega_lt (i : Fin 3) : (mldsaPar i).omega < 256 := by
  fin_cases i <;> decide

/-- **The decoder of the hint** accepts the encodings of hints of at most `omega`
ones and nothing else, and gives the hint back. -/
theorem unpackHint_eq_some (i : Fin 3) {y : Bytes} {h : PolyVec (mldsaPar i).k} :
    unpackHint (mldsaPar i) y = some h ↔
      IsHint (mldsaPar i).k (coeffs h) ∧
        hintWeight (coeffs h) (mldsaPar i).k ≤ (mldsaPar i).omega ∧
          y.take ((mldsaPar i).omega + (mldsaPar i).k) =
            hintBitPack (mldsaPar i).k (mldsaPar i).omega (coeffs h) := by
  rw [unpackHint_eq]
  constructor
  · rintro ⟨hacc, rfl⟩
    refine ⟨fun r hr j hj => ?_, hacc.encodes fun r hr j _ => ?_⟩
    · unfold coeffs hintOf marks
      rw [Vector.rd_tab _ hr, Vector.rd_tab _ hj]
      split
      · exact Or.inr rfl
      · exact Or.inl rfl
    · unfold coeffs
      rw [Vector.rd_tab _ hr]
  · rintro ⟨hhint, hw, hy⟩
    obtain ⟨hacc, hrow⟩ := accepts_of_encodes (omega_lt i) hw hy
    refine ⟨hacc, Vector.ext_rd fun r hr => ?_⟩
    rw [Vector.rd_tab _ hr, hrow r hr]
    refine Vector.ext_rd fun j hj => ?_
    unfold marks
    rw [Vector.rd_tab _ hj]
    by_cases h0 : coeffs h r j = 0
    · rw [if_neg fun hmem => (mem_hintRow.1 hmem).2 h0]
      exact h0
    · rw [if_pos (mem_hintRow.2 ⟨hj, h0⟩)]
      exact (hhint r hr j hj).resolve_left h0

/-! ## Encoding a hint -/

/-- The positions before `m` of the nonzero coefficients. -/
def positions (h : Poly) (m : ℕ) : List ℕ := (List.range m).filter fun j => h.rd j ≠ 0

theorem positions_succ (h : Poly) (m : ℕ) :
    positions h (m + 1) = if h.rd m ≠ 0 then positions h m ++ [m] else positions h m := by
  unfold positions
  rw [List.range_succ, List.filter_append]
  split <;> simp [*]

theorem length_positions_le (h : Poly) {m n : ℕ} (hmn : m ≤ n) :
    (positions h m).length ≤ (positions h n).length :=
  ((List.range_sublist.2 hmn).filter _).length_le

/-- One row: its positions follow those of the rows before. -/
theorem packHintRow_eq (b : Bytes) (o : ℕ) {d : ℕ} {h : Poly} (l l' : List UInt8)
    (hd : (positions h 256).length ≤ d) :
    packHintRow o h (b.put o (l ++ List.replicate d 0 ++ l'), l.length) =
      (b.put o (l ++ (positions h 256).map UInt8.ofNat ++
        List.replicate (d - (positions h 256).length) 0 ++ l'),
        l.length + (positions h 256).length) := by
  have hrun : ∀ m ≤ 256, (List.range m).foldl (fun (s : Bytes × ℕ) j =>
      if h.rd j ≠ 0 then (s.1.put (o + s.2) [UInt8.ofNat j], s.2 + 1) else s)
      (b.put o (l ++ List.replicate d 0 ++ l'), l.length) =
      (b.put o (l ++ (positions h m).map UInt8.ofNat ++
        List.replicate (d - (positions h m).length) 0 ++ l'),
        l.length + (positions h m).length) := by
    intro m
    induction m with
    | zero => simp [positions]
    | succ m ih =>
      intro hm
      rw [List.range_succ, List.foldl_append, ih (by omega), List.foldl_cons, List.foldl_nil]
      have hle := length_positions_le h hm
      rw [positions_succ] at hle ⊢
      by_cases h0 : h.rd m ≠ 0
      · rw [if_pos h0] at hle ⊢
        rw [List.length_append, List.length_singleton] at hle
        obtain ⟨e, he⟩ : ∃ e, d - (positions h m).length = e + 1 :=
          ⟨d - (positions h m).length - 1, by omega⟩
        have hnext := Bytes.put_next b o (l ++ (positions h m).map UInt8.ofNat) e l'
          (UInt8.ofNat m)
        rw [List.length_append, List.length_map] at hnext
        rw [if_pos h0, he]
        dsimp only
        rw [hnext, List.map_append, List.length_append, List.length_singleton, Nat.sub_add_eq, he]
        simp [Nat.add_assoc]
      · rw [if_neg h0, if_neg h0]
  exact hrun 256 le_rfl

/-- **The encoder of the hint** writes `HintBitPack`. -/
theorem packHint_eq {par : MldsaParam} {b : Bytes} {o : ℕ} {h : PolyVec par.k}
    (hw : hintWeight (coeffs h) par.k ≤ par.omega) :
    packHint par b o h = b.put o (hintBitPack par.k par.omega (coeffs h)) := by
  have hzero : (List.range (par.omega + par.k)).foldl (fun b i => b.put (o + i) [0]) b =
      b.put o (List.replicate (par.omega + par.k) 0) := by
    have hput := Bytes.foldl_put b o (show ∀ i < par.omega + par.k, [(0 : UInt8)].length = 1
      from fun _ _ => rfl)
    simp only [Nat.mul_one] at hput
    rw [hput]
    simp [List.flatMap]
  have hrun : ∀ m ≤ par.k, (List.range m).foldl (fun (s : Bytes × ℕ) i =>
      let s := packHintRow o (h.rd i) s
      (s.1.put (o + (par.omega + i)) [UInt8.ofNat s.2], s.2))
      (b.put o (List.replicate (par.omega + par.k) 0), 0) =
      (b.put o ((hintRows (coeffs h) m).map UInt8.ofNat ++
        List.replicate (par.omega - hintWeight (coeffs h) m) 0 ++
          ((List.range m).map (fun i => UInt8.ofNat (hintWeight (coeffs h) (i + 1))) ++
            List.replicate (par.k - m) 0)), hintWeight (coeffs h) m) := by
    intro m
    induction m with
    | zero => simp [hintRows, hintWeight]
    | succ m ih =>
      intro hm
      have hle := (hintWeight_mono (coeffs h) hm).trans hw
      have hrow : hintRow (coeffs h) m = positions (h.rd m) 256 := rfl
      rw [hintWeight_succ, hrow] at hle
      have hlen : ((hintRows (coeffs h) m).map UInt8.ofNat).length = hintWeight (coeffs h) m :=
        List.length_map _
      have hone := packHintRow_eq b o ((hintRows (coeffs h) m).map UInt8.ofNat)
        ((List.range m).map (fun i => UInt8.ofNat (hintWeight (coeffs h) (i + 1))) ++
          List.replicate (par.k - m) 0) (show (positions (h.rd m) 256).length ≤
            par.omega - hintWeight (coeffs h) m by omega)
      rw [hlen] at hone
      rw [List.range_succ, List.foldl_append, ih (by omega), List.foldl_cons, List.foldl_nil]
      dsimp only
      rw [hone, hintRows_succ, hintWeight_succ, hrow]
      dsimp only
      obtain ⟨e, he⟩ : ∃ e, par.k - m = e + 1 := ⟨par.k - m - 1, by omega⟩
      have he' : par.k - (m + 1) = e := by omega
      -- the count goes to the first of the zeros that are left
      have hlen' : ((hintRows (coeffs h) m).map UInt8.ofNat ++
          (positions (h.rd m) 256).map UInt8.ofNat ++
            List.replicate (par.omega - hintWeight (coeffs h) m - (positions (h.rd m) 256).length)
              0 ++ (List.range m).map fun i => UInt8.ofNat (hintWeight (coeffs h) (i + 1))).length =
          par.omega + m := by
        simp only [List.length_append, hlen, List.length_map, List.length_replicate,
          List.length_range]
        omega
      have hnext := fun l x => Bytes.put_next b o l e [] x
      refine Prod.ext ?_ rfl
      dsimp only
      simp only [List.append_nil] at hnext
      rw [he, he', ← hlen', Nat.sub_add_eq, List.map_append, List.map_append, List.map_singleton,
        hintWeight_succ (coeffs h) m, hrow, ← List.append_assoc, ← List.append_assoc,
        ← List.append_assoc]
      exact hnext _ _
  unfold packHint
  rw [hzero]
  dsimp only
  rw [hrun par.k le_rfl]
  simp [hintBitPack]

/-! ## Signatures -/

theorem sigSz_eq (i : Fin 3) : (mldsaPar i).sigSz =
    (mldsaPar i).cpSz + (mldsaPar i).ell * (mldsaPar i).pzpSz +
      ((mldsaPar i).omega + (mldsaPar i).k) := by
  fin_cases i <;> decide

theorem one_le_gamma1 (i : Fin 3) : 1 ≤ (mldsaPar i).gamma1 := by
  fin_cases i <;> decide

theorem two_pow_bitlen_gamma1 (i : Fin 3) :
    2 ^ bitlen ((mldsaPar i).gamma1 - 1 + (mldsaPar i).gamma1) = 2 * (mldsaPar i).gamma1 := by
  fin_cases i <;> decide

/-- The coefficients that `polyz_pack` can write. -/
def InZ (i : Fin 3) (z : ℕ → ℕ → ℤ) : Prop :=
  ∀ r < (mldsaPar i).ell, ∀ j < 256,
    -((mldsaPar i).gamma1 - 1) ≤ z r j ∧ z r j ≤ (mldsaPar i).gamma1

theorem length_zPack (i : Fin 3) (z : ℕ → ℤ) :
    (bitPack ((mldsaPar i).gamma1 - 1) (mldsaPar i).gamma1 z).length = (mldsaPar i).pzpSz := by
  rw [length_bitPack, pzpSz_eq]

theorem length_zPacks (i : Fin 3) (z : ℕ → ℕ → ℤ) (n : ℕ) :
    ((List.range n).flatMap fun r =>
      bitPack ((mldsaPar i).gamma1 - 1) (mldsaPar i).gamma1 (z r)).length =
        n * (mldsaPar i).pzpSz := by
  rw [List.length_flatMap, List.map_congr_left fun r _ => length_zPack i (z r)]
  simp

theorem length_sigEncode (i : Fin 3) {c : List UInt8} (z : ℕ → ℕ → ℤ) {h : ℕ → ℕ → ℤ}
    (hc : c.length = (mldsaPar i).cpSz)
    (hw : hintWeight h (mldsaPar i).k ≤ (mldsaPar i).omega) :
    (sigEncode (mldsaPar i) c z h).length = (mldsaPar i).sigSz := by
  unfold sigEncode
  rw [List.length_append, List.length_append, length_zPacks, length_hintBitPack hw, hc, sigSz_eq]

/-- **`pack_sig` writes `sigEncode`**, whatever the buffer held.  `cs` is the
challenge the first loop leaves at its start. -/
theorem packSig_eq (i : Fin 3) {b : Bytes} {c : Bytes → Bytes} {cs : List UInt8}
    {z : PolyVec (mldsaPar i).ell} {h : PolyVec (mldsaPar i).k}
    (hcs : (List.range (mldsaPar i).cpSz).foldl (fun b j => b.put j [c b j]) b = b.put 0 cs)
    (hlen : cs.length = (mldsaPar i).cpSz) (hz : InZ i (coeffs z))
    (hw : hintWeight (coeffs h) (mldsaPar i).k ≤ (mldsaPar i).omega) :
    packSig (mldsaPar i) b c z h =
      pure (b.put 0 (sigEncode (mldsaPar i) cs (coeffs z) (coeffs h))) := by
  have hzs : ∀ n ≤ (mldsaPar i).ell, (List.range n).foldlM (fun (b : Bytes) r => do
      let l ← polyzPack (mldsaPar i) (z.rd r)
      pure (b.put ((mldsaPar i).cpSz + r * (mldsaPar i).pzpSz) l)) (b.put 0 cs) =
      (pure ((List.range n).foldl (fun (b : Bytes) r =>
        b.put ((mldsaPar i).cpSz + r * (mldsaPar i).pzpSz)
          (bitPack ((mldsaPar i).gamma1 - 1) (mldsaPar i).gamma1 (coeffs z r)))
        (b.put 0 cs)) : Chk Bytes) := by
    intro n
    induction n with
    | zero => exact fun _ => rfl
    | succ n ih =>
      intro hn
      rw [Chk.foldlM_range_succ, ih (by omega), pure_bind, polyzPack_eq i (hz n (by omega)),
        pure_bind, List.range_succ, List.foldl_append]
      rfl
  have hput := Bytes.foldl_put (b.put 0 cs) (mldsaPar i).cpSz
    (fun r (_ : r < (mldsaPar i).ell) => length_zPack i (coeffs z r))
  unfold packSig
  dsimp only
  rw [hcs, hzs _ le_rfl, pure_bind, hput, packHint_eq hw, ← hlen, ← Nat.zero_add cs.length,
    Bytes.put_put]
  unfold sigEncode
  have hend : 0 + cs.length + (mldsaPar i).ell * (mldsaPar i).pzpSz = 0 + (cs ++
      (List.range (mldsaPar i).ell).flatMap fun r =>
        bitPack ((mldsaPar i).gamma1 - 1) (mldsaPar i).gamma1 (coeffs z r)).length := by
    rw [List.length_append, length_zPacks, Nat.add_assoc]
  rw [hend, Bytes.put_put]

/-- `unpack_sig` never overflows. -/
theorem unpackSig_eq (i : Fin 3) (sig : Bytes) :
    unpackSig (mldsaPar i) sig = pure ((unpackHint (mldsaPar i)
      (sig.drop ((mldsaPar i).cpSz + (mldsaPar i).ell * (mldsaPar i).pzpSz))).map fun h =>
        (sig.take (mldsaPar i).cpSz, Vector.tab (mldsaPar i).ell fun r => Vector.tab 256
          (bitUnpack ((mldsaPar i).gamma1 - 1) (mldsaPar i).gamma1
            (sig.drop ((mldsaPar i).cpSz + r * (mldsaPar i).pzpSz))), h)) := by
  unfold unpackSig
  simp only [polyzUnpack_eq, Chk.tab_pure, pure_bind, Bytes.drop_drop]

/-- **What `unpack_sig` accepts** are the strings of `sigEncode`, and it gives back
what was encoded. -/
theorem unpackSig_eq_some (i : Fin 3) {sig : Bytes} {c : List UInt8}
    {z : PolyVec (mldsaPar i).ell} {h : PolyVec (mldsaPar i).k} :
    (unpackSig (mldsaPar i) sig).val = some (c, z, h) ↔
      c.length = (mldsaPar i).cpSz ∧ InZ i (coeffs z) ∧ IsHint (mldsaPar i).k (coeffs h) ∧
        hintWeight (coeffs h) (mldsaPar i).k ≤ (mldsaPar i).omega ∧
          sig.take (mldsaPar i).sigSz = sigEncode (mldsaPar i) c (coeffs z) (coeffs h) := by
  rw [unpackSig_eq, Chk.val_pure, Option.map_eq_some_iff]
  simp only [unpackHint_eq_some]
  have hsplit : sig.take (mldsaPar i).sigSz = sig.take (mldsaPar i).cpSz ++
      (sig.drop (mldsaPar i).cpSz).take ((mldsaPar i).ell * (mldsaPar i).pzpSz) ++
        (sig.drop ((mldsaPar i).cpSz + (mldsaPar i).ell * (mldsaPar i).pzpSz)).take
          ((mldsaPar i).omega + (mldsaPar i).k) := by
    rw [sigSz_eq, Bytes.take_add, Bytes.take_add]
  have hblocks : ∀ z : ℕ → ℕ → ℤ, _ := fun z => Bytes.take_flatMap (sig.drop (mldsaPar i).cpSz)
    (fun r (_ : r < (mldsaPar i).ell) => length_zPack i (z r))
  simp only [Bytes.drop_drop] at hblocks
  unfold sigEncode
  rw [hsplit]
  constructor
  · rintro ⟨h', ⟨hhint, hw, hy⟩, heq⟩
    obtain ⟨rfl, hz⟩ := Prod.mk.inj heq
    obtain ⟨rfl, rfl⟩ := Prod.mk.inj hz
    have hcoeffs : ∀ r < (mldsaPar i).ell, ∀ j < 256,
        coeffs (Vector.tab (mldsaPar i).ell fun r => Vector.tab 256
          (bitUnpack ((mldsaPar i).gamma1 - 1) (mldsaPar i).gamma1
            (sig.drop ((mldsaPar i).cpSz + r * (mldsaPar i).pzpSz)))) r j =
          bitUnpack ((mldsaPar i).gamma1 - 1) (mldsaPar i).gamma1
            (sig.drop ((mldsaPar i).cpSz + r * (mldsaPar i).pzpSz)) j := by
      intro r hr j hj
      unfold coeffs
      rw [Vector.rd_tab _ hr, Vector.rd_tab _ hj]
    refine ⟨Bytes.length_take _ _, fun r hr j hj => ?_, hhint, hw, ?_⟩
    · have hlt := unpack_lt (bitlen ((mldsaPar i).gamma1 - 1 + (mldsaPar i).gamma1))
        (sig.drop ((mldsaPar i).cpSz + r * (mldsaPar i).pzpSz)) j
      rw [two_pow_bitlen_gamma1] at hlt
      rw [hcoeffs r hr j hj]
      unfold bitUnpack
      omega
    · rw [hy]
      refine congrArg (· ++ _) (congrArg _ ((hblocks _).2 fun r hr => ?_))
      rw [bitPack_congr (hcoeffs r hr), bitPack_bitUnpack, ← pzpSz_eq]
  · rintro ⟨hc, hz, hhint, hw, heq⟩
    obtain ⟨h12, h3⟩ := List.append_inj' heq (by
      rw [Bytes.length_take, length_hintBitPack hw])
    obtain ⟨h1, h2⟩ := List.append_inj' h12 (by rw [Bytes.length_take, length_zPacks])
    refine ⟨h, ⟨hhint, hw, h3⟩, ?_⟩
    rw [h1]
    refine congrArg (Prod.mk c) (congrArg (Prod.mk · h) (Vector.ext_rd fun r hr => ?_))
    rw [Vector.rd_tab _ hr]
    refine Vector.ext_rd fun j hj => ?_
    rw [Vector.rd_tab _ hj]
    refine bitUnpack_bitPack ?_ hj ?_
    · rw [← pzpSz_eq]
      exact (hblocks _).1 h2 r hr
    · have hzr := hz r hr j hj
      have hpos := one_le_gamma1 i
      unfold coeffs at hzr
      omega

/-- The copy of a challenge that lies outside the buffer. -/
theorem packSig_eq_separate (i : Fin 3) {b c : Bytes} {z : PolyVec (mldsaPar i).ell}
    {h : PolyVec (mldsaPar i).k} (hz : InZ i (coeffs z))
    (hw : hintWeight (coeffs h) (mldsaPar i).k ≤ (mldsaPar i).omega) :
    packSig (mldsaPar i) b (fun _ => c) z h = pure (b.put 0
      (sigEncode (mldsaPar i) (c.take (mldsaPar i).cpSz) (coeffs z) (coeffs h))) :=
  packSig_eq i (Bytes.foldl_copy b c _) (Bytes.length_take _ _) hz hw

/-- The copy of a challenge that lies at the start of the buffer itself. -/
theorem packSig_eq_self (i : Fin 3) {b : Bytes} {z : PolyVec (mldsaPar i).ell}
    {h : PolyVec (mldsaPar i).k} (hz : InZ i (coeffs z))
    (hw : hintWeight (coeffs h) (mldsaPar i).k ≤ (mldsaPar i).omega) :
    packSig (mldsaPar i) b id z h = pure (b.put 0
      (sigEncode (mldsaPar i) (b.take (mldsaPar i).cpSz) (coeffs z) (coeffs h))) := by
  refine packSig_eq i ?_ (Bytes.length_take _ _) hz hw
  exact (Bytes.foldl_copy_self b _).trans (Bytes.put_take b _).symm

/-- **The signature codec is a bijection** between the triples of a challenge, a
response in range and a hint of at most `omega` ones, and the strings the decoder
accepts. -/
theorem sigCodec_bijective (i : Fin 3) :
    (∀ (sig : Bytes) c z h, (unpackSig (mldsaPar i) sig).val = some (c, z, h) →
      IsHint (mldsaPar i).k (coeffs h) ∧
        hintWeight (coeffs h) (mldsaPar i).k ≤ (mldsaPar i).omega ∧
          ∀ b : Bytes,
            (packSig (mldsaPar i) b (fun _ => Bytes.ofList c) z h).val.take (mldsaPar i).sigSz =
              sig.take (mldsaPar i).sigSz) ∧
    ∀ (c : Bytes) (z : PolyVec (mldsaPar i).ell) (h : PolyVec (mldsaPar i).k),
      InZ i (coeffs z) → IsHint (mldsaPar i).k (coeffs h) →
        hintWeight (coeffs h) (mldsaPar i).k ≤ (mldsaPar i).omega →
          ∀ b : Bytes,
            (unpackSig (mldsaPar i) (packSig (mldsaPar i) b (fun _ => c) z h).val).val =
              some (c.take (mldsaPar i).cpSz, z, h) := by
  constructor
  · intro sig c z h hsome
    obtain ⟨hc, hz, hhint, hw, heq⟩ := (unpackSig_eq_some i).1 hsome
    refine ⟨hhint, hw, fun b => ?_⟩
    have hlen := length_sigEncode i (coeffs z) hc hw
    rw [packSig_eq_separate i hz hw, Chk.val_pure, ← hc, Bytes.take_ofList, heq, ← hlen,
      Bytes.take_put]
  · intro c z h hz hhint hw b
    rw [packSig_eq_separate i hz hw, Chk.val_pure]
    refine (unpackSig_eq_some i).2 ⟨Bytes.length_take _ _, hz, hhint, hw, ?_⟩
    rw [← length_sigEncode i (coeffs z) (Bytes.length_take c _) hw, Bytes.take_put]

/-- A ramp as the response, and a hint with 16 ones in each row. -/
theorem sigCodec_bijective_ramp :
    let z : PolyVec (mldsaPar 0).ell :=
      Vector.tab _ fun r => Vector.tab 256 fun j => 1024 * (j : ℤ) - 131071 + r
    let h : PolyVec (mldsaPar 0).k :=
      Vector.tab _ fun r => Vector.tab 256 fun j => if j % 16 = r then 1 else 0
    (unpackSig (mldsaPar 0) (packSig (mldsaPar 0) (fun _ => 7) (fun _ n => UInt8.ofNat n) z h).val).val =
      some ((List.range 32).map UInt8.ofNat, z, h) := by
  have hz : InZ 0 (coeffs (Vector.tab (mldsaPar 0).ell fun r => Vector.tab 256 fun j =>
      1024 * (j : ℤ) - 131071 + r)) := by
    intro r hr j hj
    have hell : (mldsaPar 0).ell = 4 := rfl
    rw [coeffs_tab hr hj, show (mldsaPar 0).gamma1 = 131072 from rfl]
    constructor <;> omega
  have hhint : IsHint (mldsaPar 0).k (coeffs (Vector.tab (mldsaPar 0).k fun r => Vector.tab 256 fun j =>
      if j % 16 = r then 1 else 0)) := by
    intro r hr j hj
    rw [coeffs_tab hr hj]
    split
    · exact .inr rfl
    · exact .inl rfl
  refine (sigCodec_bijective 0).2 (fun n => UInt8.ofNat n) _ _ hz hhint ?_ _
  rw [hintWeight_congr fun r hr j hj => coeffs_tab hr hj]
  decide +kernel

theorem coeffs_zero {n r j : ℕ} (hr : r < n) (hj : j < 256) :
    coeffs (Vector.tab n fun _ => Vector.tab 256 fun _ => 0) r j = 0 :=
  coeffs_tab hr hj

theorem hintWeight_zero (n : ℕ) :
    hintWeight (coeffs (Vector.tab n fun _ => Vector.tab 256 fun _ => 0)) n = 0 := by
  rw [hintWeight_congr fun r hr j hj => coeffs_zero hr hj]
  unfold hintWeight hintRows hintRow
  rw [List.length_eq_zero_iff, List.flatMap_eq_nil_iff]
  intro r _
  rw [List.filter_eq_nil_iff]
  intro j _
  exact fun h => of_decide_eq_true h rfl

end Mldsa
