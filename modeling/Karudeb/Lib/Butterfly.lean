import Karudeb.Lib.Checked

/-!
# In-place butterfly networks

The transforms of fast number-theoretic arithmetic are built from one move: take
two entries of an array, replace the pair by a function of the pair.  A layer
does this to every pair at one distance `len`, and the programs that compute it
differ only in the order in which they visit the pairs.

* `Op` is one butterfly, `run` a sequence of them in place.  If no two of them
  touch the same entry then every butterfly sees the entries of the array the
  run started from (`run_spec`), whatever the order.
* `layer len bf x` is the layer as a function of the whole array.
  `IsLayer n len tw ops` says that `ops` lists each pair of that layer once, and
  `run_isLayer` that running them computes the layer, with every check passing
  exactly when each butterfly's checks pass on the entries it is given.
* `blocks` is the loop nest of the textbook programs (blocks of `2*len`
  entries, a running twiddle counter); `blocks_spec` says that it is a layer.
* `layer_rel` carries a relation between two value types through a layer, and
  `layer_layer` composes two layers at the same distance.
-/

namespace Butterfly

variable {α β τ : Type} {n : ℕ}

/-! ## Layers -/

/-- Butterflies on all pairs at distance `len`; `bf b` is the butterfly of the
block `b` of `2*len` entries. -/
def layer (len : ℕ) (bf : ℕ → α → α → α × α) (x : ℕ → α) (k : ℕ) : α :=
  if k % (2 * len) < len then (bf (k / (2 * len)) (x k) (x (k + len))).1
  else (bf (k / (2 * len)) (x (k - len)) (x k)).2

theorem layer_lo {len : ℕ} (bf : ℕ → α → α → α × α) (x : ℕ → α) {b i : ℕ} (hi : i < len) :
    layer len bf x (2 * len * b + i) =
      (bf b (x (2 * len * b + i)) (x (2 * len * b + i + len))).1 := by
  have hd : (2 * len * b + i) / (2 * len) = b := by
    rw [Nat.mul_add_div (by omega), Nat.div_eq_of_lt (by omega), add_zero]
  have hm : (2 * len * b + i) % (2 * len) = i := by
    rw [Nat.mul_add_mod, Nat.mod_eq_of_lt (by omega)]
  rw [layer, hm, hd, if_pos hi]

theorem layer_hi {len : ℕ} (bf : ℕ → α → α → α × α) (x : ℕ → α) {b i : ℕ} (hi : i < len) :
    layer len bf x (2 * len * b + i + len) =
      (bf b (x (2 * len * b + i)) (x (2 * len * b + i + len))).2 := by
  have hd : (2 * len * b + i + len) / (2 * len) = b := by
    rw [add_assoc, Nat.mul_add_div (by omega), Nat.div_eq_of_lt (by omega), add_zero]
  have hm : (2 * len * b + i + len) % (2 * len) = i + len := by
    rw [add_assoc, Nat.mul_add_mod, Nat.mod_eq_of_lt (by omega)]
  rw [layer, hm, hd, if_neg (by omega), Nat.add_sub_cancel]

/-- Every index is the low or the high end of a pair. -/
theorem lo_or_hi {len : ℕ} (hlen : 0 < len) (k : ℕ) :
    ∃ b i, i < len ∧ b = k / (2 * len) ∧ (k = 2 * len * b + i ∨ k = 2 * len * b + i + len) := by
  have hdm := Nat.div_add_mod k (2 * len)
  have hlt := Nat.mod_lt k (show 0 < 2 * len by omega)
  by_cases h : k % (2 * len) < len
  · exact ⟨k / (2 * len), k % (2 * len), h, rfl, Or.inl hdm.symm⟩
  · exact ⟨k / (2 * len), k % (2 * len) - len, by omega, rfl, Or.inr (by omega)⟩

theorem pair_lt {len b i : ℕ} (hn : 2 * len ∣ n) (hi : i < len) (h : 2 * len * b + i < n) :
    2 * len * b + i + len < n := by
  obtain ⟨m, rfl⟩ := hn
  have hb : b < m := by
    by_contra hb
    have := Nat.mul_le_mul_left (2 * len) (not_lt.1 hb)
    omega
  have := Nat.mul_le_mul_left (2 * len) (Nat.succ_le_of_lt hb)
  rw [Nat.succ_eq_add_one, mul_add, mul_one] at this
  omega

/-- A layer only looks at the `n` entries it transforms. -/
theorem layer_congr {len : ℕ} (hlen : 0 < len) (hn : 2 * len ∣ n)
    {bf bf' : ℕ → α → α → α × α} {x y : ℕ → α} (hxy : ∀ k < n, x k = y k)
    (hbf : ∀ b, 2 * len * b < n → ∀ u v, bf b u v = bf' b u v) :
    ∀ k < n, layer len bf x k = layer len bf' y k := by
  intro k hk
  obtain ⟨b, i, hi, -, rfl | rfl⟩ := lo_or_hi hlen k
  · rw [layer_lo _ _ hi, layer_lo _ _ hi, hxy _ hk, hxy _ (pair_lt hn hi hk), hbf b (by omega)]
  · rw [layer_hi _ _ hi, layer_hi _ _ hi, hxy _ hk, hxy _ (by omega), hbf b (by omega)]

/-- A relation that every butterfly turns from `R` into `S` is turned from `R`
into `S` by the layer. -/
theorem layer_rel {len : ℕ} (hlen : 0 < len) (hn : 2 * len ∣ n) {bf : ℕ → α → α → α × α}
    {bf' : ℕ → β → β → β × β} {x : ℕ → α} {y : ℕ → β} {R S : α → β → Prop}
    (hbf : ∀ b, 2 * len * b < n → ∀ u v u' v', R u u' → R v v' →
      S (bf b u v).1 (bf' b u' v').1 ∧ S (bf b u v).2 (bf' b u' v').2)
    (hxy : ∀ k < n, R (x k) (y k)) : ∀ k < n, S (layer len bf x k) (layer len bf' y k) := by
  intro k hk
  obtain ⟨b, i, hi, -, rfl | rfl⟩ := lo_or_hi hlen k
  · rw [layer_lo _ _ hi, layer_lo _ _ hi]
    exact (hbf b (by omega) _ _ _ _ (hxy _ hk) (hxy _ (pair_lt hn hi hk))).1
  · rw [layer_hi _ _ hi, layer_hi _ _ hi]
    exact (hbf b (by omega) _ _ _ _ (hxy _ (by omega)) (hxy _ hk)).2

/-- Two layers at one distance are the layer of the composed butterflies. -/
theorem layer_layer {len : ℕ} (hlen : 0 < len) (bf bf' : ℕ → α → α → α × α) (x : ℕ → α) :
    layer len bf' (layer len bf x) =
      layer len (fun b u v => bf' b (bf b u v).1 (bf b u v).2) x := by
  funext k
  obtain ⟨b, i, hi, -, rfl | rfl⟩ := lo_or_hi hlen k
  · rw [layer_lo _ _ hi, layer_lo _ _ hi, layer_lo _ _ hi, layer_hi _ _ hi]
  · rw [layer_hi _ _ hi, layer_hi _ _ hi, layer_lo _ _ hi, layer_hi _ _ hi]

/-! ## Butterflies in place -/

/-- One butterfly: the two entries and the twiddle. -/
structure Op (τ : Type) where
  /-- The low entry. -/
  lo : ℕ
  /-- The high entry. -/
  hi : ℕ
  /-- The twiddle. -/
  tw : τ
deriving DecidableEq

variable [Inhabited α]

/-- One butterfly in place. -/
def step (bf : τ → α → α → Chk (α × α)) (a : Vector α n) (o : Op τ) : Chk (Vector α n) := do
  let p ← bf o.tw (a.rd o.lo) (a.rd o.hi)
  pure ((a.wr o.lo p.1).wr o.hi p.2)

/-- A sequence of butterflies in place. -/
def run (bf : τ → α → α → Chk (α × α)) (ops : List (Op τ)) (a : Vector α n) : Chk (Vector α n) :=
  ops.foldlM (step bf) a

/-- Two butterflies that share no entry. -/
def Op.Apart (o o' : Op τ) : Prop :=
  o.lo ≠ o'.lo ∧ o.lo ≠ o'.hi ∧ o.hi ≠ o'.lo ∧ o.hi ≠ o'.hi

instance (o o' : Op τ) : Decidable (o.Apart o') :=
  inferInstanceAs (Decidable (_ ∧ _ ∧ _ ∧ _))

/-- A butterfly on two distinct entries of an array of `n`. -/
def Op.Proper (n : ℕ) (o : Op τ) : Prop := o.lo ≠ o.hi ∧ o.lo < n ∧ o.hi < n

instance (o : Op τ) : Decidable (o.Proper n) :=
  inferInstanceAs (Decidable (_ ∧ _ ∧ _))

section Step

variable (bf : τ → α → α → Chk (α × α)) (a : Vector α n)

theorem step_ok (o : Op τ) : (step bf a o).ok = (bf o.tw (a.rd o.lo) (a.rd o.hi)).ok := by
  simp [step]

theorem step_lo {o : Op τ} (h : o.Proper n) :
    (step bf a o).val.rd o.lo = (bf o.tw (a.rd o.lo) (a.rd o.hi)).val.1 := by
  simp [step, Vector.rd_wr_ne _ h.1.symm, h.2.1]

theorem step_hi {o : Op τ} (h : o.Proper n) :
    (step bf a o).val.rd o.hi = (bf o.tw (a.rd o.lo) (a.rd o.hi)).val.2 := by
  simp [step, h.2.2]

theorem step_ne {o : Op τ} {k : ℕ} (h1 : k ≠ o.lo) (h2 : k ≠ o.hi) :
    (step bf a o).val.rd k = a.rd k := by
  simp [step, Vector.rd_wr_ne _ h1.symm, Vector.rd_wr_ne _ h2.symm]

end Step

/-- What a run of butterflies that share no entry leaves. -/
structure RunSpec (bf : τ → α → α → Chk (α × α)) (ops : List (Op τ)) (a : Vector α n)
    (r : Chk (Vector α n)) : Prop where
  lo : ∀ o ∈ ops, r.val.rd o.lo = (bf o.tw (a.rd o.lo) (a.rd o.hi)).val.1
  hi : ∀ o ∈ ops, r.val.rd o.hi = (bf o.tw (a.rd o.lo) (a.rd o.hi)).val.2
  rest : ∀ k, (∀ o ∈ ops, k ≠ o.lo ∧ k ≠ o.hi) → r.val.rd k = a.rd k
  ok : r.ok = true ↔ ∀ o ∈ ops, (bf o.tw (a.rd o.lo) (a.rd o.hi)).ok = true

/-- **The order does not matter.**  In a run of butterflies that share no entry
each of them is given the entries of the array the run started from. -/
theorem run_spec (bf : τ → α → α → Chk (α × α)) (ops : List (Op τ))
    (hp : ∀ o ∈ ops, o.Proper n) (hd : ops.Pairwise Op.Apart) (a : Vector α n) :
    RunSpec bf ops a (run bf ops a) := by
  induction ops generalizing a with
  | nil => exact ⟨by simp, by simp, fun _ _ => rfl, by simp [run]⟩
  | cons o ops ih =>
    obtain ⟨hap, hd⟩ := List.pairwise_cons.1 hd
    have hpo : o.Proper n := hp o List.mem_cons_self
    have hrun : run bf (o :: ops) a = step bf a o >>= run bf ops := List.foldlM_cons ..
    set a' := (step bf a o).val with ha'
    obtain ⟨ihlo, ihhi, ihrest, ihok⟩ := ih (fun o' ho' => hp o' (List.mem_cons_of_mem _ ho')) hd a'
    -- the butterflies still to come see the entries they would have seen at the start
    have hlo : ∀ o' ∈ ops, a'.rd o'.lo = a.rd o'.lo := fun o' ho' =>
      step_ne bf a (hap o' ho').1.symm (hap o' ho').2.2.1.symm
    have hhi : ∀ o' ∈ ops, a'.rd o'.hi = a.rd o'.hi := fun o' ho' =>
      step_ne bf a (hap o' ho').2.1.symm (hap o' ho').2.2.2.symm
    rw [hrun]
    refine ⟨?_, ?_, ?_, ?_⟩
    · intro o' ho'
      rw [Chk.val_bind]
      rcases List.mem_cons.1 ho' with rfl | ho'
      · rw [ihrest _ fun p hp' => ⟨(hap p hp').1, (hap p hp').2.1⟩]
        exact step_lo bf a hpo
      · rw [ihlo o' ho', hlo o' ho', hhi o' ho']
    · intro o' ho'
      rw [Chk.val_bind]
      rcases List.mem_cons.1 ho' with rfl | ho'
      · rw [ihrest _ fun p hp' => ⟨(hap p hp').2.2.1, (hap p hp').2.2.2⟩]
        exact step_hi bf a hpo
      · rw [ihhi o' ho', hlo o' ho', hhi o' ho']
    · intro k hk
      rw [Chk.val_bind, ihrest k fun p hp' => hk p (List.mem_cons_of_mem _ hp')]
      exact step_ne bf a (hk o List.mem_cons_self).1 (hk o List.mem_cons_self).2
    · rw [Chk.ok_bind, Bool.and_eq_true, step_ok, ihok, List.forall_mem_cons]
      refine and_congr_right fun _ => forall₂_congr fun o' ho' => ?_
      rw [hlo o' ho', hhi o' ho']

/-! ## Lists of butterflies that make a layer -/

/-- `ops` lists every pair of the layer at distance `len` once, each with its
block's twiddle. -/
structure IsLayer (n len : ℕ) (tw : ℕ → τ) (ops : List (Op τ)) : Prop where
  apart : ops.Pairwise Op.Apart
  pair : ∀ o ∈ ops, o.lo % (2 * len) < len ∧ o.hi = o.lo + len ∧ o.hi < n ∧
    o.tw = tw (o.lo / (2 * len))
  mem : ∀ k < n, k % (2 * len) < len → ⟨k, k + len, tw (k / (2 * len))⟩ ∈ ops

instance [DecidableEq τ] (n len : ℕ) (tw : ℕ → τ) (ops : List (Op τ)) :
    Decidable (IsLayer n len tw ops) :=
  decidable_of_iff (ops.Pairwise Op.Apart ∧
    (∀ o ∈ ops, o.lo % (2 * len) < len ∧ o.hi = o.lo + len ∧ o.hi < n ∧
      o.tw = tw (o.lo / (2 * len))) ∧
    ∀ k < n, k % (2 * len) < len → ⟨k, k + len, tw (k / (2 * len))⟩ ∈ ops)
    ⟨fun h => ⟨h.1, h.2.1, h.2.2⟩, fun h => ⟨h.apart, h.pair, h.mem⟩⟩

/-- A layer of checked butterflies. -/
def layerChk (len : ℕ) (bf : ℕ → α → α → Chk (α × α)) (a : Vector α n) : Chk (Vector α n) :=
  ⟨Vector.tab n (layer len (fun b u v => (bf b u v).val) a.rd),
    (List.range n).all fun k =>
      !decide (k % (2 * len) < len) || (bf (k / (2 * len)) (a.rd k) (a.rd (k + len))).ok⟩

theorem val_layerChk (len : ℕ) (bf : ℕ → α → α → Chk (α × α)) (a : Vector α n) :
    (layerChk len bf a).val = Vector.tab n (layer len (fun b u v => (bf b u v).val) a.rd) := rfl

theorem ok_layerChk {len : ℕ} {bf : ℕ → α → α → Chk (α × α)} {a : Vector α n} :
    (layerChk len bf a).ok = true ↔ ∀ k < n, k % (2 * len) < len →
      (bf (k / (2 * len)) (a.rd k) (a.rd (k + len))).ok = true := by
  simp only [layerChk, List.all_eq_true, List.mem_range, Bool.or_eq_true, Bool.not_eq_true',
    decide_eq_false_iff_not]
  exact forall₂_congr fun k _ => ⟨fun h hk => h.resolve_left fun h' => h' hk,
    fun h => or_iff_not_imp_left.2 fun h' => h (not_not.1 h')⟩

theorem ok_layerChk_iff {len : ℕ} (hlen : 0 < len) {bf : ℕ → α → α → Chk (α × α)}
    {a : Vector α n} :
    (layerChk len bf a).ok = true ↔ ∀ b i, i < len → 2 * len * b + i < n →
      (bf b (a.rd (2 * len * b + i)) (a.rd (2 * len * b + i + len))).ok = true := by
  rw [ok_layerChk]
  constructor
  · intro h b i hi hk
    have := h _ hk (by rw [Nat.mul_add_mod, Nat.mod_eq_of_lt (by omega)]; exact hi)
    rwa [Nat.mul_add_div (by omega), Nat.div_eq_of_lt (by omega), add_zero] at this
  · intro h k hk hlo
    have := h (k / (2 * len)) _ hlo (by rwa [Nat.div_add_mod])
    rwa [Nat.div_add_mod] at this

/-- The rule of layers: what every butterfly turns from `R` into `S`, with its
checks passing, the layer turns from `R` into `S`, with all checks passing. -/
theorem layerChk_holds {len : ℕ} (hlen : 0 < len) (hn : 2 * len ∣ n)
    {bf : ℕ → α → α → Chk (α × α)} {bf' : ℕ → β → β → β × β} {R S : α → β → Prop}
    (hbf : ∀ b, 2 * len * b < n → ∀ u v u' v', R u u' → R v v' →
      Chk.Holds (bf b u v) fun p => S p.1 (bf' b u' v').1 ∧ S p.2 (bf' b u' v').2)
    {a : Vector α n} {y : ℕ → β} (ha : ∀ k < n, R (a.rd k) (y k)) :
    Chk.Holds (layerChk len bf a) fun r => ∀ k < n, S (r.rd k) (layer len bf' y k) := by
  refine ⟨(ok_layerChk_iff hlen).2 fun b i hi hk => ?_, fun k hk => ?_⟩
  · exact (hbf b (by omega) _ _ _ _ (ha _ hk) (ha _ (pair_lt hn hi hk))).1
  · rw [val_layerChk, Vector.rd_tab _ hk]
    exact layer_rel hlen hn (fun b hb u v u' v' hu hv => (hbf b hb u v u' v' hu hv).2) ha k hk

/-- The rule for a chain of layers; `R i` holds before layer `i`. -/
theorem layers_holds (bf : ℕ → ℕ → α → α → Chk (α × α)) (bf' : ℕ → ℕ → β → β → β × β)
    (lens : List ℕ) (hlens : ∀ len ∈ lens, 0 < len ∧ 2 * len ∣ n) (R : ℕ → α → β → Prop)
    (hbf : ∀ i < lens.length, ∀ len ∈ lens, ∀ b, 2 * len * b < n → ∀ u v u' v',
      R i u u' → R i v v' → Chk.Holds (bf len b u v) fun p =>
        R (i + 1) p.1 (bf' len b u' v').1 ∧ R (i + 1) p.2 (bf' len b u' v').2)
    {a : Vector α n} {y : ℕ → β} (ha : ∀ k < n, R 0 (a.rd k) (y k)) :
    Chk.Holds (lens.foldlM (fun a len => layerChk len (bf len) a) a) fun r => ∀ k < n,
      R lens.length (r.rd k) (lens.foldl (fun y len => layer len (bf' len) y) y k) := by
  induction lens generalizing a y R with
  | nil => exact Chk.Holds.pure ha
  | cons len lens ih =>
    obtain ⟨⟨hlen, hn⟩, hlens⟩ := List.forall_mem_cons.1 hlens
    rw [List.foldlM_cons, List.foldl_cons]
    have hfirst := layerChk_holds hlen hn
      (fun b hb => hbf 0 (Nat.succ_pos _) len List.mem_cons_self b hb) ha
    refine hfirst.bind fun r hr => ?_
    refine ih hlens (fun i => R (i + 1)) (fun i hi l hl => ?_) hr
    exact hbf (i + 1) (Nat.succ_lt_succ hi) l (List.mem_cons_of_mem _ hl)

/-- Running the pairs of a layer in any order computes the layer. -/
theorem run_isLayer (bf : τ → α → α → Chk (α × α)) {len : ℕ} {tw : ℕ → τ} {ops : List (Op τ)}
    (hlen : 0 < len) (h : IsLayer n len tw ops) (a : Vector α n) :
    run bf ops a = layerChk len (fun b => bf (tw b)) a := by
  have hspec := run_spec bf ops (fun o ho => by
    obtain ⟨h1, h2, h3, -⟩ := h.pair o ho
    exact ⟨by omega, by omega, h3⟩) h.apart a
  refine Chk.ext (Vector.ext_rd fun k hk => ?_) (Bool.eq_iff_iff.2 ?_)
  · rw [val_layerChk, Vector.rd_tab _ hk]
    obtain ⟨b, i, hi, -, hb⟩ := lo_or_hi hlen k
    have hmem := h.mem (2 * len * b + i) (by omega) (by
      rw [Nat.mul_add_mod, Nat.mod_eq_of_lt (by omega)]; exact hi)
    rw [Nat.mul_add_div (by omega), Nat.div_eq_of_lt (by omega), add_zero] at hmem
    rcases hb with rfl | rfl
    · rw [layer_lo _ _ hi]
      exact hspec.lo _ hmem
    · rw [layer_hi _ _ hi]
      exact hspec.hi _ hmem
  · rw [hspec.ok, ok_layerChk]
    constructor
    · intro hok k hk hlo
      exact hok _ (h.mem k hk hlo)
    · intro hok o ho
      obtain ⟨h1, h2, h3, h4⟩ := h.pair o ho
      have := hok o.lo (by omega) h1
      rwa [← h2, ← h4] at this

theorem run_append (bf : τ → α → α → Chk (α × α)) (ops ops' : List (Op τ)) (a : Vector α n) :
    run bf (ops ++ ops') a = run bf ops a >>= run bf ops' :=
  List.foldlM_append

/-! ## The textbook loop nest -/

/-- The pairs of one block of `2*len` entries, from `start` on. -/
def blockOps (len start : ℕ) (tw : τ) : List (Op τ) :=
  (List.range len).map fun j => ⟨start + j, start + j + len, tw⟩

/-- A layer as the textbook programs write it: block after block, the twiddle
of each drawn from a running counter. -/
def blocks (bf : τ → α → α → Chk (α × α)) (next : ℕ → τ × ℕ) (len : ℕ) (s : Vector α n × ℕ) :
    Chk (Vector α n × ℕ) :=
  (List.range (n / (2 * len))).foldlM (fun s b => do
    let p := next s.2
    let a ← run bf (blockOps len (2 * len * b) p.1) s.1
    pure (a, p.2)) s

/-- The twiddle counter after `b` blocks. -/
def count (next : ℕ → τ × ℕ) (k : ℕ) : ℕ → ℕ
  | 0 => k
  | b + 1 => (next (count next k b)).2

/-- The pairs of the first `m` blocks, in the order of the loop nest. -/
def blocksOps (len : ℕ) (tw : ℕ → τ) (m : ℕ) : List (Op τ) :=
  (List.range m).flatMap fun b => blockOps len (2 * len * b) (tw b)

theorem mem_blocksOps {len : ℕ} {tw : ℕ → τ} {m : ℕ} {o : Op τ} :
    o ∈ blocksOps len tw m ↔ ∃ b < m, ∃ j < len,
      o = ⟨2 * len * b + j, 2 * len * b + j + len, tw b⟩ := by
  simp only [blocksOps, blockOps, List.mem_flatMap, List.mem_map, List.mem_range, eq_comm]

theorem blocksOps_apart (len : ℕ) (tw : ℕ → τ) (m : ℕ) :
    (blocksOps len tw m).Pairwise Op.Apart := by
  rw [blocksOps, List.pairwise_flatMap]
  constructor
  · intro b _
    rw [blockOps, List.pairwise_map]
    have hrange : (List.range len).Pairwise (· < ·) := List.pairwise_lt_range
    refine hrange.imp_of_mem fun {i j} hi hj hij => ?_
    rw [List.mem_range] at hi hj
    refine ⟨?_, ?_, ?_, ?_⟩ <;> dsimp only <;> omega
  · have hrange : (List.range m).Pairwise (· < ·) := List.pairwise_lt_range
    refine hrange.imp fun {b b'} hb x hx y hy => ?_
    simp only [blockOps, List.mem_map, List.mem_range] at hx hy
    obtain ⟨i, hi, rfl⟩ := hx
    obtain ⟨j, hj, rfl⟩ := hy
    have hle := Nat.mul_le_mul_left (2 * len) (Nat.succ_le_of_lt hb)
    rw [Nat.succ_eq_add_one, mul_add, mul_one] at hle
    refine ⟨?_, ?_, ?_, ?_⟩ <;> dsimp only <;> omega

/-- The loop nest visits every pair of the layer once. -/
theorem blocksOps_isLayer {len : ℕ} (hlen : 0 < len) (tw : ℕ → τ) (m : ℕ) :
    IsLayer (2 * len * m) len tw (blocksOps len tw m) where
  apart := blocksOps_apart len tw m
  pair := by
    intro o ho
    obtain ⟨b, hb, j, hj, rfl⟩ := mem_blocksOps.1 ho
    dsimp only
    have hlt : 2 * len * b + j < 2 * len * m := by
      have hle := Nat.mul_le_mul_left (2 * len) (Nat.succ_le_of_lt hb)
      rw [Nat.succ_eq_add_one, mul_add, mul_one] at hle
      omega
    rw [Nat.mul_add_mod, Nat.mod_eq_of_lt (by omega), Nat.mul_add_div (by omega),
      Nat.div_eq_of_lt (by omega), add_zero]
    exact ⟨hj, rfl, pair_lt (Nat.dvd_mul_right _ _) hj hlt, rfl⟩
  mem := by
    intro k hk hlo
    refine mem_blocksOps.2 ⟨k / (2 * len), ?_, k % (2 * len), hlo, ?_⟩
    · exact Nat.div_lt_of_lt_mul hk
    · rw [Nat.div_add_mod]

theorem blocks_eq_run (bf : τ → α → α → Chk (α × α)) (next : ℕ → τ × ℕ) (len m : ℕ)
    (a : Vector α n) (k : ℕ) :
    (List.range m).foldlM (fun (s : Vector α n × ℕ) b => do
        let p := next s.2
        let a ← run bf (blockOps len (2 * len * b) p.1) s.1
        pure (a, p.2)) (a, k) =
      (fun a => (a, count next k m)) <$>
        run bf (blocksOps len (fun b => (next (count next k b)).1) m) a := by
  induction m with
  | zero => rfl
  | succ m ih =>
    have hrun : run bf (blocksOps len (fun b => (next (count next k b)).1) (m + 1)) a =
        run bf (blocksOps len (fun b => (next (count next k b)).1) m) a >>=
          run bf (blockOps len (2 * len * m) (next (count next k m)).1) := by
      simp only [run, blocksOps, List.range_succ, List.flatMap_append, List.flatMap_singleton,
        List.foldlM_append]
      rfl
    rw [List.range_succ, List.foldlM_append, ih, hrun]
    simp [count]

/-- **The loop nest computes a layer**, and draws one twiddle a block. -/
theorem blocks_spec (bf : τ → α → α → Chk (α × α)) (next : ℕ → τ × ℕ) {len : ℕ} (hlen : 0 < len)
    (hn : 2 * len ∣ n) (a : Vector α n) (k : ℕ) :
    blocks bf next len (a, k) =
      (fun a => (a, count next k (n / (2 * len)))) <$>
        layerChk len (fun b => bf (next (count next k b)).1) a := by
  obtain ⟨m, rfl⟩ := hn
  have hm : 2 * len * m / (2 * len) = m := Nat.mul_div_cancel_left m (by omega)
  rw [blocks, hm, blocks_eq_run,
    run_isLayer bf hlen (blocksOps_isLayer hlen _ m)]

/-- The layers `lens`, started with the counter at `k`, take the twiddle
`tw len b` for block `b` of the layer at distance `len`. -/
def Schedule (n : ℕ) (next : ℕ → τ × ℕ) (tw : ℕ → ℕ → τ) : ℕ → List ℕ → Prop
  | _, [] => True
  | k, len :: lens => 0 < len ∧ 2 * len ∣ n ∧ (∀ b, (next (count next k b)).1 = tw len b) ∧
      Schedule n next tw (count next k (n / (2 * len))) lens

/-- **A loop nest over layers is a sequence of layers**, with twiddles that
depend on the position alone. -/
theorem foldlM_blocks (bf : τ → α → α → Chk (α × α)) (next : ℕ → τ × ℕ) (tw : ℕ → ℕ → τ) {k : ℕ}
    {lens : List ℕ} (h : Schedule n next tw k lens) (a : Vector α n) :
    Prod.fst <$> lens.foldlM (fun s len => blocks bf next len s) (a, k) =
      lens.foldlM (fun a len => layerChk len (fun b => bf (tw len b)) a) a := by
  induction lens generalizing k a with
  | nil => rfl
  | cons len lens ih =>
    obtain ⟨hlen, hn, htw, h⟩ := h
    rw [List.foldlM_cons, List.foldlM_cons, blocks_spec bf next hlen hn, bind_map_left, map_bind]
    simp only [htw]
    exact congrArg _ (funext fun a' => ih h a')

/-- A counter that goes up with every block. -/
theorem count_up (f : ℕ → τ) (k b : ℕ) : count (fun k => (f k, k + 1)) k b = k + b := by
  induction b with
  | zero => rfl
  | succ b ih => simp only [count, ih]; omega

/-- A counter that goes down with every block. -/
theorem count_down (f : ℕ → τ) (k b : ℕ) : count (fun k => (f k, k - 1)) k b = k - b := by
  induction b with
  | zero => rfl
  | succ b ih => simp only [count, ih]; omega

end Butterfly
