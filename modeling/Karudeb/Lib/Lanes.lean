import Karudeb.Lib.Butterfly

/-!
# Butterfly networks on vector registers

A vector unit runs a butterfly on all lanes of two registers at once.  A bank
of `m` registers of `w` lanes is an array of `w * m` entries, register after
register, and on that array the vector code computes the same layers as the
scalar code, in one of two ways.

* Between registers: a layer at distance `d` on the bank is the layer at
  distance `w * d` on the array (`layerChk_toRegs`), also when the registers are
  loaded and stored around every butterfly (`memRun_eq`).
* Inside a register pair: a permutation brings the two ends of every pair to the
  same lane of the two halves, and the butterfly of the halves is then the
  layer, seen through the permutation (`pairStep_gather`).

Programs that work on one section of the array after the other compute layers
too, as long as the pairs do not leave the section (`layerChk_sections`).
-/

namespace Butterfly

variable {α β τ : Type} [Inhabited α]

/-! ## Banks of registers -/

/-- The array as a bank of `m` registers of `w` lanes. -/
def toRegs (w m : ℕ) {n : ℕ} (a : Vector α n) : Vector (Vector α w) m :=
  Vector.tab m fun r => a.slice (w * r) w

/-- The array that a bank of registers holds. -/
def ofRegs (n : ℕ) {w m : ℕ} (v : Vector (Vector α w) m) : Vector α n :=
  Vector.tab n fun k => (v.rd (k / w)).rd (k % w)

section Regs

variable {w m n : ℕ}

@[simp] theorem rd_toRegs (a : Vector α n) {r : ℕ} (h : r < m) :
    (toRegs w m a).rd r = a.slice (w * r) w := Vector.rd_tab _ h

theorem lane_lt (hn : n = w * m) {r l : ℕ} (hr : r < m) (hl : l < w) : w * r + l < n := by
  have := Nat.mul_le_mul_left w (Nat.succ_le_of_lt hr)
  rw [Nat.succ_eq_add_one, mul_add, mul_one] at this
  omega

theorem lane_div {r l : ℕ} (hl : l < w) : (w * r + l) / w = r := by
  rw [Nat.mul_add_div (by omega), Nat.div_eq_of_lt hl, add_zero]

theorem lane_mod {r l : ℕ} (hl : l < w) : (w * r + l) % w = l := by
  rw [Nat.mul_add_mod, Nat.mod_eq_of_lt hl]

theorem rd_ofRegs (hn : n = w * m) (v : Vector (Vector α w) m) {r l : ℕ} (hr : r < m)
    (hl : l < w) : (ofRegs n v).rd (w * r + l) = (v.rd r).rd l := by
  rw [ofRegs, Vector.rd_tab _ (lane_lt hn hr hl), lane_div hl, lane_mod hl]

theorem ext_lanes (hn : n = w * m) (hw : 0 < w) {a b : Vector α n}
    (h : ∀ r < m, ∀ l < w, a.rd (w * r + l) = b.rd (w * r + l)) : a = b := by
  refine Vector.ext_rd fun k hk => ?_
  have := h (k / w) (Nat.div_lt_of_lt_mul (by omega)) (k % w) (Nat.mod_lt _ hw)
  rwa [Nat.div_add_mod] at this

theorem ofRegs_toRegs (hn : n = w * m) (hw : 0 < w) (a : Vector α n) :
    ofRegs n (toRegs w m a) = a := by
  refine ext_lanes hn hw fun r hr l hl => ?_
  rw [rd_ofRegs hn _ hr hl, rd_toRegs _ hr, Vector.rd_slice _ _ hl]

theorem toRegs_ofRegs (hn : n = w * m) (v : Vector (Vector α w) m) :
    toRegs w m (ofRegs n v) = v := by
  refine Vector.ext_rd fun r hr => Vector.ext_rd fun l hl => ?_
  rw [rd_toRegs _ hr, Vector.rd_slice _ _ hl, rd_ofRegs hn _ hr hl]

end Regs

/-! ## Butterflies of registers -/

/-- A butterfly on every lane of two registers; `z` gives each lane its twiddle. -/
def laneBfly {w : ℕ} (bf : τ → α → α → Chk (α × α)) (z : ℕ → τ) (u v : Vector α w) :
    Chk (Vector α w × Vector α w) :=
  (fun p => (Vector.tab w fun l => (p.rd l).1, Vector.tab w fun l => (p.rd l).2)) <$>
    Chk.tab w fun l => bf (z l) (u.rd l) (v.rd l)

section LaneBfly

variable {w : ℕ} (bf : τ → α → α → Chk (α × α)) (z : ℕ → τ) (u v : Vector α w)

theorem laneBfly_fst {l : ℕ} (hl : l < w) :
    (laneBfly bf z u v).val.1.rd l = (bf (z l) (u.rd l) (v.rd l)).val.1 := by
  simp [laneBfly, hl]

theorem laneBfly_snd {l : ℕ} (hl : l < w) :
    (laneBfly bf z u v).val.2.rd l = (bf (z l) (u.rd l) (v.rd l)).val.2 := by
  simp [laneBfly, hl]

theorem laneBfly_ok :
    (laneBfly bf z u v).ok = true ↔ ∀ l < w, (bf (z l) (u.rd l) (v.rd l)).ok = true := by
  rw [laneBfly, Chk.ok_map, Chk.ok_tab]

theorem laneBfly_congr {z' : ℕ → τ} (h : ∀ l < w, z l = z' l) :
    laneBfly bf z u v = laneBfly bf z' u v := by
  unfold laneBfly
  rw [Chk.tab_congr fun l hl => by rw [h l hl]]

end LaneBfly

theorem lane_lo (w d b i l : ℕ) : w * (2 * d * b + i) + l = 2 * (w * d) * b + (w * i + l) := by
  ring

theorem lane_hi (w d b i l : ℕ) :
    w * (2 * d * b + i + d) + l = 2 * (w * d) * b + (w * i + l) + w * d := by
  ring

/-- **Between registers** a layer of the bank is a layer of the array. -/
theorem layerChk_toRegs (bf : τ → α → α → Chk (α × α)) (tw : ℕ → τ) {w m n d : ℕ}
    (hn : n = w * m) (hw : 0 < w) (hd : 0 < d) (hm : 2 * d ∣ m) (a : Vector α n) :
    layerChk d (fun b => laneBfly bf fun _ => tw b) (toRegs w m a) =
      toRegs w m <$> layerChk (w * d) (fun b => bf (tw b)) a := by
  have hlo : ∀ b i l, i < d → l < w → 2 * d * b + i < m →
      ((toRegs w m a).rd (2 * d * b + i)).rd l = a.rd (2 * (w * d) * b + (w * i + l)) := by
    intro b i l _ hl hr
    rw [rd_toRegs _ hr, Vector.rd_slice _ _ hl, lane_lo]
  have hhi : ∀ b i l, i < d → l < w → 2 * d * b + i < m →
      ((toRegs w m a).rd (2 * d * b + i + d)).rd l =
        a.rd (2 * (w * d) * b + (w * i + l) + w * d) := by
    intro b i l hi hl hr
    rw [rd_toRegs _ (pair_lt hm hi hr), Vector.rd_slice _ _ hl, lane_hi]
  refine Chk.ext (Vector.ext_rd fun r hr => Vector.ext_rd fun l hl => ?_) (Bool.eq_iff_iff.2 ?_)
  · rw [Chk.val_map, rd_toRegs _ hr, Vector.rd_slice _ _ hl, val_layerChk, val_layerChk,
      Vector.rd_tab _ hr, Vector.rd_tab _ (lane_lt hn hr hl)]
    obtain ⟨b, i, hi, -, rfl | rfl⟩ := lo_or_hi hd r
    · rw [layer_lo _ _ hi, lane_lo, layer_lo _ _ (lane_lt rfl hi hl), laneBfly_fst _ _ _ _ hl,
        hlo b i l hi hl hr, hhi b i l hi hl hr]
    · have hr' : 2 * d * b + i < m := by omega
      rw [layer_hi _ _ hi, lane_hi, layer_hi _ _ (lane_lt rfl hi hl), laneBfly_snd _ _ _ _ hl,
        hlo b i l hi hl hr', hhi b i l hi hl hr']
  · rw [Chk.ok_map, ok_layerChk_iff hd, ok_layerChk_iff (by positivity)]
    constructor
    · intro h b j hj hk
      have hi : j / w < d := Nat.div_lt_of_lt_mul hj
      have hl := Nat.mod_lt j hw
      rw [← Nat.div_add_mod j w, ← lane_lo] at hk
      have hr : 2 * d * b + j / w < m := by
        by_contra hr
        have := Nat.mul_le_mul_left w (not_lt.1 hr)
        omega
      have := (laneBfly_ok _ _ _ _).1 (h b (j / w) hi hr) (j % w) hl
      rwa [hlo b _ _ hi hl hr, hhi b _ _ hi hl hr, Nat.div_add_mod] at this
    · intro h b i hi hr
      rw [laneBfly_ok]
      intro l hl
      rw [hlo b i l hi hl hr, hhi b i l hi hl hr]
      refine h b (w * i + l) (lane_lt rfl hi hl) ?_
      rw [← lane_lo]
      exact lane_lt hn hr hl

/-- `ops` runs the given layers of a bank of `m` registers one after the other. -/
def RegLayers (m : ℕ) : List (Op τ) → List (ℕ × (ℕ → τ)) → Prop
  | ops, [] => ops = []
  | ops, (d, tw) :: layers =>
    (0 < d ∧ 2 * d ∣ m ∧ IsLayer m d tw (ops.take (m / 2))) ∧ RegLayers m (ops.drop (m / 2)) layers

/-- `RegLayers` is a finite check. -/
def decRegLayers [DecidableEq τ] (m : ℕ) :
    ∀ (ops : List (Op τ)) (layers : List (ℕ × (ℕ → τ))), Decidable (RegLayers m ops layers)
  | ops, [] => inferInstanceAs (Decidable (ops = []))
  | ops, (_, _) :: layers =>
    have := decRegLayers m (ops.drop (m / 2)) layers
    inferInstanceAs (Decidable (_ ∧ _))

instance [DecidableEq τ] (m : ℕ) (ops : List (Op τ)) (layers : List (ℕ × (ℕ → τ))) :
    Decidable (RegLayers m ops layers) :=
  decRegLayers m ops layers

/-- Layers between registers are layers of the array. -/
theorem run_regLayers (bf : τ → α → α → Chk (α × α)) {w m n : ℕ} (hn : n = w * m) (hw : 0 < w)
    {ops : List (Op τ)} {layers : List (ℕ × (ℕ → τ))} (h : RegLayers m ops layers)
    (a : Vector α n) :
    run (fun z => laneBfly bf fun _ => z) ops (toRegs w m a) =
      toRegs w m <$> layers.foldlM (fun a l => layerChk (w * l.1) (fun b => bf (l.2 b)) a) a := by
  induction layers generalizing ops a with
  | nil =>
    cases h
    rfl
  | cons l layers ih =>
    obtain ⟨⟨hd, hm, hl⟩, h⟩ := h
    rw [← List.take_append_drop (m / 2) ops, run_append, run_isLayer _ hd hl,
      layerChk_toRegs bf _ hn hw hd hm, bind_map_left, List.foldlM_cons, map_bind]
    exact congrArg _ (funext fun a' => ih h a')

/-- A run of butterflies between registers that are loaded before and stored
after each butterfly. -/
def memRun (w : ℕ) {n : ℕ} (bf : τ → α → α → Chk (α × α)) (ops : List (Op τ)) (a : Vector α n) :
    Chk (Vector α n) :=
  ops.foldlM (fun a o => do
    let p ← laneBfly bf (fun _ => o.tw) (a.slice (w * o.lo) w) (a.slice (w * o.hi) w)
    pure ((a.splice (w * o.lo) p.1).splice (w * o.hi) p.2)) a

theorem toRegs_splice {w m n r : ℕ} (hn : n = w * m) (a : Vector α n) (hr : r < m)
    (v : Vector α w) : toRegs w m (a.splice (w * r) v) = (toRegs w m a).wr r v := by
  refine Vector.ext_rd fun r' hr' => Vector.ext_rd fun l hl => ?_
  rw [rd_toRegs _ hr', Vector.rd_slice _ _ hl, Vector.rd_splice _ _ _ (lane_lt hn hr' hl),
    Vector.rd_wr]
  have hle : ∀ {r r'}, r < r' → w * r + w ≤ w * r' := fun h => by
    have := Nat.mul_le_mul_left w (Nat.succ_le_of_lt h)
    rwa [Nat.succ_eq_add_one, mul_add, mul_one] at this
  rcases lt_trichotomy r r' with h | rfl | h
  · rw [if_neg (by have := hle h; omega), if_neg (by omega), rd_toRegs _ hr',
      Vector.rd_slice _ _ hl]
  · rw [if_pos (by omega), if_pos ⟨rfl, hr⟩, Nat.add_sub_cancel_left]
  · rw [if_neg (by have := hle h; omega), if_neg (by omega), rd_toRegs _ hr',
      Vector.rd_slice _ _ hl]

theorem toRegs_memRun {w m n : ℕ} (hn : n = w * m) (bf : τ → α → α → Chk (α × α))
    (ops : List (Op τ)) (hops : ∀ o ∈ ops, o.lo < m ∧ o.hi < m) (a : Vector α n) :
    toRegs w m <$> memRun w bf ops a =
      run (fun t => laneBfly bf fun _ => t) ops (toRegs w m a) := by
  induction ops generalizing a with
  | nil => rfl
  | cons o ops ih =>
    obtain ⟨⟨h1, h2⟩, hops⟩ := List.forall_mem_cons.1 hops
    rw [memRun, List.foldlM_cons, run, List.foldlM_cons, step, rd_toRegs _ h1, rd_toRegs _ h2]
    simp only [map_bind, bind_assoc, pure_bind]
    refine congrArg _ (funext fun p => ?_)
    have := ih hops ((a.splice (w * o.lo) p.1).splice (w * o.hi) p.2)
    rw [toRegs_splice hn _ h2, toRegs_splice hn _ h1] at this
    exact this

/-- Loading and storing around every butterfly makes no difference. -/
theorem memRun_isLayer {w m n d : ℕ} (hn : n = w * m) (hw : 0 < w) (hd : 0 < d) (hm : 2 * d ∣ m)
    (bf : τ → α → α → Chk (α × α)) {tw : ℕ → τ} {ops : List (Op τ)} (h : IsLayer m d tw ops)
    (a : Vector α n) : memRun w bf ops a = layerChk (w * d) (fun b => bf (tw b)) a := by
  have hmem := toRegs_memRun hn bf ops (fun o ho => by
    obtain ⟨-, h2, h3, -⟩ := h.pair o ho
    exact ⟨by omega, h3⟩) a
  rw [run_isLayer _ hd h, layerChk_toRegs bf tw hn hw hd hm] at hmem
  have := congrArg (fun x : Chk (Vector (Vector α w) m) => ofRegs n <$> x) hmem
  simpa only [Functor.map_map, ofRegs_toRegs hn hw, id_map'] using this

/-! ## Sections -/

/-- A program run on each section of `s` entries of the array. -/
def sections (s m : ℕ) {n : ℕ} (g : ℕ → Vector α s → Chk (Vector α s)) (a : Vector α n) :
    Chk (Vector α n) :=
  ofRegs n <$> Chk.tab m fun j => g j (a.slice (s * j) s)

section Sections

variable {s m n : ℕ}

theorem sections_bind (hn : n = s * m) (g h : ℕ → Vector α s → Chk (Vector α s))
    (a : Vector α n) :
    (sections s m g a >>= sections s m h) = sections s m (fun j x => g j x >>= h j) a := by
  rw [sections, sections, ← Chk.tab_bind_tab]
  simp only [bind_map_left, map_bind]
  refine congrArg _ (funext fun v => ?_)
  rw [sections]
  refine congrArg _ (Chk.tab_congr fun j hj => ?_)
  rw [← rd_toRegs _ hj, toRegs_ofRegs hn]

/-- A layer whose pairs do not leave the sections is run section by section. -/
theorem layerChk_sections {len : ℕ} (hn : n = s * m) (hs : 0 < s) (hlen : 0 < len)
    (hdvd : 2 * len ∣ s) (bf : ℕ → α → α → Chk (α × α)) (a : Vector α n) :
    sections s m (fun j => layerChk len fun b => bf (s / (2 * len) * j + b)) a =
      layerChk len bf a := by
  obtain ⟨c, rfl⟩ := hdvd
  have hc : 2 * len * c / (2 * len) = c := Nat.mul_div_cancel_left c (by omega)
  have hk : ∀ j b i, 2 * len * c * j + (2 * len * b + i) = 2 * len * (c * j + b) + i := by
    intro j b i
    ring
  -- the two ends of a pair of section `j`, in the whole array
  have hlo : ∀ j b i, i < len → 2 * len * b + i < 2 * len * c →
      (a.slice (2 * len * c * j) (2 * len * c)).rd (2 * len * b + i) =
        a.rd (2 * len * (c * j + b) + i) := by
    intro j b i _ hr
    rw [Vector.rd_slice _ _ hr, hk]
  have hhi : ∀ j b i, i < len → 2 * len * b + i < 2 * len * c →
      (a.slice (2 * len * c * j) (2 * len * c)).rd (2 * len * b + i + len) =
        a.rd (2 * len * (c * j + b) + i + len) := by
    intro j b i hi hr
    rw [Vector.rd_slice _ _ (pair_lt (Nat.dvd_mul_right _ _) hi hr), ← hk, ← add_assoc]
  rw [hc]
  refine Chk.ext (ext_lanes hn hs fun j hj r hr => ?_) (Bool.eq_iff_iff.2 ?_)
  · rw [sections, Chk.val_map, rd_ofRegs hn _ hj hr, Chk.val_tab, Vector.rd_tab _ hj, val_layerChk,
      Vector.rd_tab _ hr, val_layerChk, Vector.rd_tab _ (lane_lt hn hj hr)]
    obtain ⟨b, i, hi, -, rfl | rfl⟩ := lo_or_hi hlen r
    · rw [layer_lo _ _ hi, hk, layer_lo _ _ hi, hlo j b i hi hr, hhi j b i hi hr]
    · have hr' : 2 * len * b + i < 2 * len * c := by omega
      rw [layer_hi _ _ hi, ← add_assoc, hk, layer_hi _ _ hi, hlo j b i hi hr', hhi j b i hi hr']
  · rw [sections, Chk.ok_map, Chk.ok_tab, ok_layerChk_iff hlen]
    simp only [ok_layerChk_iff hlen]
    constructor
    · intro h b i hi hb
      have hdm := Nat.div_add_mod b c
      have hcpos : 0 < c := Nat.pos_of_mul_pos_left hs
      have hmod := Nat.mod_lt b hcpos
      have hr : 2 * len * (b % c) + i < 2 * len * c := lane_lt rfl hmod (by omega)
      have hj : b / c < m := by
        by_contra hj
        have := Nat.mul_le_mul_left (2 * len * c) (not_lt.1 hj)
        rw [← hdm, ← hk] at hb
        omega
      have := h (b / c) hj (b % c) i hi hr
      rwa [hlo _ _ _ hi hr, hhi _ _ _ hi hr, hdm] at this
    · intro h j hj b i hi hr
      rw [hlo _ _ _ hi hr, hhi _ _ _ hi hr]
      refine h (c * j + b) i hi ?_
      rw [← hk]
      exact lane_lt hn hj hr

/-- Layers whose pairs do not leave the sections are run section by section. -/
theorem sections_layers (hn : n = s * m) (hs : 0 < s) (bf : ℕ → ℕ → α → α → Chk (α × α))
    (lens : List ℕ) (h : ∀ len ∈ lens, 0 < len ∧ 2 * len ∣ s) (a : Vector α n) :
    sections s m (fun j x => lens.foldlM
      (fun x len => layerChk len (fun b => bf len (s / (2 * len) * j + b)) x) x) a =
      lens.foldlM (fun a len => layerChk len (bf len) a) a := by
  induction lens generalizing a with
  | nil =>
    simp only [List.foldlM_nil, sections, Chk.tab_pure, map_pure]
    exact congrArg _ (ofRegs_toRegs hn hs a)
  | cons len lens ih =>
    obtain ⟨⟨hlen, hdvd⟩, h⟩ := List.forall_mem_cons.1 h
    simp only [List.foldlM_cons]
    rw [← sections_bind hn, layerChk_sections hn hs hlen hdvd]
    exact congrArg _ (funext fun a' => ih h a')

/-- What holds of every section that a loop stores holds of the sections of the array. -/
theorem ofRegs_holds (hn : n = s * m) {f : ℕ → Chk (Vector α s)} {P : ℕ → Vector α s → Prop}
    (h : ∀ j < m, Chk.Holds (f j) (P j)) :
    Chk.Holds (ofRegs n <$> Chk.tab m f) fun a => ∀ j < m, P j (a.slice (s * j) s) := by
  have htab := Chk.Holds.tab h
  refine ⟨(Chk.ok_map _ _).trans htab.1, fun j hj => ?_⟩
  rw [Chk.val_map, ← rd_toRegs _ hj, toRegs_ofRegs hn]
  exact htab.2 j hj

/-- A function of every entry, computed section by section. -/
theorem ofRegs_tab (hn : n = s * m) (hs : 0 < s) (f : ℕ → Chk α) :
    (ofRegs n <$> Chk.tab m fun j => Chk.tab s fun i => f (s * j + i)) = Chk.tab n f := by
  refine Chk.ext (ext_lanes hn hs fun j hj i hi => ?_) (Bool.eq_iff_iff.2 ?_)
  · rw [Chk.val_map, rd_ofRegs hn _ hj hi, Chk.val_tab, Chk.val_tab, Vector.rd_tab _ hj,
      Chk.val_tab, Vector.rd_tab _ hi, Vector.rd_tab _ (lane_lt hn hj hi)]
  · simp only [Chk.ok_map, Chk.ok_tab]
    constructor
    · intro h k hk
      have hj : k / s < m := Nat.div_lt_of_lt_mul (by omega)
      have := h (k / s) hj (k % s) (Nat.mod_lt k hs)
      rwa [Nat.div_add_mod] at this
    · exact fun h j hj i hi => h _ (lane_lt hn hj hi)

/-- A function of every entry, applied section by section. -/
theorem sections_tab (hn : n = s * m) (hs : 0 < s) (f : α → Chk α) (a : Vector α n) :
    sections s m (fun _ x => Chk.tab s fun i => f (x.rd i)) a = Chk.tab n fun k => f (a.rd k) := by
  rw [← ofRegs_tab hn hs, sections]
  refine congrArg _ (Chk.tab_congr fun j hj => Chk.tab_congr fun i hi => ?_)
  rw [Vector.rd_slice _ _ hi]

/-- A loop that stores its results section by section, from `o` on. -/
theorem foldlM_splice (o : ℕ) (g : ℕ → Vector α s → Chk (Vector α s)) (hs : 0 < s)
    (h : o + s * m ≤ n) (a : Vector α n) :
    (List.range m).foldlM (fun a j => do
        let v ← g j (a.slice (o + s * j) s)
        pure (a.splice (o + s * j) v)) a =
      (fun v => a.splice o (ofRegs (s * m) v)) <$>
        Chk.tab m fun j => g j (a.slice (o + s * j) s) := by
  set f : Vector α n → ℕ → Chk (Vector α n) := fun a j => do
    let v ← g j (a.slice (o + s * j) s)
    pure (a.splice (o + s * j) v)
  -- after `j` turns the sections below `j` hold their results
  have hinv : ∀ j ≤ m, (∀ k < n, ((List.range j).foldlM f a).val.rd k =
        if o ≤ k ∧ k < o + s * j then
          (g ((k - o) / s) (a.slice (o + s * ((k - o) / s)) s)).val.rd ((k - o) % s)
        else a.rd k) ∧
      (((List.range j).foldlM f a).ok = true ↔
        ∀ i < j, (g i (a.slice (o + s * i) s)).ok = true) := by
    intro j
    induction j with
    | zero => exact fun _ => ⟨fun k _ => by rw [if_neg (by omega)]; rfl, by simp⟩
    | succ j ih =>
      intro hj
      obtain ⟨ihval, ihok⟩ := ih (by omega)
      have hle : o + s * j + s ≤ o + s * m := by
        have := Nat.mul_le_mul_left s hj
        rw [mul_add, mul_one] at this
        omega
      have hslice : ((List.range j).foldlM f a).val.slice (o + s * j) s = a.slice (o + s * j) s :=
        Vector.ext_rd fun i hi => by
          rw [Vector.rd_slice _ _ hi, Vector.rd_slice _ _ hi, ihval _ (by omega),
            if_neg (by omega)]
      rw [Chk.foldlM_range_succ]
      constructor
      · intro k hk
        simp only [f, Chk.val_bind, Chk.val_pure]
        rw [hslice, Vector.rd_splice _ _ _ hk, ihval k hk, mul_add, mul_one]
        by_cases hkj : o + s * j ≤ k ∧ k < o + s * j + s
        · obtain ⟨i, rfl⟩ := Nat.exists_eq_add_of_le hkj.1
          have hi : i < s := by omega
          rw [if_pos hkj, if_pos (by omega), show o + s * j + i - o = s * j + i by omega,
            show o + s * j + i - (o + s * j) = i by omega, lane_div hi, lane_mod hi]
        · rw [if_neg hkj]
          exact if_congr (by omega) rfl rfl
      · simp only [f, Chk.ok_bind, Chk.ok_pure, Bool.and_true, Bool.and_eq_true, ihok, hslice,
          Nat.lt_succ_iff_lt_or_eq, or_imp, forall_and, forall_eq]
  obtain ⟨hval, hok⟩ := hinv m le_rfl
  refine Chk.ext (Vector.ext_rd fun k hk => ?_) (Bool.eq_iff_iff.2 ?_)
  · rw [hval k hk, Chk.val_map, Vector.rd_splice _ _ _ hk, Chk.val_tab]
    by_cases hkm : o ≤ k ∧ k < o + s * m
    · have hdiv : (k - o) / s < m := Nat.div_lt_of_lt_mul (by omega)
      rw [if_pos hkm, if_pos hkm, ofRegs, Vector.rd_tab _ (by omega), Vector.rd_tab _ hdiv]
    · rw [if_neg hkm, if_neg hkm]
  · rw [hok, Chk.ok_map, Chk.ok_tab]

/-- Storing a bank of registers, from `o` on. -/
theorem foldl_splice (o : ℕ) (hs : 0 < s) (h : o + s * m ≤ n) (v : Vector (Vector α s) m)
    (a : Vector α n) :
    (List.range m).foldl (fun a j => a.splice (o + s * j) (v.rd j)) a =
      a.splice o (ofRegs (s * m) v) := by
  have := congrArg Chk.val (foldlM_splice o (fun j _ => pure (v.rd j)) hs h a)
  rwa [Chk.val_foldlM, Chk.tab_pure, Vector.tab_rd] at this

/-- A loop over all sections, each read and then overwritten. -/
theorem foldlM_sections (hn : n = s * m) (hs : 0 < s)
    (g : ℕ → Vector α s → Chk (Vector α s)) (a : Vector α n) :
    (List.range m).foldlM (fun a j => do
        let v ← g j (a.slice (s * j) s)
        pure (a.splice (s * j) v)) a = sections s m g a := by
  subst hn
  have h := foldlM_splice 0 g hs (show 0 + s * m ≤ s * m by omega) a
  simp only [zero_add] at h
  rw [h, sections]
  refine congrArg (· <$> _) (funext fun v => Vector.ext_rd fun k hk => ?_)
  rw [Vector.rd_splice _ _ _ hk, if_pos (by omega), Nat.sub_zero]

end Sections

/-! ## Inside a register pair -/

/-- The array whose entry `i` is entry `idx i` of `a`. -/
def gather {n m : ℕ} (a : Vector α n) (idx : Vector ℕ m) : Vector α m :=
  Vector.tab m fun i => a.rd (idx.rd i)

theorem gather_gather {n m k : ℕ} (a : Vector α n) (idx : Vector ℕ m) (idx' : Vector ℕ k)
    (h : ∀ i < k, idx'.rd i < m) : gather (gather a idx) idx' = gather a (gather idx idx') := by
  refine Vector.tab_congr fun i hi => ?_
  rw [gather, Vector.rd_tab _ (h i hi), gather, Vector.rd_tab _ hi]

/-- Two registers as one of twice the lanes. -/
def pair {w : ℕ} (u v : Vector α w) : Vector α (w + w) :=
  Vector.tab (w + w) fun k => if k < w then u.rd k else v.rd (k - w)

@[simp] theorem slice_pair_zero {w : ℕ} (u v : Vector α w) : (pair u v).slice 0 w = u := by
  refine Vector.ext_rd fun i hi => ?_
  rw [Vector.rd_slice _ _ hi, zero_add, pair, Vector.rd_tab _ (by omega), if_pos hi]

@[simp] theorem slice_pair_self {w : ℕ} (u v : Vector α w) : (pair u v).slice w w = v := by
  refine Vector.ext_rd fun i hi => ?_
  rw [Vector.rd_slice _ _ hi, pair, Vector.rd_tab _ (by omega), if_neg (by omega),
    Nat.add_sub_cancel_left]

/-- The butterfly of the two halves of a register pair. -/
def pairStep {w : ℕ} (bf : τ → α → α → Chk (α × α)) (z : ℕ → τ) (x : Vector α (w + w)) :
    Chk (Vector α (w + w)) :=
  (fun p => pair p.1 p.2) <$> laneBfly bf z (x.slice 0 w) (x.slice w w)

/-- The pairs that meet in the lanes of a register pair permuted by `idx`. -/
def gatherOps (w : ℕ) {n : ℕ} (z : ℕ → τ) (idx : Vector ℕ n) : List (Op τ) :=
  (List.range w).map fun l => ⟨idx.rd l, idx.rd (w + l), z l⟩

/-- **Inside a register pair** the butterfly of the halves is a layer, seen
through the permutation that brought the ends of the pairs together. -/
theorem pairStep_gather {w len : ℕ} (bf : τ → α → α → Chk (α × α)) {z : ℕ → τ} {tw : ℕ → τ}
    {idx : Vector ℕ (w + w)} (hlen : 0 < len) (h : IsLayer (w + w) len tw (gatherOps w z idx))
    (x : Vector α (w + w)) :
    pairStep bf z (gather x idx) =
      (fun y => gather y idx) <$> layerChk len (fun b => bf (tw b)) x := by
  have hspec := run_spec bf _ (fun o ho => by
    obtain ⟨h1, h2, h3, -⟩ := h.pair o ho
    exact ⟨by omega, by omega, h3⟩) h.apart x
  have hmem : ∀ l < w, (⟨idx.rd l, idx.rd (w + l), z l⟩ : Op τ) ∈ gatherOps w z idx := fun l hl =>
    List.mem_map.2 ⟨l, List.mem_range.2 hl, rfl⟩
  have hlo : ∀ l < w, ((gather x idx).slice 0 w).rd l = x.rd (idx.rd l) := by
    intro l hl
    rw [Vector.rd_slice _ _ hl, zero_add, gather, Vector.rd_tab _ (by omega)]
  have hhi : ∀ l < w, ((gather x idx).slice w w).rd l = x.rd (idx.rd (w + l)) := by
    intro l hl
    rw [Vector.rd_slice _ _ hl, gather, Vector.rd_tab _ (by omega)]
  rw [← run_isLayer bf hlen h]
  refine Chk.ext (Vector.ext_rd fun k hk => ?_) (Bool.eq_iff_iff.2 ?_)
  · have hr : ((fun y => gather y idx) <$> run bf (gatherOps w z idx) x).val.rd k =
        (run bf (gatherOps w z idx) x).val.rd (idx.rd k) := Vector.rd_tab _ hk
    rw [hr, pairStep, Chk.val_map, pair, Vector.rd_tab _ hk]
    by_cases hkw : k < w
    · rw [if_pos hkw, laneBfly_fst _ _ _ _ hkw, hlo k hkw, hhi k hkw]
      exact (hspec.lo _ (hmem k hkw)).symm
    · obtain ⟨l, rfl⟩ := Nat.exists_eq_add_of_le (not_lt.1 hkw)
      have hl : l < w := by omega
      rw [if_neg hkw, Nat.add_sub_cancel_left, laneBfly_snd _ _ _ _ hl, hlo l hl, hhi l hl]
      exact (hspec.hi _ (hmem l hl)).symm
  · rw [pairStep, Chk.ok_map, laneBfly_ok, Chk.ok_map, hspec.ok, gatherOps, List.forall_mem_map]
    simp only [List.mem_range]
    exact forall₂_congr fun l hl => by rw [hlo l hl, hhi l hl]

/-- Twiddles do not matter for which pairs meet where. -/
theorem isLayer_gatherOps {w n len : ℕ} {idx : Vector ℕ n} {z tw : ℕ → τ}
    (h : IsLayer n len (fun _ => ()) (gatherOps w (fun _ => ()) idx))
    (hz : ∀ l < w, z l = tw (idx.rd l / (2 * len))) : IsLayer n len tw (gatherOps w z idx) where
  apart := by
    have := h.apart
    rw [gatherOps, List.pairwise_map] at this ⊢
    exact this
  pair := by
    intro o ho
    obtain ⟨l, hl, rfl⟩ := List.mem_map.1 ho
    obtain ⟨h1, h2, h3, -⟩ := h.pair _ (List.mem_map.2 ⟨l, hl, rfl⟩)
    exact ⟨h1, h2, h3, hz l (List.mem_range.1 hl)⟩
  mem := by
    intro k hk hlo
    obtain ⟨l, hl, h⟩ := List.mem_map.1 (h.mem k hk hlo)
    simp only [Op.mk.injEq, and_true] at h
    refine List.mem_map.2 ⟨l, hl, ?_⟩
    rw [hz l (List.mem_range.1 hl), h.1, h.2]

/-- Permute, then run the butterfly of the halves; and so on. -/
def permSteps {w : ℕ} (bf : τ → α → α → Chk (α × α)) :
    List (Vector ℕ (w + w) × (ℕ → τ)) → Vector α (w + w) → Chk (Vector α (w + w))
  | [], x => pure x
  | (p, z) :: steps, x => pairStep bf z (gather x p) >>= permSteps bf steps

/-- Started on an array seen through `idx`, the permutations bring together the
pairs at the distances `lens` one after the other, and end seeing the array
through `idx'`. -/
def Meets {w : ℕ} : Vector ℕ (w + w) → List (Vector ℕ (w + w)) → List ℕ → Vector ℕ (w + w) → Prop
  | idx, [], [], idx' => idx = idx'
  | idx, p :: perms, len :: lens, idx' =>
    (0 < len ∧ (∀ i < w + w, p.rd i < w + w) ∧
      IsLayer (w + w) len (fun _ => ()) (gatherOps w (fun _ => ()) (gather idx p))) ∧
      Meets (gather idx p) perms lens idx'
  | _, _, _, _ => False

/-- The lanes of each step hold the twiddles of the blocks they work on. -/
def Twiddled {w : ℕ} : Vector ℕ (w + w) → List (Vector ℕ (w + w) × (ℕ → τ)) →
    List (ℕ × (ℕ → τ)) → Prop
  | idx, (p, z) :: steps, (len, tw) :: layers =>
    (∀ l < w, z l = tw ((gather idx p).rd l / (2 * len))) ∧ Twiddled (gather idx p) steps layers
  | _, _, _ => True

/-- `Meets` is a finite check. -/
def decMeets {w : ℕ} : ∀ (idx : Vector ℕ (w + w)) (perms : List (Vector ℕ (w + w)))
    (lens : List ℕ) (idx' : Vector ℕ (w + w)), Decidable (Meets idx perms lens idx')
  | idx, [], [], idx' => inferInstanceAs (Decidable (idx = idx'))
  | idx, p :: perms, _ :: lens, idx' =>
    have := decMeets (gather idx p) perms lens idx'
    inferInstanceAs (Decidable (_ ∧ _))
  | _, [], _ :: _, _ => isFalse fun h => by cases h
  | _, _ :: _, [], _ => isFalse fun h => by cases h

/-- `Twiddled` is a finite check. -/
def decTwiddled {w : ℕ} [DecidableEq τ] : ∀ (idx : Vector ℕ (w + w))
    (steps : List (Vector ℕ (w + w) × (ℕ → τ))) (layers : List (ℕ × (ℕ → τ))),
    Decidable (Twiddled idx steps layers)
  | idx, (p, _) :: steps, (_, _) :: layers =>
    have := decTwiddled (gather idx p) steps layers
    inferInstanceAs (Decidable (_ ∧ _))
  | _, [], [] => isTrue trivial
  | _, [], _ :: _ => isTrue trivial
  | _, _ :: _, [] => isTrue trivial

instance {w : ℕ} (idx : Vector ℕ (w + w)) (perms : List (Vector ℕ (w + w))) (lens : List ℕ)
    (idx' : Vector ℕ (w + w)) : Decidable (Meets idx perms lens idx') :=
  decMeets idx perms lens idx'

instance {w : ℕ} [DecidableEq τ] (idx : Vector ℕ (w + w))
    (steps : List (Vector ℕ (w + w) × (ℕ → τ))) (layers : List (ℕ × (ℕ → τ))) :
    Decidable (Twiddled idx steps layers) :=
  decTwiddled idx steps layers

/-- **A chain of permuted butterflies is a chain of layers.** -/
theorem permSteps_eq {w : ℕ} (bf : τ → α → α → Chk (α × α)) :
    ∀ {idx : Vector ℕ (w + w)} {steps : List (Vector ℕ (w + w) × (ℕ → τ))}
      {layers : List (ℕ × (ℕ → τ))} {idx' : Vector ℕ (w + w)},
      Meets idx (steps.map Prod.fst) (layers.map Prod.fst) idx' → Twiddled idx steps layers →
      ∀ x : Vector α (w + w), permSteps bf steps (gather x idx) =
        (fun y => gather y idx') <$>
          layers.foldlM (fun x l => layerChk l.1 (fun b => bf (l.2 b)) x) x
  | _, [], [], _, h, _, x => by
    cases h
    rfl
  | idx, (p, z) :: steps, (len, tw) :: layers, idx', ⟨⟨hlen, hp, hl⟩, h⟩, ⟨hz, hzs⟩, x => by
    rw [permSteps, gather_gather x idx p hp, pairStep_gather bf hlen (isLayer_gatherOps hl hz),
      bind_map_left, List.foldlM_cons, map_bind]
    exact congrArg _ (funext fun y => permSteps_eq bf h hzs y)

/-- Layers whose butterflies leave the same values leave the same array. -/
theorem val_layers_congr {n : ℕ} {bf bf' : ℕ → ℕ → α → α → Chk (α × α)}
    (h : ∀ len b u v, (bf len b u v).val = (bf' len b u v).val) (lens : List ℕ) (a : Vector α n) :
    (lens.foldlM (fun a len => layerChk len (bf len) a) a).val =
      (lens.foldlM (fun a len => layerChk len (bf' len) a) a).val := by
  simp only [Chk.val_foldlM, val_layerChk, h]

/-- A function of every entry does not see a permutation of the entries. -/
theorem tab_gather {n : ℕ} (f : α → Chk α) (x : Vector α n) {idx : Vector ℕ n}
    (h : ∀ i < n, idx.rd i < n) (hsurj : ∀ k < n, ∃ i < n, idx.rd i = k) :
    (Chk.tab n fun i => f ((gather x idx).rd i)) =
      (fun y => gather y idx) <$> Chk.tab n fun i => f (x.rd i) := by
  refine Chk.ext (Vector.ext_rd fun i hi => ?_) (Bool.eq_iff_iff.2 ?_)
  · rw [Chk.val_tab, Vector.rd_tab _ hi, Chk.val_map, gather, Vector.rd_tab _ hi, gather,
      Vector.rd_tab _ hi, Chk.val_tab, Vector.rd_tab _ (h i hi)]
  · rw [Chk.ok_map, Chk.ok_tab, Chk.ok_tab]
    constructor
    · intro hok k hk
      obtain ⟨i, hi, rfl⟩ := hsurj k hk
      have := hok i hi
      rwa [gather, Vector.rd_tab _ hi] at this
    · intro hok i hi
      rw [gather, Vector.rd_tab _ hi]
      exact hok _ (h i hi)

theorem gather_id {n : ℕ} (x : Vector α n) (idx : Vector ℕ n) (h : ∀ i < n, idx.rd i = i) :
    gather x idx = x :=
  Vector.ext_rd fun i hi => by rw [gather, Vector.rd_tab _ hi, h i hi]

end Butterfly
