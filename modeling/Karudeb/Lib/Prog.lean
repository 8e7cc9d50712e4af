import Karudeb.Lib.Checked

/-!
# Programs that need not end

A loop that runs until its input pleases it has no bound to recurse on.  `Prog`
is a program run on a bounded amount of fuel: a run out of fuel has no result,
and a run that has one keeps it on any larger amount (the field `mono`), so a
program has at most one result however it is run (`returns_unique`).

* `Returns p a` says that some amount of fuel gives `a`.  It commutes with
  sequencing (`returns_bind`), with arrays (`returns_tab`) and with loops, where
  it is the derivation `LoopsTo` (`returns_loop`).
* `Safe p P` says that on no amount of fuel a check fails, and that a result, if
  there is one, satisfies `P`.  Its loop rule is that of invariants
  (`Safe.loop`).
* `Fails p` says that a check fails on any amount of fuel.
-/

/-- The outcome of a run on a bounded amount of fuel: its result, if it came to
one, and whether every check made up to there passed. -/
structure Exec (α : Type) where
  /-- The result, or nothing when the fuel ran out. -/
  res : Option α
  /-- Whether every check passed. -/
  ok : Bool

/-- A program, run on a bounded amount of fuel. -/
structure Prog (α : Type) where
  /-- The outcome on a given amount of fuel. -/
  run : ℕ → Exec α
  /-- More fuel never takes a result away. -/
  mono : ∀ {n m : ℕ} {a : α}, n ≤ m → (run n).res = some a → (run m).res = some a

namespace Prog

variable {α β σ : Type}

/-- A program that uses no fuel. -/
def ofExec (x : Exec α) : Prog α := ⟨fun _ => x, fun _ h => h⟩

/-- Sequencing of outcomes. -/
def andThen (x : Exec α) (f : α → Exec β) : Exec β :=
  match x.res with
  | none => ⟨none, x.ok⟩
  | some a => ⟨(f a).res, x.ok && (f a).ok⟩

theorem andThen_res (x : Exec α) (f : α → Exec β) :
    (andThen x f).res = x.res.bind fun a => (f a).res := by
  unfold andThen
  cases x.res <;> rfl

theorem andThen_eq_some {x : Exec α} {f : α → Exec β} {b : β} :
    (andThen x f).res = some b ↔ ∃ a, x.res = some a ∧ (f a).res = some b := by
  rw [andThen_res, Option.bind_eq_some_iff]

instance instMonadProg : Monad Prog where
  pure a := ofExec ⟨some a, true⟩
  bind x f :=
    { run := fun n => andThen (x.run n) fun a => (f a).run n
      mono := by
        intro n m b hnm h
        obtain ⟨a, ha, hb⟩ := andThen_eq_some.1 h
        exact andThen_eq_some.2 ⟨a, x.mono hnm ha, (f a).mono hnm hb⟩ }

instance instMonadLiftChk : MonadLift Chk Prog := ⟨fun x => ofExec ⟨some x.val, x.ok⟩⟩

/-! ## Loops -/

/-- At most `k` turns of a loop whose body says whether to go on. -/
def loopRun (body : σ → Exec (σ ⊕ α)) : ℕ → σ → Exec α
  | 0, _ => ⟨none, true⟩
  | k + 1, s => andThen (body s) fun
    | .inl s' => loopRun body k s'
    | .inr a => ⟨some a, true⟩

theorem loopRun_mono {body body' : σ → Exec (σ ⊕ α)}
    (h : ∀ s r, (body s).res = some r → (body' s).res = some r) {k k' : ℕ} (hk : k ≤ k') {s : σ}
    {a : α} (hr : (loopRun body k s).res = some a) : (loopRun body' k' s).res = some a := by
  induction k generalizing k' s with
  | zero => simp [loopRun] at hr
  | succ k ih =>
    obtain ⟨j, rfl⟩ : ∃ j, k' = j + 1 := ⟨k' - 1, by omega⟩
    obtain ⟨r, hb, hr⟩ := andThen_eq_some.1 hr
    refine andThen_eq_some.2 ⟨r, h s r hb, ?_⟩
    rcases r with s' | b
    · exact ih (by omega) hr
    · exact hr

/-- Run `body` again and again, until it gives a result. -/
def loop (body : σ → Prog (σ ⊕ α)) (s : σ) : Prog α where
  run n := loopRun (fun s => (body s).run n) n s
  mono := by
    intro n m a hnm h
    exact loopRun_mono (fun s r => (body s).mono hnm) hnm h

/-- Fill an array with the results of programs. -/
def tab [Inhabited α] (n : ℕ) (f : ℕ → Prog α) : Prog (Vector α n) where
  run k := ⟨Vector.tabOpt n fun i => ((f i).run k).res, (List.range n).all fun i => ((f i).run k).ok⟩
  mono := by
    intro k m v hkm h
    rw [Vector.tabOpt_eq_some] at h ⊢
    intro i hi
    exact (f i).mono hkm (h i hi)

/-! ## Results -/

/-- Some amount of fuel gives the result `a`. -/
def Returns (p : Prog α) (a : α) : Prop := ∃ n, (p.run n).res = some a

theorem returns_unique {p : Prog α} {a b : α} (ha : Returns p a) (hb : Returns p b) : a = b := by
  obtain ⟨n, hn⟩ := ha
  obtain ⟨m, hm⟩ := hb
  have h1 := p.mono (le_max_left n m) hn
  have h2 := p.mono (le_max_right n m) hm
  rw [h1] at h2
  exact Option.some.inj h2

@[simp] theorem returns_pure {a b : α} : Returns (pure a) b ↔ a = b := by
  constructor
  · rintro ⟨n, h⟩
    exact Option.some.inj h
  · rintro rfl
    exact ⟨0, rfl⟩

@[simp] theorem returns_lift {x : Chk α} {b : α} : Returns (liftM x : Prog α) b ↔ x.val = b := by
  constructor
  · rintro ⟨n, h⟩
    exact Option.some.inj h
  · rintro rfl
    exact ⟨0, rfl⟩

@[simp] theorem returns_bind {x : Prog α} {f : α → Prog β} {b : β} :
    Returns (x >>= f) b ↔ ∃ a, Returns x a ∧ Returns (f a) b := by
  constructor
  · rintro ⟨n, h⟩
    obtain ⟨a, ha, hb⟩ := andThen_eq_some.1 h
    exact ⟨a, ⟨n, ha⟩, n, hb⟩
  · rintro ⟨a, ⟨n, ha⟩, m, hb⟩
    refine ⟨max n m, andThen_eq_some.2 ⟨a, ?_, ?_⟩⟩
    · exact x.mono (le_max_left n m) ha
    · exact (f a).mono (le_max_right n m) hb

@[simp] theorem returns_map {x : Prog α} {f : α → β} {b : β} :
    Returns (f <$> x) b ↔ ∃ a, Returns x a ∧ f a = b := by
  have h : f <$> x = x >>= fun a => pure (f a) := rfl
  rw [h, returns_bind]
  simp only [returns_pure]

/-- A loop comes to the result `a`. -/
inductive LoopsTo (body : σ → Prog (σ ⊕ α)) : σ → α → Prop
  | done {s : σ} {a : α} (h : Returns (body s) (.inr a)) : LoopsTo body s a
  | next {s s' : σ} {a : α} (h : Returns (body s) (.inl s')) (h' : LoopsTo body s' a) :
    LoopsTo body s a

theorem loopsTo_of_loopRun {body : σ → Prog (σ ⊕ α)} {n k : ℕ} {s : σ} {a : α}
    (h : (loopRun (fun s => (body s).run n) k s).res = some a) : LoopsTo body s a := by
  induction k generalizing s with
  | zero => simp [loopRun] at h
  | succ k ih =>
    obtain ⟨r, hb, hr⟩ := andThen_eq_some.1 h
    rcases r with s' | b
    · exact .next ⟨n, hb⟩ (ih hr)
    · cases hr
      exact .done ⟨n, hb⟩

/-- **What a loop returns** is what some number of turns leads to. -/
theorem returns_loop {body : σ → Prog (σ ⊕ α)} {s : σ} {a : α} :
    Returns (loop body s) a ↔ LoopsTo body s a := by
  constructor
  · rintro ⟨n, h⟩
    exact loopsTo_of_loopRun h
  · intro h
    induction h with
    | done h =>
      obtain ⟨n, hn⟩ := h
      refine ⟨n + 1, andThen_eq_some.2 ⟨_, (body _).mono (Nat.le_succ n) hn, rfl⟩⟩
    | next h _ ih =>
      obtain ⟨n, hn⟩ := h
      obtain ⟨m, hm⟩ := ih
      refine ⟨max n m + 1, andThen_eq_some.2 ⟨_, (body _).mono (by omega) hn, ?_⟩⟩
      exact loopRun_mono (fun s r => (body s).mono (by omega)) (le_max_right n m) hm

/-- A loop that goes on goes on from where its body left it. -/
theorem returns_loop_next {body : σ → Prog (σ ⊕ α)} {s s' : σ} (h : body s = pure (.inl s')) {a : α} :
    Returns (loop body s) a ↔ Returns (loop body s') a := by
  rw [returns_loop, returns_loop]
  constructor
  · intro hs
    cases hs with
    | done hdone =>
      rw [h, returns_pure] at hdone
      cases hdone
    | next hnext hs' =>
      rw [h, returns_pure] at hnext
      cases hnext
      exact hs'
  · exact LoopsTo.next (h ▸ returns_pure.2 rfl)

/-- A loop that ends returns what its body gave. -/
theorem returns_loop_done {body : σ → Prog (σ ⊕ α)} {s : σ} {b : α} (h : body s = pure (.inr b)) {a : α} :
    Returns (loop body s) a ↔ b = a := by
  rw [returns_loop]
  constructor
  · intro hs
    cases hs with
    | done hdone =>
      rw [h, returns_pure] at hdone
      exact Sum.inr.inj hdone
    | next hnext _ =>
      rw [h, returns_pure] at hnext
      cases hnext
  · rintro rfl
    exact LoopsTo.done (h ▸ returns_pure.2 rfl)

/-- **Simulation.**  A loop that another one follows turn by turn leads to what the
other leads to. -/
theorem LoopsTo.sim {τ : Type} {body : σ → Prog (σ ⊕ α)} {body' : τ → Prog (τ ⊕ β)}
    (R : σ → τ → Prop) (Q : α → β → Prop)
    (hstep : ∀ s t, R s t → ∀ x, Returns (body s) x →
      ∃ y, Returns (body' t) y ∧ Sum.LiftRel R Q x y) {s : σ} {t : τ} {a : α}
    (h : LoopsTo body s a) (hR : R s t) : ∃ b, LoopsTo body' t b ∧ Q a b := by
  induction h generalizing t with
  | done h =>
    obtain ⟨y, hy, hrel⟩ := hstep _ t hR _ h
    cases hrel with
    | inr hQ => exact ⟨_, .done hy, hQ⟩
  | next h _ ih =>
    obtain ⟨y, hy, hrel⟩ := hstep _ t hR _ h
    cases hrel with
    | inl hR' =>
      obtain ⟨b, hb, hQ⟩ := ih hR'
      exact ⟨b, .next hy hb, hQ⟩

/-- Two loops that stay related turn by turn give related results. -/
theorem loopsTo_iff {τ : Type} {body : σ → Prog (σ ⊕ α)} (body' : τ → Prog (τ ⊕ β))
    (R : σ → τ → Prop) (out : β → α) (hstep : ∀ s t, R s t → ∃ x y, Returns (body s) x ∧
      Returns (body' t) y ∧ Sum.LiftRel R (fun a b => a = out b) x y) {s : σ} {t : τ} {a : α}
    (hR : R s t) : LoopsTo body s a ↔ ∃ b, LoopsTo body' t b ∧ a = out b := by
  constructor
  · intro h
    refine h.sim R (fun a b => a = out b) (fun s t hst x' hx' => ?_) hR
    obtain ⟨x, y, hx, hy, hxy⟩ := hstep s t hst
    rw [returns_unique hx' hx]
    exact ⟨y, hy, hxy⟩
  · rintro ⟨b, h, rfl⟩
    have hback : ∃ a, LoopsTo body s a ∧ a = out b := by
      refine h.sim (fun t s => R s t) (fun b a => a = out b) (fun t s hst y' hy' => ?_) hR
      obtain ⟨x, y, hx, hy, hxy⟩ := hstep s t hst
      rw [returns_unique hy' hy]
      refine ⟨x, hx, ?_⟩
      cases hxy with
      | inl h => exact .inl h
      | inr h => exact .inr h
    obtain ⟨a, ha, rfl⟩ := hback
    exact ha

/-- **The first turn that passes.**  Turn `n` of a loop makes a choice that `G n` allows, and
ends the loop where `P n` holds of it; what it gives does not depend on what the turns before
left behind. -/
theorem returns_loop_first {γ : Type} {body : σ → Prog (σ ⊕ α)} (I : ℕ → σ → Prop)
    (G P : ℕ → γ → Prop) (next : σ → ℕ → γ → σ) (out : ℕ → γ → α)
    (hbody : ∀ n s, I n s → ∀ x, Returns (body s) x ↔
      ∃ c, G n c ∧ (¬P n c ∧ x = .inl (next s n c) ∨ P n c ∧ x = .inr (out n c)))
    (hnext : ∀ n s c, I n s → I (n + 1) (next s n c)) {n : ℕ} {s : σ} (hs : I n s) {a : α} :
    Returns (loop body s) a ↔ ∃ (c : ℕ → γ) (m : ℕ), (∀ l ≤ m, G (n + l) (c l)) ∧
      (∀ l < m, ¬P (n + l) (c l)) ∧ P (n + m) (c m) ∧ a = out (n + m) (c m) := by
  rw [returns_loop]
  constructor
  · intro h
    induction h generalizing n with
    | done h =>
      obtain ⟨c, hG, ⟨-, hx⟩ | ⟨hP, hx⟩⟩ := (hbody _ _ hs _).1 h
      · cases hx
      · refine ⟨fun _ => c, 0, fun l hl => ?_, fun l hl => absurd hl (Nat.not_lt_zero l), hP,
          Sum.inr.inj hx⟩
        rwa [Nat.le_zero.1 hl]
    | next h _ ih =>
      obtain ⟨c, hG, ⟨hP, hx⟩ | ⟨-, hx⟩⟩ := (hbody _ _ hs _).1 h
      · cases hx
        obtain ⟨c', m, hG', hP', hPm, ha⟩ := ih (hnext _ _ c hs)
        have hadd : ∀ l, n + 1 + l = n + (l + 1) := fun l => by omega
        simp only [hadd] at hG' hP' hPm ha
        refine ⟨fun l => Nat.casesOn l c c', m + 1, fun l hl => ?_, fun l hl => ?_, hPm, ha⟩
        · cases l with
          | zero => exact hG
          | succ l => exact hG' l (by omega)
        · cases l with
          | zero => exact hP
          | succ l => exact hP' l (by omega)
      · cases hx
  · rintro ⟨c, m, hG, hP, hPm, rfl⟩
    induction m generalizing n s c with
    | zero => exact .done ((hbody n s hs _).2 ⟨c 0, hG 0 le_rfl, .inr ⟨hPm, rfl⟩⟩)
    | succ m ih =>
      refine .next ((hbody n s hs _).2 ⟨c 0, hG 0 (by omega), .inl ⟨hP 0 (by omega), rfl⟩⟩) ?_
      have hadd : ∀ l, n + (l + 1) = n + 1 + l := fun l => by omega
      rw [hadd] at hPm ⊢
      refine ih (hnext _ _ _ hs) (fun l => c (l + 1)) (fun l hl => ?_) (fun l hl => ?_) hPm
      · exact hadd l ▸ hG (l + 1) (by omega)
      · exact hadd l ▸ hP (l + 1) (by omega)

/-- A common amount of fuel for finitely many results. -/
theorem exists_fuel {n : ℕ} {f : ℕ → Prog α} {v : ℕ → α} (h : ∀ i < n, Returns (f i) (v i)) :
    ∃ k, ∀ i < n, ((f i).run k).res = some (v i) := by
  induction n with
  | zero => exact ⟨0, fun i hi => absurd hi (Nat.not_lt_zero i)⟩
  | succ n ih =>
    obtain ⟨k, hk⟩ := ih fun i hi => h i (by omega)
    obtain ⟨m, hm⟩ := h n (Nat.lt_succ_self n)
    refine ⟨max k m, fun i hi => ?_⟩
    rcases Nat.lt_succ_iff_lt_or_eq.1 hi with hi | rfl
    · exact (f i).mono (le_max_left k m) (hk i hi)
    · exact (f i).mono (le_max_right k m) hm

@[simp] theorem returns_tab [Inhabited α] {n : ℕ} {f : ℕ → Prog α} {v : Vector α n} :
    Returns (tab n f) v ↔ ∀ i < n, Returns (f i) (v.rd i) := by
  constructor
  · rintro ⟨k, h⟩ i hi
    exact ⟨k, Vector.tabOpt_eq_some.1 h i hi⟩
  · intro h
    obtain ⟨k, hk⟩ := exists_fuel h
    exact ⟨k, Vector.tabOpt_eq_some.2 hk⟩

theorem returns_foldlM_range' {f : σ → ℕ → Prog σ} {a n : ℕ} {s r : σ} :
    Returns ((List.range' a n).foldlM f s) r ↔
      ∃ t : ℕ → σ, t 0 = s ∧ (∀ m < n, Returns (f (t m) (a + m)) (t (m + 1))) ∧ t n = r := by
  induction n generalizing a s with
  | zero =>
    rw [List.range'_zero, List.foldlM_nil, returns_pure]
    constructor
    · rintro rfl
      exact ⟨fun _ => s, rfl, fun m hm => absurd hm (Nat.not_lt_zero m), rfl⟩
    · rintro ⟨t, rfl, -, rfl⟩
      rfl
  | succ n ih =>
    rw [List.range'_succ, List.foldlM_cons, returns_bind]
    constructor
    · rintro ⟨s', hs', h⟩
      obtain ⟨t, rfl, ht, rfl⟩ := ih.1 h
      refine ⟨fun m => Nat.casesOn m s t, rfl, fun m hm => ?_, rfl⟩
      rcases m with _ | m
      · exact hs'
      · have hstep := ht m (by omega)
        rwa [show a + 1 + m = a + (m + 1) by omega] at hstep
    · rintro ⟨t, rfl, ht, rfl⟩
      refine ⟨t 1, ht 0 (Nat.succ_pos n), ih.2 ⟨fun m => t (m + 1), rfl, fun m hm => ?_, rfl⟩⟩
      have hstep := ht (m + 1) (by omega)
      rwa [show a + (m + 1) = a + 1 + m by omega] at hstep

/-- A bounded loop goes through the states `t 0, ..., t n`. -/
theorem returns_foldlM {f : σ → ℕ → Prog σ} {n : ℕ} {s r : σ} :
    Returns ((List.range n).foldlM f s) r ↔
      ∃ t : ℕ → σ, t 0 = s ∧ (∀ m < n, Returns (f (t m) m) (t (m + 1))) ∧ t n = r := by
  rw [List.range_eq_range', returns_foldlM_range']
  simp only [Nat.zero_add]

/-- A loop over the images of the states of another one leads to the images of its results. -/
theorem returns_foldlM_map {τ : Type} {f : σ → β → Prog σ} {f' : τ → β → Prog τ} (g : σ → τ)
    {l : List β} (h : ∀ s, ∀ b ∈ l, ∀ t, Returns (f' (g s) b) t ↔ ∃ r, Returns (f s b) r ∧ g r = t)
    {s : σ} {t : τ} :
    Returns (l.foldlM f' (g s)) t ↔ ∃ r, Returns (l.foldlM f s) r ∧ g r = t := by
  induction l generalizing s with
  | nil => simp only [List.foldlM_nil, returns_pure, exists_eq_left']
  | cons b l ih =>
    have ih := fun s => ih (fun s b hb => h s b (List.mem_cons_of_mem _ hb)) (s := s)
    simp only [List.foldlM_cons, returns_bind, h s b List.mem_cons_self]
    constructor
    · rintro ⟨_, ⟨s', hs', rfl⟩, ht⟩
      obtain ⟨r, hr, rfl⟩ := (ih s').1 ht
      exact ⟨r, ⟨s', hs', hr⟩, rfl⟩
    · rintro ⟨r, ⟨s', hs', hr⟩, rfl⟩
      exact ⟨g s', ⟨s', hs', rfl⟩, (ih s').2 ⟨r, hr, rfl⟩⟩

/-! ## Safety -/

/-- No check fails, on any amount of fuel, and a result satisfies `P`. -/
def Safe (p : Prog α) (P : α → Prop) : Prop :=
  ∀ n, (p.run n).ok = true ∧ ∀ a, (p.run n).res = some a → P a

/-- `Safe`, for one outcome. -/
def SafeExec (x : Exec α) (P : α → Prop) : Prop := x.ok = true ∧ ∀ a, x.res = some a → P a

theorem SafeExec.andThen {x : Exec α} {f : α → Exec β} {P : α → Prop} {Q : β → Prop}
    (hx : SafeExec x P) (hf : ∀ a, P a → SafeExec (f a) Q) : SafeExec (andThen x f) Q := by
  unfold Prog.andThen
  obtain ⟨hok, hres⟩ := hx
  split
  · exact ⟨hok, fun b hb => by simp at hb⟩
  · rename_i a ha
    obtain ⟨hfok, hfres⟩ := hf a (hres a ha)
    exact ⟨by simp [hok, hfok], hfres⟩

namespace Safe

theorem of_returns {p : Prog α} {P : α → Prop} {a : α} (h : Safe p P) (ha : Returns p a) : P a := by
  obtain ⟨n, hn⟩ := ha
  exact (h n).2 a hn

theorem pure {a : α} {P : α → Prop} (h : P a) : Safe (Pure.pure a) P :=
  fun _ => ⟨rfl, fun _ hb => Option.some.inj hb ▸ h⟩

theorem mono {p : Prog α} {P Q : α → Prop} (h : Safe p P) (hPQ : ∀ a, P a → Q a) : Safe p Q :=
  fun n => ⟨(h n).1, fun a ha => hPQ a ((h n).2 a ha)⟩

/-- What is known of every result holds of the results of a safe program. -/
theorem of_forall {p : Prog α} {P : α → Prop} (h : Safe p fun _ => True)
    (hP : ∀ a, Returns p a → P a) : Safe p P :=
  fun n => ⟨(h n).1, fun a ha => hP a ⟨n, ha⟩⟩

theorem map {p : Prog α} {f : α → β} {P : β → Prop} (h : Safe p fun a => P (f a)) : Safe (f <$> p) P :=
  fun n => SafeExec.andThen (h n) fun _ ha => ⟨rfl, fun _ hb => Option.some.inj hb ▸ ha⟩

theorem bind {p : Prog α} {f : α → Prog β} {P : α → Prop} {Q : β → Prop} (hp : Safe p P)
    (hf : ∀ a, P a → Safe (f a) Q) : Safe (p >>= f) Q :=
  fun n => SafeExec.andThen (hp n) fun a ha => hf a ha n

theorem lift {x : Chk α} {P : α → Prop} (h : Chk.Holds x P) : Safe (liftM x : Prog α) P :=
  fun _ => ⟨h.1, fun _ ha => Option.some.inj ha ▸ h.2⟩

theorem lift_pure {x : Chk α} {a : α} {P : α → Prop} (h : x = Pure.pure a) (ha : P a) :
    Safe (liftM x : Prog α) P := by
  rw [h]
  exact lift (Chk.Holds.pure ha)

/-- A step whose value is known. -/
theorem step {x : Chk α} {a : α} {f : α → Prog β} {Q : β → Prop} (h : x = Pure.pure a)
    (hf : Safe (f a) Q) : Safe (liftM x >>= f) Q :=
  (lift_pure (P := fun b => b = a) h rfl).bind fun _ hb => hb ▸ hf

theorem ite {c : Prop} [Decidable c] {p q : Prog α} {P : α → Prop} (hp : c → Safe p P)
    (hq : ¬c → Safe q P) : Safe (if c then p else q) P := by
  split
  · exact hp ‹_›
  · exact hq ‹_›

/-- The rule of invariants. -/
theorem loop {body : σ → Prog (σ ⊕ α)} {P : α → Prop} (I : σ → Prop)
    (h : ∀ s, I s → Safe (body s) (Sum.elim I P)) {s : σ} (hs : I s) : Safe (loop body s) P := by
  intro n
  have hrun : ∀ k s, I s → SafeExec (loopRun (fun s => (body s).run n) k s) P := by
    intro k
    induction k with
    | zero => exact fun s _ => ⟨rfl, fun a ha => by simp [loopRun] at ha⟩
    | succ k ih =>
      intro s hs
      refine SafeExec.andThen (h s hs n) ?_
      rintro (s' | a) hr
      · exact ih s' hr
      · exact ⟨rfl, fun b hb => Option.some.inj hb ▸ hr⟩
  exact hrun n s hs

theorem foldlM {f : σ → β → Prog σ} {l : List β} {s : σ} (I : σ → Prop) (hs : I s)
    (hstep : ∀ s b, I s → Safe (f s b) I) : Safe (l.foldlM f s) I := by
  induction l generalizing s with
  | nil => exact pure hs
  | cons b l ih =>
    rw [List.foldlM_cons]
    exact (hstep s b hs).bind fun s' hs' => ih hs'

theorem tab [Inhabited α] {n : ℕ} {f : ℕ → Prog α} {P : ℕ → α → Prop}
    (h : ∀ i < n, Safe (f i) (P i)) : Safe (Prog.tab n f) fun v => ∀ i < n, P i (v.rd i) := by
  intro k
  constructor
  · simp only [Prog.tab, List.all_eq_true, List.mem_range]
    exact fun i hi => (h i hi k).1
  · intro v hv i hi
    exact (h i hi k).2 _ (Vector.tabOpt_eq_some.1 hv i hi)

end Safe

/-! ## Failure -/

/-- A check fails, on any amount of fuel. -/
def Fails (p : Prog α) : Prop := ∀ n, (p.run n).ok = false

theorem fails_require : Fails (liftM (Chk.require false) : Prog Unit) := fun _ => rfl

/-- What comes behind a failure does not undo it. -/
theorem Fails.bind {p : Prog α} (h : Fails p) (f : α → Prog β) : Fails (p >>= f) := by
  intro n
  change (andThen (p.run n) fun a => (f a).run n).ok = false
  unfold andThen
  split
  · exact h n
  · rw [h n, Bool.false_and]

theorem Fails.not_safe_loop {body : σ → Prog (σ ⊕ α)} {s : σ} (h : Fails (body s)) (P : α → Prop) :
    ¬Safe (loop body s) P := by
  intro hsafe
  obtain ⟨hok, -⟩ := hsafe 1
  have hfail : (loopRun (fun s => (body s).run 1) 1 s).ok = false := by
    unfold loopRun andThen
    split
    · exact h 1
    · rw [h 1, Bool.false_and]
  exact absurd (hfail.symm.trans hok) Bool.false_ne_true

end Prog
