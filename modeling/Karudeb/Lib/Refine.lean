import Karudeb.Lib.Butterfly
import Karudeb.Lib.Prog

/-!
# Programs that do what other programs do

A faster version of a routine has to leave what the plain one leaves, and may make no check
fail that the plain one passes.  That is `Refines`, of checked computations and of programs
that need not end.  It goes through sequencing, arrays, layers of butterflies and loops, so
that a program in which some routines are exchanged refines the program as it was.

* `Chk.Refines x y` : `x` leaves what `y` leaves, and no check of it fails unless one of `y`
  does.
* `Prog.Refines p q` : `p` returns what `q` returns, and a check of `p` fails only where one of
  `q` fails on every large amount of fuel.
* `Prog.Refines.loop` : the rule for loops over the same states.
* `Prog.Refines.safe` : what refines a safe program is safe.
-/

/-! ## Checked computations -/

namespace Chk

variable {α β σ : Type}

/-- `x` leaves what `y` leaves, and no check of `x` fails unless one of `y` does. -/
def Refines (x y : Chk α) : Prop := x.val = y.val ∧ (y.ok = true → x.ok = true)

namespace Refines

theorem refl (x : Chk α) : Refines x x := ⟨rfl, id⟩

theorem trans {x y z : Chk α} (h : Refines x y) (h' : Refines y z) : Refines x z :=
  ⟨h.1.trans h'.1, fun hz => h.2 (h'.2 hz)⟩

theorem bind {x y : Chk α} {f g : α → Chk β} (h : Refines x y) (hf : ∀ a, Refines (f a) (g a)) :
    Refines (x >>= f) (y >>= g) := by
  constructor
  · rw [val_bind, val_bind, h.1]
    exact (hf _).1
  · rw [ok_bind, ok_bind, Bool.and_eq_true, Bool.and_eq_true, h.1]
    exact fun hy => ⟨h.2 hy.1, (hf _).2 hy.2⟩

theorem tab {n : ℕ} {f g : ℕ → Chk α} (h : ∀ i < n, Refines (f i) (g i)) :
    Refines (Chk.tab n f) (Chk.tab n g) := by
  constructor
  · rw [val_tab, val_tab]
    exact Vector.tab_congr fun i hi => (h i hi).1
  · rw [ok_tab, ok_tab]
    exact fun hg i hi => (h i hi).2 (hg i hi)

theorem foldlM {f g : σ → β → Chk σ} (h : ∀ s b, Refines (f s b) (g s b)) (l : List β) (s : σ) :
    Refines (l.foldlM f s) (l.foldlM g s) := by
  induction l generalizing s with
  | nil => exact refl _
  | cons b l ih =>
    rw [List.foldlM_cons, List.foldlM_cons]
    exact (h s b).bind fun s' => ih s'

theorem ite {c : Prop} [Decidable c] {x y x' y' : Chk α} (hx : Refines x x') (hy : Refines y y') :
    Refines (if c then x else y) (if c then x' else y') := by
  split
  · exact hx
  · exact hy

/-- A layer refines another one where its butterflies do. -/
theorem layer [Inhabited α] {n len : ℕ} {bf bg : ℕ → α → α → Chk (α × α)}
    (h : ∀ b u v, Refines (bf b u v) (bg b u v)) (a : Vector α n) :
    Refines (Butterfly.layerChk len bf a) (Butterfly.layerChk len bg a) := by
  constructor
  · rw [Butterfly.val_layerChk, Butterfly.val_layerChk]
    simp only [fun b u v => (h b u v).1]
  · rw [Butterfly.ok_layerChk, Butterfly.ok_layerChk]
    exact fun hg k hk hlo => (h _ _ _).2 (hg k hk hlo)

end Refines

end Chk

/-! ## Programs -/

namespace Prog

variable {α β σ : Type}

/-! ### Checks of a sequence -/

theorem andThen_ok_none {x : Exec α} (h : x.res = none) (f : α → Exec β) :
    (andThen x f).ok = x.ok := by
  unfold andThen
  rw [h]

theorem andThen_ok_some {x : Exec α} {a : α} (h : x.res = some a) (f : α → Exec β) :
    (andThen x f).ok = (x.ok && (f a).ok) := by
  unfold andThen
  rw [h]

theorem ok_of_andThen {x : Exec α} {f : α → Exec β} (h : (andThen x f).ok = true) : x.ok = true := by
  cases hx : x.res with
  | none => rwa [andThen_ok_none hx] at h
  | some a =>
    rw [andThen_ok_some hx, Bool.and_eq_true] at h
    exact h.1

/-! ### Refinement -/

/-- `p` returns what `q` returns, and a check of `p` fails only where one of `q` fails on
every amount of fuel that is large enough. -/
structure Refines (p q : Prog α) : Prop where
  /-- The results are the same. -/
  returns_iff : ∀ a, Returns p a ↔ Returns q a
  /-- The checks pass where those of `q` do. -/
  ok : ∀ n, ∃ m₀, ∀ m ≥ m₀, (q.run m).ok = true → (p.run n).ok = true

namespace Refines

/-- What refines a safe program is safe. -/
theorem safe {p q : Prog α} {P : α → Prop} (h : Refines p q) (hq : Safe q P) : Safe p P := by
  intro n
  constructor
  · obtain ⟨m, hm⟩ := h.ok n
    exact hm m le_rfl (hq m).1
  · intro a ha
    obtain ⟨m, hm⟩ := (h.returns_iff a).1 ⟨n, ha⟩
    exact (hq m).2 a hm

/-- A safe program refines every program that returns the same. -/
theorem of_safe {p q : Prog α} {P : α → Prop} (h : Safe p P) (hpq : ∀ a, Returns p a ↔ Returns q a) :
    Refines p q := ⟨hpq, fun n => ⟨0, fun _ _ _ => (h n).1⟩⟩

theorem of_safe_self {p : Prog α} {P : α → Prop} (h : Safe p P) : Refines p p :=
  of_safe h fun _ => Iff.rfl

theorem pure (a : α) : Refines (Pure.pure a : Prog α) (Pure.pure a) :=
  of_safe_self (Safe.pure (P := fun _ => True) trivial)

theorem lift {x y : Chk α} (h : Chk.Refines x y) :
    Refines (liftM x : Prog α) (liftM y : Prog α) := by
  refine ⟨fun a => ?_, fun n => ⟨0, fun m _ hm => h.2 hm⟩⟩
  rw [returns_lift, returns_lift, h.1]

theorem bind {p q : Prog α} {f g : α → Prog β} (h : Refines p q)
    (hf : ∀ a, Refines (f a) (g a)) : Refines (p >>= f) (q >>= g) := by
  refine ⟨fun b => ?_, fun n => ?_⟩
  · rw [returns_bind, returns_bind]
    exact exists_congr fun a => and_congr (h.returns_iff a) ((hf a).returns_iff b)
  · obtain ⟨m₀, hm₀⟩ := h.ok n
    cases hp : (p.run n).res with
    | none =>
      refine ⟨m₀, fun m hm hok => ?_⟩
      exact (andThen_ok_none hp _).trans (hm₀ m hm (ok_of_andThen hok))
    | some a =>
      -- on enough fuel `q` returns `a`, too
      obtain ⟨m₁, hm₁⟩ := (h.returns_iff a).1 ⟨n, hp⟩
      obtain ⟨m₂, hm₂⟩ := (hf a).ok n
      refine ⟨max m₀ (max m₁ m₂), fun m hm hok => ?_⟩
      have hq : (q.run m).res = some a := q.mono (by omega) hm₁
      have hok := (Bool.and_eq_true _ _).mp ((andThen_ok_some hq _).symm.trans hok)
      refine (andThen_ok_some hp _).trans ((Bool.and_eq_true _ _).mpr ?_)
      exact ⟨hm₀ m (by omega) hok.1, hm₂ m (by omega) hok.2⟩

theorem ite {c : Prop} [Decidable c] {p q p' q' : Prog α} (hp : Refines p p') (hq : Refines q q') :
    Refines (if c then p else q) (if c then p' else q') := by
  split
  · exact hp
  · exact hq

/-- The checks of `k` turns are among those of more turns on more fuel. -/
theorem loopRun_ok {bp bq : σ → Prog (σ ⊕ α)} (h : ∀ s, Refines (bp s) (bq s)) (n k : ℕ) (s : σ) :
    ∃ m₀, ∀ m ≥ m₀, ∀ j ≥ k, (loopRun (fun s => (bq s).run m) j s).ok = true →
      (loopRun (fun s => (bp s).run n) k s).ok = true := by
  induction k generalizing s with
  | zero => exact ⟨0, fun _ _ _ _ _ => rfl⟩
  | succ k ih =>
    obtain ⟨m₀, hm₀⟩ := (h s).ok n
    cases hp : ((bp s).run n).res with
    | none =>
      refine ⟨m₀, fun m hm j hj hok => ?_⟩
      obtain ⟨j, rfl⟩ : ∃ j', j = j' + 1 := ⟨j - 1, by omega⟩
      exact (andThen_ok_none hp _).trans (hm₀ m hm (ok_of_andThen hok))
    | some r =>
      obtain ⟨m₁, hm₁⟩ := ((h s).returns_iff r).1 ⟨n, hp⟩
      have hq : ∀ m ≥ m₁, ((bq s).run m).res = some r := fun m hm => (bq s).mono hm hm₁
      cases r with
      | inr a =>
        refine ⟨m₀, fun m hm j hj hok => ?_⟩
        obtain ⟨j, rfl⟩ : ∃ j', j = j' + 1 := ⟨j - 1, by omega⟩
        refine (andThen_ok_some hp _).trans ((Bool.and_eq_true _ _).mpr ⟨?_, rfl⟩)
        exact hm₀ m hm (ok_of_andThen hok)
      | inl s' =>
        obtain ⟨m₂, hm₂⟩ := ih s'
        refine ⟨max m₀ (max m₁ m₂), fun m hm j hj hok => ?_⟩
        obtain ⟨j, rfl⟩ : ∃ j', j = j' + 1 := ⟨j - 1, by omega⟩
        have hok := (Bool.and_eq_true _ _).mp ((andThen_ok_some (hq m (by omega)) _).symm.trans hok)
        refine (andThen_ok_some hp _).trans ((Bool.and_eq_true _ _).mpr ?_)
        exact ⟨hm₀ m (by omega) hok.1, hm₂ m (by omega) j (by omega) hok.2⟩

/-- **The rule for loops**: it is enough that every turn refines. -/
theorem loop {bp bq : σ → Prog (σ ⊕ α)} (h : ∀ s, Refines (bp s) (bq s)) (s : σ) :
    Refines (Prog.loop bp s) (Prog.loop bq s) := by
  refine ⟨fun a => ?_, fun n => ?_⟩
  · rw [returns_loop, returns_loop]
    constructor
    · intro hs
      induction hs with
      | done hs => exact .done (((h _).returns_iff _).1 hs)
      | next hs _ ih => exact .next (((h _).returns_iff _).1 hs) ih
    · intro hs
      induction hs with
      | done hs => exact .done (((h _).returns_iff _).2 hs)
      | next hs _ ih => exact .next (((h _).returns_iff _).2 hs) ih
  · obtain ⟨m₀, hm₀⟩ := loopRun_ok h n n s
    exact ⟨max m₀ n, fun m hm hok => hm₀ m (by omega) m (by omega) hok⟩

end Refines

end Prog
