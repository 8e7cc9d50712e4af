import Mathlib.Logic.Relation

/-!
# Programs with a state and exceptions

`EStateM ε σ` keeps the state when an exception is thrown, as a program in an
imperative language does.

* `bind_apply`, `tryCatch_apply`, `tryFinally_apply` : what a sequence, a handler and a
  finalizer do.
* `after p s` : the state in which `p` leaves `s`, with a result or an exception.
* `Keeps R p` : `R` relates the state before `p` to the one after it.  For a
  reflexive and transitive `R` this passes through all three.
-/

namespace Effect

variable {ε σ α β : Type}

theorem bind_apply (p : EStateM ε σ α) (f : α → EStateM ε σ β) (s : σ) :
    (p >>= f) s = match p s with
      | .ok a t => f a t
      | .error e t => .error e t := rfl

theorem tryCatch_apply (p : EStateM ε σ α) (h : ε → EStateM ε σ α) (s : σ) :
    tryCatch p h s = match p s with
      | .ok a t => .ok a t
      | .error e t => h e t := by
  show EStateM.tryCatch p h s = _
  unfold EStateM.tryCatch
  cases p s <;> rfl

/-- An exception of the finalizer takes the place of the one before it. -/
theorem tryFinally_apply (p : EStateM ε σ α) (q : EStateM ε σ β) (s : σ) :
    tryFinally p q s = match p s with
      | .ok a t => match q t with
        | .ok _ u => .ok a u
        | .error e u => .error e u
      | .error e t => match q t with
        | .ok _ u => .error e u
        | .error e' u => .error e' u := by
  show EStateM.map Prod.fst _ s = _
  unfold EStateM.map
  dsimp only [tryFinally']
  cases p s with
  | ok a t =>
    dsimp only
    cases q t <;> rfl
  | error e t =>
    dsimp only
    cases q t <;> rfl

/-- The state in which `p` leaves `s`. -/
def after (p : EStateM ε σ α) (s : σ) : σ :=
  match p s with
  | .ok _ t => t
  | .error _ t => t

theorem after_of_ok {p : EStateM ε σ α} {s t : σ} {a : α} (h : p s = .ok a t) :
    after p s = t := by
  rw [after, h]

theorem after_of_error {p : EStateM ε σ α} {s t : σ} {e : ε} (h : p s = .error e t) :
    after p s = t := by
  rw [after, h]

theorem after_bind_of_ok {p : EStateM ε σ α} {f : α → EStateM ε σ β} {s t : σ} {a : α}
    (h : p s = .ok a t) : after (p >>= f) s = after (f a) t := by
  rw [after, bind_apply, h]
  rfl

theorem after_bind_of_error {p : EStateM ε σ α} {f : α → EStateM ε σ β} {s t : σ} {e : ε}
    (h : p s = .error e t) : after (p >>= f) s = t := by
  rw [after, bind_apply, h]

/-- A finalizer runs whatever comes before it. -/
theorem after_tryFinally (p : EStateM ε σ α) (q : EStateM ε σ β) (s : σ) :
    after (tryFinally p q) s = after q (after p s) := by
  unfold after
  rw [tryFinally_apply]
  cases p s with
  | ok a t =>
    dsimp only
    cases q t <;> rfl
  | error e t =>
    dsimp only
    cases q t <;> rfl

/-- A sequence that succeeds, step by step. -/
theorem ok_of_bind {p : EStateM ε σ α} {f : α → EStateM ε σ β} {s t : σ} {b : β}
    (h : (p >>= f) s = .ok b t) : ∃ a u, p s = .ok a u ∧ f a u = .ok b t := by
  rw [bind_apply] at h
  cases hp : p s with
  | ok a u =>
    rw [hp] at h
    exact ⟨a, u, rfl, h⟩
  | error e u =>
    rw [hp] at h
    cases h

/-- `R` relates every state to the one in which `p` leaves it. -/
def Keeps (R : σ → σ → Prop) (p : EStateM ε σ α) : Prop := ∀ s, R s (after p s)

variable {R : σ → σ → Prop} {p : EStateM ε σ α}

theorem Keeps.mono {S : σ → σ → Prop} (h : Keeps R p) (hRS : ∀ s t, R s t → S s t) : Keeps S p :=
  fun s => hRS s _ (h s)

theorem Keeps.pure [Std.Refl R] (a : α) : Keeps R (pure a : EStateM ε σ α) := fun s => refl_of R s

theorem Keeps.throw [Std.Refl R] (e : ε) : Keeps R (throw e : EStateM ε σ α) :=
  fun s => refl_of R s

theorem Keeps.bind [IsTrans σ R] {f : α → EStateM ε σ β} (hp : Keeps R p)
    (hf : ∀ a, Keeps R (f a)) : Keeps R (p >>= f) := by
  intro s
  have hs := hp s
  cases hps : p s with
  | ok a t =>
    rw [after_of_ok hps] at hs
    rw [after_bind_of_ok hps]
    exact trans_of R hs (hf a t)
  | error e t =>
    rw [after_of_error hps] at hs
    rwa [after_bind_of_error hps]

theorem Keeps.tryCatch [IsTrans σ R] {h : ε → EStateM ε σ α} (hp : Keeps R p)
    (hh : ∀ e, Keeps R (h e)) : Keeps R (tryCatch p h) := by
  intro s
  have hs := hp s
  cases hps : p s with
  | ok a t =>
    rw [after_of_ok hps] at hs
    rwa [after, tryCatch_apply, hps]
  | error e t =>
    rw [after_of_error hps] at hs
    rw [after, tryCatch_apply, hps]
    exact trans_of R hs (hh e t)

theorem Keeps.tryFinally [IsTrans σ R] {q : EStateM ε σ β} (hp : Keeps R p) (hq : Keeps R q) :
    Keeps R (tryFinally p q) := by
  intro s
  rw [after_tryFinally]
  exact trans_of R (hp s) (hq _)

end Effect
