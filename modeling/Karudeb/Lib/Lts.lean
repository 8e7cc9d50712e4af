import Mathlib.Data.List.Basic
import Mathlib.Data.Nat.Init

/-!
# Labelled transition systems

A system is a relation `step s a t`: from the state `s` it can go to `t`, and `a`
says what kind of step that is.

* `Run step s as t` : a finite run from `s` to `t`, with the labels of its steps.
* `Run.inv` : what every step keeps holds after every run; `Run.inv_of` lets a
  step use an invariant already known.
* `Run.count_le` : a measure that falls at some labels and never grows bounds how
  often these labels occur.
-/

namespace Lts

variable {σ α : Type} {step : σ → α → σ → Prop} {s t : σ} {as : List α}

/-- A run from `s` to `t`, with the labels of its steps in order. -/
inductive Run (step : σ → α → σ → Prop) (s : σ) : List α → σ → Prop
  | nil : Run step s [] s
  | snoc {t u : σ} {as : List α} {a : α} :
      Run step s as t → step t a u → Run step s (as ++ [a]) u

/-- **Invariant rule.**  What every step keeps holds after every run. -/
theorem Run.inv {I : σ → Prop} (hstep : ∀ {s a t}, step s a t → I s → I t)
    (h : Run step s as t) (hs : I s) : I t := by
  induction h with
  | nil => exact hs
  | snoc _ hlast ih => exact hstep hlast ih

/-- The invariant rule, over an invariant `J` already known. -/
theorem Run.inv_of {I J : σ → Prop} (hJ : ∀ {s a t}, step s a t → J s → J t)
    (hI : ∀ {s a t}, step s a t → J s → I s → I t)
    (h : Run step s as t) (hsJ : J s) (hsI : I s) : I t := by
  have both : J t ∧ I t :=
    h.inv (I := fun s => J s ∧ I s) (fun hst hs => ⟨hJ hst hs.1, hI hst hs.1 hs.2⟩) ⟨hsJ, hsI⟩
  exact both.2

/-- **Measure rule.**  A measure that falls at every label in `P` and grows at none
bounds the number of labels in `P`. -/
theorem Run.count_le {P : α → Bool} {m : σ → ℕ}
    (hP : ∀ {s a t}, step s a t → P a = true → m t < m s)
    (hle : ∀ {s a t}, step s a t → m t ≤ m s) (h : Run step s as t) :
    as.countP P + m t ≤ m s := by
  induction h with
  | nil => simp
  | @snoc t u as a _ hlast ih =>
    rw [List.countP_append, List.countP_singleton]
    cases hPa : P a with
    | true =>
      have := hP hlast hPa
      simp only [if_true]
      omega
    | false =>
      have := hle hlast
      simp only [Bool.false_eq_true, if_false]
      omega

end Lts
