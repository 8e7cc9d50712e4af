import Karudeb.Kat.Reader
import Mathlib

/-!
# Counting the tests of a file

The counters of the two functions `read_kat`: the records of each kind, and the tests that
passed and failed for each parameter set.

* `failed_tally` : what `read_kat` returns is the number of records that were judged wrong.
* `handled_of_judges`, `returns_report` : a record is handled if it is judged behind its first
  line, and the report about a file of such records.
* `Counters.Balanced` : each record that is counted is a test that passed or failed.
-/

namespace Kat

open Scan Prog

/-! ## The counters -/

/-- The counters of `read_kat`, where `K` are the kinds of records. -/
structure Counters (K : Type) where
  /-- Records of a kind. -/
  done : K → ℕ
  /-- `iut_pass`. -/
  pass : Fin 3 → ℕ
  /-- `iut_fail`. -/
  fail : Fin 3 → ℕ

variable {K ι ρ : Type}

/-- `f[k]++`. -/
def bump [DecidableEq ι] (f : ι → ℕ) (k : ι) : ι → ℕ := Function.update f k (f k + 1)

namespace Counters

/-- The counters at the start. -/
def zero : Counters K := ⟨fun _ => 0, fun _ => 0, fun _ => 0⟩

/-- Count a record of kind `k` for parameter set `i`. -/
def count [DecidableEq K] (k : K) (i : Fin 3) (ok : Bool) (c : Counters K) : Counters K where
  done := bump c.done k
  pass := if ok then bump c.pass i else c.pass
  fail := if ok then c.fail else bump c.fail i

/-- What `read_kat` returns. -/
def failed (c : Counters K) : ℕ := ∑ i, c.fail i

end Counters

/-- The parameter set of a name. -/
def findPar (name : Fin 3 → List UInt8) (alg : List UInt8) : Option (Fin 3) :=
  (List.finRange 3).find? fun i => alg = name i

theorem findPar_name {name : Fin 3 → List UInt8} (hname : Function.Injective name) (i : Fin 3) :
    findPar name (name i) = some i := by
  have hpred : (fun j => decide (name i = name j)) = fun j => decide (i = j) := by
    funext j
    rw [decide_eq_decide]
    exact hname.eq_iff
  unfold findPar
  rw [hpred]
  fin_cases i <;> rfl

/-! ## What is counted -/

theorem sum_bump [DecidableEq ι] [Fintype ι] (f : ι → ℕ) (k : ι) :
    ∑ j, bump f k j = ∑ j, f j + 1 := by
  have hsum := Finset.sum_update_of_mem (Finset.mem_univ k) f (f k + 1)
  have hrest := Finset.add_sum_erase Finset.univ f (Finset.mem_univ k)
  rw [← Finset.erase_eq] at hsum
  unfold bump
  omega

theorem failed_count [DecidableEq K] (k : K) (i : Fin 3) (ok : Bool) (c : Counters K) :
    (c.count k i ok).failed = c.failed + if ok then 0 else 1 := by
  cases ok with
  | true => rfl
  | false => exact sum_bump c.fail i

/-- **What is returned**: the number of records that were judged wrong. -/
theorem failed_tally [DecidableEq K] (k : ρ → K) (i : ρ → Fin 3) {rs : List ρ} {os : List Bool}
    (hlen : rs.length = os.length) (c : Counters K) :
    (tally (fun r => Counters.count (k r) (i r)) rs os c).failed = c.failed + os.count false := by
  induction rs generalizing os c with
  | nil =>
    obtain rfl := List.length_eq_zero_iff.1 hlen.symm
    rfl
  | cons r rs ih =>
    cases os with
    | nil => cases hlen
    | cons o os =>
      have hhead := failed_count (k r) (i r) o c
      refine (ih (Nat.succ.inj hlen) (c.count (k r) (i r) o)).trans ?_
      rw [hhead, List.count_cons, Nat.add_assoc, Nat.add_comm (os.count false)]
      cases o <;> rfl

/-! ## Judging a record -/

section

variable {V α : Type} [DecidableEq K]

/-- A piece of the loop judges a record: it counts it as one of `J`, and leaves `rest` of the
file and arrays that are as `I` says. -/
structure Judges (x : Turn V (Counters K → Counters K)) (st : State V) (rest : List UInt8) (k : K)
    (i : Fin 3) (J : Bool → Prop) (I : (V → Bytes) → Prop) : Prop where
  of_returns : ∀ b, (x st).Returns b →
    ∃ ok arr, J ok ∧ I arr ∧ b = (some (Counters.count k i ok), ⟨rest, arr⟩)
  returns : ∀ ok, J ok → ∃ arr, I arr ∧ (x st).Returns (some (Counters.count k i ok), ⟨rest, arr⟩)

variable {x y : Turn V (Counters K → Counters K)} {st st' : State V} {rest : List UInt8} {k : K}
  {i : Fin 3} {J : Bool → Prop} {I : (V → Bytes) → Prop}

/-- A piece that gives the same results. -/
theorem Judges.of_iff (h : ∀ b, (x st).Returns b ↔ (y st').Returns b) (hy : Judges y st' rest k i J I) :
    Judges x st rest k i J I where
  of_returns b hb := hy.of_returns b ((h b).1 hb)
  returns ok hok := by
    obtain ⟨arr, harr, hret⟩ := hy.returns ok hok
    exact ⟨arr, harr, (h _).2 hret⟩

theorem Judges.mono {J' : Bool → Prop} {I' : (V → Bytes) → Prop} (h : Judges x st rest k i J I)
    (hJ : ∀ ok, J ok ↔ J' ok) (hI : ∀ arr, I arr → I' arr) : Judges x st rest k i J' I' where
  of_returns b hb := by
    obtain ⟨ok, arr, hok, harr, rfl⟩ := h.of_returns b hb
    exact ⟨ok, arr, (hJ ok).1 hok, hI arr harr, rfl⟩
  returns ok hok := by
    obtain ⟨arr, harr, hret⟩ := h.returns ok ((hJ ok).2 hok)
    exact ⟨arr, hI arr harr, hret⟩

/-- A call that gives `g s` for what a specification says, which decides what is counted. -/
theorem Judges.of_spec {σ : Type} {p : Prog α} {f : α → Turn V (Counters K → Counters K)}
    {S : σ → Prop} {g : σ → α} (hp : ∀ a, p.Returns a ↔ ∃ s, S s ∧ g s = a) (ok : σ → Prop)
    (arr : σ → V → Bytes) (hf : ∀ s, S s → ∃ o : Bool, (o = true ↔ ok s) ∧
      ∀ b, (f (g s) st).Returns b ↔ b = (some (Counters.count k i o), ⟨rest, arr s⟩))
    (hJ : ∀ o : Bool, J o ↔ ∃ s, S s ∧ (o = true ↔ ok s)) (hI : ∀ s, S s → I (arr s)) :
    Judges (Turn.call p >>= f) st rest k i J I where
  of_returns b hb := by
    obtain ⟨a, ha, hfa⟩ := returns_call.1 hb
    obtain ⟨s, hs, rfl⟩ := (hp a).1 ha
    obtain ⟨o, ho, hret⟩ := hf s hs
    exact ⟨o, arr s, (hJ o).2 ⟨s, hs, ho⟩, hI s hs, (hret b).1 hfa⟩
  returns o ho := by
    obtain ⟨s, hs, hos⟩ := (hJ o).1 ho
    obtain ⟨o', ho', hret⟩ := hf s hs
    obtain rfl : o = o' := Bool.eq_iff_iff.2 (hos.trans ho'.symm)
    exact ⟨arr s, hI s hs, returns_call.2 ⟨g s, (hp _).2 ⟨s, hs, rfl⟩, (hret _).2 rfl⟩⟩

/-- A call whose result says what is counted. -/
theorem Judges.of_call {p : Prog α} {f : α → Turn V (Counters K → Counters K)} (ok : α → Prop)
    [∀ a, Decidable (ok a)] (arr : α → V → Bytes) (hf : ∀ a, p.Returns a → ∀ b,
      (f a st).Returns b ↔ b = (some (Counters.count k i (decide (ok a))), ⟨rest, arr a⟩))
    (hJ : ∀ o : Bool, J o ↔ ∃ a, p.Returns a ∧ (o = true ↔ ok a)) (hI : ∀ a, p.Returns a → I (arr a)) :
    Judges (Turn.call p >>= f) st rest k i J I :=
  Judges.of_spec (g := id) (fun _ => exists_eq_right.symm) ok arr
    (fun a ha => ⟨decide (ok a), decide_eq_true_iff, hf a ha⟩) hJ hI

/-- **A record is handled** if the body of the loop judges it behind its first line. -/
theorem handled_of_judges {body : ℤ → List UInt8 → List UInt8 → Turn V (Counters K → Counters K)}
    {idt w w' lines : ρ → List UInt8} {k : ρ → K} {i : ρ → Fin 3} {J : ρ → Bool → Prop}
    {I : List ρ → (V → Bytes) → Prop} {r : ρ} (hid : IsNumber (idt r)) (hw : IsWord (w r))
    (hw' : IsWord (w' r)) (hlen : (w r).length ≤ 15) (hlen' : (w' r).length ≤ 15)
    (h : ∀ rs rest arr, skipSpace rest = rest → I (r :: rs) arr →
      Judges (body (decimal (idt r)) (w r) (w' r)) ⟨lines r ++ rest, arr⟩ rest (k r) (i r) (J r)
        (I rs)) :
    Handled (readKatStep body) (fun r => lineText (idt r) (w r) (w' r) ++ lines r) J
      (fun r => Counters.count (k r) (i r)) I r where
  starts l := by
    rw [List.append_assoc]
    exact skipSpace_lineText hid _
  of_returns hrest hI hx := by
    obtain ⟨f, st', hbody, rfl⟩ :=
      (returns_readKatStep hid hw hw' hlen hlen' (List.append_assoc _ _ _)).1 hx
    obtain ⟨ok, arr', hJ, hI', hb⟩ := (h _ _ _ hrest hI).of_returns _ hbody
    cases hb
    exact ⟨ok, arr', hJ, hI', rfl⟩
  returns hrest hI hJ := by
    obtain ⟨arr', hI', hbody⟩ := (h _ _ _ hrest hI).returns _ hJ
    exact ⟨arr', hI', (returns_readKatStep hid hw hw' hlen hlen' (List.append_assoc _ _ _)).2
      ⟨_, _, hbody, rfl⟩⟩

/-- Where no test is judged wrong, all are judged right. -/
theorem not_mem_false_iff {J : ρ → Bool → Prop} {rs : List ρ} {oks : List Bool}
    (h : List.Forall₂ J rs oks) (huniq : ∀ r ∈ rs, ∀ ok ok', J r ok → J r ok' → ok = ok') :
    false ∉ oks ↔ ∀ r ∈ rs, J r true := by
  induction h with
  | nil => simp
  | @cons r ok rs oks hJ _ ih =>
    obtain ⟨hr, hrs⟩ := List.forall_mem_cons.1 huniq
    have hhead : false ≠ ok ↔ J r true := by
      constructor
      · intro hne
        rwa [Bool.eq_true_of_not_eq_false (Ne.symm hne)] at hJ
      · rintro htrue rfl
        cases hr _ _ hJ htrue
    rw [List.mem_cons, not_or, List.forall_mem_cons, ih hrs]
    exact and_congr_left fun _ => hhead

/-- **The report about a file of records** that are handled one by one. -/
theorem returns_report {body : ℤ → List UInt8 → List UInt8 → Turn V (Counters K → Counters K)}
    {text : ρ → List UInt8} {J : ρ → Bool → Prop} {k : ρ → K} {i : ρ → Fin 3}
    {I : List ρ → (V → Bytes) → Prop} {rs : List ρ}
    (h : ∀ r ∈ rs, Handled (readKatStep body) text J (fun r => Counters.count (k r) (i r)) I r)
    (huniq : ∀ r ∈ rs, ∀ ok ok', J r ok → J r ok' → ok = ok') {arr : V → Bytes} (hI : I rs arr) :
    (∀ c, (Prog.loop (readKatStep body) (⟨rs.flatMap text, arr⟩, Counters.zero)).Returns c ↔
      ∃ oks, List.Forall₂ J rs oks ∧
        c = tally (fun r => Counters.count (k r) (i r)) rs oks Counters.zero ∧
        c.failed = oks.count false) ∧
    ∀ c, (Prog.loop (readKatStep body) (⟨rs.flatMap text, arr⟩, Counters.zero)).Returns c →
      (c.failed = 0 ↔ ∀ r ∈ rs, J r true) := by
  have hrun : ∀ c,
      (Prog.loop (readKatStep body) (⟨rs.flatMap text, arr⟩, Counters.zero)).Returns c ↔
        ∃ oks, List.Forall₂ J rs oks ∧
          c = tally (fun r => Counters.count (k r) (i r)) rs oks Counters.zero :=
    fun c => returns_records h (readKatStep_nil body) hI
  have hfailed : ∀ {oks : List Bool}, List.Forall₂ J rs oks →
      (tally (fun r => Counters.count (k r) (i r)) rs oks Counters.zero).failed =
        oks.count false := fun hoks =>
    (failed_tally k i hoks.length_eq Counters.zero).trans (Nat.zero_add _)
  refine ⟨fun c => (hrun c).trans (exists_congr fun oks => and_congr_right fun hoks => ?_),
    fun c hc => ?_⟩
  · constructor
    · rintro rfl
      exact ⟨rfl, hfailed hoks⟩
    · exact And.left
  · obtain ⟨oks, hoks, rfl⟩ := (hrun c).1 hc
    rw [hfailed hoks, List.count_eq_zero]
    exact not_mem_false_iff hoks huniq

end

/-! ## Every run -/

/-- Each record that is counted is a test that passed or failed, and there are at most `n`. -/
structure Counters.Balanced [Fintype K] (n : ℕ) (c : Counters K) : Prop where
  sum : ∑ k, c.done k = ∑ i, c.pass i + ∑ i, c.fail i
  le : ∑ k, c.done k ≤ n

variable [Fintype K]

theorem balanced_zero : Counters.Balanced 0 (Counters.zero : Counters K) := by
  have hsum : ∀ {ι : Type} [Fintype ι], ∑ _i : ι, 0 = 0 := Finset.sum_const_zero
  exact ⟨hsum, hsum.le⟩

theorem Counters.Balanced.mono {n m : ℕ} {c : Counters K} (hnm : n ≤ m) (h : Balanced n c) :
    Balanced m c := ⟨h.sum, h.le.trans hnm⟩

theorem Counters.Balanced.count [DecidableEq K] {n : ℕ} {c : Counters K} (h : Balanced n c) (k : K)
    (i : Fin 3) (ok : Bool) : Balanced (n + 1) (c.count k i ok) := by
  have hdone := sum_bump c.done k
  have hsum := h.sum
  refine ⟨?_, hdone.trans_le (Nat.succ_le_succ h.le)⟩
  refine hdone.trans ?_
  cases ok with
  | true =>
    have hpass := sum_bump c.pass i
    simp only [Counters.count, if_true]
    omega
  | false =>
    have hfail := sum_bump c.fail i
    simp only [Counters.count, Bool.false_eq_true, if_false]
    omega

/-- A change of the counters that counts a record. -/
def Counts [DecidableEq K] (f : Counters K → Counters K) : Prop :=
  ∃ k i ok, f = Counters.count k i ok

/-- **Every run keeps the counters balanced**, and they stay below the length of the file. -/
theorem safe_readKat_balanced {V : Type} [DecidableEq K]
    {body : ℤ → List UInt8 → List UInt8 → Turn V (Counters K → Counters K)}
    (hbody : ∀ id var alg, SafeTurn (body id var alg) Counts) {file : List UInt8} (hfits : Fits file)
    (arr : V → Bytes) :
    (Prog.loop (readKatStep body) (⟨file, arr⟩, Counters.zero)).Safe
      (Counters.Balanced file.length) := by
  refine safe_readKat hbody (I := Counters.Balanced) ?_ Counters.Balanced.mono hfits arr balanced_zero
  rintro n c _ h ⟨k, i, ok, rfl⟩
  exact h.count k i ok

end Kat
