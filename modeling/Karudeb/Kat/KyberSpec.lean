import Karudeb.Kat.Kyber
import Karudeb.Mlkem.Exchange

/-!
# What the check of known answers says: ML-KEM

* `take_put_iff` : comparing whole arrays compares what is behind the strings, too.
* `ordered_exact` : where no record comes behind a larger one that writes to what it compares,
  from arrays that agree where nothing is written, each record is judged by the standard alone.
* `report_in_state` : in any other state a record also fails on what is behind its strings.
* `reading_safe` : no text makes `read_kat` overflow a buffer, unless a word of the text is
  longer than that.
-/

namespace TestKyber

open Kat Mlkem Fips203 Prog Scan

variable {build : Build} {H : Hash} {i : Fin 3}

/-! ## Files of records -/

/-- A test of a record, with the strings of its lines. -/
inductive Test
  | keygen (d z ek dk : List UInt8)
  | encaps (ek m kk ct : List UInt8)
  | decaps (dk ct kk : List UInt8)

/-- A record. -/
structure Record where
  /-- The digits of its number. -/
  idt : List UInt8
  /-- Its parameter set. -/
  i : Fin 3
  /-- Its test. -/
  test : Test

/-- The kind of a test. -/
def Test.kind : Test → Kind
  | keygen .. => .keygen
  | encaps .. => .encaps
  | decaps .. => .decaps

/-- The lines behind the first one. -/
def Test.text (idt : List UInt8) : Test → List UInt8
  | keygen d z ek dk => hexLine idt ['d'] d ++ (hexLine idt ['z'] z ++
      (hexLine idt ['e', 'k'] ek ++ hexLine idt ['d', 'k'] dk))
  | encaps ek m kk ct => hexLine idt ['e', 'k'] ek ++ (hexLine idt ['m'] m ++
      (hexLine idt ['K'] kk ++ hexLine idt ['c'] ct))
  | decaps dk ct kk => hexLine idt ['d', 'k'] dk ++ (hexLine idt ['c'] ct ++ hexLine idt ['K'] kk)

/-- The text of a record. -/
def Record.text (r : Record) : List UInt8 :=
  lineText r.idt r.test.kind.text (parName r.i) ++ r.test.text r.idt

/-- The strings of a test have the sizes of its parameter set. -/
def Test.Sized (i : Fin 3) : Test → Prop
  | keygen d z ek dk => d.length = 32 ∧ z.length = 32 ∧ ek.length = (mlkemPar i).ekSz ∧
      dk.length = (mlkemPar i).dkSz
  | encaps ek m kk ct => ek.length = (mlkemPar i).ekSz ∧ m.length = 32 ∧ kk.length = 32 ∧
      ct.length = (mlkemPar i).ctSz
  | decaps dk ct kk => dk.length = (mlkemPar i).dkSz ∧ ct.length = (mlkemPar i).ctSz ∧ kk.length = 32

/-- A record as it should be. -/
structure Record.WellFormed (r : Record) : Prop where
  number : IsNumber r.idt
  sized : r.test.Sized r.i

/-- The standard says `ok` about a test. -/
def Test.Judged (H : Hash) (i : Fin 3) : Test → Bool → Prop
  | keygen d z ek dk, ok => ∃ ek1 dk1, KemKeyGen H (mlkemPar i) d z ek1 dk1 ∧
      (ok = true ↔ ek = ek1 ∧ dk = dk1)
  | encaps ek m kk ct, ok => ∃ kk1 ct1, KemEncaps H (mlkemPar i) ek m kk1 ct1 ∧
      (ok = true ↔ kk = kk1 ∧ ct = ct1)
  | decaps dk ct kk, ok => ∃ kk1, KemDecaps H (mlkemPar i) dk ct kk1 ∧ (ok = true ↔ kk = kk1)

/-- A record is judged. -/
def Record.Judged (H : Hash) (r : Record) (ok : Bool) : Prop := r.test.Judged H r.i ok

theorem parName_injective : Function.Injective parName := by
  intro i j h
  revert i j
  decide

theorem isWord_parName (i : Fin 3) : IsWord (parName i) := by
  fin_cases i <;> decide +kernel

theorem isWord_kind (k : Kind) : IsWord k.text := by
  cases k <;> decide +kernel

/-! ## Arrays -/

/-- How much of an array a parameter set uses. -/
def used (i : Fin 3) : Var → ℕ
  | .rd | .rz | .rm | .kk | .kk1 => 32
  | .ek | .ek1 => (mlkemPar i).ekSz
  | .dk | .dk1 => (mlkemPar i).dkSz
  | .ct | .ct1 => (mlkemPar i).ctSz

theorem used_le (i : Fin 3) (v : Var) : 0 < used i v ∧ used i v ≤ v.size := by
  fin_cases i <;> cases v <;> decide

theorem used_mono {i j : Fin 3} (h : i ≤ j) (v : Var) : used i v ≤ used j v := by
  have hall : ∀ i j : Fin 3, i ≤ j → used i v ≤ used j v := by
    cases v <;> decide
  exact hall i j h

/-- Two arrays agree behind what a parameter set uses of them. -/
def Behind (i : Fin 3) (v w : Var) (arr : Var → Bytes) : Prop :=
  ∀ q, used i v ≤ q → q < v.size → arr v q = arr w q

/-- The arrays that the branch of a kind writes. -/
def Kind.writes : Kind → List Var
  | keygen => [.rd, .rz, .ek, .dk, .ek1, .dk1]
  | encaps => [.ek, .rm, .kk, .ct, .kk1, .ct1]
  | decaps => [.dk, .ct, .kk, .kk1]

/-- The arrays that the branch compares and that may be longer than its strings. -/
def Kind.compares : Kind → List (Var × Var)
  | keygen => [(.ek, .ek1), (.dk, .dk1)]
  | encaps => [(.ct, .ct1)]
  | decaps => []

/-- A branch writes to what another compares. -/
def Kind.Disturbs (k k' : Kind) : Prop :=
  ∃ p ∈ k'.compares, p.1 ∈ k.writes ∨ p.2 ∈ k.writes

/-- The arrays that a branch compares agree behind what a parameter set uses of them. -/
def Tails (k : Kind) (i : Fin 3) (arr : Var → Bytes) : Prop :=
  ∀ p ∈ k.compares, Behind i p.1 p.2 arr

/-- A branch writes to its arrays only, and nothing behind what a parameter set uses of them. -/
def Frame (k : Kind) (i : Fin 3) (arr arr' : Var → Bytes) : Prop :=
  ∀ v q, v ∉ k.writes ∨ used i v ≤ q → arr' v q = arr v q

variable {arr arr' : Var → Bytes} {k : Kind}

theorem used_snd (j : Fin 3) {p : Var × Var} (hp : p ∈ k.compares) : used j p.2 = used j p.1 := by
  cases k with
  | keygen =>
    rcases List.mem_pair.1 hp with rfl | rfl
    · rfl
    · rfl
  | encaps =>
    obtain rfl := List.mem_singleton.1 hp
    rfl
  | decaps => cases hp

theorem frame_refl : Frame k i arr arr := fun _ _ _ => rfl

theorem Frame.store (h : Frame k i arr arr') {v : Var} (hv : v ∈ k.writes) {l : List UInt8}
    (hl : l.length ≤ used i v) : Frame k i arr (store arr' v l) := by
  intro w q hq
  by_cases hw : w = v
  · subst hw
    have hle := hq.resolve_left (not_not.2 hv)
    rw [store_self, Bytes.put_of_le (by omega)]
    exact h w q hq
  · rw [store_of_ne hw]
    exact h w q hq

/-- What agrees behind a parameter set still does after a branch for a smaller one, or after one
that writes elsewhere. -/
theorem Tails.frame {k' : Kind} {j : Fin 3} (h : Tails k' j arr) (hframe : Frame k i arr arr')
    (hij : k.Disturbs k' → i ≤ j) : Tails k' j arr' := by
  intro p hp q hq hlt
  have hsame : ∀ v, (v ∈ k.writes → i ≤ j) → used j v = used j p.1 → arr' v q = arr v q := by
    intro v hv hused
    by_cases hw : v ∈ k.writes
    · exact hframe v q (.inr (((used_mono (hv hw) v).trans_eq hused).trans hq))
    · exact hframe v q (.inl hw)
  rw [hsame p.1 (fun hw => hij ⟨p, hp, .inl hw⟩) rfl,
    hsame p.2 (fun hw => hij ⟨p, hp, .inr hw⟩) (used_snd j hp)]
  exact h p hp q hq hlt

theorem take_put_eq_iff (b b' : Bytes) {l l' : List UInt8} {n : ℕ} (hl : l.length = n)
    (hl' : l'.length = n) : (b.put 0 l).take n = (b'.put 0 l').take n ↔ l = l' := by
  have htake := Bytes.take_put b l
  have htake' := Bytes.take_put b' l'
  rw [hl] at htake
  rw [hl'] at htake'
  rw [htake, htake']

/-- **Comparing more than was stored.** -/
theorem take_put_iff {b b' : Bytes} {l l' : List UInt8} {n m : ℕ} (hl : l.length = n)
    (hl' : l'.length = n) (hnm : n ≤ m) : (b.put 0 l).take m = (b'.put 0 l').take m ↔
      l = l' ∧ ∀ q, n ≤ q → q < m → b q = b' q := by
  constructor
  · intro h
    refine ⟨?_, fun q hn hq => ?_⟩
    · refine (take_put_eq_iff b b' hl hl').1 (Bytes.take_congr fun q hq => ?_)
      exact Bytes.take_inj h (hq.trans_le hnm)
    · have hq := Bytes.take_inj h hq
      rwa [Bytes.put_of_le (by omega), Bytes.put_of_le (by omega)] at hq
  · rintro ⟨rfl, htail⟩
    refine Bytes.take_congr fun q hq => ?_
    by_cases hlt : q < n
    · exact Bytes.take_inj ((take_put_eq_iff b b' hl hl).2 rfl) hlt
    · rw [Bytes.put_of_le (by omega), Bytes.put_of_le (by omega)]
      exact htail q (not_lt.1 hlt) hq

/-! ## The three branches -/

/-- What the code says about a test when the arrays hold something: it compares what is behind
the strings, too. -/
def Test.JudgedIn (H : Hash) (i : Fin 3) (arr : Var → Bytes) : Test → Bool → Prop
  | keygen d z ek dk, ok => ∃ ek1 dk1, KemKeyGen H (mlkemPar i) d z ek1 dk1 ∧
      (ok = true ↔ (ek = ek1 ∧ Behind i .ek .ek1 arr) ∧ dk = dk1 ∧ Behind i .dk .dk1 arr)
  | encaps ek m kk ct, ok => ∃ kk1 ct1, KemEncaps H (mlkemPar i) ek m kk1 ct1 ∧
      (ok = true ↔ kk = kk1 ∧ ct = ct1 ∧ Behind i .ct .ct1 arr)
  | decaps dk ct kk, ok => ∃ kk1, KemDecaps H (mlkemPar i) dk ct kk1 ∧ (ok = true ↔ kk = kk1)

theorem judgedIn_iff {t : Test} (h : Tails t.kind i arr) (ok : Bool) :
    t.JudgedIn H i arr ok ↔ t.Judged H i ok := by
  cases t with
  | keygen d z ek dk =>
    have hek : Behind i .ek .ek1 arr := h (.ek, .ek1) List.mem_cons_self
    have hdk : Behind i .dk .dk1 arr := h (.dk, .dk1) (List.mem_cons_of_mem _ List.mem_cons_self)
    simp only [Test.JudgedIn, Test.Judged, hek, hdk, and_true]
  | encaps ek m kk ct =>
    have hct : Behind i .ct .ct1 arr := h (.ct, .ct1) List.mem_cons_self
    simp only [Test.JudgedIn, Test.Judged, hct, and_true]
  | decaps dk ct kk => exact Iff.rfl

theorem returns_same {β : Type} {v w : Var} {f : Bool → Turn Var β} {st : State Var}
    {r : Option β × State Var} : ((same v w >>= f) st).Returns r ↔
      (f (decide ((st.arr v).take v.size = (st.arr w).take v.size)) st).Returns r :=
  returns_andThen_of fun _ => returns_arr.trans (returns_arr.trans returns_pureTurn)

/-- Overwriting the start of an array is storing a string there. -/
theorem update_eq_store {v : Var} {b : Bytes} {l : List UInt8} (h : b = (arr v).put 0 l) :
    Function.update arr v b = store arr v l := by
  rw [h]
  rfl

theorem length_kemKeyGen {d z ek dk : List UInt8} (h : KemKeyGen H (mlkemPar i) d z ek dk)
    (hz : z.length = 32) : ek.length = (mlkemPar i).ekSz ∧ dk.length = (mlkemPar i).dkSz := by
  obtain ⟨s, hs, rfl⟩ := h
  obtain ⟨hlen, hek⟩ := length_kpkeKeyGen i hs
  refine ⟨hek, ?_⟩
  rw [List.length_append, List.length_append, List.length_append, Bytes.length_take, hlen, hek, hz,
    (dkSz_eq i).2]

theorem length_kemEncaps {ek m kk ct : List UInt8} (h : KemEncaps H (mlkemPar i) ek m kk ct) :
    kk.length = 32 ∧ ct.length = (mlkemPar i).ctSz := by
  obtain ⟨henc, rfl⟩ := h
  exact ⟨Bytes.length_take _ _, length_kpkeEncrypt i henc⟩

theorem length_kemDecaps {dk ct kk : List UInt8} (h : KemDecaps H (mlkemPar i) dk ct kk) :
    kk.length = 32 := by
  obtain ⟨m, c, -, -, rfl⟩ := h
  split
  · exact Bytes.length_take _ _
  · exact Bytes.length_take _ _

/-- A branch judges a test, and writes nothing behind what the parameter set uses. -/
def JudgesIn (H : Hash) (i : Fin 3) (x : Turn Var (Counters Kind → Counters Kind)) (st : State Var)
    (rest : List UInt8) (t : Test) : Prop :=
  Judges x st rest t.kind i (t.JudgedIn H i st.arr) (Frame t.kind i st.arr)

section

variable {idt rest : List UInt8}

theorem isWord_labels : IsWord (ascii ['d']) ∧ IsWord (ascii ['z']) ∧ IsWord (ascii ['e', 'k']) ∧
    IsWord (ascii ['d', 'k']) ∧ IsWord (ascii ['m']) ∧ IsWord (ascii ['K']) ∧
    IsWord (ascii ['c']) := by
  decide +kernel

theorem judges_keygen {d z ek dk : List UInt8} (hid : IsNumber idt)
    (hsized : (Test.keygen d z ek dk).Sized i) (hrest : skipSpace rest = rest) :
    JudgesIn H i (keygen build H i (decimal idt)) ⟨(Test.keygen d z ek dk).text idt ++ rest, arr⟩ rest
      (.keygen d z ek dk) := by
  obtain ⟨hd, hz, hek, hdk⟩ := hsized
  obtain ⟨hwd, hwz, hwek, hwdk, -⟩ := isWord_labels
  have hused := used_le i
  unfold JudgesIn
  rw [Test.text, List.append_assoc, List.append_assoc, List.append_assoc]
  refine Judges.of_iff (fun _ => returns_readvar_andThen hid hwd (by decide) hd le_rfl
    (skipSpace_lineText hid _)) ?_
  refine Judges.of_iff (fun _ => returns_readvar_andThen hid hwz (by decide) hz le_rfl
    (skipSpace_lineText hid _)) ?_
  refine Judges.of_iff (fun _ => returns_readvar_andThen hid hwek (hused .ek).1 hek (hused .ek).2
    (skipSpace_lineText hid _)) ?_
  refine Judges.of_iff (fun _ => returns_readvar_andThen hid hwdk (hused .dk).1 hdk (hused .dk).2
    hrest) ?_
  refine Judges.of_iff (fun _ => returns_arr.trans (returns_arr.trans returns_arr)) ?_
  dsimp only
  have hframe : Frame .keygen i arr (store (store (store (store arr .rd d) .rz z) .ek ek) .dk dk) :=
    (((frame_refl.store (by decide) hd.le).store (by decide) hz.le).store (by decide) hek.le).store
      (by decide) hdk.le
  have hrd : (store (store (store (store arr .rd d) .rz z) .ek ek) .dk dk .rd).take 32 = d := by
    rw [store_of_ne (by decide), store_of_ne (by decide), store_of_ne (by decide), take_store hd]
  have hrz : (store (store (store (store arr .rd d) .rz z) .ek ek) .dk dk .rz).take 32 = z := by
    rw [store_of_ne (by decide), store_of_ne (by decide), take_store hz]
  have hdk1 : store (store (store (store arr .rd d) .rz z) .ek ek) .dk dk .dk1 = arr .dk1 := by
    simp [store_of_ne]
  have hek1 : store (store (store (store arr .rd d) .rz z) .ek ek) .dk dk .ek1 = arr .ek1 := by
    simp [store_of_ne]
  have hekarr : store (store (store (store arr .rd d) .rz z) .ek ek) .dk dk .ek =
      (arr .ek).put 0 ek := by
    simp [store_of_ne, store_self]
  have hdkarr : store (store (store (store arr .rd d) .rz z) .ek ek) .dk dk .dk =
      (arr .dk).put 0 dk := by
    simp [store_of_ne, store_self]
  generalize store (store (store (store arr .rd d) .rz z) .ek ek) .dk dk = A at *
  refine Judges.of_spec (S := fun s : List UInt8 × List UInt8 => KemKeyGen H (mlkemPar i) d z s.1 s.2)
    (g := fun s => (s.1, (A .dk1).put 0 s.2)) ?_
    (fun s => (ek = s.1 ∧ Behind i .ek .ek1 arr) ∧ dk = s.2 ∧ Behind i .dk .dk1 arr)
    (fun s => store (store A .ek1 s.1) .dk1 s.2) ?_ ?_ ?_
  · rintro ⟨ek1, dk1⟩
    rw [returns_kemKeyGen, hrd, hrz]
    constructor
    · rintro ⟨L, hgen, rfl⟩
      exact ⟨(ek1, L), hgen, rfl⟩
    · rintro ⟨⟨ek2, L⟩, hgen, ⟨⟩⟩
      exact ⟨L, hgen, rfl⟩
  · rintro ⟨ek1, L⟩ hgen
    obtain ⟨hlen, hlen'⟩ := length_kemKeyGen hgen hz
    have hset : Function.update (store A .ek1 ek1) .dk1 ((A .dk1).put 0 L) =
        store (store A .ek1 ek1) .dk1 L := update_eq_store (by rw [store_of_ne (by decide)])
    have h1 : store (store A .ek1 ek1) .dk1 L .ek = A .ek := by simp [store_of_ne]
    have h2 : store (store A .ek1 ek1) .dk1 L .ek1 = (A .ek1).put 0 ek1 := by
      simp [store_of_ne, store_self]
    have h3 : store (store A .ek1 ek1) .dk1 L .dk = A .dk := by simp [store_of_ne]
    have h4 : store (store A .ek1 ek1) .dk1 L .dk1 = (A .dk1).put 0 L := by
      simp [store_of_ne, store_self]
    rw [← hset] at h1 h2 h3 h4 ⊢
    refine ⟨_, ?_, fun b => returns_put.trans (returns_set.trans (returns_same.trans
      (returns_same.trans returns_pureTurn)))⟩
    dsimp only
    rw [Bool.and_eq_true, decide_eq_true_iff, decide_eq_true_iff, h1, h2, h3, h4, hekarr, hdkarr,
      hek1, hdk1]
    exact and_congr (take_put_iff hek hlen (hused .ek).2) (take_put_iff hdk hlen' (hused .dk).2)
  · intro ok
    rw [Prod.exists]
    exact Iff.rfl
  · rintro ⟨ek1, L⟩ hgen
    obtain ⟨hlen, hlen'⟩ := length_kemKeyGen hgen hz
    exact (hframe.store (by decide) hlen.le).store (by decide) hlen'.le

theorem judges_encaps {ek m kk ct : List UInt8} (hid : IsNumber idt)
    (hsized : (Test.encaps ek m kk ct).Sized i) (hrest : skipSpace rest = rest) :
    JudgesIn H i (encaps build H i (decimal idt)) ⟨(Test.encaps ek m kk ct).text idt ++ rest, arr⟩
      rest (.encaps ek m kk ct) := by
  obtain ⟨hek, hm, hkk, hct⟩ := hsized
  obtain ⟨-, -, hwek, -, hwm, hwkk, hwct⟩ := isWord_labels
  have hused := used_le i
  unfold JudgesIn
  rw [Test.text, List.append_assoc, List.append_assoc, List.append_assoc]
  refine Judges.of_iff (fun _ => returns_readvar_andThen hid hwek (hused .ek).1 hek (hused .ek).2
    (skipSpace_lineText hid _)) ?_
  refine Judges.of_iff (fun _ => returns_readvar_andThen hid hwm (by decide) hm le_rfl
    (skipSpace_lineText hid _)) ?_
  refine Judges.of_iff (fun _ => returns_readvar_andThen hid hwkk (by decide) hkk le_rfl
    (skipSpace_lineText hid _)) ?_
  refine Judges.of_iff (fun _ => returns_readvar_andThen hid hwct (hused .ct).1 hct (hused .ct).2
    hrest) ?_
  refine Judges.of_iff (fun _ => returns_arr.trans returns_arr) ?_
  dsimp only
  have hframe : Frame .encaps i arr (store (store (store (store arr .ek ek) .rm m) .kk kk) .ct ct) :=
    (((frame_refl.store (by decide) hek.le).store (by decide) hm.le).store (by decide) hkk.le).store
      (by decide) hct.le
  have hekarr : (store (store (store (store arr .ek ek) .rm m) .kk kk) .ct ct .ek).take
      (mlkemPar i).ekSz = ek := by
    rw [store_of_ne (by decide), store_of_ne (by decide), store_of_ne (by decide), take_store hek]
  have hrm : (store (store (store (store arr .ek ek) .rm m) .kk kk) .ct ct .rm).take 32 = m := by
    rw [store_of_ne (by decide), store_of_ne (by decide), take_store hm]
  have hkkarr : store (store (store (store arr .ek ek) .rm m) .kk kk) .ct ct .kk =
      (arr .kk).put 0 kk := by
    simp [store_of_ne, store_self]
  have hctarr : store (store (store (store arr .ek ek) .rm m) .kk kk) .ct ct .ct =
      (arr .ct).put 0 ct := by
    simp [store_of_ne, store_self]
  have hct1 : store (store (store (store arr .ek ek) .rm m) .kk kk) .ct ct .ct1 = arr .ct1 := by
    simp [store_of_ne]
  generalize store (store (store (store arr .ek ek) .rm m) .kk kk) .ct ct = A at *
  refine Judges.of_spec (S := fun s : List UInt8 × List UInt8 => KemEncaps H (mlkemPar i) ek m s.1 s.2)
    (g := id) ?_ (fun s => kk = s.1 ∧ ct = s.2 ∧ Behind i .ct .ct1 arr)
    (fun s => store (store A .kk1 s.1) .ct1 s.2) ?_ ?_ ?_
  · rintro ⟨kk1, ct1⟩
    rw [returns_kemEncaps, hekarr, hrm]
    constructor
    · intro henc
      exact ⟨(kk1, ct1), henc, rfl⟩
    · rintro ⟨_, henc, rfl⟩
      exact henc
  · rintro ⟨kk1, ct1⟩ henc
    obtain ⟨hlen, hlen'⟩ := length_kemEncaps henc
    refine ⟨_, ?_, fun b => returns_put.trans (returns_put.trans (returns_same.trans
      (returns_same.trans returns_pureTurn)))⟩
    have h1 : store (store A .kk1 kk1) .ct1 ct1 .kk = A .kk := by simp [store_of_ne]
    have h2 : store (store A .kk1 kk1) .ct1 ct1 .kk1 = (A .kk1).put 0 kk1 := by
      simp [store_of_ne, store_self]
    have h3 : store (store A .kk1 kk1) .ct1 ct1 .ct = A .ct := by simp [store_of_ne]
    have h4 : store (store A .kk1 kk1) .ct1 ct1 .ct1 = (A .ct1).put 0 ct1 := by
      simp [store_of_ne, store_self]
    dsimp only [id]
    rw [Bool.and_eq_true, decide_eq_true_iff, decide_eq_true_iff, h1, h2, h3, h4, hkkarr, hctarr, hct1]
    exact and_congr (take_put_eq_iff _ _ hkk hlen) (take_put_iff hct hlen' (hused .ct).2)
  · intro ok
    rw [Prod.exists]
    exact Iff.rfl
  · rintro ⟨kk1, ct1⟩ henc
    obtain ⟨hlen, hlen'⟩ := length_kemEncaps henc
    exact (hframe.store (by decide) hlen.le).store (by decide) hlen'.le

theorem judges_decaps {dk ct kk : List UInt8} (hid : IsNumber idt)
    (hsized : (Test.decaps dk ct kk).Sized i) (hrest : skipSpace rest = rest) :
    JudgesIn H i (decaps build H i (decimal idt)) ⟨(Test.decaps dk ct kk).text idt ++ rest, arr⟩
      rest (.decaps dk ct kk) := by
  obtain ⟨hdk, hct, hkk⟩ := hsized
  obtain ⟨-, -, -, hwdk, -, hwkk, hwct⟩ := isWord_labels
  have hused := used_le i
  unfold JudgesIn
  rw [Test.text, List.append_assoc, List.append_assoc]
  refine Judges.of_iff (fun _ => returns_readvar_andThen hid hwdk (hused .dk).1 hdk (hused .dk).2
    (skipSpace_lineText hid _)) ?_
  refine Judges.of_iff (fun _ => returns_readvar_andThen hid hwct (hused .ct).1 hct (hused .ct).2
    (skipSpace_lineText hid _)) ?_
  refine Judges.of_iff (fun _ => returns_readvar_andThen hid hwkk (by decide) hkk le_rfl hrest) ?_
  refine Judges.of_iff (fun _ => returns_arr.trans (returns_arr.trans returns_arr)) ?_
  dsimp only
  have hframe : Frame .decaps i arr (store (store (store arr .dk dk) .ct ct) .kk kk) :=
    ((frame_refl.store (by decide) hdk.le).store (by decide) hct.le).store (by decide) hkk.le
  have hdkarr : (store (store (store arr .dk dk) .ct ct) .kk kk .dk).take (mlkemPar i).dkSz = dk := by
    rw [store_of_ne (by decide), store_of_ne (by decide), take_store hdk]
  have hctarr : (store (store (store arr .dk dk) .ct ct) .kk kk .ct).take (mlkemPar i).ctSz = ct := by
    rw [store_of_ne (by decide), take_store hct]
  have hkkarr : store (store (store arr .dk dk) .ct ct) .kk kk .kk =
      (store (store arr .dk dk) .ct ct .kk).put 0 kk := store_self
  generalize store (store (store arr .dk dk) .ct ct) .kk kk = A at *
  refine Judges.of_spec (S := KemDecaps H (mlkemPar i) dk ct) (g := fun K => (A .kk1).put 0 K) ?_
    (fun K => kk = K) (fun K => store A .kk1 K) ?_ (fun _ => Iff.rfl) ?_
  · intro kp
    rw [returns_kemDecaps, hdkarr, hctarr]
    exact exists_congr fun K => and_congr_right fun _ => eq_comm
  · intro K hdec
    have h1 : store A .kk1 K .kk = A .kk := store_of_ne (by decide)
    have h2 : store A .kk1 K .kk1 = (A .kk1).put 0 K := store_self
    refine ⟨_, ?_, fun b => returns_set.trans (returns_same.trans returns_pureTurn)⟩
    dsimp only
    rw [decide_eq_true_iff, update_eq_store rfl, h1, h2, hkkarr]
    exact take_put_eq_iff _ _ hkk (length_kemDecaps hdec)
  · exact fun K hdec => hframe.store (by decide) (length_kemDecaps hdec).le

end

/-! ## The whole file -/

/-- The branch of a kind. -/
theorem record_eq (build : Build) (H : Hash) (i : Fin 3) (id : ℤ) (k : Kind) :
    record build H id k.text (parName i) =
      match k with
      | .keygen => keygen build H i id
      | .encaps => encaps build H i id
      | .decaps => decaps build H i id := by
  unfold record
  rw [findPar_name parName_injective]
  cases k with
  | keygen => exact if_pos rfl
  | encaps => exact (if_neg (by decide)).trans (if_pos rfl)
  | decaps => exact (if_neg (by decide)).trans ((if_neg (by decide)).trans (if_pos rfl))

theorem judges_record {idt rest : List UInt8} {t : Test} (hid : IsNumber idt) (hsized : t.Sized i)
    (hrest : skipSpace rest = rest) : JudgesIn H i (record build H (decimal idt) t.kind.text (parName i))
      ⟨t.text idt ++ rest, arr⟩ rest t := by
  rw [record_eq]
  cases t with
  | keygen d z ek dk => exact judges_keygen hid hsized hrest
  | encaps ek m kk ct => exact judges_encaps hid hsized hrest
  | decaps dk ct kk => exact judges_decaps hid hsized hrest

/-- A record is handled, as long as the arrays `I` allows make it judged by `J`. -/
theorem handled_record {r : Record} (h : r.WellFormed) {J : Record → Bool → Prop}
    {I : List Record → (Var → Bytes) → Prop}
    (hJ : ∀ rs arr, I (r :: rs) arr → ∀ ok, r.test.JudgedIn H r.i arr ok ↔ J r ok)
    (hI : ∀ rs arr, I (r :: rs) arr → ∀ arr', Frame r.test.kind r.i arr arr' → I rs arr') :
    Handled (readKatStep fun id var alg => record build H id var alg) Record.text J
      (fun r => Counters.count r.test.kind r.i) I r := by
  have hkind : r.test.kind.text.length ≤ 15 := by
    cases r.test.kind <;> decide
  have hname : ∀ i, (parName i).length ≤ 15 := by
    decide
  refine @handled_of_judges Kind Record Var _ (fun id var alg => record build H id var alg) Record.idt
    (fun r => r.test.kind.text) (fun r => parName r.i) (fun r => r.test.text r.idt)
    (fun r => r.test.kind) Record.i J I r h.number (isWord_kind _) (isWord_parName r.i) hkind
    (hname r.i) fun rs rest arr hrest hIr => ?_
  exact (judges_record h.number h.sized hrest).mono (hJ rs arr hIr) (hI rs arr hIr)

/-! ## What the standard says is one thing -/

theorem kemKeyGen_unique {d z ek dk ek' dk' : List UInt8} (hd : d.length = 32) (hz : z.length = 32)
    (h : KemKeyGen H (mlkemPar i) d z ek dk) (h' : KemKeyGen H (mlkemPar i) d z ek' dk') :
    ek = ek' ∧ dk = dk' := by
  have hret : ∀ {ek dk}, KemKeyGen H (mlkemPar i) d z ek dk →
      (keygenInternal .scalar H (mlkemPar i) (fun _ => 0) (Bytes.ofList d) (Bytes.ofList z)).Returns
        (ek, Bytes.put (fun _ => 0) 0 dk) := by
    intro ek dk h
    refine (returns_kemKeyGen _).2 ⟨dk, ?_, rfl⟩
    rw [Bytes.take_ofList_of_length hd, Bytes.take_ofList_of_length hz]
    exact h
  obtain ⟨rfl, hput⟩ := Prod.mk.inj (returns_unique (hret h) (hret h'))
  refine ⟨rfl, (take_put_eq_iff (fun _ => 0) (fun _ => 0) (length_kemKeyGen h hz).2
    (length_kemKeyGen h' hz).2).1 ?_⟩
  exact congrArg (fun b : Bytes => b.take (mlkemPar i).dkSz) hput

theorem kemEncaps_unique {ek m kk ct kk' ct' : List UInt8} (hek : ek.length = (mlkemPar i).ekSz)
    (hm : m.length = 32) (h : KemEncaps H (mlkemPar i) ek m kk ct)
    (h' : KemEncaps H (mlkemPar i) ek m kk' ct') : kk = kk' ∧ ct = ct' := by
  have hret : ∀ {kk ct}, KemEncaps H (mlkemPar i) ek m kk ct →
      (encapsInternal .scalar H (mlkemPar i) (Bytes.ofList ek) (Bytes.ofList m)).Returns (kk, ct) := by
    intro kk ct h
    rw [returns_kemEncaps, Bytes.take_ofList_of_length hek, Bytes.take_ofList_of_length hm]
    exact h
  exact Prod.mk.inj (returns_unique (hret h) (hret h'))

theorem kemDecaps_unique {dk ct kk kk' : List UInt8} (hdk : dk.length = (mlkemPar i).dkSz)
    (hct : ct.length = (mlkemPar i).ctSz) (h : KemDecaps H (mlkemPar i) dk ct kk)
    (h' : KemDecaps H (mlkemPar i) dk ct kk') : kk = kk' := by
  have hret : ∀ {kk}, KemDecaps H (mlkemPar i) dk ct kk →
      (decapsInternal .scalar H (mlkemPar i) (fun _ => 0) (Bytes.ofList dk) (Bytes.ofList ct)).Returns
        (Bytes.put (fun _ => 0) 0 kk) := by
    intro kk h
    refine (returns_kemDecaps _).2 ⟨kk, ?_, rfl⟩
    rw [Bytes.take_ofList_of_length hdk, Bytes.take_ofList_of_length hct]
    exact h
  refine (take_put_eq_iff (fun _ => 0) (fun _ => 0) (length_kemDecaps h) (length_kemDecaps h')).1 ?_
  exact congrArg (fun b : Bytes => b.take 32) (returns_unique (hret h) (hret h'))

/-- The test of a record has one verdict, in every state of the arrays. -/
theorem judgedIn_unique {r : Record} (h : r.WellFormed) {ok ok' : Bool}
    (hok : r.test.JudgedIn H r.i arr ok) (hok' : r.test.JudgedIn H r.i arr ok') : ok = ok' := by
  obtain ⟨idt, i, test⟩ := r
  obtain ⟨-, hsized⟩ := h
  cases test with
  | keygen d z ek dk =>
    obtain ⟨hd, hz, -⟩ := hsized
    obtain ⟨ek1, dk1, hgen, hiff⟩ := hok
    obtain ⟨ek2, dk2, hgen', hiff'⟩ := hok'
    obtain ⟨rfl, rfl⟩ := kemKeyGen_unique hd hz hgen hgen'
    exact Bool.eq_iff_iff.2 (hiff.trans hiff'.symm)
  | encaps ek m kk ct =>
    obtain ⟨hek, hm, -⟩ := hsized
    obtain ⟨kk1, ct1, henc, hiff⟩ := hok
    obtain ⟨kk2, ct2, henc', hiff'⟩ := hok'
    obtain ⟨rfl, rfl⟩ := kemEncaps_unique hek hm henc henc'
    exact Bool.eq_iff_iff.2 (hiff.trans hiff'.symm)
  | decaps dk ct kk =>
    obtain ⟨hdk, hct, -⟩ := hsized
    obtain ⟨kk1, hdec, hiff⟩ := hok
    obtain ⟨kk2, hdec', hiff'⟩ := hok'
    obtain rfl := kemDecaps_unique hdk hct hdec hdec'
    exact Bool.eq_iff_iff.2 (hiff.trans hiff'.symm)

/-- Arrays that agree behind what the records of a file compare, where no record comes behind
one for a larger parameter set that writes to what it compares. -/
structure Ready (rs : List Record) (arr : Var → Bytes) : Prop where
  ordered : rs.Pairwise fun r r' => r.test.kind.Disturbs r'.test.kind → r.i ≤ r'.i
  tails : ∀ r ∈ rs, Tails r.test.kind r.i arr

theorem Ready.step {r : Record} {rs : List Record} (h : Ready (r :: rs) arr)
    (hframe : Frame r.test.kind r.i arr arr') : Ready rs arr' := by
  obtain ⟨hle, hrs⟩ := List.pairwise_cons.1 h.ordered
  exact ⟨hrs, fun r' hr' => (h.tails r' (List.mem_cons_of_mem _ hr')).frame hframe (hle r' hr')⟩

/-- Key pairs, then keys that are encapsulated, then ciphertexts: it is enough that the
parameter sets do not get smaller among the first, and among the second. -/
theorem ordered_of_blocks {ks es ds : List Record} (hks : ks.Pairwise fun r r' => r.i ≤ r'.i)
    (hes : es.Pairwise fun r r' => r.i ≤ r'.i) (hk : ∀ r ∈ ks, r.test.kind = .keygen)
    (he : ∀ r ∈ es, r.test.kind = .encaps) (hd : ∀ r ∈ ds, r.test.kind = .decaps) :
    (ks ++ (es ++ ds)).Pairwise fun r r' => r.test.kind.Disturbs r'.test.kind → r.i ≤ r'.i := by
  have hdecaps : ∀ k : Kind, ¬k.Disturbs .decaps := by
    rintro k ⟨p, hp, -⟩
    cases hp
  have hencaps : ¬Kind.Disturbs .keygen .encaps := by
    rintro ⟨p, hp, h⟩
    obtain rfl := List.mem_singleton.1 hp
    revert h
    decide
  have hsorted : ∀ {rs : List Record}, rs.Pairwise (fun r r' => r.i ≤ r'.i) →
      rs.Pairwise fun r r' => r.test.kind.Disturbs r'.test.kind → r.i ≤ r'.i :=
    fun h => h.imp fun {r r'} hle (_ : r.test.kind.Disturbs r'.test.kind) => hle
  refine List.pairwise_append.2 ⟨hsorted hks, List.pairwise_append.2 ⟨hsorted hes,
    List.pairwise_of_forall_mem_list fun r _ r' hr' h => ?_, fun r _ r' hr' h => ?_⟩,
      fun r hr r' hr' h => ?_⟩
  · exact absurd (hd r' hr' ▸ h) (hdecaps _)
  · exact absurd (hd r' hr' ▸ h) (hdecaps _)
  · rw [hk r hr] at h
    rcases List.mem_append.1 hr' with hr' | hr'
    · exact absurd (he r' hr' ▸ h) hencaps
    · exact absurd (hd r' hr' ▸ h) (hdecaps _)

/-- **A file in order**, from arrays that agree behind what its records compare: each record is
judged by the standard on the strings of the record alone, and what is returned is zero if and
only if the standard says the same as every record. -/
theorem ordered_exact (build : Build) (H : Hash) {rs : List Record} (hrs : ∀ r ∈ rs, r.WellFormed)
    {arr : Var → Bytes} (harr : Ready rs arr) :
    (∀ c, (readKat build H arr (rs.flatMap Record.text)).Returns c ↔
      ∃ oks, List.Forall₂ (Record.Judged H) rs oks ∧
        c = tally (fun r => Counters.count r.test.kind r.i) rs oks Counters.zero ∧
        c.failed = oks.count false) ∧
    ∀ c, (readKat build H arr (rs.flatMap Record.text)).Returns c →
      (c.failed = 0 ↔ ∀ r ∈ rs, r.Judged H true) := by
  refine returns_report (fun r hr => handled_record (hrs r hr) ?_ ?_) (fun r hr ok ok' hok hok' => ?_)
    harr
  · exact fun rs arr hI => judgedIn_iff (hI.tails r List.mem_cons_self)
  · exact fun rs arr hI arr' => hI.step
  · have htails := harr.tails r hr
    exact judgedIn_unique (hrs r hr) ((judgedIn_iff htails _).2 hok) ((judgedIn_iff htails _).2 hok')

/-- The largest parameter set uses the whole arrays. -/
theorem ready_of_largest {rs : List Record} (h : ∀ r ∈ rs, r.i = 2) (arr : Var → Bytes) :
    Ready rs arr := by
  have hused : ∀ v, used 2 v = v.size := by
    intro v
    cases v <;> decide
  have hbehind : ∀ v w, Behind 2 v w arr := fun v w q hq hlt =>
    absurd hlt (not_lt.2 ((hused v).symm.le.trans hq))
  refine ⟨List.pairwise_of_forall_mem_list fun r hr r' hr' _ => ?_, fun r hr => ?_⟩
  · rw [h r hr, h r' hr']
  · rw [h r hr]
    exact fun p _ => hbehind p.1 p.2

/-- Seeds that count up. -/
def countSeed : List UInt8 := Bytes.take (fun n => UInt8.ofNat n) 32

/-- Seeds of sevens. -/
def sevenSeed : List UInt8 := Bytes.take (fun _ => 7) 32

/-- A record of a pair of keys for these seeds. -/
def keyRecord (i : Fin 3) (ek dk : List UInt8) : Record :=
  ⟨[48], i, .keygen countSeed sevenSeed ek dk⟩

/-- A record of an encapsulation, with a shared key of zeros. -/
def encapsRecord (i : Fin 3) (ek ct : List UInt8) : Record :=
  ⟨[48], i, .encaps ek countSeed (List.replicate 32 (UInt8.ofNat 0)) ct⟩

theorem isNumber_zero : IsNumber [48] := ⟨by decide, by decide +kernel, by decide +kernel, by simp⟩

/-- A record with the keys that the standard gives. -/
theorem exists_keyRecord (i : Fin 3) : ∃ ek dk, (keyRecord i ek dk).WellFormed ∧
    (keyRecord i ek dk).Judged countHash true := by
  obtain ⟨ek, dk, hret⟩ := exists_keys_of_zero (H := countHash) (fun _ => rfl) .scalar i (fun _ => 0)
    (fun n => UInt8.ofNat n) fun _ => 7
  obtain ⟨dk', hgen, -⟩ := (returns_kemKeyGen _).1 hret
  obtain ⟨hek, hdk⟩ := length_kemKeyGen hgen (Bytes.length_take _ _)
  exact ⟨ek, dk', ⟨isNumber_zero, Bytes.length_take _ _, Bytes.length_take _ _, hek, hdk⟩,
    ek, dk', hgen, by simp⟩

/-- The shared key that the standard gives is not zero. -/
theorem exists_encapsRecord {i : Fin 3} {ek : List UInt8} (hek : ek.length = (mlkemPar i).ekSz) :
    ∃ ct, (encapsRecord i ek ct).WellFormed ∧ (encapsRecord i ek ct).Judged countHash false := by
  obtain ⟨ct, hct⟩ := (@exists_kpkeEncrypt countHash (mlkemPar i) (Bytes.ofList ek)
    (Bytes.ofList countSeed)
    (((countHash.sha3_512 (countSeed ++ (countHash.sha3_256 ek).take 32)).drop 32).take 32)).2
    ⟨_, sampleMatrix_countHash _ _⟩
  refine ⟨ct, ⟨isNumber_zero, hek, Bytes.length_take _ _, List.length_replicate,
    length_kpkeEncrypt i hct⟩, _, ct, ⟨hct, rfl⟩, iff_of_false Bool.false_ne_true fun h => ?_⟩
  have hhead : some (0 : UInt8) = some 1 := congrArg List.head? h.1
  exact absurd hhead (by decide)

/-- Right keys for two parameter sets, and a wrong shared key for the smaller one behind them. -/
theorem ordered_exact_count : ∃ ek dk ek' dk' ct c,
    (readKat .rvv countHash (fun _ _ => 0) (List.flatMap Record.text
      [keyRecord 0 ek dk, keyRecord 1 ek' dk', encapsRecord 0 ek ct])).Returns c ∧
    c.failed = 1 ∧ c.pass 0 = 1 ∧ c.pass 1 = 1 ∧ c.fail 0 = 1 := by
  obtain ⟨ek, dk, hwf, hJ⟩ := exists_keyRecord 0
  obtain ⟨ek', dk', hwf', hJ'⟩ := exists_keyRecord 1
  obtain ⟨-, -, hek, -⟩ := hwf.sized
  obtain ⟨ct, hwfe, hJe⟩ := @exists_encapsRecord 0 ek hek
  have hsame : ∀ k i, Tails k i fun _ _ => 0 := fun _ _ _ _ _ _ _ => rfl
  have hordered := @ordered_of_blocks [keyRecord 0 ek dk, keyRecord 1 ek' dk']
    [encapsRecord 0 ek ct] [] (List.pairwise_pair.2 (Fin.zero_le _)) (List.pairwise_singleton _ _)
    (by simp [keyRecord, Test.kind]) (by simp [encapsRecord, Test.kind]) (by simp)
  have hrs : ∀ r ∈ [keyRecord 0 ek dk, keyRecord 1 ek' dk', encapsRecord 0 ek ct], r.WellFormed := by
    simp [hwf, hwf', hwfe]
  have hret := ((ordered_exact .rvv countHash hrs ⟨hordered, fun r _ => hsame _ _⟩).1 _).2
    ⟨[true, true, false], .cons hJ (.cons hJ' (.cons hJe .nil)), rfl, rfl⟩
  exact ⟨ek, dk, ek', dk', ct, _, hret, rfl, rfl, rfl, rfl⟩

/-- **In any state of the arrays**, as the records before may have left it, a record passes if
and only if the standard says the same and the arrays that are compared agree behind its
strings, where the record does not determine them. -/
theorem report_in_state (build : Build) (H : Hash) {r : Record} (hr : r.WellFormed)
    (arr : Var → Bytes) (c : Counters Kind) : (readKat build H arr r.text).Returns c ↔
      ∃ ok, r.test.JudgedIn H r.i arr ok ∧
        c = Counters.count r.test.kind r.i ok Counters.zero := by
  have htext : List.flatMap Record.text [r] = r.text := List.append_nil _
  have hhandled : Handled (readKatStep fun id var alg => record build H id var alg) Record.text
      (fun r ok => r.test.JudgedIn H r.i arr ok) (fun r => Counters.count r.test.kind r.i)
      (fun rs a => rs = [] ∨ rs = [r] ∧ a = arr) r := by
    refine handled_record hr ?_ ?_
    · rintro rs a (h | ⟨-, rfl⟩) ok
      · cases h
      · exact Iff.rfl
    · rintro rs a (h | ⟨h, -⟩) arr' -
      · cases h
      · exact .inl (List.cons.inj h).2
  rw [← htext]
  refine (returns_records (List.forall_mem_singleton.2 hhandled) (readKatStep_nil _)
    (.inr ⟨rfl, rfl⟩)).trans ?_
  constructor
  · rintro ⟨oks, hoks, rfl⟩
    obtain ⟨ok, oks, hok, hnil, rfl⟩ := List.forall₂_cons_left_iff.1 hoks
    cases hnil
    exact ⟨ok, hok, rfl⟩
  · rintro ⟨ok, hok, rfl⟩
    exact ⟨[ok], .cons hok .nil, rfl⟩

/-- Right keys fail if one of the arrays that they are read into held something else. -/
theorem report_in_state_stale : ∃ ek dk, (keyRecord 0 ek dk).Judged countHash true ∧
    (readKat .rvv countHash (fun v _ => if v = .ek then 1 else 0) (keyRecord 0 ek dk).text).Returns
      (Counters.count .keygen 0 false Counters.zero) := by
  obtain ⟨ek, dk, hwf, hJ⟩ := exists_keyRecord 0
  refine ⟨ek, dk, hJ, ?_⟩
  obtain ⟨ek1, dk1, hgen, -⟩ := hJ
  refine (report_in_state .rvv countHash hwf _ _).2 ⟨false, ⟨ek1, dk1, hgen, ?_⟩, rfl⟩
  have hbehind : ¬Behind 0 .ek .ek1 fun v _ => if v = .ek then 1 else 0 := by
    intro h
    have hbyte := h 1567 (by decide) (by decide)
    cases hbyte
  exact iff_of_false Bool.false_ne_true fun h => hbehind h.1.2

/-! ## Every text -/

theorem safe_same (v w : Var) : SafeTurn (same v w) fun _ => True :=
  (safe_arr v).andThen fun _ _ => (safe_arr w).andThen fun _ _ => safe_pureTurn trivial

theorem safe_keygen (build : Build) (H : Hash) (i : Fin 3) (id : ℤ) :
    SafeTurn (keygen build H i id) Counts := by
  refine (safe_readvar _ _ _ _ _).andThen fun _ _ => (safe_readvar _ _ _ _ _).andThen fun _ _ =>
    (safe_readvar _ _ _ _ _).andThen fun _ _ => (safe_readvar _ _ _ _ _).andThen fun _ _ => ?_
  refine (safe_arr _).andThen fun rd _ => (safe_arr _).andThen fun rz _ =>
    (safe_arr _).andThen fun dk1 _ => ?_
  have hcall : (keygenInternal build H (mlkemPar i) dk1 rd rz).Safe fun _ => True :=
    (safe_kpkeKeygen build i rd).bind fun _ _ => Safe.pure trivial
  refine (safe_call hcall).andThen fun keys _ => (safe_put _ _).andThen fun _ _ =>
    (safe_set _ _).andThen fun _ _ => ?_
  exact (safe_same _ _).andThen fun _ _ => (safe_same _ _).andThen fun _ _ =>
    safe_pureTurn ⟨_, _, _, rfl⟩

theorem safe_encaps (build : Build) (H : Hash) (i : Fin 3) (id : ℤ) :
    SafeTurn (encaps build H i id) Counts := by
  refine (safe_readvar _ _ _ _ _).andThen fun _ _ => (safe_readvar _ _ _ _ _).andThen fun _ _ =>
    (safe_readvar _ _ _ _ _).andThen fun _ _ => (safe_readvar _ _ _ _ _).andThen fun _ _ => ?_
  refine (safe_arr _).andThen fun ek _ => (safe_arr _).andThen fun rm _ => ?_
  have hcall : (encapsInternal build H (mlkemPar i) ek rm).Safe fun _ => True :=
    (safe_kpkeEncrypt build i ek _ _).bind fun _ _ => Safe.pure trivial
  refine (safe_call hcall).andThen fun out _ => (safe_put _ _).andThen fun _ _ =>
    (safe_put _ _).andThen fun _ _ => ?_
  exact (safe_same _ _).andThen fun _ _ => (safe_same _ _).andThen fun _ _ =>
    safe_pureTurn ⟨_, _, _, rfl⟩

theorem safe_decaps (build : Build) (H : Hash) (i : Fin 3) (id : ℤ) :
    SafeTurn (decaps build H i id) Counts := by
  refine (safe_readvar _ _ _ _ _).andThen fun _ _ => (safe_readvar _ _ _ _ _).andThen fun _ _ =>
    (safe_readvar _ _ _ _ _).andThen fun _ _ => ?_
  refine (safe_arr _).andThen fun dk _ => (safe_arr _).andThen fun ct _ =>
    (safe_arr _).andThen fun kk1 _ => ?_
  have hcall : (decapsInternal build H (mlkemPar i) kk1 dk ct).Safe fun _ => True := by
    obtain ⟨m, hm⟩ := exists_kpkeDecrypt (mlkemPar i) dk ct
    refine (Safe.lift_pure (P := fun _ => True) ((kpkeDecrypt_iff build i).2 hm) trivial).bind
      fun _ _ => ?_
    exact (safe_kpkeEncrypt build i _ _ _).bind fun _ _ => Safe.pure trivial
  refine (safe_call hcall).andThen fun out _ => (safe_set _ _).andThen fun _ _ => ?_
  exact (safe_same _ _).andThen fun _ _ => safe_pureTurn ⟨_, _, _, rfl⟩

theorem safe_record (build : Build) (H : Hash) (id : ℤ) (var alg : List UInt8) :
    SafeTurn (record build H id var alg) Counts := by
  unfold record
  split
  · exact safe_skip
  · rename_i i _
    by_cases hkeygen : var = Kind.keygen.text
    · rw [if_pos hkeygen]
      exact safe_keygen build H i id
    · by_cases hencaps : var = Kind.encaps.text
      · rw [if_neg hkeygen, if_pos hencaps]
        exact safe_encaps build H i id
      · by_cases hdecaps : var = Kind.decaps.text
        · rw [if_neg hkeygen, if_neg hencaps, if_pos hdecaps]
          exact safe_decaps build H i id
        · rw [if_neg hkeygen, if_neg hencaps, if_neg hdecaps]
          exact safe_skip

/-- The lines of a test fit. -/
theorem fits_test {idt l : List UInt8} {t : Test} (hid : IsNumber idt) (h : t.Sized i) (hl : Fits l) :
    Fits (t.text idt ++ l) := by
  have hle : ∀ v, used i v ≤ 0x7fff := by
    intro v
    refine (used_le i v).2.trans ?_
    cases v <;> decide
  have h32 : 32 ≤ 0x7fff := by decide
  cases t with
  | keygen d z ek dk =>
    obtain ⟨hd, hz, hek, hdk⟩ := h
    rw [Test.text, List.append_assoc, List.append_assoc, List.append_assoc]
    refine fits_hexLine hid (by decide) (hd.trans_le h32) ?_
    refine fits_hexLine hid (by decide) (hz.trans_le h32) ?_
    refine fits_hexLine hid (by decide) (hek.trans_le (hle .ek)) ?_
    exact fits_hexLine hid (by decide) (hdk.trans_le (hle .dk)) hl
  | encaps ek m kk ct =>
    obtain ⟨hek, hm, hkk, hct⟩ := h
    rw [Test.text, List.append_assoc, List.append_assoc, List.append_assoc]
    refine fits_hexLine hid (by decide) (hek.trans_le (hle .ek)) ?_
    refine fits_hexLine hid (by decide) (hm.trans_le h32) ?_
    refine fits_hexLine hid (by decide) (hkk.trans_le h32) ?_
    exact fits_hexLine hid (by decide) (hct.trans_le (hle .ct)) hl
  | decaps dk ct kk =>
    obtain ⟨hdk, hct, hkk⟩ := h
    rw [Test.text, List.append_assoc, List.append_assoc]
    refine fits_hexLine hid (by decide) (hdk.trans_le (hle .dk)) ?_
    refine fits_hexLine hid (by decide) (hct.trans_le (hle .ct)) ?_
    exact fits_hexLine hid (by decide) (hkk.trans_le h32) hl

/-- A record fits. -/
theorem fits_record {r : Record} (h : r.WellFormed) {l : List UInt8} (hl : Fits l) :
    Fits (r.text ++ l) := by
  have hkind : r.test.kind.text.length < bufSize := by
    cases r.test.kind <;> decide
  have hname : ∀ i, (parName i).length < bufSize := by
    decide
  rw [Record.text, List.append_assoc]
  exact fits_lineText h.number hkind (hname r.i) (fits_test h.number h.sized hl)

/-- **Every text is read safely** whose words fit into `buf`, and a file of records is such a
text: no buffer overflows and no check of the three functions fails, in either build and however
malformed the records are; and each record that is counted is a pass or a failure. -/
theorem reading_safe (build : Build) (H : Hash) (arr : Var → Bytes) :
    (∀ file, Fits file → (readKat build H arr file).Safe (Counters.Balanced file.length)) ∧
    ∀ rs : List Record, (∀ r ∈ rs, r.WellFormed) → Fits (rs.flatMap Record.text) :=
  ⟨fun _ hfits => safe_readKat_balanced (safe_record build H) hfits arr,
    fun _ hrs => fits_flatMap fun r hr _ hl => fits_record (hrs r hr) hl⟩

end TestKyber
