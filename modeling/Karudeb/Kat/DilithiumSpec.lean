import Karudeb.Kat.Dilithium
import Karudeb.Mldsa.Binding
import Karudeb.Mldsa.Interface
import Karudeb.Mldsa.Safety

/-!
# What the check of known answers says

Files of records, one line a string: its number, its label and its digits, without the colon
that `print_hex` puts behind a label.  This is what `read_kat` reports about them.

* `readKat_exact` : each record is judged by one call of its function on the strings of the
  record alone, and what is returned is the number of records that are wrong.
* `readKat_safe` : no text makes it overflow a buffer, unless a word of the text is longer
  than that, and every record that is counted is a pass or a failure.
-/

namespace TestDilithium

open Kat Mldsa Prog Scan

variable {H : Hash} {i : Fin 3}

/-! ## Files of records -/

/-- A test of a record, with the strings of its lines. -/
inductive Test
  | keygen (xi pk sk : List UInt8)
  | siggen (sk mp rnd sig : List UInt8)
  | sigver (pk mp sig : List UInt8) (res : Bool)

/-- A record. -/
structure Record where
  /-- The digits of its number. -/
  idt : List UInt8
  /-- Its parameter set. -/
  i : Fin 3
  /-- Its test. -/
  test : Test

/-- The kind of a test. -/
def Test.kind : Test → Kind
  | keygen .. => .keygen
  | siggen .. => .siggen
  | sigver .. => .sigver

/-- The lines behind the first one. -/
def Test.text (idt : List UInt8) : Test → List UInt8
  | keygen xi pk sk => hexLine idt ['x', 'i'] xi ++ (hexLine idt ['p', 'k'] pk ++
      hexLine idt ['s', 'k'] sk)
  | siggen sk mp rnd sig => hexLine idt ['s', 'k'] sk ++ (hexLine idt ['m', 'p'] mp ++
      (hexLine idt ['r', 'n', 'd'] rnd ++ hexLine idt ['s', 'i', 'g'] sig))
  | sigver pk mp sig res => hexLine idt ['p', 'k'] pk ++ (hexLine idt ['m', 'p'] mp ++
      (hexLine idt ['s', 'i', 'g'] sig ++
        lineText idt (ascii ['r', 'e', 's']) [if res then 49 else 48]))

/-- The text of a record. -/
def Record.text (r : Record) : List UInt8 :=
  lineText r.idt r.test.kind.text (parName r.i) ++ r.test.text r.idt

/-- A message that a line has room for. -/
def Message (mp : List UInt8) : Prop := mp ≠ [] ∧ mp.length ≤ 0x7fff

/-- The strings of a test have the sizes of its parameter set. -/
def Test.Sized (i : Fin 3) : Test → Prop
  | keygen xi pk sk =>
    xi.length = 32 ∧ pk.length = (mldsaPar i).pkSz ∧ sk.length = (mldsaPar i).skSz
  | siggen sk mp rnd sig => sk.length = (mldsaPar i).skSz ∧ Message mp ∧ rnd.length = 32 ∧
      sig.length = (mldsaPar i).sigSz
  | sigver pk mp sig _ => pk.length = (mldsaPar i).pkSz ∧ Message mp ∧
      sig.length = (mldsaPar i).sigSz

/-- A record as it should be. -/
structure Record.WellFormed (r : Record) : Prop where
  number : IsNumber r.idt
  sized : r.test.Sized r.i

/-- One call of the function of a test on its strings says `ok`. -/
def Test.Judged (H : Hash) (i : Fin 3) : Test → Bool → Prop
  | keygen xi pk sk, ok => ∃ pk1 sk1,
      (keygenInternal H (mldsaPar i) (Bytes.ofList xi)).Returns (pk1, sk1) ∧
      (ok = true ↔ pk = pk1 ∧ sk = sk1)
  | siggen sk mp rnd sig, ok => ∃ sig1, (signInternal H (mldsaPar i) (fun _ => 0) (Bytes.ofList sk) mp
      (Bytes.ofList rnd)).Returns (sig1, (mldsaPar i).sigSz) ∧
      (ok = true ↔ sig = sig1.take (mldsaPar i).sigSz)
  | sigver pk mp sig res, ok => ∃ v, (verifyInternal H (mldsaPar i) (Bytes.ofList pk) mp
      (Bytes.ofList sig) (mldsaPar i).sigSz).Returns v ∧ (ok = true ↔ v = if res then 1 else 0)

/-- A record is judged. -/
def Record.Judged (H : Hash) (r : Record) (ok : Bool) : Prop := r.test.Judged H r.i ok

theorem Record.Judged.unique {r : Record} {ok ok' : Bool} (h : r.Judged H ok) (h' : r.Judged H ok') :
    ok = ok' := by
  obtain ⟨idt, i, test⟩ := r
  cases test with
  | keygen xi pk sk =>
    obtain ⟨pk1, sk1, hret, hok⟩ := h
    obtain ⟨pk2, sk2, hret', hok'⟩ := h'
    cases returns_unique hret hret'
    exact Bool.eq_iff_iff.2 (hok.trans hok'.symm)
  | siggen sk mp rnd sig =>
    obtain ⟨sig1, hret, hok⟩ := h
    obtain ⟨sig2, hret', hok'⟩ := h'
    cases returns_unique hret hret'
    exact Bool.eq_iff_iff.2 (hok.trans hok'.symm)
  | sigver pk mp sig res =>
    obtain ⟨v, hret, hok⟩ := h
    obtain ⟨v', hret', hok'⟩ := h'
    cases returns_unique hret hret'
    exact Bool.eq_iff_iff.2 (hok.trans hok'.symm)

/-! ## Sizes and words -/

/-- Every array is as large as the largest parameter set needs. -/
theorem sizes_le (i : Fin 3) : (0 < (mldsaPar i).pkSz ∧ (mldsaPar i).pkSz ≤ Var.pk.size) ∧
    (0 < (mldsaPar i).skSz ∧ (mldsaPar i).skSz ≤ Var.sk.size) ∧
    0 < (mldsaPar i).sigSz ∧ (mldsaPar i).sigSz ≤ Var.sig.size := by
  fin_cases i <;> decide

theorem parName_injective : Function.Injective parName := by
  intro i j h
  revert i j
  decide

theorem isWord_parName (i : Fin 3) : IsWord (parName i) := by
  fin_cases i <;> decide +kernel

theorem isWord_kind (k : Kind) : IsWord k.text := by
  cases k <;> decide +kernel

theorem length_keys {seed : Bytes} {pk sk : List UInt8}
    (h : (keygenInternal H (mldsaPar i) seed).Returns (pk, sk)) :
    pk.length = (mldsaPar i).pkSz ∧ sk.length = (mldsaPar i).skSz := by
  obtain ⟨A, s1, s2, -, -, rfl, rfl⟩ := (returns_keygen_vectors i).1 h
  exact ⟨length_pkEncode i (Bytes.length_take _ _) _,
    length_skEncode i (Bytes.length_take _ _) (Bytes.length_take _ _) (Bytes.length_take _ _) _ _ _⟩

/-! ## One line -/

section

variable {β : Type} {idt data rest : List UInt8} {arr : Var → Bytes}

/-- A message. -/
theorem returns_readMp_andThen {f : List UInt8 → Turn Var β} {r : Option β × State Var}
    (hid : IsNumber idt) (hmp : Message data) (hrest : skipSpace rest = rest) :
    ((readMp (decimal idt) >>= f) ⟨hexLine idt ['m', 'p'] data ++ rest, arr⟩).Returns r ↔
      (f data ⟨rest, store arr .mp data⟩).Returns r := by
  obtain ⟨hne, hlen⟩ := hmp
  have hparse : parseHex Var.mp.size (hexText data) = data :=
    parseHex_hexText (hlen.trans (by decide))
  refine returns_andThen_of fun b => ?_
  have hlab : IsWord (ascii ['m', 'p']) := by decide +kernel
  refine (returns_andThen_of (returns_bufRead hid hlab (isWord_hexText hne) rfl hrest)).trans ?_
  refine (returns_andThen_of (returns_bufParse Var.mp _ _ _)).trans ?_
  rw [hparse]
  refine returns_arr.trans ?_
  dsimp only
  rw [take_store rfl]
  exact returns_pureTurn

end

/-! ## The three branches -/

section

variable {idt rest : List UInt8} {arr : Var → Bytes}

/-- What the three branches do: the record is judged by its strings alone. -/
def JudgesAlone (H : Hash) (i : Fin 3) (x : Turn Var (Counters Kind → Counters Kind))
    (st : State Var) (rest : List UInt8) (t : Test) : Prop :=
  Judges x st rest t.kind i (t.Judged H i) fun _ => True

theorem judges_keygen {xi pk sk : List UInt8} (hid : IsNumber idt)
    (hsized : (Test.keygen xi pk sk).Sized i) (hrest : skipSpace rest = rest) :
    JudgesAlone H i (keygen H i (decimal idt)) ⟨(Test.keygen xi pk sk).text idt ++ rest, arr⟩ rest
      (.keygen xi pk sk) := by
  obtain ⟨hxi, hpk, hsk⟩ := hsized
  obtain ⟨⟨hpk0, hpkle⟩, ⟨hsk0, hskle⟩, -⟩ := sizes_le i
  have hlab : IsWord (ascii ['x', 'i']) ∧ IsWord (ascii ['p', 'k']) ∧ IsWord (ascii ['s', 'k']) := by
    decide +kernel
  obtain ⟨hwxi, hwpk, hwsk⟩ := hlab
  rw [Test.text, List.append_assoc, List.append_assoc]
  refine Judges.of_iff (fun _ => returns_readvar_andThen hid hwxi (by decide) hxi le_rfl
    (skipSpace_lineText hid _)) ?_
  refine Judges.of_iff (fun _ => returns_readvar_andThen hid hwpk hpk0 hpk hpkle
    (skipSpace_lineText hid _)) ?_
  refine Judges.of_iff (fun _ => returns_readvar_andThen hid hwsk hsk0 hsk hskle hrest) ?_
  refine Judges.of_iff (fun _ => returns_arr) ?_
  have hseed : (store (store (store arr .xi xi) .pk pk) .sk sk .xi).take 32 =
      (Bytes.ofList xi).take 32 := by
    rw [store_of_ne (by decide), store_of_ne (by decide), take_store hxi,
      Bytes.take_ofList_of_length hxi]
  have hpkarr : (store (store (store arr .xi xi) .pk pk) .sk sk .pk).take (mldsaPar i).pkSz = pk := by
    rw [store_of_ne (by decide), take_store hpk]
  have hskarr : (store (store (store arr .xi xi) .pk pk) .sk sk .sk).take (mldsaPar i).skSz = sk :=
    take_store hsk
  refine Judges.of_call (fun keys => pk = keys.1 ∧ sk = keys.2) (fun _ =>
    store (store (store arr .xi xi) .pk pk) .sk sk) ?_ ?_ fun _ _ => trivial
  · rintro ⟨pk1, sk1⟩ hret b
    obtain ⟨hpk1, hsk1⟩ := length_keys hret
    refine returns_arr.trans (returns_arr.trans (returns_pureTurn.trans ?_))
    dsimp only
    rw [hpkarr, hskarr, Bytes.take_ofList_of_length hpk1, Bytes.take_ofList_of_length hsk1]
    exact Iff.rfl
  · intro ok
    rw [Prod.exists]
    dsimp only
    rw [keygenInternal_congr hseed]
    exact Iff.rfl

theorem judges_siggen {sk mp rnd sig : List UInt8} (hid : IsNumber idt)
    (hsized : (Test.siggen sk mp rnd sig).Sized i) (hrest : skipSpace rest = rest) :
    JudgesAlone H i (siggen H i (decimal idt)) ⟨(Test.siggen sk mp rnd sig).text idt ++ rest, arr⟩ rest
      (.siggen sk mp rnd sig) := by
  obtain ⟨hsk, hmp, hrnd, hsig⟩ := hsized
  obtain ⟨-, ⟨hsk0, hskle⟩, hsig0, hsigle⟩ := sizes_le i
  have hlab : IsWord (ascii ['s', 'k']) ∧ IsWord (ascii ['r', 'n', 'd']) ∧
      IsWord (ascii ['s', 'i', 'g']) := by
    decide +kernel
  obtain ⟨hwsk, hwrnd, hwsig⟩ := hlab
  rw [Test.text, List.append_assoc, List.append_assoc, List.append_assoc]
  refine Judges.of_iff (fun _ => returns_readvar_andThen hid hwsk hsk0 hsk hskle
    (skipSpace_lineText hid _)) ?_
  refine Judges.of_iff (fun _ => returns_readMp_andThen hid hmp (skipSpace_lineText hid _)) ?_
  refine Judges.of_iff (fun _ => returns_readvar_andThen hid hwrnd (by decide) hrnd le_rfl
    (skipSpace_lineText hid _)) ?_
  refine Judges.of_iff (fun _ => returns_readvar_andThen hid hwsig hsig0 hsig hsigle hrest) ?_
  refine Judges.of_iff (fun _ => returns_arr.trans (returns_arr.trans returns_arr)) ?_
  have hskarr : (store (store (store (store arr .sk sk) .mp mp) .rnd rnd) .sig sig .sk).take
      (mldsaPar i).skSz = (Bytes.ofList sk).take (mldsaPar i).skSz := by
    rw [store_of_ne (by decide), store_of_ne (by decide), store_of_ne (by decide), take_store hsk,
      Bytes.take_ofList_of_length hsk]
  have hrndarr : (store (store (store (store arr .sk sk) .mp mp) .rnd rnd) .sig sig .rnd).take 32 =
      (Bytes.ofList rnd).take 32 := by
    rw [store_of_ne (by decide), take_store hrnd, Bytes.take_ofList_of_length hrnd]
  have hsigarr : (store (store (store (store arr .sk sk) .mp mp) .rnd rnd) .sig sig .sig).take
      (mldsaPar i).sigSz = sig := take_store hsig
  refine Judges.of_call (fun out => sig = out.1.take (mldsaPar i).sigSz) (fun out => Function.update
    (store (store (store (store arr .sk sk) .mp mp) .rnd rnd) .sig sig) .sig1 out.1) ?_ ?_
    fun _ _ => trivial
  · rintro ⟨out, sz⟩ hret b
    obtain ⟨rfl, -, -⟩ := returns_signInternal_congr rfl rfl hret (fun _ => 0)
    refine returns_set.trans ?_
    rw [if_neg (by simp)]
    refine returns_arr.trans (returns_pureTurn.trans ?_)
    have hne : Var.sig ≠ Var.sig1 := by decide
    simp only [Function.update_of_ne hne, hsigarr]
    exact Iff.rfl
  · intro ok
    -- the result depends on the bytes of the strings alone, whatever is behind them
    have htake : ∀ (b out : Bytes) (n : ℕ), (b.put 0 (out.take n)).take n = out.take n := by
      intro b out n
      have hput := Bytes.take_put b (out.take n)
      rwa [Bytes.length_take] at hput
    constructor
    · rintro ⟨sig1, hret, hok⟩
      obtain ⟨-, -, hret'⟩ := returns_signInternal_congr hskarr.symm hrndarr.symm hret _
      exact ⟨_, hret', by rwa [htake]⟩
    · rintro ⟨⟨out, sz⟩, hret, hok⟩
      obtain ⟨rfl, -, hret'⟩ := returns_signInternal_congr hskarr hrndarr hret (fun _ => 0)
      exact ⟨_, hret', by rwa [htake]⟩

theorem judges_sigver {pk mp sig : List UInt8} {res : Bool} (hid : IsNumber idt)
    (hsized : (Test.sigver pk mp sig res).Sized i) (hrest : skipSpace rest = rest) :
    JudgesAlone H i (sigver H i (decimal idt)) ⟨(Test.sigver pk mp sig res).text idt ++ rest, arr⟩
      rest (.sigver pk mp sig res) := by
  obtain ⟨hpk, hmp, hsig⟩ := hsized
  obtain ⟨⟨hpk0, hpkle⟩, -, hsig0, hsigle⟩ := sizes_le i
  have hlab : IsWord (ascii ['p', 'k']) ∧ IsWord (ascii ['s', 'i', 'g']) ∧
      IsWord (ascii ['r', 'e', 's']) := by
    decide +kernel
  obtain ⟨hwpk, hwsig, hwres⟩ := hlab
  have hdigit : IsWord [if res then 49 else 48] := by
    cases res <;> decide +kernel
  have hread : (if [if res then (49 : UInt8) else 48].headD 0 = 49 then 1 else 0) =
      if res then 1 else 0 := by
    cases res <;> rfl
  rw [Test.text, List.append_assoc, List.append_assoc, List.append_assoc]
  refine Judges.of_iff (fun _ => returns_readvar_andThen hid hwpk hpk0 hpk hpkle
    (skipSpace_lineText hid _)) ?_
  refine Judges.of_iff (fun _ => returns_readMp_andThen hid hmp (skipSpace_lineText hid _)) ?_
  refine Judges.of_iff (fun _ => returns_readvar_andThen hid hwsig hsig0 hsig hsigle
    (skipSpace_lineText hid _)) ?_
  refine Judges.of_iff (fun _ => returns_andThen_of (returns_bufRead hid hwres hdigit rfl hrest)) ?_
  refine Judges.of_iff (fun _ => returns_arr.trans returns_arr) ?_
  have hpkarr : (store (store (store arr .pk pk) .mp mp) .sig sig .pk).take (mldsaPar i).pkSz =
      (Bytes.ofList pk).take (mldsaPar i).pkSz := by
    rw [store_of_ne (by decide), store_of_ne (by decide), take_store hpk,
      Bytes.take_ofList_of_length hpk]
  have hsigarr : (store (store (store arr .pk pk) .mp mp) .sig sig .sig).take (mldsaPar i).sigSz =
      (Bytes.ofList sig).take (mldsaPar i).sigSz := by
    rw [take_store hsig, Bytes.take_ofList_of_length hsig]
  refine Judges.of_call (fun v => (if res then 1 else 0) = v) (fun _ =>
    store (store (store arr .pk pk) .mp mp) .sig sig) ?_ ?_ fun _ _ => trivial
  · intro v _ b
    refine returns_pureTurn.trans ?_
    rw [hread]
    exact Iff.rfl
  · intro ok
    exact exists_congr fun v => and_congr (returns_verifyInternal_congr hpkarr hsigarr).symm
      (iff_congr Iff.rfl eq_comm)

end

/-! ## The whole file -/

/-- The branch of a kind. -/
theorem record_eq (H : Hash) (i : Fin 3) (id : ℤ) (k : Kind) : record H id k.text (parName i) =
    match k with
    | .keygen => keygen H i id
    | .siggen => siggen H i id
    | .sigver => sigver H i id := by
  unfold record
  rw [findPar_name parName_injective]
  cases k with
  | keygen => exact if_pos rfl
  | siggen => exact (if_neg (by decide)).trans (if_pos rfl)
  | sigver => exact (if_neg (by decide)).trans ((if_neg (by decide)).trans (if_pos rfl))

theorem handled_record {r : Record} (h : r.WellFormed) :
    Handled (readKatStep fun id var alg => record H id var alg) Record.text (Record.Judged H)
      (fun r => Counters.count r.test.kind r.i) (fun _ _ => True) r := by
  obtain ⟨idt, i, test⟩ := r
  obtain ⟨hid, hsized⟩ := h
  have hlen : test.kind.text.length ≤ 15 := by
    cases test.kind <;> decide
  have hlen' : (parName i).length ≤ 15 := by
    fin_cases i <;> decide
  refine @handled_of_judges Kind Record Var _ (fun id var alg => record H id var alg) Record.idt
    (fun r => r.test.kind.text) (fun r => parName r.i) (fun r => r.test.text r.idt)
    (fun r => r.test.kind) Record.i (Record.Judged H) (fun _ _ => True) ⟨idt, i, test⟩ hid
    (isWord_kind _) (isWord_parName i) hlen hlen' fun rs rest arr hrest _ => ?_
  dsimp only
  rw [record_eq]
  cases test with
  | keygen xi pk sk => exact judges_keygen hid hsized hrest
  | siggen sk mp rnd sig => exact judges_siggen hid hsized hrest
  | sigver pk mp sig res => exact judges_sigver hid hsized hrest

/-- **What `read_kat` reports about a file of records**, whatever its arrays hold at the start.
Each record is judged by one call of its function on the strings of the record alone, so that
nothing is left over from the records before; the counters say how many of each kind there
were and how the tests of each parameter set went; and what is returned is the number of
records that are wrong, which is zero if and only if the functions reproduce all of them. -/
theorem readKat_exact (H : Hash) (arr : Var → Bytes) {rs : List Record}
    (hrs : ∀ r ∈ rs, r.WellFormed) :
    (∀ c, (readKat H arr (rs.flatMap Record.text)).Returns c ↔
      ∃ oks, List.Forall₂ (Record.Judged H) rs oks ∧
        c = tally (fun r => Counters.count r.test.kind r.i) rs oks Counters.zero ∧
        c.failed = oks.count false) ∧
    ∀ c, (readKat H arr (rs.flatMap Record.text)).Returns c →
      (c.failed = 0 ↔ ∀ r ∈ rs, r.Judged H true) := by
  exact returns_report (fun r hr => handled_record (hrs r hr))
    (fun r _ ok ok' => Record.Judged.unique) trivial

/-- A record that says whether a signature of the message 1 is accepted. -/
def sigverRecord (i : Fin 3) (pk sig : List UInt8) (res : Bool) : Record :=
  ⟨[48], i, .sigver pk [UInt8.ofNat 1] sig res⟩

/-- A signature that is accepted, with a record that says so and one that does not. -/
theorem readKat_exact_const : ∃ pk sig c, (readKat constHash (fun _ _ => 0) (List.flatMap Record.text
    [sigverRecord 0 pk sig true, sigverRecord 0 pk sig false])).Returns c ∧
    c.failed = 1 ∧ c.pass 0 = 1 ∧ c.fail 0 = 1 := by
  obtain ⟨b, hb⟩ := exists_accepted_constHash fun _ => 0
  have htake : ∀ (b : Bytes) (n : ℕ), ∃ l : List UInt8, l.length = n ∧
      (Bytes.ofList l).take n = b.take n := fun b n =>
    ⟨b.take n, Bytes.length_take _ _, Bytes.take_ofList_of_length (Bytes.length_take _ _)⟩
  obtain ⟨pk, hpk, hpk'⟩ := htake (fun _ => 0) (mldsaPar 0).pkSz
  obtain ⟨sig, hsig, hsig'⟩ := htake b (mldsaPar 0).sigSz
  have hnumber : IsNumber [48] := ⟨by decide, by decide +kernel, by decide +kernel, by simp⟩
  have hwf : ∀ res, (sigverRecord 0 pk sig res).WellFormed := fun res =>
    ⟨hnumber, hpk, ⟨by decide, by decide⟩, hsig⟩
  have hJ : ∀ res, (sigverRecord 0 pk sig res).Judged constHash res := fun res =>
    ⟨1, (returns_verifyInternal_congr hpk' hsig').2 (hb [UInt8.ofNat 1]), by cases res <;> decide⟩
  have hrs : ∀ r ∈ [sigverRecord 0 pk sig true, sigverRecord 0 pk sig false], r.WellFormed := by
    simp [hwf]
  have hret := ((readKat_exact constHash (fun _ _ => 0) hrs).1 _).2
    ⟨[true, false], .cons (hJ true) (.cons (hJ false) .nil), rfl, rfl⟩
  exact ⟨_, _, _, hret, rfl, rfl, rfl⟩

/-! ## Every text -/

theorem safe_keygen (H : Hash) (i : Fin 3) (id : ℤ) : SafeTurn (keygen H i id) Counts := by
  refine (safe_readvar _ _ _ _ _).andThen fun _ _ => (safe_readvar _ _ _ _ _).andThen fun _ _ =>
    (safe_readvar _ _ _ _ _).andThen fun _ _ => (safe_arr _).andThen fun xi _ => ?_
  refine (safe_call (safe_keygenInternal i xi)).andThen fun keys _ => ?_
  refine (safe_arr _).andThen fun _ _ => (safe_arr _).andThen fun _ _ => ?_
  exact safe_pureTurn ⟨_, _, _, rfl⟩

theorem safe_readMp (id : ℤ) : SafeTurn (readMp id) fun _ => True :=
  (safe_bufRead _ id).andThen fun buf _ => (safe_bufParse _ _ buf).andThen fun _ _ =>
    (safe_arr _).andThen fun _ _ => safe_pureTurn trivial

theorem safe_siggen (H : Hash) (i : Fin 3) (id : ℤ) : SafeTurn (siggen H i id) Counts := by
  refine (safe_readvar _ _ _ _ _).andThen fun _ _ => (safe_readMp id).andThen fun mp _ =>
    (safe_readvar _ _ _ _ _).andThen fun _ _ => (safe_readvar _ _ _ _ _).andThen fun _ _ => ?_
  refine (safe_arr _).andThen fun sk _ => (safe_arr _).andThen fun rnd _ =>
    (safe_arr _).andThen fun sig1 _ => ?_
  refine (safe_call (safe_signInternal i sig1 sk mp rnd)).andThen fun out _ => ?_
  refine (safe_set _ _).andThen fun _ _ => ?_
  split
  · exact safe_skip
  · exact (safe_arr _).andThen fun _ _ => safe_pureTurn ⟨_, _, _, rfl⟩

theorem safe_sigver (H : Hash) (i : Fin 3) (id : ℤ) : SafeTurn (sigver H i id) Counts := by
  refine (safe_readvar _ _ _ _ _).andThen fun _ _ => (safe_readMp id).andThen fun mp _ =>
    (safe_readvar _ _ _ _ _).andThen fun _ _ => (safe_bufRead _ id).andThen fun buf _ => ?_
  refine (safe_arr _).andThen fun pk _ => (safe_arr _).andThen fun sig _ => ?_
  refine (safe_call (safe_verifyInternal i pk mp sig _)).andThen fun v _ => ?_
  exact safe_pureTurn ⟨_, _, _, rfl⟩

theorem safe_record (H : Hash) (id : ℤ) (var alg : List UInt8) :
    SafeTurn (record H id var alg) Counts := by
  unfold record
  split
  · exact safe_skip
  · rename_i i _
    by_cases hkeygen : var = Kind.keygen.text
    · rw [if_pos hkeygen]
      exact safe_keygen H i id
    · by_cases hsiggen : var = Kind.siggen.text
      · rw [if_neg hkeygen, if_pos hsiggen]
        exact safe_siggen H i id
      · by_cases hsigver : var = Kind.sigver.text
        · rw [if_neg hkeygen, if_neg hsiggen, if_pos hsigver]
          exact safe_sigver H i id
        · rw [if_neg hkeygen, if_neg hsiggen, if_neg hsigver]
          exact safe_skip

/-- The lines of a test fit. -/
theorem fits_test {idt l : List UInt8} {t : Test} (hid : IsNumber idt) (h : t.Sized i) (hl : Fits l) :
    Fits (t.text idt ++ l) := by
  have hle : (mldsaPar i).pkSz ≤ 0x7fff ∧ (mldsaPar i).skSz ≤ 0x7fff ∧
      (mldsaPar i).sigSz ≤ 0x7fff := by
    fin_cases i <;> decide
  obtain ⟨hpk, hsk, hsig⟩ := hle
  have h32 : 32 ≤ 0x7fff := by decide
  cases t with
  | keygen xi pk sk =>
    obtain ⟨hxi, hpk', hsk'⟩ := h
    rw [Test.text, List.append_assoc, List.append_assoc]
    refine fits_hexLine hid (by decide) (hxi.trans_le h32) ?_
    refine fits_hexLine hid (by decide) (hpk'.trans_le hpk) ?_
    exact fits_hexLine hid (by decide) (hsk'.trans_le hsk) hl
  | siggen sk mp rnd sig =>
    obtain ⟨hsk', ⟨-, hmp⟩, hrnd, hsig'⟩ := h
    rw [Test.text, List.append_assoc, List.append_assoc, List.append_assoc]
    refine fits_hexLine hid (by decide) (hsk'.trans_le hsk) ?_
    refine fits_hexLine hid (by decide) hmp ?_
    refine fits_hexLine hid (by decide) (hrnd.trans_le h32) ?_
    exact fits_hexLine hid (by decide) (hsig'.trans_le hsig) hl
  | sigver pk mp sig res =>
    obtain ⟨hpk', ⟨-, hmp⟩, hsig'⟩ := h
    rw [Test.text, List.append_assoc, List.append_assoc, List.append_assoc]
    refine fits_hexLine hid (by decide) (hpk'.trans_le hpk) ?_
    refine fits_hexLine hid (by decide) hmp ?_
    refine fits_hexLine hid (by decide) (hsig'.trans_le hsig) ?_
    exact fits_lineText hid (by decide) (Nat.one_lt_two_pow (by decide : 16 ≠ 0)) hl

/-- A record fits. -/
theorem fits_record {r : Record} (h : r.WellFormed) {l : List UInt8} (hl : Fits l) :
    Fits (r.text ++ l) := by
  have hkind : r.test.kind.text.length < bufSize := by
    cases r.test.kind <;> decide
  have hname : ∀ i, (parName i).length < bufSize := by
    decide
  rw [Record.text, List.append_assoc]
  exact fits_lineText h.number hkind (hname r.i) (fits_test h.number h.sized hl)

/-- A word that is too long for `buf`, in the first line behind that of a key pair. -/
theorem not_safe_record {idt w : List UInt8} (hid : IsNumber idt) (hw : IsWord w)
    (hlong : bufSize ≤ w.length) (arr : Var → Bytes) : ¬(readKat H arr
      (lineText idt Kind.keygen.text (parName i) ++ lineText idt (ascii ['x', 'i']) w)).Safe
        fun _ => True := by
  have hlab : IsWord (ascii ['x', 'i']) := by decide +kernel
  have hname : ∀ i, (parName i).length ≤ 15 := by decide
  refine not_safe_readKat hid (isWord_kind .keygen) (isWord_parName i) (by decide) (hname i) ?_ _
  rw [record_eq]
  exact (fails_readvar Var.xi _ _ hid hlab hw hlong (List.append_nil _).symm).bind _

/-- **Every text is read safely** whose words fit into `buf`, and a file of records is such a
text: no buffer overflows and no check of the three functions fails, however malformed the
records are; and each record that is counted is a pass or a failure, so that no counter can
exceed the length of the file.  Words that do not fit overflow `buf`. -/
theorem readKat_safe (H : Hash) (arr : Var → Bytes) :
    (∀ file, Fits file → (readKat H arr file).Safe (Counters.Balanced file.length)) ∧
    (∀ rs : List Record, (∀ r ∈ rs, r.WellFormed) → Fits (rs.flatMap Record.text)) ∧
    ∀ (idt w : List UInt8) (i : Fin 3), IsNumber idt → IsWord w → bufSize ≤ w.length →
      ¬(readKat H arr (lineText idt Kind.keygen.text (parName i) ++
        lineText idt (ascii ['x', 'i']) w)).Safe fun _ => True :=
  ⟨fun _ hfits => safe_readKat_balanced (safe_record H) hfits arr,
    fun _ hrs => fits_flatMap fun r hr _ hl => fits_record (hrs r hr) hl,
    fun _ _ _ hid hw hlong => not_safe_record hid hw hlong arr⟩

end TestDilithium
