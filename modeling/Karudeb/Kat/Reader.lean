import Karudeb.Kat.Hex
import Karudeb.Lib.Buffer
import Karudeb.Lib.Prog

/-!
# Reading files of known answers

What the two functions `read_kat` share: the macros that read a labelled line, and the loop
over the lines of the file.  The variables that bytes are read into keep what they hold from
one record to the next.

* `Turn` : a piece of the body of the loop, which may `continue`.
* `returns_bufRead`, `returns_readvar` : a line that is as it should be is read.
* `returns_readKatStep`, `returns_records` : so is a record, and a file of records.
* `safe_readKat`, `not_safe_readKat` : no buffer overflows, unless a string of the file is too
  long for it.
-/

namespace Kat

open Scan Prog

/-! ## Pieces of the loop -/

/-- What is left of the file, and the arrays that are read into. -/
structure State (V : Type) where
  /-- What is left. -/
  inp : List UInt8
  /-- The arrays. -/
  arr : V → Bytes

variable {V α β : Type}

/-- Store a string at the start of an array. -/
def store [DecidableEq V] (arr : V → Bytes) (v : V) (l : List UInt8) : V → Bytes :=
  Function.update arr v ((arr v).put 0 l)

/-- A piece of the body of the loop: it gives something, or it is left by `continue`. -/
def Turn (V α : Type) : Type := State V → Prog (Option α × State V)

/-- One piece behind another one. -/
def Turn.andThen (x : Turn V α) (f : α → Turn V β) : Turn V β := fun st => do
  let (a, st) ← x st
  match a with
  | none => pure (none, st)
  | some a => f a st

instance : Monad (Turn V) where
  pure a := fun st => pure (some a, st)
  bind := Turn.andThen

namespace Turn

/-- `continue`. -/
def skip : Turn V α := fun st => pure (none, st)

/-- A call. -/
def call (p : Prog α) : Turn V α := fun st => do
  let a ← p
  pure (some a, st)

/-- What an array holds. -/
def arr (v : V) : Turn V Bytes := fun st => pure (some (st.arr v), st)

/-- Overwrite an array. -/
def set [DecidableEq V] (v : V) (b : Bytes) : Turn V Unit := fun st =>
  pure (some (), { st with arr := Function.update st.arr v b })

/-- Store a string at the start of an array. -/
def put [DecidableEq V] (v : V) (l : List UInt8) : Turn V Unit := fun st =>
  pure (some (), { st with arr := store st.arr v l })

end Turn

/-! ## The code -/

/-- `sizeof(buf)`. -/
def bufSize : ℕ := 0x10000

/-- `"%d " LAB " %s\n"`. -/
def lineFormat (lab : List UInt8) : List Directive :=
  .int :: .space :: (lab.map .lit ++ [.space, .str none, .space])

/-- `KATF_BUF_READ`, with the string that is in `buf` then.  Without a width, nothing but the
size of `buf` limits it. -/
def katfBufRead (lab : List UInt8) (id : ℤ) : Turn V (List UInt8) := fun st => do
  let (items, rest) := scan (lineFormat lab) st.inp
  let st := { st with inp := rest }
  match items with
  | [.int no, .str s] => do
    Chk.require (s.length < bufSize)
    pure (if no = id then some (cstr s) else none, st)
  | _ => pure (none, st)

/-- `KATF_BUF_PARSE`, into an array of `n` bytes. -/
def katfBufParse [DecidableEq V] (v : V) (n : ℕ) (buf : List UInt8) : Turn V ℕ := do
  let l := parseHex n buf
  Turn.put v l
  pure l.length

/-- `KATF_BUF_READVAR`, into an array of `n` bytes. -/
def katfBufReadvar [DecidableEq V] (v : V) (n : ℕ) (lab : List UInt8) (siz : ℕ) (id : ℤ) :
    Turn V Unit := do
  let buf ← katfBufRead lab id
  let len ← katfBufParse v n buf
  if len ≠ siz then Turn.skip else pure ()

/-- `"%d %15s %15s\n"`. -/
def headerFormat : List Directive := [.int, .space, .str (some 15), .space, .str (some 15), .space]

/-- The loop of `read_kat`.  What is done with a record of a given number, kind and
algorithm is a change of the counters. -/
def readKatStep {C : Type} (body : ℤ → List UInt8 → List UInt8 → Turn V (C → C)) :
    State V × C → Prog ((State V × C) ⊕ C)
  | (st, c) =>
    match fgets (bufSize - 1) st.inp with
    | none => pure (.inr c)
    | some (line, rest) =>
      let st := { st with inp := rest }
      match (scan headerFormat (cstr line)).1 with
      | [.int id, .str var, .str alg] => do
        let (f, st) ← body id var alg st
        pure (.inl (st, match f with
          | none => c
          | some f => f c))
      | _ => pure (.inl (st, c))

/-! ## Arrays -/

section

variable [DecidableEq V] {arr : V → Bytes} {v w : V} {l : List UInt8}

theorem store_of_ne (h : w ≠ v) : store arr v l w = arr w := Function.update_of_ne h _ _

theorem store_self : store arr v l v = (arr v).put 0 l := Function.update_self _ _ _

/-- What was stored is what is read. -/
theorem take_store {n : ℕ} (h : l.length = n) : (store arr v l v).take n = l := by
  rw [store_self, ← h, Bytes.take_put]

end

/-! ## Results of pieces -/

section

variable {x : Turn V α} {f : α → Turn V β} {st st' : State V} {a : α} {r : Option β × State V}

theorem returns_andThen : ((x >>= f) st).Returns r ↔
    ∃ b st', (x st).Returns (b, st') ∧
      (match b with
        | none => (pure (none, st') : Prog (Option β × State V))
        | some a => f a st').Returns r := by
  refine returns_bind.trans ?_
  rw [Prod.exists]

/-- A piece that can only give `a` goes on with it. -/
theorem returns_andThen_of (h : ∀ b, (x st).Returns b ↔ b = (some a, st')) :
    ((x >>= f) st).Returns r ↔ (f a st').Returns r := by
  rw [returns_andThen]
  constructor
  · rintro ⟨b, st'', hx, hf⟩
    cases (h _).1 hx
    exact hf
  · exact fun hf => ⟨some a, st', (h _).2 rfl, hf⟩

theorem returns_call {p : Prog α} :
    ((Turn.call p >>= f) st).Returns r ↔ ∃ a, p.Returns a ∧ (f a st).Returns r := by
  rw [returns_andThen]
  constructor
  · rintro ⟨b, st', hcall, hf⟩
    obtain ⟨a, hp, ha⟩ := returns_bind.1 hcall
    cases returns_pure.1 ha
    exact ⟨a, hp, hf⟩
  · rintro ⟨a, hp, hf⟩
    exact ⟨some a, st, returns_bind.2 ⟨a, hp, returns_pure.2 rfl⟩, hf⟩

theorem returns_arr {v : V} {f : Bytes → Turn V β} :
    ((Turn.arr v >>= f) st).Returns r ↔ (f (st.arr v) st).Returns r :=
  returns_andThen_of fun _ => returns_pure.trans eq_comm

theorem returns_set [DecidableEq V] {v : V} {b : Bytes} {f : Unit → Turn V β} :
    ((Turn.set v b >>= f) st).Returns r ↔
      (f () { st with arr := Function.update st.arr v b }).Returns r :=
  returns_andThen_of fun _ => returns_pure.trans eq_comm

theorem returns_put [DecidableEq V] {v : V} {l : List UInt8} {f : Unit → Turn V β} :
    ((Turn.put v l >>= f) st).Returns r ↔ (f () { st with arr := store st.arr v l }).Returns r :=
  returns_andThen_of fun _ => returns_pure.trans eq_comm

theorem returns_pureTurn {b : Option α × State V} :
    ((pure a : Turn V α) st).Returns b ↔ b = (some a, st) := returns_pure.trans eq_comm

end

/-! ## Lines as they should be -/

/-- The digits of a number below the limit of `int`, few enough for a line. -/
structure IsNumber (idt : List UInt8) : Prop where
  ne_nil : idt ≠ []
  digits : ∀ c ∈ idt, isDigit c = true
  lt : decimal idt < 2 ^ 31
  short : idt.length ≤ 65000

/-- A word: no white space in it, and no zero. -/
structure IsWord (s : List UInt8) : Prop where
  ne_nil : s ≠ []
  space : ∀ c ∈ s, isSpace c = false
  zero : ∀ c ∈ s, c ≠ 0

instance (s : List UInt8) : Decidable (IsWord s) :=
  decidable_of_iff (s ≠ [] ∧ (∀ c ∈ s, isSpace c = false) ∧ ∀ c ∈ s, c ≠ 0)
    ⟨fun ⟨h1, h2, h3⟩ => ⟨h1, h2, h3⟩, fun ⟨h1, h2, h3⟩ => ⟨h1, h2, h3⟩⟩

/-- A line: a number and two words. -/
def lineText (idt w w' : List UInt8) : List UInt8 := idt ++ 32 :: (w ++ 32 :: (w' ++ [10]))

variable {idt w w' rest : List UInt8}

theorem skipSpace_lineText (h : IsNumber idt) (l : List UInt8) :
    Scan.skipSpace (lineText idt w w' ++ l) = lineText idt w w' ++ l := by
  obtain ⟨c, s, rfl⟩ := List.exists_cons_of_ne_nil h.ne_nil
  exact skipSpace_cons (isSpace_of_isDigit (h.digits c List.mem_cons_self))

theorem IsWord.skipSpace (h : IsWord w) (l : List UInt8) : skipSpace (w ++ l) = w ++ l := by
  obtain ⟨c, s, rfl⟩ := List.exists_cons_of_ne_nil h.ne_nil
  exact skipSpace_cons (h.space c List.mem_cons_self)

theorem IsNumber.skipSpace (h : IsNumber idt) (l : List UInt8) : skipSpace (idt ++ l) = idt ++ l := by
  obtain ⟨c, s, rfl⟩ := List.exists_cons_of_ne_nil h.ne_nil
  exact skipSpace_cons (isSpace_of_isDigit (h.digits c List.mem_cons_self))

/-- The number of a line. -/
theorem scan_number (h : IsNumber idt) (ds : List Directive) (l : List UInt8) :
    scan (.int :: .space :: ds) (idt ++ 32 :: l) =
      (.int (decimal idt) :: (scan ds (skipSpace l)).1, (scan ds (skipSpace l)).2) := by
  have hint : scanInt (skipSpace (idt ++ 32 :: l)) = (some (decimal idt : ℤ), 32 :: l) := by
    rw [h.skipSpace, scanInt_digits h.ne_nil h.digits (by decide), toInt_of_lt h.lt]
  rw [scan_int hint]
  rfl

/-- A word of a line, behind the white space. -/
theorem scan_word {width : Option ℕ} (h : IsWord w) {c : UInt8} (hc : isSpace c = true)
    (hwidth : ∀ n, width = some n → w.length ≤ n) (ds : List Directive) (l : List UInt8) :
    scan (.str width :: .space :: ds) (w ++ c :: l) =
      (.str w :: (scan ds (skipSpace l)).1, (scan ds (skipSpace l)).2) := by
  have htoken : token width (skipSpace (w ++ c :: l)) = w := by
    rw [h.skipSpace]
    cases width with
    | none => exact token_append h.space hc
    | some n => exact token_append_of_le h.space hc (hwidth n rfl)
  have hskip : skipSpace (c :: l) = skipSpace l := List.dropWhile_cons_of_pos hc
  rw [scan_str h.ne_nil htoken, h.skipSpace, List.drop_left, scan_space, hskip]

/-- **A labelled line** is read, and the white space behind it. -/
theorem scan_lineFormat (hid : IsNumber idt) (hw : IsWord w) (hw' : IsWord w') (rest : List UInt8) :
    scan (lineFormat w) (lineText idt w w' ++ rest) =
      ([.int (decimal idt), .str w'], skipSpace rest) := by
  have htext : lineText idt w w' ++ rest = idt ++ 32 :: (w ++ 32 :: (w' ++ 10 :: rest)) := by
    simp [lineText]
  have hskip : skipSpace (32 :: (w' ++ 10 :: rest)) = w' ++ 10 :: rest :=
    (List.dropWhile_cons_of_pos rfl).trans (hw'.skipSpace _)
  rw [htext, lineFormat, scan_number hid, hw.skipSpace, scan_lits, scan_space, hskip,
    scan_word hw' (by decide) (by simp)]
  rfl

/-- **The first line of a record** is read. -/
theorem scan_headerFormat (hid : IsNumber idt) (hw : IsWord w) (hw' : IsWord w')
    (hlen : w.length ≤ 15) (hlen' : w'.length ≤ 15) :
    (scan headerFormat (lineText idt w w')).1 = [.int (decimal idt), .str w, .str w'] := by
  have hle {s : List UInt8} (h : s.length ≤ 15) : ∀ n, some 15 = some n → s.length ≤ n := by
    rintro n ⟨⟩
    exact h
  rw [lineText, headerFormat, scan_number hid, hw.skipSpace, scan_word hw (by decide) (hle hlen),
    hw'.skipSpace, scan_word hw' (by decide) (hle hlen')]
  rfl

/-- A labelled line, as a piece of the loop. -/
theorem returns_bufRead {st : State V} (hid : IsNumber idt) (hw : IsWord w) (hw' : IsWord w')
    (hinp : st.inp = lineText idt w w' ++ rest) (hrest : skipSpace rest = rest)
    (b : Option (List UInt8) × State V) :
    (katfBufRead w (decimal idt) st).Returns b ↔ b = (some w', { st with inp := rest }) := by
  have hcstr : cstr w' = w' := List.takeWhile_eq_self_iff.2 (by simpa using hw'.zero)
  unfold katfBufRead
  rw [hinp, scan_lineFormat hid hw hw']
  dsimp only
  rw [returns_bind, if_pos rfl, hcstr, hrest]
  simp only [returns_lift, returns_pure]
  constructor
  · rintro ⟨_, -, h⟩
    exact h.symm
  · intro h
    exact ⟨(), trivial, h.symm⟩

theorem returns_bufParse [DecidableEq V] (v : V) (n : ℕ) (buf : List UInt8) (st : State V)
    (b : Option ℕ × State V) : (katfBufParse v n buf st).Returns b ↔
      b = (some (parseHex n buf).length, { st with arr := store st.arr v (parseHex n buf) }) :=
  returns_put.trans returns_pureTurn

theorem isWord_hexText {data : List UInt8} (hne : data ≠ []) : IsWord (hexText data) where
  ne_nil h := by
    have hlen := length_hexText data
    rw [h, List.length_nil] at hlen
    exact hne (List.length_eq_zero_iff.1 (by omega))
  space _ hc := (hexText_facts hc).1
  zero _ hc := (hexText_facts hc).2

/-- A labelled line of digits, as a piece of the loop. -/
theorem returns_readvar [DecidableEq V] {st : State V} {v : V} {n siz : ℕ} {data : List UInt8}
    (hid : IsNumber idt) (hw : IsWord w) (hne : data ≠ []) (hsiz : data.length = siz) (hn : siz ≤ n)
    (hinp : st.inp = lineText idt w (hexText data) ++ rest) (hrest : skipSpace rest = rest)
    (b : Option Unit × State V) :
    (katfBufReadvar v n w siz (decimal idt) st).Returns b ↔
      b = (some (), ⟨rest, store st.arr v data⟩) := by
  have hparse : parseHex n (hexText data) = data := parseHex_hexText (by omega)
  have hlen : ¬ (parseHex n (hexText data)).length ≠ siz := not_not.2 (by rw [hparse, hsiz])
  refine (returns_andThen_of (returns_bufRead hid hw (isWord_hexText hne) hinp hrest)).trans ?_
  refine (returns_andThen_of (returns_bufParse v n _ _)).trans ?_
  rw [if_neg hlen, hparse]
  exact returns_pureTurn

/-- A labelled line of bytes. -/
def hexLine (idt : List UInt8) (lab : List Char) (data : List UInt8) : List UInt8 :=
  lineText idt (ascii lab) (hexText data)

/-- A labelled line of as many bytes as are asked for, in front of another piece. -/
theorem returns_readvar_andThen [DecidableEq V] {v : V} {n siz : ℕ} {lab : List Char}
    {data : List UInt8} {arr : V → Bytes} {f : Unit → Turn V β} {r : Option β × State V}
    (hid : IsNumber idt) (hlab : IsWord (ascii lab)) (hpos : 0 < siz) (hdata : data.length = siz)
    (hsiz : siz ≤ n) (hrest : skipSpace rest = rest) :
    ((katfBufReadvar v n (ascii lab) siz (decimal idt) >>= f)
      ⟨hexLine idt lab data ++ rest, arr⟩).Returns r ↔ (f () ⟨rest, store arr v data⟩).Returns r :=
  returns_andThen_of (returns_readvar hid hlab (List.ne_nil_of_length_pos (hdata ▸ hpos)) hdata hsiz
    rfl hrest)

/-! ## Files of records -/

section

variable {C O ρ : Type} {step : State V × C → Prog ((State V × C) ⊕ C)} {text : ρ → List UInt8}
  {J : ρ → O → Prop} {E : ρ → O → C → C} {I : List ρ → (V → Bytes) → Prop}

/-- A turn of the loop handles a record that stands in front: it is judged to be one of `J`,
the counters are changed by that, and the text of the record is consumed.  The arrays are as
`I` says for the records that are still to come. -/
structure Handled (step : State V × C → Prog ((State V × C) ⊕ C)) (text : ρ → List UInt8)
    (J : ρ → O → Prop) (E : ρ → O → C → C) (I : List ρ → (V → Bytes) → Prop) (r : ρ) : Prop where
  starts : ∀ l, skipSpace (text r ++ l) = text r ++ l
  of_returns : ∀ {rs rest arr c x}, skipSpace rest = rest → I (r :: rs) arr →
    (step (⟨text r ++ rest, arr⟩, c)).Returns x →
      ∃ o arr', J r o ∧ I rs arr' ∧ x = .inl (⟨rest, arr'⟩, E r o c)
  returns : ∀ {rs rest arr c o}, skipSpace rest = rest → I (r :: rs) arr → J r o →
    ∃ arr', I rs arr' ∧ (step (⟨text r ++ rest, arr⟩, c)).Returns (.inl (⟨rest, arr'⟩, E r o c))

/-- The counters behind a list of records that were judged. -/
def tally (E : ρ → O → C → C) (rs : List ρ) (os : List O) (c : C) : C :=
  (rs.zip os).foldl (fun c p => E p.1 p.2 c) c

theorem skipSpace_flatMap {rs : List ρ} (h : ∀ r ∈ rs, Handled step text J E I r) :
    skipSpace (rs.flatMap text) = rs.flatMap text := by
  cases rs with
  | nil => rfl
  | cons r rs => exact (h r List.mem_cons_self).starts _

/-- **A file of records**, each of which a turn handles: the loop judges every one of them, in
order. -/
theorem returns_records {rs : List ρ} (h : ∀ r ∈ rs, Handled step text J E I r)
    (hend : ∀ (st : State V) c, st.inp = [] → step (st, c) = pure (.inr c)) {arr : V → Bytes}
    (hI : I rs arr) {c c' : C} : (Prog.loop step (⟨rs.flatMap text, arr⟩, c)).Returns c' ↔
      ∃ os, List.Forall₂ J rs os ∧ c' = tally E rs os c := by
  induction rs generalizing arr c with
  | nil =>
    rw [List.flatMap_nil, returns_loop_done (hend ⟨[], arr⟩ c rfl)]
    constructor
    · rintro rfl
      exact ⟨[], .nil, rfl⟩
    · rintro ⟨os, hos, rfl⟩
      cases hos
      rfl
  | cons r rs ih =>
    obtain ⟨hr, hrs⟩ := List.forall_mem_cons.1 h
    have hrest := skipSpace_flatMap hrs
    rw [List.flatMap_cons, returns_loop]
    constructor
    · intro hloop
      cases hloop with
      | done hdone =>
        obtain ⟨o, arr', -, -, hx⟩ := hr.of_returns hrest hI hdone
        cases hx
      | next hnext hloop =>
        obtain ⟨o, arr', hJ, hI', hx⟩ := hr.of_returns hrest hI hnext
        cases hx
        obtain ⟨os, hos, rfl⟩ := (ih hrs hI').1 (returns_loop.2 hloop)
        exact ⟨o :: os, .cons hJ hos, rfl⟩
    · rintro ⟨os, hos, rfl⟩
      cases hos with
      | cons hJ hos =>
        obtain ⟨arr', hI', hstep⟩ := hr.returns (c := c) hrest hI hJ
        exact .next hstep (returns_loop.1 ((ih hrs hI').2 ⟨_, hos, rfl⟩))

end

/-- The loop ends at the end of the file. -/
theorem readKatStep_nil {C : Type} (body : ℤ → List UInt8 → List UInt8 → Turn V (C → C))
    (st : State V) (c : C) (h : st.inp = []) : readKatStep body (st, c) = pure (.inr c) := by
  rw [readKatStep, h]
  rfl

section

variable {C : Type} {body : ℤ → List UInt8 → List UInt8 → Turn V (C → C)} {st : State V} {c : C}

/-- **A turn of the loop**, on a first line as it should be. -/
theorem readKatStep_line (hid : IsNumber idt) (hw : IsWord w) (hw' : IsWord w')
    (hlen : w.length ≤ 15) (hlen' : w'.length ≤ 15) (hinp : st.inp = lineText idt w w' ++ rest) :
    readKatStep body (st, c) = (do
      let (f, st) ← body (decimal idt) w w' { st with inp := rest }
      pure (.inl (st, match f with
        | none => c
        | some f => f c))) := by
  have hshort := hid.short
  have hchars : ∀ ch ∈ idt ++ 32 :: (w ++ 32 :: w'), ch ≠ 10 ∧ ch ≠ 0 := by
    have hline {ch : UInt8} (h : isSpace ch = false) : ch ≠ 10 := by
      rintro rfl
      cases h
    have hword {s : List UInt8} (h : IsWord s) : ∀ ch ∈ s, ch ≠ 10 ∧ ch ≠ 0 := fun ch hch =>
      ⟨hline (h.space ch hch), h.zero ch hch⟩
    have hnum : ∀ ch ∈ idt, ch ≠ 10 ∧ ch ≠ 0 := by
      refine fun ch hch => ⟨hline (isSpace_of_isDigit (hid.digits ch hch)), ?_⟩
      rintro rfl
      cases hid.digits _ hch
    simp only [List.mem_append, List.mem_cons]
    rintro ch (hch | rfl | hch | rfl | hch)
    · exact hnum ch hch
    · decide
    · exact hword hw ch hch
    · decide
    · exact hword hw' ch hch
  have htext : lineText idt w w' = idt ++ 32 :: (w ++ 32 :: w') ++ [10] := by simp [lineText]
  have hline : fgets (bufSize - 1) st.inp = some (lineText idt w w', rest) := by
    rw [hinp, htext, List.append_assoc, List.singleton_append]
    refine fgets_line (fun h => (hchars 10 h).1 rfl) ?_
    simp only [List.length_append, List.length_cons, bufSize]
    omega
  have hcstr : cstr (lineText idt w w') = lineText idt w w' := by
    refine List.takeWhile_eq_self_iff.2 fun ch hch => decide_eq_true ?_
    rw [htext, List.mem_append, List.mem_singleton] at hch
    rcases hch with hch | rfl
    · exact (hchars ch hch).2
    · decide
  rw [readKatStep, hline]
  dsimp only
  rw [hcstr, scan_headerFormat hid hw hw' hlen hlen']

theorem returns_readKatStep {x : (State V × C) ⊕ C} (hid : IsNumber idt) (hw : IsWord w)
    (hw' : IsWord w') (hlen : w.length ≤ 15) (hlen' : w'.length ≤ 15)
    (hinp : st.inp = lineText idt w w' ++ rest) : (readKatStep body (st, c)).Returns x ↔
      ∃ f st', (body (decimal idt) w w' { st with inp := rest }).Returns (f, st') ∧
        x = .inl (st', match f with
          | none => c
          | some f => f c) := by
  rw [readKatStep_line hid hw hw' hlen hlen' hinp, returns_bind, Prod.exists]
  simp only [returns_pure, eq_comm]

end

/-! ## No buffer overflows -/

/-- Every string of a file fits into `buf`. -/
def Fits (file : List UInt8) : Prop :=
  ∀ s, s <:+: file → (∀ c ∈ s, isSpace c = false) → s.length < bufSize

theorem Fits.suffix {file rest : List UInt8} (h : Fits file) (hrest : rest <:+ file) : Fits rest :=
  fun s hs => h s (hs.trans hrest.isInfix)

theorem fits_nil : Fits [] := by
  rintro s hs -
  rw [List.eq_nil_of_infix_nil hs]
  decide

/-- A string that stands before or behind white space. -/
theorem Fits.cons_space {c : UInt8} {l : List UInt8} (hl : Fits l) (hc : isSpace c = true)
    (hw : w.length < bufSize) : Fits (w ++ c :: l) := by
  rintro s ⟨pre, post, hs⟩ hspace
  rw [List.append_assoc] at hs
  rcases List.append_eq_append_iff.1 hs with ⟨mid, rfl, hmid⟩ | ⟨mid, rfl, hmid⟩
  · -- it starts in the word, so it ends there
    rcases List.append_eq_append_iff.1 hmid with ⟨tail, rfl, -⟩ | ⟨tail, rfl, htail⟩
    · simp only [List.length_append] at hw
      omega
    · cases tail with
      | nil =>
        simp only [List.length_append, List.append_nil] at hw ⊢
        omega
      | cons d tail =>
        obtain rfl : c = d := (List.cons.inj htail).1
        have hne := hspace c (by simp)
        rw [hc] at hne
        cases hne
  · -- it starts at the white space or behind it
    cases mid with
    | nil =>
      cases s with
      | nil => exact hl [] (List.nil_infix) (by simp)
      | cons d s =>
        obtain rfl : c = d := (List.cons.inj hmid).1
        have hne := hspace c List.mem_cons_self
        rw [hc] at hne
        cases hne
    | cons d mid => exact hl s ⟨mid, post, by simp [(List.cons.inj hmid).2]⟩ hspace

theorem IsNumber.length_lt (h : IsNumber idt) : idt.length < bufSize :=
  h.short.trans_lt (by decide)

/-- A line whose words fit. -/
theorem fits_lineText {l : List UInt8} (hid : IsNumber idt) (hw : w.length < bufSize)
    (hw' : w'.length < bufSize) (hl : Fits l) : Fits (lineText idt w w' ++ l) := by
  have htext : lineText idt w w' ++ l = idt ++ 32 :: (w ++ 32 :: (w' ++ 10 :: l)) := by
    simp [lineText]
  rw [htext]
  exact ((hl.cons_space rfl hw').cons_space rfl hw).cons_space rfl hid.length_lt

/-- A labelled line of bytes that `buf` has room for. -/
theorem fits_hexLine {data l : List UInt8} {lab : List Char} (hid : IsNumber idt)
    (hlab : lab.length ≤ 3) (hdata : data.length ≤ 0x7fff) (hl : Fits l) :
    Fits (hexLine idt lab data ++ l) := by
  refine fits_lineText hid ?_ ?_ hl
  · rw [ascii, List.length_map]
    exact hlab.trans_lt (by decide)
  · rw [length_hexText]
    unfold bufSize
    omega

theorem fits_flatMap {ρ : Type} {text : ρ → List UInt8} {rs : List ρ}
    (h : ∀ r ∈ rs, ∀ l, Fits l → Fits (text r ++ l)) : Fits (rs.flatMap text) := by
  induction rs with
  | nil => exact fits_nil
  | cons r rs ih =>
    obtain ⟨hr, hrs⟩ := List.forall_mem_cons.1 h
    exact hr _ (ih hrs)

/-! ## Pieces that are safe -/

/-- In a file whose strings fit, a piece of the loop fails no check, and what it gives is as
`P` says. -/
def SafeTurn (x : Turn V α) (P : α → Prop) : Prop :=
  ∀ st, Fits st.inp → Safe (x st) fun r => r.2.inp <:+ st.inp ∧ ∀ a, r.1 = some a → P a

section

variable {P : α → Prop} {Q : β → Prop}

theorem SafeTurn.andThen {x : Turn V α} {f : α → Turn V β} (hx : SafeTurn x P)
    (hf : ∀ a, P a → SafeTurn (f a) Q) : SafeTurn (x >>= f) Q := by
  intro st hst
  refine (hx st hst).bind ?_
  rintro ⟨a, st'⟩ ⟨hsuff, ha⟩
  cases a with
  | none => exact Safe.pure ⟨hsuff, nofun⟩
  | some a =>
    refine (hf a (ha a rfl) st' (hst.suffix hsuff)).mono fun r hr => ?_
    exact ⟨hr.1.trans hsuff, hr.2⟩

theorem safe_pureTurn {a : α} (h : P a) : SafeTurn (pure a : Turn V α) P := by
  refine fun st _ => Safe.pure ⟨List.suffix_rfl, ?_⟩
  rintro b ⟨⟩
  exact h

theorem safe_skip : SafeTurn (Turn.skip : Turn V α) P :=
  fun _ _ => Safe.pure ⟨List.suffix_rfl, nofun⟩

theorem safe_arr (v : V) : SafeTurn (Turn.arr v) fun _ => True :=
  fun _ _ => Safe.pure ⟨List.suffix_rfl, fun _ _ => trivial⟩

theorem safe_set [DecidableEq V] (v : V) (b : Bytes) : SafeTurn (Turn.set v b) fun _ => True :=
  fun _ _ => Safe.pure ⟨List.suffix_rfl, fun _ _ => trivial⟩

theorem safe_put [DecidableEq V] (v : V) (l : List UInt8) : SafeTurn (Turn.put v l) fun _ => True :=
  fun _ _ => Safe.pure ⟨List.suffix_rfl, fun _ _ => trivial⟩

theorem safe_call {p : Prog α} (h : Safe p fun _ => True) :
    SafeTurn (Turn.call p : Turn V α) fun _ => True :=
  fun _ _ => h.bind fun _ _ => Safe.pure ⟨List.suffix_rfl, fun _ _ => trivial⟩

/-- **A string that is read fits.** -/
theorem safe_bufRead (lab : List UInt8) (id : ℤ) :
    SafeTurn (katfBufRead lab id : Turn V (List UInt8)) fun _ => True := by
  intro st hst
  have hrest := scan_suffix (lineFormat lab) st.inp
  unfold katfBufRead
  dsimp only
  split
  · rename_i no s hitems
    have hmem : Item.str s ∈ (scan (lineFormat lab) st.inp).1 := by simp [hitems]
    obtain ⟨hin, hspace⟩ := infix_of_mem_scan hmem
    have hfits : s.length < bufSize := hst s hin hspace
    exact Safe.step (Chk.require_true (decide_eq_true hfits))
      (Safe.pure ⟨hrest, fun _ _ => trivial⟩)
  · exact Safe.pure ⟨hrest, fun _ _ => trivial⟩

theorem safe_bufParse [DecidableEq V] (v : V) (n : ℕ) (buf : List UInt8) :
    SafeTurn (katfBufParse v n buf) fun _ => True :=
  (safe_put v _).andThen fun _ _ => safe_pureTurn trivial

theorem safe_readvar [DecidableEq V] (v : V) (n : ℕ) (lab : List UInt8) (siz : ℕ) (id : ℤ) :
    SafeTurn (katfBufReadvar v n lab siz id) fun _ => True := by
  refine (safe_bufRead lab id).andThen fun buf _ => (safe_bufParse v n buf).andThen fun len _ => ?_
  split
  · exact safe_skip
  · exact safe_pureTurn trivial

end

/-- **The loop is safe** if a record is: each turn consumes a part of the file, and changes the
counters as `P` says or not at all. -/
theorem safe_readKat {C : Type} {body : ℤ → List UInt8 → List UInt8 → Turn V (C → C)}
    {P : (C → C) → Prop} (hbody : ∀ id var alg, SafeTurn (body id var alg) P) {I : ℕ → C → Prop}
    (hI : ∀ {n c f}, I n c → P f → I (n + 1) (f c)) (hmono : ∀ {n m c}, n ≤ m → I n c → I m c)
    {file : List UInt8} (hfits : Fits file) (arr : V → Bytes) {c : C} (hc : I 0 c) :
    (Prog.loop (readKatStep body) (⟨file, arr⟩, c)).Safe fun c' => I file.length c' := by
  refine Safe.loop (fun s => s.1.inp <:+ file ∧ I (file.length - s.1.inp.length) s.2) ?_
    ⟨List.suffix_rfl, by simpa using hc⟩
  rintro ⟨st, c⟩ ⟨hsuff, hn⟩
  have hlen : st.inp.length ≤ file.length := hsuff.length_le
  rw [readKatStep]
  split
  · exact Safe.pure (hmono (Nat.sub_le _ _) hn)
  · rename_i line rest hline
    have hrest := fgets_suffix hline
    have hlt := fgets_length_lt (by decide) hline
    dsimp only
    split
    · rename_i id var alg hitems
      refine (hbody id var alg ⟨rest, st.arr⟩ (hfits.suffix (hrest.trans hsuff))).bind ?_
      rintro ⟨f, st'⟩ ⟨hst', hf⟩
      have hle : st'.inp.length ≤ rest.length := hst'.length_le
      have hstep : file.length - st.inp.length + 1 ≤ file.length - st'.inp.length := by omega
      refine Safe.pure ⟨hst'.trans (hrest.trans hsuff), ?_⟩
      cases f with
      | none => exact hmono ((Nat.le_succ _).trans hstep) hn
      | some f => exact hmono hstep (hI hn (hf f rfl))
    · exact Safe.pure ⟨hrest.trans hsuff, hmono (Nat.sub_le_sub_left hlt.le _) hn⟩

/-! ## A buffer overflows -/

/-- **A word that is longer than `buf`** overflows it. -/
theorem fails_bufRead {st : State V} (hid : IsNumber idt) (hw : IsWord w) (hw' : IsWord w')
    (hlong : bufSize ≤ w'.length) (hinp : st.inp = lineText idt w w' ++ rest) :
    Fails (katfBufRead w (decimal idt) st) := by
  unfold katfBufRead
  rw [hinp, scan_lineFormat hid hw hw']
  dsimp only
  rw [decide_eq_false hlong.not_gt]
  exact fails_require.bind _

theorem fails_readvar [DecidableEq V] {st : State V} (v : V) (n siz : ℕ) (hid : IsNumber idt)
    (hw : IsWord w) (hw' : IsWord w') (hlong : bufSize ≤ w'.length)
    (hinp : st.inp = lineText idt w w' ++ rest) :
    Fails (katfBufReadvar v n w siz (decimal idt) st) :=
  (fails_bufRead hid hw hw' hlong hinp).bind _

/-- A record whose lines fail makes the loop fail. -/
theorem not_safe_readKat {C : Type} {body : ℤ → List UInt8 → List UInt8 → Turn V (C → C)}
    {arr : V → Bytes} {c : C} (hid : IsNumber idt) (hw : IsWord w) (hw' : IsWord w')
    (hlen : w.length ≤ 15) (hlen' : w'.length ≤ 15) (h : Fails (body (decimal idt) w w' ⟨rest, arr⟩))
    (P : C → Prop) :
    ¬(Prog.loop (readKatStep body) (⟨lineText idt w w' ++ rest, arr⟩, c)).Safe P := by
  refine Fails.not_safe_loop ?_ P
  rw [readKatStep_line hid hw hw' hlen hlen' rfl]
  exact h.bind _

end Kat
