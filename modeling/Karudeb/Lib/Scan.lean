import Karudeb.Lib.Word
import Mathlib

/-!
# Formatted input

`fgets` and the `scanf` family on a text that is a list of bytes, in the C locale.  A
conversion gives an item and leaves the rest of the text; a directive that does not match
ends the scan where it stands.

* `scanInt_digits`, `scan_lits`, `scan_token` : what a directive does to a text that starts
  with what it asks for.
* `fgets_line` : a line that fits is read with its end.
* `scan_suffix`, `fgets_suffix` : what is left is the end of the text.
* `infix_of_mem_scan` : a string that is read stands in the text as it is.
-/

namespace Scan

/-! ## Characters -/

/-- A text, from its characters. -/
def ascii (l : List Char) : List UInt8 := l.map fun c => UInt8.ofNat c.toNat

/-- `isspace`: a blank, or one of `\t`, `\n`, `\v`, `\f`, `\r`. -/
def isSpace (c : UInt8) : Bool := c == 32 || (9 ≤ c && c ≤ 13)

/-- A decimal digit. -/
def isDigit (c : UInt8) : Bool := 48 ≤ c && c ≤ 57

/-- The number that decimal digits stand for. -/
def decimal (ds : List UInt8) : ℕ := ds.foldl (fun n c => 10 * n + (c.toNat - 48)) 0

/-- The string in a buffer: what comes before the first zero. -/
def cstr (l : List UInt8) : List UInt8 := l.takeWhile (· ≠ 0)

/-! ## Directives -/

/-- A directive of a format. -/
inductive Directive
  /-- White space, as much as there is. -/
  | space
  /-- A character. -/
  | lit (c : UInt8)
  /-- `%d`. -/
  | int
  /-- `%s`, with a width or without. -/
  | str (width : Option ℕ)

/-- What a conversion stores. -/
inductive Item
  | int (v : ℤ)
  | str (s : List UInt8)
  deriving DecidableEq

/-- The `int` that is stored for a number: the conversion is to 64 bits and stops at their
limits, and the low half of them is stored. -/
def toInt (v : ℤ) : ℤ := Word.wrap 32 (max (-2 ^ 63) (min v (2 ^ 63 - 1)))

/-- Skip white space. -/
def skipSpace (l : List UInt8) : List UInt8 := l.dropWhile isSpace

/-- A sign, if there is one, and what is behind it. -/
def sign : List UInt8 → Bool × List UInt8
  | [] => (false, [])
  | c :: l => if c = 45 then (true, l) else if c = 43 then (false, l) else (false, c :: l)

/-- `%d`, behind the white space.  A sign is consumed even if no digit follows. -/
def scanInt (l : List UInt8) : Option ℤ × List UInt8 :=
  let (neg, l) := sign l
  let ds := l.takeWhile isDigit
  if ds = [] then (none, l)
  else (some (toInt (if neg then -decimal ds else decimal ds)), l.dropWhile isDigit)

/-- The token of `%s`, behind the white space. -/
def token (width : Option ℕ) (l : List UInt8) : List UInt8 :=
  (match width with
    | none => l
    | some w => l.take w).takeWhile fun c => !isSpace c

/-- The directives of a format, one after the other. -/
def scan : List Directive → List UInt8 → List Item × List UInt8
  | [], l => ([], l)
  | .space :: ds, l => scan ds (skipSpace l)
  | .lit c :: ds, l =>
    match l with
    | [] => ([], [])
    | c' :: l' => if c' = c then scan ds l' else ([], l)
  | .int :: ds, l =>
    match scanInt (skipSpace l) with
    | (none, l) => ([], l)
    | (some v, l) =>
      let (items, l) := scan ds l
      (.int v :: items, l)
  | .str width :: ds, l =>
    let l := skipSpace l
    let s := token width l
    if s = [] then ([], l)
    else
      let (items, l) := scan ds (l.drop s.length)
      (.str s :: items, l)

/-- `fgets`, into a buffer of `n` bytes: at most `n - 1` bytes, and no byte behind the end
of a line. -/
def fgets (n : ℕ) (l : List UInt8) : Option (List UInt8 × List UInt8) :=
  if l = [] then none
  else
    let len := min (n - 1) ((l.takeWhile (· ≠ 10)).length + 1)
    some (l.take len, l.drop len)

/-! ## Texts that match -/

variable {ds : List Directive} {l rest s : List UInt8} {c : UInt8} {n : ℕ}

/-- A text that does not start with white space. -/
theorem skipSpace_cons (h : isSpace c = false) : skipSpace (c :: l) = c :: l :=
  List.dropWhile_cons_of_neg (by simp [h])

theorem scan_space : scan (.space :: ds) l = scan ds (skipSpace l) := rfl

/-- A word that stands in the format. -/
theorem scan_lits (w : List UInt8) : scan (w.map .lit ++ ds) (w ++ l) = scan ds l := by
  induction w with
  | nil => rfl
  | cons c w ih => simpa [scan] using ih

theorem takeWhile_append_cons {p : UInt8 → Bool} (hs : ∀ c ∈ s, p c = true) (hc : p c = false) :
    (s ++ c :: l).takeWhile p = s ∧ (s ++ c :: l).dropWhile p = c :: l := by
  induction s with
  | nil => simp [hc]
  | cons d s ih =>
    obtain ⟨hd, hs⟩ := List.forall_mem_cons.1 hs
    simpa [hd] using ih hs

theorem isDigit_ne_sign (h : isDigit c = true) : c ≠ 45 ∧ c ≠ 43 := by
  refine ⟨?_, ?_⟩ <;> rintro rfl <;> cases h

theorem isSpace_of_isDigit (h : isDigit c = true) : isSpace c = false := by
  simp only [isDigit, Bool.and_eq_true, decide_eq_true_eq, UInt8.le_iff_toNat_le] at h
  simp only [isSpace, Bool.or_eq_false_iff, beq_eq_false_iff_ne, Bool.and_eq_false_imp,
    decide_eq_true_eq, decide_eq_false_iff_not, UInt8.le_iff_toNat_le, ne_eq, ← UInt8.toNat_inj]
  simp at h ⊢
  omega

/-- Digits, up to something else. -/
theorem scanInt_digits (hne : s ≠ []) (hs : ∀ c ∈ s, isDigit c = true) (hc : isDigit c = false) :
    scanInt (s ++ c :: l) = (some (toInt (decimal s)), c :: l) := by
  obtain ⟨d, t, rfl⟩ := List.exists_cons_of_ne_nil hne
  obtain ⟨h45, h43⟩ := isDigit_ne_sign (hs d List.mem_cons_self)
  have hsign : sign (d :: t ++ c :: l) = (false, d :: t ++ c :: l) := by
    rw [List.cons_append, sign, if_neg h45, if_neg h43]
  obtain ⟨htake, hdrop⟩ := takeWhile_append_cons (l := l) hs hc
  unfold scanInt
  rw [hsign]
  dsimp only
  rw [htake, hdrop, if_neg hne]
  rfl

/-- A number below the limit is stored as it is. -/
theorem toInt_of_lt (h : n < 2 ^ 31) : toInt n = n := by
  have hcast : (n : ℤ) < 2 ^ 31 := by exact_mod_cast h
  have hfits : Word.Fits 32 (n : ℤ) := Word.fits_32.2 ⟨by omega, by omega⟩
  rw [toInt, min_eq_left (by omega), max_eq_right (by omega), Word.wrap_of_fits (by norm_num) hfits]

/-- A string, up to white space. -/
theorem token_append (hs : ∀ c ∈ s, isSpace c = false) (hc : isSpace c = true) :
    token none (s ++ c :: l) = s :=
  (takeWhile_append_cons (p := fun c => !isSpace c) (by simpa using hs) (by simp [hc])).1

/-- A string that is not longer than the width. -/
theorem token_append_of_le {w : ℕ} (hs : ∀ c ∈ s, isSpace c = false) (hc : isSpace c = true)
    (hlen : s.length ≤ w) : token (some w) (s ++ c :: l) = s := by
  have hall : ∀ c ∈ s, (!isSpace c) = true := by simpa using hs
  unfold token
  dsimp only
  rw [List.take_append, List.take_of_length_le hlen]
  cases hw : w - s.length with
  | zero => rw [List.take_zero, List.append_nil, List.takeWhile_eq_self_iff.2 hall]
  | succ k => exact (takeWhile_append_cons hall (by simp [hc])).1

theorem scan_int {v : ℤ} (h : scanInt (skipSpace l) = (some v, rest)) :
    scan (.int :: ds) l = (.int v :: (scan ds rest).1, (scan ds rest).2) := by
  rw [scan, h]

theorem scan_str {width : Option ℕ} (hne : s ≠ []) (h : token width (skipSpace l) = s) :
    scan (.str width :: ds) l =
      (.str s :: (scan ds ((skipSpace l).drop s.length)).1,
        (scan ds ((skipSpace l).drop s.length)).2) := by
  rw [scan]
  dsimp only
  rw [h, if_neg hne]

/-- A line that fits is read with its end. -/
theorem fgets_line (hs : (10 : UInt8) ∉ s) (hlen : s.length + 1 ≤ n - 1) :
    fgets n (s ++ 10 :: l) = some (s ++ [10], l) := by
  have hne : ∀ c ∈ s, decide (c ≠ 10) = true := fun c hc =>
    decide_eq_true (ne_of_mem_of_not_mem hc hs)
  have htake := (takeWhile_append_cons (l := l) (c := 10) hne (by decide)).1
  unfold fgets
  rw [if_neg (by simp)]
  dsimp only
  rw [htake, Nat.min_eq_right hlen, List.take_append, List.drop_append]
  simp

/-! ## What is left of a text -/

theorem sign_suffix (l : List UInt8) : (sign l).2 <:+ l := by
  cases l with
  | nil => exact List.suffix_rfl
  | cons c l =>
    by_cases h45 : c = 45
    · rw [sign, if_pos h45]
      exact List.suffix_cons c l
    · by_cases h43 : c = 43
      · rw [sign, if_neg h45, if_pos h43]
        exact List.suffix_cons c l
      · rw [sign, if_neg h45, if_neg h43]

theorem skipSpace_suffix (l : List UInt8) : skipSpace l <:+ l := List.dropWhile_suffix _

theorem scanInt_suffix (l : List UInt8) : (scanInt l).2 <:+ l := by
  unfold scanInt
  dsimp only
  split
  · exact sign_suffix l
  · exact (List.dropWhile_suffix _).trans (sign_suffix l)

theorem token_isPrefix (width : Option ℕ) (l : List UInt8) : token width l <+: l := by
  unfold token
  cases width with
  | none => exact List.takeWhile_prefix _
  | some w => exact (List.takeWhile_prefix _).trans (List.take_prefix _ _)

/-- A scan leaves an end of the text. -/
theorem scan_suffix (ds : List Directive) (l : List UInt8) : (scan ds l).2 <:+ l := by
  induction ds generalizing l with
  | nil => exact List.suffix_rfl
  | cons d ds ih =>
    cases d with
    | space => exact (ih _).trans (skipSpace_suffix l)
    | lit c =>
      cases l with
      | nil => exact List.suffix_rfl
      | cons c' l =>
        by_cases hc : c' = c
        · rw [scan, if_pos hc]
          exact (ih l).trans (List.suffix_cons c' l)
        · rw [scan, if_neg hc]
    | int =>
      have hint := (scanInt_suffix (skipSpace l)).trans (skipSpace_suffix l)
      rw [scan]
      split
      · rename_i hr
        rwa [hr] at hint
      · rename_i hr
        rw [hr] at hint
        exact (ih _).trans hint
    | str width =>
      rw [scan]
      dsimp only
      split
      · exact skipSpace_suffix l
      · exact (ih _).trans ((List.drop_suffix _ _).trans (skipSpace_suffix l))

/-- A string that is read stands in the text, and has no white space. -/
theorem infix_of_mem_scan (h : Item.str s ∈ (scan ds l).1) :
    s <:+: l ∧ ∀ c ∈ s, isSpace c = false := by
  induction ds generalizing l with
  | nil => cases h
  | cons d ds ih =>
    cases d with
    | space => exact (ih h).imp_left fun h => h.trans (skipSpace_suffix l).isInfix
    | lit c =>
      cases l with
      | nil => cases h
      | cons c' l =>
        by_cases hc : c' = c
        · rw [scan, if_pos hc] at h
          exact (ih h).imp_left fun h => h.trans (List.suffix_cons c' l).isInfix
        · rw [scan, if_neg hc] at h
          cases h
    | int =>
      have hint := (scanInt_suffix (skipSpace l)).trans (skipSpace_suffix l)
      rw [scan] at h
      split at h
      · cases h
      · rename_i hr
        rw [hr] at hint
        refine (ih (l := _) ?_).imp_left fun h => h.trans hint.isInfix
        simpa using h
    | str width =>
      rw [scan] at h
      dsimp only at h
      split at h
      · cases h
      · rcases List.mem_cons.1 h with heq | hmem
        · obtain rfl := Item.str.inj heq
          refine ⟨(token_isPrefix width _).isInfix.trans (skipSpace_suffix l).isInfix,
            fun c hc => ?_⟩
          simpa using List.mem_takeWhile_imp hc
        · exact (ih hmem).imp_left fun h =>
            h.trans ((List.drop_suffix _ _).trans (skipSpace_suffix l)).isInfix

theorem fgets_suffix {line : List UInt8} (h : fgets n l = some (line, rest)) : rest <:+ l := by
  unfold fgets at h
  split at h
  · cases h
  · cases h
    exact List.drop_suffix _ _

/-- A line has a byte. -/
theorem fgets_length_lt {line : List UInt8} (hn : 1 < n) (h : fgets n l = some (line, rest)) :
    rest.length < l.length := by
  unfold fgets at h
  split at h
  · cases h
  · rename_i hne
    cases h
    have hpos : 0 < l.length := List.length_pos_iff.2 hne
    rw [List.length_drop]
    omega

end Scan
