import Karudeb.Lib.Scan

/-!
# Bytes as hexadecimal digits

`parse_hex` and the digits that `print_hex` writes, which the two programs that check known
answers share.

* `parseHex_eq` : `parse_hex` gives the bytes that the digits spell, up to the first
  character that is neither a digit nor blank, and up to the size of the buffer.
* `parseHex_digits` : so it reads back what was written, in either case and with blanks
  anywhere.
-/

namespace Kat

open Scan

/-- `hex_digit`. -/
def hexDigit (ch : UInt8) : Option ℕ :=
  if 48 ≤ ch ∧ ch ≤ 57 then some (ch.toNat - 48)
  else if 65 ≤ ch ∧ ch ≤ 70 then some (ch.toNat - 65 + 10)
  else if 97 ≤ ch ∧ ch ≤ 102 then some (ch.toNat - 97 + 10)
  else none

/-- The characters that `parse_hex` skips. -/
def isBlank (ch : UInt8) : Bool := ch == 32 || ch == 9 || ch == 10

/-- The loop of `parse_hex`, with room for `n` bytes and the digit that waits for another
one. -/
def parseHexLoop (n : ℕ) (b : Option ℕ) : List UInt8 → List UInt8
  | [] => []
  | ch :: s =>
    if n = 0 then []
    else if isBlank ch then parseHexLoop n b s
    else
      match hexDigit ch with
      | none => []
      | some a =>
        match b with
        | none => parseHexLoop n (some a) s
        | some b => UInt8.ofNat (b * 2 ^ 4 + a) :: parseHexLoop (n - 1) none s

/-- `parse_hex`, with the bytes it stores in a buffer of `bufSz` bytes. -/
def parseHex (bufSz : ℕ) (s : List UInt8) : List UInt8 := parseHexLoop bufSz none s

/-- A digit of `%02X`. -/
def upperDigit (a : ℕ) : UInt8 := UInt8.ofNat (if a < 10 then 48 + a else 55 + a)

/-- What `print_hex` writes for the bytes. -/
def hexText (data : List UInt8) : List UInt8 :=
  data.flatMap fun x => [upperDigit (x.toNat / 16), upperDigit (x.toNat % 16)]

/-! ## What is read -/

/-- The bytes that digits spell, two digits a byte. -/
def spell : List ℕ → List UInt8
  | a :: b :: l => UInt8.ofNat (a * 2 ^ 4 + b) :: spell l
  | _ => []

/-- The digits in front of the first character that is neither a digit nor blank. -/
def hexDigits (s : List UInt8) : List ℕ :=
  (s.takeWhile fun ch => isBlank ch || (hexDigit ch).isSome).filterMap hexDigit

theorem hexDigit_of_isBlank {ch : UInt8} (h : isBlank ch = true) : hexDigit ch = none := by
  simp only [isBlank, Bool.or_eq_true, beq_iff_eq] at h
  rcases h with (rfl | rfl) | rfl <;> rfl

theorem hexDigits_blank {ch : UInt8} (h : isBlank ch = true) (s : List UInt8) :
    hexDigits (ch :: s) = hexDigits s := by
  unfold hexDigits
  rw [List.takeWhile_cons_of_pos (by simp [h]), List.filterMap_cons_none (hexDigit_of_isBlank h)]

theorem hexDigits_digit {ch : UInt8} {a : ℕ} (h : hexDigit ch = some a) (s : List UInt8) :
    hexDigits (ch :: s) = a :: hexDigits s := by
  unfold hexDigits
  rw [List.takeWhile_cons_of_pos (by simp [h]), List.filterMap_cons_some h]

theorem hexDigits_stop {ch : UInt8} (hb : isBlank ch = false) (h : hexDigit ch = none)
    (s : List UInt8) : hexDigits (ch :: s) = [] := by
  unfold hexDigits
  rw [List.takeWhile_cons_of_neg (by simp [hb, h])]
  rfl

/-- **What `parse_hex` reads**, from any state of its loop. -/
theorem parseHexLoop_eq (n : ℕ) (b : Option ℕ) (s : List UInt8) :
    parseHexLoop n b s = (spell (b.toList ++ hexDigits s)).take n := by
  induction s generalizing n b with
  | nil => cases b <;> simp [parseHexLoop, hexDigits, spell]
  | cons ch s ih =>
    rw [parseHexLoop]
    by_cases hn : n = 0
    · rw [if_pos hn, hn, List.take_zero]
    rw [if_neg hn]
    cases hb : isBlank ch with
    | true => rw [if_pos rfl, ih, hexDigits_blank hb]
    | false =>
      rw [if_neg (by simp)]
      cases ha : hexDigit ch with
      | none => cases b <;> simp [hexDigits_stop hb ha, spell]
      | some a =>
        rw [hexDigits_digit ha]
        cases b with
        | none => exact ih n (some a)
        | some b =>
          obtain ⟨k, rfl⟩ := Nat.exists_eq_succ_of_ne_zero hn
          simp [ih, spell]

theorem parseHex_eq (n : ℕ) (s : List UInt8) : parseHex n s = (spell (hexDigits s)).take n :=
  parseHexLoop_eq n none s

/-! ## Reading back -/

/-- The digits of bytes. -/
def digitsOf (data : List UInt8) : List ℕ := data.flatMap fun x => [x.toNat / 16, x.toNat % 16]

theorem spell_digitsOf (data : List UInt8) : spell (digitsOf data) = data := by
  induction data with
  | nil => rfl
  | cons x data ih =>
    have hx : x.toNat / 16 * 2 ^ 4 + x.toNat % 16 = x.toNat := by omega
    rw [digitsOf, List.flatMap_cons, List.cons_append, List.cons_append, List.nil_append, spell, hx,
      UInt8.ofNat_toNat]
    exact congrArg _ ih

theorem hexDigit_upperDigit {a : ℕ} (h : a < 16) : hexDigit (upperDigit a) = some a := by
  interval_cases a <;> rfl

theorem hexDigits_hexText (data : List UInt8) : hexDigits (hexText data) = digitsOf data := by
  induction data with
  | nil => rfl
  | cons x data ih =>
    have hx := x.toNat_lt
    rw [hexText, List.flatMap_cons, List.cons_append, List.cons_append, List.nil_append,
      hexDigits_digit (hexDigit_upperDigit (by omega)),
      hexDigits_digit (hexDigit_upperDigit (by omega))]
    exact congrArg (fun l => _ :: _ :: l) ih

/-- **The round trip**, in a buffer that is large enough.  Only the digits count: what they
are written in, and the blanks between them, do not. -/
theorem parseHex_digits {n : ℕ} {s data : List UInt8} (hs : hexDigits s = digitsOf data)
    (hn : data.length ≤ n) : parseHex n s = data := by
  rw [parseHex_eq, hs, spell_digitsOf, List.take_of_length_le hn]

theorem parseHex_hexText {n : ℕ} {data : List UInt8} (hn : data.length ≤ n) :
    parseHex n (hexText data) = data := parseHex_digits (hexDigits_hexText data) hn

theorem length_hexText (data : List UInt8) : (hexText data).length = 2 * data.length := by
  simp [hexText, List.length_flatMap, Nat.mul_comm]

/-- A digit is neither white space nor the end of a string. -/
theorem upperDigit_facts {a : ℕ} (h : a < 16) :
    isSpace (upperDigit a) = false ∧ upperDigit a ≠ 0 := by
  interval_cases a <;> decide

theorem hexText_facts {data : List UInt8} {ch : UInt8} (h : ch ∈ hexText data) :
    isSpace ch = false ∧ ch ≠ 0 := by
  obtain ⟨x, -, hx⟩ := List.mem_flatMap.1 h
  have hlt := x.toNat_lt
  simp only [List.mem_cons, List.not_mem_nil, or_false] at hx
  rcases hx with rfl | rfl
  · exact upperDigit_facts (by omega)
  · exact upperDigit_facts (by omega)

end Kat
