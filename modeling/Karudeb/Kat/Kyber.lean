import Karudeb.Kat.Counters
import Karudeb.Mlkem.Kem

/-!
# The known answers of ML-KEM

`read_kat` of `test_kyber.c`.  It compares whole arrays, as large as the largest parameter set
needs, so that what is behind a key or a ciphertext counts as well.
-/

namespace TestKyber

open Kat Mlkem Scan

/-- The arrays of `read_kat` that keep what they hold. -/
inductive Var
  | rd | rz | rm | kk | kk1 | ek | ek1 | dk | dk1 | ct | ct1
  deriving DecidableEq

/-- `sizeof`. -/
def Var.size : Var → ℕ
  | rd | rz | rm | kk | kk1 => 32
  | ek | ek1 => 1568
  | dk | dk1 => 3168
  | ct | ct1 => 1568

/-- The kinds of records. -/
inductive Kind
  | keygen | encaps | decaps
  deriving DecidableEq

instance : Fintype Kind where
  elems := {.keygen, .encaps, .decaps}
  complete k := by cases k <;> decide

/-- The string that stands for a kind. -/
def Kind.text : Kind → List UInt8
  | keygen => ascii ['k', 'e', 'y', 'g', 'e', 'n']
  | encaps => ascii ['e', 'n', 'c', 'a', 'p', 's']
  | decaps => ascii ['d', 'e', 'c', 'a', 'p', 's']

/-- `mlkem_par[i]->name`. -/
def parName (i : Fin 3) : List UInt8 :=
  ascii (['M', 'L', '-', 'K', 'E', 'M', '-'] ++
    [['5', '1', '2'], ['7', '6', '8'], ['1', '0', '2', '4']].get i)

/-- `KATF_BUF_READVAR`. -/
def readvar (v : Var) (lab : List Char) (siz : ℕ) (id : ℤ) : Turn Var Unit :=
  katfBufReadvar v v.size (ascii lab) siz id

/-- `memcmp(v, w, sizeof(v)) == 0`. -/
def same (v w : Var) : Turn Var Bool := do
  let a ← Turn.arr v
  let b ← Turn.arr w
  pure (decide (a.take v.size = b.take v.size))

variable (build : Build) (H : Hash) (i : Fin 3) (id : ℤ)

/-- The branch of a key pair. -/
def keygen : Turn Var (Counters Kind → Counters Kind) := do
  let par := mlkemPar i
  readvar .rd ['d'] 32 id
  readvar .rz ['z'] 32 id
  readvar .ek ['e', 'k'] par.ekSz id
  readvar .dk ['d', 'k'] par.dkSz id
  let rd ← Turn.arr .rd
  let rz ← Turn.arr .rz
  let (ek1, dk1) ← Turn.call (keygenInternal build H par (← Turn.arr .dk1) rd rz)
  Turn.put .ek1 ek1
  Turn.set .dk1 dk1
  let sameEk ← same .ek .ek1
  let sameDk ← same .dk .dk1
  pure (Counters.count .keygen i (sameEk && sameDk))

/-- The branch of a key that is encapsulated. -/
def encaps : Turn Var (Counters Kind → Counters Kind) := do
  let par := mlkemPar i
  readvar .ek ['e', 'k'] par.ekSz id
  readvar .rm ['m'] 32 id
  readvar .kk ['K'] 32 id
  readvar .ct ['c'] par.ctSz id
  let ek ← Turn.arr .ek
  let (kk1, ct1) ← Turn.call (encapsInternal build H par ek (← Turn.arr .rm))
  Turn.put .kk1 kk1
  Turn.put .ct1 ct1
  let sameKk ← same .kk .kk1
  let sameCt ← same .ct .ct1
  pure (Counters.count .encaps i (sameKk && sameCt))

/-- The branch of a ciphertext that is decapsulated. -/
def decaps : Turn Var (Counters Kind → Counters Kind) := do
  let par := mlkemPar i
  readvar .dk ['d', 'k'] par.dkSz id
  readvar .ct ['c'] par.ctSz id
  readvar .kk ['K'] 32 id
  let dk ← Turn.arr .dk
  let ct ← Turn.arr .ct
  let kk1 ← Turn.call (decapsInternal build H par (← Turn.arr .kk1) dk ct)
  Turn.set .kk1 kk1
  let sameKk ← same .kk .kk1
  pure (Counters.count .decaps i sameKk)

/-- The body of the loop, behind the first line of a record. -/
def record (var alg : List UInt8) : Turn Var (Counters Kind → Counters Kind) :=
  match findPar parName alg with
  | none => Turn.skip
  | some i =>
    if var = Kind.keygen.text then keygen build H i id
    else if var = Kind.encaps.text then encaps build H i id
    else if var = Kind.decaps.text then decaps build H i id
    else Turn.skip

/-- `read_kat`, on arrays that hold something. -/
def readKat (arr : Var → Bytes) (file : List UInt8) : Prog (Counters Kind) :=
  Prog.loop (readKatStep fun id var alg => record build H id var alg)
    (⟨file, arr⟩, Counters.zero)

end TestKyber
