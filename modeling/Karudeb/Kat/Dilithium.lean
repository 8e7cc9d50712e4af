import Karudeb.Kat.Counters
import Karudeb.Mldsa.Internal

/-!
# The known answers of ML-DSA

`read_kat` of `test_dilithium.c`: the records of a file are read, the function of each is
called, and its result is compared with the one in the file.
-/

namespace TestDilithium

open Kat Mldsa Scan

/-- The arrays of `read_kat` that keep what they hold. -/
inductive Var
  | xi | rnd | pk | sk | mp | sig | sig1
  deriving DecidableEq

/-- `sizeof`. -/
def Var.size : Var → ℕ
  | xi | rnd => 32
  | pk => 2592
  | sk => 4896
  | mp => 0x8000
  | sig | sig1 => 4627

/-- The kinds of records. -/
inductive Kind
  | keygen | siggen | sigver
  deriving DecidableEq

instance : Fintype Kind where
  elems := {.keygen, .siggen, .sigver}
  complete k := by cases k <;> decide

/-- The string that stands for a kind. -/
def Kind.text : Kind → List UInt8
  | keygen => ascii ['k', 'e', 'y', 'g', 'e', 'n']
  | siggen => ascii ['s', 'i', 'g', 'g', 'e', 'n']
  | sigver => ascii ['s', 'i', 'g', 'v', 'e', 'r']

/-- `mldsa_par[i]->name`. -/
def parName (i : Fin 3) : List UInt8 :=
  ascii (['M', 'L', '-', 'D', 'S', 'A', '-'] ++ [['4', '4'], ['6', '5'], ['8', '7']].get i)

/-- `KATF_BUF_READVAR`. -/
def readvar (v : Var) (lab : List Char) (siz : ℕ) (id : ℤ) : Turn Var Unit :=
  katfBufReadvar v v.size (ascii lab) siz id

/-- A message, read with `KATF_BUF_READ` and `KATF_BUF_PARSE`. -/
def readMp (id : ℤ) : Turn Var (List UInt8) := do
  let buf ← katfBufRead (ascii ['m', 'p']) id
  let mpSz ← katfBufParse Var.mp Var.mp.size buf
  let mp ← Turn.arr Var.mp
  pure (mp.take mpSz)

variable (H : Hash) (i : Fin 3) (id : ℤ)

/-- The branch of a key pair. -/
def keygen : Turn Var (Counters Kind → Counters Kind) := do
  let par := mldsaPar i
  readvar .xi ['x', 'i'] Var.xi.size id
  readvar .pk ['p', 'k'] par.pkSz id
  readvar .sk ['s', 'k'] par.skSz id
  let (pk1, sk1) ← Turn.call (keygenInternal H par (← Turn.arr .xi))
  let pk ← Turn.arr .pk
  let sk ← Turn.arr .sk
  pure (Counters.count .keygen i (decide (pk.take par.pkSz = (Bytes.ofList pk1).take par.pkSz ∧
    sk.take par.skSz = (Bytes.ofList sk1).take par.skSz)))

/-- The branch of a signature that is generated. -/
def siggen : Turn Var (Counters Kind → Counters Kind) := do
  let par := mldsaPar i
  readvar .sk ['s', 'k'] par.skSz id
  let mp ← readMp id
  readvar .rnd ['r', 'n', 'd'] Var.rnd.size id
  readvar .sig ['s', 'i', 'g'] par.sigSz id
  let sk ← Turn.arr .sk
  let rnd ← Turn.arr .rnd
  let (sig1, sigSz) ← Turn.call (signInternal H par (← Turn.arr .sig1) sk mp rnd)
  Turn.set .sig1 sig1
  if sigSz ≠ par.sigSz then
    Turn.skip
  else
    let sig ← Turn.arr .sig
    pure (Counters.count .siggen i (decide (sig.take par.sigSz = sig1.take par.sigSz)))

/-- The branch of a signature that is verified. -/
def sigver : Turn Var (Counters Kind → Counters Kind) := do
  let par := mldsaPar i
  readvar .pk ['p', 'k'] par.pkSz id
  let mp ← readMp id
  readvar .sig ['s', 'i', 'g'] par.sigSz id
  let buf ← katfBufRead (ascii ['r', 'e', 's']) id
  let res := if buf.headD 0 = 49 then 1 else 0
  let pk ← Turn.arr .pk
  let sig ← Turn.arr .sig
  let res1 ← Turn.call (verifyInternal H par pk mp sig par.sigSz)
  pure (Counters.count .sigver i (decide (res = res1)))

/-- The body of the loop, behind the first line of a record. -/
def record (var alg : List UInt8) : Turn Var (Counters Kind → Counters Kind) :=
  match findPar parName alg with
  | none => Turn.skip
  | some i =>
    if var = Kind.keygen.text then keygen H i id
    else if var = Kind.siggen.text then siggen H i id
    else if var = Kind.sigver.text then sigver H i id
    else Turn.skip

/-- `read_kat`, on arrays that hold something. -/
def readKat (arr : Var → Bytes) (file : List UInt8) : Prog (Counters Kind) :=
  Prog.loop (readKatStep fun id var alg => record H id var alg) (⟨file, arr⟩, Counters.zero)

end TestDilithium
