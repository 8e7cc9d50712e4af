import Karudeb.Fips202.Keccak
import Karudeb.Fips202.KeccakF

/-!
# The permutation of the scalar build

`KeccakF1600_StatePermute` of `keccak.c`.  It does two rounds a turn, from one set
of 25 variables to another one and back, with the five steps run together and
`pi` done by naming alone.

* `evenRound_eq`, `oddRound_eq` : either half is a round on lanes.
* `permute_keccakF` : the whole is Keccak-f[1600].
-/

namespace Fips202

/-! ## The code -/

/-- `KeccakF_RoundConstants`. -/
def keccakFRoundConstants : List (BitVec 64) := [
  0x0000000000000001, 0x0000000000008082,
  0x800000000000808a, 0x8000000080008000,
  0x000000000000808b, 0x0000000080000001,
  0x8000000080008081, 0x8000000000008009,
  0x000000000000008a, 0x0000000000000088,
  0x0000000080008009, 0x000000008000000a,
  0x000000008000808b, 0x800000000000008b,
  0x8000000000008089, 0x8000000000008003,
  0x8000000000008002, 0x8000000000000080,
  0x000000000000800a, 0x800000008000000a,
  0x8000000080008081, 0x8000000000008080,
  0x0000000080000001, 0x8000000080008008]

/-- `ROL`. -/
def rol (a : BitVec 64) (offset : ℕ) : BitVec 64 := (a <<< offset) ^^^ (a >>> (64 - offset))

/-- The first half of the loop of `KeccakF1600_StatePermute`, from the variables `A` to the
variables `E`. -/
def evenRound (round : ℕ) (state : Lanes) : Lanes :=
  let Aba := state.rd 0
  let Abe := state.rd 1
  let Abi := state.rd 2
  let Abo := state.rd 3
  let Abu := state.rd 4
  let Aga := state.rd 5
  let Age := state.rd 6
  let Agi := state.rd 7
  let Ago := state.rd 8
  let Agu := state.rd 9
  let Aka := state.rd 10
  let Ake := state.rd 11
  let Aki := state.rd 12
  let Ako := state.rd 13
  let Aku := state.rd 14
  let Ama := state.rd 15
  let Ame := state.rd 16
  let Ami := state.rd 17
  let Amo := state.rd 18
  let Amu := state.rd 19
  let Asa := state.rd 20
  let Ase := state.rd 21
  let Asi := state.rd 22
  let Aso := state.rd 23
  let Asu := state.rd 24
  -- prepareTheta
  let BCa := Aba ^^^ Aga ^^^ Aka ^^^ Ama ^^^ Asa
  let BCe := Abe ^^^ Age ^^^ Ake ^^^ Ame ^^^ Ase
  let BCi := Abi ^^^ Agi ^^^ Aki ^^^ Ami ^^^ Asi
  let BCo := Abo ^^^ Ago ^^^ Ako ^^^ Amo ^^^ Aso
  let BCu := Abu ^^^ Agu ^^^ Aku ^^^ Amu ^^^ Asu
  -- thetaRhoPiChiIotaPrepareTheta(round, A, E)
  let Da := BCu ^^^ rol BCe 1
  let De := BCa ^^^ rol BCi 1
  let Di := BCe ^^^ rol BCo 1
  let Do := BCi ^^^ rol BCu 1
  let Du := BCo ^^^ rol BCa 1
  let Aba := Aba ^^^ Da
  let BCa := Aba
  let Age := Age ^^^ De
  let BCe := rol Age 44
  let Aki := Aki ^^^ Di
  let BCi := rol Aki 43
  let Amo := Amo ^^^ Do
  let BCo := rol Amo 21
  let Asu := Asu ^^^ Du
  let BCu := rol Asu 14
  let Eba := BCa ^^^ ((~~~BCe) &&& BCi)
  let Eba := Eba ^^^ keccakFRoundConstants.getD round 0
  let Ebe := BCe ^^^ ((~~~BCi) &&& BCo)
  let Ebi := BCi ^^^ ((~~~BCo) &&& BCu)
  let Ebo := BCo ^^^ ((~~~BCu) &&& BCa)
  let Ebu := BCu ^^^ ((~~~BCa) &&& BCe)
  let Abo := Abo ^^^ Do
  let BCa := rol Abo 28
  let Agu := Agu ^^^ Du
  let BCe := rol Agu 20
  let Aka := Aka ^^^ Da
  let BCi := rol Aka 3
  let Ame := Ame ^^^ De
  let BCo := rol Ame 45
  let Asi := Asi ^^^ Di
  let BCu := rol Asi 61
  let Ega := BCa ^^^ ((~~~BCe) &&& BCi)
  let Ege := BCe ^^^ ((~~~BCi) &&& BCo)
  let Egi := BCi ^^^ ((~~~BCo) &&& BCu)
  let Ego := BCo ^^^ ((~~~BCu) &&& BCa)
  let Egu := BCu ^^^ ((~~~BCa) &&& BCe)
  let Abe := Abe ^^^ De
  let BCa := rol Abe 1
  let Agi := Agi ^^^ Di
  let BCe := rol Agi 6
  let Ako := Ako ^^^ Do
  let BCi := rol Ako 25
  let Amu := Amu ^^^ Du
  let BCo := rol Amu 8
  let Asa := Asa ^^^ Da
  let BCu := rol Asa 18
  let Eka := BCa ^^^ ((~~~BCe) &&& BCi)
  let Eke := BCe ^^^ ((~~~BCi) &&& BCo)
  let Eki := BCi ^^^ ((~~~BCo) &&& BCu)
  let Eko := BCo ^^^ ((~~~BCu) &&& BCa)
  let Eku := BCu ^^^ ((~~~BCa) &&& BCe)
  let Abu := Abu ^^^ Du
  let BCa := rol Abu 27
  let Aga := Aga ^^^ Da
  let BCe := rol Aga 36
  let Ake := Ake ^^^ De
  let BCi := rol Ake 10
  let Ami := Ami ^^^ Di
  let BCo := rol Ami 15
  let Aso := Aso ^^^ Do
  let BCu := rol Aso 56
  let Ema := BCa ^^^ ((~~~BCe) &&& BCi)
  let Eme := BCe ^^^ ((~~~BCi) &&& BCo)
  let Emi := BCi ^^^ ((~~~BCo) &&& BCu)
  let Emo := BCo ^^^ ((~~~BCu) &&& BCa)
  let Emu := BCu ^^^ ((~~~BCa) &&& BCe)
  let Abi := Abi ^^^ Di
  let BCa := rol Abi 62
  let Ago := Ago ^^^ Do
  let BCe := rol Ago 55
  let Aku := Aku ^^^ Du
  let BCi := rol Aku 39
  let Ama := Ama ^^^ Da
  let BCo := rol Ama 41
  let Ase := Ase ^^^ De
  let BCu := rol Ase 2
  let Esa := BCa ^^^ ((~~~BCe) &&& BCi)
  let Ese := BCe ^^^ ((~~~BCi) &&& BCo)
  let Esi := BCi ^^^ ((~~~BCo) &&& BCu)
  let Eso := BCo ^^^ ((~~~BCu) &&& BCa)
  let Esu := BCu ^^^ ((~~~BCa) &&& BCe)
  #v[Eba, Ebe, Ebi, Ebo, Ebu,
    Ega, Ege, Egi, Ego, Egu,
    Eka, Eke, Eki, Eko, Eku,
    Ema, Eme, Emi, Emo, Emu,
    Esa, Ese, Esi, Eso, Esu]

/-- The second half of the loop of `KeccakF1600_StatePermute`, from the variables `E` back to
the variables `A`. -/
def oddRound (round : ℕ) (state : Lanes) : Lanes :=
  let Eba := state.rd 0
  let Ebe := state.rd 1
  let Ebi := state.rd 2
  let Ebo := state.rd 3
  let Ebu := state.rd 4
  let Ega := state.rd 5
  let Ege := state.rd 6
  let Egi := state.rd 7
  let Ego := state.rd 8
  let Egu := state.rd 9
  let Eka := state.rd 10
  let Eke := state.rd 11
  let Eki := state.rd 12
  let Eko := state.rd 13
  let Eku := state.rd 14
  let Ema := state.rd 15
  let Eme := state.rd 16
  let Emi := state.rd 17
  let Emo := state.rd 18
  let Emu := state.rd 19
  let Esa := state.rd 20
  let Ese := state.rd 21
  let Esi := state.rd 22
  let Eso := state.rd 23
  let Esu := state.rd 24
  -- prepareTheta
  let BCa := Eba ^^^ Ega ^^^ Eka ^^^ Ema ^^^ Esa
  let BCe := Ebe ^^^ Ege ^^^ Eke ^^^ Eme ^^^ Ese
  let BCi := Ebi ^^^ Egi ^^^ Eki ^^^ Emi ^^^ Esi
  let BCo := Ebo ^^^ Ego ^^^ Eko ^^^ Emo ^^^ Eso
  let BCu := Ebu ^^^ Egu ^^^ Eku ^^^ Emu ^^^ Esu
  -- thetaRhoPiChiIotaPrepareTheta(round+1, E, A)
  let Da := BCu ^^^ rol BCe 1
  let De := BCa ^^^ rol BCi 1
  let Di := BCe ^^^ rol BCo 1
  let Do := BCi ^^^ rol BCu 1
  let Du := BCo ^^^ rol BCa 1
  let Eba := Eba ^^^ Da
  let BCa := Eba
  let Ege := Ege ^^^ De
  let BCe := rol Ege 44
  let Eki := Eki ^^^ Di
  let BCi := rol Eki 43
  let Emo := Emo ^^^ Do
  let BCo := rol Emo 21
  let Esu := Esu ^^^ Du
  let BCu := rol Esu 14
  let Aba := BCa ^^^ ((~~~BCe) &&& BCi)
  let Aba := Aba ^^^ keccakFRoundConstants.getD (round + 1) 0
  let Abe := BCe ^^^ ((~~~BCi) &&& BCo)
  let Abi := BCi ^^^ ((~~~BCo) &&& BCu)
  let Abo := BCo ^^^ ((~~~BCu) &&& BCa)
  let Abu := BCu ^^^ ((~~~BCa) &&& BCe)
  let Ebo := Ebo ^^^ Do
  let BCa := rol Ebo 28
  let Egu := Egu ^^^ Du
  let BCe := rol Egu 20
  let Eka := Eka ^^^ Da
  let BCi := rol Eka 3
  let Eme := Eme ^^^ De
  let BCo := rol Eme 45
  let Esi := Esi ^^^ Di
  let BCu := rol Esi 61
  let Aga := BCa ^^^ ((~~~BCe) &&& BCi)
  let Age := BCe ^^^ ((~~~BCi) &&& BCo)
  let Agi := BCi ^^^ ((~~~BCo) &&& BCu)
  let Ago := BCo ^^^ ((~~~BCu) &&& BCa)
  let Agu := BCu ^^^ ((~~~BCa) &&& BCe)
  let Ebe := Ebe ^^^ De
  let BCa := rol Ebe 1
  let Egi := Egi ^^^ Di
  let BCe := rol Egi 6
  let Eko := Eko ^^^ Do
  let BCi := rol Eko 25
  let Emu := Emu ^^^ Du
  let BCo := rol Emu 8
  let Esa := Esa ^^^ Da
  let BCu := rol Esa 18
  let Aka := BCa ^^^ ((~~~BCe) &&& BCi)
  let Ake := BCe ^^^ ((~~~BCi) &&& BCo)
  let Aki := BCi ^^^ ((~~~BCo) &&& BCu)
  let Ako := BCo ^^^ ((~~~BCu) &&& BCa)
  let Aku := BCu ^^^ ((~~~BCa) &&& BCe)
  let Ebu := Ebu ^^^ Du
  let BCa := rol Ebu 27
  let Ega := Ega ^^^ Da
  let BCe := rol Ega 36
  let Eke := Eke ^^^ De
  let BCi := rol Eke 10
  let Emi := Emi ^^^ Di
  let BCo := rol Emi 15
  let Eso := Eso ^^^ Do
  let BCu := rol Eso 56
  let Ama := BCa ^^^ ((~~~BCe) &&& BCi)
  let Ame := BCe ^^^ ((~~~BCi) &&& BCo)
  let Ami := BCi ^^^ ((~~~BCo) &&& BCu)
  let Amo := BCo ^^^ ((~~~BCu) &&& BCa)
  let Amu := BCu ^^^ ((~~~BCa) &&& BCe)
  let Ebi := Ebi ^^^ Di
  let BCa := rol Ebi 62
  let Ego := Ego ^^^ Do
  let BCe := rol Ego 55
  let Eku := Eku ^^^ Du
  let BCi := rol Eku 39
  let Ema := Ema ^^^ Da
  let BCo := rol Ema 41
  let Ese := Ese ^^^ De
  let BCu := rol Ese 2
  let Asa := BCa ^^^ ((~~~BCe) &&& BCi)
  let Ase := BCe ^^^ ((~~~BCi) &&& BCo)
  let Asi := BCi ^^^ ((~~~BCo) &&& BCu)
  let Aso := BCo ^^^ ((~~~BCu) &&& BCa)
  let Asu := BCu ^^^ ((~~~BCa) &&& BCe)
  #v[Aba, Abe, Abi, Abo, Abu,
    Aga, Age, Agi, Ago, Agu,
    Aka, Ake, Aki, Ako, Aku,
    Ama, Ame, Ami, Amo, Amu,
    Asa, Ase, Asi, Aso, Asu]

/-- `KeccakF1600_StatePermute`. -/
def keccakF1600StatePermute (state : Lanes) : Lanes :=
  (List.range 12).foldl (fun state i => oddRound (2 * i) (evenRound (2 * i) state)) state

/-! ## Rounds -/

/-- The lanes of the state by their coordinates. -/
def laneArray (s : Lanes) : KeccakF.LaneArray := fun x y => s.rd (5 * y + x)

/-- The state with given lanes. -/
def ofLaneArray (L : KeccakF.LaneArray) : Lanes :=
  KeccakF.Lane.toVector L

theorem laneArray_ofLaneArray (L : KeccakF.LaneArray) : laneArray (ofLaneArray L) = L := by
  funext x y
  fin_cases x <;> fin_cases y <;> rfl

/-- **The first half of a turn** is a round on lanes. -/
theorem evenRound_eq (round : ℕ) (state : Lanes) :
    evenRound round state = ofLaneArray
      (KeccakF.Lane.rnd (keccakFRoundConstants.getD round 0) (laneArray state)) := rfl

/-- **The second half of a turn** is a round on lanes. -/
theorem oddRound_eq (round : ℕ) (state : Lanes) :
    oddRound round state = ofLaneArray
      (KeccakF.Lane.rnd (keccakFRoundConstants.getD (round + 1) 0) (laneArray state)) := rfl

/-- **The round constants** are those of the shift register. -/
theorem roundConstants_eq : ∀ ir < 24, ∀ z : Fin 64,
    (keccakFRoundConstants.getD ir 0).getLsbD z = KeccakF.roundConstant ir z := by
  decide +kernel

/-! ## All rounds -/

/-- The state array of a state. -/
def stateArray (s : Lanes) : KeccakF.StateArray := KeccakF.bits (laneArray s)

/-- A state is determined by its bits. -/
theorem stateArray_inj {s t : Lanes} (h : stateArray s = stateArray t) : s = t := by
  apply Vector.ext_rd
  intro i hi
  apply BitVec.eq_of_getLsbD_eq
  intro z hz
  have hbit := congrFun (congrFun (congrFun h ⟨i % 5, Nat.mod_lt i (by norm_num)⟩)
    ⟨i / 5, by omega⟩) ⟨z, hz⟩
  unfold stateArray KeccakF.bits laneArray at hbit
  dsimp only at hbit
  rwa [Nat.div_add_mod] at hbit

/-- A turn of the loop is two rounds. -/
theorem stateArray_turn {i : ℕ} (hi : i < 12) (s : Lanes) :
    stateArray (oddRound (2 * i) (evenRound (2 * i) s)) =
      KeccakF.rnd (KeccakF.rnd (stateArray s) (2 * i)) (2 * i + 1) := by
  unfold stateArray
  rw [oddRound_eq, laneArray_ofLaneArray, KeccakF.bits_rnd (roundConstants_eq _ (by omega)),
    evenRound_eq, laneArray_ofLaneArray, KeccakF.bits_rnd (roundConstants_eq _ (by omega))]

/-- **`KeccakF1600_StatePermute` is Keccak-f[1600]**, on every state. -/
theorem permute_keccakF (s : Lanes) :
    stateArray (keccakF1600StatePermute s) = KeccakF.keccakF (stateArray s) := by
  have hrun : ∀ n ≤ 12, stateArray ((List.range n).foldl
      (fun state i => oddRound (2 * i) (evenRound (2 * i) state)) s) =
        (List.range (2 * n)).foldl KeccakF.rnd (stateArray s) := by
    intro n
    induction n with
    | zero => exact fun _ => rfl
    | succ n ih =>
      intro hn
      rw [List.range_succ, List.foldl_append, List.foldl_cons, List.foldl_nil,
        stateArray_turn (by omega), ih (by omega), Nat.mul_succ, List.range_succ, List.range_succ,
        List.foldl_append, List.foldl_append]
      rfl
  exact hrun 12 le_rfl

end Fips202
