import Karudeb.Fips202.Keccak
import Karudeb.Lib.Shake
import Karudeb.Lib.Sponge

/-!
# The hash functions are sponges

The lanes of a state are the 200 bytes of a string, and the functions of
`fips202.c` are the sponge over these bytes, however a message is cut into
calls of `absorb` and the output into calls of `squeeze` and `squeezeblocks`.

* `returns_keccakAbsorb` : absorbing keeps `Absorbed`, the state after a message.
* `returns_keccakSqueeze`, `keccakSqueezeblocks_spec` : squeezing gives the next
  bytes of the output and keeps `Squeezed`, the state after so many bytes.
* `shake_sponge` : so every use of the interface gives a prefix of the output.
* `ofPerm_exact` : the functional `keccak_state`, which only counts, is followed by the one with
  lanes through every run.
-/

namespace Fips202

open Sponge Prog

/-! ## Lanes as bytes -/

theorem byteOf_zero (j : ℕ) : byteOf 0 j = 0 := by
  simp [byteOf]

theorem byteOf_xor (u v : BitVec 64) (j : ℕ) : byteOf (u ^^^ v) j = byteOf u j ^^^ byteOf v j := by
  unfold byteOf
  rw [BitVec.ushiftRight_xor_distrib, BitVec.setWidth_xor]
  rfl

theorem byteOf_or (u v : BitVec 64) (j : ℕ) : byteOf (u ||| v) j = byteOf u j ||| byteOf v j := by
  unfold byteOf
  rw [BitVec.ushiftRight_or_distrib, BitVec.setWidth_or]
  rfl

theorem byteOf_laneOf (x : UInt8) {j k : ℕ} (hj : j < 8) :
    byteOf (laneOf x k) j = if j = k then x else 0 := by
  unfold byteOf laneOf
  rw [← UInt8.toBitVec_inj]
  refine BitVec.eq_of_getLsbD_eq fun i hi => ?_
  simp only [BitVec.getLsbD_setWidth, BitVec.getLsbD_ushiftRight, BitVec.getLsbD_shiftLeft]
  by_cases h : j = k
  · subst h
    have hin : 8 * j + i < 64 := by omega
    rw [if_pos rfl, Nat.add_sub_cancel_left]
    simp [hi, hin]
    omega
  · rw [if_neg h]
    by_cases hlt : 8 * j + i < 8 * k
    · simp [hlt]
    · have hx : x.toBitVec.getLsbD (8 * j + i - 8 * k) = false :=
        BitVec.getLsbD_of_ge _ _ (by omega)
      simp [hx]

theorem byteOf_load64 (x : Bytes) {j : ℕ} (hj : j < 8) : byteOf (load64 x) j = x j := by
  have h : ∀ n, byteOf ((List.range n).foldl (fun r i => r ||| laneOf (x i) i) 0) j =
      if j < n then x j else 0 := by
    intro n
    induction n with
    | zero => exact byteOf_zero j
    | succ n ih =>
      rw [List.range_succ, List.foldl_append, List.foldl_cons, List.foldl_nil, byteOf_or, ih,
        byteOf_laneOf _ hj]
      rcases Nat.lt_trichotomy j n with hlt | rfl | hlt
      · rw [if_pos hlt, if_neg (by omega), if_pos (by omega), UInt8.or_zero]
      · rw [if_neg (by omega), if_pos rfl, if_pos (by omega), UInt8.zero_or]
      · rw [if_neg (by omega), if_neg (by omega), if_neg (by omega), UInt8.or_zero]
  exact (h 8).trans (if_pos hj)

theorem lane_ext {u v : BitVec 64} (h : ∀ j < 8, byteOf u j = byteOf v j) : u = v := by
  refine BitVec.eq_of_getLsbD_eq fun i hi => ?_
  have h := congrArg (fun y : UInt8 => y.toBitVec.getLsbD (i % 8)) (h (i / 8) (by omega))
  unfold byteOf at h
  simp only [BitVec.getLsbD_setWidth, BitVec.getLsbD_ushiftRight, Nat.div_add_mod] at h
  have hlt : i % 8 < 8 := Nat.mod_lt _ (by norm_num)
  simpa [hlt] using h

/-- The string of a state. -/
def toStr (s : Lanes) : Vector UInt8 200 := Vector.tab 200 (byteAt s)

/-- The state of a string. -/
def ofStr (v : Vector UInt8 200) : Lanes := Vector.tab 25 fun i => load64 fun j => v.rd (8 * i + j)

/-- The permutation, on strings. -/
def onStr (perm : Lanes → Lanes) (v : Vector UInt8 200) : Vector UInt8 200 := toStr (perm (ofStr v))

theorem rd_toStr (s : Lanes) {j : ℕ} (hj : j < 200) : (toStr s).rd j = byteAt s j :=
  Vector.rd_tab _ hj

theorem ofStr_toStr (s : Lanes) : ofStr (toStr s) = s := by
  refine Vector.ext_rd fun i hi => lane_ext fun j hj => ?_
  unfold ofStr
  rw [Vector.rd_tab _ hi, byteOf_load64 _ hj, rd_toStr s (by omega)]
  unfold byteAt
  rw [show (8 * i + j) / 8 = i by omega, show (8 * i + j) % 8 = j by omega]

theorem toStr_perm (perm : Lanes → Lanes) (s : Lanes) : toStr (perm s) = onStr perm (toStr s) := by
  rw [onStr, ofStr_toStr]

theorem toStr_init : toStr keccakInit = Vector.tab 200 fun _ => 0 := by
  refine Vector.tab_congr fun j hj => ?_
  unfold byteAt keccakInit
  rw [Vector.rd_tab _ (by omega), byteOf_zero]

theorem toStr_xorByte (s : Lanes) (i : ℕ) (x : UInt8) :
    toStr (xorByte s i x) = xorStr (toStr s) i [x] := by
  refine Vector.ext_rd fun j hj => ?_
  rw [rd_toStr _ hj, rd_xorStr _ _ _ hj, rd_toStr _ hj, List.length_singleton]
  unfold byteAt xorByte
  rw [Vector.rd_wr]
  by_cases hlane : i / 8 = j / 8
  · rw [if_pos ⟨hlane, by omega⟩, byteOf_xor, byteOf_laneOf _ (Nat.mod_lt _ (by norm_num)), hlane]
    by_cases hbyte : j % 8 = i % 8
    · rw [if_pos hbyte, if_pos (by omega), show j - i = 0 by omega]
      rfl
    · rw [if_neg hbyte, if_neg (by omega), UInt8.xor_zero]
  · rw [if_neg (by omega), if_neg (by omega)]

theorem toStr_xorBytes (s : Lanes) (i : ℕ) (l : List UInt8) :
    toStr (xorBytes s i l) = xorStr (toStr s) i l := by
  induction l generalizing s i with
  | nil => exact (xorStr_nil _ _).symm
  | cons x l ih =>
    have h := xorStr_xorStr (toStr s) i [x] l
    rw [xorBytes, ih, toStr_xorByte]
    exact h

/-- The last bit of a block, which `keccak_finalize` sets in the last lane. -/
theorem last_bit (s : Lanes) {r : ℕ} (hr : 0 < r) (h8 : r % 8 = 0) :
    s.wr (r / 8 - 1) (s.rd (r / 8 - 1) ^^^ 1 <<< 63) = xorByte s (r - 1) 0x80 := by
  unfold xorByte
  rw [show (r - 1) / 8 = r / 8 - 1 by omega, show (r - 1) % 8 = 7 by omega]
  congr 2

/-- A lane that is added is the string of its bytes. -/
theorem toStr_xorLane (s : Lanes) (i : ℕ) (x : Bytes) :
    toStr (s.wr i (s.rd i ^^^ load64 x)) = xorStr (toStr s) (8 * i) (x.take 8) := by
  refine Vector.ext_rd fun j hj => ?_
  rw [rd_toStr _ hj, rd_xorStr _ _ _ hj, rd_toStr _ hj, Bytes.length_take]
  unfold byteAt
  rw [Vector.rd_wr]
  by_cases hlane : i = j / 8
  · have hlt : j - 8 * i < (x.take 8).length := by
      rw [Bytes.length_take]
      omega
    rw [if_pos ⟨hlane, by omega⟩, if_pos (by omega), byteOf_xor,
      byteOf_load64 _ (Nat.mod_lt _ (by norm_num)), List.getD_eq_getElem _ _ hlt,
      Bytes.getElem_take, hlane, show j - 8 * (j / 8) = j % 8 by omega]
  · rw [if_neg (by omega), if_neg (by omega)]

/-- A block that is added lane by lane. -/
theorem toStr_xorLanes (s : Lanes) {r : ℕ} (h8 : r % 8 = 0) {inp : List UInt8}
    (hlen : r ≤ inp.length) :
    toStr ((List.range (r / 8)).foldl (fun s i =>
      s.wr i (s.rd i ^^^ load64 ((Bytes.ofList inp).drop (8 * i)))) s) =
        xorStr (toStr s) 0 (inp.take r) := by
  have hblock : inp.take r = (Bytes.ofList inp).take r := by
    refine List.ext_getElem (by simp [hlen]) fun j h1 h2 => ?_
    rw [List.getElem_take, Bytes.getElem_take]
    exact (List.getD_eq_getElem _ _ _).symm
  have hrun : ∀ n, 8 * n ≤ r → toStr ((List.range n).foldl (fun s i =>
      s.wr i (s.rd i ^^^ load64 ((Bytes.ofList inp).drop (8 * i)))) s) =
        xorStr (toStr s) 0 ((Bytes.ofList inp).take (8 * n)) := by
    intro n
    induction n with
    | zero => exact fun _ => (xorStr_nil _ _).symm
    | succ n ih =>
      intro hn
      have happend := xorStr_xorStr (toStr s) 0 ((Bytes.ofList inp).take (8 * n))
        (((Bytes.ofList inp).drop (8 * n)).take 8)
      rw [Bytes.length_take, Nat.zero_add] at happend
      rw [List.range_succ, List.foldl_append, List.foldl_cons, List.foldl_nil, toStr_xorLane,
        ih (by omega), Nat.mul_succ, Bytes.take_add, happend]
  have h := hrun (r / 8) (by omega)
  rwa [show 8 * (r / 8) = r by omega, ← hblock] at h

/-! ## Absorbing -/

variable {perm : Lanes → Lanes} {r : ℕ}

/-- The state after the message `m`: the whole blocks were absorbed, and the rest of it
was added. -/
def Absorbed (perm : Lanes → Lanes) (r : ℕ) (s : Lanes) (pos : ℕ) (m : List UInt8) : Prop :=
  ∃ P rest, m = P ++ rest ∧ P.length % r = 0 ∧ rest.length = pos ∧ pos < r ∧
    toStr s = xorStr (absorb (onStr perm) r P) 0 rest

theorem absorbed_init (perm : Lanes → Lanes) (hr : 0 < r) : Absorbed perm r keccakInit 0 [] := by
  refine ⟨[], [], rfl, Nat.zero_mod r, rfl, hr, ?_⟩
  rw [xorStr_nil, absorb_nil, toStr_init]

theorem Absorbed.pos_eq {s : Lanes} {pos : ℕ} {m : List UInt8} (h : Absorbed perm r s pos m) :
    pos = m.length % r := by
  obtain ⟨P, rest, rfl, hP, hrest, hlt, -⟩ := h
  rw [List.length_append, Nat.add_mod, hP, Nat.zero_add, Nat.mod_mod, hrest, Nat.mod_eq_of_lt hlt]

/-- A string that does not fill the block is added to it. -/
theorem Absorbed.add {s : Lanes} {pos : ℕ} {m : List UInt8} (h : Absorbed perm r s pos m)
    {l : List UInt8} (hl : pos + l.length < r) :
    Absorbed perm r (xorBytes s pos l) (pos + l.length) (m ++ l) := by
  obtain ⟨P, rest, rfl, hP, rfl, -, hs⟩ := h
  refine ⟨P, rest ++ l, List.append_assoc .., hP, List.length_append, hl, ?_⟩
  have hadd := xorStr_xorStr (absorb (onStr perm) r P) 0 rest l
  rw [Nat.zero_add] at hadd
  rw [toStr_xorBytes, hs, hadd]

/-- A string that fills the block is absorbed with it. -/
theorem Absorbed.block {s : Lanes} {pos : ℕ} {m : List UInt8} (h : Absorbed perm r s pos m)
    {l : List UInt8} (hl : pos + l.length = r) :
    Absorbed perm r (perm (xorBytes s pos l)) 0 (m ++ l) := by
  obtain ⟨P, rest, rfl, hP, rfl, hlt, hs⟩ := h
  have hlen : (rest ++ l).length = r := by rw [List.length_append, hl]
  refine ⟨P ++ (rest ++ l), [], by simp, ?_, rfl, by omega, ?_⟩
  · rw [List.length_append, hlen, Nat.add_mod_right, hP]
  · have hadd := xorStr_xorStr (absorb (onStr perm) r P) 0 rest l
    rw [Nat.zero_add] at hadd
    rw [toStr_perm, toStr_xorBytes, hs, hadd, xorStr_nil,
      absorb_append (by omega) hP hlen]

/-- **Absorbing** a string leaves the state after the message with the string behind. -/
theorem returns_keccakAbsorb {s : Lanes} {pos : ℕ} {m : List UInt8} (h : Absorbed perm r s pos m)
    (inp : List UInt8) : ∃ s' pos', Returns (keccakAbsorb perm s pos r inp) (s', pos') ∧
      Absorbed perm r s' pos' (m ++ inp) := by
  unfold keccakAbsorb
  induction hn : inp.length using Nat.strong_induction_on generalizing s pos m inp with
  | _ n ih =>
    by_cases hge : pos + inp.length ≥ r
    · have hpos : pos < r := by
        obtain ⟨P, rest, -, -, -, hlt, -⟩ := h
        exact hlt
      have hblock := h.block (l := inp.take (r - pos)) (by rw [List.length_take]; omega)
      obtain ⟨s', pos', hret, habs⟩ := ih (inp.drop (r - pos)).length
        (by rw [List.length_drop]; omega) hblock _ rfl
      rw [List.append_assoc, List.take_append_drop] at habs
      exact ⟨s', pos', (returns_loop_next (congrArg _ (if_pos hge))).2 hret, habs⟩
    · exact ⟨_, _, (returns_loop_done (congrArg _ (if_neg hge))).2 rfl, h.add (by omega)⟩

/-- The state that is left for squeezing: the padded message, but for the last
permutation. -/
def Padded (perm : Lanes → Lanes) (r : ℕ) (p : UInt8) (s : Lanes) (m : List UInt8) : Prop :=
  onStr perm (toStr s) = absorb (onStr perm) r (m ++ pad r p m.length)

theorem Absorbed.finalize (h8 : r % 8 = 0) {p : UInt8} (hp : p ||| 0x80 = p ^^^ 0x80) {s : Lanes}
    {pos : ℕ} {m : List UInt8} (h : Absorbed perm r s pos m) :
    Padded perm r p (keccakFinalize s pos r p) m := by
  have hpos := h.pos_eq
  obtain ⟨P, rest, rfl, hP, rfl, hlt, hs⟩ := h
  have hr : 0 < r := by omega
  have hlen : (rest ++ pad r p (P ++ rest).length).length = r := by
    rw [List.length_append, length_pad hr]
    omega
  have hadd := xorStr_xorStr (absorb (onStr perm) r P) 0 rest (pad r p (P ++ rest).length)
  rw [Nat.zero_add, hpos] at hadd
  unfold Padded keccakFinalize
  dsimp only
  rw [last_bit _ hr h8, toStr_xorByte, toStr_xorByte, hs, hpos, xorStr_pad _ hr hp, hadd,
    List.append_assoc, absorb_append hr hP hlen]

/-- **Absorbing a message at once** is absorbing it and padding. -/
theorem returns_keccakAbsorbOnce (perm : Lanes → Lanes) (hr : 0 < r) (h8 : r % 8 = 0) {p : UInt8}
    (hp : p ||| 0x80 = p ^^^ 0x80) (m : List UInt8) :
    ∃ s, Returns (keccakAbsorbOnce perm r m p) s ∧ Padded perm r p s m := by
  have hrun : ∀ n, ∀ (inp : List UInt8) (s : Lanes) (P : List UInt8), inp.length = n →
      Absorbed perm r s 0 P → ∃ s', Returns (Prog.loop (fun t =>
        pure (absorbOnceStep perm r p t)) (s, inp)) s' ∧ Padded perm r p s' (P ++ inp) := by
    intro n
    induction n using Nat.strong_induction_on with
    | _ n ih =>
      intro inp s P hn h
      by_cases hge : inp.length ≥ r
      · have htake : (inp.take r).length = r := by rw [List.length_take]; omega
        have hblock := h.block (l := inp.take r) (by omega)
        have hsame : (List.range (r / 8)).foldl (fun s i =>
            s.wr i (s.rd i ^^^ load64 ((Bytes.ofList inp).drop (8 * i)))) s =
              xorBytes s 0 (inp.take r) := by
          rw [← ofStr_toStr (List.foldl _ _ _), toStr_xorLanes s h8 hge, ← toStr_xorBytes,
            ofStr_toStr]
        obtain ⟨s', hret, hpad⟩ := ih (inp.drop r).length (by rw [List.length_drop]; omega) _ _ _
          rfl hblock
        rw [List.append_assoc, List.take_append_drop] at hpad
        refine ⟨s', (returns_loop_next (congrArg _ (if_pos hge))).2 ?_, hpad⟩
        rwa [hsame]
      · have hfin := (h.add (l := inp) (by omega)).finalize h8 hp
        unfold keccakFinalize at hfin
        rw [Nat.zero_add, show r / 8 - 1 = (r - 1) / 8 by omega] at hfin
        exact ⟨_, (returns_loop_done (congrArg _ (if_neg hge))).2 rfl, hfin⟩
  exact hrun _ m keccakInit [] rfl (absorbed_init perm hr)

/-! ## Squeezing -/

/-- The state from which `n` bytes of the output of `m` were squeezed. -/
def Squeezed (perm : Lanes → Lanes) (r : ℕ) (p : UInt8) (m : List UInt8) (s : Lanes) (pos n : ℕ) :
    Prop :=
  ∃ s₀ q, Padded perm r p s₀ m ∧ n + r = q * r + pos ∧ 0 < pos ∧ pos ≤ r ∧
    toStr s = (onStr perm)^[q] (toStr s₀)

theorem Padded.squeezed (hr : 0 < r) {p : UInt8} {s : Lanes} {m : List UInt8}
    (h : Padded perm r p s m) : Squeezed perm r p m s r 0 :=
  ⟨s, 0, h, by rw [Nat.zero_mul], hr, le_rfl, rfl⟩

/-- A byte of a block behind the padded message is a byte of the output. -/
theorem Padded.byteAt_eq {p : UInt8} {s₀ s : Lanes} {m : List UInt8} (h : Padded perm r p s₀ m)
    (h200 : r ≤ 200) {q pos : ℕ} (hs : toStr s = (onStr perm)^[q + 1] (toStr s₀)) (hpos : pos < r) :
    byteAt s pos = output (onStr perm) r p m (q * r + pos) := by
  have hdiv : (q * r + pos) / r = q := by
    rw [Nat.add_comm, Nat.add_mul_div_right _ _ (by omega), Nat.div_eq_of_lt hpos, Nat.zero_add]
  have hmod : (q * r + pos) % r = pos := by
    rw [Nat.add_comm, Nat.add_mul_mod_self_right, Nat.mod_eq_of_lt hpos]
  unfold output
  rw [hdiv, hmod, ← rd_toStr s (by omega), hs, Function.iterate_succ_apply, h]

/-- **Squeezing** gives the next bytes of the output. -/
theorem returns_keccakSqueeze (h200 : r ≤ 200) {p : UInt8} {m : List UInt8} {s : Lanes} {pos n : ℕ}
    (h : Squeezed perm r p m s pos n) (outlen : ℕ) :
    ∃ s' pos', Returns (keccakSqueeze perm outlen s pos r)
      (((output (onStr perm) r p m).drop n).take outlen, s', pos') ∧
        Squeezed perm r p m s' pos' (n + outlen) := by
  have hrun : ∀ k, ∀ outlen out s pos n, outlen = k → Squeezed perm r p m s pos n →
      ∃ s' pos', Returns (Prog.loop (fun t => pure (squeezeStep perm r t)) (out, outlen, s, pos))
        (out ++ ((output (onStr perm) r p m).drop n).take outlen, s', pos') ∧
          Squeezed perm r p m s' pos' (n + outlen) := by
    intro k
    induction k using Nat.strong_induction_on with
    | _ k ih =>
      intro outlen out s pos n hk h
      by_cases hzero : outlen = 0
      · refine ⟨s, pos, (returns_loop_done (congrArg _ (if_pos hzero))).2 ?_, ?_⟩
        · rw [hzero, Bytes.take, List.range_zero, List.map_nil, List.append_nil]
        · rwa [hzero]
      · obtain ⟨s₀, q, hpad, hn, hpos, hle, hs⟩ := h
        -- the block that is read from, and the position in it
        obtain ⟨s₁, pos₁, q₁, hstart, hn₁, hlt₁, hs₁⟩ : ∃ s₁ pos₁ q₁,
            (if pos = r then (perm s, 0) else (s, pos)) = (s₁, pos₁) ∧ n = q₁ * r + pos₁ ∧
              pos₁ < r ∧ toStr s₁ = (onStr perm)^[q₁ + 1] (toStr s₀) := by
          by_cases hfull : pos = r
          · refine ⟨perm s, 0, q, if_pos hfull, by omega, by omega, ?_⟩
            rw [toStr_perm, hs, Function.iterate_succ_apply']
          · obtain ⟨q₁, rfl⟩ : ∃ q₁, q = q₁ + 1 := by
              refine ⟨q - 1, ?_⟩
              rcases q with _ | q
              · rw [Nat.zero_mul] at hn
                omega
              · rfl
            rw [Nat.succ_mul] at hn
            exact ⟨s, pos, q₁, if_neg hfull, by omega, by omega, hs⟩
        have hbytes : ((List.range (min (r - pos₁) outlen)).map fun j => byteAt s₁ (pos₁ + j)) =
            ((output (onStr perm) r p m).drop n).take (min (r - pos₁) outlen) := by
          refine List.map_congr_left fun j hj => ?_
          have hj := List.mem_range.1 hj
          rw [hpad.byteAt_eq h200 hs₁ (by omega), hn₁, Bytes.drop, Nat.add_assoc]
        have hnext : Squeezed perm r p m s₁ (pos₁ + min (r - pos₁) outlen)
            (n + min (r - pos₁) outlen) := by
          refine ⟨s₀, q₁ + 1, hpad, ?_, by omega, by omega, hs₁⟩
          rw [Nat.succ_mul]
          omega
        obtain ⟨s', pos', hret, hsq⟩ := ih (outlen - min (r - pos₁) outlen) (by omega) _
          (out ++ ((output (onStr perm) r p m).drop n).take (min (r - pos₁) outlen)) _ _ _ rfl hnext
        have hsplit : min (r - pos₁) outlen + (outlen - min (r - pos₁) outlen) = outlen := by omega
        rw [List.append_assoc, ← Bytes.drop_drop, ← Bytes.take_add, hsplit] at hret
        rw [Nat.add_assoc, hsplit] at hsq
        refine ⟨s', pos', (returns_loop_next (congrArg _ ?_)).2 hret, hsq⟩
        rw [squeezeStep, if_neg hzero, hstart]
        dsimp only
        rw [hbytes]
  exact hrun _ outlen [] s pos n rfl h

/-- Lanes that are stored one behind the other are a string of the state. -/
theorem flatMap_store64 (s : Lanes) (n : ℕ) :
    (List.range n).flatMap (fun i => store64 (s.rd i)) = Bytes.take (byteAt s) (n * 8) := by
  refine ((Bytes.take_flatMap (byteAt s) fun i _ => by simp [store64]).2 fun i hi => ?_).symm
  refine List.map_congr_left fun j hj => ?_
  have hj := List.mem_range.1 hj
  rw [Bytes.drop, byteAt, show (i * 8 + j) / 8 = i by omega, show (i * 8 + j) % 8 = j by omega]

/-- **Squeezing whole blocks** gives the next bytes of the output, where a block ends. -/
theorem keccakSqueezeblocks_spec (h8 : r % 8 = 0) (h200 : r ≤ 200) {p : UInt8} {m : List UInt8}
    {s : Lanes} {n : ℕ} (h : Squeezed perm r p m s r n) (nblocks : ℕ) :
    (keccakSqueezeblocks perm r nblocks s).1 =
        ((output (onStr perm) r p m).drop n).take (nblocks * r) ∧
      Squeezed perm r p m (keccakSqueezeblocks perm r nblocks s).2 r (n + nblocks * r) := by
  induction nblocks generalizing s n with
  | zero =>
    rw [Nat.zero_mul]
    exact ⟨rfl, h⟩
  | succ k ih =>
    obtain ⟨s₀, q, hpad, hn, hpos, hle, hs⟩ := h
    have hs₁ : toStr (perm s) = (onStr perm)^[q + 1] (toStr s₀) := by
      rw [toStr_perm, hs, Function.iterate_succ_apply']
    have hnext : Squeezed perm r p m (perm s) r (n + r) :=
      ⟨s₀, q + 1, hpad, by rw [Nat.succ_mul, hn], hpos, le_rfl, hs₁⟩
    obtain ⟨hout, hsq⟩ := ih hnext
    have hblock : (List.range (r / 8)).flatMap (fun i => store64 ((perm s).rd i)) =
        ((output (onStr perm) r p m).drop n).take r := by
      rw [flatMap_store64, show r / 8 * 8 = r by omega]
      refine Bytes.take_congr fun j hj => ?_
      rw [hpad.byteAt_eq h200 hs₁ hj, Bytes.drop, show q * r + j = n + j by omega]
    rw [keccakSqueezeblocks]
    dsimp only
    constructor
    · rw [hout, hblock, Nat.succ_mul, Nat.add_comm (k * r), Bytes.take_add, Bytes.drop_drop]
    · rwa [Nat.succ_mul, Nat.add_comm (k * r), ← Nat.add_assoc]

/-! ## The interface -/

/-- A call that takes bytes out. -/
inductive Call
  | squeeze (outlen : ℕ)
  | squeezeblocks (nblocks : ℕ)

/-- How many bytes a call takes out. -/
def Call.size (x : Xof) : Call → ℕ
  | squeeze outlen => outlen
  | squeezeblocks nblocks => nblocks * x.rate

/-- One call. -/
def call (perm : Lanes → Lanes) (x : Xof) (state : KeccakState) :
    Call → Prog (List UInt8 × KeccakState)
  | .squeeze outlen => shakeSqueeze perm x outlen state
  | .squeezeblocks nblocks => pure (shakeSqueezeblocks perm x nblocks state)

/-- A sequence of calls, with everything they take out. -/
def calls (perm : Lanes → Lanes) (x : Xof) :
    KeccakState → List Call → Prog (List UInt8 × KeccakState)
  | state, [] => pure ([], state)
  | state, c :: cs => do
    let (out, state) ← call perm x state c
    let (out', state) ← calls perm x state cs
    pure (out ++ out', state)

/-- Whole blocks are only asked for where the position is the rate. -/
def Legal (perm : Lanes → Lanes) (x : Xof) : KeccakState → List Call → Prop
  | _, [] => True
  | state, c :: cs => (∀ nblocks, c = .squeezeblocks nblocks → state.pos = x.rate) ∧
      ∀ out state', Returns (call perm x state c) (out, state') → Legal perm x state' cs

/-- A message that is absorbed in pieces, and finalized. -/
def absorbPieces (perm : Lanes → Lanes) (x : Xof) (pieces : List (List UInt8)) :
    Prog KeccakState := do
  let state ← pieces.foldlM (shakeAbsorb perm x) shakeInit
  pure (shakeFinalize x state)

theorem rate_facts (x : Xof) : 0 < x.rate ∧ x.rate % 8 = 0 ∧ x.rate ≤ 200 := by
  cases x <;> decide

/-- Pieces that are absorbed are absorbed as one message. -/
theorem returns_absorbPieces (perm : Lanes → Lanes) (x : Xof) (pieces : List (List UInt8)) :
    ∃ state, Returns (absorbPieces perm x pieces) state ∧ state.pos = x.rate ∧
      Padded perm x.rate 0x1F state.s pieces.flatten := by
  obtain ⟨hr, h8, h200⟩ := rate_facts x
  have hrun : ∀ (pieces : List (List UInt8)) (state : KeccakState) (m : List UInt8),
      Absorbed perm x.rate state.s state.pos m →
        ∃ state', Returns (pieces.foldlM (shakeAbsorb perm x) state) state' ∧
          Absorbed perm x.rate state'.s state'.pos (m ++ pieces.flatten) := by
    intro pieces
    induction pieces with
    | nil =>
      intro state m h
      exact ⟨state, returns_pure.2 rfl, by rwa [List.flatten_nil, List.append_nil]⟩
    | cons piece pieces ih =>
      intro state m h
      obtain ⟨s, pos, hret, habs⟩ := returns_keccakAbsorb h piece
      obtain ⟨state', hret', habs'⟩ := ih ⟨s, pos⟩ _ habs
      refine ⟨state', ?_, by rwa [List.flatten_cons, ← List.append_assoc]⟩
      rw [List.foldlM_cons]
      exact returns_bind.2 ⟨_, returns_bind.2 ⟨_, hret, returns_pure.2 rfl⟩, hret'⟩
  obtain ⟨state, hret, habs⟩ := hrun pieces shakeInit [] (absorbed_init perm hr)
  refine ⟨shakeFinalize x state, returns_bind.2 ⟨state, hret, returns_pure.2 rfl⟩, rfl, ?_⟩
  exact habs.finalize h8 (by decide)

theorem returns_shakeAbsorbOnce (perm : Lanes → Lanes) (x : Xof) (m : List UInt8) :
    ∃ state, Returns (shakeAbsorbOnce perm x m) state ∧ state.pos = x.rate ∧
      Padded perm x.rate 0x1F state.s m := by
  obtain ⟨hr, h8, h200⟩ := rate_facts x
  obtain ⟨s, hret, hpad⟩ := returns_keccakAbsorbOnce perm hr h8 (p := 0x1F) (by decide) m
  exact ⟨⟨s, x.rate⟩, returns_bind.2 ⟨s, hret, returns_pure.2 rfl⟩, rfl, hpad⟩

/-- A call gives the next bytes of the output. -/
theorem returns_call {x : Xof} {m : List UInt8} {state : KeccakState} {n : ℕ}
    (h : Squeezed perm x.rate 0x1F m state.s state.pos n) {c : Call}
    (hc : ∀ nblocks, c = .squeezeblocks nblocks → state.pos = x.rate) :
    ∃ state', Returns (call perm x state c)
      (((output (onStr perm) x.rate 0x1F m).drop n).take (c.size x), state') ∧
        Squeezed perm x.rate 0x1F m state'.s state'.pos (n + c.size x) := by
  obtain ⟨hr, h8, h200⟩ := rate_facts x
  cases c with
  | squeeze outlen =>
    obtain ⟨s, pos, hret, hsq⟩ := returns_keccakSqueeze h200 h outlen
    exact ⟨⟨s, pos⟩, returns_bind.2 ⟨_, hret, returns_pure.2 rfl⟩, hsq⟩
  | squeezeblocks nblocks =>
    have hpos := hc nblocks rfl
    rw [hpos] at h
    obtain ⟨hout, hsq⟩ := keccakSqueezeblocks_spec h8 h200 h nblocks
    refine ⟨(shakeSqueezeblocks perm x nblocks state).2, returns_pure.2 (Prod.ext hout rfl), ?_⟩
    rw [show (shakeSqueezeblocks perm x nblocks state).2.pos = x.rate from hpos]
    exact hsq

/-- A sequence of calls gives the next bytes of the output. -/
theorem returns_calls {x : Xof} {m : List UInt8} {state : KeccakState} {n : ℕ}
    (h : Squeezed perm x.rate 0x1F m state.s state.pos n) {cs : List Call}
    (hcs : Legal perm x state cs) :
    ∃ state', Returns (calls perm x state cs)
      (((output (onStr perm) x.rate 0x1F m).drop n).take (cs.map (Call.size x)).sum, state') := by
  induction cs generalizing state n with
  | nil => exact ⟨state, returns_pure.2 rfl⟩
  | cons c cs ih =>
    obtain ⟨hc, hnext⟩ := hcs
    obtain ⟨state₁, hret, hsq⟩ := returns_call h hc
    obtain ⟨state₂, hret₂⟩ := ih hsq (hnext _ _ hret)
    refine ⟨state₂, returns_bind.2 ⟨_, hret, returns_bind.2 ⟨_, hret₂, returns_pure.2 ?_⟩⟩⟩
    rw [List.map_cons, List.sum_cons, Bytes.take_add, Bytes.drop_drop]

theorem returns_shake (perm : Lanes → Lanes) (x : Xof) (outlen : ℕ) (m : List UInt8) :
    Returns (shake perm x outlen m) ((output (onStr perm) x.rate 0x1F m).take outlen) := by
  obtain ⟨hr, h8, h200⟩ := rate_facts x
  obtain ⟨state, hret, hpos, hpad⟩ := returns_shakeAbsorbOnce perm x m
  obtain ⟨hout, hsq⟩ := keccakSqueezeblocks_spec h8 h200 (hpad.squeezed hr) (outlen / x.rate)
  have hsq : Squeezed perm x.rate 0x1F m (shakeSqueezeblocks perm x (outlen / x.rate) state).2.s
      state.pos (0 + outlen / x.rate * x.rate) := by
    rw [hpos]
    exact hsq
  obtain ⟨s, pos, hret', -⟩ := returns_keccakSqueeze h200 hsq (outlen - outlen / x.rate * x.rate)
  have hle := Nat.div_mul_le_self outlen x.rate
  have hlast : Returns (shakeSqueeze perm x (outlen - outlen / x.rate * x.rate)
      (shakeSqueezeblocks perm x (outlen / x.rate) state).2)
        (((output (onStr perm) x.rate 0x1F m).drop (0 + outlen / x.rate * x.rate)).take
          (outlen - outlen / x.rate * x.rate), ⟨s, pos⟩) :=
    returns_bind.2 ⟨_, hret', returns_pure.2 rfl⟩
  refine returns_bind.2 ⟨state, hret, returns_bind.2 ⟨_, hlast, returns_pure.2 ?_⟩⟩
  show (keccakSqueezeblocks perm x.rate (outlen / x.rate) state.s).1 ++ _ = _
  rw [hout, Nat.zero_add, Bytes.drop_zero, ← Bytes.take_add, Nat.add_sub_cancel' hle]

theorem returns_sha3With (perm : Lanes → Lanes) {r n : ℕ} (hr : 0 < r) (h8 : r % 8 = 0)
    (h200 : r ≤ 200) (hn : n * 8 ≤ r) (m : List UInt8) :
    Returns (sha3With perm r n m) ((output (onStr perm) r 0x06 m).take (n * 8)) := by
  obtain ⟨s, hret, hpad⟩ := returns_keccakAbsorbOnce perm hr h8
    (p := 0x06) (by decide) m
  refine returns_bind.2 ⟨s, hret, returns_pure.2 ?_⟩
  rw [flatMap_store64]
  refine Bytes.take_congr fun j hj => ?_
  have hbyte := hpad.byteAt_eq (s := perm s) (q := 0) h200 (toStr_perm perm s)
    (show j < r by omega)
  rw [hbyte, Nat.zero_mul, Nat.zero_add]

theorem returns_sha3 (perm : Lanes → Lanes) (m : List UInt8) :
    Returns (sha3_256 perm m) ((output (onStr perm) 136 0x06 m).take 32) ∧
      Returns (sha3_512 perm m) ((output (onStr perm) 72 0x06 m).take 64) := by
  constructor
  · exact returns_sha3With perm (r := 136) (n := 4) (by norm_num) (by norm_num) (by norm_num)
      (by norm_num) m
  · exact returns_sha3With perm (r := 72) (n := 8) (by norm_num) (by norm_num) (by norm_num)
      (by norm_num) m

/-- **The interface is a sponge, however it is used.**  For each rate, what is taken out in
legal calls is a prefix of the output for the message, whichever pieces it was absorbed
in, or at once; and the functions that are called once give prefixes of such outputs. -/
theorem shake_sponge (perm : Lanes → Lanes) :
    (∀ (x : Xof) (pieces : List (List UInt8)), ∃ state,
      Returns (absorbPieces perm x pieces) state ∧ ∀ cs, Legal perm x state cs → ∃ state',
        Returns (calls perm x state cs) ((output (onStr perm) x.rate 0x1F pieces.flatten).take
          (cs.map (Call.size x)).sum, state')) ∧
    (∀ (x : Xof) (m : List UInt8), ∃ state,
      Returns (shakeAbsorbOnce perm x m) state ∧ ∀ cs, Legal perm x state cs → ∃ state',
        Returns (calls perm x state cs) ((output (onStr perm) x.rate 0x1F m).take
          (cs.map (Call.size x)).sum, state')) ∧
    (∀ (x : Xof) (outlen : ℕ) (m : List UInt8),
      Returns (shake perm x outlen m) ((output (onStr perm) x.rate 0x1F m).take outlen)) ∧
    ∀ m : List UInt8,
      Returns (sha3_256 perm m) ((output (onStr perm) 136 0x06 m).take 32) ∧
        Returns (sha3_512 perm m) ((output (onStr perm) 72 0x06 m).take 64) := by
  have hcalls : ∀ (x : Xof) (m : List UInt8) (state : KeccakState), state.pos = x.rate →
      Padded perm x.rate 0x1F state.s m → ∀ cs, Legal perm x state cs → ∃ state',
        Returns (calls perm x state cs) ((output (onStr perm) x.rate 0x1F m).take
          (cs.map (Call.size x)).sum, state') := by
    intro x m state hpos hpad cs hcs
    have hsq : Squeezed perm x.rate 0x1F m state.s state.pos 0 := by
      rw [hpos]
      exact hpad.squeezed (rate_facts x).1
    have hret := returns_calls hsq hcs
    rwa [Bytes.drop_zero] at hret
  refine ⟨fun x pieces => ?_, fun x m => ?_, returns_shake perm, returns_sha3 perm⟩
  · obtain ⟨state, hret, hpos, hpad⟩ := returns_absorbPieces perm x pieces
    exact ⟨state, hret, hcalls x _ state hpos hpad⟩
  · obtain ⟨state, hret, hpos, hpad⟩ := returns_shakeAbsorbOnce perm x m
    exact ⟨state, hret, hcalls x _ state hpos hpad⟩

/-- The suffixes of the functions, as bits. -/
theorem toBits_pads {r : ℕ} (hr : 0 < r) (m : ℕ) :
    toBits (pad r 0x1F m) = [true, true, true, true] ++ pad101 (8 * r) (8 * m + 4) ∧
      toBits (pad r 0x06 m) = [false, true] ++ pad101 (8 * r) (8 * m + 2) :=
  ⟨toBits_pad (z := 2) rfl (by norm_num) (by decide) (by decide) hr m,
    toBits_pad (z := 4) rfl (by norm_num) (by decide) (by decide) hr m⟩

end Fips202

/-! ## The functional reading -/

/-- The hash functions that a permutation gives. -/
def Hash.ofPerm (perm : Fips202.Lanes → Fips202.Lanes) : Hash where
  shake128 := Sponge.output (Fips202.onStr perm) 168 0x1F
  shake256 := Sponge.output (Fips202.onStr perm) 136 0x1F
  sha3_256 := Sponge.output (Fips202.onStr perm) 136 0x06
  sha3_512 := Sponge.output (Fips202.onStr perm) 72 0x06

/-- The output of one of the functions. -/
def Hash.xof (H : Hash) : Fips202.Xof → List UInt8 → Bytes
  | .shake128 => H.shake128
  | .shake256 => H.shake256

/-- A sequence of calls on the functional state, with everything they take out. -/
def Hash.calls (H : Hash) (x : Fips202.Xof) :
    KeccakState → List Fips202.Call → List UInt8 × KeccakState
  | st, [] => ([], st)
  | st, c :: cs =>
    let (out, st) := squeeze (H.xof x) (c.size x) st
    let (out', st) := H.calls x st cs
    (out ++ out', st)

theorem Hash.xof_ofPerm (perm : Fips202.Lanes → Fips202.Lanes) (x : Fips202.Xof) :
    (Hash.ofPerm perm).xof x = Sponge.output (Fips202.onStr perm) x.rate 0x1F := by
  cases x <;> rfl

section

variable {perm : Fips202.Lanes → Fips202.Lanes} {x : Fips202.Xof} {state : Fips202.KeccakState}
  {st : KeccakState}

/-- The lanes hold what the functional state has absorbed. -/
def Absorbing (perm : Fips202.Lanes → Fips202.Lanes) (x : Fips202.Xof)
    (state : Fips202.KeccakState) (st : KeccakState) : Prop :=
  Fips202.Absorbed perm x.rate state.s state.pos st.msg

/-- The lanes are where the functional state is in the output. -/
def Squeezing (perm : Fips202.Lanes → Fips202.Lanes) (x : Fips202.Xof)
    (state : Fips202.KeccakState) (st : KeccakState) : Prop :=
  Fips202.Squeezed perm x.rate 0x1F st.msg state.s state.pos st.pos

theorem absorbing_init (perm : Fips202.Lanes → Fips202.Lanes) (x : Fips202.Xof) :
    Absorbing perm x Fips202.shakeInit shakeInit :=
  Fips202.absorbed_init perm (Fips202.rate_facts x).1

theorem Absorbing.of_absorb (h : Absorbing perm x state st) (m : List UInt8) :
    ∃ state', Prog.Returns (Fips202.shakeAbsorb perm x state m) state' ∧
      Absorbing perm x state' (shakeAbsorb st m) := by
  obtain ⟨s, pos, hret, habs⟩ := Fips202.returns_keccakAbsorb h m
  exact ⟨⟨s, pos⟩, Prog.returns_bind.2 ⟨_, hret, Prog.returns_pure.2 rfl⟩, habs⟩

theorem Absorbing.of_finalize (h : Absorbing perm x state st) :
    Squeezing perm x (Fips202.shakeFinalize x state) (shakeFinalize st) := by
  obtain ⟨hr, h8, -⟩ := Fips202.rate_facts x
  exact (Fips202.Absorbed.finalize h8 (by decide) h).squeezed hr

/-- A run of `absorb` calls, by what one of them does. -/
theorem Absorbing.of_absorbs (pieces : List (List UInt8)) (h : Absorbing perm x state st) :
    ∃ state', Prog.Returns (pieces.foldlM (Fips202.shakeAbsorb perm x) state) state' ∧
      Absorbing perm x state' (pieces.foldl shakeAbsorb st) := by
  induction pieces generalizing state st with
  | nil => exact ⟨state, Prog.returns_pure.2 rfl, h⟩
  | cons piece pieces ih =>
    obtain ⟨state₁, hret, habs⟩ := h.of_absorb piece
    obtain ⟨state₂, hret₂, habs₂⟩ := ih habs
    refine ⟨state₂, ?_, habs₂⟩
    rw [List.foldlM_cons]
    exact Prog.returns_bind.2 ⟨state₁, hret, hret₂⟩

/-- A call that takes bytes out takes out the next bytes of the functional state. -/
theorem Squeezing.of_call (h : Squeezing perm x state st) {c : Fips202.Call}
    (hc : ∀ nblocks, c = .squeezeblocks nblocks → state.pos = x.rate) :
    ∃ state', Prog.Returns (Fips202.call perm x state c)
      ((squeeze ((Hash.ofPerm perm).xof x) (c.size x) st).1, state') ∧
        Squeezing perm x state' (squeeze ((Hash.ofPerm perm).xof x) (c.size x) st).2 := by
  rw [Hash.xof_ofPerm]
  exact Fips202.returns_call h hc

/-- A run of calls, by what one of them does. -/
theorem Squeezing.of_calls {cs : List Fips202.Call} (h : Squeezing perm x state st)
    (hcs : Fips202.Legal perm x state cs) :
    ∃ state', Prog.Returns (Fips202.calls perm x state cs)
      (((Hash.ofPerm perm).calls x st cs).1, state') ∧
        Squeezing perm x state' ((Hash.ofPerm perm).calls x st cs).2 := by
  induction cs generalizing state st with
  | nil => exact ⟨state, Prog.returns_pure.2 rfl, h⟩
  | cons c cs ih =>
    obtain ⟨hc, hnext⟩ := hcs
    obtain ⟨state₁, hret, hsq⟩ := h.of_call hc
    obtain ⟨state₂, hret₂, hsq₂⟩ := ih hsq (hnext _ _ hret)
    refine ⟨state₂, ?_, hsq₂⟩
    exact Prog.returns_bind.2 ⟨_, hret, Prog.returns_bind.2 ⟨_, hret₂, Prog.returns_pure.2 rfl⟩⟩

end

/-- **The functional reading is `fips202.c`.**  A message absorbed in pieces, finalized and
squeezed in any legal calls gives what the functional interface gives for the hash functions of
the permutation, and so do the functions that are called once. -/
theorem ofPerm_exact (perm : Fips202.Lanes → Fips202.Lanes) :
    (∀ (x : Fips202.Xof) (pieces : List (List UInt8)), ∃ state,
      Prog.Returns (Fips202.absorbPieces perm x pieces) state ∧
        ∀ cs, Fips202.Legal perm x state cs → ∃ state', Prog.Returns (Fips202.calls perm x state cs)
          (((Hash.ofPerm perm).calls x (shakeFinalize (pieces.foldl shakeAbsorb shakeInit)) cs).1,
            state')) ∧
    (∀ (outlen : ℕ) (m : List UInt8),
      Prog.Returns (Fips202.shake perm .shake128 outlen m) (shake128 (Hash.ofPerm perm) outlen m) ∧
        Prog.Returns (Fips202.shake perm .shake256 outlen m) (shake256 (Hash.ofPerm perm) outlen m)) ∧
    ∀ m : List UInt8,
      Prog.Returns (Fips202.sha3_256 perm m) (((Hash.ofPerm perm).sha3_256 m).take 32) ∧
        Prog.Returns (Fips202.sha3_512 perm m) (((Hash.ofPerm perm).sha3_512 m).take 64) := by
  refine ⟨fun x pieces => ?_, fun outlen m => ⟨Fips202.returns_shake perm .shake128 outlen m,
    Fips202.returns_shake perm .shake256 outlen m⟩, Fips202.returns_sha3 perm⟩
  obtain ⟨state, hret, habs⟩ := (absorbing_init perm x).of_absorbs pieces
  refine ⟨Fips202.shakeFinalize x state, Prog.returns_bind.2 ⟨state, hret, Prog.returns_pure.2 rfl⟩, ?_⟩
  intro cs hcs
  obtain ⟨state', hcalls, -⟩ := habs.of_finalize.of_calls hcs
  exact ⟨state', hcalls⟩
