import Karudeb.Mlkem.CompressSpec
import Karudeb.Mlkem.Sample

/-!
# ML-KEM: the samplers are those of the standard

Both builds read the same candidates off the stream: three bytes are two of them
for the scalar unit, and twenty-four bytes are sixteen lanes.  However the output
of the sponge is cut into blocks, an entry of the matrix is made of the first
candidates that are accepted.  The noise is counted bit by bit, in parallel
within a word.

* `returns_mlkemRejUniform` : either build writes the accepted candidates of the buffer.
* `returns_genEntry`, `returns_genMatrix` : `SampleNTT`, and the matrix from it.
* `rd_polyGetnoiseEta1`, `rd_polyGetnoiseEta2` : `SamplePolyCBD`, in either build.
* `safe_genMatrix` : the range of the entries, on any output of the sponge.
-/

namespace Mlkem

open Word Bits Fips203 Prog Reject Rvv

/-! ## Candidates -/

/-- The cursor after `c` candidates, at byte `pos`. -/
def cursor (r : ℕ → ℤ) (o len : ℕ) (buf : Bytes) (c pos : ℕ) : RejCursor :=
  ⟨(kept (sampleCand buf) len c).length, pos, Mem.put r o (kept (sampleCand buf) len c)⟩

variable {r : ℕ → ℤ} {o len buflen : ℕ} {buf : Bytes}

@[simp] theorem cursor_ctr (c pos : ℕ) :
    (cursor r o len buf c pos).ctr = (kept (sampleCand buf) len c).length :=
  rfl

@[simp] theorem cursor_pos (c pos : ℕ) : (cursor r o len buf c pos).pos = pos := rfl

/-- One candidate more. -/
theorem cursor_next (c pos : ℕ) :
    (if (cursor r o len buf c pos).ctr < len then
      rejStore o (cursor r o len buf c pos) (byteDecode 12 buf c) else cursor r o len buf c pos) =
        cursor r o len buf (c + 1) pos := by
  rw [cursor_ctr]
  by_cases hlt : (kept (sampleCand buf) len c).length < len
  · rw [if_pos hlt]
    unfold rejStore cursor
    rw [kept_next hlt]
    by_cases hval : byteDecode 12 buf c < 3329
    · have hcand : sampleCand buf c = some (byteDecode 12 buf c : ℤ) := if_pos hval
      rw [if_pos hval, hcand, Option.toList_some, List.length_append, ← Mem.put_put]
      rfl
    · have hcand : sampleCand buf c = none := if_neg hval
      rw [if_neg hval, hcand, Option.toList_none, List.append_nil]
  · rw [if_neg hlt]
    unfold cursor
    rw [kept_full hlt (Nat.le_succ c)]

/-! ## The scalar loop -/

/-- The two candidates of three bytes. -/
theorem byteDecode12_pair (b : Bytes) (g : ℕ) :
    byteDecode 12 b (2 * g) =
        (((b (3 * g)).toNat >>> 0 ||| (b (3 * g + 1)).toNat <<< 8) &&& 0xFFF) ∧
      byteDecode 12 b (2 * g + 1) =
        (((b (3 * g + 1)).toNat >>> 4 ||| (b (3 * g + 2)).toNat <<< 4) &&& 0xFFF) := by
  have hbyte : ∀ i < 3, (b (3 * g + i)).toNat < 2 ^ 8 := fun i _ => (b _).toNat_lt
  have hunpack := unpack12_eq (a := fun i => (b (3 * g + i)).toNat) hbyte
  have hgroup : ∀ j < 2, byteDecode 12 b (2 * g + j) =
      value 8 3 (fun i => (b (3 * g + i)).toNat) / 2 ^ (12 * j) % 2 ^ 12 := fun j hj =>
    regroup_group (t := fun i => (b i).toNat) (by norm_num) hj hbyte
  unfold unpack12 at hunpack
  simp only [List.range, List.range.loop, List.map, List.cons.injEq, and_true] at hunpack
  exact ⟨(hgroup 0 (by norm_num)).trans hunpack.1.symm,
    (hgroup 1 (by norm_num)).trans hunpack.2.symm⟩

/-- A turn of the scalar loop. -/
theorem returns_rejScalar_step {g : ℕ} (hctr : (kept (sampleCand buf) len (2 * g)).length < len)
    (hpos : 3 * g + 3 ≤ buflen) (hbuf : buflen < 2 ^ 32) {t : ℕ × (ℕ → ℤ)} :
    (rejScalar o len buf buflen (cursor r o len buf (2 * g) (3 * g))).Returns t ↔
      (rejScalar o len buf buflen (cursor r o len buf (2 * (g + 1)) (3 * (g + 1)))).Returns t := by
  obtain ⟨h0, h1⟩ := byteDecode12_pair buf g
  have hmod : ∀ x ≤ buflen, x % 2 ^ 32 = x := fun x hx => Nat.mod_eq_of_lt (by omega)
  refine returns_loop_next (congrArg pure ?_)
  have hfst := @cursor_next r o len buf (2 * g) (3 * g + 3)
  have hsnd := @cursor_next r o len buf (2 * g + 1) (3 * g + 3)
  rw [cursor_ctr, if_pos hctr, h0] at hfst
  rw [h1] at hsnd
  rw [cursor_pos, hmod _ hpos, if_pos ⟨hctr, hpos⟩]
  dsimp only
  rw [hmod (3 * g + 1) (by omega), hmod (3 * g + 2) (by omega)]
  refine congrArg Sum.inl ?_
  have hmove : ({ cursor r o len buf (2 * g) (3 * g) with pos := 3 * g + 3 } : RejCursor) =
      cursor r o len buf (2 * g) (3 * g + 3) := rfl
  rw [hmove, hfst, hsnd]
  rfl

/-- The scalar loop goes through all candidates of the buffer. -/
theorem returns_rejScalar {n g : ℕ} (hbuf : 3 * n + 3 < 2 ^ 32) (hg : g ≤ n) {t : ℕ × (ℕ → ℤ)} :
    (rejScalar o len buf (3 * n) (cursor r o len buf (2 * g) (3 * g))).Returns t ↔
      ((kept (sampleCand buf) len (2 * n)).length,
        Mem.put r o (kept (sampleCand buf) len (2 * n))) = t := by
  obtain ⟨k, hk⟩ : ∃ k, n - g = k := ⟨_, rfl⟩
  induction k generalizing g with
  | zero =>
    obtain rfl : g = n := by omega
    refine returns_loop_done (congrArg pure (if_neg fun h => ?_))
    have hend : (3 * g + 3) % 2 ^ 32 ≤ 3 * g := h.2
    rw [Nat.mod_eq_of_lt hbuf] at hend
    omega
  | succ k ih =>
    by_cases hctr : (kept (sampleCand buf) len (2 * g)).length < len
    · rw [returns_rejScalar_step hctr (by omega) (by omega), ih (by omega) (by omega)]
    · rw [kept_full hctr (show 2 * g ≤ 2 * n by omega)]
      exact returns_loop_done (congrArg pure (if_neg fun h => hctr h.1))

/-! ## The vector loop -/

/-- Word `w` of a string of bytes. -/
def word16 (b : Bytes) (w : ℕ) : ℕ := (b (2 * w)).toNat + 2 ^ 8 * (b (2 * w + 1)).toNat

theorem and_fff (x : ℕ) : x &&& 0xFFF = x % 2 ^ 12 := and_mask x 12

/-- Two words shifted against each other. -/
theorem or_shift {w k : ℕ} (hw : w < 2 ^ 16) (hk : k ≤ 16) (w' : ℕ) :
    (w >>> (16 - k) ||| (w' <<< k) % 2 ^ 16) &&& 0xFFF =
      (w / 2 ^ (16 - k) + w' % 2 ^ (16 - k) * 2 ^ k) % 2 ^ 12 := by
  have hpow : 2 ^ 16 = 2 ^ (16 - k) * 2 ^ k := by rw [← pow_add, Nat.sub_add_cancel hk]
  have hshl : (w' <<< k) % 2 ^ 16 = (w' % 2 ^ (16 - k)) <<< k := by
    rw [Nat.shiftLeft_eq, Nat.shiftLeft_eq, hpow, Nat.mul_mod_mul_right]
  have hlow : w / 2 ^ (16 - k) < 2 ^ k := Nat.div_lt_of_lt_mul (by rwa [← hpow])
  rw [and_fff, Nat.shiftRight_eq_div_pow, hshl, or_shl k hlow]

/-- The four candidates of three words; a lane shifts two words against each other. -/
theorem byteDecode12_words (b : Bytes) (g y : ℕ) :
    byteDecode 12 b (4 * g) =
        ((word16 b (3 * g) >>> 0 ||| (word16 b (3 * g) <<< 0) % 2 ^ 16) &&& 0xFFF) ∧
      byteDecode 12 b (4 * g + 1) =
        ((word16 b (3 * g) >>> 12 ||| (word16 b (3 * g + 1) <<< 4) % 2 ^ 16) &&& 0xFFF) ∧
      byteDecode 12 b (4 * g + 2) =
        ((word16 b (3 * g + 1) >>> 8 ||| (word16 b (3 * g + 2) <<< 8) % 2 ^ 16) &&& 0xFFF) ∧
      byteDecode 12 b (4 * g + 3) =
        ((word16 b (3 * g + 2) >>> 4 ||| (y <<< 12) % 2 ^ 16) &&& 0xFFF) := by
  have hbyte : ∀ i < 6, (b (6 * g + i)).toNat < 2 ^ 8 := fun i _ => (b _).toNat_lt
  have hgroup : ∀ j < 4, byteDecode 12 b (4 * g + j) =
      value 8 6 (fun i => (b (6 * g + i)).toNat) / 2 ^ (12 * j) % 2 ^ 12 := fun j hj =>
    regroup_group (t := fun i => (b i).toNat) (by norm_num) hj hbyte
  have hword : ∀ j < 3, word16 b (3 * g + j) =
      (b (6 * g + 2 * j)).toNat + 2 ^ 8 * (b (6 * g + (2 * j + 1))).toNat := by
    intro j _
    unfold word16
    rw [show 2 * (3 * g + j) = 6 * g + 2 * j by ring, Nat.add_assoc]
  have hlt : ∀ j < 3, word16 b (3 * g + j) < 2 ^ 16 := by
    intro j hj
    have h1 := hbyte (2 * j) (by omega)
    have h2 := hbyte (2 * j + 1) (by omega)
    rw [hword j hj]
    omega
  have hfst : ∀ w < 2 ^ 16, ((w >>> 0 ||| (w <<< 0) % 2 ^ 16) &&& 0xFFF) = w % 2 ^ 12 := by
    intro w hw
    rw [and_fff, Nat.shiftLeft_zero, Nat.shiftRight_zero, Nat.mod_eq_of_lt hw, Nat.or_self]
  have h4 := or_shift (hlt 0 (by norm_num)) (show 4 ≤ 16 by norm_num) (word16 b (3 * g + 1))
  have h8 := or_shift (hlt 1 (by norm_num)) (show 8 ≤ 16 by norm_num) (word16 b (3 * g + 2))
  have h12 := or_shift (hlt 2 (by norm_num)) (show 12 ≤ 16 by norm_num) y
  have hg0 := hgroup 0 (by norm_num)
  have hg1 := hgroup 1 (by norm_num)
  have hg2 := hgroup 2 (by norm_num)
  have hg3 := hgroup 3 (by norm_num)
  have hw0 := hword 0 (by norm_num)
  have hw1 := hword 1 (by norm_num)
  have hw2 := hword 2 (by norm_num)
  have hd := forall_range hbyte
  simp only [List.range, List.range.loop, List.Forall, value, Nat.reduceAdd, Nat.reduceMul,
    Nat.reduceSub, Nat.add_zero] at hd hg0 hg1 hg2 hg3 hw0 hw1 hw2 h4 h8 h12
  rw [hfst (word16 b (3 * g)) (hlt 0 (by norm_num)), h4, h8, h12, hg0, hg1, hg2, hg3, hw0, hw1, hw2]
  refine ⟨?_, ?_, ?_, ?_⟩ <;> omega

/-- The lanes that the vector loop compares with the modulus. -/
def candidateLanes (b : Bytes) : Vector ℕ 16 :=
  let srl12v := vmuluVX 16 (vidV 16) 12
  let x := vrgatherVV (vle16V b 12) (vsrlVX srl12v 4)
  vandVX (vorVV (vsrlVV 16 x srl12v) (vsllVV 16 (vslidedownuVX x 1) (vsllVX 16 (vidV 16) 2))) 0xFFF

theorem rd_candidateLanes (b : Bytes) {i : ℕ} (hi : i < 16) :
    (candidateLanes b).rd i = byteDecode 12 b i := by
  have hload : ∀ w < 12, (vle16V b 12).rd w = word16 b w := fun w hw => Vector.rd_tab _ hw
  have hsrl : ∀ l < 16, (vmuluVX 16 (vidV 16) 12).rd l = 12 * l := by
    intro l hl
    simp only [vmuluVX, vidV, Vector.rd_tab _ hl]
    omega
  have hsll : ∀ l < 16, (vsllVX 16 (vidV 16) 2).rd l = 4 * l := by
    intro l hl
    simp only [vsllVX, vidV, Vector.rd_tab _ hl, Nat.shiftLeft_eq]
    omega
  have hgather : ∀ l < 16,
      (vrgatherVV (vle16V b 12) (vsrlVX (vmuluVX 16 (vidV 16) 12) 4)).rd l =
        word16 b (12 * l / 16) := by
    intro l hl
    unfold vrgatherVV Butterfly.gather vsrlVX
    rw [Vector.rd_tab _ hl, Vector.rd_tab _ hl, hsrl l hl, Nat.shiftRight_eq_div_pow,
      hload _ (by omega)]
  obtain ⟨y, hy⟩ : ∃ y, y = if i + 1 < 16 then word16 b (12 * (i + 1) / 16) else 0 := ⟨_, rfl⟩
  have hlane : (candidateLanes b).rd i =
      ((word16 b (12 * i / 16) >>> (12 * i % 16) ||| (y <<< (4 * i % 16)) % 2 ^ 16) &&& 0xFFF) := by
    unfold candidateLanes vandVX vorVV vsrlVV vsllVV vslidedownuVX
    dsimp only
    rw [Vector.rd_tab _ hi, Vector.rd_tab _ hi, Vector.rd_tab _ hi, Vector.rd_tab _ hi,
      Vector.rd_tab _ hi, hgather _ hi, hsrl i hi, hsll i hi, hy]
    split
    · rename_i hlt
      rw [hgather _ hlt]
    · rfl
  obtain ⟨g, j, hj, rfl⟩ : ∃ g j, j < 4 ∧ i = 4 * g + j := ⟨i / 4, i % 4, by omega, by omega⟩
  obtain ⟨h0, h1, h2, h3⟩ := byteDecode12_words b g y
  rw [hlane]
  interval_cases j
  · rw [show 12 * (4 * g + 0) / 16 = 3 * g by omega, show 12 * (4 * g + 0) % 16 = 0 by omega,
      show 4 * (4 * g + 0) % 16 = 0 by omega, hy, if_pos (by omega),
      show 12 * (4 * g + 0 + 1) / 16 = 3 * g by omega]
    exact h0.symm
  · rw [show 12 * (4 * g + 1) / 16 = 3 * g by omega, show 12 * (4 * g + 1) % 16 = 12 by omega,
      show 4 * (4 * g + 1) % 16 = 4 by omega, hy, if_pos (by omega),
      show 12 * (4 * g + 1 + 1) / 16 = 3 * g + 1 by omega]
    exact h1.symm
  · rw [show 12 * (4 * g + 2) / 16 = 3 * g + 1 by omega, show 12 * (4 * g + 2) % 16 = 8 by omega,
      show 4 * (4 * g + 2) % 16 = 8 by omega, hy, if_pos (by omega),
      show 12 * (4 * g + 2 + 1) / 16 = 3 * g + 2 by omega]
    exact h2.symm
  · rw [show 12 * (4 * g + 3) / 16 = 3 * g + 2 by omega, show 12 * (4 * g + 3) % 16 = 4 by omega,
      show 4 * (4 * g + 3) % 16 = 12 by omega]
    exact h3.symm

/-- The candidates behind twenty-four bytes are those of the rest. -/
theorem byteDecode12_drop (b : Bytes) (n i : ℕ) :
    byteDecode 12 (b.drop (24 * n)) i = byteDecode 12 b (16 * n + i) := by
  unfold byteDecode unpack regroup
  refine fromBits_congr fun p _ => ?_
  unfold bit Bytes.drop
  dsimp only
  rw [show 12 * (16 * n + i) + p = 12 * i + p + 8 * (24 * n) by ring,
    Nat.add_mul_div_left _ _ (by norm_num), Nat.add_mul_mod_self_left, Nat.add_comm (24 * n)]

/-- A turn of the vector loop goes through sixteen candidates. -/
theorem rejVector_eq (n : ℕ) : rejVector o len buf (cursor r o len buf (16 * n) (24 * n)) =
    cursor r o len buf (16 * (n + 1)) (24 * (n + 1)) := by
  have hbelow : below (candidateLanes (buf.drop (24 * n))) 3329 =
      (List.range 16).filterMap fun i => sampleCand buf (16 * n + i) := by
    refine List.filterMap_congr fun i hi => ?_
    rw [rd_candidateLanes _ (List.mem_range.1 hi), byteDecode12_drop]
    rfl
  have hkept : kept (sampleCand buf) len (16 * (n + 1)) = kept (sampleCand buf) len (16 * n) ++
      (below (candidateLanes (buf.drop (24 * n))) 3329).take
        (len - (kept (sampleCand buf) len (16 * n)).length) := by
    rw [hbelow]
    exact (take_block _ _ _).symm
  have hlanes : rejVector o len buf (cursor r o len buf (16 * n) (24 * n)) =
      (let lt := vmsltuVX (candidateLanes (buf.drop (24 * n))) 3329
       let y := vcompressVM (candidateLanes (buf.drop (24 * n))) lt
       let m := vcpopM lt
       let m := if (kept (sampleCand buf) len (16 * n)).length + m > len then
          len - (kept (sampleCand buf) len (16 * n)).length
        else m
       ⟨(kept (sampleCand buf) len (16 * n)).length + m, 24 * n + 12 * 2,
        vseV 16 (Mem.put r o (kept (sampleCand buf) len (16 * n)))
          (o + (kept (sampleCand buf) len (16 * n)).length) y m⟩) := rfl
  rw [hlanes]
  dsimp only
  rw [vcpopM_vmsltuVX]
  obtain ⟨l, hl⟩ : ∃ l, l = below (candidateLanes (buf.drop (24 * n))) 3329 := ⟨_, rfl⟩
  have hle : (kept (sampleCand buf) len (16 * n)).length ≤ len := List.length_take_le _ _
  obtain ⟨m, hm⟩ : ∃ m, m = if (kept (sampleCand buf) len (16 * n)).length + l.length > len then
    len - (kept (sampleCand buf) len (16 * n)).length else l.length := ⟨_, rfl⟩
  have hmin : m = min (len - (kept (sampleCand buf) len (16 * n)).length) l.length := by
    rw [hm]
    split <;> omega
  have htake : l.take m = l.take (len - (kept (sampleCand buf) len (16 * n)).length) := by
    rw [List.take_eq_take_iff]
    omega
  rw [← hl, ← hm, vseV_vcompressVM (by norm_num) (by norm_num) _ _ (by rw [← hl]; omega), ← hl,
    htake, Mem.put_put]
  unfold cursor
  rw [hkept, ← hl, List.length_append, List.length_take, ← hmin]
  rfl

/-- The vector loop goes through all candidates of the buffer. -/
theorem returns_rejVectorLoop {n g : ℕ} (hg : g ≤ n) {t : ℕ × (ℕ → ℤ)} :
    (rejVectorLoop o len buf (24 * n) (cursor r o len buf (16 * g) (24 * g))).Returns t ↔
      ((kept (sampleCand buf) len (16 * n)).length,
        Mem.put r o (kept (sampleCand buf) len (16 * n))) = t := by
  obtain ⟨k, hk⟩ : ∃ k, n - g = k := ⟨_, rfl⟩
  induction k generalizing g with
  | zero =>
    obtain rfl : g = n := by omega
    exact returns_loop_done (congrArg pure (if_neg fun h => absurd h.2 (by rw [cursor_pos]; omega)))
  | succ k ih =>
    by_cases hctr : (kept (sampleCand buf) len (16 * g)).length < len
    · rw [← ih (show g + 1 ≤ n by omega) (by omega), ← rejVector_eq]
      exact returns_loop_next (congrArg pure (if_pos ⟨hctr, by rw [cursor_pos]; omega⟩))
    · rw [kept_full hctr (show 16 * g ≤ 16 * n by omega)]
      exact returns_loop_done (congrArg pure (if_neg fun h => hctr h.1))

theorem cursor_zero : cursor r o len buf 0 0 = ⟨0, 0, r⟩ := by
  have h : kept (sampleCand buf) len 0 = [] := List.take_nil
  unfold cursor
  rw [h, Mem.put_nil]
  rfl

/-- **Either build of `mlkem_rej_uniform`** writes the accepted candidates of the buffer. -/
theorem returns_mlkemRejUniform (build : Build) {n : ℕ} (hbuf : 24 * n + 3 < 2 ^ 32)
    {t : ℕ × (ℕ → ℤ)} : (mlkemRejUniform build r o len buf (24 * n)).Returns t ↔
      ((kept (sampleCand buf) len (16 * n)).length,
        Mem.put r o (kept (sampleCand buf) len (16 * n))) = t := by
  cases build with
  | scalar =>
    have h := @returns_rejScalar r o len buf (8 * n) 0 (by omega) (Nat.zero_le _) t
    rw [Nat.mul_zero, cursor_zero, ← Nat.mul_assoc, ← Nat.mul_assoc] at h
    exact h
  | rvv =>
    have h := @returns_rejVectorLoop r o len buf n 0 (Nat.zero_le n) t
    rw [Nat.mul_zero, cursor_zero] at h
    exact h

/-! ## From block to block -/

variable {H : Hash} {msg : List UInt8}

/-- A state of the loop over one entry, after `24 * n` bytes of the stream. -/
structure EntryInv (H : Hash) (msg : List UInt8) (r : ℕ → ℤ) (n : ℕ) (s : EntryState) : Prop where
  /-- The sponge stands behind the bytes read. -/
  state : s.state = ⟨msg, 24 * n⟩
  /-- The counter counts what was accepted. -/
  ctr : s.ctr = (kept (sampleCand (H.shake128 msg)) 256 (16 * n)).length
  /-- What was accepted is in memory. -/
  mem : s.r = Mem.put r 0 (kept (sampleCand (H.shake128 msg)) 256 (16 * n))

/-- The candidates of a block that was copied from the stream. -/
theorem sampleCand_block {s b : Bytes} {n m : ℕ} (hb : ∀ i < 24 * m, b i = s (24 * n + i)) :
    ∀ i < 16 * m, sampleCand b i = sampleCand s (16 * n + i) := by
  intro i hi
  have hval : byteDecode 12 b i = byteDecode 12 s (16 * n + i) := by
    rw [← byteDecode12_drop]
    exact regroup_congr (N := 24 * m) (fun j hj => congrArg UInt8.toNat (hb j hj)) (by omega)
  unfold sampleCand
  rw [hval]

/-- The bytes that are squeezed into the buffer. -/
theorem squeezed_block (H : Hash) (m : ℕ) (st : KeccakState) (b : Bytes) {i : ℕ} (hi : i < 168 * m) :
    b.put 0 (shake128Squeezeblocks H m st).1 i = (H.shake128 st.msg) (st.pos + i) := by
  have hlen : i < (shake128Squeezeblocks H m st).1.length := by
    unfold shake128Squeezeblocks squeeze
    rw [Bytes.length_take, shake128Rate]
    omega
  have h := Bytes.put_at b 0 hlen
  rw [Nat.zero_add] at h
  rw [h]
  exact Bytes.getElem_take _

/-- Where a turn of the loop over one entry leads. -/
def entryNext (H : Hash) (s : EntryState) : EntryState :=
  let buf := s.buf.put 0 (shake128Squeezeblocks H 1 s.state).1
  let l := kept (sampleCand buf) (256 - s.ctr) (16 * 7)
  ⟨s.ctr + l.length, Mem.put s.r s.ctr l, buf, (shake128Squeezeblocks H 1 s.state).2⟩

theorem returns_genEntryStep (build : Build) (H : Hash) (s x : EntryState) :
    (genEntryStep build H s).Returns x ↔ entryNext H s = x := by
  have hrej : ∀ b t, (mlkemRejUniform build s.r s.ctr (256 - s.ctr) b xofBlockbytes).Returns t ↔ _ :=
    fun b t => returns_mlkemRejUniform build (n := 7) (by norm_num)
  unfold genEntryStep
  simp only [returns_bind, hrej, returns_pure, exists_eq_left']
  rfl

theorem entryNext_inv {n : ℕ} {s : EntryState} (hs : EntryInv H msg r n s) :
    EntryInv H msg r (n + 7) (entryNext H s) := by
  obtain ⟨hstate, hctr, hmem⟩ := hs
  have hblk := sampleCand_block (s := H.shake128 msg) (n := n) (m := 7)
    (b := s.buf.put 0 (shake128Squeezeblocks H 1 s.state).1) fun i hi => by
      rw [squeezed_block H 1 s.state s.buf (by omega), hstate]
  have hkept := kept_add (congrArg (256 - ·) hctr) hblk
  rw [← Nat.mul_add] at hkept
  constructor
  · show (shake128Squeezeblocks H 1 s.state).2 = _
    rw [hstate, Nat.mul_add]
    rfl
  · rw [hkept, List.length_append, ← hctr]
    rfl
  · rw [hkept, ← Mem.put_put, ← hmem, Nat.zero_add, ← hctr]
    rfl

/-- The first three blocks. -/
theorem entryInit_inv (b : Bytes) : EntryInv H msg r 21
    (let buf := b.put 0 (shake128Squeezeblocks H 3 ⟨msg, 0⟩).1
     let l := kept (sampleCand buf) 256 (16 * 21)
     ⟨l.length, Mem.put r 0 l, buf, (shake128Squeezeblocks H 3 ⟨msg, 0⟩).2⟩) := by
  have hblk := sampleCand_block (s := H.shake128 msg) (n := 0) (m := 21)
    (b := b.put 0 (shake128Squeezeblocks H 3 ⟨msg, 0⟩).1) fun i hi => by
      rw [squeezed_block H 3 ⟨msg, 0⟩ b (by omega)]
  have hkept := @kept_add _ (sampleCand (H.shake128 msg)) 256 _ (16 * 0) _ _ rfl hblk
  have hzero : kept (sampleCand (H.shake128 msg)) 256 (16 * 0) = [] := List.take_nil
  rw [← Nat.mul_add, hzero, List.nil_append, Nat.zero_add, List.length_nil, Nat.sub_zero] at hkept
  exact ⟨rfl, by rw [hkept], by rw [hkept]⟩

/-- **One entry of the matrix is `SampleNTT`**, in either build. -/
theorem returns_genEntry (build : Build) {seed : Bytes} {x y : ℕ} {t : ℕ → ℤ} :
    (genEntry build H seed x y r buf).Returns t ↔
      ∃ L, SampleNtt H (seed.take 32 ++ [UInt8.ofNat x, UInt8.ofNat y]) L ∧ t = Mem.put r 0 L := by
  obtain ⟨msg, hmsg⟩ : ∃ msg, msg = seed.take 32 ++ [UInt8.ofNat x, UInt8.ofNat y] := ⟨_, rfl⟩
  have hstate : xofAbsorb seed x y = ⟨msg, 0⟩ := by
    rw [hmsg]
    rfl
  have hblocks : genMatrixNblocks = 3 := by decide
  have hrej : ∀ b t, (mlkemRejUniform build r 0 256 b (3 * xofBlockbytes)).Returns t ↔ _ :=
    fun b t => returns_mlkemRejUniform build (n := 21) (by norm_num)
  unfold genEntry
  rw [hstate, hblocks, ← hmsg]
  simp only [returns_bind, hrej, exists_eq_left']
  refine @returns_sampler_of _ _ _ (sampleCand (H.shake128 msg)) 256
    (fun s : EntryState => kept (sampleCand (H.shake128 msg)) 256 (16 * (s.state.pos / 24)))
    (fun s => 16 * (s.state.pos / 24)) (fun s => ∃ n, EntryInv H msg r n s) (entryNext H)
    EntryState.r (fun s _ => rfl) ?_ _ ?_ (Mem.put r 0) ?_ _ ⟨21, entryInit_inv buf⟩ _
  · rintro s ⟨n, hs⟩ -
    have hs' := entryNext_inv hs
    refine ⟨⟨n + 7, hs'⟩, ?_⟩
    rw [hs.state, hs'.state]
    dsimp only
    omega
  · rintro s ⟨n, hs⟩ x
    rw [hs.state]
    dsimp only
    rw [Nat.mul_div_cancel_left n (by norm_num), ← hs.ctr]
    by_cases hlt : s.ctr < 256
    · rw [if_pos hlt, if_pos hlt, returns_map]
      simp only [returns_genEntryStep, exists_eq_left']
    · rw [if_neg hlt, if_neg hlt, returns_pure]
  · rintro s ⟨n, hs⟩
    rw [hs.mem, hs.state]
    dsimp only
    rw [Nat.mul_div_cancel_left n (by norm_num)]

/-- The polynomial with the coefficients of a list. -/
def ofSamples (L : List ℤ) : Poly := Vector.tab 256 fun i => L.getD i 0

theorem rd_ofSamples (L : List ℤ) {k : ℕ} (hk : k < 256) : (ofSamples L).rd k = L.getD k 0 :=
  Vector.rd_tab _ hk

theorem ofCells_put {L : List ℤ} (hL : L.length = 256) : ofCells (Mem.put r 0 L) = ofSamples L := by
  refine Vector.tab_congr fun k hk => ?_
  have hput := Mem.put_at r 0 (show k < L.length by omega)
  rw [Nat.zero_add] at hput
  rw [hput, List.getD_eq_getElem _ _ (by omega)]

/-- **`gen_matrix` gives the matrix of the standard**, or its transpose. -/
theorem returns_genMatrix (build : Build) {par : MlkemParam} {seed : Bytes} {transposed : Bool}
    {A : Vector (PolyVec par.k) par.k} :
    (genMatrix build H par seed transposed).Returns A ↔ ∀ i < par.k, ∀ j < par.k, ∃ L,
      SampleNtt H (seed.take 32 ++ if transposed then [UInt8.ofNat i, UInt8.ofNat j]
        else [UInt8.ofNat j, UInt8.ofNat i]) L ∧ (A.rd i).rd j = ofSamples L := by
  unfold genMatrix
  rw [returns_tab]
  refine forall₂_congr fun i _ => ?_
  rw [returns_tab]
  refine forall₂_congr fun j _ => ?_
  have hcells : ∀ B, (∃ t, (∃ L, SampleNtt H B L ∧ t = Mem.put (fun _ => 0) 0 L) ∧
      ofCells t = (A.rd i).rd j) ↔ ∃ L, SampleNtt H B L ∧ (A.rd i).rd j = ofSamples L := by
    intro B
    constructor
    · rintro ⟨_, ⟨L, hL, rfl⟩, h⟩
      exact ⟨L, hL, by rw [← h, ofCells_put hL.length_eq]⟩
    · rintro ⟨L, hL, h⟩
      exact ⟨_, ⟨L, hL, rfl⟩, by rw [h, ofCells_put hL.length_eq]⟩
  rw [returns_map]
  cases transposed with
  | false =>
    simp only [Bool.false_eq_true, if_false, returns_genEntry]
    exact hcells _
  | true =>
    simp only [if_true, returns_genEntry]
    exact hcells _

/-- **Matrix sampling is a function of the stream, in both builds.**  On a buffer of whole
groups of 24 bytes, both builds of `mlkem_rej_uniform` return the same count and write the same
coefficients, at most `len` of them, and leave all other cells as they were.  Every entry
that `gen_matrix` comes to is the list of the first 256 of the consecutive 12-bit values of
its stream that are below the modulus, whatever the memory held, and the two matrices are
transposes of each other. -/
theorem genMatrix_stream :
    (∀ (r : ℕ → ℤ) (o : ℕ) (len buflen : UInt32) (buf : Bytes), 24 ∣ buflen.toNat →
      ∃ l : List ℤ, l.length ≤ len.toNat ∧ ∀ build t,
        (mlkemRejUniform build r o len.toNat buf buflen.toNat).Returns t ↔
          t.1 = l.length ∧ (∀ j (hj : j < l.length), t.2 (o + j) = l[j]) ∧
            ∀ j, j < o ∨ o + l.length ≤ j → t.2 j = r j) ∧
    (∀ (build : Build) (H : Hash) (seed : Bytes) (x y : ℕ) (r : ℕ → ℤ) (buf : Bytes) (t : ℕ → ℤ),
      (genEntry build H seed x y r buf).Returns t ↔ ∃ L,
        First (sampleCand (H.shake128 (seed.take 32 ++ [UInt8.ofNat x, UInt8.ofNat y]))) 256 L ∧
          (∀ j (hj : j < L.length), t j = L[j]) ∧ ∀ j, 256 ≤ j → t j = r j) ∧
    ∀ (build : Build) (H : Hash) (i : Fin 3) (seed : Bytes)
      (A : Vector (PolyVec (mlkemPar i).k) (mlkemPar i).k),
      ((genMatrix build H (mlkemPar i) seed false).Returns A ↔
        ∀ r < (mlkemPar i).k, ∀ c < (mlkemPar i).k, ∃ L,
          First (sampleCand (H.shake128 (seed.take 32 ++ [UInt8.ofNat c, UInt8.ofNat r]))) 256 L ∧
            (A.rd r).rd c = Vector.tab 256 fun n => L.getD n 0) ∧
      ((genMatrix build H (mlkemPar i) seed true).Returns A ↔
        (genMatrix build H (mlkemPar i) seed false).Returns
          (Vector.tab (mlkemPar i).k fun r => Vector.tab (mlkemPar i).k fun c => (A.rd c).rd r)) := by
  have hput : ∀ (r t : ℕ → ℤ) (o : ℕ) (l : List ℤ), Mem.put r o l = t ↔
      (∀ j (hj : j < l.length), t (o + j) = l[j]) ∧ ∀ j, j < o ∨ o + l.length ≤ j → t j = r j := by
    intro r t o l
    constructor
    · rintro rfl
      exact ⟨fun j hj => Mem.put_at r o hj, fun j hj => hj.elim Mem.put_of_lt Mem.put_of_le⟩
    · rintro ⟨hin, hout⟩
      funext j
      by_cases hj : o ≤ j ∧ j < o + l.length
      · obtain ⟨d, rfl⟩ := Nat.exists_eq_add_of_le hj.1
        rw [Mem.put_at r o (show d < l.length by omega), hin d (by omega)]
      · rw [hout j (by omega)]
        exact if_neg hj
  refine ⟨fun r o len buflen buf hdvd => ?_, fun build H seed x y r buf t => ?_,
    fun build H i seed A => ⟨returns_genMatrix build, ?_⟩⟩
  · obtain ⟨n, hn⟩ := hdvd
    have hlt := buflen.toNat_lt
    refine ⟨kept (sampleCand buf) len.toNat (16 * n), List.length_take_le _ _, fun build t => ?_⟩
    rw [hn, returns_mlkemRejUniform build (by omega), Prod.ext_iff, ← hput]
    exact and_congr eq_comm Iff.rfl
  · rw [returns_genEntry]
    refine exists_congr fun L => and_congr_right fun hL => ?_
    rw [eq_comm, hput]
    simp only [Nat.zero_add, Nat.not_lt_zero, false_or]
    exact and_congr_right fun _ => by rw [First.length_eq hL]
  · rw [returns_genMatrix, returns_genMatrix]
    constructor
    · intro h r hr c hc
      obtain ⟨L, hL, hA⟩ := h c hc r hr
      exact ⟨L, hL, by rw [Vector.rd_tab _ hr, Vector.rd_tab _ hc, hA]⟩
    · intro h r hr c hc
      obtain ⟨L, hL, hA⟩ := h c hc r hr
      rw [Vector.rd_tab _ hc, Vector.rd_tab _ hr] at hA
      exact ⟨L, hL, hA⟩

/-! ## Noise -/

/-- The bits of a group of bytes, counted `w` at a time in parallel. -/
theorem count_digits {w n nb : ℕ} (hw : 0 < w) (h : 8 * nb = w * n) {a : ℕ → ℕ}
    (ha : ∀ i < nb, a i < 2 ^ 8) {d : ℕ}
    (hd : d = ∑ s ∈ Finset.range w, (value 8 nb a >>> s &&& value w n fun _ => 1)) :
    d < 2 ^ (w * n) ∧ ∀ i < n, d / 2 ^ (w * i) % 2 ^ w = ∑ s ∈ Finset.range w, bit 8 a (w * i + s) := by
  have hdigit : ∀ i < n, ∑ s ∈ Finset.range w, bit 8 a (w * i + s) < 2 ^ w := by
    intro i _
    calc ∑ s ∈ Finset.range w, bit 8 a (w * i + s)
        ≤ ∑ _s ∈ Finset.range w, 1 :=
          Finset.sum_le_sum fun s _ => Nat.le_of_lt_succ (bit_lt 8 a _)
      _ = w := by simp
      _ < 2 ^ w := Nat.lt_two_pow_self
  have hvalue : d = value w n fun i => ∑ s ∈ Finset.range w, bit 8 a (w * i + s) := by
    rw [hd, sum_shift_and hw]
    refine value_congr fun i hi => Finset.sum_congr rfl fun s hs => bit_value ha ?_
    have hmul : w * (i + 1) ≤ w * n := Nat.mul_le_mul_left w hi
    rw [Nat.mul_succ] at hmul
    rw [Finset.mem_range] at hs
    omega
  rw [hvalue]
  exact ⟨value_lt hdigit, fun i hi => value_digit hdigit hi⟩

/-- The coefficients of a group of `nb` bytes. -/
theorem samplePolyCbd_group {w m nb : ℕ} (h : 8 * nb = w * (2 * m)) (B : Bytes) (g j : ℕ) :
    samplePolyCbd w B (m * g + j) =
      ((∑ s ∈ Finset.range w, bit 8 (fun i => (B (nb * g + i)).toNat) (w * (2 * j) + s) : ℕ) : ℤ) -
        (∑ s ∈ Finset.range w, bit 8 (fun i => (B (nb * g + i)).toNat) (w * (2 * j + 1) + s) : ℕ) := by
  have hbit : ∀ p, bit 8 (fun i => (B i).toNat) (8 * (nb * g) + p) =
      bit 8 (fun i => (B (nb * g + i)).toNat) p := by
    intro p
    unfold bit
    rw [Nat.mul_add_div (by norm_num), Nat.mul_add_mod]
  have hoff : 8 * (nb * g) = 2 * (m * g) * w := by
    rw [← Nat.mul_assoc, h]
    ring
  unfold samplePolyCbd
  dsimp only
  refine congrArg₂ (fun x y : ℕ => (x : ℤ) - y) ?_ ?_
  · refine Finset.sum_congr rfl fun s _ => ?_
    rw [← hbit, hoff]
    congr 1
    ring
  · refine Finset.sum_congr rfl fun s _ => ?_
    rw [← hbit, hoff]
    congr 1
    ring

/-- Noise is small. -/
theorem abs_samplePolyCbd_le (w : ℕ) (B : Bytes) (k : ℕ) : |samplePolyCbd w B k| ≤ w := by
  have hsum : ∀ o, ∑ j ∈ Finset.range w, bit 8 (fun i => (B i).toNat) (o + j) ≤ w := by
    intro o
    calc ∑ j ∈ Finset.range w, bit 8 (fun i => (B i).toNat) (o + j)
        ≤ ∑ _j ∈ Finset.range w, 1 :=
          Finset.sum_le_sum fun j _ => Nat.le_of_lt_succ (bit_lt 8 _ _)
      _ = w := by simp
  have h1 := hsum (2 * k * w)
  have h2 := hsum (2 * k * w + w)
  unfold samplePolyCbd
  dsimp only
  exact abs_le.2 ⟨by omega, by omega⟩

/-- **One group of the noise samplers.**  The differences of neighbouring digits of the
count are its coefficients. -/
theorem group_coeffs {w m nb : ℕ} (hw : 0 < w) (h : 8 * nb = w * (2 * m)) (B : Bytes) (g : ℕ) {d : ℕ}
    (hd : d = ∑ s ∈ Finset.range w,
      (value 8 nb (fun i => (B (nb * g + i)).toNat) >>> s &&& value w (2 * m) fun _ => 1)) :
    d < 2 ^ (w * (2 * m)) ∧ ∀ j < m, samplePolyCbd w B (m * g + j) =
      ((d / 2 ^ (w * (2 * j)) % 2 ^ w : ℕ) : ℤ) - (d / 2 ^ (w * (2 * j + 1)) % 2 ^ w : ℕ) := by
  have hbyte : ∀ i < nb, (B (nb * g + i)).toNat < 2 ^ 8 := fun i _ => (B _).toNat_lt
  obtain ⟨hlt, hdigit⟩ := count_digits hw h hbyte hd
  refine ⟨hlt, fun j hj => ?_⟩
  rw [samplePolyCbd_group h, ← hdigit _ (by omega), ← hdigit _ (by omega)]

theorem and_three (x : ℕ) : x &&& 0x3 = x % 2 ^ 2 := and_mask x 2

theorem and_seven (x : ℕ) : x &&& 0x7 = x % 2 ^ 3 := and_mask x 3

theorem load32Littleendian_eq (x : Bytes) :
    load32Littleendian x = value 8 4 fun i => (x i).toNat := by
  have hbyte : ∀ i < 4, (x i).toNat < 2 ^ 8 := fun i _ => (x i).toNat_lt
  have hd := forall_range hbyte
  unfold load32Littleendian
  simp only [List.range, List.range.loop, List.Forall, value, Nat.zero_add, Nat.reduceAdd] at hd ⊢
  rw [or_shl 8 (by omega), or_shl 16 (by omega), or_shl 24 (by omega)]
  omega

theorem load24Littleendian_eq (x : Bytes) :
    load24Littleendian x = value 8 3 fun i => (x i).toNat := by
  have hbyte : ∀ i < 3, (x i).toNat < 2 ^ 8 := fun i _ => (x i).toNat_lt
  have hd := forall_range hbyte
  unfold load24Littleendian
  simp only [List.range, List.range.loop, List.Forall, value, Nat.zero_add, Nat.reduceAdd] at hd ⊢
  rw [or_shl 8 (by omega), or_shl 16 (by omega)]
  omega

/-- The count of `cbd2`, on the bytes of a word. -/
theorem count2 {n : ℕ} (M : ℕ) (hM : value 2 n (fun _ => 1) = M) (t : ℕ) :
    (t &&& M) + (t >>> 1 &&& M) = ∑ s ∈ Finset.range 2, (t >>> s &&& value 2 n fun _ => 1) := by
  rw [Finset.sum_range_succ, Finset.sum_range_one, hM, Nat.shiftRight_zero]

/-- The count of `cbd3`, on the bytes of a word. -/
theorem count3 (t : ℕ) :
    (t &&& 0x00249249) + (t >>> 1 &&& 0x00249249) + (t >>> 2 &&& 0x00249249) =
      ∑ s ∈ Finset.range 3, (t >>> s &&& value 3 8 fun _ => 1) := by
  have hM : value 3 8 (fun _ => 1) = 0x00249249 := by decide
  rw [Finset.sum_range_succ, Finset.sum_range_succ, Finset.sum_range_one, hM, Nat.shiftRight_zero]

/-- **`cbd2` is `SamplePolyCBD_2`.** -/
theorem rd_cbd2 (buf : Bytes) {k : ℕ} (hk : k < 256) : (cbd2 buf).rd k = samplePolyCbd 2 buf k := by
  obtain ⟨i, j, hi, hj, rfl⟩ : ∃ i j, i < 32 ∧ j < 8 ∧ k = 8 * i + j :=
    ⟨k / 8, k % 8, by omega, by omega, by omega⟩
  have hload : load32Littleendian (buf.drop (4 * i)) = value 8 4 fun q => (buf (4 * i + q)).toNat :=
    load32Littleendian_eq _
  have hcount := count2 (n := 16) 0x55555555 (by decide) (load32Littleendian (buf.drop (4 * i)))
  rw [hload] at hcount
  obtain ⟨hlt, hcoeff⟩ := group_coeffs (m := 8) (by norm_num) (by norm_num) buf i hcount
  rw [hcoeff j hj]
  unfold cbd2 Butterfly.ofRegs
  rw [Vector.rd_tab _ hk, show (8 * i + j) / 8 = i by omega, show (8 * i + j) % 8 = j by omega,
    Vector.rd_tab _ hi, Vector.rd_tab _ hj, hload, Nat.mod_eq_of_lt (by omega), and_three, and_three,
    Nat.shiftRight_eq_div_pow _ (4 * j + 0), Nat.shiftRight_eq_div_pow _ (4 * j + 2),
    show 4 * j + 0 = 2 * (2 * j) by ring, show 4 * j + 2 = 2 * (2 * j + 1) by ring]

/-- **`cbd3` is `SamplePolyCBD_3`.** -/
theorem rd_cbd3 (buf : Bytes) {k : ℕ} (hk : k < 256) : (cbd3 buf).rd k = samplePolyCbd 3 buf k := by
  obtain ⟨i, j, hi, hj, rfl⟩ : ∃ i j, i < 64 ∧ j < 4 ∧ k = 4 * i + j :=
    ⟨k / 4, k % 4, by omega, by omega, by omega⟩
  have hload : load24Littleendian (buf.drop (3 * i)) = value 8 3 fun q => (buf (3 * i + q)).toNat :=
    load24Littleendian_eq _
  have hcount := count3 (value 8 3 fun q => (buf (3 * i + q)).toNat)
  obtain ⟨hlt, hcoeff⟩ := group_coeffs (m := 4) (by norm_num) (by norm_num) buf i hcount
  rw [hcoeff j hj]
  unfold cbd3 Butterfly.ofRegs
  rw [Vector.rd_tab _ hk, show (4 * i + j) / 4 = i by omega, show (4 * i + j) % 4 = j by omega,
    Vector.rd_tab _ hi, Vector.rd_tab _ hj, hload,
    Nat.mod_eq_of_lt (a := _ + (_ >>> 1 &&& _)) (by omega), Nat.mod_eq_of_lt (by omega), and_seven,
    and_seven, Nat.shiftRight_eq_div_pow _ (6 * j + 0), Nat.shiftRight_eq_div_pow _ (6 * j + 3),
    show 6 * j + 0 = 3 * (2 * j) by ring, show 6 * j + 3 = 3 * (2 * j + 1) by ring]

/-- A difference of small counts, computed without a sign and read with one. -/
theorem wrap_vsub {w a b : ℕ} (hw : 8 ≤ w) (ha : a < 8) (hb : b < 8) :
    wrap w (((a + 2 ^ w - b) % 2 ^ w : ℕ) : ℤ) = (a : ℤ) - b := by
  have hpow : 2 ^ 8 ≤ 2 ^ w := Nat.pow_le_pow_right (by norm_num) hw
  have hpow' : (2 : ℤ) ^ 7 ≤ 2 ^ (w - 1) := pow_le_pow_right₀ (by norm_num) (by omega)
  have hcast : ((a + 2 ^ w - b : ℕ) : ℤ) = (a : ℤ) - b + 2 ^ w := by
    rw [Nat.cast_sub (by omega)]
    push_cast
    ring
  rw [wrap_congr (y := (a : ℤ) - b), wrap_of_fits (by omega) ⟨by omega, by omega⟩]
  have hmod : (((a + 2 ^ w - b) % 2 ^ w : ℕ) : ℤ) = ((a : ℤ) - b + 2 ^ w) % 2 ^ w := by
    rw [Int.natCast_mod, hcast]
    push_cast
    rfl
  rw [hmod]
  exact (Int.mod_modEq _ _).trans (by simp [Int.ModEq])

/-- A lane of `cbd2_rvv` holds the two coefficients of a byte. -/
theorem rd_cbd2Reg (b : Vector ℕ 16) {l f d : ℕ} (hl : l < 16) (hf : f < 2)
    (hd : (b.rd l &&& 0x55) + (b.rd l >>> 1 &&& 0x55) = d) (hlt : d < 2 ^ 8) :
    (cbd2Reg b).rd (2 * l + f) =
      ((d / 2 ^ (2 * (2 * f)) % 2 ^ 2 : ℕ) : ℤ) - (d / 2 ^ (2 * (2 * f + 1)) % 2 ^ 2 : ℕ) := by
  have hcell : 2 * l + f < 2 * 16 := by omega
  unfold cbd2Reg interleaveV vreinterpretV vsubuVV vandVX vsrlVX vadduVV
  dsimp only
  rw [Vector.rd_tab _ hcell, show (2 * l + f) % 2 = f by omega, show (2 * l + f) / 2 = l by omega]
  interval_cases f
  · rw [if_pos rfl]
    simp only [Vector.rd_tab _ hl, hd, Nat.mod_eq_of_lt hlt]
    simp only [Nat.shiftRight_eq_div_pow, and_three]
    rw [wrap_vsub le_rfl (by omega) (by omega)]
    simp
  · rw [if_neg (by norm_num)]
    simp only [Vector.rd_tab _ hl, hd, Nat.mod_eq_of_lt hlt]
    simp only [Nat.shiftRight_eq_div_pow, and_three]
    rw [wrap_vsub le_rfl (by omega) (by omega),
      Nat.mod_eq_of_lt (a := d / 2 ^ (2 * (2 * 1 + 1))) (by omega)]

/-- **`cbd2_rvv` is `SamplePolyCBD_2`** as well. -/
theorem rd_cbd2Rvv (buf : Bytes) {k : ℕ} (hk : k < 256) :
    (cbd2Rvv buf).rd k = samplePolyCbd 2 buf k := by
  obtain ⟨i, l, f, hi, hl, hf, rfl⟩ : ∃ i l f, i < 8 ∧ l < 16 ∧ f < 2 ∧ k = 2 * (16 * i + l) + f :=
    ⟨k / 32, k % 32 / 2, k % 2, by omega, by omega, by omega, by omega⟩
  have hload : (vle8V (buf.drop (16 * i)) 16).rd l =
      value 8 1 fun q => (buf (1 * (16 * i + l) + q)).toNat := by
    unfold vle8V Bytes.drop value
    rw [Vector.rd_tab _ hl, Nat.one_mul]
    rfl
  have hcount := count2 (n := 4) 0x55 (by decide) (value 8 1 fun q => (buf (1 * (16 * i + l) + q)).toNat)
  obtain ⟨hlt, hcoeff⟩ := group_coeffs (m := 2) (by norm_num) (by norm_num) buf (16 * i + l) hcount
  rw [hcoeff f hf]
  unfold cbd2Rvv Butterfly.ofRegs
  rw [Vector.rd_tab _ hk, show (2 * (16 * i + l) + f) / (2 * 16) = i by omega,
    show (2 * (16 * i + l) + f) % (2 * 16) = 2 * l + f by omega, Vector.rd_tab _ hi]
  exact rd_cbd2Reg _ hl hf (by rw [hload]) hlt

/-- A lane of `cbd3_rvv` holds the four coefficients of three bytes. -/
theorem rd_cbd3Reg (raw : ℕ → Vector ℕ 8) {l f t d : ℕ} (hl : l < 8) (hf : f < 4)
    (ht : (raw 0).rd l ||| ((raw 1).rd l <<< 8) % 2 ^ 32 ||| ((raw 2).rd l <<< 16) % 2 ^ 32 = t)
    (hd : (t &&& 0x00249249) + (t >>> 1 &&& 0x00249249) + (t >>> 2 &&& 0x00249249) = d)
    (hlt : d < 2 ^ 24) : (cbd3Reg raw).rd (4 * l + f) =
      ((d / 2 ^ (3 * (2 * f)) % 2 ^ 3 : ℕ) : ℤ) - (d / 2 ^ (3 * (2 * f + 1)) % 2 ^ 3 : ℕ) := by
  have hcell : 4 * l + f < 4 * 8 := by omega
  have hfst : ((t &&& 0x00249249) + (t >>> 1 &&& 0x00249249)) % 2 ^ 32 =
      (t &&& 0x00249249) + (t >>> 1 &&& 0x00249249) := Nat.mod_eq_of_lt (by omega)
  have hsnd : d % 2 ^ 32 = d := Nat.mod_eq_of_lt (by omega)
  unfold cbd3Reg interleaveV vreinterpretV vsubuVV vandVX vsrlVX vadduVV vorVV vsllVX
  dsimp only
  rw [Vector.rd_tab _ hcell, show (4 * l + f) % 4 = f by omega, show (4 * l + f) / 4 = l by omega,
    Vector.rd_tab _ hl]
  interval_cases f
  · rw [if_pos rfl]
    simp only [Vector.rd_tab _ hl, ht, hfst, hd, hsnd]
    simp only [Nat.shiftRight_eq_div_pow, and_seven]
    rw [wrap_vsub (by norm_num) (by omega) (by omega)]
    simp
  · rw [if_neg (by norm_num), if_pos rfl]
    simp only [Vector.rd_tab _ hl, ht, hfst, hd, hsnd]
    simp only [Nat.shiftRight_eq_div_pow, and_seven]
    rw [wrap_vsub (by norm_num) (by omega) (by omega)]
  · rw [if_neg (by norm_num), if_neg (by norm_num), if_pos rfl]
    simp only [Vector.rd_tab _ hl, ht, hfst, hd, hsnd]
    simp only [Nat.shiftRight_eq_div_pow, and_seven]
    rw [wrap_vsub (by norm_num) (by omega) (by omega)]
  · rw [if_neg (by norm_num), if_neg (by norm_num), if_neg (by norm_num)]
    simp only [Vector.rd_tab _ hl, ht, hfst, hd, hsnd]
    simp only [Nat.shiftRight_eq_div_pow, and_seven]
    rw [wrap_vsub (by norm_num) (by omega) (by omega),
      Nat.mod_eq_of_lt (a := d / 2 ^ (3 * (2 * 3 + 1))) (by omega)]

/-- **`cbd3_rvv` is `SamplePolyCBD_3`** as well. -/
theorem rd_cbd3Rvv (buf : Bytes) {k : ℕ} (hk : k < 256) :
    (cbd3Rvv buf).rd k = samplePolyCbd 3 buf k := by
  have htmp : (Butterfly.ofRegs 256 (Vector.tab 8 fun i => cbd3Reg (vlseg3e8V (buf.drop (24 * i)) 8)) :
      Vector ℤ 256).rd k = samplePolyCbd 3 buf k := by
    obtain ⟨i, l, f, hi, hl, hf, rfl⟩ : ∃ i l f, i < 8 ∧ l < 8 ∧ f < 4 ∧ k = 4 * (8 * i + l) + f :=
      ⟨k / 32, k % 32 / 4, k % 4, by omega, by omega, by omega, by omega⟩
    have hload : (vlseg3e8V (buf.drop (24 * i)) 8 0).rd l |||
        ((vlseg3e8V (buf.drop (24 * i)) 8 1).rd l <<< 8) % 2 ^ 32 |||
          ((vlseg3e8V (buf.drop (24 * i)) 8 2).rd l <<< 16) % 2 ^ 32 =
            value 8 3 fun q => (buf (3 * (8 * i + l) + q)).toNat := by
      have hbyte : ∀ q, ((buf.drop (24 * i)) q).toNat < 256 := fun q => UInt8.toNat_lt _
      have hword := load24Littleendian_eq (buf.drop (3 * (8 * i + l)))
      have hmove : ∀ q, buf (3 * (8 * i + l) + q) = buf (24 * i + (3 * l + q)) := by
        intro q
        congr 1
        ring
      have h1 := hbyte (3 * l + 1)
      have h2 := hbyte (3 * l + 2)
      unfold vlseg3e8V
      rw [Vector.rd_tab _ hl, Vector.rd_tab _ hl, Vector.rd_tab _ hl,
        Nat.mod_eq_of_lt (by rw [Nat.shiftLeft_eq]; omega),
        Nat.mod_eq_of_lt (by rw [Nat.shiftLeft_eq]; omega)]
      refine Eq.trans ?_ hword
      unfold load24Littleendian Bytes.drop
      rw [hmove, hmove, hmove]
    have hcount := count3 (value 8 3 fun q => (buf (3 * (8 * i + l) + q)).toNat)
    obtain ⟨hlt, hcoeff⟩ := group_coeffs (m := 4) (by norm_num) (by norm_num) buf (8 * i + l) hcount
    rw [hcoeff f hf]
    unfold Butterfly.ofRegs
    rw [Vector.rd_tab _ hk, show (4 * (8 * i + l) + f) / (4 * 8) = i by omega,
      show (4 * (8 * i + l) + f) % (4 * 8) = 4 * l + f by omega, Vector.rd_tab _ hi]
    exact rd_cbd3Reg _ hl hf hload rfl hlt
  obtain ⟨j, l, hj, hl, rfl⟩ : ∃ j l, j < 16 ∧ l < 16 ∧ k = 16 * j + l :=
    ⟨k / 16, k % 16, by omega, by omega, by omega⟩
  have hsmall := abs_samplePolyCbd_le 3 buf (16 * j + l)
  obtain ⟨h1, h2⟩ := abs_le.1 hsmall
  unfold cbd3Rvv vncvtXXW
  dsimp only
  rw [Butterfly.ofRegs, Vector.rd_tab _ hk, show (16 * j + l) / 16 = j by omega,
    show (16 * j + l) % 16 = l by omega, Vector.rd_tab _ hj, Vector.rd_tab _ hl,
    Vector.rd_slice _ _ hl, htmp]
  exact wrap_of_fits (by norm_num) (fits_16.2 ⟨by omega, by omega⟩)

/-- **Centred binomial sampling.**  Coefficient `k` is the sum of `eta` bits of the buffer,
from bit `2 * eta * k` on, minus the sum of the next `eta` bits, and the scalar and the vector
samplers write the same polynomial. -/
theorem cbd_bits (buf : Bytes) :
    cbd2 buf = Vector.tab 256 (samplePolyCbd 2 buf) ∧ cbd2Rvv buf = cbd2 buf ∧
      cbd3 buf = Vector.tab 256 (samplePolyCbd 3 buf) ∧ cbd3Rvv buf = cbd3 buf := by
  refine ⟨?_, ?_, ?_, ?_⟩
  · exact Vector.ext_rd fun k hk => by rw [rd_cbd2 buf hk, Vector.rd_tab _ hk]
  · exact Vector.ext_rd fun k hk => by rw [rd_cbd2Rvv buf hk, rd_cbd2 buf hk]
  · exact Vector.ext_rd fun k hk => by rw [rd_cbd3 buf hk, Vector.rd_tab _ hk]
  · exact Vector.ext_rd fun k hk => by rw [rd_cbd3Rvv buf hk, rd_cbd3 buf hk]

/-- **`poly_getnoise_eta1`**, in either build. -/
theorem rd_polyGetnoiseEta1 (build : Build) (H : Hash) (i : Fin 3) (seed : Bytes) (nonce : ℕ) {k : ℕ}
    (hk : k < 256) : (polyGetnoiseEta1 build H (mlkemPar i) seed nonce).rd k =
      samplePolyCbd (mlkemPar i).eta1
        (Bytes.ofList (Fips203.prf H (mlkemPar i).eta1 (seed.take 32) nonce)) k := by
  have hprf : prf H ((mlkemPar i).eta1 * (256 / 4)) seed nonce =
      Fips203.prf H (mlkemPar i).eta1 (seed.take 32) nonce := by
    unfold prf Fips203.prf shake256
    rw [Nat.mul_comm]
  have heta : (mlkemPar i).eta1 = 2 ∨ (mlkemPar i).eta1 = 3 := by fin_cases i <;> decide
  unfold polyGetnoiseEta1
  rw [hprf]
  rcases heta with h | h
  · cases build with
    | scalar => exact (congrArg (Vector.rd · k) (if_pos h)).trans (by rw [rd_cbd2 _ hk, h])
    | rvv => exact (congrArg (Vector.rd · k) (if_pos h)).trans (by rw [rd_cbd2Rvv _ hk, h])
  · have hne : ¬(mlkemPar i).eta1 = 2 := by omega
    cases build with
    | scalar => exact (congrArg (Vector.rd · k) (if_neg hne)).trans (by rw [rd_cbd3 _ hk, h])
    | rvv => exact (congrArg (Vector.rd · k) (if_neg hne)).trans (by rw [rd_cbd3Rvv _ hk, h])

/-- **`poly_getnoise_eta2`**, in either build. -/
theorem rd_polyGetnoiseEta2 (build : Build) (H : Hash) (seed : Bytes) (nonce : ℕ) {k : ℕ}
    (hk : k < 256) : (polyGetnoiseEta2 build H seed nonce).rd k =
      samplePolyCbd 2 (Bytes.ofList (Fips203.prf H 2 (seed.take 32) nonce)) k := by
  have hprf : prf H (parEta2 * 256 / 4) seed nonce = Fips203.prf H 2 (seed.take 32) nonce := rfl
  unfold polyGetnoiseEta2
  rw [hprf]
  cases build with
  | scalar => exact rd_cbd2 _ hk
  | rvv => exact rd_cbd2Rvv _ hk

/-! ## Safety -/

/-- A sampler checks nothing, so nothing can fail. -/
theorem safe_mlkemRejUniform (build : Build) (r : ℕ → ℤ) (o len : ℕ) (buf : Bytes) (buflen : ℕ) :
    (mlkemRejUniform build r o len buf buflen).Safe fun _ => True := by
  cases build with
  | scalar =>
    refine Safe.loop (fun _ => True) (fun s _ => Safe.pure ?_) trivial
    split <;> trivial
  | rvv =>
    refine Safe.loop (fun _ => True) (fun s _ => Safe.pure ?_) trivial
    split <;> trivial

theorem safe_genEntry (build : Build) (H : Hash) (seed : Bytes) (x y : ℕ) (r : ℕ → ℤ) (buf : Bytes) :
    (genEntry build H seed x y r buf).Safe fun _ => True := by
  unfold genEntry
  refine (safe_mlkemRejUniform build _ _ _ _ _).bind fun t _ => ?_
  refine Safe.loop (fun _ => True) (fun s _ => ?_) trivial
  refine Safe.ite (fun _ => Safe.map ?_) fun _ => Safe.pure trivial
  unfold genEntryStep
  exact (safe_mlkemRejUniform build _ _ _ _ _).bind fun t _ => Safe.pure trivial

theorem sampleCand_bounds {s : Bytes} {p : ℕ} {a : ℤ} (h : sampleCand s p = some a) :
    0 ≤ a ∧ a < 3329 := by
  unfold sampleCand at h
  generalize byteDecode 12 s p = d at h
  by_cases hd : d < 3329
  · rw [if_pos hd, Option.some.injEq] at h
    omega
  · rw [if_neg hd] at h
    cases h

/-- **The entries of the matrix** are standard representatives. -/
theorem safe_genMatrix (build : Build) (H : Hash) (par : MlkemParam) (seed : Bytes)
    (transposed : Bool) : (genMatrix build H par seed transposed).Safe fun A =>
      ∀ i < par.k, ∀ j < par.k, ∀ k < 256, 0 ≤ ((A.rd i).rd j).rd k ∧ ((A.rd i).rd j).rd k < 3329 := by
  refine Safe.of_forall ?_ fun A hA i hi j hj k hk => ?_
  · unfold genMatrix
    refine (Safe.tab (P := fun _ _ => True) fun i _ => ?_).mono fun _ _ => trivial
    refine (Safe.tab (P := fun _ _ => True) fun j _ => ?_).mono fun _ _ => trivial
    refine Safe.map ?_
    cases transposed with
    | false => exact safe_genEntry build H _ _ _ _ _
    | true => exact safe_genEntry build H _ _ _ _ _
  · obtain ⟨L, hL, h⟩ := returns_genMatrix build |>.1 hA i hi j hj
    have hlen : k < L.length := by rwa [hL.length_eq]
    obtain ⟨p, hp⟩ := hL.mem (List.getElem_mem hlen)
    rw [h, rd_ofSamples L hk, List.getD_eq_getElem _ _ hlen]
    exact sampleCand_bounds hp

end Mlkem
