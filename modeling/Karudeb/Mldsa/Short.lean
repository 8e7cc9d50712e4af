import Karudeb.Mldsa.Uniform

/-!
# ML-DSA: short vectors and challenges in memory

`poly_uniform_eta` and `poly_challenge` as the loops they are, over the memory
they write to: cursors, refilled buffers, and unsigned words below zero that are
converted to signed ones.

* `returns_rejEtaLoop` : a scan of a buffer writes what it accepts, low half
  bytes before high ones.
* `returns_polyUniformEtaMem` : from block to block, the first 256 accepted half
  bytes of the stream.
* `eta_stream` : short vectors are a function of the stream.
* `weight_ballAfter` : a turn of `SampleInBall` adds one sign.
* `challenge_ball` : challenges are `SampleInBall`, of weight `tau`.
-/

namespace Mldsa

open Bits Fips204 Prog Reject

/-! ## Short coefficients -/

/-- `x - y` of unsigned 32-bit words. -/
def sub32 (x y : ℕ) : ℕ := u32 (x + 2 ^ 32 - y)

/-- What `rej_eta_2` writes for a half byte. -/
def eta2Word (t : ℕ) : ℤ :=
  let t := sub32 t (u32 ((u32 (205 * t) >>> 10) * 5))
  Word.wrap 32 (sub32 2 t)

/-- What `rej_eta_4` writes for a half byte. -/
def eta4Word (t : ℕ) : ℤ := Word.wrap 32 (sub32 4 t)

/-- The loop of `rej_eta_2` and `rej_eta_4`, which differ in the bound on a half byte and
in what is written for it.  The pointer `a` of the source is cell `o`. -/
def rejEtaLoop (bound : ℕ) (word : ℕ → ℤ) (o len : ℕ) (buf : Bytes) (buflen : ℕ) :
    RejCursor → Prog (ℕ × (ℕ → ℤ)) :=
  Prog.loop fun s => pure (
    if s.ctr < len ∧ s.pos < buflen then
      let t0 := (buf s.pos).toNat &&& 0x0F
      let t1 := (buf s.pos).toNat >>> 4
      let pos := u32 (s.pos + 1)
      let s : RejCursor :=
        if t0 < bound then ⟨s.ctr + 1, pos, Mem.put s.a (o + s.ctr) [word t0]⟩
        else ⟨s.ctr, pos, s.a⟩
      Sum.inl (
        if t1 < bound ∧ s.ctr < len then ⟨s.ctr + 1, s.pos, Mem.put s.a (o + s.ctr) [word t1]⟩
        else s)
    else Sum.inr (s.ctr, s.a))

/-- `rej_eta_2`, on memory. -/
def rejEta2Mem (a : ℕ → ℤ) (o len : ℕ) (buf : Bytes) (buflen : ℕ) : Prog (ℕ × (ℕ → ℤ)) :=
  rejEtaLoop 15 eta2Word o len buf buflen ⟨0, 0, a⟩

/-- `rej_eta_4`, on memory. -/
def rejEta4Mem (a : ℕ → ℤ) (o len : ℕ) (buf : Bytes) (buflen : ℕ) : Prog (ℕ × (ℕ → ℤ)) :=
  rejEtaLoop 9 eta4Word o len buf buflen ⟨0, 0, a⟩

/-- What `poly_uniform_eta_2` and `poly_uniform_eta_4` keep from turn to turn. -/
structure EtaMem where
  /-- How many coefficients were written. -/
  ctr : ℕ
  /-- The buffer. -/
  buf : Bytes
  /-- The memory that is written to. -/
  a : ℕ → ℤ
  /-- The sponge. -/
  state : KeccakState

/-- `poly_uniform_eta_2` and `poly_uniform_eta_4` on memory, which differ in `rej` and in
how many blocks they squeeze at first. -/
def polyUniformEtaMemWith (H : Hash)
    (rej : (ℕ → ℤ) → ℕ → ℕ → Bytes → ℕ → Prog (ℕ × (ℕ → ℤ))) (nblocks : ℕ) (seed : Bytes)
    (nonce : ℕ) (a : ℕ → ℤ) (buf : Bytes) : Prog (ℕ → ℤ) := do
  let (blk, state) := shake256Squeezeblocks H nblocks (stream256Init seed nonce)
  let buf := buf.put 0 blk
  let r ← rej a 0 256 buf (nblocks * shake256Rate)
  Prog.loop (fun s : EtaMem =>
    if s.ctr < 256 then do
      let (blk, state) := shake256Squeezeblocks H 1 s.state
      let buf := s.buf.put 0 blk
      let r ← rej s.a s.ctr (256 - s.ctr) buf shake256Rate
      pure (Sum.inl ⟨s.ctr + r.1, buf, r.2, state⟩)
    else pure (Sum.inr s.a))
    ⟨r.1, buf, r.2, state⟩

/-- `poly_uniform_eta_2`, on memory. -/
def polyUniformEta2Mem (H : Hash) : Bytes → ℕ → (ℕ → ℤ) → Bytes → Prog (ℕ → ℤ) :=
  polyUniformEtaMemWith H rejEta2Mem ((136 + shake256Rate - 1) / shake256Rate)

/-- `poly_uniform_eta_4`, on memory. -/
def polyUniformEta4Mem (H : Hash) : Bytes → ℕ → (ℕ → ℤ) → Bytes → Prog (ℕ → ℤ) :=
  polyUniformEtaMemWith H rejEta4Mem ((227 + shake256Rate - 1) / shake256Rate)

/-- `poly_uniform_eta`, on memory. -/
def polyUniformEtaMem (H : Hash) (par : MldsaParam) (seed : Bytes) (nonce : ℕ) (a : ℕ → ℤ)
    (buf : Bytes) : Prog (ℕ → ℤ) :=
  if par.eta = 2 then polyUniformEta2Mem H seed nonce a buf
  else if par.eta = 4 then polyUniformEta4Mem H seed nonce a buf
  else pure a

/-! ### A scan of a buffer -/

theorem eta2Word_eq {t : ℕ} (ht : t < 16) :
    coeffFromHalfByte 2 t = if t < 15 then some (eta2Word t) else none := by
  have h : ∀ t < 16, coeffFromHalfByte 2 t = if t < 15 then some (eta2Word t) else none := by
    decide
  exact h t ht

theorem eta4Word_eq {t : ℕ} (ht : t < 16) :
    coeffFromHalfByte 4 t = if t < 9 then some (eta4Word t) else none := by
  have h : ∀ t < 16, coeffFromHalfByte 4 t = if t < 9 then some (eta4Word t) else none := by
    decide
  exact h t ht

section Scan

variable {eta bound : ℕ} {word : ℕ → ℤ} {a : ℕ → ℤ} {o len buflen : ℕ} {buf : Bytes}

/-- The cursor at byte `pos`, once the first `c` half bytes were looked at. -/
def etaCursor (eta : ℕ) (a : ℕ → ℤ) (o len : ℕ) (buf : Bytes) (c pos : ℕ) : RejCursor :=
  ⟨(kept (etaCand eta buf) len c).length, pos, Mem.put a o (kept (etaCand eta buf) len c)⟩

@[simp] theorem etaCursor_ctr (c pos : ℕ) :
    (etaCursor eta a o len buf c pos).ctr = (kept (etaCand eta buf) len c).length := rfl

@[simp] theorem etaCursor_pos (c pos : ℕ) : (etaCursor eta a o len buf c pos).pos = pos := rfl

/-- One half byte more. -/
theorem etaCursor_next {c pos t : ℕ}
    (ht : etaCand eta buf c = if t < bound then some (word t) else none) :
    (if t < bound ∧ (etaCursor eta a o len buf c pos).ctr < len then
      (⟨(etaCursor eta a o len buf c pos).ctr + 1, pos,
        Mem.put (etaCursor eta a o len buf c pos).a
          (o + (etaCursor eta a o len buf c pos).ctr) [word t]⟩ : RejCursor)
      else etaCursor eta a o len buf c pos) = etaCursor eta a o len buf (c + 1) pos := by
  rw [etaCursor_ctr]
  by_cases hlt : (kept (etaCand eta buf) len c).length < len
  · unfold etaCursor
    rw [kept_next hlt, ht]
    by_cases hb : t < bound
    · rw [if_pos ⟨hb, hlt⟩, if_pos hb, Option.toList_some, List.length_append, ← Mem.put_put]
      rfl
    · rw [if_neg (fun h => hb h.1), if_neg hb, Option.toList_none, List.append_nil]
  · rw [if_neg (fun h => hlt h.2)]
    unfold etaCursor
    rw [kept_full hlt (Nat.le_succ c)]

/-- The two half bytes of a byte. -/
theorem etaCand_byte (eta : ℕ) (s : Bytes) (p : ℕ) :
    etaCand eta s (2 * p) = coeffFromHalfByte eta ((s p).toNat &&& 0x0F) ∧
      etaCand eta s (2 * p + 1) = coeffFromHalfByte eta ((s p).toNat >>> 4) := by
  have hm : (s p).toNat &&& 0x0F = (s p).toNat % 16 := and_mask 4
  constructor
  · rw [hm]
    unfold etaCand
    rw [if_pos (by omega), Nat.mul_div_cancel_left p (by norm_num)]
  · rw [Nat.shiftRight_eq_div_pow]
    unfold etaCand
    rw [if_neg (by omega), show (2 * p + 1) / 2 = p by omega]

variable (hword : ∀ t < 16, coeffFromHalfByte eta t = if t < bound then some (word t) else none)

include hword

/-- A turn of the scan goes through the two half bytes of a byte. -/
theorem returns_rejEtaLoop_step {p : ℕ} (hctr : (kept (etaCand eta buf) len (2 * p)).length < len)
    (hpos : p < buflen) (hbuf : buflen < 2 ^ 32) {r : ℕ × (ℕ → ℤ)} :
    (rejEtaLoop bound word o len buf buflen (etaCursor eta a o len buf (2 * p) p)).Returns r ↔
      (rejEtaLoop bound word o len buf buflen
        (etaCursor eta a o len buf (2 * (p + 1)) (p + 1))).Returns r := by
  obtain ⟨h0, h1⟩ := etaCand_byte eta buf p
  have hbyte := (buf p).toNat_lt
  have hm : (buf p).toNat &&& 0x0F = (buf p).toNat % 16 := and_mask 4
  rw [hword _ (by rw [hm]; exact Nat.mod_lt _ (by norm_num))] at h0
  rw [hword _ (by rw [Nat.shiftRight_eq_div_pow]; omega)] at h1
  have hfst := @etaCursor_next eta bound word a o len buf (2 * p) (p + 1) _ h0
  have hsnd := @etaCursor_next eta bound word a o len buf (2 * p + 1) (p + 1) _ h1
  simp only [etaCursor_ctr, hctr, and_true] at hfst
  refine returns_loop_next (congrArg pure ?_)
  rw [etaCursor_ctr, etaCursor_pos, if_pos ⟨hctr, hpos⟩]
  dsimp only
  rw [show u32 (p + 1) = p + 1 from Nat.mod_eq_of_lt (by omega)]
  refine congrArg Sum.inl ?_
  have hmove : (⟨(kept (etaCand eta buf) len (2 * p)).length, p + 1,
      (etaCursor eta a o len buf (2 * p) p).a⟩ : RejCursor) =
        etaCursor eta a o len buf (2 * p) (p + 1) := rfl
  have ha : (etaCursor eta a o len buf (2 * p) p).a =
      (etaCursor eta a o len buf (2 * p) (p + 1)).a := rfl
  rw [hmove, ha, hfst]
  exact hsnd

/-- **A scan writes what it accepts** among the half bytes of the buffer. -/
theorem returns_rejEtaLoop {p : ℕ} (hp : p ≤ buflen) (hbuf : buflen < 2 ^ 32)
    {r : ℕ × (ℕ → ℤ)} :
    (rejEtaLoop bound word o len buf buflen (etaCursor eta a o len buf (2 * p) p)).Returns r ↔
      ((kept (etaCand eta buf) len (2 * buflen)).length,
        Mem.put a o (kept (etaCand eta buf) len (2 * buflen))) = r := by
  obtain ⟨k, hk⟩ : ∃ k, buflen - p = k := ⟨_, rfl⟩
  induction k generalizing p with
  | zero =>
    obtain rfl : p = buflen := by omega
    exact returns_loop_done (congrArg pure (if_neg fun h => absurd h.2 (lt_irrefl p)))
  | succ k ih =>
    by_cases hctr : (kept (etaCand eta buf) len (2 * p)).length < len
    · rw [returns_rejEtaLoop_step hword hctr (by omega) hbuf]
      exact ih (by omega) (by omega)
    · rw [kept_full hctr (show 2 * p ≤ 2 * buflen by omega)]
      exact returns_loop_done (congrArg pure (if_neg fun h => hctr h.1))

theorem returns_rejEtaMem (hbuf : buflen < 2 ^ 32) {r : ℕ × (ℕ → ℤ)} :
    (rejEtaLoop bound word o len buf buflen ⟨0, 0, a⟩).Returns r ↔
      ((kept (etaCand eta buf) len (2 * buflen)).length,
        Mem.put a o (kept (etaCand eta buf) len (2 * buflen))) = r := by
  have hstart : (⟨0, 0, a⟩ : RejCursor) = etaCursor eta a o len buf (2 * 0) 0 := by
    have h : kept (etaCand eta buf) len 0 = [] := List.take_nil
    unfold etaCursor
    rw [h, Mem.put_nil]
    rfl
  rw [hstart]
  exact returns_rejEtaLoop hword (Nat.zero_le _) hbuf

end Scan

/-! ### From block to block -/

section Blocks

variable {H : Hash} {msg : List UInt8} {eta : ℕ} {a : ℕ → ℤ}

/-- A state of the loop of `poly_uniform_eta`, after `n` bytes of the stream. -/
structure EtaMemInv (H : Hash) (eta : ℕ) (msg : List UInt8) (a : ℕ → ℤ) (n : ℕ) (s : EtaMem) :
    Prop where
  /-- The sponge stands behind the bytes read. -/
  state : s.state = ⟨msg, n⟩
  /-- The counter counts what was accepted. -/
  ctr : s.ctr = (kept (etaCand eta (H.shake256 msg)) 256 (2 * n)).length
  /-- What was accepted is in memory. -/
  mem : s.a = Mem.put a 0 (kept (etaCand eta (H.shake256 msg)) 256 (2 * n))

/-- The half bytes of a block that was copied from the stream. -/
theorem etaCand_block {s b : Bytes} {n m : ℕ} (hb : ∀ i < m, b i = s (n + i)) :
    ∀ i < 2 * m, etaCand eta b i = etaCand eta s (2 * n + i) := by
  intro i hi
  unfold etaCand
  rw [hb (i / 2) (by omega), show (2 * n + i) / 2 = n + i / 2 by omega,
    show (2 * n + i) % 2 = i % 2 by omega]

/-- The bytes that are squeezed into the buffer. -/
theorem shake256_block (H : Hash) (m : ℕ) (st : KeccakState) (b : Bytes) {i : ℕ}
    (hi : i < m * shake256Rate) :
    b.put 0 (shake256Squeezeblocks H m st).1 i = (H.shake256 st.msg) (st.pos + i) := by
  have hlen : i < (shake256Squeezeblocks H m st).1.length := by
    unfold shake256Squeezeblocks squeeze
    rwa [Bytes.length_take]
  have h := Bytes.put_at b 0 hlen
  rw [Nat.zero_add] at h
  rw [h]
  exact Bytes.getElem_take _

/-- Where a turn of the loop leads. -/
def etaMemNext (H : Hash) (eta : ℕ) (s : EtaMem) : EtaMem :=
  let buf := s.buf.put 0 (shake256Squeezeblocks H 1 s.state).1
  let l := kept (etaCand eta buf) (256 - s.ctr) (2 * 136)
  ⟨s.ctr + l.length, buf, Mem.put s.a s.ctr l, (shake256Squeezeblocks H 1 s.state).2⟩

theorem etaMemNext_inv {n : ℕ} {s : EtaMem} (hs : EtaMemInv H eta msg a n s) :
    EtaMemInv H eta msg a (n + 136) (etaMemNext H eta s) := by
  obtain ⟨hstate, hctr, hmem⟩ := hs
  have hblk := @etaCand_block eta (H.shake256 msg)
    (s.buf.put 0 (shake256Squeezeblocks H 1 s.state).1) n 136 fun i hi => by
      rw [shake256_block H 1 s.state s.buf (by simp only [shake256Rate]; omega), hstate]
  have hkept := kept_add (congrArg (256 - ·) hctr) hblk
  rw [← Nat.mul_add] at hkept
  constructor
  · show (shake256Squeezeblocks H 1 s.state).2 = _
    rw [hstate]
    rfl
  · rw [hkept, List.length_append, ← hctr]
    rfl
  · rw [hkept, ← Mem.put_put, ← hmem, Nat.zero_add, ← hctr]
    rfl

/-- The first `m` blocks. -/
theorem etaMemInit_inv (m : ℕ) (b : Bytes) : EtaMemInv H eta msg a (m * 136)
    (let buf := b.put 0 (shake256Squeezeblocks H m ⟨msg, 0⟩).1
     let l := kept (etaCand eta buf) 256 (2 * (m * 136))
     ⟨l.length, buf, Mem.put a 0 l, (shake256Squeezeblocks H m ⟨msg, 0⟩).2⟩) := by
  have hblk := @etaCand_block eta (H.shake256 msg)
    (b.put 0 (shake256Squeezeblocks H m ⟨msg, 0⟩).1) 0 (m * 136) fun i hi => by
      rw [shake256_block H m ⟨msg, 0⟩ b hi]
  have hkept := @kept_add _ (etaCand eta (H.shake256 msg)) 256 _ (2 * 0) _ _ rfl hblk
  have hzero : kept (etaCand eta (H.shake256 msg)) 256 (2 * 0) = [] := List.take_nil
  rw [← Nat.mul_add, hzero, List.nil_append, Nat.zero_add, List.length_nil, Nat.sub_zero] at hkept
  refine ⟨?_, by rw [hkept], by rw [hkept]⟩
  unfold shake256Squeezeblocks squeeze
  dsimp only
  rw [Nat.zero_add]

/-- **`poly_uniform_eta_2` and `poly_uniform_eta_4` in memory** write the first accepted half
bytes of the stream. -/
theorem returns_polyUniformEtaMemWith
    {rej : (ℕ → ℤ) → ℕ → ℕ → Bytes → ℕ → Prog (ℕ × (ℕ → ℤ))}
    (hrej : ∀ a o len buf buflen r, buflen < 2 ^ 32 → ((rej a o len buf buflen).Returns r ↔
      ((kept (etaCand eta buf) len (2 * buflen)).length,
        Mem.put a o (kept (etaCand eta buf) len (2 * buflen))) = r))
    {nblocks : ℕ} (hn : nblocks * 136 < 2 ^ 32) {seed : Bytes} {nonce : ℕ} {buf : Bytes}
    {r : ℕ → ℤ} :
    (polyUniformEtaMemWith H rej nblocks seed nonce a buf).Returns r ↔
      ∃ L, RejBoundedPoly H eta (seed.take 64 ++ integerToBytes2 nonce) L ∧ r = Mem.put a 0 L := by
  obtain ⟨msg, hmsg⟩ : ∃ msg, msg = seed.take 64 ++ integerToBytes2 nonce := ⟨_, rfl⟩
  have hfst : ∀ b x, (rej a 0 256 b (nblocks * shake256Rate)).Returns x ↔ _ :=
    fun b x => hrej a 0 256 b (nblocks * shake256Rate) x hn
  unfold polyUniformEtaMemWith
  rw [stream256Init_eq, ← hmsg]
  simp only [returns_bind, hfst, exists_eq_left']
  refine @returns_sampler_of _ _ _ (etaCand eta (H.shake256 msg)) 256
    (fun s : EtaMem => kept (etaCand eta (H.shake256 msg)) 256 (2 * s.state.pos))
    (fun s => 2 * s.state.pos) (fun s => ∃ n, EtaMemInv H eta msg a n s)
    (etaMemNext H eta) EtaMem.a (fun s _ => rfl) ?_ _ ?_ (Mem.put a 0) ?_
    _ ⟨nblocks * 136, etaMemInit_inv nblocks buf⟩ _
  · rintro s ⟨n, hs⟩ -
    have hs' := etaMemNext_inv hs
    refine ⟨⟨n + 136, hs'⟩, ?_⟩
    rw [hs.state, hs'.state]
    dsimp only
    omega
  · rintro s ⟨n, hs⟩ x
    have hnext : ∀ b y, (rej s.a s.ctr (256 - s.ctr) b shake256Rate).Returns y ↔ _ :=
      fun b y => hrej s.a s.ctr (256 - s.ctr) b shake256Rate y (by norm_num)
    rw [hs.state]
    dsimp only
    rw [← hs.ctr]
    by_cases hlt : s.ctr < 256
    · rw [if_pos hlt, if_pos hlt]
      simp only [returns_bind, hnext, returns_pure, exists_eq_left']
      rw [← hs.state]
      rfl
    · rw [if_neg hlt, if_neg hlt, returns_pure]
  · rintro s ⟨n, hs⟩
    rw [hs.state]
    exact hs.mem

/-- **`poly_uniform_eta` in memory** is `RejBoundedPoly`. -/
theorem returns_polyUniformEtaMem (i : Fin 3) {seed : Bytes} {nonce : ℕ} {buf : Bytes}
    {r : ℕ → ℤ} :
    (polyUniformEtaMem H (mldsaPar i) seed nonce a buf).Returns r ↔
      ∃ L, RejBoundedPoly H (mldsaPar i).eta (seed.take 64 ++ integerToBytes2 nonce) L ∧
        r = Mem.put a 0 L := by
  unfold polyUniformEtaMem
  rcases eta_cases i with h | h
  · rw [if_pos h, h]
    exact returns_polyUniformEtaMemWith (fun _ _ _ _ _ _ hbuf =>
      returns_rejEtaMem (fun t ht => eta2Word_eq ht) hbuf) (by decide)
  · rw [if_neg (by rw [h]; norm_num), if_pos h, h]
    exact returns_polyUniformEtaMemWith (fun _ _ _ _ _ _ hbuf =>
      returns_rejEtaMem (fun t ht => eta4Word_eq ht) hbuf) (by decide)

end Blocks

/-- What `poly_uniform_eta` lists is what it leaves in memory. -/
theorem returns_polyUniformEta_mem {H : Hash} (i : Fin 3) {seed : Bytes} {nonce : ℕ} (a : ℕ → ℤ)
    (buf : Bytes) {p : Poly} :
    (polyUniformEta H (mldsaPar i) seed nonce).Returns p ↔
      ∃ r, (polyUniformEtaMem H (mldsaPar i) seed nonce a buf).Returns r ∧
        p = Vector.tab 256 r := by
  simp only [returns_polyUniformEta, returns_polyUniformEtaMem]
  constructor
  · rintro ⟨L, hL, rfl⟩
    exact ⟨_, ⟨L, hL, rfl⟩, ofSamples_put hL.length_eq a⟩
  · rintro ⟨_, ⟨L, hL, rfl⟩, rfl⟩
    exact ⟨L, hL, (ofSamples_put hL.length_eq a).symm⟩

/-- **Short vectors are a function of the stream.**  `poly_uniform_eta` returns exactly when
the stream has 256 half bytes that are accepted, low ones before high ones; the first 256 of
them are then in memory, between `-eta` and `eta`, and nothing behind them was written to. -/
theorem eta_stream (i : Fin 3) (H : Hash) (seed : Bytes) (nonce : ℕ) (a : ℕ → ℤ) (buf : Bytes)
    (r : ℕ → ℤ) :
    ((polyUniformEtaMem H (mldsaPar i) seed nonce a buf).Returns r ↔
      ∃ L, First (etaCand (mldsaPar i).eta
        (H.shake256 (seed.take 64 ++ integerToBytes2 nonce))) 256 L ∧ r = Mem.put a 0 L) ∧
    ((polyUniformEtaMem H (mldsaPar i) seed nonce a buf).Returns r →
      (∀ k < 256, -(mldsaPar i).eta ≤ r k ∧ r k ≤ (mldsaPar i).eta) ∧ ∀ k, 256 ≤ k → r k = a k) := by
  refine ⟨returns_polyUniformEtaMem i, fun h => ?_⟩
  obtain ⟨L, hL, rfl⟩ := (returns_polyUniformEtaMem i).1 h
  have hlen : L.length = 256 := hL.length_eq
  constructor
  · intro k hk
    have hlt : k < L.length := by rwa [hlen]
    have hput := Mem.put_at a 0 hlt
    rw [Nat.zero_add] at hput
    rw [hput]
    obtain ⟨p, hp⟩ := hL.mem (List.getElem_mem hlt)
    exact etaCand_range hp
  · exact fun k hk => Mem.put_of_le (by rwa [Nat.zero_add, hlen])

/-! ## Challenges -/

/-- `1 - 2 * (signs & 1)` of unsigned 64-bit words, converted to a signed 32-bit one. -/
def signWord (signs : ℕ) : ℤ :=
  Word.wrap 32 (((1 + 2 ^ 64 - 2 * (signs &&& 1)) % 2 ^ 64 : ℕ) : ℤ)

/-- A turn of the outer loop of `poly_challenge`, on memory. -/
def challengeMemStep (H : Hash) (s : (ℕ → ℤ) × ℕ × ChallengeState) (i : ℕ) :
    Prog ((ℕ → ℤ) × ℕ × ChallengeState) := do
  let r ← challengeByte H i s.2.2
  let c := Mem.put s.1 i [s.1 r.1]
  let c := Mem.put c r.1 [signWord s.2.1]
  pure (c, s.2.1 >>> 1, r.2)

/-- `poly_challenge`, on memory. -/
def polyChallengeMem (H : Hash) (par : MldsaParam) (seed : Bytes) (c : ℕ → ℤ) : Prog (ℕ → ℤ) := do
  let state := shakeFinalize (shakeAbsorb shakeInit (seed.take par.cpSz))
  let (buf, state) := shake256Squeezeblocks H 1 state
  let signs := (List.range 8).foldl (fun signs i => signs ||| (buf.getD i 0).toNat <<< (8 * i)) 0
  let c := (List.range 256).foldl (fun c i => Mem.put c i [0]) c
  let s ← (List.range par.tau).foldlM (fun s n => challengeMemStep H s (256 - par.tau + n))
    (c, signs, ⟨buf, 8, state⟩)
  pure s.1

/-! ### In memory -/

/-- Memory with a polynomial in its first cells. -/
def overlay (a : ℕ → ℤ) (p : Poly) (k : ℕ) : ℤ := if k < 256 then p.rd k else a k

theorem overlay_lt (a : ℕ → ℤ) (p : Poly) {k : ℕ} (hk : k < 256) : overlay a p k = p.rd k :=
  if_pos hk

theorem overlay_le (a : ℕ → ℤ) (p : Poly) {k : ℕ} (hk : 256 ≤ k) : overlay a p k = a k :=
  if_neg (by omega)

/-- Storing one coefficient. -/
theorem put_overlay (a : ℕ → ℤ) (p : Poly) {i : ℕ} (hi : i < 256) (x : ℤ) :
    Mem.put (overlay a p) i [x] = overlay a (p.wr i x) := by
  funext k
  by_cases hk : k = i
  · subst hk
    rw [overlay_lt _ _ hi, Vector.rd_wr_self _ hi]
    exact Mem.put_at _ k (show 0 < [x].length by simp)
  · have hput : Mem.put (overlay a p) i [x] k = overlay a p k :=
      if_neg (by rw [List.length_singleton]; omega)
    rw [hput]
    unfold overlay
    rw [Vector.rd_wr_ne _ (Ne.symm hk)]

theorem foldl_put_zero (a : ℕ → ℤ) :
    (List.range 256).foldl (fun c i => Mem.put c i [0]) a =
      overlay a (Vector.tab 256 fun _ => 0) := by
  have hrun : ∀ n k, (List.range n).foldl (fun c i => Mem.put c i [0]) a k =
      if k < n then 0 else a k := by
    intro n
    induction n with
    | zero => exact fun k => rfl
    | succ n ih =>
      intro k
      rw [List.range_succ, List.foldl_append, List.foldl_cons, List.foldl_nil]
      by_cases hk : k = n
      · subst hk
        rw [if_pos (Nat.lt_succ_self k)]
        exact Mem.put_at _ k (show 0 < [(0 : ℤ)].length by simp)
      · have hput : ∀ c : ℕ → ℤ, Mem.put c n [0] k = c k := fun c =>
          if_neg (by rw [List.length_singleton]; omega)
        rw [hput, ih]
        exact if_congr (by omega) rfl rfl
  funext k
  rw [hrun]
  unfold overlay
  split
  · rw [Vector.rd_tab _ ‹_›]
  · rfl

/-- The unsigned difference is the sign. -/
theorem signWord_eq (signs : ℕ) : signWord signs = 1 - 2 * ((signs &&& 1 : ℕ) : ℤ) := by
  have hm : signs &&& 1 = signs % 2 := and_mask 1
  unfold signWord
  rw [hm]
  rcases Nat.mod_two_eq_zero_or_one signs with h | h
  · rw [h]
    decide
  · rw [h]
    decide

/-- The byte the inner loop ends with is at most `i`. -/
theorem challengeByte_le {H : Hash} {i : ℕ} {s : ChallengeState} {r : ℕ × ChallengeState}
    (h : (challengeByte H i s).Returns r) : r.1 ≤ i := by
  have hsafe : (challengeByte H i s).Safe fun r => r.1 ≤ i := by
    refine Safe.loop (fun _ => True) (fun s _ => Safe.pure ?_) trivial
    split
    · trivial
    · exact Nat.le_of_not_gt ‹_›
  exact hsafe.of_returns h

/-- A state of the loop on lists, in memory. -/
def challengeMem (a : ℕ → ℤ) (s : Poly × ℕ × ChallengeState) : (ℕ → ℤ) × ℕ × ChallengeState :=
  (overlay a s.1, s.2)

/-- A turn in memory is a turn on the polynomial. -/
theorem returns_challengeMemStep {H : Hash} (a : ℕ → ℤ) {i : ℕ} (hi : i < 256)
    (s : Poly × ℕ × ChallengeState) (t : (ℕ → ℤ) × ℕ × ChallengeState) :
    (challengeMemStep H (challengeMem a s) i).Returns t ↔
      ∃ r, (challengeStep H s i).Returns r ∧ challengeMem a r = t := by
  have hcell : ∀ b ≤ i, Mem.put (Mem.put (overlay a s.1) i [overlay a s.1 b]) b [signWord s.2.1] =
      overlay a ((s.1.wr i (s.1.rd b)).wr b (1 - 2 * ((s.2.1 &&& 1 : ℕ) : ℤ))) := by
    intro b hb
    rw [overlay_lt _ _ (show b < 256 by omega), put_overlay _ _ hi, put_overlay _ _ (by omega),
      signWord_eq]
  unfold challengeMemStep challengeStep challengeMem
  simp only [returns_bind, returns_pure]
  constructor
  · rintro ⟨r, hr, rfl⟩
    refine ⟨_, ⟨r, hr, rfl⟩, ?_⟩
    rw [hcell _ (challengeByte_le hr)]
  · rintro ⟨_, ⟨r, hr, rfl⟩, rfl⟩
    refine ⟨r, hr, ?_⟩
    rw [hcell _ (challengeByte_le hr)]

/-- What `poly_challenge` computes is what it leaves in memory. -/
theorem returns_polyChallengeMem {H : Hash} {par : MldsaParam} (htau : par.tau ≤ 256) {seed : Bytes}
    {a r : ℕ → ℤ} :
    (polyChallengeMem H par seed a).Returns r ↔
      ∃ p, (polyChallenge H par seed).Returns p ∧ r = overlay a p := by
  have hfold : ∀ s t, ((List.range par.tau).foldlM
      (fun s n => challengeMemStep H s (256 - par.tau + n)) (challengeMem a s)).Returns t ↔
        ∃ r, ((List.range par.tau).foldlM
          (fun s n => challengeStep H s (256 - par.tau + n)) s).Returns r ∧ challengeMem a r = t := by
    intro s t
    refine returns_foldlM_map (challengeMem a) fun s n hn t => ?_
    have hn' := List.mem_range.1 hn
    exact returns_challengeMemStep a (by omega) s t
  unfold polyChallengeMem polyChallenge
  dsimp only
  rw [foldl_put_zero]
  simp only [returns_bind, returns_pure]
  constructor
  · rintro ⟨t, ht, rfl⟩
    obtain ⟨s, hs, rfl⟩ := (hfold (Vector.tab 256 fun _ => 0, _, _) t).1 ht
    exact ⟨s.1, ⟨s, hs, rfl⟩, rfl⟩
  · rintro ⟨_, ⟨s, hs, rfl⟩, rfl⟩
    exact ⟨_, (hfold (Vector.tab 256 fun _ => 0, _, _) _).2 ⟨s, hs, rfl⟩, rfl⟩

/-! ### The weight -/

/-- The positions of the coefficients that are not zero. -/
def support (c : ℕ → ℤ) : Finset ℕ := (Finset.range 256).filter fun k => c k ≠ 0

theorem mem_support {c : ℕ → ℤ} {k : ℕ} : k ∈ support c ↔ k < 256 ∧ c k ≠ 0 := by
  unfold support
  rw [Finset.mem_filter, Finset.mem_range]

/-- What holds of the coefficients before the turn for index `n`, behind `m` turns. -/
structure BallInv (n m : ℕ) (c : ℕ → ℤ) : Prop where
  /-- Every coefficient is a sign, if it is not zero. -/
  sign : ∀ k, c k = 0 ∨ c k = 1 ∨ c k = -1
  /-- Nothing was put at `n` or behind. -/
  zero : ∀ k, n ≤ k → c k = 0
  /-- Every turn put one sign. -/
  weight : (support c).card = m

theorem ballStep_apply (c : ℕ → ℤ) (i j sign k : ℕ) :
    ballStep c i j sign k = if k = j then (-1) ^ sign else if k = i then c j else c k := by
  unfold ballStep
  rw [Function.update_apply, Function.update_apply]

/-- The positions after a turn: the free one of `i` and `j` is taken. -/
theorem support_ballStep {c : ℕ → ℤ} {i j : ℕ} (hi : i < 256) (hj : j ≤ i) (hc : c i = 0)
    (sign : ℕ) : support (ballStep c i j sign) = insert (if c j = 0 then j else i) (support c) := by
  have hsign : ((-1) ^ sign : ℤ) ≠ 0 := pow_ne_zero _ (by norm_num)
  apply Finset.ext
  intro k
  rw [Finset.mem_insert, mem_support, mem_support, ballStep_apply]
  by_cases hkj : k = j
  · subst hkj
    rw [if_pos rfl]
    by_cases hck : c k = 0
    · rw [if_pos hck]
      exact ⟨fun _ => .inl rfl, fun _ => ⟨by omega, hsign⟩⟩
    · exact ⟨fun _ => .inr ⟨by omega, hck⟩, fun _ => ⟨by omega, hsign⟩⟩
  · rw [if_neg hkj]
    by_cases hki : k = i
    · subst hki
      rw [if_pos rfl]
      by_cases hcj : c j = 0
      · rw [if_pos hcj]
        exact ⟨fun h => absurd hcj h.2, fun h => h.elim (absurd · hkj) fun h => absurd hc h.2⟩
      · rw [if_neg hcj]
        exact ⟨fun _ => .inl rfl, fun _ => ⟨hi, hcj⟩⟩
    · rw [if_neg hki]
      have hne : k ≠ if c j = 0 then j else i := by
        split
        · exact hkj
        · exact hki
      exact ⟨fun h => .inr h, fun h => h.resolve_left hne⟩

/-- **A turn puts one sign more.** -/
theorem BallInv.step {n m : ℕ} {c : ℕ → ℤ} (h : BallInv n m c) (hn : n < 256) {j : ℕ} (hj : j ≤ n)
    (sign : ℕ) : BallInv (n + 1) (m + 1) (ballStep c n j sign) := by
  have hzero := h.zero n le_rfl
  constructor
  · intro k
    rw [ballStep_apply]
    split
    · rcases neg_one_pow_eq_or ℤ sign with hs | hs
      · exact .inr (.inl hs)
      · exact .inr (.inr hs)
    · split
      · exact h.sign j
      · exact h.sign k
  · intro k hk
    rw [ballStep_apply, if_neg (by omega), if_neg (by omega)]
    exact h.zero k (by omega)
  · rw [support_ballStep hn hj hzero, Finset.card_insert_of_notMem, h.weight]
    rw [mem_support]
    split
    · exact fun hmem => hmem.2 ‹_›
    · exact fun hmem => hmem.2 hzero

/-- **After `m` turns** there are `m` signs. -/
theorem ballAfter_inv {s : Bytes} {tau : ℕ} {pos : ℕ → ℕ} (htau : tau ≤ 256)
    (hpos : ∀ m < tau, NextBelow s (256 - tau + m) (pos m) (pos (m + 1))) {m : ℕ} (hm : m ≤ tau) :
    BallInv (256 - tau + m) m (ballAfter s tau pos m) := by
  induction m with
  | zero =>
    refine ⟨fun k => .inl rfl, fun k _ => rfl, ?_⟩
    have hempty : support (ballAfter s tau pos 0) = ∅ := by
      apply Finset.ext
      intro k
      rw [mem_support]
      exact ⟨fun h => absurd rfl h.2, fun h => absurd h (Finset.notMem_empty k)⟩
    rw [hempty]
    rfl
  | succ m ih =>
    have hstep := (ih (by omega)).step (show 256 - tau + m < 256 by omega) (hpos m hm).2.1
      (bit 8 (fun i => (s i).toNat) m)
    unfold ballAfter at hstep ⊢
    rw [List.range_succ, List.foldl_append]
    exact hstep

/-- **`SampleInBall` comes to `tau` signs.** -/
theorem sampleInBall_weight {H : Hash} {tau : ℕ} (htau : tau ≤ 256) {rho : List UInt8} {c : ℕ → ℤ}
    (h : SampleInBall H tau rho c) :
    (support c).card = tau ∧ ∀ k < 256, c k = 0 ∨ c k = 1 ∨ c k = -1 := by
  obtain ⟨pos, -, hpos, hc⟩ := h
  have hinv := ballAfter_inv htau hpos le_rfl
  have heq : ∀ k < 256, c k = ballAfter (H.shake256 rho) tau pos tau k := hc
  constructor
  · rw [← hinv.weight]
    congr 1
    apply Finset.ext
    intro k
    rw [mem_support, mem_support]
    exact and_congr_right fun hk => by rw [heq k hk]
  · intro k hk
    rw [heq k hk]
    exact hinv.sign k

/-- **Challenges are `SampleInBall`.**  `poly_challenge` returns exactly when it does on the
stream; the coefficients are then in memory, `tau` of them signs and the others zero, and
nothing behind them was written to. -/
theorem challenge_ball (i : Fin 3) (H : Hash) (seed : Bytes) (a r : ℕ → ℤ) :
    ((polyChallengeMem H (mldsaPar i) seed a).Returns r ↔
      ∃ c, SampleInBall H (mldsaPar i).tau (seed.take (mldsaPar i).cpSz) c ∧
        (∀ k < 256, r k = c k) ∧ ∀ k, 256 ≤ k → r k = a k) ∧
    ((polyChallengeMem H (mldsaPar i) seed a).Returns r →
      (support r).card = (mldsaPar i).tau ∧ ∀ k < 256, r k = 0 ∨ r k = 1 ∨ r k = -1) := by
  have htau := tau_le i
  have hiff : (polyChallengeMem H (mldsaPar i) seed a).Returns r ↔
      ∃ c, SampleInBall H (mldsaPar i).tau (seed.take (mldsaPar i).cpSz) c ∧
        (∀ k < 256, r k = c k) ∧ ∀ k, 256 ≤ k → r k = a k := by
    simp only [returns_polyChallengeMem (show (mldsaPar i).tau ≤ 256 by omega),
      returns_polyChallenge htau]
    constructor
    · rintro ⟨_, ⟨c, hc, rfl⟩, rfl⟩
      refine ⟨c, hc, fun k hk => ?_, fun k hk => overlay_le _ _ hk⟩
      rw [overlay_lt _ _ hk, Vector.rd_tab _ hk]
    · rintro ⟨c, hc, hlt, hle⟩
      refine ⟨_, ⟨c, hc, rfl⟩, funext fun k => ?_⟩
      by_cases hk : k < 256
      · rw [overlay_lt _ _ hk, Vector.rd_tab _ hk, hlt k hk]
      · rw [overlay_le _ _ (by omega), hle k (by omega)]
  refine ⟨hiff, fun h => ?_⟩
  obtain ⟨c, hc, hlt, -⟩ := hiff.1 h
  obtain ⟨hcard, hsign⟩ := sampleInBall_weight (show (mldsaPar i).tau ≤ 256 by omega) hc
  constructor
  · rw [← hcard]
    congr 1
    apply Finset.ext
    intro k
    rw [mem_support, mem_support]
    exact and_congr_right fun hk => by rw [hlt k hk]
  · intro k hk
    rw [hlt k hk]
    exact hsign k hk

end Mldsa
