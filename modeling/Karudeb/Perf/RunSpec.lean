import Karudeb.Perf.Invariant

/-!
# Every run of `perf_run`

In every order of the steps of `perf_run` and its child, and whatever fails:

* `exec_after_release` : the benchmark is executed only after `perf_run` has written to
  the pipe, and that only with both counters on.
* `benchmark_counted` : while `perf_run` waits for the benchmark, both counters are on.
* `printed_covers` : what is printed covers the first task of the benchmark, and no other.
* `ret_code` : what `run_user_count` returns, and that it leaves nothing open.
* `perf_run_ends` : neither process waits for ever.
-/

namespace PerfRun

variable {args : List String} {s t : State} {a : Act} {as : List Act}

/-! ## No run gets stuck, or goes on for ever -/

/-- Neither process has anything left to do. -/
def Final (s : State) : Prop :=
  (s.parent = .image ∨ s.parent = .killed ∨ ∃ code, s.parent = .exited code) ∧
    s.child.alive = false

/-- The child is never stuck, unless in a `read` that `perf_run` can still answer. -/
theorem child_moves (hn : Ends s) (hal : s.child.alive = true) :
    (∃ t, Step s .child t) ∨ (s.child = .read ∧ s.parent.holdsWr = true) := by
  have hwr := hn.childWr_eq
  cases hc : s.child with
  | unborn | zombie | reaped =>
    rw [hc] at hal
    cases hal
  | closeWr => exact .inl ⟨_, .childCloseWr hc⟩
  | closeRd => exact .inl ⟨_, .childCloseRd hc⟩
  | execve => exact .inl ⟨_, .childExecve hc⟩
  | benchmark => exact .inl ⟨_, .benchmarkExits 0 hc⟩
  | exit127 => exact .inl ⟨_, .childExit hc⟩
  | read =>
    cases hf : s.full with
    | true => exact .inl ⟨_, .childRead hc hf⟩
    | false =>
      cases hp : s.parent.holdsWr with
      | true => exact .inr ⟨rfl, rfl⟩
      | false =>
        refine .inl ⟨_, .childRead_eof hc hf ?_⟩
        rw [hn.wr_eq, hwr, hp, hc]
        rfl

/-- `perf_run` is never stuck, unless in a `waitpid` for a child that lives. -/
theorem parent_moves (hi : Inv s) : (∃ t, Step s .parent t) ∨
    ((s.parent = .waitpid ∨ s.parent = .failWaitpid) ∧ s.child.alive = true) ∨
    s.parent = .image ∨ s.parent = .killed ∨ ∃ code, s.parent = .exited code := by
  have hwait : s.parent.unwaited = true → s.child.alive = true ∨ ∃ e, s.child = .zombie e := by
    intro hp
    obtain ⟨h1, h2⟩ := hi.ends.waiting hp
    cases hc : s.child with
    | unborn => exact absurd hc h1
    | reaped => exact absurd hc h2
    | zombie e => exact .inr ⟨e, rfl⟩
    | _ => exact .inl rfl
  cases hp : s.parent with
  | openSelf hw => exact .inl ⟨_, .openSelf hp⟩
  | opened =>
    by_cases ha : s.argv = []
    · exact .inl ⟨_, .printMach hp ha⟩
    · exact .inl ⟨_, .execve hp ha⟩
  | image => exact .inr (.inr (.inl rfl))
  | pipe => exact .inl ⟨_, .pipe hp⟩
  | fork => exact .inl ⟨_, .fork hp⟩
  | closeRd => exact .inl ⟨_, .closeRd hp⟩
  | openEvent hw => exact .inl ⟨_, .openEvent hp⟩
  | reset hw => exact .inl ⟨_, .reset hp⟩
  | enable hw => exact .inl ⟨_, .enable hp⟩
  | write =>
    cases hr : s.rd || s.childRd with
    | true => exact .inl ⟨_, .write hp hr⟩
    | false => exact .inl ⟨_, .write_pipe hp hr⟩
  | closeWr => exact .inl ⟨_, .closeWr hp⟩
  | waitpid =>
    rcases hwait (by rw [hp]; rfl) with hal | ⟨e, he⟩
    · exact .inr (.inl ⟨.inl rfl, hal⟩)
    · exact .inl ⟨_, .waitpid hp he⟩
  | disable hw => exact .inl ⟨_, .disable hp⟩
  | readU64 hw =>
    obtain ⟨b, n, hfd⟩ : ∃ b n, s.fd hw = some (childEvent hw b n) := by
      have := hi.events hw
      rw [hp] at this
      cases hw <;> exact this
    exact .inl ⟨_, .readU64 hp hfd⟩
  | print => exact .inl ⟨_, .print hp⟩
  | closeEvent hw => exact .inl ⟨_, .closeEvent hp⟩
  | failCloseWr => exact .inl ⟨_, .failCloseWr hp⟩
  | failClose hw => exact .inl ⟨_, .failClose hp⟩
  | failWaitpid =>
    rcases hwait (by rw [hp]; rfl) with hal | ⟨e, he⟩
    · exact .inr (.inl ⟨.inr rfl, hal⟩)
    · exact .inl ⟨_, .failWaitpid hp he⟩
  | ret code => exact .inl ⟨_, .ret hp⟩
  | exited code => exact .inr (.inr (.inr (.inr ⟨code, rfl⟩)))
  | killed => exact .inr (.inr (.inr (.inl rfl)))

/-- No two processes wait for each other. -/
theorem moves_of_not_final (hi : Inv s) (hf : ¬Final s) :
    ∃ a t, (a = .parent ∨ a = .child) ∧ Step s a t := by
  rcases parent_moves hi with ⟨t, ht⟩ | ⟨hw, hal⟩ | hgone
  · exact ⟨.parent, t, .inl rfl, ht⟩
  · rcases child_moves hi.ends hal with ⟨t, ht⟩ | ⟨-, hwr⟩
    · exact ⟨.child, t, .inr rfl, ht⟩
    · rcases hw with hw | hw <;> rw [hw] at hwr <;> cases hwr
  · have hal : s.child.alive = true := Bool.not_eq_false _ ▸ fun h => hf ⟨hgone, h⟩
    rcases child_moves hi.ends hal with ⟨t, ht⟩ | ⟨-, hwr⟩
    · exact ⟨.child, t, .inr rfl, ht⟩
    · rcases hgone with hg | hg | ⟨code, hg⟩ <;> rw [hg] at hwr <;> cases hwr

/-- How many steps `perf_run` can still take at most. -/
def Parent.rank : Parent → ℕ
  | .openSelf .cycles => 3
  | .openSelf .instructions => 2
  | .opened => 1
  | .image => 0
  | .pipe => 28
  | .fork => 27
  | .closeRd => 21
  | .openEvent .cycles => 20
  | .openEvent .instructions => 19
  | .reset .cycles => 18
  | .reset .instructions => 17
  | .enable .cycles => 16
  | .enable .instructions => 15
  | .write => 14
  | .closeWr => 13
  | .waitpid => 12
  | .disable .cycles => 11
  | .disable .instructions => 10
  | .readU64 .cycles => 9
  | .readU64 .instructions => 8
  | .print => 7
  | .closeEvent .cycles => 6
  | .closeEvent .instructions => 5
  | .failCloseWr => 5
  | .failClose .cycles => 4
  | .failClose .instructions => 3
  | .failWaitpid => 2
  | .ret _ => 1
  | .exited _ | .killed => 0

/-- How many steps the child can still take at most. -/
def Child.rank : Child → ℕ
  | .closeWr => 5
  | .read => 4
  | .closeRd => 3
  | .execve => 2
  | .benchmark | .exit127 => 1
  | .unborn | .zombie _ | .reaped => 0

def State.rank (s : State) : ℕ := s.parent.rank + s.child.rank

/-- Every step other than an instruction brings both processes nearer to their end. -/
theorem rank_step (h : Step s a t) (ha : a.moves = true) : t.rank < s.rank := by
  cases h with
  | tick | benchmarkTick | benchmarkStarts | otherTick => cases ha
  | kill h1 h2 h3 =>
    refine Nat.add_lt_add_right (show 0 < s.parent.rank from ?_) _
    cases hp : s.parent with
    | image => exact absurd hp h2
    | killed => exact absurd hp h3
    | exited code => exact absurd hp (h1 code)
    | openSelf hw | openEvent hw | reset hw | enable hw | disable hw | readU64 hw | closeEvent hw
    | failClose hw => cases hw <;> exact Nat.succ_pos _
    | _ => exact Nat.succ_pos _
  | childKill sig core hal =>
    refine Nat.add_lt_add_left (show 0 < s.child.rank from ?_) _
    cases hc : s.child with
    | unborn | zombie | reaped =>
      rw [hc] at hal
      cases hal
    | _ => exact Nat.succ_pos _
  | fork hp =>
    show Parent.closeRd.rank + Child.closeWr.rank < s.parent.rank + s.child.rank
    rw [hp]
    simp only [Parent.rank, Child.rank]
    omega
  | _ =>
    (try (rename Hw => hw; cases hw)) <;>
      simp_all [State.rank, Parent.rank, Child.rank, Hw.next, State.leave, State.childEnds, State.setFd]

theorem rank_le (h : Step s a t) : t.rank ≤ s.rank := by
  cases ha : a.moves with
  | true => exact Nat.le_of_lt (rank_step h ha)
  | false =>
    cases h with
    | tick | benchmarkTick | benchmarkStarts | otherTick => exact Nat.le_refl _
    | _ => cases ha

theorem init_rank_le (cmd : Command) : (init cmd).rank ≤ 28 := by
  rcases cmd with _ | (_ | _) | _ <;> simp [init, Command.start, State.rank, Parent.rank, Child.rank]

/-! ## Main results -/

/-- `perf_run --user-count true`, where the benchmark executes, and where all is over; it
has started a task that executed more than it did. -/
theorem runs_true :
    (∃ as s, Lts.Run Step (init (main ["--user-count", "true"])) as s ∧
      s.child = .benchmark ∧ s.parent.late = false ∧ s.execed = true) ∧
    ∃ s v, Reach ["--user-count", "true"] s ∧ s.parent = .ret 0 ∧ s.printed = some v ∧
      s.waited = some (.exited 0) ∧ s.short = false ∧ s.own .cycles = 0 ∧ s.bench .cycles = 3 ∧
      s.others .cycles = 5 := by
  have h0 : Lts.Run Step (init (main ["--user-count", "true"])) [] _ := .nil
  have h1 := (h0.snoc (.pipe rfl)).snoc (.fork rfl)
  have h2 := (h1.snoc (.childCloseWr rfl)).snoc (.closeRd rfl)
  have h3 := (h2.snoc (.openEvent rfl)).snoc (.openEvent rfl)
  have h4 := (h3.snoc (.reset rfl)).snoc (.reset rfl)
  have h5 := (h4.snoc (.enable rfl)).snoc (.enable rfl)
  have h6 := (h5.snoc (.write rfl rfl)).snoc (.childRead rfl rfl)
  have h7 := (h6.snoc (.childCloseRd rfl)).snoc (.childExecve rfl)
  have h8 := h7.snoc (.benchmarkTick .user 3 rfl)
  have h9 := (h8.snoc (.benchmarkStarts rfl)).snoc (.otherTick .user 5 rfl)
  have h10 := ((h9.snoc (.benchmarkExits 0 rfl)).snoc (.closeWr rfl)).snoc (.waitpid rfl rfl)
  have h11 := (h10.snoc (.disable rfl)).snoc (.disable rfl)
  have h12 := (h11.snoc (.readU64 rfl rfl)).snoc (.readU64 rfl rfl)
  have h13 := h12.snoc (.print rfl)
  have h14 := (h13.snoc (.closeEvent rfl)).snoc (.closeEvent rfl)
  exact ⟨⟨_, _, h8, rfl, rfl, rfl⟩, _, _, ⟨_, h14⟩, rfl, rfl, rfl, rfl, rfl, rfl, rfl⟩

/-- The child has got past its `read`, or can. -/
def State.past (s : State) : Bool :=
  s.full || s.execed || decide (s.child = .closeRd ∨ s.child = .execve ∨ s.child = .benchmark)

/-- Nothing but the `write` of `perf_run` lets the child past its `read`. -/
theorem past_step (h : Step s a t) (hs : s.past = false) (ht : t.past = true) :
    a = .parent ∧ s.parent = .write ∧ t = { s with parent := .closeWr, full := true } := by
  cases h with
  | write hp => exact ⟨rfl, hp, rfl⟩
  | _ => simp_all [State.past, State.leave, State.childEnds, State.setFd]

/-- **The benchmark is executed only after the release.**  In every run in which it is
executed, `perf_run` has written to the pipe before, and did so with both counters on and
nothing of the benchmark executed. -/
theorem exec_after_release (h : Lts.Run Step (init (main args)) as s) (hx : s.execed = true) :
    ∃ before after r, as = before ++ .parent :: after ∧
      Lts.Run Step (init (main args)) before r ∧ r.parent = .write ∧
      (∀ hw, ∃ n, n ≤ r.own hw ∧ r.fd hw = some (childEvent hw true n)) ∧ r.execed = false ∧
      Lts.Run Step { r with parent := .closeWr, full := true } after s := by
  have hpast : s.past = true := by simp [State.past, hx]
  clear hx
  induction h with
  | nil => simp [State.past, init] at hpast
  | @snoc t u as a hrun hlast ih =>
    cases hp : t.past with
    | true =>
      obtain ⟨before, after, r, rfl, h1, h2, h3, h4, h5⟩ := ih hp
      exact ⟨before, after ++ [a], r, by simp, h1, h2, h3, h4, h5.snoc hlast⟩
    | false =>
      obtain ⟨rfl, hw, rfl⟩ := past_step hlast hp hpast
      have hi := Reach.inv ⟨as, hrun⟩
      have hx : t.execed = false := by
        cases hx : t.execed with
        | false => rfl
        | true => simp [State.past, hx] at hp
      refine ⟨as, [], t, rfl, hrun, hw, ?_, ?_, .nil⟩
      · intro hw'
        obtain ⟨n, hn⟩ : ∃ n, t.fd hw' = some (childEvent hw' true n) := by
          have := hi.events hw'
          rw [hw] at this
          exact this
        have hle := hi.counted.upper hw' _ hn
        rw [hi.gate.untouched hx] at hle
        exact ⟨n, hle, hn⟩
      · exact hx

theorem exec_after_release_true :
    ∃ as s, Lts.Run Step (init (main ["--user-count", "true"])) as s ∧ s.execed = true ∧
      ∃ before after r, as = before ++ .parent :: after ∧
        Lts.Run Step (init (main ["--user-count", "true"])) before r ∧ r.parent = .write := by
  obtain ⟨⟨as, s, h, -, -, hx⟩, -⟩ := runs_true
  obtain ⟨before, after, r, h1, h2, h3, -⟩ := exec_after_release h hx
  exact ⟨as, s, h, hx, before, after, r, h1, h2, h3⟩

/-- **What the benchmark runs under.**  In the default mode it takes over with both events
open.  With `--user-count` it holds no end of the pipe, and either `perf_run` has not got past
`waitpid`, both counters are on, for user mode only, and have counted all that its first task
has executed, and nothing that it has started; or `perf_run` was killed, which closes both
events; or its `waitpid` has failed. -/
theorem benchmark_counted (h : Reach args s) :
    (s.parent = .image → ∀ hw, s.fd hw = some (.new (openHwEvent hw .self false false))) ∧
      (s.child = .benchmark → s.childRd = false ∧ s.childWr = false ∧
        (((s.parent = .closeWr ∨ s.parent = .waitpid) ∧ ∀ hw, ∃ n,
            s.fd hw = some ⟨openHwEvent hw .child true true, true, n⟩ ∧
              s.bench hw ≤ n ∧ n ≤ s.own hw + s.bench hw) ∨
          (s.parent = .killed ∧ ∀ hw, s.fd hw = none) ∨
          (s.parent.late = true ∧ s.parent ≠ .killed ∧ s.waited = none))) := by
  have hi := h.inv
  refine ⟨fun hp hw => ?_, fun hb => ⟨hi.ends.childRd_eq (.inr hb), ?_, ?_⟩⟩
  · have hev := hi.events hw
    rw [hp] at hev
    cases hw <;> exact hev
  · rw [hi.ends.childWr_eq, hb]
    rfl
  · cases hl : s.parent.late with
    | false =>
      refine .inl ⟨waits_of_benchmark hi.gate hb hl, fun hw => ?_⟩
      obtain ⟨n, hn⟩ : ∃ n, s.fd hw = some (childEvent hw true n) := by
        have hev := hi.events hw
        rw [on_of_benchmark hi.gate hb hl hw] at hev
        exact hev
      exact ⟨n, hn, hi.counted.lower (.inl hl) hw _ hn, hi.counted.upper hw _ hn⟩
    | true =>
      by_cases hk : s.parent = .killed
      · refine .inr (.inl ⟨hk, fun hw => ?_⟩)
        have hev := hi.events hw
        rw [hk] at hev
        exact hev
      · refine .inr (.inr ⟨rfl, hk, ?_⟩)
        -- a child that was waited for is no benchmark any more
        cases hw : s.waited with
        | none => rfl
        | some e =>
          have hr := hi.counted.reaped (by rw [hw]; rfl)
          rw [hb] at hr
          cases hr

theorem benchmark_counted_true :
    ∃ s, Reach ["--user-count", "true"] s ∧ s.child = .benchmark ∧ s.childRd = false ∧
      ∀ hw, ∃ n, s.fd hw = some ⟨openHwEvent hw .child true true, true, n⟩ ∧ s.bench hw ≤ n := by
  obtain ⟨⟨as, s, h, hb, hl, -⟩, -⟩ := runs_true
  obtain ⟨h1, -, ⟨-, h2⟩ | ⟨hk, -⟩ | ⟨hlate, -⟩⟩ := (benchmark_counted ⟨as, h⟩).2 hb
  · refine ⟨s, ⟨as, h⟩, hb, h1, fun hw => ?_⟩
    obtain ⟨n, h3, h4, -⟩ := h2 hw
    exact ⟨n, h3, h4⟩
  · rw [hk] at hl
    cases hl
  · rw [hl] at hlate
    cases hlate

/-- **What is printed covers the first task of the benchmark**, and no other.  Where `waitpid`
has found the child and both counters were read, either number printed is, modulo 2^64, at
least what that task executed in user mode in all, and at most that and what the child
executed itself. -/
theorem printed_covers {v : Hw → ℕ} {e : End} (h : Reach args s) (hp : s.printed = some v)
    (hw : s.waited = some e) (hs : s.short = false) :
    s.child = .reaped ∧ ∀ hw, ∃ n, s.bench hw ≤ n ∧ n ≤ s.own hw + s.bench hw ∧
      v hw = n % 2 ^ 64 := by
  have hi := h.inv
  have hw' : s.waited.isSome = true := by rw [hw]; rfl
  exact ⟨hi.counted.reaped hw', hi.values.printed hw' hs v hp⟩

/-- The number printed can be less than the half of what the benchmark executed. -/
theorem printed_covers_true :
    ∃ s v, Reach ["--user-count", "true"] s ∧ s.printed = some v ∧ s.child = .reaped ∧
      v .cycles = 3 ∧ s.bench .cycles + s.others .cycles = 8 := by
  obtain ⟨-, s, v, h, -, hp, hw, hs, ho, hb, hothers⟩ := runs_true
  obtain ⟨h1, h2⟩ := printed_covers h hp hw hs
  obtain ⟨n, h3, h4, h5⟩ := h2 .cycles
  have hn : n = 3 := by omega
  exact ⟨s, v, h, hp, h1, by omega, by omega⟩

/-- What `run_user_count` returns. -/
theorem ret_cases {code : ℕ} (h : Reach args s) (hr : s.parent = .ret code) :
    (s.printed = none ∧ s.execed = false ∧ code = 1) ∨
      (s.printed.isSome = true ∧ code =
        match s.waited, s.short with
        | some (.exited c), false => c.val
        | some (.signaled sig _), false => 128 + (sig.val + 1)
        | _, _ => 128 + 1) := by
  have hx : s.execed = true → s.printed.isSome = true := by
    intro hx
    have hrel := h.inv.gate.execed hx
    rwa [State.released, hr] at hrel
  rcases h.outcome.ret code hr with ⟨hp, hc⟩ | ⟨hp, hc⟩
  · refine .inl ⟨hp, ?_, hc⟩
    rw [hp] at hx
    exact Bool.eq_false_iff.2 fun h => absurd (hx h) (by decide)
  · refine .inr ⟨hp, hc.trans ?_⟩
    unfold State.result
    have hfail : waitStatusToExit exitFailure = 128 + 1 := by decide
    cases s.waited with
    | none => cases s.short <;> exact hfail
    | some e =>
      cases s.short with
      | true => cases e <;> exact hfail
      | false =>
        rw [waitStatusToExit_status]
        cases e <;> rfl

/-- **What `run_user_count` returns.**  It leaves neither the pipe nor an event open.  It
returns 1 where it has not released the child, which then has not executed the benchmark.
Else it returns what the shell would for the child, with 129 where `waitpid` or a read has
failed; the child ends with 127 where it exits without having executed the benchmark.  It
returns 0 only where the benchmark was executed, ended with 0 and both counters were read. -/
theorem ret_code {code : ℕ} (h : Reach args s) (hr : s.parent = .ret code) :
    s.rd = false ∧ s.wr = false ∧ (∀ hw, s.fd hw = none) ∧
      ((s.printed = none ∧ s.execed = false ∧ code = 1) ∨
        (s.printed.isSome = true ∧ code =
          match s.waited, s.short with
          | some (.exited c), false => c.val
          | some (.signaled sig _), false => 128 + (sig.val + 1)
          | _, _ => 128 + 1)) ∧
      (∀ c, s.waited = some (.exited c) → s.execed = true ∨ c = 127) ∧
      (code = 0 → s.execed = true ∧ s.waited = some (.exited 0) ∧ s.short = false) := by
  have hi := h.inv
  refine ⟨?_, ?_, ?_, ret_cases h hr, fun c hc => h.outcome.ended c (.inr hc), ?_⟩
  · rw [hi.ends.rd_eq, hr]
    rfl
  · rw [hi.ends.wr_eq, hr]
    rfl
  · intro hw
    have := hi.events hw
    rw [hr] at this
    cases hw <;> exact this
  · rintro rfl
    rcases ret_cases h hr with ⟨-, -, hc⟩ | ⟨-, hc⟩
    · cases hc
    · have hended := h.outcome.ended
      cases hw : s.waited with
      | none =>
        rw [hw] at hc
        cases hc
      | some e =>
        rw [hw] at hc hended
        cases hs : s.short with
        | true =>
          rw [hs] at hc
          cases e <;> cases hc
        | false =>
          rw [hs] at hc
          cases e with
          | signaled sig core => exact absurd hc (by simp)
          | exited c =>
            obtain rfl : c = 0 := Fin.ext hc.symm
            exact ⟨(hended 0 (.inr rfl)).resolve_right (by decide), rfl, rfl⟩

theorem ret_code_true :
    ∃ s, Reach ["--user-count", "true"] s ∧ s.parent = .ret 0 ∧ (∀ hw, s.fd hw = none) ∧
      s.execed = true := by
  obtain ⟨-, s, v, h, hr, -⟩ := runs_true
  obtain ⟨-, -, h1, -, -, h2⟩ := ret_code h hr
  exact ⟨s, h, hr, h1, (h2 rfl).1⟩

/-- **Every run ends.**  Apart from what the child and the benchmark execute, no run has more than 28
steps; and as long as one of the two processes has anything left to do, one of them can
go on, without any fault. -/
theorem perf_run_ends (args : List String) :
    (∀ as s, Lts.Run Step (init (main args)) as s → as.countP Act.moves ≤ 28) ∧
      ∀ s, Reach args s → ¬Final s → ∃ a t, (a = .parent ∨ a = .child) ∧ Step s a t := by
  refine ⟨fun as s h => ?_, fun s h hf => moves_of_not_final h.inv hf⟩
  have hle := h.count_le (P := Act.moves) (m := State.rank) rank_step rank_le
  have := init_rank_le (main args)
  omega

end PerfRun
