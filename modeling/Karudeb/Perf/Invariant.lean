import Karudeb.Perf.Run

/-!
# What holds in every state of `perf_run`

Invariants of the steps of `perf_run` and its child, in every order and whatever fails.

* `Ends` : who holds which end of the pipe, and when there is a child.
* `Gate` : the child gets past its `read` only after the release.
* `Events` : which events are open, on, and still at 0.
* `Counted` : every count lies between what the benchmark and what the child executed.
* `Values`, `Outcome` : what has been read and printed, and what is returned.
-/

namespace PerfRun

variable {args : List String} {s t : State} {a : Act}

theorem Child.alive_iff (c : Child) :
    c.alive = true ↔ c ≠ .unborn ∧ c ≠ .reaped ∧ ∀ e, c ≠ .zombie e := by
  cases c <;> simp [Child.alive]

/-! ## Where the pipe is open -/

/-- `perf_run` holds the read end. -/
def Parent.holdsRd : Parent → Bool
  | .fork | .closeRd => true
  | _ => false

/-- `perf_run` holds the write end. -/
def Parent.holdsWr : Parent → Bool
  | .fork | .closeRd | .openEvent _ | .reset _ | .enable _ | .write | .closeWr | .failCloseWr =>
    true
  | _ => false

/-- There is no child yet. -/
def Parent.unforked : Parent → Bool
  | .openSelf _ | .opened | .image | .pipe | .fork => true
  | _ => false

/-- There is a child that has not been waited for. -/
def Parent.unwaited : Parent → Bool
  | .closeRd | .openEvent _ | .reset _ | .enable _ | .write | .closeWr | .waitpid | .failCloseWr
  | .failClose _ | .failWaitpid => true
  | _ => false

/-- Who holds which end of the pipe, and when there is a child. -/
structure Ends (s : State) : Prop where
  rd_eq : s.rd = s.parent.holdsRd
  wr_eq : s.wr = s.parent.holdsWr
  childWr_eq : s.childWr = decide (s.child = .closeWr)
  childRd_eq : s.child = .execve ∨ s.child = .benchmark → s.childRd = false
  unborn : s.parent.unforked = true → s.child = .unborn
  waiting : s.parent.unwaited = true → s.child ≠ .unborn ∧ s.child ≠ .reaped

theorem ends_step (h : Step s a t) (hs : Ends s) : Ends t := by
  obtain ⟨hrd, hwr, hcw, hcr, hunborn, hwait⟩ := hs
  cases h with
  | tick | benchmarkTick | benchmarkStarts | otherTick =>
    exact ⟨hrd, hwr, hcw, hcr, hunborn, hwait⟩
  | childCloseWr hc | childRead hc | childRead_eof hc | childRead_fails hc | childCloseRd hc
  | childExecve hc | childExecve_fails hc | childExit hc | benchmarkExits _ hc =>
    refine ⟨hrd, hwr, ?_, ?_, fun hp => ?_, fun _ => ⟨nofun, nofun⟩⟩
    · first | rfl | exact hcw.trans (by rw [hc]; rfl)
    · first | exact fun _ => rfl | exact fun _ => hcr (.inl hc) | (rintro (h | h) <;> cases h)
    · have := hc.symm.trans (hunborn hp)
      cases this
  | childKill sig core hal =>
    refine ⟨hrd, hwr, rfl, nofun, fun hp => ?_, fun _ => ⟨nofun, nofun⟩⟩
    rw [hunborn hp] at hal
    cases hal
  | fork hp =>
    refine ⟨?_, ?_, ?_, nofun, nofun, fun _ => ⟨nofun, nofun⟩⟩
    · exact hrd.trans (by rw [hp]; rfl)
    · exact hwr.trans (by rw [hp]; rfl)
    · exact hwr.trans (by rw [hp]; rfl)
  | waitpid hp hz | failWaitpid hp hz =>
    refine ⟨?_, ?_, ?_, nofun, nofun, nofun⟩
    · exact hrd.trans (by rw [hp]; rfl)
    · exact hwr.trans (by rw [hp]; rfl)
    · exact hcw.trans (by rw [hz]; rfl)
  | openSelf_fails hp | execve_fails hp | printMach hp =>
    exact ⟨rfl, rfl, hcw, hcr, fun _ => hunborn (by rw [hp]; rfl), nofun⟩
  | write_pipe | ret | kill => exact ⟨rfl, rfl, hcw, hcr, nofun, nofun⟩
  | @openSelf hw hp | @openEvent hw hp | @reset hw hp | @enable hw hp | @disable hw hp
  | @readU64 hw e hp | @closeEvent hw hp | @failClose hw hp =>
    have hrd' := hrd.trans (congrArg Parent.holdsRd hp)
    have hwr' := hwr.trans (congrArg Parent.holdsWr hp)
    have hunborn' := fun hu => hunborn ((congrArg Parent.unforked hp).trans hu)
    have hwait' := fun hu => hwait ((congrArg Parent.unwaited hp).trans hu)
    cases hw <;> exact ⟨hrd', hwr', hcw, hcr, hunborn', hwait'⟩
  | execve hp | pipe hp | pipe_fails hp | fork_fails hp | closeRd hp | openEvent_fails hp
  | reset_fails hp | enable_fails hp | write hp | write_fails hp | closeWr hp | waitpid_fails hp
  | disable_fails hp | readU64_fails _ hp | print hp | failCloseWr hp | failWaitpid_fails hp =>
    refine ⟨?_, ?_, hcw, hcr, ?_, ?_⟩
    · first | rfl | exact hrd.trans (by rw [hp]; rfl)
    · first | rfl | exact hwr.trans (by rw [hp]; rfl)
    · first | exact fun _ => hunborn (by rw [hp]; rfl) | exact nofun
    · first | exact fun _ => hwait (by rw [hp]; rfl) | exact nofun

theorem ends_init (cmd : Command) : Ends (init cmd) := by
  rcases cmd with _ | (_ | _) | _ <;> constructor <;>
    simp [init, Command.start, Parent.holdsRd, Parent.holdsWr, Parent.unforked, Parent.unwaited]

/-! ## When the benchmark can run -/

/-- `perf_run` has written to the pipe, unless it was killed or has left. -/
def State.released (s : State) : Bool :=
  match s.parent with
  | .closeWr | .waitpid | .disable _ | .readU64 _ | .print | .closeEvent _ | .killed => true
  | .ret _ | .exited _ => s.printed.isSome
  | _ => false

/-- The child has got past its `read`, or can. -/
structure Gate (s : State) : Prop where
  full : s.full = true → s.released = true
  passed : s.child = .closeRd ∨ s.child = .execve ∨ s.child = .benchmark → s.released = true
  execed : s.execed = true → s.released = true
  benchmark : s.child = .benchmark → s.execed = true
  untouched : s.execed = false → s.bench = fun _ => 0
  closing : ∀ hw, s.parent = .closeEvent hw → s.printed.isSome = true

/-- What is released stays so. -/
theorem released_step (h : Step s a t)
    (hc : ∀ hw, s.parent = .closeEvent hw → s.printed.isSome = true) (hr : s.released = true) :
    t.released = true := by
  have hcase : ∀ p, s.parent = p → ({ s with parent := p } : State).released = true := by
    rintro p rfl
    exact hr
  cases h with
  | write | kill | write_pipe | print => rfl
  | ret hp => exact hcase _ hp
  | @closeEvent hw hp => cases hw <;> first | rfl | exact hc _ hp
  | @disable hw hp | @readU64 hw _ hp => cases hw <;> rfl
  | closeWr | waitpid | waitpid_fails | disable_fails | readU64_fails => rfl
  | openSelf_fails hp | execve_fails hp | printMach hp | execve hp | pipe hp | pipe_fails hp
  | fork hp | fork_fails hp | closeRd hp | openEvent_fails hp | reset_fails hp | enable_fails hp
  | write_fails hp | failCloseWr hp | failWaitpid hp | failWaitpid_fails hp | openSelf hp
  | openEvent hp | reset hp | enable hp | failClose hp => cases hcase _ hp
  | _ => exact hr

theorem gate_step (h : Step s a t) (hs : Gate s) : Gate t := by
  have hrel := released_step h hs.closing
  obtain ⟨hfull, hpassed, hexeced, hbench, huntouched, hclosing⟩ := hs
  cases h with
  | write => exact ⟨fun _ => rfl, fun _ => rfl, fun _ => rfl, hbench, huntouched, nofun⟩
  | fork => 
    refine ⟨fun h => hrel (hfull h), ?_, fun h => hrel (hexeced h), nofun, huntouched, nofun⟩
    rintro (h | h | h) <;> cases h
  | childRead hc hf =>
    exact ⟨nofun, fun _ => hfull hf, hexeced, nofun, huntouched, hclosing⟩
  | childCloseRd hc =>
    exact ⟨hfull, fun _ => hpassed (.inl hc), hexeced, nofun, huntouched, hclosing⟩
  | childExecve hc =>
    exact ⟨hfull, fun _ => hpassed (.inr (.inl hc)), fun _ => hpassed (.inr (.inl hc)), fun _ => rfl,
      nofun, hclosing⟩
  | childCloseWr hc | childRead_eof hc | childRead_fails hc | childExecve_fails hc | childExit hc
  | benchmarkExits _ hc | childKill _ _ hc =>
    refine ⟨hfull, ?_, hexeced, nofun, huntouched, hclosing⟩
    rintro (h | h | h) <;> cases h
  | tick | benchmarkStarts | otherTick =>
    exact ⟨hfull, hpassed, hexeced, hbench, huntouched, hclosing⟩
  | benchmarkTick mode c hc =>
    refine ⟨hfull, hpassed, hexeced, hbench, fun hx => ?_, hclosing⟩
    rw [show s.execed = true from hbench hc] at hx
    cases hx
  | waitpid | failWaitpid =>
    refine ⟨fun h => hrel (hfull h), ?_, fun h => hrel (hexeced h), nofun, huntouched, nofun⟩
    rintro (h | h | h) <;> cases h
  | print hp => 
    exact ⟨fun h => rfl, fun h => rfl, fun h => rfl, hbench, huntouched, fun _ _ => rfl⟩
  | @closeEvent hw hp =>
    exact ⟨fun h => hrel (hfull h), fun h => hrel (hpassed h), fun h => hrel (hexeced h), hbench,
      huntouched, fun _ _ => hclosing hw hp⟩
  | @openSelf hw | @openEvent hw | @reset hw | @enable hw | @disable hw | @readU64 hw
  | @failClose hw =>
    refine ⟨fun h => hrel (hfull h), fun h => hrel (hpassed h), fun h => hrel (hexeced h), hbench,
      huntouched, ?_⟩
    cases hw <;> exact nofun
  | _ =>
    exact ⟨fun h => hrel (hfull h), fun h => hrel (hpassed h), fun h => hrel (hexeced h), hbench,
      huntouched, nofun⟩

theorem gate_init (cmd : Command) : Gate (init cmd) := by
  rcases cmd with _ | (_ | _) | _ <;> constructor <;> simp [init, Command.start]

/-! ## The events -/

/-- What is known of an event of `perf_run`. -/
inductive Expect
  | closed
  | raw
  | fresh
  | on
  | opened
  | any

/-- What is known of the event of either counter where `perf_run` stands. -/
def Parent.expects : Parent → Hw → Expect
  | .openSelf .instructions, .cycles => .raw
  | .opened, _ | .image, _ => .raw
  | .openEvent .instructions, .cycles => .fresh
  | .reset _, _ | .enable .cycles, _ | .enable .instructions, .instructions => .fresh
  | .enable .instructions, .cycles => .on
  | .write, _ | .closeWr, _ | .waitpid, _ | .disable .cycles, _ => .on
  | .disable .instructions, _ | .readU64 _, _ | .print, _ | .closeEvent .cycles, _ => .opened
  | .closeEvent .instructions, .instructions => .opened
  | .failCloseWr, _ | .failClose .cycles, _ | .failClose .instructions, .instructions => .any
  | _, _ => .closed

/-- The event of `run_user_count`, on or off, with its count. -/
def childEvent (hw : Hw) (enabled : Bool) (count : ℕ) : Event :=
  ⟨openHwEvent hw .child true true, enabled, count⟩

/-- An event is as expected. -/
def Expect.Holds (hw : Hw) : Expect → Option Event → Prop
  | .closed, fd => fd = none
  | .raw, fd => fd = some (.new (openHwEvent hw .self false false))
  | .fresh, fd => fd = some (childEvent hw false 0)
  | .on, fd => ∃ n, fd = some (childEvent hw true n)
  | .opened, fd => ∃ b n, fd = some (childEvent hw b n)
  | .any, fd => fd = none ∨ ∃ b n, fd = some (childEvent hw b n)

/-- Both events are as expected. -/
def Events (s : State) : Prop := ∀ hw, (s.parent.expects hw).Holds hw (s.fd hw)

@[simp] theorem new_child (hw : Hw) :
    Event.new (openHwEvent hw .child true true) = childEvent hw false 0 := rfl

@[simp] theorem reset_childEvent (hw : Hw) (b : Bool) (n : ℕ) :
    (childEvent hw b n).reset = childEvent hw b 0 := rfl

@[simp] theorem enable_childEvent (hw : Hw) (b : Bool) (n : ℕ) :
    (childEvent hw b n).enable = childEvent hw true n := rfl

@[simp] theorem disable_childEvent (hw : Hw) (b : Bool) (n : ℕ) :
    (childEvent hw b n).disable = childEvent hw false n := rfl

@[simp] theorem count_childEvent (hw : Hw) (b : Bool) (n : ℕ) : (childEvent hw b n).count = n := rfl

/-- The event of the default mode counts nothing that the child executes. -/
theorem tick_raw (hw : Hw) (mode : Mode) (c : ℕ) :
    (Event.new (openHwEvent hw .self false false)).tick (.first .child) mode c =
      Event.new (openHwEvent hw .self false false) := by
  simp [Event.tick, Event.new, openHwEvent, Attr.covers]

theorem tick_off (hw : Hw) (mode : Mode) (c n : ℕ) :
    (childEvent hw false n).tick (.first .child) mode c = childEvent hw false n := by
  simp [Event.tick, childEvent]

/-- An event that is on counts what the child executes in user mode, and nothing else. -/
theorem tick_on (hw : Hw) (mode : Mode) (c n : ℕ) :
    (childEvent hw true n).tick (.first .child) mode c =
      childEvent hw true (if mode = .user then n + hw.amount c else n) := by
  cases mode <;> simp [Event.tick, childEvent, openHwEvent, Attr.covers, Attr.counts]

/-- Whatever the child executes, an event stays as expected. -/
theorem Expect.holds_tick {hw : Hw} {x : Expect} {fd : Option Event} (h : x.Holds hw fd)
    (mode : Mode) (c : ℕ) : x.Holds hw (fd.map (.tick (.first .child) mode c)) := by
  have hany : ∀ b n, ∃ b' n',
      (childEvent hw b n).tick (.first .child) mode c = childEvent hw b' n' := by
    rintro (_ | _) n
    · exact ⟨_, _, tick_off hw mode c n⟩
    · exact ⟨_, _, tick_on hw mode c n⟩
  cases x with
  | closed => simpa [Expect.Holds] using h
  | raw =>
    obtain rfl : fd = _ := h
    exact congrArg some (tick_raw hw mode c)
  | fresh =>
    obtain rfl : fd = _ := h
    exact congrArg some (tick_off hw mode c 0)
  | on =>
    obtain ⟨n, rfl⟩ := h
    exact ⟨_, congrArg some (tick_on hw mode c n)⟩
  | opened =>
    obtain ⟨b, n, rfl⟩ := h
    obtain ⟨b', n', hbn⟩ := hany b n
    exact ⟨b', n', congrArg some hbn⟩
  | any =>
    rcases h with rfl | ⟨b, n, rfl⟩
    · exact .inl rfl
    · obtain ⟨b', n', hbn⟩ := hany b n
      exact .inr ⟨b', n', congrArg some hbn⟩

/-- No event counts what a task that the benchmark has started executes. -/
theorem Expect.Holds.other {hw : Hw} {x : Expect} {fd : Option Event} (h : x.Holds hw fd)
    (mode : Mode) (c : ℕ) : fd.map (.tick (.startedBy .child) mode c) = fd := by
  have hchild : ∀ b n, (childEvent hw b n).tick (.startedBy .child) mode c = childEvent hw b n := by
    intro b n
    simp [Event.tick, childEvent, openHwEvent, Attr.covers]
  cases x with
  | closed =>
    obtain rfl : fd = none := h
    rfl
  | raw =>
    obtain rfl : fd = _ := h
    simp [Event.tick, Event.new, openHwEvent, Attr.covers]
  | fresh =>
    obtain rfl : fd = _ := h
    exact congrArg some (hchild false 0)
  | on =>
    obtain ⟨n, rfl⟩ := h
    exact congrArg some (hchild true n)
  | opened =>
    obtain ⟨b, n, rfl⟩ := h
    exact congrArg some (hchild b n)
  | any =>
    rcases h with rfl | ⟨b, n, rfl⟩
    · rfl
    · exact congrArg some (hchild b n)

/-- An event that is open is open when it has been switched off. -/
theorem Expect.holds_disable {hw : Hw} {x : Expect} {fd : Option Event} (h : x.Holds hw fd)
    (hx : x = .on ∨ x = .opened) : Expect.opened.Holds hw (fd.map .disable) := by
  rcases hx with rfl | rfl
  · obtain ⟨n, rfl⟩ := h
    exact ⟨false, n, rfl⟩
  · obtain ⟨b, n, rfl⟩ := h
    exact ⟨false, n, rfl⟩

theorem events_step (h : Step s a t) (hs : Events s) : Events t := by
  have hc := hs .cycles
  have hi := hs .instructions
  cases h with
  | tick mode c _ _ | benchmarkTick mode c _ => exact fun hw => Expect.holds_tick (hs hw) mode c
  | otherTick mode c _ =>
    intro hw
    dsimp only
    rw [(hs hw).other mode c]
    exact hs hw
  | @disable hw hp =>
    rw [hp] at hc hi
    cases hw with
    | cycles =>
      rintro (_ | _)
      · exact Expect.holds_disable (x := .on) hc (.inl rfl)
      · obtain ⟨n, hn⟩ := hi
        exact ⟨true, n, hn⟩
    | instructions =>
      rintro (_ | _)
      · exact hc
      · exact Expect.holds_disable (x := .opened) hi (.inr rfl)
  | _ =>
    first
    | exact hs
    | (try (rename Hw => hw; cases hw)) <;> rintro (_ | _) <;>
        simp_all [State.leave, State.setFd, Parent.expects, Hw.next, Expect.Holds]

theorem events_init (cmd : Command) : Events (init cmd) := by
  rcases cmd with _ | (_ | _) | _ <;> rintro (_ | _) <;> rfl

/-! ## What the events count -/

/-- An instruction of the child adds at most itself to an event. -/
theorem tick_count {hw : Hw} {x : Expect} {fd : Option Event} {mode : Mode} {c : ℕ} {e : Event}
    (hx : x.Holds hw fd) (he : fd.map (.tick (.first .child) mode c) = some e) :
    ∃ e', fd = some e' ∧ e'.count ≤ e.count ∧ e.count ≤ e'.count + userAmount mode c hw ∧
      (x = .on → e.count = e'.count + userAmount mode c hw) := by
  have hchild : ∀ b n, fd = some (childEvent hw b n) → ∃ e', fd = some e' ∧ e'.count ≤ e.count ∧
      e.count ≤ e'.count + userAmount mode c hw ∧
      (b = true → e.count = e'.count + userAmount mode c hw) := by
    rintro b n rfl
    obtain rfl := Option.some.inj he
    refine ⟨_, rfl, ?_⟩
    cases b with
    | false => simp [tick_off]
    | true =>
      rw [tick_on]
      unfold userAmount
      split <;> simp
  cases x with
  | closed =>
    obtain rfl : fd = none := hx
    cases he
  | raw =>
    obtain rfl : fd = _ := hx
    rw [Option.map_some, tick_raw] at he
    obtain rfl := Option.some.inj he
    exact ⟨_, rfl, Nat.le_refl _, Nat.le_add_right _ _, nofun⟩
  | fresh =>
    obtain ⟨e', h1, h2, h3, -⟩ := hchild false 0 hx
    exact ⟨e', h1, h2, h3, nofun⟩
  | on =>
    obtain ⟨n, hn⟩ := hx
    obtain ⟨e', h1, h2, h3, h4⟩ := hchild true n hn
    exact ⟨e', h1, h2, h3, fun _ => h4 rfl⟩
  | opened =>
    obtain ⟨b, n, hn⟩ := hx
    obtain ⟨e', h1, h2, h3, -⟩ := hchild b n hn
    exact ⟨e', h1, h2, h3, nofun⟩
  | any =>
    rcases hx with rfl | ⟨b, n, hn⟩
    · cases he
    · obtain ⟨e', h1, h2, h3, -⟩ := hchild b n hn
      exact ⟨e', h1, h2, h3, nofun⟩

/-- `perf_run` has got past `waitpid`, or is gone. -/
def Parent.late : Parent → Bool
  | .disable _ | .readU64 _ | .print | .closeEvent _ | .ret _ | .exited _ | .killed => true
  | _ => false

/-- Every count lies between what the first task of the benchmark and what the child
executed, unless `perf_run` has run ahead of the child. -/
structure Counted (s : State) : Prop where
  upper : ∀ hw e, s.fd hw = some e → e.count ≤ s.own hw + s.bench hw
  lower : s.parent.late = false ∨ s.waited.isSome = true →
    ∀ hw e, s.fd hw = some e → s.bench hw ≤ e.count
  reaped : s.waited.isSome = true → s.child = .reaped

/-- While the benchmark runs, `perf_run` closes its end of the pipe or waits, or is late. -/
theorem waits_of_benchmark (hg : Gate s) (hb : s.child = .benchmark) (hl : s.parent.late = false) :
    s.parent = .closeWr ∨ s.parent = .waitpid := by
  have hr := hg.passed (.inr (.inr hb))
  unfold State.released at hr
  generalize s.parent = p at hr hl
  cases p with
  | closeWr => exact .inl rfl
  | waitpid => exact .inr rfl
  | disable | readU64 | print | closeEvent | ret | exited | killed => cases hl
  | _ => cases hr

/-- The benchmark runs under both counters until `perf_run` gets past `waitpid`. -/
theorem on_of_benchmark (hg : Gate s) (hb : s.child = .benchmark) (hl : s.parent.late = false)
    (hw : Hw) : s.parent.expects hw = .on := by
  rcases waits_of_benchmark hg hb hl with hp | hp <;> rw [hp] <;> cases hw <;> rfl

/-- What a step other than an instruction leaves of the events: a count stays as it is, or
is 0 before the release. -/
theorem fd_step (h : Step s a t) (ha : a ≠ .tick) {hw : Hw} {e : Event} (he : t.fd hw = some e) :
    (∃ e', s.fd hw = some e' ∧ e'.count = e.count) ∨ (e.count = 0 ∧ s.released = false) := by
  have hset : ∀ hw' fd, (∀ e, fd = some e →
        (∃ e', s.fd hw' = some e' ∧ e'.count = e.count) ∨ (e.count = 0 ∧ s.released = false)) →
      Function.update s.fd hw' fd hw = some e →
        (∃ e', s.fd hw = some e' ∧ e'.count = e.count) ∨ (e.count = 0 ∧ s.released = false) := by
    intro hw' fd hfd he
    rcases eq_or_ne hw hw' with rfl | hne
    · rw [Function.update_self] at he
      exact hfd e he
    · rw [Function.update_of_ne hne] at he
      exact .inl ⟨e, he, rfl⟩
  have hmap : ∀ hw' (f : Event → Event),
      (∀ e, (f e).count = e.count ∨ ((f e).count = 0 ∧ s.released = false)) →
      Function.update s.fd hw' ((s.fd hw').map f) hw = some e →
        (∃ e', s.fd hw = some e' ∧ e'.count = e.count) ∨ (e.count = 0 ∧ s.released = false) := by
    intro hw' f hf
    refine hset hw' _ fun e he => ?_
    obtain ⟨e', he', rfl⟩ := Option.map_eq_some_iff.1 he
    exact (hf e').imp_left fun h => ⟨e', he', h.symm⟩
  cases h with
  | tick | benchmarkTick | benchmarkStarts | otherTick => exact absurd rfl ha
  | @openSelf hw' hp | @openEvent hw' hp =>
    refine hset hw' _ ?_ he
    rintro e ⟨⟩
    exact .inr ⟨rfl, by rw [State.released, hp]⟩
  | @reset hw' hp => exact hmap hw' .reset (fun e => .inr ⟨rfl, by rw [State.released, hp]⟩) he
  | @enable hw' hp => exact hmap hw' .enable (fun e => .inl rfl) he
  | @disable hw' hp => exact hmap hw' .disable (fun e => .inl rfl) he
  | @closeEvent hw' hp | @failClose hw' hp => exact hset hw' none nofun he
  | openSelf_fails | execve_fails | printMach | write_pipe | ret | kill => cases he
  | _ => exact .inl ⟨e, he, rfl⟩

/-- Once `perf_run` has run ahead of the child, it stays ahead. -/
theorem late_step (h : Step s a t) (hl : t.parent.late = false ∨ t.waited.isSome = true) :
    s.parent.late = false ∨ s.waited.isSome = true := by
  cases h with
  | @openSelf hw hp | @openEvent hw hp | @reset hw hp | @enable hw hp =>
    exact .inl (by rw [hp]; rfl)
  | @disable hw hp | @readU64 hw hp | @closeEvent hw hp | @failClose hw hp =>
    cases hw <;> simp_all [Parent.late, State.setFd, Hw.next]
  | _ => first | exact hl | simp_all [Parent.late, State.leave]

theorem own_step (h : Step s a t) (ha : a ≠ .tick) : t.own = s.own ∧ t.bench = s.bench := by
  cases h with
  | tick | benchmarkTick | benchmarkStarts | otherTick => exact absurd rfl ha
  | _ => exact ⟨rfl, rfl⟩

theorem reaped_step (h : Step s a t) (he : Ends s)
    (hs : s.waited.isSome = true → s.child = .reaped) (ht : t.waited.isSome = true) :
    t.child = .reaped := by
  have hunborn := he.unborn
  cases h with
  | childKill => simp_all [Child.alive_iff, State.childEnds]
  | _ => simp_all [Parent.unforked, State.leave, State.childEnds, State.setFd]

theorem counted_step (h : Step s a t) (hn : Ends s) (hg : Gate s) (he : Events s)
    (hs : Counted s) : Counted t := by
  have hbench : s.released = false → ∀ hw, s.bench hw = 0 := by
    intro hr
    have hx : s.execed = false := Bool.eq_false_iff.2 fun hx => by simp [hg.execed hx] at hr
    exact congrFun (hg.untouched hx)
  refine ⟨?_, ?_, reaped_step h hn hs.reaped⟩
  · -- a count grows only with what the child executes
    intro hw e hfd
    by_cases ha : a = .tick
    · subst ha
      cases h with
      | tick mode c | benchmarkTick mode c =>
        obtain ⟨e', h1, -, h3, -⟩ := tick_count (he hw) hfd
        have := hs.upper hw e' h1
        dsimp only
        omega
      | benchmarkStarts => exact hs.upper hw e hfd
      | otherTick mode c => exact hs.upper hw e (((he hw).other mode c).symm.trans hfd)
    · rw [(own_step h ha).1, (own_step h ha).2]
      rcases fd_step h ha hfd with ⟨e', h1, h2⟩ | ⟨h0, -⟩
      · exact h2 ▸ hs.upper hw e' h1
      · omega
  · -- and the benchmark executes nothing that is not counted
    intro hl hw e hfd
    have hlow := hs.lower (late_step h hl) hw
    by_cases ha : a = .tick
    · subst ha
      cases h with
      | tick mode c =>
        obtain ⟨e', h1, h2, -, -⟩ := tick_count (he hw) hfd
        exact Nat.le_trans (hlow e' h1) h2
      | benchmarkTick mode c hb =>
        obtain ⟨e', h1, -, -, h4⟩ := tick_count (he hw) hfd
        have hlate : s.parent.late = false := by
          rcases hl with hl | hl
          · exact hl
          · rw [hs.reaped hl] at hb
            cases hb
        have hon := h4 (on_of_benchmark hg hb hlate hw)
        have := hlow e' h1
        dsimp only
        omega
      | benchmarkStarts => exact hlow e hfd
      | otherTick mode c => exact hlow e (((he hw).other mode c).symm.trans hfd)
    · rw [(own_step h ha).2]
      rcases fd_step h ha hfd with ⟨e', h1, h2⟩ | ⟨-, hr⟩
      · exact h2 ▸ hlow e' h1
      · rw [hbench hr hw]
        exact Nat.zero_le _

/-! ## What is printed -/

/-- A value read from the counter `hw` covers all that the first task of the benchmark
executed, and else only what the child executed itself. -/
def Covers (s : State) (hw : Hw) (v : ℕ) : Prop :=
  ∃ n, s.bench hw ≤ n ∧ n ≤ s.own hw + s.bench hw ∧ v = n % 2 ^ 64

/-- The counters that `perf_run` has read. -/
def Parent.hasRead : Parent → Hw → Bool
  | .readU64 .instructions, .cycles | .print, _ | .closeEvent _, _ => true
  | _, _ => false

/-- What `perf_run` has read and printed covers the benchmark, if `waitpid` has found its
end and no read has failed. -/
structure Values (s : State) : Prop where
  value : s.waited.isSome = true → s.short = false →
    ∀ hw, s.parent.hasRead hw = true → Covers s hw (s.value hw)
  printed : s.waited.isSome = true → s.short = false →
    ∀ v, s.printed = some v → ∀ hw, Covers s hw (v hw)
  early : s.parent.late = false → s.printed = none

theorem values_step (h : Step s a t) (hc : Counted s) (hs : Values s) : Values t := by
  obtain ⟨hvalue, hprinted, hearly⟩ := hs
  cases h with
  | tick mode c hal | benchmarkTick mode c hal =>
    -- the child is reaped, and executes nothing
    have hnot : s.waited.isSome = true → False := by
      intro hw
      have hr := hc.reaped hw
      rw [hr] at hal
      cases hal
    exact ⟨fun hw => (hnot hw).elim, fun hw => (hnot hw).elim, hearly⟩
  | @readU64 hw e hp he =>
    refine ⟨?_, hprinted, ?_⟩
    · intro hw' hsh hw'' hr
      by_cases heq : hw'' = hw
      · subst heq
        refine ⟨e.count, hc.lower (.inr hw') hw'' e he, hc.upper hw'' e he, ?_⟩
        exact Function.update_self hw'' _ _
      · have hval := hvalue hw' hsh hw''
        rw [hp] at hval
        cases hw <;> cases hw'' <;> first | exact absurd rfl heq | exact hval rfl | cases hr
    · intro hl
      cases hw <;> cases hl
  | print hp =>
    refine ⟨fun hw hsh hw' _ => hvalue hw hsh hw' (by rw [hp]; rfl), ?_, nofun⟩
    rintro hw hsh v hv hw'
    obtain rfl := Option.some.inj hv
    exact hvalue hw hsh hw' (by rw [hp]; rfl)
  | @closeEvent hw hp =>
    refine ⟨fun hw' hsh hw'' _ => hvalue hw' hsh hw'' (by rw [hp]; rfl), hprinted, ?_⟩
    intro hl
    cases hw <;> cases hl
  | waitpid hp | failWaitpid hp =>
    -- nothing is printed yet
    refine ⟨fun _ _ hw hr => (by cases hw <;> cases hr), ?_, nofun⟩
    intro _ _ v hv
    rw [hearly (by rw [hp]; rfl)] at hv
    cases hv
  | readU64_fails => exact ⟨nofun, nofun, nofun⟩
  | @openSelf hw hp | @openEvent hw hp | @reset hw hp | @enable hw hp | @failClose hw hp =>
    refine ⟨fun _ _ hw' hr => ?_, hprinted, fun _ => hearly (by rw [hp]; rfl)⟩
    cases hw <;> cases hw' <;> cases hr
  | @disable hw hp =>
    refine ⟨fun _ _ hw' hr => ?_, hprinted, fun hl => ?_⟩
    · cases hw <;> cases hw' <;> cases hr
    · cases hw <;> cases hl
  | _ =>
    first
    | exact ⟨hvalue, hprinted, hearly⟩
    | refine ⟨fun _ _ hw' hr => (by cases hw' <;> cases hr), hprinted, fun hl => hearly ?_⟩
      simp_all [Parent.late, State.leave]

/-- Everything that holds in every reachable state. -/
structure Inv (s : State) : Prop where
  ends : Ends s
  gate : Gate s
  events : Events s
  counted : Counted s
  values : Values s

theorem inv_step (h : Step s a t) (hs : Inv s) : Inv t where
  ends := ends_step h hs.ends
  gate := gate_step h hs.gate
  events := events_step h hs.events
  counted := counted_step h hs.ends hs.gate hs.events hs.counted
  values := values_step h hs.counted hs.values

theorem inv_init (cmd : Command) : Inv (init cmd) where
  ends := ends_init cmd
  gate := gate_init cmd
  events := events_init cmd
  counted := ⟨nofun, fun _ => nofun, nofun⟩
  values := ⟨nofun, nofun, fun _ => rfl⟩

theorem Reach.inv (h : Reach args s) : Inv s := by
  obtain ⟨as, hrun⟩ := h
  exact hrun.inv inv_step (inv_init _)

/-! ## How a run ends -/

/-- What `perf_run` returns of the status it has. -/
theorem waitStatusToExit_status (e : End) : waitStatusToExit e.status =
    match e with
    | .exited code => code.val
    | .signaled sig _ => 128 + (sig.val + 1) := by
  cases e with
  | exited code =>
    revert code
    decide +kernel
  | signaled sig core =>
    revert sig core
    decide +kernel

/-- The status that `perf_run` holds after `waitpid`. -/
def State.result (s : State) : ℕ :=
  match s.waited, s.short with
  | some e, false => e.status
  | _, _ => exitFailure

/-- `run_user_count` between `waitpid` and its return. -/
def Parent.closing : Parent → Bool
  | .disable _ | .readU64 _ | .print | .closeEvent _ => true
  | _ => false

/-- What `perf_run` has in `status`, and what it returns. -/
structure Outcome (s : State) : Prop where
  status : s.parent.closing = true → s.status = s.result
  ret : ∀ code, s.parent = .ret code →
    (s.printed = none ∧ code = exitFailure) ∨
      (s.printed.isSome = true ∧ code = waitStatusToExit s.result)
  ended : ∀ code, s.child = .zombie (.exited code) ∨ s.waited = some (.exited code) →
    s.execed = true ∨ code = 127
  early : s.parent.late = false → s.short = false

theorem not_waited (hn : Ends s) (hc : Counted s) (hp : s.parent.unwaited = true) :
    s.waited = none := by
  cases hw : s.waited with
  | none => rfl
  | some e => exact absurd (hc.reaped (by rw [hw]; rfl)) (hn.waiting hp).2

theorem outcome_step (h : Step s a t) (hi : Inv s) (hs : Outcome s) : Outcome t := by
  obtain ⟨hstatus, hret, hended, hearly⟩ := hs
  have hprinted := hi.values.early
  cases h with
  | @waitpid e hp hz =>
    refine ⟨fun _ => ?_, nofun, ?_, nofun⟩
    · have hshort := hearly (by rw [hp]; rfl)
      simp only [State.result, hshort]
    · rintro code (hc | hc)
      · cases hc
      · obtain rfl := Option.some.inj hc
        exact hended code (.inl hz)
  | waitpid_fails hp =>
    refine ⟨fun _ => ?_, nofun, hended, nofun⟩
    have hwaited := not_waited hi.ends hi.counted (by rw [hp]; rfl)
    simp only [State.result, hwaited]
  | @failWaitpid e hp hz =>
    refine ⟨nofun, ?_, ?_, nofun⟩
    · rintro code ⟨⟩
      exact .inl ⟨hprinted (by rw [hp]; rfl), rfl⟩
    · rintro code (hc | hc)
      · cases hc
      · obtain rfl := Option.some.inj hc
        exact hended code (.inl hz)
  | pipe_fails hp | fork_fails hp | failWaitpid_fails hp =>
    refine ⟨nofun, ?_, hended, nofun⟩
    rintro code ⟨⟩
    exact .inl ⟨hprinted (by rw [hp]; rfl), rfl⟩
  | readU64_fails v hp =>
    refine ⟨fun _ => ?_, nofun, hended, nofun⟩
    cases s.waited <;> rfl
  | @disable hw hp | @readU64 hw e hp =>
    have hst := hstatus (by rw [hp]; rfl)
    cases hw <;> exact ⟨fun _ => hst, nofun, hended, nofun⟩
  | disable_fails hp | print hp =>
    exact ⟨fun _ => hstatus (by rw [hp]; rfl), nofun, hended, nofun⟩
  | @closeEvent hw hp =>
    have hst := hstatus (by rw [hp]; rfl)
    have hpr := hi.gate.closing hw hp
    cases hw with
    | cycles => exact ⟨fun _ => hst, nofun, hended, nofun⟩
    | instructions =>
      refine ⟨nofun, ?_, hended, nofun⟩
      rintro code ⟨⟩
      exact .inr ⟨hpr, congrArg waitStatusToExit hst⟩
  | childExit hc =>
    refine ⟨hstatus, hret, ?_, hearly⟩
    rintro code (⟨⟨⟩⟩ | hcode)
    · exact .inr rfl
    · exact hended code (.inr hcode)
  | benchmarkExits code hc =>
    refine ⟨hstatus, hret, fun _ _ => .inl (hi.gate.benchmark hc), hearly⟩
  | childKill sig core hal =>
    refine ⟨hstatus, hret, ?_, hearly⟩
    rintro code (⟨⟨⟩⟩ | hcode)
    exact hended code (.inr hcode)
  | childExecve hc => exact ⟨hstatus, hret, fun _ _ => .inl rfl, hearly⟩
  | fork hp =>
    refine ⟨nofun, nofun, ?_, fun _ => hearly (by rw [hp]; rfl)⟩
    rintro code (⟨⟨⟩⟩ | hcode)
    exact hended code (.inr hcode)
  | tick | benchmarkTick | benchmarkStarts | otherTick => exact ⟨hstatus, hret, hended, hearly⟩
  | childCloseWr hc | childRead hc | childRead_eof hc | childRead_fails hc | childCloseRd hc
  | childExecve_fails hc =>
    refine ⟨hstatus, hret, ?_, hearly⟩
    rintro code (⟨⟨⟩⟩ | hcode)
    exact hended code (.inr hcode)
  | @openSelf hw hp | @openEvent hw hp | @reset hw hp | @enable hw hp | @failClose hw hp =>
    have hsh := hearly (by rw [hp]; rfl)
    cases hw <;> exact ⟨nofun, nofun, hended, fun _ => hsh⟩
  | openSelf_fails | execve_fails | printMach | write_pipe | ret | kill =>
    exact ⟨nofun, nofun, hended, nofun⟩
  | execve hp | pipe hp | closeRd hp | openEvent_fails hp | reset_fails hp | enable_fails hp
  | write hp | write_fails hp | closeWr hp | failCloseWr hp =>
    exact ⟨nofun, nofun, hended, fun _ => hearly (by rw [hp]; rfl)⟩

theorem outcome_init (cmd : Command) : Outcome (init cmd) := by
  refine ⟨?_, ?_, ?_, fun _ => rfl⟩
  · rcases cmd with _ | (_ | _) | _ <;> exact nofun
  · rcases cmd with _ | (_ | _) | _
    · exact nofun
    · rintro code ⟨⟩
      exact .inl ⟨rfl, rfl⟩
    · exact nofun
    · exact nofun
  · rintro code (hc | hc) <;> cases hc

theorem Reach.outcome (h : Reach args s) : Outcome s := by
  obtain ⟨as, hrun⟩ := h
  exact hrun.inv_of (J := Inv) (I := Outcome) inv_step outcome_step (inv_init _) (outcome_init _)

end PerfRun
