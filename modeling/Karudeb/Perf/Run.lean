import Karudeb.Lib.Lts
import Mathlib

/-!
# The benchmark helper

`perf_run`, with every order in which it, the child it forks, the tasks that the benchmark
starts and the kernel can take their steps, and with every system call that can fail.

* `main` : what the command line asks for.
* `openHwEvent`, `waitStatusToExit` : the two helpers of its protocol.
* `Parent`, `Child` : where the two processes stand, statement by statement.
* `Step` : one step of either process, of the benchmark, or a fault.
-/

namespace PerfRun

/-! ## Performance events -/

/-- `PERF_COUNT_HW_CPU_CYCLES` and `PERF_COUNT_HW_INSTRUCTIONS`. -/
inductive Hw
  | cycles
  | instructions
  deriving DecidableEq, Repr

/-- For both counters in turn, and then `k`. -/
def Hw.next {α : Type} (each : Hw → α) (k : α) : Hw → α
  | .cycles => each .instructions
  | .instructions => k

/-- The process an event is opened on: the caller (`pid` 0) or its child. -/
inductive Pid
  | self
  | child
  deriving DecidableEq, Repr

/-- A task: the first one of a process, or one that it has started, be it a thread or a
process of its own. -/
inductive Task
  | first (pid : Pid)
  | startedBy (pid : Pid)
  deriving DecidableEq, Repr

/-- What the processor is in while it executes an instruction. -/
inductive Mode
  | user
  | kernel
  | hv
  | idle
  deriving DecidableEq, Repr

/-- `struct perf_event_attr`, with the process the event is opened on. -/
structure Attr where
  config : Hw
  pid : Pid
  disabled : Bool
  inherit : Bool
  excludeKernel : Bool
  excludeHv : Bool
  excludeIdle : Bool
  deriving DecidableEq, Repr

/-- `open_hw_event`: what it passes to `perf_event_open`.  The rest of the structure is 0. -/
def openHwEvent (config : Hw) (pid : Pid) (disabled userOnly : Bool) : Attr where
  config := config
  pid := pid
  disabled := disabled
  inherit := false
  excludeKernel := userOnly
  excludeHv := userOnly
  excludeIdle := userOnly

/-- Does an event with these attributes count what this task executes? -/
def Attr.covers (attr : Attr) : Task → Bool
  | .first pid => decide (attr.pid = pid)
  | .startedBy pid => attr.inherit && decide (attr.pid = pid)

/-- Does an event with these attributes count what is executed in this mode? -/
def Attr.counts (attr : Attr) : Mode → Bool
  | .user => true
  | .kernel => !attr.excludeKernel
  | .hv => !attr.excludeHv
  | .idle => !attr.excludeIdle

/-- What an instruction of `c` cycles adds to a counter. -/
def Hw.amount (c : ℕ) : Hw → ℕ
  | .cycles => c
  | .instructions => 1

/-- What an instruction adds to the number of those in user mode. -/
def userAmount (mode : Mode) (c : ℕ) (hw : Hw) : ℕ := if mode = .user then hw.amount c else 0

/-- An open event, as the kernel keeps it. -/
structure Event where
  attr : Attr
  enabled : Bool
  count : ℕ
  deriving DecidableEq, Repr

def Event.new (attr : Attr) : Event := ⟨attr, !attr.disabled, 0⟩

/-- `PERF_EVENT_IOC_RESET`. -/
def Event.reset (e : Event) : Event := { e with count := 0 }

/-- `PERF_EVENT_IOC_ENABLE`. -/
def Event.enable (e : Event) : Event := { e with enabled := true }

/-- `PERF_EVENT_IOC_DISABLE`. -/
def Event.disable (e : Event) : Event := { e with enabled := false }

/-- A task executes an instruction of `c` cycles. -/
def Event.tick (task : Task) (mode : Mode) (c : ℕ) (e : Event) : Event :=
  if e.enabled && e.attr.covers task && e.attr.counts mode then
    { e with count := e.count + e.attr.config.amount c }
  else e

/-! ## Wait status -/

/-- How a process ends: with `_exit`, or by the signal `sig + 1`. -/
inductive End
  | exited (code : Fin 256)
  | signaled (sig : Fin 64) (core : Bool)
  deriving DecidableEq, Repr

/-- The status that `waitpid` stores. -/
def End.status : End → ℕ
  | .exited code => code.val <<< 8
  | .signaled sig core => (sig.val + 1) ||| if core then 0x80 else 0

def exitFailure : ℕ := 1

/-- `wait_status_to_exit`. -/
def waitStatusToExit (status : ℕ) : ℕ :=
  if status &&& 0x7f = 0 then (status >>> 8) &&& 0xff
  else if status &&& 0x7f ≠ 0x7f then 128 + (status &&& 0x7f)
  else exitFailure

/-! ## The command line -/

/-- What `main` does with its arguments, `argv[0]` left out. -/
inductive Command
  | help
  | userCount (argv : List String)
  | raw (argv : List String)
  deriving DecidableEq, Repr

/-- `main`, up to where it opens the first event or enters `run_user_count`. -/
def main : List String → Command
  | [] => .raw []
  | arg :: argv =>
    if arg = "--help" then .help
    else if arg = "--user-count" ∨ arg = "--perf-user" then
      .userCount (if argv.head? = some "--" then argv.tail else argv)
    else .raw (arg :: argv)

/-! ## The two processes -/

/-- What `perf_run` is about to do.  `ret` is where `run_user_count` has returned. -/
inductive Parent
  | openSelf (hw : Hw)
  | opened
  | image
  | pipe
  | fork
  | closeRd
  | openEvent (hw : Hw)
  | reset (hw : Hw)
  | enable (hw : Hw)
  | write
  | closeWr
  | waitpid
  | disable (hw : Hw)
  | readU64 (hw : Hw)
  | print
  | closeEvent (hw : Hw)
  | failCloseWr
  | failClose (hw : Hw)
  | failWaitpid
  | ret (code : ℕ)
  | exited (code : ℕ)
  | killed
  deriving DecidableEq, Repr

/-- What the child is about to do. -/
inductive Child
  | unborn
  | closeWr
  | read
  | closeRd
  | execve
  | benchmark
  | exit127
  | zombie (e : End)
  | reaped
  deriving DecidableEq, Repr

def Child.alive : Child → Bool
  | .unborn | .zombie _ | .reaped => false
  | _ => true

/-- The two processes, `sync_pipe`, and the variables of `run_user_count`.

The last seven fields are not in the source: what the child executed in user mode, itself
and as the benchmark, whether it ever became the benchmark, whether the benchmark has
started tasks and what these executed, what a successful `waitpid` found, and whether a
`read_u64` failed. -/
structure State where
  argv : List String
  parent : Parent
  child : Child
  /-- The ends of `sync_pipe` that `perf_run` holds open. -/
  rd : Bool
  wr : Bool
  /-- The ends that the child holds open. -/
  childRd : Bool
  childWr : Bool
  /-- Is there a byte in the pipe? -/
  full : Bool
  /-- `fd_cycles` and `fd_instret`. -/
  fd : Hw → Option Event
  status : ℕ
  /-- `cycles` and `instret`. -/
  value : Hw → ℕ
  printed : Option (Hw → ℕ)
  own : Hw → ℕ
  bench : Hw → ℕ
  execed : Bool
  started : Bool
  others : Hw → ℕ
  waited : Option End
  short : Bool

/-- Where `perf_run` stands after `main` has looked at the command line. -/
def Command.start : Command → Parent
  | .help => .exited 0
  | .userCount [] => .ret exitFailure
  | .userCount (_ :: _) => .pipe
  | .raw _ => .openSelf .cycles

def Command.argv : Command → List String
  | .help => []
  | .userCount argv => argv
  | .raw argv => argv

def init (cmd : Command) : State where
  argv := cmd.argv
  parent := cmd.start
  child := .unborn
  rd := false
  wr := false
  childRd := false
  childWr := false
  full := false
  fd := fun _ => none
  status := 0
  value := fun _ => 0
  printed := none
  own := fun _ => 0
  bench := fun _ => 0
  execed := false
  started := false
  others := fun _ => 0
  waited := none
  short := false

/-- The end of `perf_run`: the kernel closes what it holds. -/
def State.leave (s : State) (p : Parent) : State :=
  { s with parent := p, rd := false, wr := false, fd := fun _ => none }

/-- The end of the child. -/
def State.childEnds (s : State) (e : End) : State :=
  { s with child := .zombie e, childRd := false, childWr := false }

def State.setFd (s : State) (hw : Hw) (e : Option Event) : State :=
  { s with fd := Function.update s.fd hw e }

/-- What happens in a step: `perf_run` or the child goes on, a system call fails or a
process is killed, or the child or a task of the benchmark executes an instruction. -/
inductive Act
  | parent
  | child
  | fault
  | tick
  deriving DecidableEq, Repr

/-- Is this a step of the protocol, and not an instruction of the child or the benchmark? -/
def Act.moves (a : Act) : Bool := decide (a ≠ .tick)

/-- One step. -/
inductive Step : State → Act → State → Prop
  -- `main`, without `--user-count`
  | openSelf {s hw} : s.parent = .openSelf hw →
      Step s .parent { s.setFd hw (some (.new (openHwEvent hw .self false false))) with
        parent := hw.next .openSelf .opened }
  | openSelf_fails {s hw} : s.parent = .openSelf hw → Step s .fault (s.leave (.exited exitFailure))
  | execve {s} : s.parent = .opened → s.argv ≠ [] → Step s .parent { s with parent := .image }
  | execve_fails {s} : s.parent = .opened → s.argv ≠ [] →
      Step s .fault (s.leave (.exited exitFailure))
  | printMach {s} : s.parent = .opened → s.argv = [] → Step s .parent (s.leave (.exited 0))
  -- `run_user_count`
  | pipe {s} : s.parent = .pipe → Step s .parent { s with parent := .fork, rd := true, wr := true }
  | pipe_fails {s} : s.parent = .pipe → Step s .fault { s with parent := .ret exitFailure }
  | fork {s} : s.parent = .fork →
      Step s .parent
        { s with parent := .closeRd, child := .closeWr, childRd := s.rd, childWr := s.wr }
  | fork_fails {s} : s.parent = .fork →
      Step s .fault { s with parent := .ret exitFailure, rd := false, wr := false }
  | closeRd {s} : s.parent = .closeRd →
      Step s .parent { s with parent := .openEvent .cycles, rd := false }
  | openEvent {s hw} : s.parent = .openEvent hw →
      Step s .parent { s.setFd hw (some (.new (openHwEvent hw .child true true))) with
        parent := hw.next .openEvent (.reset .cycles) }
  | openEvent_fails {s hw} : s.parent = .openEvent hw →
      Step s .fault { s with parent := .failCloseWr }
  | reset {s hw} : s.parent = .reset hw →
      Step s .parent { s.setFd hw ((s.fd hw).map .reset) with
        parent := hw.next .reset (.enable .cycles) }
  | reset_fails {s hw} : s.parent = .reset hw → Step s .fault { s with parent := .failCloseWr }
  | enable {s hw} : s.parent = .enable hw →
      Step s .parent { s.setFd hw ((s.fd hw).map .enable) with
        parent := hw.next .enable .write }
  | enable_fails {s hw} : s.parent = .enable hw → Step s .fault { s with parent := .failCloseWr }
  | write {s} : s.parent = .write → (s.rd || s.childRd) = true →
      Step s .parent { s with parent := .closeWr, full := true }
  | write_fails {s} : s.parent = .write → Step s .fault { s with parent := .failCloseWr }
  -- `SIGPIPE`: no process can read what is written
  | write_pipe {s} : s.parent = .write → (s.rd || s.childRd) = false → Step s .parent (s.leave .killed)
  | closeWr {s} : s.parent = .closeWr → Step s .parent { s with parent := .waitpid, wr := false }
  | waitpid {s e} : s.parent = .waitpid → s.child = .zombie e →
      Step s .parent { s with
        parent := .disable .cycles, child := .reaped, status := e.status, waited := some e }
  | waitpid_fails {s} : s.parent = .waitpid →
      Step s .fault { s with parent := .disable .cycles, status := exitFailure }
  | disable {s hw} : s.parent = .disable hw →
      Step s .parent { s.setFd hw ((s.fd hw).map .disable) with
        parent := hw.next .disable (.readU64 .cycles) }
  | disable_fails {s hw} : s.parent = .disable hw →
      Step s .fault { s with parent := .readU64 .cycles }
  | readU64 {s hw e} : s.parent = .readU64 hw → s.fd hw = some e →
      Step s .parent { s with
        parent := hw.next .readU64 .print, value := Function.update s.value hw (e.count % 2 ^ 64) }
  -- a short read leaves anything in the variable
  | readU64_fails {s hw} (v : ℕ) : s.parent = .readU64 hw →
      Step s .fault { s with
        parent := .print, value := Function.update s.value hw v, status := exitFailure,
        short := true }
  | print {s} : s.parent = .print →
      Step s .parent { s with parent := .closeEvent .cycles, printed := some s.value }
  | closeEvent {s hw} : s.parent = .closeEvent hw →
      Step s .parent { s.setFd hw none with
        parent := hw.next .closeEvent (.ret (waitStatusToExit s.status)) }
  -- `fail_child`
  | failCloseWr {s} : s.parent = .failCloseWr →
      Step s .parent { s with parent := .failClose .cycles, wr := false }
  | failClose {s hw} : s.parent = .failClose hw →
      Step s .parent { s.setFd hw none with parent := hw.next .failClose .failWaitpid }
  | failWaitpid {s e} : s.parent = .failWaitpid → s.child = .zombie e →
      Step s .parent { s with
        parent := .ret exitFailure, child := .reaped, status := e.status, waited := some e }
  | failWaitpid_fails {s} : s.parent = .failWaitpid →
      Step s .fault { s with parent := .ret exitFailure }
  | ret {s code} : s.parent = .ret code → Step s .parent (s.leave (.exited code))
  -- a signal can end `perf_run` as long as it runs
  | kill {s} : (∀ code, s.parent ≠ .exited code) → s.parent ≠ .image → s.parent ≠ .killed →
      Step s .fault (s.leave .killed)
  -- the child
  | childCloseWr {s} : s.child = .closeWr →
      Step s .child { s with child := .read, childWr := false }
  | childRead {s} : s.child = .read → s.full = true →
      Step s .child { s with child := .closeRd, full := false }
  -- end of file: no process can write any more
  | childRead_eof {s} : s.child = .read → s.full = false → (s.wr || s.childWr) = false →
      Step s .child { s with child := .exit127 }
  | childRead_fails {s} : s.child = .read → Step s .fault { s with child := .exit127 }
  | childCloseRd {s} : s.child = .closeRd →
      Step s .child { s with child := .execve, childRd := false }
  | childExecve {s} : s.child = .execve →
      Step s .child { s with child := .benchmark, execed := true }
  | childExecve_fails {s} : s.child = .execve → Step s .fault { s with child := .exit127 }
  | childExit {s} : s.child = .exit127 → Step s .child (s.childEnds (.exited 127))
  | benchmarkExits {s} (code : Fin 256) : s.child = .benchmark →
      Step s .child (s.childEnds (.exited code))
  | childKill {s} (sig : Fin 64) (core : Bool) : s.child.alive = true →
      Step s .fault (s.childEnds (.signaled sig core))
  -- an instruction of the child
  | tick {s} (mode : Mode) (c : ℕ) : s.child.alive = true → s.child ≠ .benchmark →
      Step s .tick { s with
        fd := fun hw => (s.fd hw).map (.tick (.first .child) mode c)
        own := fun hw => s.own hw + userAmount mode c hw }
  | benchmarkTick {s} (mode : Mode) (c : ℕ) : s.child = .benchmark →
      Step s .tick { s with
        fd := fun hw => (s.fd hw).map (.tick (.first .child) mode c)
        bench := fun hw => s.bench hw + userAmount mode c hw }
  -- the benchmark starts a task, which may outlive it
  | benchmarkStarts {s} : s.child = .benchmark → Step s .tick { s with started := true }
  | otherTick {s} (mode : Mode) (c : ℕ) : s.started = true →
      Step s .tick { s with
        fd := fun hw => (s.fd hw).map (.tick (.startedBy .child) mode c)
        others := fun hw => s.others hw + userAmount mode c hw }

/-- `s` can be reached from the start of `perf_run` on this command line. -/
def Reach (args : List String) (s : State) : Prop := ∃ as, Lts.Run Step (init (main args)) as s

end PerfRun
