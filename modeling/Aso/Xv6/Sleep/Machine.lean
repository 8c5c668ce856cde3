import Aso.Transition
import Aso.Xv6.Param
import Mathlib.Data.Fin.Basic

/-! `sleep`, `wakeup`, `yield` and the scheduler of proc.c, one access to a lock or to the
process table at a time. Every CPU runs its scheduler or a process; `swtch` passes
`ptable.lock` from one to the other. Between calls a thread may do anything with locks,
and an interrupt handler may come wherever its CPU holds no lock, since `acquire` turns
interrupts off. A lock that is not free is spun on, so it is a step that cannot be
taken yet; a panic is one that can never be taken. -/
namespace Aso.Xv6.Sleep

abbrev Slot := Fin nproc
abbrev Cpu := Fin ncpu

inductive Lock where
  | ptable
  | other (k : Nat)
  deriving DecidableEq

inductive Procstate where
  | unused | sleeping | runnable | running
  deriving DecidableEq

inductive Thread where
  | scheduler (c : Cpu)
  | proc (p : Slot)
  deriving DecidableEq

/-- Where `sleep` is: before `acquire(&ptable.lock)`, `release(lk)`, the two stores,
`sched`, the tidying store, `release(&ptable.lock)` and `acquire(lk)`. -/
inductive SleepPc where
  | enter | drop | setChan | setState | sched | tidy | leave | reacquire
  deriving DecidableEq

inductive YieldPc where
  | enter | setState | sched | leave
  deriving DecidableEq

/-- A loop over the process table between taking `ptable.lock` and releasing it. -/
inductive LoopPc where
  | enter
  | scan (i : Nat)
  | leave
  deriving DecidableEq

/-- A call in progress. The calls of a process are numbered; `sleep` keeps its number. -/
inductive Frame where
  | sleep (pc : SleepPc) (chan : Nat) (lk : Lock) (n : Nat)
  | wakeup (pc : LoopPc) (chan : Nat)
  | wakeup1 (i : Nat) (chan : Nat)
  | yield (pc : YieldPc)
  | scheduler (pc : LoopPc)
  | forkret
  /-- An interrupt handler between calls. -/
  | handler
  deriving DecidableEq

/-- One access, by the thread that runs on a CPU. -/
inductive Op where
  | nop
  | lock (l : Lock)
  | unlock (l : Lock)
  /-- The caller holds the lock, as the callee expects. -/
  | holding (l : Lock)
  /-- The CPU holds no lock. -/
  | interruptible
  | setChan (chan : Nat)
  | setState (state : Procstate)
  /-- The body of the loop of `wakeup1`. -/
  | wake (i : Slot) (chan : Nat)
  /-- `sched`: the switch to the scheduler. -/
  | sched
  /-- The body of the loop of `scheduler`: the switch to a process. -/
  | dispatch (i : Slot)

/-- The next access of a call, and what is left of the call. -/
def Frame.next : Frame → Option (Op × List Frame)
  | .sleep .enter chan lk n => some (.lock .ptable, [.sleep .drop chan lk n])
  | .sleep .drop chan lk n => some (.unlock lk, [.sleep .setChan chan lk n])
  | .sleep .setChan chan lk n => some (.setChan chan, [.sleep .setState chan lk n])
  | .sleep .setState chan lk n => some (.setState .sleeping, [.sleep .sched chan lk n])
  | .sleep .sched chan lk n => some (.sched, [.sleep .tidy chan lk n])
  | .sleep .tidy chan lk n =>
    some (.setChan 0, if lk = .ptable then [] else [.sleep .leave chan lk n])
  | .sleep .leave chan lk n => some (.unlock .ptable, [.sleep .reacquire chan lk n])
  | .sleep .reacquire _ lk _ => some (.lock lk, [])
  | .wakeup .enter chan => some (.lock .ptable, [.wakeup (.scan 0) chan])
  | .wakeup (.scan i) chan =>
    if bound : i < nproc then some (.wake ⟨i, bound⟩ chan, [.wakeup (.scan (i + 1)) chan])
    else some (.nop, [.wakeup .leave chan])
  | .wakeup .leave _ => some (.unlock .ptable, [])
  | .wakeup1 i chan =>
    if bound : i < nproc then some (.wake ⟨i, bound⟩ chan, [.wakeup1 (i + 1) chan])
    else some (.nop, [])
  | .yield .enter => some (.lock .ptable, [.yield .setState])
  | .yield .setState => some (.setState .runnable, [.yield .sched])
  | .yield .sched => some (.sched, [.yield .leave])
  | .yield .leave => some (.unlock .ptable, [])
  | .scheduler .enter => some (.lock .ptable, [.scheduler (.scan 0)])
  | .scheduler (.scan i) =>
    if bound : i < nproc then some (.dispatch ⟨i, bound⟩, [.scheduler (.scan (i + 1))])
    else some (.nop, [.scheduler .leave])
  | .scheduler .leave => some (.unlock .ptable, [.scheduler .enter])
  | .forkret => some (.unlock .ptable, [])
  | .handler => none

/-- A call is followed by at most one. -/
theorem Frame.next_length {f : Frame} {op : Op} {frames : List Frame}
    (next : f.next = some (op, frames)) : frames.length ≤ 1 := by
  revert next
  fun_cases Frame.next f <;> rintro ⟨⟩
  case case6 => split <;> simp
  all_goals simp

structure State where
  state : Slot → Procstate
  chan : Slot → Nat
  /-- The locks each CPU holds; `ncli` is their number. -/
  held : Cpu → List Lock
  thread : Cpu → Thread
  code : Thread → List Frame
  /-- How many calls each process has made. -/
  calls : Slot → Nat

namespace State

def free (s : State) (l : Lock) : Prop := ∀ c, l ∉ s.held c

instance (s : State) (l : Lock) : Decidable (s.free l) :=
  inferInstanceAs (Decidable (∀ c, l ∉ s.held c))

def setHeld (s : State) (c : Cpu) (held : List Lock) : State :=
  { s with held := Function.update s.held c held }

def setState (s : State) (p : Slot) (state : Procstate) : State :=
  { s with state := Function.update s.state p state }

def exec (s : State) (c : Cpu) : Op → Option State
  | .nop => some s
  | .lock l => if s.free l then some (s.setHeld c (l :: s.held c)) else none
  | .unlock l => if l ∈ s.held c then some (s.setHeld c ((s.held c).erase l)) else none
  | .holding l => if l ∈ s.held c then some s else none
  | .interruptible => if s.held c = [] then some s else none
  | .setChan chan =>
    match s.thread c with
    | .proc p => some { s with chan := Function.update s.chan p chan }
    | .scheduler _ => none
  | .setState state =>
    match s.thread c with
    | .proc p => some (s.setState p state)
    | .scheduler _ => none
  | .wake i chan =>
    some (if s.state i = .sleeping ∧ s.chan i = chan then s.setState i .runnable else s)
  | .sched =>
    match s.thread c with
    | .proc p =>
      if s.held c = [.ptable] ∧ s.state p ≠ .running
        then some { s with thread := Function.update s.thread c (.scheduler c) }
      else none
    | .scheduler _ => none
  | .dispatch i =>
    some (if s.state i = .runnable
      then { s.setState i .running with thread := Function.update s.thread c (.proc i) } else s)

/-- The thread on `c` makes an access and goes on with `frames`. -/
def perform (s : State) (c : Cpu) (op : Op) (frames : List Frame) : Option State :=
  State.exec { s with code := Function.update s.code (s.thread c) frames } c op

end State

/-- What a thread between two calls may do. -/
inductive Call where
  | acquire (l : Lock)
  | release (l : Lock)
  | sleep (chan : Nat) (lk : Lock)
  | wakeup (chan : Nat)
  /-- Static in proc.c; its callers hold `ptable.lock`. -/
  | wakeup1 (chan : Nat)
  | yield

def Call.enter (n : Nat) : Call → Op × List Frame
  | .acquire l => (.lock l, [])
  | .release l => (.unlock l, [])
  -- without `lk` the call ends in a panic, of `release` or of `sched`
  | .sleep chan lk => (.holding lk, [.sleep (if lk = .ptable then .setChan else .enter) chan lk n])
  | .wakeup chan => (.nop, [.wakeup .enter chan])
  | .wakeup1 chan => (.holding .ptable, [.wakeup1 0 chan])
  | .yield => (.nop, [.yield .enter])

inductive Action where
  | go (c : Cpu)
  | call (c : Cpu) (call : Call)
  | interrupt (c : Cpu)
  | iret (c : Cpu)

/-- Nothing is called now: the thread is in its own code or in that of a handler. -/
def isClient : List Frame → Bool
  | [] | .handler :: _ => true
  | _ => false

/-- `myproc()` is 0 in a handler on a scheduler's stack: `sleep` panics there, and `trap`
does not call `yield`. -/
def Call.allowed (self : Thread) (call : Call) : Bool :=
  match self, call with
  | .scheduler _, .sleep _ _ | .scheduler _, .yield => false
  | _, _ => true

/-- The number of calls a thread has made; those of a scheduler are not counted. -/
def State.count (s : State) : Thread → Nat
  | .proc p => s.calls p
  | .scheduler _ => 0

/-- One more call. -/
def State.counted (s : State) (self : Thread) : State :=
  { s with calls := fun p => if self = .proc p then s.calls p + 1 else s.calls p }

def step (s : State) : Action → Option State
  | .go c =>
    match s.code (s.thread c) with
    | [] => none
    | f :: rest => f.next.bind fun (op, frames) => s.perform c op (frames ++ rest)
  | .call c call =>
    let self := s.thread c
    if isClient (s.code self) ∧ call.allowed self then
      let (op, frames) := call.enter (s.count self)
      (s.counted self).perform c op (frames ++ s.code self)
    else none
  | .interrupt c => s.perform c .interruptible (.handler :: s.code (s.thread c))
  | .iret c =>
    match s.code (s.thread c) with
    | .handler :: rest => s.perform c .interruptible rest
    | _ => none

/-- The schedulers start, with some processes ready to run for the first time. -/
def boot (ready : Slot → Bool) : State where
  state p := if ready p then .runnable else .unused
  chan _ := 0
  held _ := []
  thread := .scheduler
  code
    | .scheduler _ => [.scheduler .enter]
    | .proc p => if ready p then [.forkret] else []
  calls _ := 0

end Aso.Xv6.Sleep
