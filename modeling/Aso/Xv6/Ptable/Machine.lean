import Aso.Transition
import Aso.Xv6.Param
import Mathlib.Data.List.FinRange

/-! Process life cycle: `fork`, `exit`, `wait` and `kill` of proc.c under the
paths of trap.c that lead into them. A section under `ptable.lock` is one step
and every access outside the lock is a step of its own; steps of different
processes interleave freely. The history fields number the incarnations of the
slots and record what each passed to `exit` and what `wait` reported. -/
namespace Aso.Xv6.Ptable

abbrev Slot := Fin nproc

inductive Procstate where
  | unused | embryo | sleeping | runnable | running | zombie
  deriving DecidableEq

/-- Sleep channels: `wait` sleeps on the process itself. -/
inductive Chan where
  | proc (p : Slot)
  | other (k : Nat)
  deriving DecidableEq

structure Proc where
  state : Procstate
  pid : Int
  parent : Option Slot
  chan : Option Chan
  killed : Bool
  /-- The 32 bits of `int status`. -/
  status : Nat
  deriving DecidableEq

inductive Syscall where
  | fork
  | exit (n : Int)
  | wait
  | kill (pid : Int)
  /-- Any other call, and calls whose arguments are refused. -/
  | other
  deriving DecidableEq

/-- Why `exit` was called. -/
inductive How where
  | exited (n : Int)
  | trapped (trapno : Nat)
  | killedAtSyscall
  deriving DecidableEq

inductive Pc where
  /-- No thread: the slot is unused or still an embryo. -/
  | absent
  | user
  /-- `trap` with `T_SYSCALL`: before the first test of
  `killed`, in `syscall`, before the second. -/
  | sysEntry (call : Syscall)
  | sysBody (call : Syscall)
  | sysReturn
  /-- `trap` from user mode: in the switch, before the first
  test, before `yield`, before the second test. -/
  | trapBody (trapno : Nat)
  | trapCheck (trapno : Nat)
  | trapYield (trapno : Nat)
  | trapRecheck (trapno : Nat)
  /-- `exit`: before the store of `status`, before the locked part, in the scheduler for good. -/
  | exitStore (status : Nat) (how : How)
  | exiting
  | dead
  /-- `fork`: before the kernel stack, before `copyuvm`, before
  the store of `parent`, before the locked part. -/
  | forkStack (np : Slot)
  | forkCopy (np : Slot)
  | forkParent (np : Slot)
  | forkStart (np : Slot)
  /-- `wait`: reaped `p`, incarnation `child`, and released
  the lock; `p->status` is still to be read. -/
  | waitRead (p : Slot) (pid : Int) (child : Nat)
  deriving DecidableEq

/-- Kernel code that reads or writes user memory at this point. -/
def Pc.touchesUser : Pc → Bool
  | .sysBody _ | .waitRead _ _ _ => true
  | _ => false

structure Exit where
  pid : Int
  status : Nat
  how : How
  deriving DecidableEq

structure Report where
  child : Nat
  pid : Int
  st : Nat
  deriving DecidableEq

structure State where
  proc : Slot → Proc
  initproc : Slot
  nextpid : Int
  pc : Slot → Pc
  panicked : Bool
  /-- Incarnation held by each slot, and the next number to hand out. -/
  uid : Slot → Nat
  nextUid : Nat
  /-- The call of `exit` of each incarnation, and everything `wait` returned. -/
  exits : Nat → Option Exit
  reports : List Report

def blank : Proc := ⟨.unused, 0, none, none, false, 0⟩

/-- After `userinit`: the first slot holds the initial process. -/
def userinit : State where
  proc := Function.update (fun _ => blank) 0 { blank with state := .runnable, pid := 1 }
  initproc := 0
  nextpid := 2
  pc := Function.update (fun _ => .absent) 0 .user
  panicked := false
  uid := Fin.val
  nextUid := nproc
  exits := fun _ => none
  reports := []

def tIrq0 : Nat := 32
def irqTimer : Nat := 0
def tSyscall : Nat := 64

/-- The interrupts that `trap` handles without touching `killed`: timer, keyboard,
serial line, disk, and the spurious ones. -/
def isIrq (trapno : Nat) : Bool :=
  trapno ∈ [tIrq0 + irqTimer, tIrq0 + 1, tIrq0 + 4, tIrq0 + 7, tIrq0 + 14, tIrq0 + 15, tIrq0 + 31]

inductive Action where
  | schedule (p : Slot)
  /-- A clock tick while `p` runs in the kernel. -/
  | preempt (p : Slot)
  | block (p : Slot) (k : Nat)
  | unblock (k : Nat)
  | syscall (p : Slot) (call : Syscall)
  | trap (p : Slot) (trapno : Nat)
  /-- A page fault of kernel code on a user address that cannot be served. -/
  | kernelFault (p : Slot)
  /-- The next step of `p`; `ok` is whether the allocation or page it needs can be had. -/
  | go (p : Slot) (ok : Bool)
  deriving DecidableEq

namespace State

def setProc (s : State) (p : Slot) (q : Proc) : State :=
  { s with proc := Function.update s.proc p q }

def setPc (s : State) (p : Slot) (c : Pc) : State := { s with pc := Function.update s.pc p c }

def setState (s : State) (p : Slot) (st : Procstate) : State :=
  s.setProc p { s.proc p with state := st }

def setKilled (s : State) (p : Slot) : State := s.setProc p { s.proc p with killed := true }

/-- `wakeup1(chan)`. -/
def wakeup1 (s : State) (chan : Chan) : State :=
  { s with proc := fun q =>
      if (s.proc q).state = .sleeping ∧
      (s.proc q).chan = some chan then { s.proc q with state := .runnable } else s.proc q }

def first (select : Slot → Bool) : Option Slot := (List.finRange nproc).find? select

/-- The locked part of `allocproc`. -/
def allocproc (s : State) : Option (Slot × State) :=
  match first fun q => (s.proc q).state = .unused with
  | none => none
  | some np => some (np,
      { s.setProc np { s.proc np with state := .embryo, pid := s.nextpid } with
        nextpid := s.nextpid + 1
        uid := Function.update s.uid np s.nextUid
        nextUid := s.nextUid + 1 })

/-- The locked part of `kill`: the first slot with that pid, whatever its state. -/
def kill (s : State) (pid : Int) : State :=
  match first fun q => (s.proc q).pid = pid with
  | none => s
  | some q =>
    let killed := { s.proc q with killed := true }
    s.setProc q (if killed.state = .sleeping then { killed with state := .runnable } else killed)

def zombieChild (s : State) (p : Slot) : Option Slot :=
  first fun q => (s.proc q).parent = some p ∧ (s.proc q).state = .zombie

/-- One scan of `wait` under the lock, up to the release or the sleep. -/
def waitScan (s : State) (p : Slot) : State :=
  match s.zombieChild p with
  | some q =>
    let reaped := { s.proc q with pid := 0, parent := none, killed := false, state := .unused }
    ((s.setProc q reaped).setPc q .absent).setPc p (.waitRead q (s.proc q).pid (s.uid q))
  | none =>
    match first fun q => (s.proc q).parent = some p with
    | none => s.setPc p .sysReturn
    | some _ =>
      if (s.proc p).killed then s.setPc p .sysReturn
      else s.setProc p { s.proc p with chan := some (.proc p), state := .sleeping }

/-- Pass the abandoned children of `p` to init, waking it for a zombie among them. -/
def reparent (s : State) (p : Slot) : State :=
  let orphans := { s with proc := fun q =>
    if (s.proc q).parent = some p then { s.proc q with parent := some s.initproc } else s.proc q }
  match s.zombieChild p with
  | none => orphans
  | some _ => orphans.wakeup1 (.proc s.initproc)

/-- The parent might be sleeping in `wait`. -/
def wakeParent (s : State) (p : Slot) : State :=
  match (s.proc p).parent with
  | none => s
  | some parent => s.wakeup1 (.proc parent)

/-- The locked part of `exit`. -/
def finishExit (s : State) (p : Slot) : State :=
  (((s.wakeParent p).reparent p).setState p .zombie).setPc p .dead

/-- `sys_exit` shifts its argument into the second byte. -/
def exitStatus (n : Int) : Nat := (n * 256 % 2 ^ 32).toNat

def exec (s : State) (p : Slot) (ok : Bool) : Pc → Option State
  | .absent | .user | .dead => none
  | .sysEntry call =>
    some (s.setPc p (if (s.proc p).killed then .exitStore 0 .killedAtSyscall else .sysBody call))
  | .sysBody .fork =>
    match s.allocproc with
    | none => some (s.setPc p .sysReturn)
    | some (np, s) => some (s.setPc p (.forkStack np))
  | .sysBody (.exit n) => some (s.setPc p (.exitStore (exitStatus n) (.exited n)))
  | .sysBody .wait => some (s.waitScan p)
  | .sysBody (.kill pid) => some ((s.kill pid).setPc p .sysReturn)
  | .sysBody .other => some (s.setPc p .sysReturn)
  | .sysReturn =>
    some (s.setPc p (if (s.proc p).killed then .exitStore 0 .killedAtSyscall else .user))
  | .trapBody trapno =>
    let next := s.setPc p (.trapCheck trapno)
    some (if isIrq trapno || (trapno = tPgflt && ok) then next else next.setKilled p)
  | .trapCheck trapno =>
    some (s.setPc p (if (s.proc p).killed then .exitStore (trapno + 1) (.trapped trapno)
      else .trapYield trapno))
  | .trapYield trapno =>
    let next := s.setPc p (.trapRecheck trapno)
    some (if trapno = tIrq0 + irqTimer then next.setState p .runnable else next)
  | .trapRecheck trapno =>
    some (s.setPc p (if (s.proc p).killed then .exitStore (trapno + 1) (.trapped trapno)
      else .user))
  | .exitStore status how =>
    let stored := { (s.setProc p { s.proc p with status := status }).setPc p .exiting with
      exits := Function.update s.exits (s.uid p) (some ⟨(s.proc p).pid, status, how⟩) }
    some (if p = s.initproc then { stored with panicked := true } else stored)
  | .exiting => some (s.finishExit p)
  | .forkStack np =>
    some (if ok then s.setPc p (.forkCopy np) else (s.setState np .unused).setPc p .sysReturn)
  | .forkCopy np =>
    some (if ok then s.setPc p (.forkParent np) else (s.setState np .unused).setPc p .sysReturn)
  | .forkParent np =>
    some ((s.setProc np { s.proc np with parent := some p }).setPc p (.forkStart np))
  | .forkStart np => some (((s.setState np .runnable).setPc np .user).setPc p .sysReturn)
  | .waitRead q pid child =>
    some { s.setPc p .sysReturn with reports := s.reports ++ [⟨child, pid, (s.proc q).status⟩] }

def isRunning (s : State) (p : Slot) : Bool := !s.panicked && (s.proc p).state = .running

def step (s : State) : Action → Option State
  | .schedule p =>
    if s.panicked = false ∧ (s.proc p).state = .runnable then some (s.setState p .running) else none
  | .preempt p => if s.isRunning p ∧ s.pc p ≠ .user then some (s.setState p .runnable) else none
  | .block p k =>
    if s.isRunning p ∧ (s.pc p = .sysBody .other ∨ s.pc p = .exiting) then
      some (s.setProc p { s.proc p with chan := some (.other k), state := .sleeping })
    else none
  | .unblock k => if s.panicked then none else some (s.wakeup1 (.other k))
  | .syscall p call =>
    if s.isRunning p ∧ s.pc p = .user then some (s.setPc p (.sysEntry call)) else none
  -- exceptions and unmasked interrupts lie below `tSyscall`, the only gate user code may invoke
  -- itself
  | .trap p trapno =>
    if s.isRunning p ∧ s.pc p = .user ∧
      trapno < tSyscall then some (s.setPc p (.trapBody trapno)) else none
  | .kernelFault p =>
    if s.isRunning p ∧ (s.pc p).touchesUser then some (s.setKilled p) else none
  | .go p ok => if s.isRunning p then s.exec p ok (s.pc p) else none

end State
end Aso.Xv6.Ptable
