import Aso.Transition
import Aso.Xv6.Param
import Mathlib.Data.List.Dedup

/-! The concurrent half of log.c. Any number of processes call `begin_op`,
`log_write` and `end_op`; a section under `log.lock` is one step, and so is
each access outside it: the two tests at the top of `log_write` and every
block write of `commit`, which runs without the lock. History fields record
what the operations logged and what the commits wrote; no step reads them. -/
namespace Aso.Xv6.Log

inductive Pc where
  | idle
  /-- In the loop of `begin_op`, about to test for room under the lock. -/
  | entering
  /-- Asleep on `&log` in `begin_op`. -/
  | sleeping
  | running
  /-- In `log_write`, past the test for a too big transaction. -/
  | sized (b : Nat)
  /-- In `log_write`, past both unlocked tests. -/
  | tested (b : Nat)
  | commit
  | writeLog (tail : Nat)
  | writeHead
  | install (tail : Nat)
  | clearHead
  | finish
  deriving DecidableEq

inductive Panic where
  | tooBig
  | outsideTrans
  | committing
  /-- A store past the end of `lh.block`: the C program has no further meaning. -/
  | overflow
  deriving DecidableEq

/-- What one commit covered and what it wrote, home block numbers in order. -/
structure Commit where
  ops : List (List Nat)
  copied : List Nat
  header : List Nat
  installed : List Nat
  deriving DecidableEq

def Commit.start (ops : List (List Nat)) : Commit := ⟨ops, [], [], []⟩

structure State where
  size : Nat
  outstanding : Int
  committing : Bool
  lh : List Nat
  pc : Nat → Pc
  panic : Option Panic
  /-- Blocks logged so far by the operation each process is in. -/
  logged : Nat → List Nat
  /-- Blocks passed to `log_write` since the last commit. -/
  since : List Nat
  /-- The operations that ended since the last commit, and all that ever ended. -/
  ended : List (List Nat)
  history : List (List Nat)
  current : Commit
  commits : List Commit

/-- After `initlog` on a log of `size` blocks, header included. -/
def initlog (size : Nat) : State :=
  ⟨size, 0, false, [], fun _ => .idle, none, fun _ => [], [], [], [], .start [], []⟩

inductive Action where
  | beginOp (p : Nat)
  | logWrite (p b : Nat)
  | endOp (p : Nat)
  /-- The next step of the call that `p` is in. -/
  | go (p : Nat)
  deriving DecidableEq

namespace State

def setPc (s : State) (p : Nat) (c : Pc) : State := { s with pc := Function.update s.pc p c }

@[simp] theorem setPc_lh (s : State) (p : Nat) (c : Pc) : (s.setPc p c).lh = s.lh := rfl

def panics (s : State) (reason : Panic) : State := { s with panic := some reason }

/-- `wakeup(&log)`. -/
def wakeup (s : State) : State :=
  { s with pc := fun q => if s.pc q = .sleeping then .entering else s.pc q }

/-- One round of the loop in `begin_op`. -/
def enter (s : State) (p : Nat) : State :=
  if s.committing then s.setPc p .sleeping
  else if (s.lh.length : Int) + (s.outstanding + 1) * maxOpBlocks > logSize then s.setPc p .sleeping
  else { s.setPc p .running with outstanding := s.outstanding + 1 }

/-- The first, unlocked test of `log_write`. -/
def testSize (s : State) (p b : Nat) : State :=
  if s.lh.length ≥ logSize ∨ (s.lh.length : Int) ≥ (s.size : Int) - 1 then s.panics .tooBig
  else s.setPc p (.sized b)

def testOutstanding (s : State) (p b : Nat) : State :=
  if s.outstanding < 1 then s.panics .outsideTrans else s.setPc p (.tested b)

/-- The locked part of `log_write`: absorb `b` or append it. -/
def absorb (s : State) (p b : Nat) : State :=
  if b ∈ s.lh then
    { s.setPc p .running with
      logged := Function.update s.logged p (s.logged p ++ [b]), since := s.since ++ [b] }
  else if s.lh.length ≥ logSize then s.panics .overflow
  else
    { s.setPc p .running with
      lh := s.lh ++ [b]
      logged := Function.update s.logged p (s.logged p ++ [b])
      since := s.since ++ [b] }

/-- The locked part of `end_op`. -/
def leave (s : State) (p : Nat) : State :=
  let out := s.outstanding - 1
  let ended := s.ended ++ [s.logged p]
  if s.committing then { s with outstanding := out }.panics .committing
  else if out = 0 then
    { s.setPc p .commit with
      outstanding := out, committing := true
      logged := Function.update s.logged p []
      since := [], ended := [], history := s.history ++ [s.logged p], current := .start ended }
  else
    { (s.setPc p .idle).wakeup with
      outstanding := out
      logged := Function.update s.logged p []
      ended := ended, history := s.history ++ [s.logged p] }

/-- One step of `commit`, up to and including the last locked section of `end_op`. -/
def commitStep (s : State) (p : Nat) : Pc → Option State
  | .commit => some (s.setPc p (if 0 < s.lh.length then .writeLog 0 else .finish))
  | .writeLog tail =>
    match s.lh[tail]? with
    | some b => some { s.setPc p (.writeLog (tail + 1)) with
        current := { s.current with copied := s.current.copied ++ [b] } }
    | none => some (s.setPc p .writeHead)
  | .writeHead => some { s.setPc p (.install 0) with current := { s.current with header := s.lh } }
  | .install tail =>
    match s.lh[tail]? with
    | some b => some { s.setPc p (.install (tail + 1)) with
        current := { s.current with installed := s.current.installed ++ [b] } }
    | none => some { s.setPc p .clearHead with lh := [] }
  | .clearHead => some (s.setPc p .finish)
  | .finish => some { (s.setPc p .idle).wakeup with
      committing := false, current := .start [], commits := s.commits ++ [s.current] }
  | _ => none

def step (s : State) : Action → Option State
  | .beginOp p => if s.panic = none ∧ s.pc p = .idle then some (s.setPc p .entering) else none
  | .logWrite p b => if s.panic = none ∧ s.pc p = .running then some (s.testSize p b) else none
  | .endOp p => if s.panic = none ∧ s.pc p = .running then some (s.leave p) else none
  | .go p =>
    if s.panic ≠ none then none
    else match s.pc p with
      | .entering => some (s.enter p)
      | .sized b => some (s.testOutstanding p b)
      | .tested b => some (s.absorb p b)
      | c => s.commitStep p c

/-- The steps and where they are taken. -/
inductive Stepped (s : State) : Action → State → Prop where
  | beginOp {p : Nat} (here : s.pc p = .idle) : Stepped s (.beginOp p) (s.setPc p .entering)
  | logWrite {p b : Nat} (here : s.pc p = .running) : Stepped s (.logWrite p b) (s.testSize p b)
  | endOp {p : Nat} (here : s.pc p = .running) : Stepped s (.endOp p) (s.leave p)
  | enter {p : Nat} (here : s.pc p = .entering) : Stepped s (.go p) (s.enter p)
  | sized {p b : Nat} (here : s.pc p = .sized b) : Stepped s (.go p) (s.testOutstanding p b)
  | tested {p b : Nat} (here : s.pc p = .tested b) : Stepped s (.go p) (s.absorb p b)
  | commit {p : Nat} {t : State} (stepped : s.commitStep p (s.pc p) = some t) : Stepped s (.go p) t

theorem stepped {s t : State} {a : Action} (taken : s.step a = some t) : Stepped s a t := by
  cases a with
  | beginOp p =>
    simp only [step, Option.ite_none_right_eq_some, Option.some.injEq] at taken
    obtain ⟨⟨-, here⟩, rfl⟩ := taken
    exact .beginOp here
  | logWrite p b =>
    simp only [step, Option.ite_none_right_eq_some, Option.some.injEq] at taken
    obtain ⟨⟨-, here⟩, rfl⟩ := taken
    exact .logWrite here
  | endOp p =>
    simp only [step, Option.ite_none_right_eq_some, Option.some.injEq] at taken
    obtain ⟨⟨-, here⟩, rfl⟩ := taken
    exact .endOp here
  | go p =>
    simp only [step, Option.ite_none_left_eq_some] at taken
    obtain ⟨-, taken⟩ := taken
    split at taken
    · next here =>
      cases Option.some.inj taken
      exact .enter here
    · next here =>
      cases Option.some.inj taken
      exact .sized here
    · next here =>
      cases Option.some.inj taken
      exact .tested here
    · exact .commit taken

end State

/-- Inside an operation: between the return of `begin_op` and `end_op`. -/
def Pc.inOp : Pc → Bool
  | .running | .sized _ | .tested _ => true
  | _ => false

def Pc.inCommit : Pc → Bool
  | .commit | .writeLog _ | .writeHead | .install _ | .clearHead | .finish => true
  | _ => false

end Aso.Xv6.Log
