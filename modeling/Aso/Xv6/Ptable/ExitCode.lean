import Aso.Xv6.Ptable.Status
import Mathlib.Data.Nat.Bitwise

/-! What a parent can tell from a status. `sys_exit` shifts its argument into the
second byte and `trap` passes the trap number plus one, and the macros of user.h
take the two apart; but `trap` passes zero when it finds a process killed at a
system call. -/
namespace Aso.Xv6.Ptable
open Transition

def wifexited (status : Nat) : Bool := status &&& 0x7f = 0
def wexitstatus (status : Nat) : Nat := (status &&& 0xff00) >>> 8
def wifsignaled (status : Nat) : Bool := status &&& 0x7f ≠ 0
def wexittrap (status : Nat) : Int := (status &&& 0x7f : Nat) - 1

theorem and_seven_bits (status : Nat) : status &&& 0x7f = status % 128 :=
  Nat.and_two_pow_sub_one_eq_mod status 7

theorem wexitstatus_eq (status : Nat) : wexitstatus status = status / 256 % 256 := by
  rw [wexitstatus, Nat.shiftRight_and_distrib, Nat.shiftRight_eq_div_pow]
  exact Nat.and_two_pow_sub_one_eq_mod (status / 256) 8

theorem wexitstatus_exitStatus (n : Int) : (wexitstatus (State.exitStatus n) : Int) = n % 256 := by
  rw [wexitstatus_eq, State.exitStatus]
  omega

theorem wifexited_exitStatus (n : Int) : wifexited (State.exitStatus n) = true := by
  simp only [wifexited, and_seven_bits, State.exitStatus, decide_eq_true_eq]
  omega

theorem and_seven_bits_trap {trapno : Nat} (below : trapno < tSyscall) :
    (trapno + 1) &&& 0x7f = trapno + 1 := by
  simp only [tSyscall] at below
  rw [and_seven_bits, Nat.mod_eq_of_lt (by omega)]

/-- The status tells how the process ended. -/
def How.Tells (status : Nat) : How → Prop
  | .exited n => status = State.exitStatus n
  | .trapped trapno => trapno < tSyscall ∧ status = trapno + 1
  | .killedAtSyscall => False

def Pc.Tells : Pc → Prop
  | .trapBody trapno | .trapCheck trapno | .trapYield trapno | .trapRecheck trapno =>
    trapno < tSyscall
  | .exitStore status how => how.Tells status
  | _ => True

/-- `trap` tests `killed` on the way into or out of a system call. -/
def Pc.testsSyscall : Pc → Bool
  | .sysEntry _ | .sysReturn => true
  | _ => false

/-- No process is found killed at a system call. -/
def Unkilled (s : State) : Action → Prop
  | .go p _ => (s.pc p).testsSyscall → (s.proc p).killed = false
  | _ => True

instance : ∀ s a, Decidable (Unkilled s a)
  | s, .go p _ => inferInstanceAs (Decidable ((s.pc p).testsSyscall → (s.proc p).killed = false))
  | _, .schedule _ | _, .preempt _ | _, .block _ _ | _, .unblock _ | _, .syscall _ _ | _, .trap _ _
  | _, .kernelFault _ => isTrue trivial

structure Telling (s : State) : Prop where
  pcs : ∀ p, (s.pc p).Tells
  exits : ∀ u e, s.exits u = some e → e.how.Tells e.status

namespace Telling
variable {s t : State} {p : Slot} {c : Pc} {ok : Bool}

theorem congr (telling : Telling s) (pc : t.pc = s.pc) (exits : t.exits = s.exits) : Telling t :=
  ⟨pc ▸ telling.pcs, exits ▸ telling.exits⟩

theorem setPc (telling : Telling s) (tells : c.Tells) : Telling (s.setPc p c) where
  pcs q := by
    obtain rfl | other := eq_or_ne q p
    · simpa [State.setPc] using tells
    · simpa [State.setPc, other] using telling.pcs q
  exits := telling.exits

theorem setProc (telling : Telling s) (q : Proc) : Telling (s.setProc p q) := telling.congr rfl rfl

theorem wakeup1 (telling : Telling s) (chan : Chan) : Telling (s.wakeup1 chan) :=
  telling.congr rfl rfl

theorem kill (telling : Telling s) (pid : Int) : Telling (s.kill pid) := by
  unfold State.kill
  split
  · exact telling
  · exact telling.setProc _

theorem allocproc (telling : Telling s) {np : Slot} (found : s.allocproc = some (np, t)) :
    Telling t := by
  unfold State.allocproc at found
  split at found
  · cases found
  · simp only [Option.some.injEq, Prod.mk.injEq] at found
    obtain ⟨-, rfl⟩ := found
    exact telling.congr rfl rfl

theorem waitScan (telling : Telling s) : Telling (s.waitScan p) := by
  unfold State.waitScan
  split
  · exact (Telling.setPc (c := .absent) (telling.setProc _) trivial).setPc trivial
  · split
    · exact telling.setPc trivial
    · split
      · exact telling.setPc trivial
      · exact telling.setProc _

theorem finishExit (telling : Telling s) : Telling (s.finishExit p) := by
  have woken : Telling (s.wakeParent p) := by
    unfold State.wakeParent
    split
    · exact telling
    · exact telling.wakeup1 _
  have passed : Telling ((s.wakeParent p).reparent p) := by
    unfold State.reparent
    dsimp only
    split <;> exact woken.congr rfl rfl
  exact (passed.setProc _).setPc trivial

/-- The record of a process that ends tells what its program counter told. -/
theorem exitStore (telling : Telling s) {status : Nat} {how : How} (tells : how.Tells status) :
    Telling { (s.setProc p { s.proc p with status := status }).setPc p .exiting with
      exits := Function.update s.exits (s.uid p) (some ⟨(s.proc p).pid, status, how⟩) } where
  pcs := (Telling.setPc (c := .exiting) (telling.setProc _) trivial).pcs
  exits u e left := by
    simp only [Function.update_apply] at left
    split at left
    · cases left
      exact tells
    · exact telling.exits u e left

theorem exec (telling : Telling s) (unkilled : Unkilled s (.go p ok))
    (taken : s.exec p ok (s.pc p) = some t) : Telling t := by
  have tells := telling.pcs p
  cases here : s.pc p with
  | absent | user | dead => simp [here, State.exec] at taken
  | sysEntry call | sysReturn =>
    simp only [here, State.exec, Option.some.injEq] at taken
    subst t
    rw [unkilled (by simp [here, Pc.testsSyscall])]
    exact telling.setPc trivial
  | sysBody call =>
    rw [here] at taken
    cases call with
    | fork =>
      simp only [State.exec] at taken
      split at taken <;> cases taken
      · exact telling.setPc trivial
      · rename_i found
        exact (telling.allocproc found).setPc trivial
    | exit n =>
      cases taken
      exact telling.setPc rfl
    | wait =>
      cases taken
      exact telling.waitScan
    | kill pid =>
      cases taken
      exact (telling.kill pid).setPc trivial
    | other =>
      cases taken
      exact telling.setPc trivial
  | trapBody trapno =>
    simp only [here, State.exec, Option.some.injEq] at taken tells
    subst t
    have checked : Telling (s.setPc p (.trapCheck trapno)) := telling.setPc tells
    split
    · exact checked
    · exact checked.setProc _
  | trapCheck trapno | trapRecheck trapno =>
    simp only [here, State.exec, Option.some.injEq] at taken tells
    subst t
    apply telling.setPc
    split
    · exact ⟨tells, rfl⟩
    · first | exact tells | trivial
  | trapYield trapno =>
    simp only [here, State.exec, Option.some.injEq] at taken tells
    subst t
    have yielded : Telling (s.setPc p (.trapRecheck trapno)) := telling.setPc tells
    split
    · exact yielded.setProc _
    · exact yielded
  | exitStore status how =>
    simp only [here, State.exec, Option.some.injEq] at taken tells
    have stored := telling.exitStore (p := p) tells
    rw [← taken]
    split
    · exact stored.congr rfl rfl
    · exact stored
  | exiting =>
    simp only [here, State.exec, Option.some.injEq] at taken
    subst t
    exact telling.finishExit
  | forkStack np | forkCopy np =>
    simp only [here, State.exec, Option.some.injEq] at taken
    subst t
    split
    · exact telling.setPc trivial
    · exact (telling.setProc _).setPc trivial
  | forkParent np =>
    simp only [here, State.exec, Option.some.injEq] at taken
    subst t
    exact (telling.setProc _).setPc trivial
  | forkStart np =>
    simp only [here, State.exec, Option.some.injEq] at taken
    subst t
    exact (Telling.setPc (c := .user) (telling.setProc _) trivial).setPc trivial
  | waitRead q pid child =>
    simp only [here, State.exec, Option.some.injEq] at taken
    subst t
    exact (telling.setPc (c := .sysReturn) trivial).congr rfl rfl

theorem step {a : Action} (telling : Telling s) (unkilled : Unkilled s a)
    (taken : s.step a = some t) : Telling t := by
  cases a with
  | schedule p | preempt p | block p k | kernelFault p =>
    simp only [State.step, Option.ite_none_right_eq_some, Option.some.injEq] at taken
    exact taken.2 ▸ telling.setProc _
  | unblock k =>
    simp only [State.step, Option.ite_none_left_eq_some, Option.some.injEq] at taken
    exact taken.2 ▸ telling.wakeup1 _
  | syscall p call =>
    simp only [State.step, Option.ite_none_right_eq_some, Option.some.injEq] at taken
    exact taken.2 ▸ telling.setPc trivial
  | trap p trapno =>
    simp only [State.step, Option.ite_none_right_eq_some, Option.some.injEq] at taken
    exact taken.2 ▸ telling.setPc taken.1.2.2
  | go p ok =>
    simp only [State.step, Option.ite_none_right_eq_some] at taken
    exact telling.exec unkilled taken.2

end Telling

theorem telling_userinit : Telling userinit where
  pcs p := by
    obtain rfl | other := eq_or_ne p 0
    · simp [userinit, Pc.Tells]
    · simp [userinit, other, Pc.Tells]
  exits _ _ left := nomatch left

/-- What the macros of user.h say about the status of a process that ended in this way. -/
structure Decodes (status : Nat) (how : How) : Prop where
  exited : wifexited status = true ↔ ∃ n, how = .exited n
  code : ∀ n, how = .exited n → (wexitstatus status : Int) = n % 256
  signaled : (¬ ∃ n, how = .exited n) → wifsignaled status = true
  trapped : ∀ trapno, how = .trapped trapno → wexittrap status = trapno

theorem decodes_of_tells {status : Nat} {how : How} (tells : how.Tells status) :
    Decodes status how := by
  cases how with
  | exited n =>
    simp only [How.Tells] at tells
    subst status
    have exited := wifexited_exitStatus n
    exact ⟨by simp [exited], fun m same => How.exited.inj same ▸ wexitstatus_exitStatus n,
      fun not => absurd ⟨n, rfl⟩ not, by simp⟩
  | trapped trapno =>
    obtain ⟨below, rfl⟩ := tells
    have bits := and_seven_bits_trap below
    refine ⟨by simp [wifexited, bits], by simp, by simp [wifsignaled, bits], fun other same => ?_⟩
    cases same
    simp [wexittrap, bits]
  | killedAtSyscall => exact tells.elim

/-- As long as no `exit` disturbs a pending read and no process is found killed
at a system call, the macros tell from every reported status how the child ended. -/
theorem wait_status_decodes (schedule : List Action) (s : State)
    (quiet : Along State.step Undisturbed userinit schedule)
    (unkilled : Along State.step Unkilled userinit schedule)
    (reached : run State.step userinit schedule = some s) :
    ∀ r ∈ s.reports, ∃ e, s.exits r.child = some e ∧ r.pid = e.pid ∧ Decodes r.st e.how := by
  intro r reported
  obtain ⟨e, left, status, pid⟩ := reports_left quiet reached reported
  have telling := invariant_along (fun _ _ _ => Telling.step) unkilled reached telling_userinit
  exact ⟨e, left, pid, status ▸ decodes_of_tells (telling.exits _ _ left)⟩

theorem wait_status_decodes_exit_three :
    ∃ s, run State.step userinit forkAndWait = some s ∧ s.reports = [⟨64, 2, 768⟩] ∧
      ∀ r ∈ s.reports, ∃ e, s.exits r.child = some e ∧ r.pid = e.pid ∧ Decodes r.st e.how := by
  have runs : (run State.step userinit forkAndWait).map State.reports = some [⟨64, 2, 768⟩] := by
    decide
  obtain ⟨s, reached, reports⟩ := Option.map_eq_some_iff.mp runs
  exact ⟨s, reached, reports,
    wait_status_decodes forkAndWait s (by decide) (by decide) reached⟩

/-- The child is in a system call when the initial process kills it. -/
def killedInSyscall : List Action :=
  .schedule 0 :: forks 0 ++ [.schedule 1, .syscall 1 .other, .go 1 true] ++
    .syscall 0 (.kill 2) :: List.replicate 3 (.go 0 true) ++ List.replicate 4 (.go 1 true) ++
    reaps 0 ++ [.go 0 true]

theorem killed_child_seems_exited :
    Along State.step Undisturbed userinit killedInSyscall ∧
      (run State.step userinit killedInSyscall).map (fun s => (s.reports, s.exits 64)) =
        some ([⟨64, 2, 0⟩], some ⟨2, 0, .killedAtSyscall⟩) ∧
      wifexited 0 = true ∧ wifsignaled 0 = false := by
  decide

end Aso.Xv6.Ptable
