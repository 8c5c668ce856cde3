import Aso.Xv6.Ptable.Family

/-! The `killed` mark. `kill` marks the first slot with the given pid whatever
its state, and `allocproc` does not clear the mark, so a mark set on a free
slot is found by the next process that gets it. -/
namespace Aso.Xv6.Ptable
open Transition

/-- The slot that `kill` marks. -/
def State.killTarget (s : State) (pid : Int) : Option Slot :=
  State.first fun q => (s.proc q).pid = pid

/-- What `kill` returns. -/
def State.killValue (s : State) (pid : Int) : Int := if (s.killTarget pid).isSome then 0 else -1

/-- `kill(pid)` returns 0 only for a process that is not unused, and marks it only. -/
def KillsProcess (s : State) (pid : Int) : Prop :=
  s.killValue pid = 0 → ∃ q, (s.proc q).state ≠ .unused ∧ (s.proc q).pid = pid ∧
    ((s.kill pid).proc q).killed = true ∧ ∀ r, r ≠ q → (s.kill pid).proc r = s.proc r

def Pc.kills : Pc → Option Int
  | .sysBody (.kill pid) => some pid
  | _ => none

/-- The slot that an executed `kill` marks holds a process,
and not one that `fork` is still building. -/
def Aimed (s : State) : Action → Prop
  | .go p _ => ∀ pid ∈ (s.pc p).kills, ∀ q ∈ s.killTarget pid,
      (s.proc q).state ≠ .unused ∧ (s.proc q).state ≠ .embryo
  | _ => True

instance : ∀ s a, Decidable (Aimed s a)
  | s, .go p _ => inferInstanceAs (Decidable (∀ pid ∈ (s.pc p).kills, ∀ q ∈ s.killTarget pid,
      (s.proc q).state ≠ .unused ∧ (s.proc q).state ≠ .embryo))
  | _, .schedule _ | _, .preempt _ | _, .block _ _ | _, .unblock _ | _, .syscall _ _ | _, .trap _ _
  | _, .kernelFault _ => isTrue trivial

/-- No slot without a process carries the mark. -/
def Unmarked (s : State) : Prop :=
  ∀ q, (s.proc q).state.kind = .free ∨ (s.proc q).state.kind = .reserved → (s.proc q).killed = false

section Steps
variable {s t : State} {a : Action} {pid : Int} {q : Slot}

theorem kill_proc_target (found : s.killTarget pid = some q) :
    ((s.kill pid).proc q).killed = true ∧
    ((s.kill pid).proc q).state.kind = (s.proc q).state.kind := by
  have found : State.first (fun q => (s.proc q).pid = pid) = some q := found
  simp only [State.kill, found, State.setProc, Function.update_self]
  split
  · next asleep => exact ⟨rfl, by rw [asleep]; rfl⟩
  · exact ⟨rfl, rfl⟩

theorem kill_proc_other {r : Slot} (other : s.killTarget pid ≠ some r) :
    (s.kill pid).proc r = s.proc r := by
  simp only [State.kill]
  split
  · rfl
  · next q found =>
    refine Function.update_of_ne ?_ _ _
    rintro rfl
    exact other found

theorem Unmarked.kill (unmarked : Unmarked s)
    (aimed : ∀ q ∈ s.killTarget pid, (s.proc q).state ≠ .unused ∧ (s.proc q).state ≠ .embryo) :
    Unmarked (s.kill pid) := by
  intro r empty
  by_cases target : s.killTarget pid = some r
  · rw [(kill_proc_target target).2] at empty
    obtain ⟨used, started⟩ := aimed r target
    revert empty used started
    cases (s.proc r).state <;> simp [Procstate.kind]
  · rw [kill_proc_other target] at empty ⊢
    exact unmarked r empty

/-- A change that clears the mark or leaves it, in a slot that stays empty. -/
theorem Unmarked.of_kept (unmarked : Unmarked s)
    (kept : ∀ q, (t.proc q).state.kind = .free ∨ (t.proc q).state.kind = .reserved →
      (t.proc q).killed = false ∨
      ((s.proc q).state.kind = .free ∨ (s.proc q).state.kind = .reserved) ∧
      (t.proc q).killed = (s.proc q).killed) : Unmarked t := by
  intro q empty
  rcases kept q empty with clear | ⟨before, same⟩
  · exact clear
  · exact same.trans (unmarked q before)

theorem Unmarked.of_similar (unmarked : Unmarked s) (procs : ∀ q, Similar (s.proc q) (t.proc q)) :
    Unmarked t := by
  refine unmarked.of_kept fun q empty => .inr ?_
  rw [(procs q).kind] at empty
  refine ⟨empty, ?_⟩
  rcases (procs q).killed with same | held
  · exact same
  · rw [held] at empty
    rcases empty with wrong | wrong <;> cases wrong

/-- Another process in one slot. -/
theorem Unmarked.setProc {p : Slot} {new : Proc} (unmarked : Unmarked s)
    (clear : new.state.kind = .free ∨ new.state.kind = .reserved → new.killed = false) :
    Unmarked (s.setProc p new) := by
  intro r empty
  simp only [State.setProc, Function.update_apply] at empty ⊢
  split at empty
  · next same =>
    rw [if_pos same]
    exact clear empty
  · next other =>
    rw [if_neg other]
    exact unmarked r empty

theorem Unmarked.step (unmarked : Unmarked s) (placed : Placed s) (aimed : Aimed s a)
    (taken : s.step a = some t) : Unmarked t := by
  cases step_effect taken with
  | quiet moved => exact unmarked.of_similar moved.procs
  | kill here =>
    have killed : Unmarked (s.kill _) := unmarked.kill (aimed _ (by rw [here]; rfl))
    exact killed
  | @reserve p np ok u here found =>
    obtain ⟨unused, rfl⟩ := allocproc_some found
    have born : Unmarked (s.setProc np { s.proc np with state := .embryo, pid := s.nextpid }) :=
      unmarked.setProc fun _ => unmarked np (.inl (by rw [unused]; rfl))
    exact born
  | @abandon p np ok here =>
    have filling : (s.pc p).role = .filling np := by
      rcases here with here | here <;> rw [here] <;> rfl
    have reserved := placed.reserved filling
    exact unmarked.setProc fun _ => unmarked np (.inr reserved)
  | @adopt p np ok running here => exact unmarked.setProc (unmarked np)
  | @fill p np ok here =>
    refine unmarked.setProc ?_
    rintro (wrong | wrong) <;> cases wrong
  | store procs => exact unmarked.of_similar procs
  | @finish p ok running here =>
    refine unmarked.of_kept fun q empty => .inr ?_
    obtain ⟨st, after, kind⟩ := finishExit_proc s p q
    rw [after] at empty ⊢
    dsimp only at empty ⊢
    rw [kind] at empty
    split at empty
    · rcases empty with wrong | wrong <;> cases wrong
    · exact ⟨empty, rfl⟩
  | @collect p q ok here found => exact unmarked.setProc fun _ => rfl

/-- Where free slots are unmarked, `kill` does what it
should exactly if its target is not unused. -/
theorem killsProcess_iff (unmarked : Unmarked s) (pid : Int) :
    KillsProcess s pid ↔ ∀ q ∈ s.killTarget pid, (s.proc q).state ≠ .unused := by
  constructor
  · rintro kills q target unused
    have target : s.killTarget pid = some q := target
    obtain ⟨r, used, -, -, rest⟩ := kills (by simp [State.killValue, target])
    have other : q ≠ r := by
      rintro rfl
      exact used unused
    -- the mark on the unused slot is a change of another slot
    have marked := (kill_proc_target target).1
    rw [rest q other, unmarked q (.inl (by rw [unused]; rfl))] at marked
    cases marked
  · intro aimed zero
    cases target : s.killTarget pid with
    | none => simp [State.killValue, target] at zero
    | some q =>
      refine ⟨q, aimed q target,
        by simpa using State.first_some target, (kill_proc_target target).1, ?_⟩
      intro r other
      exact kill_proc_other (by rw [target]; simpa using other.symm)

end Steps

theorem unmarked_userinit : Unmarked userinit := by
  intro q empty
  obtain rfl | other := eq_or_ne q 0
  · rfl
  · simp [userinit, other, blank]

/-- Along every run whose `kill` calls find a started process, or nothing: a
`kill` is what it should be exactly if it does not find an unused slot, and
every child starts without the mark. -/
theorem kill_marks_processes_only {schedule : List Action} {s : State}
    (aimed : Along State.step Aimed userinit schedule)
    (reached : run State.step userinit schedule = some s) :
    (∀ pid, KillsProcess s pid ↔ ∀ q ∈ s.killTarget pid, (s.proc q).state ≠ .unused) ∧
      ∀ p np ok t, s.pc p = .forkStart np → s.step (.go p ok) = some t →
        (t.proc np).state = .runnable ∧ (t.proc np).killed = false := by
  have preserves (s : State) (a : Action) (t : State) (inv : Placed s ∧ Unmarked s) (ok : Aimed s a)
      (taken : s.step a = some t) : Placed t ∧ Unmarked t :=
    ⟨placed_step inv.1 taken, inv.2.step inv.1 ok taken⟩
  obtain ⟨placed, unmarked⟩ :=
    invariant_along (P := fun s => Placed s ∧ Unmarked s) preserves aimed reached
    ⟨placed_userinit, unmarked_userinit⟩
  refine ⟨killsProcess_iff unmarked, ?_⟩
  intro p np ok t start taken
  have clear := unmarked np (.inr (placed.reserved (p := p) (by rw [start]; rfl)))
  simp only [State.step, Option.ite_none_right_eq_some] at taken
  rw [start] at taken
  cases taken.2
  simp [State.setPc, State.setState, State.setProc, clear]

/-- `p` calls `kill(pid)` and returns to user mode. -/
def kills (p : Slot) (pid : Int) : List Action :=
  .syscall p (.kill pid) :: List.replicate 3 (.go p true)

/-- `p` calls `fork`, up to the point where the child is to start. -/
def forksAlmost (p : Slot) : List Action := .syscall p .fork :: List.replicate 5 (.go p true)

theorem killed_child_and_next_child :
    ∃ s, run State.step userinit (.schedule 0 :: forks 0 ++ kills 0 2 ++ forksAlmost 0) = some s ∧
      (s.proc 1).killed = true ∧ s.pc 0 = .forkStart 2 ∧
      ∀ p np ok t, s.pc p = .forkStart np → s.step (.go p ok) = some t →
        (t.proc np).state = .runnable ∧ (t.proc np).killed = false := by
  have runs : (run State.step userinit (.schedule 0 :: forks 0 ++ kills 0 2 ++ forksAlmost 0)).map
      (fun s => ((s.proc 1).killed, s.pc 0)) = some (true, .forkStart 2) := by decide
  obtain ⟨s, reached, seen⟩ := Option.map_eq_some_iff.mp runs
  obtain ⟨killed, start⟩ := Prod.mk.inj seen
  exact ⟨s, reached, killed, start, (kill_marks_processes_only (by decide) reached).2⟩

/-- `kill(0)` finds a slot that was never used, returns 0 and marks it; the
next child of init gets the slot and starts with the mark. -/
theorem kill_zero_marks_next_child :
    userinit.killValue 0 = 0 ∧
      (∀ q, (userinit.proc q).state = .unused ∨ (userinit.proc q).pid ≠ 0) ∧
      (run State.step userinit (.schedule 0 :: kills 0 0 ++ forks 0)).map
        (fun s => ((s.proc 1).state, (s.proc 1).pid, (s.proc 1).killed)) =
        some (.runnable, 2, true) := by
  decide

end Aso.Xv6.Ptable
