import Aso.Xv6.Ptable.Status

/-! What one step does to the process table, as far as the life of processes,
their parents and their `killed` marks are concerned. Most steps only move a
process within its life; the others are listed with the table they leave. -/
namespace Aso.Xv6.Ptable
open Slots (Kind)

/-- At most the way a live process runs, its status and its `killed` mark differ. -/
structure Similar (before after : Proc) : Prop where
  kind : after.state.kind = before.state.kind
  pid : after.pid = before.pid
  parent : after.parent = before.parent
  killed : after.killed = before.killed ∨ before.state.kind = .held

theorem Similar.refl (q : Proc) : Similar q q := ⟨rfl, rfl, rfl, .inl rfl⟩

theorem Similar.trans {a b c : Proc} (first : Similar a b) (second : Similar b c) :
    Similar a c where
  kind := second.kind.trans first.kind
  pid := second.pid.trans first.pid
  parent := second.parent.trans first.parent
  killed := by
    rcases second.killed with same | live
    · rcases first.killed with same' | live
      · exact .inl (same.trans same')
      · exact .inr live
    · exact .inr (first.kind ▸ live)

/-- The points of the code that the tree of processes depends on: a child has
its parent and does not run yet, and a process has stored its status. -/
def Pc.mark : Pc → Option (Option Slot)
  | .forkStart np => some (some np)
  | .exiting => some none
  | _ => none

/-- The child whose parent a process has made itself. -/
def Pc.starting (c : Pc) : Option Slot := c.mark.join

theorem Pc.mark_exiting {c : Pc} : c.mark = some none ↔ c = .exiting := by
  cases c <;> simp [Pc.mark]

structure Quiet (s t : State) : Prop where
  procs : ∀ q, Similar (s.proc q) (t.proc q)
  marks : ∀ q, (t.pc q).mark = (s.pc q).mark
  initproc : t.initproc = s.initproc
  panicked : t.panicked = s.panicked

namespace Quiet
variable {s t u : State} {p : Slot}

theorem refl (s : State) : Quiet s s := ⟨fun _ => .refl _, fun _ => rfl, rfl, rfl⟩

theorem trans (first : Quiet s t) (second : Quiet t u) : Quiet s u where
  procs q := (first.procs q).trans (second.procs q)
  marks q := (second.marks q).trans (first.marks q)
  initproc := second.initproc.trans first.initproc
  panicked := second.panicked.trans first.panicked

theorem setPc {c : Pc} (same : c.mark = (s.pc p).mark) : Quiet s (s.setPc p c) where
  procs _ := .refl _
  marks q := by
    simp only [State.setPc, Function.update_apply]
    split
    · next here => rw [here, same]
    · rfl
  initproc := rfl
  panicked := rfl

theorem setProc {q : Proc} (similar : Similar (s.proc p) q) : Quiet s (s.setProc p q) where
  procs r := by
    simp only [State.setProc, Function.update_apply]
    split
    · next here => exact here ▸ similar
    · exact .refl _
  marks _ := rfl
  initproc := rfl
  panicked := rfl

theorem setState {st : Procstate} (live : (s.proc p).state.kind = .held) (kept : st.kind = .held) :
    Quiet s (s.setState p st) :=
  setProc ⟨kept.trans live.symm, rfl, rfl, .inl rfl⟩

theorem setKilled (live : (s.proc p).state.kind = .held) : Quiet s (s.setKilled p) :=
  setProc ⟨rfl, rfl, rfl, .inr live⟩

theorem wakeup1 (chan : Chan) : Quiet s (s.wakeup1 chan) where
  procs q := by
    simp only [State.wakeup1]
    split
    · next asleep => exact ⟨by rw [asleep.1]; rfl, rfl, rfl, .inl rfl⟩
    · exact .refl _
  marks _ := rfl
  initproc := rfl
  panicked := rfl

end Quiet

/-- What is left of a process that `wait` reaped. -/
def Proc.reaped (q : Proc) : Proc :=
  { q with pid := 0, parent := none, killed := false, state := .unused }

inductive Effect (s : State) : Action → State → Prop where
  | quiet {a : Action} {t : State} (moved : Quiet s t) : Effect s a t
  | kill {p : Slot} {ok : Bool} {pid : Int} (here : s.pc p = .sysBody (.kill pid)) :
    Effect s (.go p ok) ((s.kill pid).setPc p .sysReturn)
  | reserve {p np : Slot} {ok : Bool} {t : State} (here : s.pc p = .sysBody .fork)
    (found : s.allocproc = some (np, t)) : Effect s (.go p ok) (t.setPc p (.forkStack np))
  | abandon {p np : Slot} {ok : Bool} (here : s.pc p = .forkStack np ∨ s.pc p = .forkCopy np) :
    Effect s (.go p ok) ((s.setState np .unused).setPc p .sysReturn)
  | adopt {p np : Slot} {ok : Bool} (running : s.isRunning p = true)
      (here : s.pc p = .forkParent np) :
    Effect s (.go p ok) ((s.setProc np { s.proc np with parent := some p }).setPc p (.forkStart np))
  | fill {p np : Slot} {ok : Bool} (here : s.pc p = .forkStart np) :
    Effect s (.go p ok) (((s.setState np .runnable).setPc np .user).setPc p .sysReturn)
  | store {p : Slot} {ok : Bool} {t : State} (procs : ∀ q, Similar (s.proc q) (t.proc q))
    (here : (s.pc p).mark = none) (pc : t.pc = Function.update s.pc p .exiting)
    (initproc : t.initproc = s.initproc)
    (init : p = s.initproc → t.panicked = true) (still : s.panicked = false) : Effect s (.go p ok) t
  | finish {p : Slot} {ok : Bool} (running : s.isRunning p = true) (here : s.pc p = .exiting) :
    Effect s (.go p ok) (s.finishExit p)
  | collect {p q : Slot} {ok : Bool} (here : s.pc p = .sysBody .wait)
      (found : s.zombieChild p = some q) :
    Effect s (.go p ok)
      (((s.setProc q (s.proc q).reaped).setPc q .absent).setPc p
      (.waitRead q (s.proc q).pid (s.uid q)))

section Effects
variable {s t : State} {p : Slot} {a : Action} {ok : Bool}

theorem held_of_running (running : s.isRunning p = true) : (s.proc p).state.kind = .held := by
  rw [State.running_of_isRunning running]
  rfl

theorem sysBody_effect {call : Syscall} (running : s.isRunning p = true)
    (here : s.pc p = .sysBody call) (taken : s.exec p ok (.sysBody call) = some t) :
    Effect s (.go p ok) t := by
  have returns {c : Pc} (plain : c.mark = none) : Quiet s (s.setPc p c) :=
    .setPc (by rw [here, plain]; rfl)
  cases call with
  | fork =>
    simp only [State.exec] at taken
    split at taken
    · cases taken
      exact .quiet (returns rfl)
    · next np u found =>
      cases taken
      exact .reserve here found
  | exit n =>
    cases taken
    exact .quiet (returns rfl)
  | wait =>
    cases taken
    simp only [State.waitScan]
    split
    · next q found => exact .collect here found
    · split
      · exact .quiet (returns rfl)
      · split
        · exact .quiet (returns rfl)
        · exact .quiet (.setProc ⟨(held_of_running running).symm, rfl, rfl, .inl rfl⟩)
  | kill pid =>
    cases taken
    exact .kill here
  | other =>
    cases taken
    exact .quiet (returns rfl)

theorem exec_effect (running : s.isRunning p = true) (taken : s.exec p ok (s.pc p) = some t) :
    Effect s (.go p ok) t := by
  have live := held_of_running running
  cases here : s.pc p with
  | absent | user | dead => simp [here, State.exec] at taken
  | sysBody call =>
    rw [here] at taken
    exact sysBody_effect running here taken
  | sysEntry call | sysReturn | trapCheck trapno | trapRecheck trapno =>
    simp only [here, State.exec, Option.some.injEq] at taken
    subst t
    exact .quiet (.setPc (by rw [here]; split <;> rfl))
  | trapBody trapno =>
    simp only [here, State.exec, Option.some.injEq] at taken
    subst t
    have moved : Quiet s (s.setPc p (.trapCheck trapno)) := .setPc (by rw [here]; rfl)
    split
    · exact .quiet moved
    · exact .quiet (moved.trans (.setKilled live))
  | trapYield trapno =>
    simp only [here, State.exec, Option.some.injEq] at taken
    subst t
    have moved : Quiet s (s.setPc p (.trapRecheck trapno)) := .setPc (by rw [here]; rfl)
    split
    · exact .quiet (moved.trans (.setState live rfl))
    · exact .quiet moved
  | exitStore status how =>
    simp only [here, State.exec, Option.some.injEq] at taken
    have still : s.panicked = false := by
      simp only [State.isRunning, Bool.and_eq_true, Bool.not_eq_true'] at running
      exact running.1
    have procs (q : Slot) :
        Similar (s.proc q) ((s.setProc p { s.proc p with status := status }).proc q) :=
      (Quiet.setProc (s := s) (p := p) (q := { s.proc p with status := status })
        ⟨rfl, rfl, rfl, .inl rfl⟩).procs q
    have plain : (s.pc p).mark = none := by rw [here]; rfl
    subst t
    split
    · exact .store procs plain rfl rfl (fun _ => rfl) still
    · next other => exact .store procs plain rfl rfl (fun same => absurd same other) still
  | exiting =>
    simp only [here, State.exec, Option.some.injEq] at taken
    subst t
    exact .finish running here
  | forkStack np | forkCopy np =>
    simp only [here, State.exec, Option.some.injEq] at taken
    subst t
    split
    · exact .quiet (.setPc (by rw [here]; rfl))
    · exact .abandon (by simp [here])
  | forkParent np =>
    simp only [here, State.exec, Option.some.injEq] at taken
    subst t
    exact .adopt running here
  | forkStart np =>
    simp only [here, State.exec, Option.some.injEq] at taken
    subst t
    exact .fill here
  | waitRead q pid child =>
    simp only [here, State.exec, Option.some.injEq] at taken
    subst t
    have moved : Quiet s (s.setPc p .sysReturn) := .setPc (by rw [here]; rfl)
    exact .quiet ⟨moved.procs, moved.marks, rfl, rfl⟩

theorem step_effect (taken : s.step a = some t) : Effect s a t := by
  cases a with
  | schedule p =>
    simp only [State.step, Option.ite_none_right_eq_some, Option.some.injEq] at taken
    obtain ⟨⟨-, runnable⟩, rfl⟩ := taken
    exact .quiet (.setState (by rw [runnable]; rfl) rfl)
  | preempt p =>
    simp only [State.step, Option.ite_none_right_eq_some, Option.some.injEq] at taken
    obtain ⟨⟨running, -⟩, rfl⟩ := taken
    exact .quiet (.setState (held_of_running running) rfl)
  | block p k =>
    simp only [State.step, Option.ite_none_right_eq_some, Option.some.injEq] at taken
    obtain ⟨⟨running, -⟩, rfl⟩ := taken
    exact .quiet (.setProc ⟨(held_of_running running).symm, rfl, rfl, .inl rfl⟩)
  | unblock k =>
    simp only [State.step, Option.ite_none_left_eq_some, Option.some.injEq] at taken
    obtain ⟨-, rfl⟩ := taken
    exact .quiet (.wakeup1 _)
  | syscall p call =>
    simp only [State.step, Option.ite_none_right_eq_some, Option.some.injEq] at taken
    obtain ⟨⟨-, user⟩, rfl⟩ := taken
    exact .quiet (.setPc (by rw [user]; rfl))
  | trap p trapno =>
    simp only [State.step, Option.ite_none_right_eq_some, Option.some.injEq] at taken
    obtain ⟨⟨-, user, -⟩, rfl⟩ := taken
    exact .quiet (.setPc (by rw [user]; rfl))
  | kernelFault p =>
    simp only [State.step, Option.ite_none_right_eq_some, Option.some.injEq] at taken
    obtain ⟨⟨running, -⟩, rfl⟩ := taken
    exact .quiet (.setKilled (held_of_running running))
  | go p ok =>
    simp only [State.step, Option.ite_none_right_eq_some] at taken
    exact exec_effect taken.1 taken.2

theorem wakeup1_proc (s : State) (chan : Chan) (q : Slot) :
    ∃ st : Procstate, (s.wakeup1 chan).proc q = { s.proc q with state := st } ∧
      st.kind = (s.proc q).state.kind := by
  simp only [State.wakeup1]
  split
  · next asleep => exact ⟨.runnable, rfl, by rw [asleep.1]; rfl⟩
  · exact ⟨_, rfl, rfl⟩

theorem wakeParent_proc (s : State) (p q : Slot) :
    ∃ st : Procstate, (s.wakeParent p).proc q = { s.proc q with state := st } ∧
      st.kind = (s.proc q).state.kind := by
  simp only [State.wakeParent]
  split
  · exact ⟨_, rfl, rfl⟩
  · exact wakeup1_proc ..

/-- The abandoned children are passed to init and otherwise left alone. -/
theorem reparent_proc (s : State) (p q : Slot) :
    ∃ st : Procstate, (s.reparent p).proc q = { s.proc q with
      state := st
      parent := if (s.proc q).parent = some p then some s.initproc else (s.proc q).parent } ∧
      st.kind = (s.proc q).state.kind := by
  have passed : (if (s.proc q).parent = some p then { s.proc q with parent := some s.initproc }
      else s.proc q) =
      { s.proc q with
        parent := if (s.proc q).parent = some p then some s.initproc else (s.proc q).parent } := by
    split <;> rfl
  simp only [State.reparent]
  split
  · exact ⟨(s.proc q).state, passed, rfl⟩
  · let orphans : State :=
      { s with proc := fun q =>
          if (s.proc q).parent = some p then { s.proc q with parent := some s.initproc }
          else s.proc q }
    obtain ⟨st, woken, kind⟩ := wakeup1_proc orphans (.proc s.initproc) q
    dsimp only [orphans] at woken kind
    rw [passed] at woken kind
    exact ⟨st, woken, kind⟩

/-- Outside the table `exit` only moves its own process. -/
theorem finishExit_rest (s : State) (p : Slot) :
    (s.finishExit p).pc = Function.update s.pc p .dead ∧ (s.finishExit p).initproc = s.initproc ∧
      (s.finishExit p).panicked = s.panicked := by
  have woken : (s.wakeParent p).pc = s.pc ∧ (s.wakeParent p).initproc = s.initproc ∧
      (s.wakeParent p).panicked = s.panicked := by
    simp only [State.wakeParent]
    split <;> exact ⟨rfl, rfl, rfl⟩
  have passed (u : State) : (u.reparent p).pc = u.pc ∧ (u.reparent p).initproc = u.initproc ∧
      (u.reparent p).panicked = u.panicked := by
    simp only [State.reparent]
    split <;> exact ⟨rfl, rfl, rfl⟩
  obtain ⟨pc, initproc, panicked⟩ := passed (s.wakeParent p)
  refine ⟨?_, initproc.trans woken.2.1, panicked.trans woken.2.2⟩
  change Function.update ((s.wakeParent p).reparent p).pc p .dead = _
  rw [pc, woken.1]

/-- The table after `exit`: the process has ended and its children are init's. -/
theorem finishExit_proc (s : State) (p q : Slot) :
    ∃ st : Procstate, (s.finishExit p).proc q = { s.proc q with
      state := st
      parent := if (s.proc q).parent = some p then some s.initproc else (s.proc q).parent } ∧
      st.kind = if q = p then .ended else (s.proc q).state.kind := by
  obtain ⟨st, woken, kind⟩ := wakeParent_proc s p q
  obtain ⟨st', passed, kind'⟩ := reparent_proc (s.wakeParent p) p q
  have init : (s.wakeParent p).initproc = s.initproc := by
    simp only [State.wakeParent]
    split <;> rfl
  rw [woken] at passed kind'
  rw [init] at passed
  simp only [State.finishExit, State.setPc, State.setState, State.setProc, Function.update_apply]
  split
  · next here =>
    subst here
    exact ⟨.zombie, by rw [passed], rfl⟩
  · exact ⟨st', passed, kind'.trans kind⟩

theorem kill_rest (s : State) (pid : Int) :
    (s.kill pid).pc = s.pc ∧ (s.kill pid).initproc = s.initproc ∧
    (s.kill pid).panicked = s.panicked := by
  simp only [State.kill]
  split <;> exact ⟨rfl, rfl, rfl⟩

theorem allocproc_some {s t : State} {np : Slot} (found : s.allocproc = some (np, t)) :
    (s.proc np).state = .unused ∧
      t = { s.setProc np { s.proc np with state := .embryo, pid := s.nextpid } with
        nextpid := s.nextpid + 1
        uid := Function.update s.uid np s.nextUid
        nextUid := s.nextUid + 1 } := by
  simp only [State.allocproc] at found
  split at found
  · cases found
  · next q first =>
    cases found
    exact ⟨by simpa using State.first_some first, rfl⟩

end Effects
end Aso.Xv6.Ptable
