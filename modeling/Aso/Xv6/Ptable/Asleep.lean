import Aso.Xv6.Ptable.Effect

/-! Sleeping in `wait`. The scan that finds no zombie and the sleep are one
section under `ptable.lock`, and `exit` wakes the parents that its own process
and the children it passes on have at that moment. So a process asleep in
`wait` has no zombie child: it never sleeps on a child it should report. -/
namespace Aso.Xv6.Ptable
open Transition

/-- Whatever sleeps afterwards slept before, on the same channel. -/
def Wakes (s t : State) : Prop :=
  ∀ p, (t.proc p).state = .sleeping →
    (s.proc p).state = .sleeping ∧ (t.proc p).chan = (s.proc p).chan

namespace Wakes
variable {s t u : State} {p : Slot}

theorem refl (s : State) : Wakes s s := fun _ asleep => ⟨asleep, rfl⟩

theorem trans (first : Wakes s t) (second : Wakes t u) : Wakes s u := by
  intro p asleep
  obtain ⟨between, chan⟩ := second p asleep
  obtain ⟨before, chan'⟩ := first p between
  exact ⟨before, chan.trans chan'⟩

theorem setProc {q : Proc}
    (still : q.state = .sleeping → (s.proc p).state = .sleeping ∧ q.chan = (s.proc p).chan) :
    Wakes s (s.setProc p q) := by
  intro r asleep
  simp only [State.setProc, Function.update_apply] at asleep ⊢
  split at asleep
  · next here =>
    subst here
    rw [if_pos rfl]
    exact still asleep
  · next other =>
    rw [if_neg other]
    exact ⟨asleep, rfl⟩

theorem setAwake {q : Proc} (awake : q.state ≠ .sleeping) : Wakes s (s.setProc p q) :=
  setProc fun asleep => absurd asleep awake

theorem setState {st : Procstate} (awake : st ≠ .sleeping) : Wakes s (s.setState p st) :=
  setAwake awake

theorem setKilled : Wakes s (s.setKilled p) := setProc fun asleep => ⟨asleep, rfl⟩

theorem wakeup1 (chan : Chan) : Wakes s (s.wakeup1 chan) := by
  intro r asleep
  simp only [State.wakeup1] at asleep ⊢
  split at asleep
  · cases asleep
  · next other =>
    rw [if_neg other]
    exact ⟨asleep, rfl⟩

theorem kill (pid : Int) : Wakes s (s.kill pid) := by
  simp only [State.kill]
  split
  · exact refl s
  · next q found =>
    refine setProc fun asleep => ?_
    split at asleep
    · cases asleep
    · next awake => exact absurd asleep awake

theorem wakeParent : Wakes s (s.wakeParent p) := by
  simp only [State.wakeParent]
  split
  · exact refl s
  · exact wakeup1 _

theorem reparent : Wakes s (s.reparent p) := by
  let passed (q : Slot) : Proc :=
    if (s.proc q).parent = some p then { s.proc q with parent := some s.initproc } else s.proc q
  have kept : Wakes s { s with proc := passed } := by
    intro r asleep
    dsimp only [passed] at asleep ⊢
    split at asleep
    · next child =>
      rw [if_pos child]
      exact ⟨asleep, rfl⟩
    · next other =>
      rw [if_neg other]
      exact ⟨asleep, rfl⟩
  simp only [State.reparent]
  split
  · exact kept
  · exact kept.trans (wakeup1 _)

theorem finishExit : Wakes s (s.finishExit p) :=
  (wakeParent.trans reparent).trans (setState (by decide))

end Wakes

/-- A process that a wakeup names does not sleep on that channel afterwards. -/
theorem wakeup1_awake {s : State} {chan : Chan} {p : Slot}
    (asleep : ((s.wakeup1 chan).proc p).state = .sleeping) : (s.proc p).chan ≠ some chan := by
  intro named
  have before := (Wakes.wakeup1 (s := s) chan p asleep).1
  simp [State.wakeup1, before, named] at asleep

/-- The process sleeps in the `sleep` of `wait`. -/
def State.Waiting (s : State) (p : Slot) : Prop :=
  (s.proc p).state = .sleeping ∧ s.pc p = .sysBody .wait

/-- No process sleeps in `wait` with a zombie child to report. -/
def Prompt (s : State) : Prop :=
  ∀ p, s.Waiting p → (s.proc p).chan = some (.proc p) ∧
    ∀ q, (s.proc q).parent = some p → (s.proc q).state ≠ .zombie

/-- What a step of `p` does to the others: none falls asleep, and none moves but the one that
`p` starts or reaps. -/
structure Bystanders (p : Slot) (s t : State) : Prop where
  wakes : Wakes s t
  moved : ∀ q, q ≠ p → t.pc q = s.pc q ∨ (t.pc q = .user ∧ s.pc p = .forkStart q) ∨
    (t.pc q = .absent ∧ s.zombieChild p = some q)

namespace Bystanders
variable {s t u : State} {p q : Slot}

theorem setPc (wakes : Wakes s t) (same : t.pc = s.pc) (c : Pc) : Bystanders p s (t.setPc p c) where
  wakes := wakes
  moved q other := by
    left
    rw [← same]
    exact Function.update_of_ne other c t.pc

end Bystanders

/-- The scan of `wait` that ends in the sleep. -/
structure FallsAsleep (p : Slot) (s t : State) : Prop where
  none : s.zombieChild p = none
  table : t = s.setProc p { s.proc p with chan := some (.proc p), state := .sleeping }

section Steps
variable {s t : State} {p q : Slot} {a : Action} {ok : Bool}

theorem waitScan_bystanders : Bystanders p s (s.waitScan p) ∨ FallsAsleep p s (s.waitScan p) := by
  simp only [State.waitScan]
  split
  · next child found =>
    refine .inl ⟨Wakes.setAwake (by simp), fun q other => ?_⟩
    simp only [State.setPc, Function.update_of_ne other, Function.update_apply]
    split
    · next reaped =>
      subst reaped
      exact .inr (.inr ⟨rfl, found⟩)
    · exact .inl rfl
  · next none =>
    split
    · exact .inl (.setPc (.refl s) rfl _)
    · split
      · exact .inl (.setPc (.refl s) rfl _)
      · exact .inr ⟨none, rfl⟩

theorem sysBody_bystanders {call : Syscall} (taken : s.exec p ok (.sysBody call) = some t) :
    Bystanders p s t ∨ FallsAsleep p s t := by
  cases call with
  | fork =>
    simp only [State.exec] at taken
    split at taken
    · cases taken
      exact .inl (.setPc (.refl s) rfl _)
    · next np u found =>
      cases taken
      obtain ⟨-, rfl⟩ := allocproc_some found
      have reserved : Wakes s
          (s.setProc np { s.proc np with state := .embryo, pid := s.nextpid }) :=
        .setAwake (by simp)
      have calls := Bystanders.setPc (p := p) reserved rfl (.forkStack np)
      exact .inl ⟨calls.wakes, calls.moved⟩
  | wait =>
    cases taken
    exact waitScan_bystanders
  | kill pid =>
    cases taken
    exact .inl (.setPc (.kill pid) (kill_rest s pid).1 _)
  | exit n | other =>
    cases taken
    exact .inl (.setPc (.refl s) rfl _)

theorem exec_bystanders (taken : s.exec p ok (s.pc p) = some t) :
    Bystanders p s t ∨ FallsAsleep p s t := by
  have plain {u : State} (wakes : Wakes s u) (same : u.pc = s.pc) (c : Pc) :
      Bystanders p s (u.setPc p c) := .setPc wakes same c
  cases here : s.pc p with
  | absent | user | dead => simp [here, State.exec] at taken
  | sysBody call => exact sysBody_bystanders (here ▸ taken)
  | sysEntry call | sysReturn | trapCheck trapno | trapRecheck trapno =>
    rw [here] at taken
    cases taken
    exact .inl (plain (.refl s) rfl _)
  | waitRead q pid child =>
    rw [here] at taken
    cases taken
    have returns := plain (.refl s) rfl .sysReturn
    exact .inl ⟨returns.wakes, returns.moved⟩
  | trapBody trapno =>
    rw [here] at taken
    cases taken
    left
    split
    · exact plain (.refl s) rfl _
    · exact plain Wakes.setKilled rfl _
  | trapYield trapno =>
    rw [here] at taken
    cases taken
    left
    split
    · exact plain (u := s.setState p .runnable) (.setState (by decide)) rfl _
    · exact plain (.refl s) rfl _
  | exitStore status how =>
    rw [here] at taken
    cases taken
    have stored := plain (u := s.setProc p { s.proc p with status := status })
      (Wakes.setProc fun asleep => ⟨asleep, rfl⟩) rfl .exiting
    left
    split
    · exact ⟨stored.wakes, stored.moved⟩
    · exact ⟨stored.wakes, stored.moved⟩
  | exiting =>
    rw [here] at taken
    cases taken
    refine .inl ⟨.finishExit, fun q other => .inl ?_⟩
    rw [(finishExit_rest s p).1, Function.update_of_ne other]
  | forkStack np | forkCopy np =>
    rw [here] at taken
    cases taken
    left
    split
    · exact plain (.refl s) rfl _
    · exact plain (u := s.setState np .unused) (.setState (by decide)) rfl _
  | forkParent np =>
    rw [here] at taken
    cases taken
    exact .inl (plain (u := s.setProc np { s.proc np with parent := some p })
      (.setProc fun asleep => ⟨asleep, rfl⟩) rfl _)
  | forkStart np =>
    rw [here] at taken
    cases taken
    refine .inl ⟨Wakes.setState (by decide), fun q other => ?_⟩
    simp only [State.setPc, Function.update_of_ne other, Function.update_apply]
    split
    · next started =>
      subst started
      exact .inr (.inl ⟨rfl, here⟩)
    · exact .inl rfl

/-- Falling asleep elsewhere is not waiting. -/
theorem waiting_step (taken : s.step a = some t) (waits : t.Waiting p) :
    (s.Waiting p ∧ (t.proc p).chan = (s.proc p).chan) ∨ FallsAsleep p s t := by
  obtain ⟨asleep, here⟩ := waits
  have stayed (wakes : Wakes s t) (same : t.pc = s.pc) :
      (s.Waiting p ∧ (t.proc p).chan = (s.proc p).chan) ∨ FallsAsleep p s t := by
    obtain ⟨before, chan⟩ := wakes p asleep
    exact .inl ⟨⟨before, same ▸ here⟩, chan⟩
  cases a with
  | schedule r =>
    simp only [State.step, Option.ite_none_right_eq_some, Option.some.injEq] at taken
    obtain ⟨-, rfl⟩ := taken
    exact stayed (.setState (by decide)) rfl
  | preempt r =>
    simp only [State.step, Option.ite_none_right_eq_some, Option.some.injEq] at taken
    obtain ⟨-, rfl⟩ := taken
    exact stayed (.setState (by decide)) rfl
  | block r k =>
    simp only [State.step, Option.ite_none_right_eq_some, Option.some.injEq] at taken
    obtain ⟨⟨-, elsewhere⟩, rfl⟩ := taken
    have other : p ≠ r := by
      rintro rfl
      rcases elsewhere with elsewhere | elsewhere <;> cases elsewhere.symm.trans here
    have same : (s.setProc r { s.proc r with chan := some (.other k), state := .sleeping }).proc p =
        s.proc p := Function.update_of_ne other ..
    rw [same] at asleep ⊢
    exact .inl ⟨⟨asleep, here⟩, rfl⟩
  | unblock k =>
    simp only [State.step, Option.ite_none_left_eq_some, Option.some.injEq] at taken
    obtain ⟨-, rfl⟩ := taken
    exact stayed (.wakeup1 _) rfl
  | syscall r call =>
    simp only [State.step, Option.ite_none_right_eq_some, Option.some.injEq] at taken
    obtain ⟨⟨-, user⟩, rfl⟩ := taken
    simp only [State.setPc, Function.update_apply] at here
    split at here
    · cases here
    · exact .inl ⟨⟨asleep, here⟩, rfl⟩
  | trap r trapno =>
    simp only [State.step, Option.ite_none_right_eq_some, Option.some.injEq] at taken
    obtain ⟨-, rfl⟩ := taken
    simp only [State.setPc, Function.update_apply] at here
    split at here
    · cases here
    · exact .inl ⟨⟨asleep, here⟩, rfl⟩
  | kernelFault r =>
    simp only [State.step, Option.ite_none_right_eq_some, Option.some.injEq] at taken
    obtain ⟨-, rfl⟩ := taken
    exact stayed .setKilled rfl
  | go r ok =>
    simp only [State.step, Option.ite_none_right_eq_some] at taken
    obtain ⟨running, taken⟩ := taken
    rcases exec_bystanders taken with others | falls
    · obtain ⟨before, chan⟩ := others.wakes p asleep
      -- the process that took the step was running
      have other : p ≠ r := by
        rintro rfl
        cases before.symm.trans (State.running_of_isRunning running)
      rcases others.moved p other with same | ⟨user, -⟩ | ⟨absent, -⟩
      · exact .inl ⟨⟨before, same ▸ here⟩, chan⟩
      · cases user.symm.trans here
      · cases absent.symm.trans here
    · by_cases same : p = r
      · exact .inr (same ▸ falls)
      · have kept : t.proc p = s.proc p := by
          rw [falls.table]
          exact Function.update_of_ne same ..
        have pc : t.pc = s.pc := by rw [falls.table]; rfl
        exact .inl ⟨⟨kept ▸ asleep, pc ▸ here⟩, by rw [kept]⟩

theorem kind_ended {st : Procstate} : st.kind = .ended ↔ st = .zombie := by
  cases st <;> simp [Procstate.kind]

/-- A process that `kill` marks may wake, and is otherwise as it was. -/
theorem kill_proc (s : State) (pid : Int) (q : Slot) :
    ((s.kill pid).proc q).parent = (s.proc q).parent ∧
      ((s.kill pid).proc q).state.kind = (s.proc q).state.kind := by
  simp only [State.kill]
  split
  · exact ⟨rfl, rfl⟩
  · next r found =>
    simp only [State.setProc, Function.update_apply]
    split
    · next here =>
      subst here
      split
      · next asleep => exact ⟨rfl, by rw [asleep]; rfl⟩
      · exact ⟨rfl, rfl⟩
    · exact ⟨rfl, rfl⟩

/-- A zombie child was one before, or `exit` has just made it one. -/
theorem zombie_step
    (young : ∀ r np, s.pc r = .forkParent np → (s.proc np).state ≠ .zombie)
    (taken : s.step a = some t) (child : (t.proc q).parent = some p)
    (zombie : (t.proc q).state = .zombie) :
    ((s.proc q).parent = some p ∧ (s.proc q).state = .zombie) ∨
      ∃ r, s.pc r = .exiting ∧ t = s.finishExit r := by
  have old (parent : (t.proc q).parent = (s.proc q).parent)
      (kind : (t.proc q).state.kind = (s.proc q).state.kind) :
      (s.proc q).parent = some p ∧ (s.proc q).state = .zombie :=
    ⟨parent.symm.trans child, kind_ended.mp (kind.symm.trans (kind_ended.mpr zombie))⟩
  have aside {np : Slot} {new : Proc} (procs : t.proc = Function.update s.proc np new)
      (plain : new.state ≠ .zombie) : (s.proc q).parent = some p ∧ (s.proc q).state = .zombie := by
    have other : q ≠ np := by
      rintro rfl
      rw [procs, Function.update_self] at zombie
      exact plain zombie
    rw [procs, Function.update_of_ne other] at child zombie
    exact ⟨child, zombie⟩
  cases step_effect taken with
  | quiet moved => exact .inl (old (moved.procs q).parent (moved.procs q).kind)
  | store procs => exact .inl (old (procs q).parent (procs q).kind)
  | @finish r ok running here => exact .inr ⟨r, here, rfl⟩
  | @kill r ok pid here => exact .inl (old (kill_proc s pid q).1 (kill_proc s pid q).2)
  | reserve here found =>
    obtain ⟨-, rfl⟩ := allocproc_some found
    exact .inl (aside rfl nofun)
  | abandon here => exact .inl (aside rfl nofun)
  | adopt running here => exact .inl (aside rfl (young _ _ here))
  | fill here => exact .inl (aside rfl nofun)
  | collect here found => exact .inl (aside rfl nofun)

/-- `reparent` wakes init when it passes a zombie on to it. -/
theorem reparent_wakes {r : Slot} (found : s.zombieChild r ≠ none)
    (asleep : ((s.reparent r).proc s.initproc).state = .sleeping) :
    (s.proc s.initproc).chan ≠ some (.proc s.initproc) := by
  simp only [State.reparent] at asleep
  split at asleep
  · next none => exact absurd none found
  · have named := wakeup1_awake asleep
    dsimp only at named
    split at named
    · exact named
    · exact named

/-- `exit` leaves no parent of a zombie asleep in `wait`: it wakes its own parent, and init when
it passes a zombie on to it. -/
theorem finishExit_prompt {r : Slot} (prompt : Prompt s) (apart : (s.proc r).parent ≠ some r)
    (waits : (s.finishExit r).Waiting p) (before : s.Waiting p) :
    ∀ q, ((s.finishExit r).proc q).parent = some p → ((s.finishExit r).proc q).state ≠ .zombie := by
  obtain ⟨chan, none⟩ := prompt p before
  have other : p ≠ r := by
    rintro rfl
    have zombie : ((s.finishExit p).proc p).state = .zombie := by
      simp [State.finishExit, State.setState, State.setProc, State.setPc]
    cases zombie.symm.trans waits.1
  have passed : ((s.finishExit r).proc p) = ((s.wakeParent r).reparent r).proc p :=
    Function.update_of_ne other ..
  have asleep := passed ▸ waits.1
  obtain ⟨woken, -⟩ := Wakes.reparent (s := s.wakeParent r) p asleep
  obtain ⟨-, kept⟩ := Wakes.wakeParent (s := s) p woken
  have init : (s.wakeParent r).initproc = s.initproc := by
    simp only [State.wakeParent]
    split <;> rfl
  intro q child zombie
  obtain ⟨st, after, kind⟩ := finishExit_proc s r q
  rw [after] at child zombie
  dsimp only at child zombie
  by_cases mine : q = r
  · subst mine
    rw [if_neg apart] at child
    simp only [State.wakeParent, child] at woken
    exact wakeup1_awake woken chan
  · rw [if_neg mine, zombie] at kind
    have zombie := kind_ended.mp kind.symm
    split at child
    · next orphan =>
      cases child
      obtain ⟨st, same, kind⟩ := wakeParent_proc s r q
      have found : (s.wakeParent r).zombieChild r ≠ .none := by
        intro none
        have unselected := List.find?_eq_none.mp none q (List.mem_finRange q)
        refine unselected ?_
        rw [same]
        rw [zombie] at kind
        simp [orphan, kind_ended.mp kind]
      rw [← init] at asleep
      have named := reparent_wakes found asleep
      rw [init] at named
      exact named (kept.trans chan)
    · exact none q child zombie

theorem Prompt.step (prompt : Prompt s) (apart : ∀ r, (s.proc r).parent ≠ some r)
    (young : ∀ r np, s.pc r = .forkParent np → (s.proc np).state ≠ .zombie)
    (taken : s.step a = some t) : Prompt t := by
  intro p waits
  rcases waiting_step taken waits with ⟨before, chan⟩ | falls
  · refine ⟨chan.trans (prompt p before).1, fun q child zombie => ?_⟩
    rcases zombie_step young taken child zombie with ⟨child, zombie⟩ | ⟨r, -, rfl⟩
    · exact (prompt p before).2 q child zombie
    · exact finishExit_prompt prompt (apart r) waits before q child zombie
  · obtain ⟨none, rfl⟩ := falls
    refine ⟨by simp [State.setProc], fun q child zombie => ?_⟩
    have other : q ≠ p := by
      rintro rfl
      simp [State.setProc] at zombie
    simp only [State.setProc, Function.update_of_ne other] at child zombie
    have unselected := List.find?_eq_none.mp none q (List.mem_finRange q)
    exact unselected (by simp [child, zombie])

end Steps

end Aso.Xv6.Ptable
