import Aso.Slots
import Aso.Xv6.Ptable.Machine

/-! The status that `wait` reports. The process table is seen as a table of
reusable slots: `fork` reserves and fills one, `exit` leaves a status in it, and
`wait` frees the slot under the lock and reads the status after the release. -/
namespace Aso.Xv6.Ptable
open Transition

def Procstate.kind : Procstate → Slots.Kind
  | .unused => .free
  | .embryo => .reserved
  | .sleeping | .runnable | .running => .held
  | .zombie => .ended

def Pc.role : Pc → Slots.Role Slot Int
  | .absent => .absent
  | .forkStack np | .forkCopy np | .forkParent np | .forkStart np => .filling np
  | .exiting => .leaving
  | .dead => .gone
  | .waitRead p pid child => .reading p pid child
  | _ => .working

theorem Procstate.kinds : kind .unused = .free ∧ kind .embryo = .reserved ∧ kind .runnable = .held ∧
    kind .zombie = .ended :=
  ⟨rfl, rfl, rfl, rfl⟩

theorem Pc.roles : role .sysReturn = .working ∧ role .user = .working ∧ role .absent = .absent ∧
    role .exiting = .leaving ∧
    role .dead = .gone :=
  ⟨rfl, rfl, rfl, rfl, rfl⟩

theorem Pc.role_forkStack (np : Slot) : role (.forkStack np) = .filling np := rfl

theorem Pc.role_waitRead (q : Slot) (pid : Int) (child : Nat) :
    role (.waitRead q pid child) = .reading q pid child := rfl

namespace State
variable {s t : State} {p : Slot}

def slots (s : State) : Slots.State Slot Int Exit Nat where
  kind q := (s.proc q).state.kind
  role q := (s.pc q).role
  name q := (s.proc q).pid
  word q := (s.proc q).status
  tenant := s.uid
  fresh := s.nextUid
  left := s.exits
  heard := s.reports.map fun r => ⟨r.child, r.pid, r.st⟩

/-- What a step does to the slots; `none` when they are as before. -/
def slotEvent (s : State) : Action → Option (Slots.Event Slot Int Exit)
  | .go p ok =>
    match s.pc p with
    | .sysBody .fork => s.allocproc.map fun (np, _) => .reserve p np s.nextpid
    | .sysBody .wait => (s.zombieChild p).map (.collect p · 0)
    | .forkStack np | .forkCopy np => if ok then none else some (.abandon p np)
    | .forkStart np => some (.fill p np)
    | .exitStore status how => some (.leave p ⟨(s.proc p).pid, status, how⟩)
    | .exiting => some (.finish p)
    | .waitRead q pid child => some (.read p q pid child)
    | _ => none
  | _ => none

theorem slots_setPc (c : Pc) :
    (s.setPc p c).slots = { s.slots with role := Function.update s.slots.role p c.role } := by
  simp only [slots, setPc, Slots.State.mk.injEq, true_and, and_true]
  exact Function.comp_update Pc.role s.pc p c

theorem slots_setPc_role {c : Pc} (same : c.role = (s.pc p).role) :
    (s.setPc p c).slots = s.slots := by
  rw [slots_setPc, same, show (s.pc p).role = s.slots.role p from rfl, Function.update_eq_self]

theorem slots_setProc (q : Proc) :
    (s.setProc p q).slots = { s.slots with
      kind := Function.update s.slots.kind p q.state.kind
      name := Function.update s.slots.name p q.pid
      word := Function.update s.slots.word p q.status } := by
  simp only [slots, setProc, Slots.State.mk.injEq, true_and, and_true]
  exact ⟨Function.comp_update (fun q : Proc => q.state.kind) s.proc p q,
    Function.comp_update Proc.pid s.proc p q, Function.comp_update Proc.status s.proc p q⟩

theorem slots_congr {proc : Slot → Proc} (kind : ∀ q, (proc q).state.kind = (s.proc q).state.kind)
    (pid : ∀ q, (proc q).pid = (s.proc q).pid) (status : ∀ q, (proc q).status = (s.proc q).status) :
    { s with proc := proc }.slots = s.slots := by
  simp [slots, kind, pid, status]

theorem slots_wakeup1 (chan : Chan) : (s.wakeup1 chan).slots = s.slots := by
  apply slots_congr <;> intro q <;> dsimp only <;> split
  all_goals simp_all [Procstate.kind]

theorem slots_setProc_same {q : Proc} (kind : q.state.kind = (s.proc p).state.kind)
    (pid : q.pid = (s.proc p).pid) (status : q.status = (s.proc p).status) :
    (s.setProc p q).slots = s.slots := by
  apply slots_congr <;> intro r <;> simp only [Function.update_apply] <;> split <;> simp_all

theorem slots_wakeParent : (s.wakeParent p).slots = s.slots := by
  unfold wakeParent
  split
  · rfl
  · exact slots_wakeup1 _

theorem slots_setState {st : Procstate} (kind : st.kind = (s.proc p).state.kind) :
    (s.setState p st).slots = s.slots :=
  slots_setProc_same kind rfl rfl

theorem slots_setKilled : (s.setKilled p).slots = s.slots := slots_setProc_same rfl rfl rfl

theorem slots_reparent : (s.reparent p).slots = s.slots := by
  unfold reparent
  dsimp only
  split
  case' h_2 => rw [slots_wakeup1]
  all_goals apply slots_congr <;> intro q <;> split <;> rfl

theorem slots_kill (pid : Int) : (s.kill pid).slots = s.slots := by
  unfold kill
  split
  · rfl
  · apply slots_setProc_same <;> dsimp only <;> split <;> simp_all [Procstate.kind]

theorem first_some {select : Slot → Bool} {q : Slot} (found : first select = some q) :
    select q = true :=
  List.find?_some found

theorem running_of_isRunning (running : s.isRunning p = true) : (s.proc p).state = .running := by
  simp only [isRunning, Bool.and_eq_true, decide_eq_true_eq] at running
  exact running.2

theorem slots_fork (forking : s.pc p = .sysBody .fork) {np : Slot}
    (found : s.allocproc = some (np, t)) :
    Slots.step Exit.status Exit.pid s.slots (.reserve p np s.nextpid) =
      some (t.setPc p (.forkStack np)).slots := by
  unfold allocproc at found
  split at found
  · cases found
  · rename_i q unused
    simp only [Option.some.injEq, Prod.mk.injEq] at found
    obtain ⟨rfl, rfl⟩ := found
    have free : s.slots.kind q = .free := by
      have := first_some unused
      simp only [decide_eq_true_eq] at this
      exact congrArg Procstate.kind this
    have working : s.slots.role p = .working := congrArg Pc.role forking
    rw [slots_setPc]
    simp only [Slots.step, working, free, and_self, if_true, Option.some.injEq]
    have placed := slots_setProc (s := s) (p := q)
      { s.proc q with state := .embryo, pid := s.nextpid }
    simp only [slots] at placed ⊢
    simp_all [slots, setProc, Procstate.kinds, Pc.role_forkStack]

theorem slots_abandon {np : Slot} (filling : (s.pc p).role = .filling np) :
    Slots.step Exit.status Exit.pid s.slots (.abandon p np) =
      some ((s.setState np .unused).setPc p .sysReturn).slots := by
  rw [slots_setPc, setState, slots_setProc]
  have role : s.slots.role p = .filling np := filling
  have name : (s.proc np).pid = s.slots.name np := rfl
  have word : (s.proc np).status = s.slots.word np := rfl
  simp [Slots.step, role, name, word, Procstate.kinds, Pc.roles]

theorem slots_fill {np : Slot} (filling : s.pc p = .forkStart np) :
    Slots.step Exit.status Exit.pid s.slots (.fill p np) =
      some (((s.setState np .runnable).setPc np .user).setPc p .sysReturn).slots := by
  rw [slots_setPc, slots_setPc, setState, slots_setProc]
  have role : s.slots.role p = .filling np := congrArg Pc.role filling
  have name : (s.proc np).pid = s.slots.name np := rfl
  have word : (s.proc np).status = s.slots.word np := rfl
  simp [Slots.step, role, name, word, Procstate.kinds, Pc.roles]

theorem slots_exitStore {status : Nat} {how : How} (storing : s.pc p = .exitStore status how) :
    Slots.step Exit.status Exit.pid s.slots (.leave p ⟨(s.proc p).pid, status, how⟩) =
      some { (s.setProc p { s.proc p with status := status }).setPc p .exiting with
        exits :=
          Function.update s.exits (s.uid p) (some ⟨(s.proc p).pid, status, how⟩) }.slots := by
  have moved := slots_setPc (s := s.setProc p { s.proc p with status := status }) (p := p) .exiting
  rw [slots_setProc] at moved
  have role : s.slots.role p = .working := congrArg Pc.role storing
  have name : (s.proc p).pid = s.slots.name p := rfl
  have kind : (s.proc p).state.kind = s.slots.kind p := rfl
  simp only [name, kind, Function.update_eq_self] at moved
  simp only [Slots.step, role, name, and_self, if_true, Option.some.injEq]
  simp only [slots, Slots.State.mk.injEq] at moved ⊢
  simp_all [setPc, setProc, Pc.roles]

theorem slots_finishExit (leaving : s.pc p = .exiting) :
    Slots.step Exit.status Exit.pid s.slots (.finish p) = some (s.finishExit p).slots := by
  have role : s.slots.role p = .leaving := congrArg Pc.role leaving
  have name (u : State) : (u.proc p).pid = u.slots.name p := rfl
  have word (u : State) : (u.proc p).status = u.slots.word p := rfl
  rw [finishExit, slots_setPc, setState, slots_setProc]
  simp [name, word, slots_reparent, slots_wakeParent, Slots.step, role, Procstate.kinds, Pc.roles]

theorem slots_collect {q : Slot} (waiting : s.pc p = .sysBody .wait)
    (finished : (s.proc q).state = .zombie) :
    Slots.step Exit.status Exit.pid s.slots (.collect p q 0) =
      some (((s.setProc q
        { s.proc q with pid := 0, parent := none, killed := false, state := .unused }).setPc q
        .absent).setPc p (.waitRead q (s.proc q).pid (s.uid q))).slots := by
  rw [slots_setPc, slots_setPc, slots_setProc]
  have role : s.slots.role p = .working := congrArg Pc.role waiting
  have kind : s.slots.kind q = .ended := congrArg Procstate.kind finished
  have name : (s.proc q).pid = s.slots.name q := rfl
  have word : (s.proc q).status = s.slots.word q := rfl
  have tenant : s.uid q = s.slots.tenant q := rfl
  simp [Slots.step, role, kind, name, word, tenant, Procstate.kinds, Pc.roles, Pc.role_waitRead]

theorem slots_waitRead {q : Slot} {pid : Int} {child : Nat}
    (reading : s.pc p = .waitRead q pid child) :
    Slots.step Exit.status Exit.pid s.slots (.read p q pid child) =
      some { s.setPc p .sysReturn with
        reports := s.reports ++ [(⟨child, pid, (s.proc q).status⟩ : Report)] }.slots := by
  have moved := slots_setPc (s := s) (p := p) .sysReturn
  have role : s.slots.role p = .reading q pid child := congrArg Pc.role reading
  simp only [Slots.step, role, if_true, Option.some.injEq]
  simp only [slots, Slots.State.mk.injEq] at moved ⊢
  simp_all [setPc, Pc.roles]

theorem zombieChild_some {q : Slot} (found : s.zombieChild p = some q) :
    (s.proc q).state = .zombie := by
  have selected := first_some found
  simp only [decide_eq_true_eq] at selected
  exact selected.2

theorem slots_waitScan_some {q : Slot} (waiting : s.pc p = .sysBody .wait)
    (found : s.zombieChild p = some q) :
    Slots.step Exit.status Exit.pid s.slots (.collect p q 0) = some (s.waitScan p).slots := by
  simp only [waitScan, found]
  exact slots_collect waiting (zombieChild_some found)

theorem slots_waitScan_none (running : s.isRunning p = true) (waiting : s.pc p = .sysBody .wait)
    (found : s.zombieChild p = none) : (s.waitScan p).slots = s.slots := by
  have returns : (s.setPc p .sysReturn).slots = s.slots := slots_setPc_role (by rw [waiting]; rfl)
  simp only [waitScan, found]
  split
  · exact returns
  · split
    · exact returns
    · exact slots_setProc_same (by rw [running_of_isRunning running]; rfl) rfl rfl

theorem sysBody_slots {call : Syscall} {ok : Bool} (running : s.isRunning p = true)
    (here : s.pc p = .sysBody call) (taken : s.exec p ok (.sysBody call) = some t) :
    (s.slotEvent (.go p ok) = none ∧ t.slots = s.slots) ∨
      ∃ e, s.slotEvent (.go p ok) = some e ∧
      Slots.step Exit.status Exit.pid s.slots e = some t.slots := by
  simp only [slotEvent, here]
  cases call with
  | fork =>
    simp only [exec] at taken
    cases found : s.allocproc with
    | none =>
      simp only [found, Option.some.injEq] at taken
      subst t
      exact .inl ⟨rfl, slots_setPc_role (by rw [here]; rfl)⟩
    | some allocated =>
      obtain ⟨np, u⟩ := allocated
      simp only [found, Option.some.injEq] at taken
      subst t
      exact .inr ⟨_, rfl, slots_fork here found⟩
  | exit n =>
    simp only [exec, Option.some.injEq] at taken
    subst t
    exact .inl ⟨rfl, slots_setPc_role (by rw [here]; rfl)⟩
  | wait =>
    simp only [exec, Option.some.injEq] at taken
    subst t
    cases found : s.zombieChild p with
    | none => exact .inl ⟨rfl, slots_waitScan_none running here found⟩
    | some q => exact .inr ⟨_, rfl, slots_waitScan_some here found⟩
  | kill pid =>
    simp only [exec, Option.some.injEq] at taken
    subst t
    have kept : (s.kill pid).pc = s.pc := by unfold kill; split <;> rfl
    exact .inl ⟨rfl, (slots_setPc_role (by rw [kept, here]; rfl)).trans (slots_kill pid)⟩
  | other =>
    simp only [exec, Option.some.injEq] at taken
    subst t
    exact .inl ⟨rfl, slots_setPc_role (by rw [here]; rfl)⟩

theorem exec_slots {ok : Bool} (running : s.isRunning p = true)
    (taken : s.exec p ok (s.pc p) = some t) : (s.slotEvent (.go p ok) = none ∧ t.slots = s.slots) ∨
      ∃ e, s.slotEvent (.go p ok) = some e ∧
      Slots.step Exit.status Exit.pid s.slots e = some t.slots := by
  simp only [slotEvent]
  cases here : s.pc p with
  | absent | user | dead => simp [here, exec] at taken
  | sysEntry call =>
    simp only [here, exec, Option.some.injEq] at taken
    subst t
    exact .inl ⟨rfl, slots_setPc_role (by rw [here]; split <;> rfl)⟩
  | sysBody call =>
    rw [here] at taken
    simpa only [slotEvent, here] using sysBody_slots running here taken
  | sysReturn =>
    simp only [here, exec, Option.some.injEq] at taken
    subst t
    exact .inl ⟨rfl, slots_setPc_role (by rw [here]; split <;> rfl)⟩
  | trapBody trapno =>
    simp only [here, exec, Option.some.injEq] at taken
    subst t
    refine .inl ⟨rfl, ?_⟩
    split
    · exact slots_setPc_role (by rw [here]; rfl)
    · rw [slots_setKilled, slots_setPc_role (by rw [here]; rfl)]
  | trapCheck trapno =>
    simp only [here, exec, Option.some.injEq] at taken
    subst t
    exact .inl ⟨rfl, slots_setPc_role (by rw [here]; split <;> rfl)⟩
  | trapYield trapno =>
    simp only [here, exec, Option.some.injEq] at taken
    subst t
    refine .inl ⟨rfl, ?_⟩
    split
    · have kept : ((s.setPc p (.trapRecheck trapno)).proc p).state = .running :=
        running_of_isRunning running
      exact (slots_setState (by rw [kept]; rfl)).trans (slots_setPc_role (by rw [here]; rfl))
    · exact slots_setPc_role (by rw [here]; rfl)
  | trapRecheck trapno =>
    simp only [here, exec, Option.some.injEq] at taken
    subst t
    exact .inl ⟨rfl, slots_setPc_role (by rw [here]; split <;> rfl)⟩
  | exitStore status how =>
    simp only [here, exec, Option.some.injEq] at taken
    refine .inr ⟨_, rfl, ?_⟩
    rw [slots_exitStore here, ← taken]
    split <;> rfl
  | exiting =>
    simp only [here, exec, Option.some.injEq] at taken
    subst t
    exact .inr ⟨_, rfl, slots_finishExit here⟩
  | forkStack np | forkCopy np =>
    simp only [here, exec, Option.some.injEq] at taken
    subst t
    cases ok with
    | true => exact .inl ⟨rfl, slots_setPc_role (by rw [here]; rfl)⟩
    | false => exact .inr ⟨_, rfl, slots_abandon (by rw [here]; rfl)⟩
  | forkParent np =>
    simp only [here, exec, Option.some.injEq] at taken
    subst t
    have kept : (s.setProc np { s.proc np with parent := some p }).pc = s.pc := rfl
    exact .inl
      ⟨rfl, (slots_setPc_role (by rw [kept, here]; rfl)).trans (slots_setProc_same rfl rfl rfl)⟩
  | forkStart np =>
    simp only [here, exec, Option.some.injEq] at taken
    subst t
    exact .inr ⟨_, rfl, slots_fill here⟩
  | waitRead q pid child =>
    simp only [here, exec, Option.some.injEq] at taken
    subst t
    exact .inr ⟨_, rfl, slots_waitRead here⟩

/-- Every step is nothing or one event of the slots. -/
theorem step_slots (a : Action) (taken : s.step a = some t) :
    (s.slotEvent a = none ∧ t.slots = s.slots) ∨
      ∃ e, s.slotEvent a = some e ∧ Slots.step Exit.status Exit.pid s.slots e = some t.slots := by
  cases a with
  | schedule p =>
    simp only [step, Option.ite_none_right_eq_some, Option.some.injEq] at taken
    obtain ⟨⟨-, runnable⟩, rfl⟩ := taken
    exact .inl ⟨rfl, slots_setState (by rw [runnable]; rfl)⟩
  | preempt p =>
    simp only [step, Option.ite_none_right_eq_some, Option.some.injEq] at taken
    obtain ⟨⟨running, -⟩, rfl⟩ := taken
    exact .inl ⟨rfl, slots_setState (by rw [running_of_isRunning running]; rfl)⟩
  | block p k =>
    simp only [step, Option.ite_none_right_eq_some, Option.some.injEq] at taken
    obtain ⟨⟨running, -⟩, rfl⟩ := taken
    exact .inl ⟨rfl, slots_setProc_same (by rw [running_of_isRunning running]; rfl) rfl rfl⟩
  | unblock k =>
    simp only [step, Option.ite_none_left_eq_some, Option.some.injEq] at taken
    obtain ⟨-, rfl⟩ := taken
    exact .inl ⟨rfl, slots_wakeup1 _⟩
  | syscall p call =>
    simp only [step, Option.ite_none_right_eq_some, Option.some.injEq] at taken
    obtain ⟨⟨-, user⟩, rfl⟩ := taken
    exact .inl ⟨rfl, slots_setPc_role (by rw [user]; rfl)⟩
  | trap p trapno =>
    simp only [step, Option.ite_none_right_eq_some, Option.some.injEq] at taken
    obtain ⟨⟨-, user, -⟩, rfl⟩ := taken
    exact .inl ⟨rfl, slots_setPc_role (by rw [user]; rfl)⟩
  | kernelFault p =>
    simp only [step, Option.ite_none_right_eq_some, Option.some.injEq] at taken
    obtain ⟨-, rfl⟩ := taken
    exact .inl ⟨rfl, slots_setKilled⟩
  | go p ok =>
    simp only [step, Option.ite_none_right_eq_some] at taken
    exact exec_slots taken.1 taken.2

end State

/-- The status about to be stored by `exit`. -/
def Pc.stores : Pc → Option Nat
  | .exitStore status _ => some status
  | _ => none

def Pc.reads (q : Slot) : Pc → Bool
  | .waitRead p _ _ => p = q
  | _ => false

/-- `exit` does not change the status of a slot while a `wait` that has already
released the slot is still to read it. -/
def Undisturbed (s : State) : Action → Prop
  | .go p _ => ∀ status ∈ (s.pc p).stores, ∀ w, (s.pc w).reads p → status = (s.proc p).status
  | _ => True

instance : ∀ s a, Decidable (Undisturbed s a)
  | s, .go p _ => inferInstanceAs (Decidable (∀ status ∈ (s.pc p).stores, ∀ w, (s.pc w).reads p →
      status = (s.proc p).status))
  | _, .schedule _ | _, .preempt _ | _, .block _ _ | _, .unblock _ | _, .syscall _ _ | _, .trap _ _
  | _, .kernelFault _ => isTrue trivial

theorem undisturbed_slots {s : State} {a : Action} {e : Slots.Event Slot Int Exit}
    (quiet : Undisturbed s a) (seen : s.slotEvent a = some e) :
    Slots.Undisturbed Exit.status s.slots e := by
  cases e with
  | leave p record =>
    obtain ⟨ok, rfl, status, how, storing, rfl⟩ : ∃ ok, a = .go p ok ∧ ∃ status how,
        s.pc p = .exitStore status how ∧ record = ⟨(s.proc p).pid, status, how⟩ := by
      unfold State.slotEvent at seen
      split at seen
      · rename_i q ok
        cases here : s.pc q <;> simp [here] at seen
        case sysBody call => cases call <;> simp at seen
        case exitStore status how =>
          obtain ⟨rfl, rfl⟩ := seen
          exact ⟨ok, rfl, status, how, here, rfl⟩
      · cases seen
    intro w name tenant reading
    apply quiet status (by simp [storing, Pc.stores]) w
    have here : (s.pc w).role = .reading p name tenant := reading
    unfold Pc.role at here
    split at here <;> simp_all [Pc.reads]
  | _ => trivial

theorem slots_userinit : Slots.Inv Exit.status Exit.pid userinit.slots := by
  have role : ∀ q, userinit.slots.role q = .absent ∨ userinit.slots.role q = .working := by decide
  constructor
  case distinct => exact Fin.val_injective
  case numbered => exact Fin.isLt
  case future | silent => exact fun _ _ => rfl
  case empty | ended => decide
  case told => exact fun _ told => nomatch told
  case filled | reads | last => grind -ring -linarith -order
  case sole => grind -ring -linarith -order

theorem reports_left {schedule : List Action} {s : State}
    (quiet : Along State.step Undisturbed userinit schedule)
    (reached : run State.step userinit schedule = some s) {r : Report} (reported : r ∈ s.reports) :
    ∃ e, s.exits r.child = some e ∧ r.st = e.status ∧ r.pid = e.pid := by
  obtain ⟨events, calm, follows⟩ :=
    simulation State.slots State.slotEvent (fun _ a _ => State.step_slots a)
    (fun _ _ _ => undisturbed_slots) quiet reached
  exact Slots.heard_left slots_userinit calm follows (r := ⟨r.child, r.pid, r.st⟩)
    (List.mem_map_of_mem
    (f := fun r : Report => (⟨r.child, r.pid, r.st⟩ : Slots.Heard Int Nat)) reported)

/-- As long as no `exit` disturbs a pending read, every status reported by
`wait` is the one that the reported child passed to `exit`. -/
theorem wait_reports_exit_status (schedule : List Action) (s : State)
    (quiet : Along State.step Undisturbed userinit schedule)
    (reached : run State.step userinit schedule = some s) :
    ∀ r ∈ s.reports, ∃ e, s.exits r.child = some e ∧ r.pid = e.pid ∧ r.st = e.status := by
  intro r reported
  obtain ⟨e, left, status, pid⟩ := reports_left quiet reached reported
  exact ⟨e, left, pid, status⟩

/-- `p` calls `fork` and returns to user mode. -/
def forks (p : Slot) : List Action := .syscall p .fork :: List.replicate 7 (.go p true)

/-- `p` starts and calls `exit(n)`, up to the end of the process. -/
def runsExit (p : Slot) (n : Int) : List Action :=
  .schedule p :: .syscall p (.exit n) :: List.replicate 4 (.go p true)

/-- `p` calls `wait` and reaps a zombie, up to the release of the lock. -/
def reaps (p : Slot) : List Action := [.syscall p .wait, .go p true, .go p true]

/-- The initial process forks one child and collects it. -/
def forkAndWait : List Action :=
  .schedule 0 :: forks 0 ++ runsExit 1 3 ++ reaps 0 ++ [.go 0 true]

theorem wait_reports_child_of_init :
    ∃ s, run State.step userinit forkAndWait = some s ∧ s.reports = [⟨64, 2, 768⟩] ∧
      ∀ r ∈ s.reports, ∃ e, s.exits r.child = some e ∧ r.pid = e.pid ∧ r.st = e.status := by
  have runs : (run State.step userinit forkAndWait).map State.reports = some [⟨64, 2, 768⟩] := by
    decide
  obtain ⟨s, reached, reports⟩ := Option.map_eq_some_iff.mp runs
  exact ⟨s, reached, reports, wait_reports_exit_status forkAndWait s (by decide) reached⟩

/-- Two children: while the initial process is about to read the status of the
first, the second forks into the freed slot and the new child exits with 5. -/
def slotReused : List Action :=
  .schedule 0 :: forks 0 ++ forks 0 ++ runsExit 1 3 ++ reaps 0 ++ .schedule 2 :: forks 2 ++
    runsExit 1 5 ++
    [.go 0 true]

theorem wait_reports_reused_slot :
    (run State.step userinit slotReused).map (fun s => (s.reports, s.exits 64)) =
      some ([⟨64, 2, 1280⟩], some ⟨2, 768, .exited 3⟩) := by
  decide

end Aso.Xv6.Ptable
