import Aso.Lineage
import Aso.Xv6.Ptable.Asleep

/-! The tree of processes. Under any interleaving a process that has started
has a living parent until it is reaped, whoever exits first; an exited process
stays a zombie until one `wait`, its parent's, returns it. -/
namespace Aso.Xv6.Ptable
open Transition

/-- The table of slots, whatever the statuses are. -/
def State.places (s : State) : Slots.State Slot Int Exit Unit := s.slots.mapWord fun _ => ()

/-- Slots, incarnations and program counters agree, and no incarnation is collected twice. -/
structure Placed (s : State) : Prop where
  table : Slots.Inv (fun _ => ()) Exit.pid s.places
  once : Slots.Once s.places

def State.lineage (s : State) : Lineage.Tree Slot where
  kind q := (s.proc q).state.kind
  parent q := (s.proc q).parent
  starting p := (s.pc p).starting
  root := s.initproc

structure Family (s : State) : Prop where
  tree : Lineage.Inv s.lineage
  init : s.pc s.initproc = .exiting → s.panicked = true

theorem placed_step {s t : State} {a : Action} (placed : Placed s) (taken : s.step a = some t) :
    Placed t := by
  rcases State.step_slots a taken with ⟨-, same⟩ | ⟨e, -, moved⟩
  · have places : t.places = s.places := congrArg (Slots.State.mapWord fun _ => ()) same
    exact ⟨places ▸ placed.table, places ▸ placed.once⟩
  · have moved := Slots.step_mapWord (fun _ => ()) moved
    have undisturbed : Slots.Undisturbed (fun _ => ()) s.places e := by
      cases e <;> simp [Slots.Undisturbed]
    exact ⟨Slots.inv_step placed.table undisturbed moved,
      Slots.once_step placed.table placed.once moved⟩

theorem placed_userinit : Placed userinit := by
  have table := slots_userinit.mapWord fun _ => ()
  exact ⟨table, table.once_of_fresh fun _ => rfl⟩

namespace Placed
variable {s : State} {p p' np : Slot}

theorem reserved (placed : Placed s) (filling : (s.pc p).role = .filling np) :
    (s.proc np).state.kind = .reserved :=
  (placed.table.filled p np filling).1

theorem sole (placed : Placed s) (first : (s.pc p).role = .filling np)
    (second : (s.pc p').role = .filling np) : p = p' :=
  placed.table.sole p p' np first second

end Placed

namespace State
variable {s : State} {p : Slot}

theorem lineage_setPc (c : Pc) :
    (s.setPc p c).lineage =
    { s.lineage with starting := Function.update s.lineage.starting p c.starting } := by
  simp only [lineage, setPc, Lineage.Tree.mk.injEq, true_and, and_true]
  exact Function.comp_update Pc.starting s.pc p c

theorem lineage_setPc_same {c : Pc} (same : c.starting = (s.pc p).starting) :
    (s.setPc p c).lineage = s.lineage := by
  rw [lineage_setPc, same, show (s.pc p).starting = s.lineage.starting p from rfl,
    Function.update_eq_self]

theorem lineage_setProc (q : Proc) :
    (s.setProc p q).lineage = { s.lineage with
      kind := Function.update s.lineage.kind p q.state.kind
      parent := Function.update s.lineage.parent p q.parent } := by
  simp only [lineage, setProc, Lineage.Tree.mk.injEq, and_true]
  exact ⟨Function.comp_update (fun q : Proc => q.state.kind) s.proc p q,
    Function.comp_update Proc.parent s.proc p q⟩

/-- A process keeps its parent. -/
theorem lineage_setProc_kind {q : Proc} (same : q.parent = (s.proc p).parent) :
    (s.setProc p q).lineage =
    { s.lineage with kind := Function.update s.lineage.kind p q.state.kind } := by
  rw [lineage_setProc, same, show (s.proc p).parent = s.lineage.parent p from rfl,
    Function.update_eq_self]

theorem lineage_setState (st : Procstate) :
    (s.setState p st).lineage =
    { s.lineage with kind := Function.update s.lineage.kind p st.kind } :=
  lineage_setProc_kind rfl

theorem lineage_kill (pid : Int) : (s.kill pid).lineage = s.lineage := by
  simp only [kill]
  split
  · rfl
  · next q found =>
    have kept {r : Proc} (kind : r.state.kind = (s.proc q).state.kind)
        (parent : r.parent = (s.proc q).parent) :
        (s.setProc q r).lineage = s.lineage := by
      rw [lineage_setProc_kind parent, kind, show (s.proc q).state.kind = s.lineage.kind q from rfl,
        Function.update_eq_self]
    split
    · next asleep => exact kept (by dsimp only at asleep ⊢; rw [asleep]; rfl) rfl
    · exact kept rfl rfl

theorem lineage_finishExit (here : s.pc p = .exiting) :
    (s.finishExit p).lineage = { s.lineage with
      kind := Function.update s.lineage.kind p .ended
      parent := fun q => if s.lineage.parent q = some p then some s.lineage.root
      else s.lineage.parent q } := by
  obtain ⟨pc, initproc, -⟩ := finishExit_rest s p
  simp only [lineage, Lineage.Tree.mk.injEq]
  refine ⟨?_, ?_, ?_, initproc⟩
  · funext q
    obtain ⟨st, after, kind⟩ := finishExit_proc s p q
    rw [after, Function.update_apply]
    exact kind
  · funext q
    obtain ⟨st, after, kind⟩ := finishExit_proc s p q
    rw [after]
    dsimp only
    congr
  · funext q
    rw [pc, Function.update_apply]
    split
    · next same =>
      rw [same, here]
      rfl
    · rfl

end State

theorem setPc_exiting {s : State} {p q : Slot} {c : Pc} (leaving : (s.setPc p c).pc q = .exiting)
    (plain : c ≠ .exiting) : s.pc q = .exiting := by
  simp only [State.setPc, Function.update_apply] at leaving
  split at leaving
  · exact absurd leaving plain
  · exact leaving

/-- An unused or embryonic slot is not in the middle of any code. -/
theorem Placed.vacant {s : State} {p : Slot} (placed : Placed s)
    (empty : (s.proc p).state.kind = .free ∨ (s.proc p).state.kind = .reserved) :
    s.pc p = .absent := by
  have role : (s.pc p).role = .absent := placed.table.empty p empty
  revert role
  cases s.pc p <;> simp [Pc.role]

theorem Placed.dead {s : State} {p : Slot} (placed : Placed s)
    (ended : (s.proc p).state.kind = .ended) : (s.pc p).starting = none := by
  have role : (s.pc p).role = .gone := placed.table.ended p ended
  revert role
  cases s.pc p <;> simp [Pc.role, Pc.starting, Pc.mark]

/-- Until `fork` stores it, a reserved slot has no parent:
only the process that fills it could be. -/
theorem Placed.alone {s : State} {p np : Slot} (placed : Placed s) (tree : Lineage.Inv s.lineage)
    (filling : (s.pc p).role = .filling np) (idle : (s.pc p).starting = none) :
    (s.proc np).parent = none := by
  cases named : (s.proc np).parent with
  | none => rfl
  | some q =>
    have starting : (s.pc q).starting = some np := tree.embryo np q (placed.reserved filling) named
    have role : (s.pc q).role = .filling np := by
      revert starting
      cases s.pc q <;> simp [Pc.role, Pc.starting, Pc.mark]
    rw [placed.sole role filling, idle] at starting
    cases starting

namespace Family
variable {s t : State} {p q np : Slot} {a : Action}

theorem of_same (family : Family s) (lineage : t.lineage = s.lineage)
    (marks : ∀ q, (t.pc q).mark = (s.pc q).mark) (panicked : t.panicked = s.panicked) :
    Family t := by
  refine ⟨lineage ▸ family.tree, fun leaving => ?_⟩
  have initproc : t.initproc = s.initproc := congrArg Lineage.Tree.root lineage
  rw [initproc] at leaving
  rw [panicked]
  exact family.init (Pc.mark_exiting.mp ((marks _).symm.trans (Pc.mark_exiting.mpr leaving)))

/-- A step that does not bring init into `exit`. -/
theorem of_tree (family : Family s) (tree : Lineage.Inv t.lineage)
    (initproc : t.initproc = s.initproc)
    (pc : t.pc s.initproc = .exiting → s.pc s.initproc = .exiting)
    (panicked : t.panicked = s.panicked) : Family t := by
  refine ⟨tree, fun leaving => ?_⟩
  rw [initproc] at leaving
  rw [panicked]
  exact family.init (pc leaving)

theorem step (family : Family s) (placed : Placed s) (taken : s.step a = some t) : Family t := by
  have tree := family.tree
  cases step_effect taken with
  | quiet moved =>
    refine family.of_same ?_ moved.marks moved.panicked
    simp only [State.lineage, Lineage.Tree.mk.injEq, moved.initproc, and_true]
    refine ⟨funext fun q => (moved.procs q).kind, funext fun q => (moved.procs q).parent,
      funext fun q => ?_⟩
    exact congrArg Option.join (moved.marks q)
  | @kill p ok pid here =>
    obtain ⟨pc, initproc, panicked⟩ := kill_rest s pid
    refine family.of_tree ?_ initproc ?_ panicked
    · rw [State.lineage_setPc_same (by rw [pc, here]; rfl), State.lineage_kill]
      exact tree
    · intro leaving
      rw [← pc]
      exact setPc_exiting leaving nofun
  | @reserve p np ok u here found =>
    obtain ⟨unused, rfl⟩ := allocproc_some found
    refine family.of_tree ?_ rfl (fun leaving => setPc_exiting leaving nofun) rfl
    rw [State.lineage_setPc_same (by change _ = (s.pc p).starting; rw [here]; rfl)]
    have free : s.lineage.kind np = .free := by
      change (s.proc np).state.kind = _
      rw [unused]
      rfl
    have moved := State.lineage_setProc_kind (s := s) (p := np)
      (q := { s.proc np with state := .embryo, pid := s.nextpid }) rfl
    exact moved ▸ tree.reserve free
  | @abandon p np ok here =>
    have filling : (s.pc p).role = .filling np := by
      rcases here with here | here <;> rw [here] <;> rfl
    refine family.of_tree ?_ rfl (fun leaving => setPc_exiting leaving nofun) rfl
    rw [State.lineage_setPc_same
      (by change _ = (s.pc p).starting; rcases here with here | here <;> rw [here] <;> rfl),
      State.lineage_setState]
    refine tree.abandon (placed.reserved filling) ?_
    exact placed.alone tree filling (by rcases here with here | here <;> rw [here] <;> rfl)
  | @adopt p np ok running here =>
    have filling : (s.pc p).role = .filling np := by rw [here]; rfl
    have idle : (s.pc p).starting = none := by rw [here]; rfl
    refine family.of_tree ?_ rfl (fun leaving => setPc_exiting leaving nofun) rfl
    have grown := tree.adopt (held_of_running running) idle (placed.reserved filling)
      (placed.alone tree filling idle)
    have same : Function.update s.lineage.kind np (s.proc np).state.kind = s.lineage.kind :=
      Function.update_eq_self np s.lineage.kind
    rw [State.lineage_setPc, State.lineage_setProc]
    dsimp only
    rw [same]
    exact grown
  | @fill p np ok here =>
    have ready : s.lineage.starting p = some np := by change (s.pc p).starting = _; rw [here]; rfl
    have apart : (s.pc np).starting = none := by
      rw [placed.vacant (.inr (placed.reserved (p := p) (by rw [here]; rfl)))]
      rfl
    refine family.of_tree ?_ rfl
      (fun leaving => setPc_exiting (setPc_exiting leaving nofun) nofun) rfl
    rw [State.lineage_setPc,
      State.lineage_setPc_same (by change _ = (s.pc np).starting; rw [apart]; rfl),
      State.lineage_setState]
    exact tree.fill ready
  | @store p ok t procs here pc initproc init still =>
    refine ⟨?_, fun leaving => ?_⟩
    · have same : t.lineage = s.lineage := by
        simp only [State.lineage, Lineage.Tree.mk.injEq, initproc, and_true]
        refine ⟨funext fun q => (procs q).kind, funext fun q => (procs q).parent,
          funext fun q => ?_⟩
        rw [pc, Function.update_apply]
        split
        · next mine =>
          rw [mine, Pc.starting, Pc.starting, here]
          rfl
        · rfl
      exact same ▸ tree
    · rw [initproc, pc, Function.update_apply] at leaving
      split at leaving
      · next mine => exact init mine.symm
      · exact absurd (family.init leaving) (by rw [still]; nofun)
  | @finish p ok running here =>
    obtain ⟨pc, initproc, panicked⟩ := finishExit_rest s p
    have other : p ≠ s.initproc := by
      rintro rfl
      have stopped := family.init here
      simp [State.isRunning, stopped] at running
    refine family.of_tree ?_ initproc ?_ panicked
    · rw [State.lineage_finishExit here]
      exact tree.finish (held_of_running running)
        (by change (s.pc p).starting = _; rw [here]; rfl) other
    · intro leaving
      rw [pc, Function.update_of_ne other.symm] at leaving
      exact leaving
  | @collect p q ok here found =>
    have zombie : s.lineage.kind q = .ended := by
      change (s.proc q).state.kind = _
      rw [State.zombieChild_some found]
      rfl
    have dead : (s.pc q).starting = none := placed.dead zombie
    refine family.of_tree ?_ rfl
      (fun leaving => setPc_exiting (setPc_exiting leaving (by rintro ⟨⟩)) (by rintro ⟨⟩)) rfl
    have idle : s.lineage.starting p = none := by
      change (s.pc p).starting = _
      rw [here]
      rfl
    rw [State.lineage_setPc,
      State.lineage_setPc_same (by change _ = (s.pc q).starting; rw [dead]; rfl),
      State.lineage_setProc]
    have same : Function.update s.lineage.starting p none = s.lineage.starting := by
      rw [← idle, Function.update_eq_self]
    have collected := tree.collect zombie
    exact same.symm ▸ collected

end Family

theorem family_userinit : Family userinit := by
  have free (q : Slot) (other : q ≠ 0) : userinit.proc q = blank := by simp [userinit, other]
  have alone (q : Slot) : (userinit.proc q).parent = none := by
    obtain rfl | other := eq_or_ne q 0
    · rfl
    · rw [free q other]
      rfl
  have idle (p : Slot) : (userinit.pc p).mark = none := by
    obtain rfl | other := eq_or_ne p 0
    · rfl
    · rw [show userinit.pc p = .absent by simp [userinit, other]]
      rfl
  refine ⟨⟨fun q _ => alone q, ?_, ?_, ?_, ?_, ?_, ⟨rfl, rfl⟩⟩, fun leaving => ?_⟩
  · intro q p _ named
    exact nomatch (alone q).symm.trans named
  · intro p q named
    have none : (userinit.pc p).starting = none := congrArg Option.join (idle p)
    exact nomatch none.symm.trans named
  · intro q started other
    have unused : userinit.lineage.kind q = .free := by
      change (userinit.proc q).state.kind = _
      rw [free q other]
      rfl
    rw [unused] at started
    rcases started with wrong | wrong <;> cases wrong
  · intro q p named
    exact nomatch (alone q).symm.trans named
  · intro q named
    exact nomatch (alone q).symm.trans named
  · exact nomatch (idle 0).symm.trans (Pc.mark_exiting.mpr leaving)

theorem prompt_userinit : Prompt userinit := by
  rintro p ⟨asleep, -⟩
  exfalso
  obtain rfl | other := eq_or_ne p 0
  · cases asleep
  · simp [userinit, other, blank] at asleep

theorem Prompt.next {s t : State} {a : Action} (prompt : Prompt s) (placed : Placed s)
    (family : Family s) (taken : s.step a = some t) : Prompt t := by
  refine prompt.step family.tree.apart (fun r np here zombie => ?_) taken
  have filling : (s.pc r).role = .filling np := by
    rw [here]
    rfl
  have reserved := placed.reserved filling
  rw [zombie] at reserved
  cases reserved

theorem family_reached {schedule : List Action} {s : State}
    (reached : run State.step userinit schedule = some s) : Placed s ∧ Family s ∧ Prompt s := by
  have preserves (s : State) (a : Action) (t : State) (inv : Placed s ∧ Family s ∧ Prompt s)
      (taken : s.step a = some t) : Placed t ∧ Family t ∧ Prompt t := by
    obtain ⟨placed, family, prompt⟩ := inv
    exact ⟨placed_step placed taken, family.step placed taken, prompt.next placed family taken⟩
  exact invariant (P := fun s => Placed s ∧ Family s ∧ Prompt s) preserves reached
    ⟨placed_userinit, family_userinit, prompt_userinit⟩

namespace State

/-- Incarnation `u` has called `exit` and no `wait` has found it yet. -/
def Awaited (s : State) (u : Nat) : Prop :=
  ∃ q, s.uid q = u ∧ (s.pc q = .exiting ∨ (s.proc q).state = .zombie)

/-- A `wait` of `p` has found incarnation `u` and is about to return its pid. -/
def Returning (s : State) (p : Slot) (u : Nat) : Prop := ∃ q pid, s.pc p = .waitRead q pid u

/-- A `wait` has returned the pid of incarnation `u`. -/
def Returned (s : State) (u : Nat) : Prop := u ∈ s.reports.map Report.child

end State

section Reached
variable {s t : State} {p q : Slot} {u : Nat}

theorem role_reading {c : Pc} {pid : Int} : c.role = .reading q pid u ↔ c = .waitRead q pid u := by
  cases c <;> simp [Pc.role]

theorem role_settled {c : Pc} : c.role = .leaving ∨ c.role = .gone ↔ c = .exiting ∨ c = .dead := by
  cases c <;> simp [Pc.role]

theorem returned_iff : s.Returned u ↔ u ∈ s.places.heard.map Slots.Heard.tenant := by
  simp [State.Returned, State.places, State.slots, Slots.State.mapWord]

theorem awaited_iff (placed : Placed s) :
    s.Awaited u ↔
      ∃ q, s.places.tenant q = u ∧ (s.places.role q = .leaving ∨ s.places.role q = .gone) := by
  constructor
  · rintro ⟨q, rfl, leaving | zombie⟩
    · exact ⟨q, rfl, role_settled.mpr (.inl leaving)⟩
    · refine ⟨q, rfl, .inr (placed.table.ended q ?_)⟩
      change (s.proc q).state.kind = _
      rw [zombie]
      rfl
  · rintro ⟨q, rfl, settled⟩
    refine ⟨q, rfl, ?_⟩
    rcases role_settled.mp settled with leaving | dead
    · exact .inl leaving
    · have ended : (s.proc q).state.kind = .ended :=
        placed.once.ended q (by change (s.pc q).role = _; rw [dead]; rfl)
      right
      revert ended
      cases (s.proc q).state <;> simp [Procstate.kind]

/-- An exited process is in one place: awaited, or found by one `wait`, or returned by one. -/
theorem exited_once (placed : Placed s) (exited : s.exits u ≠ none) :
    (s.Awaited u ∧ (∀ p, ¬ s.Returning p u) ∧ ¬ s.Returned u) ∨
      (¬ s.Awaited u ∧ (∃! p, s.Returning p u) ∧ ¬ s.Returned u) ∨
      (¬ s.Awaited u ∧ (∀ p, ¬ s.Returning p u) ∧ s.Returned u) := by
  obtain ⟨somewhere, waits, reader, unread, -, -⟩ := placed.once
  have awaits (here : s.Awaited u) : (∀ p, ¬ s.Returning p u) ∧ ¬ s.Returned u := by
    obtain ⟨q, rfl, settled⟩ := (awaited_iff placed).mp here
    obtain ⟨unheard, unread⟩ := waits q settled
    refine ⟨?_, fun returned => unheard (returned_iff.mp returned)⟩
    rintro p ⟨r, pid, reading⟩
    exact unread p r pid (role_reading.mpr reading)
  have returning {p : Slot} (here : s.Returning p u) : ¬ s.Returned u := by
    obtain ⟨r, pid, reading⟩ := here
    exact fun returned => unread p r pid u (role_reading.mpr reading) (returned_iff.mp returned)
  by_cases waiting : s.Awaited u
  · exact .inl ⟨waiting, awaits waiting⟩
  · rcases somewhere u exited with here | ⟨p, r, pid, reading⟩ | told
    · exact absurd ((awaited_iff placed).mpr here) waiting
    · have here : s.Returning p u := ⟨r, pid, role_reading.mp reading⟩
      refine .inr (.inl ⟨waiting, ⟨p, here, ?_⟩, returning here⟩)
      rintro p' ⟨r', pid', reading'⟩
      exact reader p' p r' r pid' pid u (role_reading.mpr reading') reading
    · have returned := returned_iff.mpr told
      exact .inr (.inr ⟨waiting, fun p here => returning here returned, returned⟩)

/-- A `wait` finds only a zombie child of its own process. -/
theorem wait_finds_child {a : Action} {pid : Int} (taken : s.step a = some t)
    (now : t.pc p = .waitRead q pid u) (new : s.pc p ≠ .waitRead q pid u) :
    (s.proc q).parent = some p ∧ (s.proc q).state = .zombie ∧ (s.proc q).pid = pid ∧
      s.uid q = u := by
  rcases State.step_slots a taken with ⟨-, same⟩ | ⟨e, seen, moved⟩
  · have before : (s.pc p).role = .reading q pid u := by
      change s.slots.role p = _
      rw [← same]
      exact role_reading.mpr now
    exact absurd (role_reading.mp before) new
  · rcases Slots.reading_step moved (role_reading.mpr now) with before | ⟨n, rfl, name, tenant⟩
    · exact absurd (role_reading.mp before) new
    · have found : s.zombieChild p = some q := by
        cases a with
        | go p' ok =>
          simp only [State.slotEvent] at seen
          cases here : s.pc p' <;> simp [here] at seen
          case sysBody call =>
            cases call <;> simp at seen
            obtain ⟨found, rfl, -⟩ := seen
            exact found
        | _ => cases seen
      have selected := State.first_some found
      simp only [decide_eq_true_eq] at selected
      exact ⟨selected.1, selected.2, name, tenant⟩

/-- `wait` goes from its scan straight to the return only with the value -1. -/
theorem wait_fails {ok : Bool} (waiting : s.pc p = .sysBody .wait)
    (taken : s.step (.go p ok) = some t) (fails : t.pc p = .sysReturn)
    (unkilled : (s.proc p).killed = false) : ∀ q, (s.proc q).parent ≠ some p := by
  simp only [State.step, Option.ite_none_right_eq_some] at taken
  obtain ⟨-, taken⟩ := taken
  rw [waiting] at taken
  cases taken
  intro q child
  simp only [State.waitScan] at fails
  split at fails
  · simp [State.setPc] at fails
  · split at fails
    · next none =>
      have unselected := List.find?_eq_none.mp none q (List.mem_finRange q)
      exact unselected (by simpa using child)
    · split at fails
      · next killed => exact absurd (unkilled.symm.trans killed) Bool.false_ne_true
      · cases waiting.symm.trans fails

/-- With a zombie child the scan of `wait` reaps one. -/
theorem wait_reaps {ok : Bool} (waiting : s.pc p = .sysBody .wait)
    (taken : s.step (.go p ok) = some t) (child : (s.proc q).parent = some p)
    (zombie : (s.proc q).state = .zombie) :
    ∃ r, (s.proc r).parent = some p ∧ (s.proc r).state = .zombie ∧ (t.proc r).state = .unused ∧
      t.pc p = .waitRead r (s.proc r).pid (s.uid r) := by
  simp only [State.step, Option.ite_none_right_eq_some] at taken
  obtain ⟨-, taken⟩ := taken
  rw [waiting] at taken
  cases taken
  simp only [State.waitScan]
  split
  · next r found =>
    have selected := State.first_some found
    simp only [decide_eq_true_eq] at selected
    refine ⟨r, selected.1, selected.2, ?_, ?_⟩
    · simp [State.setPc, State.setProc]
    · simp [State.setPc]
  · next none =>
    have unselected := List.find?_eq_none.mp none q (List.mem_finRange q)
    exact absurd (by simp [child, zombie]) unselected

/-- A `wait` that has reaped a child reports it with its next step, which no other process
keeps it from. -/
theorem reaped_reported {a : Action} {pid : Int} (placed : Placed s) (taken : s.step a = some t)
    (reading : s.pc p = .waitRead q pid u) :
    (∃ ok, a = .go p ok ∧ t.pc p = .sysReturn ∧
      t.reports = s.reports ++ [⟨u, pid, (s.proc q).status⟩]) ∨
      (∀ ok, a ≠ .go p ok) ∧ t.pc p = .waitRead q pid u := by
  cases a with
  | go r ok =>
    simp only [State.step, Option.ite_none_right_eq_some] at taken
    obtain ⟨-, taken⟩ := taken
    by_cases mine : r = p
    · subst mine
      rw [reading] at taken
      cases taken
      exact .inl ⟨ok, rfl, by simp [State.setPc], rfl⟩
    · refine .inr ⟨fun ok same => mine (by cases same; rfl), ?_⟩
      rcases exec_bystanders taken with others | falls
      · rcases others.moved p (Ne.symm mine) with same | ⟨-, starts⟩ | ⟨-, reaped⟩
        · exact same.trans reading
        · -- a process that `fork` still builds has no code to run
          have filling : (s.pc r).role = .filling p := by
            rw [starts]
            rfl
          have reserved := placed.reserved filling
          cases reading.symm.trans (placed.vacant (.inr reserved))
        · have gone : (s.pc p).role = .gone := by
            refine placed.table.ended p ?_
            change (s.proc p).state.kind = _
            rw [State.zombieChild_some reaped]
            rfl
          rw [reading] at gone
          cases gone
      · rw [falls.table]
        exact reading
  | syscall r call =>
    simp only [State.step, Option.ite_none_right_eq_some, Option.some.injEq] at taken
    obtain ⟨⟨-, user⟩, rfl⟩ := taken
    have other : p ≠ r := by
      rintro rfl
      cases reading.symm.trans user
    exact .inr ⟨by simp, (Function.update_of_ne other ..).trans reading⟩
  | trap r trapno =>
    simp only [State.step, Option.ite_none_right_eq_some, Option.some.injEq] at taken
    obtain ⟨⟨-, user, -⟩, rfl⟩ := taken
    have other : p ≠ r := by
      rintro rfl
      cases reading.symm.trans user
    exact .inr ⟨by simp, (Function.update_of_ne other ..).trans reading⟩
  | schedule r | preempt r | block r k | kernelFault r =>
    simp only [State.step, Option.ite_none_right_eq_some, Option.some.injEq] at taken
    obtain ⟨-, rfl⟩ := taken
    exact .inr ⟨by simp, reading⟩
  | unblock k =>
    simp only [State.step, Option.ite_none_left_eq_some, Option.some.injEq] at taken
    obtain ⟨-, rfl⟩ := taken
    exact .inr ⟨by simp, reading⟩

end Reached

/-- In every state of every interleaving: a process that has started, other
than init, has a parent that is neither unused nor a zombie; every incarnation
that called `exit` waits for its one collection, is being returned by one
`wait` or was returned by one. The parent of a zombie does not sleep in `wait`;
its scan finds such a child, frees the slot and, whatever the others do,
returns that child's pid with its next step. A `wait` that finds a process is
its parent's, and a `wait` of a process that was not killed returns -1 only if
no process has it as parent. -/
theorem children_accounted_for {schedule : List Action} {s : State}
    (reached : run State.step userinit schedule = some s) :
    (∀ q, q ≠ s.initproc → (s.proc q).state ∈ [.sleeping, .runnable, .running, .zombie] →
      ∃ p, (s.proc q).parent = some p ∧ (s.proc p).state ≠ .unused ∧ (s.proc p).state ≠ .zombie) ∧
    (∀ u, s.exits u ≠ none →
      (s.Awaited u ∧ (∀ p, ¬ s.Returning p u) ∧ ¬ s.Returned u) ∨
      (¬ s.Awaited u ∧ (∃! p, s.Returning p u) ∧ ¬ s.Returned u) ∨
      (¬ s.Awaited u ∧ (∀ p, ¬ s.Returning p u) ∧ s.Returned u)) ∧
    (s.reports.map Report.child).Nodup ∧
    (∀ p q, (s.proc q).parent = some p → (s.proc q).state = .zombie →
      ¬ s.Waiting p ∧ ∀ ok t, s.pc p = .sysBody .wait → s.step (.go p ok) = some t →
        ∃ r, (s.proc r).parent = some p ∧ (s.proc r).state = .zombie ∧ (t.proc r).state = .unused ∧
          t.pc p = .waitRead r (s.proc r).pid (s.uid r)) ∧
    (∀ a t p q pid u, s.step a = some t → s.pc p = .waitRead q pid u →
      (∃ ok, a = .go p ok ∧ t.pc p = .sysReturn ∧
      t.reports = s.reports ++ [⟨u, pid, (s.proc q).status⟩]) ∨
        (∀ ok, a ≠ .go p ok) ∧ t.pc p = .waitRead q pid u) ∧
    (∀ a t p q pid u, s.step a = some t → t.pc p = .waitRead q pid u → s.pc p ≠ .waitRead q pid u →
      (s.proc q).parent = some p ∧ (s.proc q).state = .zombie ∧ (s.proc q).pid = pid ∧
      s.uid q = u) ∧
    ∀ p ok t, s.pc p = .sysBody .wait → s.step (.go p ok) = some t → t.pc p = .sysReturn →
      (s.proc p).killed = false → ∀ q, (s.proc q).parent ≠ some p := by
  obtain ⟨placed, family, prompt⟩ := family_reached reached
  refine ⟨?_, fun u => exited_once placed, ?_, ?_, fun a t p q pid u => reaped_reported placed,
    fun a t p q pid u => wait_finds_child, fun p ok t => wait_fails⟩
  · intro q other started
    have present : s.lineage.kind q = .held ∨ s.lineage.kind q = .ended := by
      change (s.proc q).state.kind = _ ∨ (s.proc q).state.kind = _
      revert started
      cases (s.proc q).state <;> simp [Procstate.kind]
    obtain ⟨p, named⟩ := Option.ne_none_iff_exists'.mp (family.tree.child q present other)
    have held : (s.proc p).state.kind = .held := family.tree.lives q p named
    refine ⟨p, named, ?_, ?_⟩
    · intro unused
      rw [unused] at held
      cases held
    · intro zombie
      rw [zombie] at held
      cases held
  · have once := placed.once.once
    simpa [State.places, State.slots, Slots.State.mapWord, Function.comp_def] using once
  · intro p q child zombie
    refine ⟨fun waits => (prompt p waits).2 q child zombie, fun ok t waiting taken => ?_⟩
    exact wait_reaps waiting taken child zombie

/-- The initial process forks a child, which forks one of its own and exits; init collects it
and sleeps in `wait` until the grandchild, which is its own by then, exits and wakes it. -/
def orphaned : List Action :=
  .schedule 0 :: forks 0 ++ .schedule 1 :: forks 1 ++ .syscall 1 (.exit 3) :: List.replicate 4
    (.go 1 true) ++
    reaps 0 ++ [.go 0 true, .go 0 true] ++ reaps 0 ++ runsExit 2 5 ++ [.schedule 0]

theorem orphan_collected_by_init :
    ∃ s t, run State.step userinit orphaned = some s ∧ (s.proc 2).parent = some 0 ∧
      (s.proc 2).state = .zombie ∧
      s.step (.go 0 true) = some t ∧ s.reports = [⟨64, 2, 768⟩] ∧
      (∃ p, (s.proc 2).parent = some p ∧ (s.proc p).state ≠ .unused ∧ (s.proc p).state ≠ .zombie) ∧
      (∃ r, (s.proc r).state = .zombie ∧ (t.proc r).state = .unused ∧
        t.pc 0 = .waitRead r (s.proc r).pid (s.uid r)) ∧
      ∀ v, t.step (.go 0 true) = some v → v.reports = [⟨64, 2, 768⟩, ⟨65, 3, 1280⟩] := by
  have runs : (run State.step userinit orphaned).map
      (fun s => ((s.proc 2).state, (s.proc 2).parent, s.initproc, s.pc 0, s.reports)) =
      some (.zombie, some 0, 0, .sysBody .wait, [⟨64, 2, 768⟩]) := by decide
  have scans :
      (run State.step userinit (orphaned ++ [.go 0 true])).map (fun t => (t.pc 0, t.reports,
      (t.proc 2).status)) = some (.waitRead 2 3 65, [⟨64, 2, 768⟩], 1280) := by decide
  obtain ⟨s, reached, seen⟩ := Option.map_eq_some_iff.mp runs
  obtain ⟨t, scanned, next⟩ := Option.map_eq_some_iff.mp scans
  simp only [Prod.mk.injEq] at seen next
  obtain ⟨zombie, parent, init, waiting, reports⟩ := seen
  obtain ⟨reading, still, status⟩ := next
  have taken : s.step (.go 0 true) = some t := by
    obtain ⟨m, first, last⟩ := run_append.mp scanned
    cases Option.some.inj (first.symm.trans reached)
    obtain ⟨m, taken, done⟩ := run_cons.mp last
    cases done
    exact taken
  obtain ⟨started, -, -, reaps, -⟩ := children_accounted_for reached
  obtain ⟨-, -, -, -, reported, -⟩ := children_accounted_for scanned
  obtain ⟨r, -, ended, freed, found⟩ := (reaps 0 2 parent zombie).2 true t waiting taken
  refine ⟨s, t, reached, parent, zombie, taken, reports, started 2 (by rw [init]; decide)
    (by rw [zombie]; decide), ⟨r, ended, freed, found⟩, fun v taken => ?_⟩
  rcases reported (.go 0 true) v 0 2 3 65 taken reading with ⟨-, -, -, told⟩ | ⟨never, -⟩
  · rw [told, still, status]
    rfl
  · exact absurd rfl (never true)

/-- In every run a slot that a `fork` fills is an EMBRYO and no other `fork` fills
it, and no code runs in a slot that is UNUSED, EMBRYO or ZOMBIE. -/
theorem one_fork_fills_slot {schedule : List Action} {s : State}
    (reached : run State.step userinit schedule = some s) :
    (∀ p np, (s.pc p).role = .filling np →
      (s.proc np).state.kind = .reserved ∧ ∀ q, (s.pc q).role = .filling np → q = p) ∧
      (∀ p, (s.proc p).state = .unused ∨ (s.proc p).state = .embryo → (s.pc p).role = .absent) ∧
      ∀ p, (s.proc p).state = .zombie → (s.pc p).role = .gone := by
  obtain ⟨placed, -, -⟩ := family_reached reached
  refine ⟨fun p np fills => ⟨placed.reserved fills, fun q same => placed.sole same fills⟩,
    fun p empty => ?_, fun p ended => ?_⟩
  · exact placed.table.empty p (empty.imp (congrArg Procstate.kind) (congrArg Procstate.kind))
  · exact placed.table.ended p (congrArg Procstate.kind ended)

theorem fork_fills_embryo :
    ∃ schedule s, run State.step userinit schedule = some s ∧ (s.pc 0).role = .filling 1 ∧
    (s.proc 1).state.kind = .reserved := by
  have reached : run State.step userinit
      (.schedule 0 :: .syscall 0 .fork :: .replicate 3 (.go 0 true)) = some _ := rfl
  exact ⟨_, _, reached, rfl, ((one_fork_fills_slot reached).1 0 1 rfl).1⟩

end Aso.Xv6.Ptable
