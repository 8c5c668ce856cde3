import Aso.Xv6.Kalloc.Pipes

/-! Every page that the boot hands to the allocator is free or has one owner: a kernel
stack, a page directory, a page table, user memory or a pipe. -/
namespace Aso.Xv6.Kalloc
open Checked Transition
open Ftable (Resource Moves)
open Vm (Kernel Mem Pgdir Page Slot kernbase pgsize phystop npdentries pdx pteFrame kalloc_freelist)

/-- The pages of a directory's page tables. -/
def tablePages (d : Pgdir) : Multiset Nat :=
  ∑ i ∈ Finset.range npdentries, match d.table i with
    | none => 0
    | some t => {t.frame}

/-- The pages mapped below the kernel. -/
def userPages (d : Pgdir) : Multiset Nat :=
  ∑ i ∈ Finset.range npdentries with i < pdx kernbase, match d.table i with
    | none => 0
    | some t => ∑ j ∈ Finset.range npdentries, pteFrame (t.pte j)

theorem owned_eq (d : Pgdir) : d.owned = {d.frame} + (tablePages d + userPages d) := by
  rw [Pgdir.owned, tablePages, userPages, Finset.sum_filter, ← Finset.sum_add_distrib,
    Multiset.singleton_add]
  refine congrArg _ (Finset.sum_congr rfl fun i _ => ?_)
  rw [Vm.tableFrames.eq_def]
  cases d.table i with
  | none => simp only [zero_add, ite_self]
  | some t => exact (Multiset.singleton_add _ _).symm

namespace State

/-- The slots in use. -/
def slots (s : State) : Finset Slot := Finset.univ.filter fun p => (s.vm.proc p).state ≠ .unused

/-- The kernel's address space and those of the processes. -/
def spaces (s : State) : Multiset Pgdir :=
  s.kpgdir ::ₘ s.slots.val.map fun p => (s.vm.proc p).image.pgdir

def kernelStacks (s : State) : Multiset Nat :=
  s.cpuStacks + s.slots.val.map fun p => (s.vm.proc p).kstack

def directories (s : State) : Multiset Nat := s.spaces.map Pgdir.frame

def pageTables (s : State) : Multiset Nat := (s.spaces.map tablePages).sum

def userMemory (s : State) : Multiset Nat := (s.spaces.map userPages).sum

/-- All pages that somebody owns. -/
def owned (s : State) : Multiset Nat :=
  s.kernelStacks + s.directories + s.pageTables + s.userMemory + s.pipes

end State

/-- The pages handed to the allocator at boot. -/
def bootPages (k : Kernel) : Multiset Nat := List.range' k.kend (phystop / pgsize - k.kend)

theorem count_bootPages (k : Kernel) (f : Nat) :
    (bootPages k).count f = if k.kend ≤ f ∧ f < phystop / pgsize then 1 else 0 := by
  have bound := k.kend_lt
  rw [bootPages, Multiset.count_eq_of_nodup (Multiset.coe_nodup.mpr List.nodup_range')]
  simp only [Multiset.mem_coe, List.mem_range'_1]
  refine if_congr (and_congr_right fun _ => ?_) rfl rfl
  omega

variable {k : Kernel} {s t : State} {p : Slot}

theorem sum_singletons {α β : Type} (u : Finset α) (f : α → β) :
    ∑ x ∈ u, ({f x} : Multiset β) = u.val.map f := by
  have each := Multiset.sum_map_singleton (u.val.map f)
  rw [Multiset.map_map] at each
  exact each

/-- The five kinds of owners share what is not free. -/
theorem State.owned_pages (s : State) :
    s.vm.mem.freelist + s.owned = s.pages + s.cpuStacks + s.kpgdir.owned := by
  have processes : ∑ p, (s.vm.proc p).owned = (s.slots.val.map fun p => (s.vm.proc p).kstack) +
      ((s.slots.val.map fun p => (s.vm.proc p).image.pgdir.frame) +
        (∑ p ∈ s.slots, tablePages (s.vm.proc p).image.pgdir +
          ∑ p ∈ s.slots, userPages (s.vm.proc p).image.pgdir)) := by
    rw [← sum_singletons, ← sum_singletons, ← Finset.sum_add_distrib, ← Finset.sum_add_distrib,
      ← Finset.sum_add_distrib, State.slots, Finset.sum_filter]
    refine Finset.sum_congr rfl fun p _ => ?_
    rw [Vm.Proc.owned, ← owned_eq, Multiset.singleton_add, ite_not]
  have directories : s.directories = {s.kpgdir.frame} + s.slots.val.map fun p =>
      (s.vm.proc p).image.pgdir.frame := by
    rw [State.directories, State.spaces, Multiset.map_cons, Multiset.map_map,
      Multiset.singleton_add]
    rfl
  have shared (f : Pgdir → Multiset Nat) :
      (s.spaces.map f).sum = f s.kpgdir + ∑ p ∈ s.slots, f (s.vm.proc p).image.pgdir := by
    rw [State.spaces, Multiset.map_cons, Multiset.sum_cons, Multiset.map_map]
    rfl
  rw [State.owned, directories, State.pageTables, State.userMemory, shared, shared,
    State.kernelStacks, State.pages, Vm.State.total, processes, owned_eq]
  ext f
  simp only [Multiset.count_add]
  omega

theorem State.pages_congr (total : t.vm.total = s.vm.total) (pipe : t.pipe = s.pipe) :
    t.pages = s.pages := by
  rw [State.pages, State.pages, total, State.pipes, State.pipes, pipe]

/-- How the file table sees the state of a process. -/
def life : Vm.ProcState → Ftable.Life
  | .unused => .unused
  | .live => .alive
  | .zombie => .zombie

structure Inv (k : Kernel) (s : State) : Prop where
  files : Ftable.Inv 0 ∅ s.files
  life : ∀ p, s.files.state p = life (s.vm.proc p).state
  tracks : Tracks s.files.ledger.acquired (s.files.ledger.released.map Prod.fst) s.pipe
  pages : s.pages + s.cpuStacks + s.kpgdir.owned = bootPages k

/-- A step that touched only some slots. An entry of the file table that was in use
keeps what is behind it, or is closed. -/
structure Local (touched : Slot → Prop) (s t : State) : Prop where
  proc : ∀ q, ¬ touched q → t.vm.proc q = s.vm.proc q
  ofile : ∀ q fd, ¬ touched q → t.files.ofile (q, fd) = s.files.ofile (q, fd)
  behind : ∀ f, s.files.ref f = 0 ∨ t.files.behind f = s.files.behind f ∨ t.files.behind f = none
  boot : t.kpgdir = s.kpgdir ∧ t.cpuStacks = s.cpuStacks

/-- The slots that an action may change; a child's slot was not in use. -/
def Action.touches (s : State) : Action → Slot → Prop
  | .fork _, q => (s.vm.proc q).state = .unused
  | .exec p _ _ _, q | .sbrk p _, q | .fault p _ _, q | .exit p, q | .wait p, q | .pipe p _,
      q | .close p _, q
  | .dup p _, q | .dup2 p _ _, q | .open p _ _, q => q = p

namespace Inv

theorem pages_of (inv : Inv k s) (pages : t.pages = s.pages)
    (processors : t.cpuStacks = s.cpuStacks) (kpgdir : t.kpgdir = s.kpgdir) :
    t.pages + t.cpuStacks + t.kpgdir.owned = bootPages k := by
  rw [pages, processors, kpgdir]
  exact inv.pages

theorem unusedSlot (inv : Inv k s) :
    (List.finRange nproc).find? (fun q => s.files.state q = .unused) = s.vm.unusedSlot := by
  have same : (fun q => decide (s.files.state q = .unused)) =
      fun q => decide ((s.vm.proc q).state = .unused) := by
    funext q
    rw [inv.life q]
    cases (s.vm.proc q).state <;> rfl
  rw [same]
  rfl

theorem alive (inv : Inv k s) (live : (s.vm.proc p).state = .live) : s.files.state p = .alive := by
  rw [inv.life p, live]
  rfl

/-- A free page is not a pipe. -/
theorem free (inv : Inv k s) {g : Nat} (free : g ∈ s.vm.mem.freelist) :
    g < phystop / pgsize ∧ (s.pipe g).used = false := by
  have here := congrArg (Multiset.count g) inv.pages
  have listed := Multiset.count_pos.mpr (Multiset.mem_coe.mpr free)
  simp only [State.pages, Vm.State.total, Multiset.count_add, State.count_pipes, count_bootPages]
    at here
  have inside : k.kend ≤ g ∧ g < phystop / pgsize := by
    by_contra outside
    rw [if_neg outside] at here
    omega
  refine ⟨inside.2, Bool.eq_false_iff.mpr fun used => ?_⟩
  rw [if_pos ⟨inside.2, used⟩, if_pos inside] at here
  omega

theorem bound (inv : Inv k s) :
    ∀ i ∈ s.files.ledger.released.map Prod.fst, i < s.files.ledger.acquired.length := by
  intro i member
  obtain ⟨⟨i, r⟩, done, rfl⟩ := List.mem_map.mp member
  exact (List.getElem?_eq_some_iff.mp (inv.files.ledger.faithful i r done)).1

end Inv

/-- An operation of a running process on its own memory. -/
theorem vmStep_ok {a : Vm.Action} (inv : Inv k s)
    (user : ∀ p, (s.vm.proc p).state = .live → (s.vm.proc p).image.sz ≤ kernbase)
    (own : ∀ p, a ≠ .fork p) (running : (s.vm.proc a.slot).state = a.after)
    (taken : s.vmStep k a = some t) : Inv k t ∧ Local (· = a.slot) s t := by
  obtain ⟨vm, moved, rfl⟩ := Option.map_eq_some_iff.mp taken
  obtain ⟨x, proc, state⟩ := Vm.step_slot moved own
  refine ⟨⟨inv.files, fun q => ?_, inv.tracks, ?_⟩, fun q other => ?_, fun _ _ _ => rfl,
    fun _ => .inr (.inl rfl), rfl, rfl⟩
  · rw [inv.life q]
    change _ = life (vm.proc q).state
    rw [proc]
    obtain rfl | other := eq_or_ne q a.slot
    · rw [Function.update_self, state, running]
    · rw [Function.update_of_ne other]
  · exact inv.pages_of (State.pages_congr (Vm.step_total user moved) rfl) rfl rfl
  · change vm.proc q = _
    rw [proc, Function.update_of_ne other]

/-- What a call on the file table leaves, once what it acquired is accounted for. -/
theorem Inv.setFiles {u : State} {files : Ftable.State} {new : List Resource} (inv : Inv k s)
    (after : Ftable.Inv 0 ∅ files) (moved : Moves p new (s.files.ref · = 0) s.files files)
    (tracks : Tracks files.ledger.acquired
      (s.files.ledger.released.map Prod.fst) u.pipe) (aside : Aside s u) (pages : u.pages = s.pages)
    (done : u.setFiles k files = .ok t) : Inv k t ∧ Local (· = p) s t := by
  obtain ⟨m, pipe, rfl⟩ := aside
  obtain ⟨⟨m', pipe', rfl⟩, tracks, kept⟩ :=
    setFiles_ok (s := { s.setMem m with pipe := pipe }) after moved rfl tracks done
  refine ⟨⟨after, fun q => ?_, tracks, ?_⟩, fun _ _ => rfl,
    fun q fd other => moved.others q fd other, moved.behind, rfl, rfl⟩
  · exact (congrFun moved.state q).trans (inv.life q)
  · exact inv.pages_of (kept.trans pages) rfl rfl

/-- A call of a running process on its descriptors that acquires no pipe. -/
theorem fileCall_ok {call : Ftable.Call} (inv : Inv k s)
    (moves : ∀ files v, s.files.call p call = .ok (files, v) →
      ∃ new, Moves p new (s.files.ref · = 0) s.files files ∧ ∀ r ∈ new, ∃ ip, r = .inode ip)
    (taken : s.fileCall k p call = some t) : Inv k t ∧ Local (· = p) s t := by
  unfold State.fileCall at taken
  split at taken
  · next live =>
    obtain ⟨⟨files, v⟩, called, rest⟩ := Option.bind_eq_some_iff.mp taken
    rw [toOption_eq_some] at called rest
    obtain ⟨files', v', called', after⟩ := Ftable.call_inv inv.files (inv.alive live) call
    cases called.symm.trans called'
    obtain ⟨new, moved, inodes⟩ := moves files v called
    have tracks := inv.tracks.acquire_inodes inodes
    rw [← moved.acquired] at tracks
    exact inv.setFiles after moved tracks ⟨_, _, rfl⟩ rfl rest
  · cases taken

/-- The states of the processes after a step that changed one slot. -/
theorem life_update {x : Vm.Proc} {q : Slot} {proc : Slot → Vm.Proc} {state : Slot → Ftable.Life}
    (before : ∀ p, state p = life (proc p).state) (p : Slot) :
    Function.update state q (life x.state) p = life (Function.update proc q x p).state := by
  rw [Function.update_apply, Function.update_apply]
  split
  · rfl
  · exact before p

theorem fork_ok (inv : Inv k s)
    (user : ∀ p, (s.vm.proc p).state = .live → (s.vm.proc p).image.sz ≤ kernbase)
    (taken : s.step k (.fork p) = some t) :
    Inv k t ∧ Local (fun q => (s.vm.proc q).state = .unused) s t := by
  obtain ⟨vm, moved, rest⟩ := Option.bind_eq_some_iff.mp taken
  obtain ⟨⟨files, v⟩, called, rest⟩ := Option.bind_eq_some_iff.mp rest
  rw [toOption_eq_some] at called rest
  obtain ⟨files', v', called', after⟩ := Ftable.fork_inv (p := p) inv.files (s.forked vm)
  cases called.symm.trans called'
  have moves : (s.vm.unusedSlot = none ∧ files = s.files) ∨ ∃ np, s.vm.unusedSlot = some np ∧
      Moves np [] (s.files.ref · = 0)
      (if s.forked vm then s.files.setState np .alive else s.files) files := by
    rw [← inv.unusedSlot]
    exact Ftable.fork_moves called
  have kept : State.pages { s with vm := vm } = s.pages :=
    State.pages_congr (Vm.step_total user moved) rfl
  -- what remains once the slot of the child, if any, is known
  have finish {q : Slot} {before : Ftable.State}
      (apart : ∀ p fd, (s.vm.proc p).state ≠ .unused → files.ofile (p, fd) = before.ofile (p, fd))
      (changes : Moves q [] (s.files.ref · = 0) before files)
        (ledger : before.ledger = s.files.ledger)
      (ofile : before.ofile = s.files.ofile) (file : before.file = s.files.file)
      (states : ∀ p, before.state p = life (vm.proc p).state)
      (procs : ∀ p, (s.vm.proc p).state ≠ .unused → vm.proc p = s.vm.proc p) :
      Inv k t ∧ Local (fun q => (s.vm.proc q).state = .unused) s t := by
    have acquired := changes.acquired
    rw [List.append_nil, ledger] at acquired
    have tracks := inv.tracks
    rw [← acquired] at tracks
    obtain ⟨⟨m, pipe, rfl⟩, tracks, same⟩ :=
      setFiles_ok (s := { s with vm := vm }) after changes ledger tracks rest
    refine ⟨⟨after, fun p => ?_, tracks, ?_⟩, fun p other => procs p other, fun p fd other => ?_,
      fun f => ?_, rfl, rfl⟩
    · exact (congrFun changes.state p).trans (states p)
    · exact inv.pages_of (same.trans kept) rfl rfl
    · exact (apart p fd other).trans (congrFun ofile _)
    · have behind : before.behind f = s.files.behind f := by
        rw [Ftable.State.behind, file, Ftable.State.behind]
      exact behind ▸ changes.behind f
  have others {np p : Slot} (unused : (s.vm.proc np).state = .unused)
      (used : (s.vm.proc p).state ≠ .unused) : p ≠ np := by
    rintro rfl
    exact used unused
  obtain ⟨-, done⟩ := Vm.step_ok.mp moved
  rcases Vm.fork_proc done with same | ⟨np, child, first, state, proc⟩
  · have states : ∀ p, s.files.state p = life (vm.proc p).state := by
      rw [same]
      exact inv.life
    rcases moves with ⟨-, unchanged⟩ | ⟨np, first, moves⟩
    · subst unchanged
      exact finish (fun _ _ _ => rfl) (Moves.refl (p := p) s.files) rfl rfl rfl states
        fun p _ => congrFun same p
    · have unused : (s.vm.proc np).state = .unused := by simpa using List.find?_some first
      have childless : s.forked vm = false := by
        rw [State.forked, first, Option.any_some, same, unused]
        rfl
      rw [childless] at moves
      exact finish (fun p fd used => moves.others p fd (others unused used)) moves rfl rfl rfl
        states fun p _ => congrFun same p
  · have unused : (s.vm.proc np).state = .unused := by simpa using List.find?_some first
    have born : s.forked vm = true := by
      rw [State.forked, first, Option.any_some, proc, Function.update_self, state]
      rfl
    rcases moves with ⟨full, -⟩ | ⟨np', first', moves⟩
    · cases first.symm.trans full
    cases first.symm.trans first'
    rw [born] at moves
    refine finish (fun p fd used => moves.others p fd (others unused used)) moves rfl rfl rfl
      (fun p => ?_) fun p used => ?_
    · rw [proc, ← life_update inv.life, state]
      rfl
    · rw [proc, Function.update_of_ne (others unused used)]

theorem exit_ok (inv : Inv k s)
    (user : ∀ p, (s.vm.proc p).state = .live → (s.vm.proc p).image.sz ≤ kernbase)
    (taken : s.step k (.exit p) = some t) : Inv k t ∧ Local (· = p) s t := by
  simp only [State.step] at taken
  split at taken
  · obtain ⟨files, exited, rest⟩ := Option.bind_eq_some_iff.mp taken
    obtain ⟨u, closed, rest⟩ := Option.bind_eq_some_iff.mp rest
    rw [toOption_eq_some] at exited closed
    rcases Ftable.exit_inv (p := p) inv.files with wrong | ⟨files', exited', after⟩
    · exact nomatch exited.symm.trans wrong
    cases exited.symm.trans exited'
    have moves : Moves p [] (s.files.ref · = 0) (s.files.setState p .zombie) files :=
      Ftable.exit_moves exited
    have acquired : files.ledger.acquired = s.files.ledger.acquired :=
      moves.acquired.trans (List.append_nil _)
    have tracks := inv.tracks
    rw [← acquired] at tracks
    obtain ⟨⟨m, pipe, rfl⟩, tracks, kept⟩ := setFiles_ok after moves rfl tracks closed
    obtain ⟨vm, moved, rfl⟩ := Option.map_eq_some_iff.mp rest
    obtain ⟨x, proc, state⟩ := Vm.step_slot moved nofun
    change vm.proc = Function.update s.vm.proc p x at proc
    refine ⟨⟨after, fun q => ?_, tracks, ?_⟩, fun q other => ?_,
      fun q fd other => moves.others q fd other, moves.behind, rfl, rfl⟩
    · change files.state q = life (vm.proc q).state
      rw [moves.state, proc, ← life_update inv.life, state]
      rfl
    · refine inv.pages_of (Eq.trans ?_ kept) rfl rfl
      exact State.pages_congr (Vm.step_total user moved) rfl
    · change vm.proc q = _
      rw [proc, Function.update_of_ne other]
  · cases taken

theorem wait_ok (inv : Inv k s)
    (user : ∀ p, (s.vm.proc p).state = .live → (s.vm.proc p).image.sz ≤ kernbase)
    (taken : s.step k (.wait p) = some t) : Inv k t ∧ Local (· = p) s t := by
  obtain ⟨u, stepped, rfl⟩ := Option.map_eq_some_iff.mp taken
  obtain ⟨vm, moved, rfl⟩ := Option.map_eq_some_iff.mp stepped
  obtain ⟨x, proc, state⟩ := Vm.step_slot moved nofun
  change vm.proc = Function.update s.vm.proc p x at proc
  have zombie : s.files.state p = .zombie := by
    obtain ⟨able, -⟩ := Vm.step_ok.mp moved
    have zombie : (s.vm.proc p).state = .zombie := by simpa [Vm.State.enabled] using able
    rw [inv.life p, zombie]
    rfl
  refine ⟨⟨inv.files.setState .unused fun _ fd => inv.files.empty p fd (.inr zombie), fun q => ?_,
    inv.tracks, ?_⟩, fun q other => ?_, fun _ _ _ => rfl, fun _ => .inr (.inl rfl), rfl, rfl⟩
  · change Function.update s.files.state p .unused q = life (vm.proc q).state
    rw [proc, ← life_update inv.life, state]
    rfl
  · exact inv.pages_of (State.pages_congr (Vm.step_total user moved) rfl) rfl rfl
  · change vm.proc q = _
    rw [proc, Function.update_of_ne other]

/-- A pipe is made in a page that was free. -/
theorem pipe_ok {argok : Bool} (inv : Inv k s) (taken : s.step k (.pipe p argok) = some t) :
    Inv k t ∧ Local (· = p) s t := by
  simp only [State.step] at taken
  split at taken
  · next live =>
    obtain ⟨⟨files, v⟩, called, rest⟩ := Option.bind_eq_some_iff.mp taken
    rw [toOption_eq_some] at called
    obtain ⟨files', v', called', after⟩ :=
      Ftable.sysPipe_inv inv.files (inv.alive live) argok (s.vm.mem.kalloc.map Prod.fst)
    cases called.symm.trans called'
    obtain ⟨new, moved, kind⟩ := Ftable.sysPipe_moves called
    dsimp only at rest
    rcases kind with rfl | ⟨g, page, rfl⟩
    · have acquired : files.ledger.acquired = s.files.ledger.acquired :=
        moved.acquired.trans (List.append_nil _)
      rw [if_pos (congrArg List.length acquired), toOption_eq_some] at rest
      have tracks := inv.tracks
      rw [← acquired] at tracks
      exact inv.setFiles after moved tracks ⟨_, _, rfl⟩ rfl rest
    · have grown : files.ledger.acquired.length ≠ s.files.ledger.acquired.length := by
        rw [moved.acquired, List.length_append]
        exact Nat.ne_of_gt (Nat.lt_add_of_pos_right Nat.two_pos)
      rw [if_neg grown] at rest
      obtain ⟨⟨g', m⟩, taken, rest⟩ := Option.bind_eq_some_iff.mp rest
      rw [taken, Option.map_some, Option.some.injEq] at page
      subst page
      rw [toOption_eq_some] at rest
      have list := kalloc_freelist taken
      obtain ⟨bound, unused⟩ := inv.free (g := g') (list ▸ List.mem_cons_self)
      have tracks := inv.tracks.acquire_pipe unused inv.bound
      rw [← moved.acquired] at tracks
      refine inv.setFiles after moved (u := (s.setMem m).setPipe g' ⟨true, true⟩) tracks
        ⟨m, _, rfl⟩ ?_ rest
      refine State.pages_setPipe (m := m) bound ?_
      rw [list, unused, if_neg Bool.false_ne_true,
        add_zero, ← Multiset.cons_coe, ← Multiset.singleton_add]
      exact add_comm _ _
  · cases taken

theorem step_ok {a : Action} (inv : Inv k s)
    (user : ∀ p, (s.vm.proc p).state = .live → (s.vm.proc p).image.sz ≤ kernbase)
    (taken : s.step k a = some t) : Inv k t ∧ Local (a.touches s) s t := by
  -- a running process that acts on its own memory goes on running
  have own (b : Vm.Action) (other : ∀ p, b ≠ .fork p)
      (runs : s.vm.enabled b = true → (s.vm.proc b.slot).state = b.after)
      (taken : s.vmStep k b = some t) : Inv k t ∧ Local (· = b.slot) s t := by
    obtain ⟨vm, moved, -⟩ := Option.map_eq_some_iff.mp taken
    exact vmStep_ok inv user other (runs (Vm.step_ok.mp moved).1) taken
  cases a with
  | fork p => exact fork_ok inv user taken
  | exec p path file argv =>
    refine own (.exec p path file argv) (by rintro _ ⟨⟩) (fun able => ?_) taken
    simp only [Vm.State.enabled, decide_eq_true_eq] at able
    exact able
  | sbrk p n =>
    refine own (.sbrk p n) (by rintro _ ⟨⟩) (fun able => ?_) taken
    simp only [Vm.State.enabled, decide_eq_true_eq] at able
    exact able.1
  | fault p va kernel =>
    refine own (.fault p va kernel) (by rintro _ ⟨⟩) (fun able => ?_) taken
    simp only [Vm.State.enabled, decide_eq_true_eq] at able
    exact able.1
  | exit p => exact exit_ok inv user taken
  | wait p => exact wait_ok inv user taken
  | pipe p argok => exact pipe_ok inv taken
  | close p fd =>
    refine fileCall_ok inv (fun files v called => ?_) taken
    exact ⟨[], Ftable.sysClose_moves called, List.forall_mem_nil _⟩
  | dup p fd =>
    refine fileCall_ok inv (fun files v called => ?_) taken
    exact ⟨[], Ftable.sysDup_moves called, List.forall_mem_nil _⟩
  | dup2 p oldfd newfd =>
    refine fileCall_ok inv (fun files v called => ?_) taken
    exact ⟨[], Ftable.sysDup2_moves called, List.forall_mem_nil _⟩
  | «open» p found omode =>
    refine fileCall_ok inv (fun files v called => ?_) taken
    exact Ftable.sysOpen_moves called

end Aso.Xv6.Kalloc
