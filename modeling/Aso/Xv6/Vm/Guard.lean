import Aso.Xv6.Vm.Failure

/-! The guard page. The page-fault handler knows it only by `inicio_pagina_guarda`, so
the handler is right exactly as long as that field says which page of the running image
`clearpteu` has hidden. -/
namespace Aso.Xv6.Vm
open Checked Transition

/-- The field matches the page table: the only user page that is hidden is the guard page,
and the field holds its address. The image of `userinit` has no guard page, and the
field stands for page zero, which does no harm while that page is present. -/
structure Linked (i : Image) : Prop where
  hidden : ∀ va < kernbase, ∀ e, i.pgdir.pte va = some e → e.u = false →
    i.guard = some (pgrounddown va)
  matched : ∀ g, i.guard = some g →
    i.inicioPaginaGuarda = g ∨ kernbase ≤ i.inicioPaginaGuarda ∧ kernbase ≤ g
  initial : i.guard = none → i.inicioPaginaGuarda = 0 ∧ (i.pgdir.pte 0).isSome

section Images
variable {k : Kernel} {m m' : Mem} {d : Pgdir} {p q : Image}

/-- Whatever hides no more pages and keeps page zero keeps the link. -/
theorem Linked.mono {sz : Nat} (linked : Linked p) (hides : p.pgdir.HidesNoMore d)
    (first : p.guard = none → (p.pgdir.pte 0).isSome → (d.pte 0).isSome) :
    Linked { p with pgdir := d, sz := sz } where
  hidden va low e present invisible :=
    linked.hidden va low e (hides va e present invisible) invisible
  matched := linked.matched
  initial none := ⟨(linked.initial none).1, first none (linked.initial none).2⟩

theorem Linked.copy {sz : Nat} (linked : Linked p) (nonempty : 0 < p.sz) (user : p.sz ≤ kernbase)
    (copied : copyuvm k m p.pgdir p.sz = .ok (some d, m')) :
    Linked { p with pgdir := d, sz := sz } where
  hidden va low e present invisible := by
    obtain ⟨e', original, _, flag⟩ := copyuvm_low copied low present
    exact linked.hidden va low e' original (flag.trans invisible)
  matched := linked.matched
  initial none :=
    ⟨(linked.initial none).1, copyuvm_present copied user nonempty (linked.initial none).2⟩

/-- `exec` hides the page at the start it has stored, unless the sum of start and stack
wraps around at the top of the user half. -/
theorem guard_place {start sz guard : Nat} (aligned : start % pgsize = 0) (user : start ≤ kernbase)
    (fits : (start + (start / pgsize + 1) * pgsize) % 2 ^ 32 < kernbase)
    (size : sz = max start ((start + (start / pgsize + 1) * pgsize) % 2 ^ 32))
    (place : guard = (sz + 2 ^ 32 - (start / pgsize + 1) * pgsize) % 2 ^ 32) :
    pgrounddown guard = guard ∧ (start = guard ∨ kernbase ≤ start ∧ kernbase ≤ guard) := by
  simp only [pgrounddown, pgsize, kernbase] at *
  omega

/-- The image of a successful `exec` is linked. -/
theorem Replaced.linked {sz : Nat} (below : sz < kernbase)
    (visible : ∀ va < kernbase, ∀ e, d.pte va = some e → e.u = true) (new : Replaced k d sz q) :
    Linked q := by
  obtain ⟨fits, size⟩ := allocuvm_sz new.alloc new.nonzero
  obtain ⟨whole, place⟩ :=
    guard_place (pgroundup_mod sz) (pgroundup_le below).2 fits size new.guard_eq
  have word : new.guard < 2 ^ 32 := new.guard_eq ▸ Nat.mod_lt _ (by decide)
  refine ⟨fun va low e present invisible => ?_, fun g hidden => ?_, fun none => ?_⟩
  · rw [clearpteu_pte new.cleared] at present
    split at present
    · next same => rw [new.hidden, ← (samePage_iff word (low.trans (by decide))).mp same, whole]
    · have old := allocuvm_hides new.alloc va e present invisible
      rw [visible va low e old] at invisible
      cases invisible
  · cases new.hidden.symm.trans hidden
    rwa [new.start]
  · rw [new.hidden] at none
    cases none

end Images

/-- Nothing that would break the link: `fork` finds a slot that already holds the
parent's field, an `exec` that fails is one of a file that cannot be loaded, or without memory for
its image, or the image ends where the field already is, and an image without a guard page does not
give its first page back. -/
def Links (k : Kernel) (s : State) : Action → Prop
  | .fork p => ∀ q, s.unusedSlot = some q →
      (s.proc q).image.inicioPaginaGuarda = (s.proc p).image.inicioPaginaGuarda
  | .exec p path file argv =>
      (∃ i m, exec k s.mem (s.proc p).image path file argv = .ok (false, i, m)) →
        ∀ e, imageEnd file = some e → k.need e ≤ s.mem.freelist.length →
          pgroundup e = (s.proc p).image.inicioPaginaGuarda
  | .sbrk p n => (s.proc p).image.guard = none → (s.proc p).image.sz + n ≠ 0
  | _ => True

/-- All images are bounded and linked. -/
def Guarded (s : State) : Prop :=
  Bounded s ∧ ∀ q, (s.proc q).state = .live → Linked (s.proc q).image

section Runs
variable {k : Kernel} {s t : State}

theorem reservarPagina_ok {m m' : Mem} {d d' : Pgdir} {va : Nat} {served : Bool}
    (result : reservarPagina k m d va = .ok (served, d', m')) :
    d.HidesNoMore d' ∧ ∀ va, (d.pte va).isSome → (d'.pte va).isSome := by
  unfold reservarPagina at result
  split at result
  · cases result
    exact ⟨.refl _, fun _ => id⟩
  · obtain ⟨⟨mapped, d₁, m₁⟩, page, rest⟩ := bind_ok.mp result
    obtain rfl : d₁ = d' := by
      dsimp only at rest
      split at rest
      · cases rest
        rfl
      · obtain ⟨_, _, rest⟩ := bind_ok.mp rest
        cases rest
        rfl
    exact ⟨mappages_hides page, fun _ => mappages_present page⟩

theorem guarded_step (s : State) (a : Action) (t : State) (guarded : Guarded s)
    (admitted : Asks s a ∧ Links k s a) (taken : s.step k a = some t) : Guarded t := by
  obtain ⟨bounded, linked⟩ := guarded
  refine ⟨bounded_step s a t bounded admitted.1 taken, fun q after => ?_⟩
  cases step_change taken after with
  | kept live same => exact same ▸ linked q live
  | copied live slot copy image =>
    rw [image, admitted.2 q slot]
    exact (linked _ live).copy (bounded _ live).1 (bounded _ live).2 copy
  | replaced live result =>
    obtain ⟨rfl, -⟩ | ⟨_, d, sz, below, visible, ⟨new⟩⟩ := exec_ok result
    · obtain same | ⟨e, ends, need, assigned⟩ := (exec_failed result).2
      · rw [same]
        exact linked q live
      · rw [assigned, admitted.2 ⟨_, _, result⟩ e ends need]
        exact linked q live
    · exact new.linked below visible
  | @resized n _ _ live int result =>
    obtain ⟨_, grown⟩ | ⟨_, sz, d, freed, shrunk⟩ := sysSbrk_ok result
    · rw [grown]
      exact (linked q live).mono (.refl _) fun _ => id
    · rw [shrunk]
      refine (linked q live).mono (deallocuvm_hides freed) fun none present => ?_
      have kept : 0 < (((s.proc q).image.sz + n) % 2 ^ 32).toNat := by
        have nonzero : (s.proc q).image.sz + n ≠ 0 := admitted.2 none
        have user := (bounded q live).2
        simp only [kernbase] at user
        omega
      rwa [deallocuvm_below (bounded q live).2 kept freed]
  | served live result image =>
    rw [image]
    obtain ⟨hides, keeps⟩ := reservarPagina_ok result
    exact (linked q live).mono hides fun _ => keeps 0

theorem guarded_first {m : Mem} {code : List UInt8} (booted : userinit k m code = .ok s)
    (mapped : ((s.proc 0).image.pgdir.pte 0).isSome) : Guarded s := by
  refine ⟨bounded_first booted, fun q live => ?_⟩
  obtain ⟨m', d, stack, rfl, visible⟩ := userinit_ok booted
  obtain rfl | other := eq_or_ne q 0
  · refine ⟨fun va low e present invisible => ?_, nofun, fun _ => ⟨rfl, mapped⟩⟩
    rw [visible va low e present] at invisible
    cases invisible
  · simp [firstState, other, emptyProc] at live

end Runs

section Faults
variable {k : Kernel} {m : Mem} {d : Pgdir} {s : State} {p : Slot} {va : Nat}

/-- The pages a fault at `va` needs: one for the data, one for a missing page table. -/
def Pgdir.pagesFor (d : Pgdir) (va : Nat) : Nat := if (d.table (pdx va)).isSome then 1 else 2

/-- With memory for it, a missing page is served with a zeroed page from the free list. -/
theorem reservarPagina_serves (absent : d.pte va = none)
    (memory : d.pagesFor va ≤ m.freelist.length) :
    ∃ f d' m', m.freelist.head? = some f ∧ reservarPagina k m d va = .ok (true, d', m') ∧
      d'.pte va = some ⟨f, true, true⟩ ∧ m'.page f = .zero := by
  have table : pdx (pgrounddown va) = pdx va := (samePage_pgrounddown va).1
  cases free : m.freelist with
  | nil =>
    unfold Pgdir.pagesFor at memory
    rw [free] at memory
    split at memory <;> cases memory
  | cons f rest =>
    obtain ⟨d₁, m₁, walked, zero⟩ : ∃ d₁ m₁,
        walkpgdir (Mem.fill ⟨rest, m.page⟩ f .zero) d (pgrounddown va) = some (d₁, m₁) ∧
        m₁.page f = .zero := by
      unfold walkpgdir
      rw [table]
      cases there : d.table (pdx va) with
      | some t => exact ⟨_, _, rfl, Function.update_self _ _ _⟩
      | none =>
        cases rest with
        | nil => simp [Pgdir.pagesFor, there, free] at memory
        | cons g rest => exact ⟨_, _, rfl, Function.update_self _ _ _⟩
    obtain ⟨same, there⟩ := walkpgdir_pte walked
    have empty : d₁.pte (pgrounddown va) = none := by
      rw [same, d.pte_congr (samePage_pgrounddown va), absent]
    refine ⟨f, d₁.setPte (pgrounddown va) (some ⟨f, true, true⟩), m₁, rfl, ?_, ?_, zero⟩
    · unfold reservarPagina Mem.kalloc
      rw [free]
      refine bind_ok.mpr ⟨(true, d₁.setPte (pgrounddown va) (some ⟨f, true, true⟩), m₁), ?_, rfl⟩
      rw [mappages_page (pgrounddown_mod va)]
      simp [mapLoop, walked, empty]
    · rw [Pgdir.pte_setPte there, if_pos (samePage_pgrounddown va)]

/-- What the handler does before it looks for memory. -/
theorem pageFault_eq (inside : pgrounddown va < (s.proc p).image.sz)
    (user : pgrounddown va < kernbase)
    (other : pgrounddown va ≠ (s.proc p).image.inicioPaginaGuarda) :
    s.pageFault k p va = (reservarPagina k s.mem (s.proc p).image.pgdir va).bind
      fun (served, d, m) =>
      .ok (if served then s.setImage p { (s.proc p).image with pgdir := d } m
        else (s.setImage p { (s.proc p).image with pgdir := d } m).kill p) := by
  unfold State.pageFault
  dsimp only
  rw [if_neg (not_le.mpr inside), if_neg (not_le.mpr user), if_neg other]
  rfl

theorem reservarPagina_ne_remap (absent : d.pte va = none) :
    reservarPagina k m d va ≠ .error .remap := by
  intro panics
  unfold reservarPagina at panics
  split at panics
  · cases panics
  · rw [mappages_page (pgrounddown_mod va)] at panics
    unfold mapLoop at panics
    split at panics
    · -- without a page table the page goes back, at worst to the panic of `kfree`
      unfold Mem.kfree at panics
      split at panics <;> cases panics
    · next walked =>
      rw [(walkpgdir_pte walked).1, d.pte_congr (samePage_pgrounddown va), absent] at panics
      cases panics

theorem pageFault_kills (outside : (s.proc p).image.sz ≤ pgrounddown va ∨
    kernbase ≤ pgrounddown va ∨
    pgrounddown va = (s.proc p).image.inicioPaginaGuarda) :
    s.pageFault k p va = .ok (s.kill p) := by
  unfold State.pageFault
  dsimp only
  rcases outside with beyond | high | guard
  · rw [if_pos beyond]
  · rw [if_pos high, ite_self]
  · rw [if_pos guard, ite_self, ite_self]

/-- A page that is neither present nor the guard page is not the one the field names. -/
theorem Linked.ne_field {i : Image} (linked : Linked i) (user : pgrounddown va < kernbase)
    (absent : i.pgdir.pte va = none) (other : i.guard ≠ some (pgrounddown va)) :
    pgrounddown va ≠ i.inicioPaginaGuarda := by
  intro same
  cases guard : i.guard with
  | none =>
    obtain ⟨field, first⟩ := linked.initial guard
    have page : SamePage 0 va := by
      rw [← field, ← same]
      exact samePage_pgrounddown va
    rw [i.pgdir.pte_congr page, absent] at first
    cases first
  | some g =>
    obtain field | ⟨high, _⟩ := linked.matched g guard
    · exact other (by rw [guard, same, field])
    · exact absurd (same ▸ user) (not_lt.mpr high)

/-- The guard page is the one the field names, or no user page at all. -/
theorem Linked.guard_field {i : Image} (linked : Linked i)
    (guard : i.guard = some (pgrounddown va)) :
    kernbase ≤ pgrounddown va ∨ pgrounddown va = i.inicioPaginaGuarda := by
  obtain field | ⟨_, high⟩ := linked.matched _ guard
  · exact .inr field.symm
  · exact .inl high

/-- What faults is absent or hidden, and a page that is hidden is never mapped anew. -/
theorem Linked.pageFault_ne_remap {kernel : Bool} (linked : Linked (s.proc p).image)
    (fault : s.faults p va kernel = true) : s.pageFault k p va ≠ .error .remap := by
  by_cases killed : (s.proc p).image.sz ≤ pgrounddown va ∨ kernbase ≤ pgrounddown va ∨
      pgrounddown va = (s.proc p).image.inicioPaginaGuarda
  · rw [pageFault_kills killed]
    exact nofun
  · simp only [not_or, not_le] at killed
    obtain ⟨inside, below, other⟩ := killed
    cases entry : (s.proc p).image.pgdir.pte va with
    | none =>
      rw [pageFault_eq inside below other]
      intro panics
      cases result : reservarPagina k s.mem (s.proc p).image.pgdir va with
      | ok _ =>
        rw [result] at panics
        cases panics
      | error e =>
        rw [result] at panics
        cases panics
        exact reservarPagina_ne_remap entry result
    | some e =>
      have invisible : e.u = false := by
        simp only [State.faults, entry, Bool.and_eq_true, Bool.not_eq_true'] at fault
        exact fault.2
      have low : va < kernbase := by
        simp only [pgrounddown, pgsize, kernbase] at *
        omega
      obtain high | field := linked.guard_field (linked.hidden va low e entry invisible)
      · exact absurd below (not_lt.mpr high)
      · exact absurd field other

end Faults

/-- As long as nothing breaks the link and all sizes stay in the user half, the handler
tells the guard page from a page that is to be served, and never maps a page twice. -/
theorem handler_knows_guard_page {k : Kernel} {m : Mem} {code : List UInt8} {first s : State}
    {schedule : List Action} {p : Slot} {va : Nat} {kernel : Bool}
    (booted : userinit k m code = .ok first) (mapped : ((first.proc 0).image.pgdir.pte 0).isSome)
    (admitted : Along (State.step k) (fun s a => Asks s a ∧ Links k s a) first schedule)
    (reached : run (State.step k) first schedule = some s) (live : (s.proc p).state = .live)
    (fault : s.faults p va kernel = true) :
    ((s.proc p).image.guard = some (pgrounddown va) → s.pageFault k p va = .ok (s.kill p)) ∧
      ((s.proc p).image.guard ≠ some (pgrounddown va) → pgrounddown va < (s.proc p).image.sz →
        (s.proc p).image.pgdir.pte va = none →
        (s.proc p).image.pgdir.pagesFor va ≤ s.mem.freelist.length →
          ∃ f d m, s.mem.freelist.head? = some f ∧
            s.pageFault k p va = .ok (s.setImage p { (s.proc p).image with pgdir := d } m) ∧
            d.pte va = some ⟨f, true, true⟩ ∧ m.page f = .zero) ∧
      s.pageFault k p va ≠ .error .remap := by
  obtain ⟨bounded, linked⟩ :=
    invariant_along guarded_step admitted reached (guarded_first booted mapped)
  have linked := linked p live
  have user := (bounded p live).2
  refine ⟨fun guard => pageFault_kills (.inr (linked.guard_field guard)),
    fun other inside absent memory => ?_, linked.pageFault_ne_remap fault⟩
  have below := inside.trans_le user
  obtain ⟨f, d, m, fresh, served, present, zero⟩ := reservarPagina_serves absent memory
  refine ⟨f, d, m, fresh, ?_, present, zero⟩
  rw [pageFault_eq inside below (linked.ne_field below absent other), served]
  rfl

theorem handler_serves_second_page : ∃ first s, userinit smallKernel smallMem [] = .ok first ∧
    run (State.step smallKernel) first [.sbrk 0 4096] = some s ∧ s.faults 0 5000 false = true ∧
      ∃ f d m, s.mem.freelist.head? = some f ∧
        s.pageFault smallKernel 0 5000 = .ok (s.setImage 0 { (s.proc 0).image with pgdir := d } m) ∧
        d.pte 5000 = some ⟨f, true, true⟩ ∧ m.page f = .zero := by
  obtain ⟨m, d, f, stack, booted, room, present, _, others⟩ :=
    userinit_boots [] (smallMem_room 5 (by decide)) (by decide)
  obtain ⟨s, reached, mem, proc⟩ :=
    firstState_sbrk smallKernel m d stack 4096 8192 (by decide) (by decide) (by decide)
  have asks : Asks (firstState m d stack) (.sbrk 0 4096) := by
    show (pgsize : Int) + 4096 ≤ kernbase
    decide
  have links : Links smallKernel (firstState m d stack) (.sbrk 0 4096) := by
    show none = none → (pgsize : Int) + 4096 ≠ 0
    decide
  have admitted : Along (State.step smallKernel) (fun s a => Asks s a ∧ Links smallKernel s a)
      (firstState m d stack)
      [.sbrk 0 4096] := ⟨⟨asks, links⟩, fun _ _ => trivial⟩
  have absent : d.pte 5000 = none := others 5000 (by decide) (by decide)
  have fault : s.faults 0 5000 false = true := by simp [State.faults, proc, absent]
  have memory : d.pagesFor 5000 ≤ m.freelist.length := by
    have enough := room.enough
    unfold Pgdir.pagesFor
    split <;> omega
  have mapped : (((firstState m d stack).proc 0).image.pgdir.pte 0).isSome :=
    Option.isSome_iff_exists.mpr ⟨_, present⟩
  have served := (handler_knows_guard_page booted mapped admitted reached (by rw [proc]) fault).2.1
  rw [proc, mem] at served
  have inside : pgrounddown 5000 < 8192 := by decide
  refine ⟨_, s, booted, reached, fault, ?_⟩
  rw [proc, mem]
  exact served nofun inside absent memory

/-- Giving back a single page at the bottom. -/
theorem deallocuvm_first {k : Kernel} {m : Mem} {d : Pgdir} {e : Pte} (present : d.pte 0 = some e)
    (usable : k.kend ≤ e.frame ∧ e.frame < phystop / pgsize) :
    ∃ m', deallocuvm k m d pgsize 0 = .ok (0, d.setPte 0 none, m') ∧
      m'.freelist = e.frame :: m.freelist := by
  have nonzero : e.frame ≠ 0 := by
    have := k.data_lt
    omega
  obtain ⟨t, there⟩ := Option.isSome_iff_exists.mp (Pgdir.table_of_pte present)
  have freed : m.kfree k e.frame =
      .ok { m.fill e.frame (fun _ => 1) with freelist := e.frame :: m.freelist } := by
    rw [Mem.kfree, if_neg (by omega)]
  refine ⟨{ m.fill e.frame (fun _ => 1) with freelist := e.frame :: m.freelist }, ?_, rfl⟩
  unfold deallocuvm
  rw [if_neg (by decide)]
  refine bind_ok.mpr ⟨(d.setPte 0 none, _), ?_, rfl⟩
  show deallocLoop k (1048575 + 1 + 1) m d 0 pgsize = _
  rw [deallocLoop, if_pos (by decide), there]
  dsimp only
  rw [present]
  dsimp only
  rw [if_neg nonzero]
  refine bind_ok.mpr ⟨_, freed, ?_⟩
  rw [deallocLoop, if_neg (by decide)]

/-- The first process gives its only page back and may no longer touch it, although
that page is below its size, is no guard page, and memory is free. -/
theorem handler_refuses_first_page : ∃ first s, userinit smallKernel smallMem [] = .ok first ∧
    run (State.step smallKernel) first [.sbrk 0 (-4096)] = some s ∧ (s.proc 0).image.guard = none ∧
      pgrounddown 0 < (s.proc 0).image.sz ∧ (s.proc 0).image.sz ≤ kernbase ∧
      (s.proc 0).image.pgdir.pte 0 = none ∧
      (s.proc 0).image.pgdir.pagesFor 0 ≤ s.mem.freelist.length ∧
      s.pageFault smallKernel 0 0 = .ok (s.kill 0) := by
  obtain ⟨m, d, f, stack, booted, room, present, usable, _⟩ :=
    userinit_boots [] (smallMem_room 5 (by decide)) (by decide)
  have there := Pgdir.table_of_pte present
  obtain ⟨m', freed, free⟩ := deallocuvm_first (m := m) present usable
  have result : sysSbrk smallKernel m ⟨d, pgsize, 0, [], 0, pgsize, none⟩ (-4096) =
      .ok (-1, ⟨d.setPte 0 none, pgsize, 0, [], 0, pgsize, none⟩, m') := by
    have empty : (((pgsize : Nat) + -4096 : Int) % 2 ^ 32).toNat = 0 := by decide
    rw [sysSbrk, if_pos (by decide), growproc, if_neg (by decide), if_pos (by decide), empty]
    exact bind_ok.mpr ⟨_, bind_ok.mpr ⟨_, freed, rfl⟩, rfl⟩
  have taken : (firstState m d stack).step smallKernel (.sbrk 0 (-4096)) =
      some ((firstState m d stack).setImage 0
      ⟨d.setPte 0 none, pgsize, 0, [], 0, pgsize, none⟩ m') :=
    step_ok.mpr ⟨rfl, bind_ok.mpr ⟨_, result, rfl⟩⟩
  have absent : (d.setPte 0 none).pte 0 = none := by rw [Pgdir.pte_setPte there, if_pos ⟨rfl, rfl⟩]
  refine ⟨_, _, booted, run_cons.mpr ⟨_, taken, rfl⟩, rfl, ?_, ?_, absent, ?_,
    pageFault_kills (.inr (.inr rfl))⟩
  · show pgrounddown 0 < pgsize
    decide
  · show pgsize ≤ kernbase
    decide
  · show (d.setPte 0 none).pagesFor 0 ≤ m'.freelist.length
    have enough := room.enough
    rw [free, List.length_cons]
    unfold Pgdir.pagesFor
    split <;> omega

end Aso.Xv6.Vm
