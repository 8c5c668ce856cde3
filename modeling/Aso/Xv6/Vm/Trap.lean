import Aso.Xv6.Vm.Guard

/-! `trap` for a page fault, up to its return. The handler reports a failure only in
`killed`, and `killed` ends the process only if the trap came from user code. -/
namespace Aso.Xv6.Vm
open Checked

/-- How `trap` ends: back to the instruction that faulted, or in `exit`. -/
inductive Trapped where
  | returned (s : State)
  | exited (s : State) (status : Nat)

/-- `trap` with `trapno` equal to `T_PGFLT` and `va` in `cr2`; `kernel` tells that the
privilege level in `cs` is not that of user code. -/
def State.trap (k : Kernel) (s : State) (p : Slot) (va : Nat) (kernel : Bool) :
    Except Panic Trapped := do
  let s ← s.pageFault k p va
  .ok (if (s.proc p).killed && !kernel then .exited (s.setProc p { s.proc p with state := .zombie })
    (tPgflt + 1) else .returned s)

/-- Whenever `trap` returns, the page is there and the access goes through. -/
def Resolves (k : Kernel) (s : State) (p : Slot) (va : Nat) (kernel : Bool) : Prop :=
  ∀ t, s.trap k p va kernel = .ok (.returned t) →
    ((t.proc p).image.pgdir.pte va).isSome ∧ t.faults p va kernel = false

section Trap
variable {k : Kernel} {m m' : Mem} {d d' : Pgdir} {s t : State} {p : Slot} {va : Nat}
  {kernel : Bool}

theorem trap_returned : s.trap k p va kernel = .ok (.returned t) ↔
    s.pageFault k p va = .ok t ∧ ((t.proc p).killed = true → kernel = true) := by
  unfold State.trap
  rw [bind_ok]
  constructor
  · rintro ⟨t', done, back⟩
    split at back
    · cases back
    · next stays =>
      cases back
      refine ⟨done, fun killed => ?_⟩
      simpa [killed] using stays
  · rintro ⟨done, stays⟩
    refine ⟨t, done, ?_⟩
    rw [if_neg]
    intro leaves
    rw [Bool.and_eq_true, Bool.not_eq_true'] at leaves
    rw [stays leaves.1] at leaves
    cases leaves.2

theorem reservarPagina_served (result : reservarPagina k m d va = .ok (true, d', m')) :
    ∃ f, d'.pte va = some ⟨f, true, true⟩ := by
  unfold reservarPagina at result
  split at result
  · cases result
  · next f m₁ _ =>
    obtain ⟨⟨mapped, d₁, m₂⟩, page, rest⟩ := bind_ok.mp result
    cases mapped with
    | false =>
      obtain ⟨_, _, rest⟩ := bind_ok.mp rest
      cases rest
    | true =>
      cases rest
      rw [mappages_page (pgrounddown_mod va)] at page
      have filled := mapLoop_filled page (i := 0) Nat.one_pos
      rw [Nat.zero_mul, Nat.add_zero, d'.pte_congr (samePage_mod.mpr (samePage_pgrounddown va))]
        at filled
      exact ⟨f, filled⟩

/-- Without memory for it, the fault is not served, unless the page that goes back is
one that `kfree` refuses. -/
theorem reservarPagina_starves (short : m.freelist.length < d.pagesFor va) :
    (∀ f ∈ m.freelist, k.kend ≤ f ∧ f < phystop / pgsize) ∧
    (∃ m', reservarPagina k m d va = .ok (false, d, m')) ∨
      (∃ f ∈ m.freelist, ¬ (k.kend ≤ f ∧ f < phystop / pgsize)) ∧
      reservarPagina k m d va = .error .kfree := by
  cases free : m.freelist with
  | nil =>
    refine .inl ⟨nofun, m, ?_⟩
    rw [reservarPagina, Mem.kalloc, free]
  | cons f rest =>
    have table : d.table (pdx (pgrounddown va)) = none := by
      rw [(samePage_pgrounddown va).1]
      cases there : d.table (pdx va) with
      | none => rfl
      | some t => simp [Pgdir.pagesFor, there, free] at short
    have last : rest = [] := by
      unfold Pgdir.pagesFor at short
      rw [free, List.length_cons] at short
      refine List.eq_nil_of_length_eq_zero ?_
      split at short <;> omega
    have fails : reservarPagina k m d va =
        (Mem.kfree k (Mem.fill ⟨[], m.page⟩ f .zero) f).bind fun m => .ok (false, d, m) := by
      rw [reservarPagina, Mem.kalloc, free, last]
      dsimp only
      rw [mappages_page (pgrounddown_mod va), mapLoop, walkpgdir, table]
      rfl
    rw [fails, Mem.kfree]
    by_cases refused : f < k.kend ∨ f ≥ phystop / pgsize
    · refine .inr ⟨⟨f, .head _, by omega⟩, ?_⟩
      rw [if_pos refused]
      rfl
    · refine .inl ⟨fun g inside => ?_, _, by rw [if_neg refused]; rfl⟩
      rw [last, List.mem_singleton] at inside
      omega

/-- A process that is not killed by its fault has the page. -/
theorem pageFault_alive (done : s.pageFault k p va = .ok t) (alive : (t.proc p).killed = false) :
    ∃ f, (t.proc p).image.pgdir.pte va = some ⟨f, true, true⟩ := by
  by_cases outside : (s.proc p).image.sz ≤ pgrounddown va ∨ kernbase ≤ pgrounddown va ∨
      pgrounddown va = (s.proc p).image.inicioPaginaGuarda
  · rw [pageFault_kills outside] at done
    cases done
    simp [State.kill, State.setProc] at alive
  · simp only [not_or, not_le] at outside
    rw [pageFault_eq outside.1 outside.2.1 outside.2.2] at done
    obtain ⟨⟨served, d, m⟩, result, rest⟩ := bind_ok.mp done
    cases rest
    cases served with
    | false => simp [State.kill, State.setProc] at alive
    | true =>
      obtain ⟨f, present⟩ := reservarPagina_served result
      exact ⟨f, by simpa [State.setImage, State.setProc] using present⟩

/-- The fault is inside the user memory of the process and off its guard page. -/
def Inside (i : Image) (va : Nat) : Prop :=
  pgrounddown va < i.sz ∧ pgrounddown va < kernbase ∧ pgrounddown va ≠ i.inicioPaginaGuarda

theorem faults_kernel : s.faults p va true = ((s.proc p).image.pgdir.pte va).isNone := by
  unfold State.faults
  cases (s.proc p).image.pgdir.pte va <;> rfl

theorem resolves_user : Resolves k s p va false := by
  intro t back
  obtain ⟨done, stays⟩ := trap_returned.mp back
  have alive : (t.proc p).killed = false :=
    Bool.eq_false_iff.mpr fun killed => Bool.noConfusion (stays killed)
  obtain ⟨f, present⟩ := pageFault_alive done alive
  simp [State.faults, present]

theorem not_inside {i : Image} : ¬ Inside i va ↔
    i.sz ≤ pgrounddown va ∨ kernbase ≤ pgrounddown va ∨ pgrounddown va = i.inicioPaginaGuarda := by
  simp only [Inside, not_and_or, not_lt, not_not]

/-- A fault of the kernel that cannot be served comes again. -/
theorem trap_repeats (fault : s.faults p va true = true)
    (lost : Inside (s.proc p).image va →
      s.mem.freelist.length < (s.proc p).image.pgdir.pagesFor va ∧
      ∀ f ∈ s.mem.freelist, k.kend ≤ f ∧ f < phystop / pgsize) :
    ∃ t, s.trap k p va true = .ok (.returned t) ∧ t.faults p va true = true := by
  by_cases inside : Inside (s.proc p).image va
  · obtain ⟨short, valid⟩ := lost inside
    obtain ⟨-, m, starved⟩ | ⟨⟨f, free, refused⟩, -⟩ := reservarPagina_starves (k := k) short
    · refine ⟨(s.setImage p (s.proc p).image m).kill p, trap_returned.mpr ⟨?_, fun _ => rfl⟩, ?_⟩
      · rw [pageFault_eq inside.1 inside.2.1 inside.2.2, starved]
        rfl
      · rw [faults_kernel] at fault ⊢
        simpa [State.kill, State.setImage, State.setProc] using fault
    · exact absurd (valid f free) refused
  · refine ⟨_, trap_returned.mpr ⟨pageFault_kills (not_inside.mp inside), fun _ => rfl⟩, ?_⟩
    rw [faults_kernel] at fault ⊢
    simpa [State.kill, State.setProc] using fault

theorem resolves_kernel (fault : s.faults p va true = true) (inside : Inside (s.proc p).image va)
    (memory : (s.proc p).image.pgdir.pagesFor va ≤ s.mem.freelist.length ∨
      ∃ f ∈ s.mem.freelist, ¬ (k.kend ≤ f ∧ f < phystop / pgsize)) : Resolves k s p va true := by
  intro t back
  have absent : (s.proc p).image.pgdir.pte va = none := by
    rw [faults_kernel] at fault
    exact Option.isNone_iff_eq_none.mp fault
  have done := (trap_returned.mp back).1
  rw [pageFault_eq inside.1 inside.2.1 inside.2.2] at done
  by_cases enough : (s.proc p).image.pgdir.pagesFor va ≤ s.mem.freelist.length
  · obtain ⟨f, d, m, -, served, present, -⟩ := reservarPagina_serves (k := k) absent enough
    rw [served] at done
    cases done
    have there : ((s.setImage p { (s.proc p).image with pgdir := d } m).proc p).image.pgdir.pte va =
        some ⟨f, true, true⟩ := by
      simpa [State.setImage, State.setProc] using present
    simp [State.faults, there]
  · obtain ⟨f, free, refused⟩ := memory.resolve_left enough
    obtain ⟨valid, -⟩ | ⟨-, panics⟩ := reservarPagina_starves (k := k) (not_le.mp enough)
    · exact absurd (valid f free) refused
    · rw [panics] at done
      cases done

/-- After a page fault `trap` returns to an access that goes through, exactly when the
access is one of user code, or is inside the memory of the process with free pages for it.
(A free page that `kfree` refuses stops the kernel instead.) -/
theorem trap_resolves_iff (fault : s.faults p va kernel = true) :
    Resolves k s p va kernel ↔ kernel = false ∨ Inside (s.proc p).image va ∧
      ((s.proc p).image.pgdir.pagesFor va ≤ s.mem.freelist.length ∨
        ∃ f ∈ s.mem.freelist, ¬ (k.kend ≤ f ∧ f < phystop / pgsize)) := by
  cases kernel with
  | false => exact iff_of_true resolves_user (.inl rfl)
  | true =>
    constructor
    · intro resolves
      by_contra lost
      have short (inside : Inside (s.proc p).image va) :
          s.mem.freelist.length < (s.proc p).image.pgdir.pagesFor va :=
        not_le.mp fun enough => lost (.inr ⟨inside, .inl enough⟩)
      have valid (inside : Inside (s.proc p).image va) (f : Nat) (free : f ∈ s.mem.freelist) :
          k.kend ≤ f ∧ f < phystop / pgsize := by
        by_contra refused
        exact lost (.inr ⟨inside, .inr ⟨f, free, refused⟩⟩)
      obtain ⟨t, back, again⟩ := trap_repeats fault fun inside => ⟨short inside, valid inside⟩
      rw [(resolves t back).2] at again
      cases again
    · rintro (user | ⟨inside, memory⟩)
      · cases user
      · exact resolves_kernel fault inside memory

/-- A process of two pages, the second of them not yet served, with these pages free. -/
def halfServed (free : List Nat) : State :=
  let table : Pgtab := ⟨2400, fun i => if i = 0 then some ⟨2500, true, true⟩ else none⟩
  let image : Image :=
    ⟨⟨2300, fun i => if i = 0 then some table else none⟩, 2 * pgsize, 0, [], 0, pgsize, none⟩
  ⟨⟨free, fun _ => .zero⟩, Function.update (fun _ => emptyProc) 0 ⟨.live, 2200, false, image⟩⟩

theorem second_page_resolves :
    (halfServed [2600]).faults 0 5000 true = true ∧
      Resolves smallKernel (halfServed [2600]) 0 5000 true := by
  have fault : (halfServed [2600]).faults 0 5000 true = true := by decide
  exact ⟨fault, (trap_resolves_iff fault).mpr (.inr ⟨by unfold Inside; decide, .inl (by decide)⟩)⟩

/-- Without a free page the kernel returns to the access that faulted, and it faults again. -/
theorem second_page_faults_again : Inside ((halfServed []).proc 0).image 5000 ∧
    ∃ t, (halfServed []).trap smallKernel 0 5000 true = .ok (.returned t) ∧
      (t.proc 0).image.pgdir.pte 5000 = none ∧ t.faults 0 5000 true = true := by
  refine ⟨by unfold Inside; decide, ?_⟩
  have fault : (halfServed []).faults 0 5000 true = true := by decide
  obtain ⟨t, back, again⟩ := trap_repeats (k := smallKernel) fault fun _ => ⟨by decide, nofun⟩
  exact ⟨t, back, Option.isNone_iff_eq_none.mp (faults_kernel.symm.trans again), again⟩

end Trap
end Aso.Xv6.Vm
