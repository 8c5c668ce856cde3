import Aso.Xv6.Kalloc.Ownership
import Aso.Xv6.Vm.Copyuvm
import Mathlib.Order.Interval.Finset.Fin

/-! The count of free pages over whole runs. The boot hands out every page behind the
kernel; afterwards each page has one place, and what a family of processes took is
back once all of it has been collected. -/
namespace Aso.Xv6.Kalloc
open Checked Transition
open Vm (Kernel Mem Pgdir Page Slot Room Spare kernbase pgsize phystop npdentries)

variable {k : Kernel} {s t : State} {m m' : Mem}

theorem freerange_freelist {n f : Nat} (done : freerange k n f m = .ok m') :
    (m'.freelist : Multiset Nat) = List.range' f n + m.freelist := by
  induction n generalizing f m with
  | zero =>
    cases done
    exact (zero_add _).symm
  | succ n ih =>
    obtain ⟨m₁, freed, rest⟩ := bind_ok.mp done
    rw [ih rest, Vm.kfree_freelist freed,
      List.range'_succ, ← Multiset.cons_coe, ← Multiset.cons_coe, Multiset.add_cons,
      Multiset.cons_add]

theorem freerange_kernel {n f : Nat} (done : freerange k n f m = .ok m') (some : 0 < n) :
    k.kend ≤ f := by
  cases n with
  | zero => exact absurd some (lt_irrefl 0)
  | succ n =>
    obtain ⟨m₁, freed, -⟩ := bind_ok.mp done
    unfold Mem.kfree at freed
    split at freed
    · cases freed
    · next valid => exact not_lt.mp (not_or.mp valid).1

theorem startothers_freelist {n : Nat} {others : List Nat}
    (started : startothers n m = some (others, m')) :
    (m'.freelist : Multiset Nat) + others = m.freelist := by
  induction n generalizing m others with
  | zero =>
    cases started
    exact add_zero _
  | succ n ih =>
    obtain ⟨⟨f, m₁⟩, taken, rest⟩ := Option.bind_eq_some_iff.mp started
    obtain ⟨⟨later, m₂⟩, rest, done⟩ := Option.bind_eq_some_iff.mp rest
    cases done
    rw [Vm.kalloc_freelist taken, ← Multiset.cons_coe, ← Multiset.cons_coe, ← ih rest,
      Multiset.add_cons]

/-- What `kinit2` frees is more than the first processes need. -/
theorem kinit2_room (done : freerange k (phystop / pgsize - kinit2Start) kinit2Start m = .ok m')
    (valid : ∀ f ∈ m'.freelist, k.kend ≤ f ∧ f < phystop / pgsize) :
    Room k m' ⟨0, fun _ => none⟩ (4096 + 3) := by
  refine ⟨?_, valid⟩
  have none : (Pgdir.mk 0 fun _ => none).tablesLeft = npdentries := by simp [Pgdir.tablesLeft]
  have cards := congrArg Multiset.card (freerange_freelist done)
  rw [Multiset.card_add, Multiset.coe_card, Multiset.coe_card, List.length_range'] at cards
  have many : npdentries + (4096 + 3) ≤ phystop / pgsize - kinit2Start := by decide
  rw [none]
  omega

/-- The boot hands out all pages behind the kernel. -/
theorem boot_inv {page : Nat → Page} {ncpu : Nat} {code : List UInt8}
    (booted : boot k page ncpu code = some s) : Inv k s := by
  obtain ⟨m₁, first, rest⟩ := Option.bind_eq_some_iff.mp booted
  obtain ⟨⟨made, m₂⟩, setup, rest⟩ := Option.bind_eq_some_iff.mp rest
  cases made with
  | none => cases rest
  | some kpgdir =>
    obtain ⟨_, same, rest⟩ := Option.bind_eq_some_iff.mp rest
    cases same
    obtain ⟨⟨others, m₃⟩, started, rest⟩ := Option.bind_eq_some_iff.mp rest
    obtain ⟨m₄, second, rest⟩ := Option.bind_eq_some_iff.mp rest
    obtain ⟨vm, process, rest⟩ := Option.bind_eq_some_iff.mp rest
    rw [toOption_eq_some] at first setup second process
    cases rest
    have low := freerange_freelist first
    have space := Vm.setupkvm_balance setup
    have stacked := startothers_freelist started
    have high := freerange_freelist second
    have kernel : k.kend ≤ kinit2Start := freerange_kernel second (by decide)
    have all : (bootPages k : Multiset Nat) =
        List.range' k.kend (kinit2Start - k.kend) + List.range' kinit2Start
        (phystop / pgsize - kinit2Start) := by
      have joined := List.range'_append_1 (s := k.kend) (m := kinit2Start - k.kend)
        (n := phystop / pgsize - kinit2Start)
      have bound : kinit2Start ≤ phystop / pgsize := by decide
      rw [Nat.add_sub_cancel' kernel, show kinit2Start - k.kend + (phystop / pgsize - kinit2Start) =
        phystop / pgsize - k.kend by omega] at joined
      rw [bootPages, ← joined, Multiset.coe_add]
    have total : (m₄.freelist : Multiset Nat) + others + kpgdir.owned = bootPages k := by
      ext f
      have low := congrArg (Multiset.count f) low
      have space := congrArg (Multiset.count f) space
      have stacked := congrArg (Multiset.count f) stacked
      have high := congrArg (Multiset.count f) high
      have all := congrArg (Multiset.count f) all
      simp only [Multiset.count_add, Vm.made, Multiset.coe_nil, add_zero] at *
      omega
    have room : Room k m₄ ⟨0, fun _ => none⟩ (4096 + 3) := by
      refine kinit2_room second fun f free => ?_
      have here := congrArg (Multiset.count f) total
      rw [Multiset.count_add, Multiset.count_add, count_bootPages] at here
      have listed := Multiset.count_pos.mpr (Multiset.mem_coe.mpr free)
      by_contra outside
      rw [if_neg outside] at here
      omega
    have unused : State.pipes ⟨kpgdir, others, vm, Ftable.userinit, fun _ => ⟨false, false⟩⟩ = 0 :=
      Multiset.filter_eq_nil.mpr fun _ _ => Bool.false_ne_true
    obtain ⟨m', d, stack, rfl, -⟩ := Vm.userinit_ok process
    refine ⟨Ftable.userinit_inv, fun p => ?_, Tracks.empty, ?_⟩
    · have nobody (p : Slot) :
          (fun _ => Ftable.Life.unused : Slot → Ftable.Life) p = life Vm.emptyProc.state := rfl
      change Function.update (fun _ => Ftable.Life.unused) (0 : Slot) .alive p =
        life (Function.update (fun _ => Vm.emptyProc) (0 : Slot)
        ⟨.live, stack, false, ⟨d, pgsize, 0, [], 0, pgsize, none⟩⟩ p).state
      rw [← life_update nobody]
      rfl
    · rw [State.pages, unused, add_zero, Vm.userinit_total room process, ← total]

/-- All sizes lie in the user half. -/
def UserHalf (s : State) : Prop :=
  ∀ p, (s.vm.proc p).state = .live → (s.vm.proc p).image.sz ≤ kernbase

theorem visits_inv {actions : List Action} (small : Visits (State.step k) UserHalf s actions)
    (reached : run (State.step k) s actions = some t) (inv : Inv k s) : Inv k t := by
  induction actions generalizing s with
  | nil =>
    cases reached
    exact inv
  | cons a rest ih =>
    obtain ⟨u, taken, reached⟩ := run_cons.mp reached
    exact ih (small.2 u taken) reached (step_ok inv small.1 taken).1

/-- The actions of a family that starts after `s`: a `fork`, or any action about a
process that did not exist in `s`. -/
def OfTree (s : State) (a : Action) : Prop := ∀ q, a.touches s q → (s.vm.proc q).state = .unused

/-- Whoever existed in `s` has the same memory and the same files in `t`. -/
structure Keeps (s t : State) : Prop where
  proc : ∀ q, (s.vm.proc q).state ≠ .unused → t.vm.proc q = s.vm.proc q
  ofile : ∀ q fd, (s.vm.proc q).state ≠ .unused → t.files.ofile (q, fd) = s.files.ofile (q, fd)
  behind : ∀ q fd f, (s.vm.proc q).state ≠ .unused → s.files.ofile (q, fd) = some f →
    t.files.behind f = s.files.behind f
  boot : t.kpgdir = s.kpgdir ∧ t.cpuStacks = s.cpuStacks

theorem touches_or {a : Action} {q : Slot} (s : State) (touched : a.touches t q) :
    a.touches s q ∨ (t.vm.proc q).state = .unused := by
  cases a with
  | fork p => exact .inr touched
  | _ => exact .inl touched

theorem Keeps.step {u : State} {a : Action} (keeps : Keeps s t) (tree : OfTree s a) (inv : Inv k t)
    (user : UserHalf t) (taken : t.step k a = some u) : Keeps s u := by
  obtain ⟨after, effect⟩ := step_ok inv user taken
  have apart (q : Slot) (used : (s.vm.proc q).state ≠ .unused) : ¬ a.touches t q := by
    intro touched
    rcases touches_or s touched with early | unused
    · exact used (tree q early)
    · exact used (keeps.proc q used ▸ unused)
  have ofile (q : Slot) (fd : Ftable.Fd) (used : (s.vm.proc q).state ≠ .unused) :
      u.files.ofile (q, fd) = s.files.ofile (q, fd) :=
    (effect.ofile q fd (apart q used)).trans (keeps.ofile q fd used)
  constructor
  · intro q used
    exact (effect.proc q (apart q used)).trans (keeps.proc q used)
  · exact ofile
  · intro q fd f used named
    -- the entry is named before and after the step, so it was neither free nor closed
    have before := inv.files.counted.pos_of_slot ((keeps.ofile q fd used).trans named)
    have still := after.files.counted.pos_of_slot ((ofile q fd used).trans named)
    rcases effect.behind f with free | same | gone
    · exact absurd free (Nat.pos_iff_ne_zero.mp before)
    · exact same.trans (keeps.behind q fd f used named)
    · exact absurd gone (after.files.typed f (Finset.notMem_empty f) still)
  · exact ⟨effect.boot.1.trans keeps.boot.1, effect.boot.2.trans keeps.boot.2⟩

theorem keeps_run {u : State} {actions : List Action}
    (small : Visits (State.step k) UserHalf t actions)
    (reached : run (State.step k) t actions = some u) (tree : ∀ a ∈ actions, OfTree s a)
    (inv : Inv k t) (keeps : Keeps s t) : Keeps s u := by
  induction actions generalizing t with
  | nil =>
    cases reached
    exact keeps
  | cons a rest ih =>
    obtain ⟨v, taken, reached⟩ := run_cons.mp reached
    refine ih (small.2 v taken) reached
      (fun b member => tree b (List.mem_cons_of_mem _ member)) ?_ ?_
    · exact (step_ok inv small.1 taken).1
    · exact keeps.step (tree a List.mem_cons_self) inv small.1 taken

/-- An end of a pipe is open as long as a descriptor leads to it. -/
theorem Inv.open_end (inv : Inv k s) (g : Nat) (w : Bool) : (s.pipe g).isOpen w = true ↔
    ∃ p fd f i, s.files.ofile (p, fd) = some f ∧ s.files.behind f = some (i, .pipeEnd g w) := by
  rw [inv.tracks.open_iff]
  constructor
  · rintro ⟨i, held, here⟩
    have bound := (List.getElem?_eq_some_iff.mp here).1
    rw [inv.files.open_iff bound, not_not] at held
    obtain ⟨⟨p, fd⟩, f, r, named, behind⟩ := held
    cases here.symm.trans (inv.files.ledger.attached f i r behind)
    exact ⟨p, fd, f, i, named, behind⟩
  · rintro ⟨p, fd, f, i, named, behind⟩
    have here := inv.files.ledger.attached f i _ behind
    have bound := (List.getElem?_eq_some_iff.mp here).1
    refine ⟨i, ?_, here⟩
    rw [inv.files.open_iff bound, not_not]
    exact ⟨(p, fd), f, _, named, behind⟩

/-- Once the family is gone, the same ends of pipes are open. -/
theorem Keeps.pipe (keeps : Keeps s t) (before : Inv k s) (after : Inv k t)
    (reaped : ∀ p, (s.vm.proc p).state = .unused → (t.vm.proc p).state = .unused) (g : Nat)
    (w : Bool) : (t.pipe g).isOpen w = (s.pipe g).isOpen w := by
  rw [Bool.eq_iff_iff, after.open_end, before.open_end]
  -- a slot without a process has no descriptors
  have owner {u : State} (inv : Inv k u) {p : Slot} {fd : Ftable.Fd} {f : Ftable.Entry}
      (named : u.files.ofile (p, fd) = some f) : (u.vm.proc p).state ≠ .unused := by
    intro unused
    have empty := inv.files.empty p fd (.inl (by rw [inv.life p, unused]; rfl))
    exact nomatch empty.symm.trans named
  constructor
  · rintro ⟨p, fd, f, i, named, behind⟩
    have used : (s.vm.proc p).state ≠ .unused := fun unused => owner after named (reaped p unused)
    rw [keeps.ofile p fd used] at named
    rw [keeps.behind p fd f used named] at behind
    exact ⟨p, fd, f, i, named, behind⟩
  · rintro ⟨p, fd, f, i, named, behind⟩
    have used := owner before named
    rw [← keeps.behind p fd f used named] at behind
    rw [← keeps.ofile p fd used] at named
    exact ⟨p, fd, f, i, named, behind⟩

theorem Keeps.freelist (keeps : Keeps s t) (before : Inv k s) (after : Inv k t)
    (reaped : ∀ p, (s.vm.proc p).state = .unused → (t.vm.proc p).state = .unused) :
    (t.vm.mem.freelist : Multiset Nat) = s.vm.mem.freelist := by
  have pipes : t.pipes = s.pipes := by
    refine Multiset.filter_congr fun g _ => ?_
    rw [Ends.used_iff, Ends.used_iff]
    exact exists_congr fun w => by rw [keeps.pipe before after reaped g w]
  have processes : ∑ p, (t.vm.proc p).owned = ∑ p, (s.vm.proc p).owned := by
    refine Finset.sum_congr rfl fun p _ => ?_
    by_cases unused : (s.vm.proc p).state = .unused
    · rw [Vm.Proc.owned, Vm.Proc.owned, if_pos unused, if_pos (reaped p unused)]
    · rw [keeps.proc p unused]
  have same := after.pages.trans before.pages.symm
  rw [State.pages, State.pages, Vm.State.total, Vm.State.total, pipes, processes, keeps.boot.1,
    keeps.boot.2] at same
  simpa only [add_left_inj] using same

/-- In every run that stays in the user half, each page that the boot handed out is
once on the free list or has one owner; the free pages are those without an owner, and
their number is back when a family of processes has been collected. -/
theorem page_has_one_owner {page : Nat → Page} {ncpu : Nat} {code : List UInt8} {first : State}
    {actions : List Action} (booted : boot k page ncpu code = some first)
    (reached : run (State.step k) first actions = some s)
    (small : Visits (State.step k) UserHalf first actions) :
    (∀ f, s.vm.mem.freelist.count f + s.kernelStacks.count f + s.directories.count f +
      s.pageTables.count f +
        s.userMemory.count f + s.pipes.count f = if k.kend ≤ f ∧
        f < phystop / pgsize then 1 else 0) ∧
      freemem s.vm.mem fPages = (phystop / pgsize - k.kend : Nat) - (s.owned.card : Int) ∧
      ∀ tree t, run (State.step k) s tree = some t → Visits (State.step k) UserHalf s tree →
      (∀ a ∈ tree, OfTree s a) →
        (∀ p, (s.vm.proc p).state = .unused → (t.vm.proc p).state = .unused) →
          freemem t.vm.mem fPages = freemem s.vm.mem fPages := by
  have inv := visits_inv small reached (boot_inv booted)
  have total : s.vm.mem.freelist + s.owned = bootPages k := s.owned_pages.trans inv.pages
  refine ⟨fun f => ?_, ?_, fun tree t later small family reaped => ?_⟩
  · have here := congrArg (Multiset.count f) total
    rw [count_bootPages, State.owned] at here
    simp only [Multiset.count_add, Multiset.coe_count] at here
    rw [← here]
    omega
  · have cards := congrArg Multiset.card total
    rw [Multiset.card_add, bootPages, Multiset.coe_card, Multiset.coe_card, List.length_range']
      at cards
    rw [freemem, if_pos rfl]
    omega
  · have keeps := keeps_run small later family inv
      ⟨fun _ _ => rfl, fun _ _ _ => rfl, fun _ _ _ _ _ => rfl, rfl, rfl⟩
    have same := congrArg Multiset.card (keeps.freelist inv (visits_inv small later inv) reaped)
    rw [Multiset.coe_card, Multiset.coe_card] at same
    rw [freemem, freemem, if_pos rfl, if_pos rfl, same]

theorem freerange_frees {n f : Nat} (m : Mem) (valid : k.kend ≤ f ∧ f + n ≤ phystop / pgsize) :
    ∃ m', freerange k n f m = .ok m' := by
  induction n generalizing f m with
  | zero => exact ⟨m, rfl⟩
  | succ n ih =>
    obtain ⟨m', rest⟩ := ih { m.fill f (fun _ => 1) with freelist := f :: m.freelist }
      (f := f + 1) (by omega)
    refine ⟨m', bind_ok.mpr ⟨_, ?_, rest⟩⟩
    rw [Mem.kfree, if_neg (by omega)]

theorem boot_of {page : Nat → Page} {ncpu : Nat} {code : List UInt8} {m₁ m₂ m₃ m₄ : Mem}
    {kpgdir : Pgdir} {others : List Nat} {vm : Vm.State}
    (low : freerange k (kinit2Start - k.kend) k.kend ⟨[], page⟩ = .ok m₁)
    (setup : Vm.setupkvm k m₁ = .ok (some kpgdir, m₂))
    (started : startothers (ncpu - 1) m₂ = some (others, m₃))
    (high : freerange k (phystop / pgsize - kinit2Start) kinit2Start m₃ = .ok m₄)
    (process : Vm.userinit k m₄ code = .ok vm) :
    boot k page ncpu code =
      some ⟨kpgdir, others, vm, Ftable.userinit, fun _ => ⟨false, false⟩⟩ := by
  unfold boot
  rw [toOption_eq_some.mpr low, Option.bind_eq_bind, Option.bind_some, toOption_eq_some.mpr setup,
    Option.bind_eq_bind, Option.bind_some]
  dsimp only
  rw [Option.bind_eq_bind, Option.bind_some, started, Option.bind_eq_bind, Option.bind_some]
  dsimp only
  rw [toOption_eq_some.mpr high, Option.bind_eq_bind, Option.bind_some,
    toOption_eq_some.mpr process]
  rfl

/-- A machine with a second processor boots. -/
theorem small_boots : ∃ first, boot Vm.smallKernel (fun _ => .zero) 2 [] = some first ∧
    first.files = Ftable.userinit ∧
    ∃ m d stack, first.vm = Vm.firstState m d stack ∧ Room Vm.smallKernel m d 4096 := by
  obtain ⟨m₁, low⟩ := freerange_frees (k := Vm.smallKernel) (n := kinit2Start - Vm.smallKernel.kend)
    (f := Vm.smallKernel.kend)
    ⟨[], fun _ => .zero⟩ (by decide)
  have list := freerange_freelist low
  have pages : m₁.freelist.length = 724 := by
    have cards := congrArg Multiset.card list
    rwa [Multiset.card_add, Multiset.coe_card, Multiset.coe_card, List.length_range'] at cards
  -- the kernel's address space needs page tables for its own half only
  have spare :
      Spare (fun i => Vm.pdx kernbase ≤ i) Vm.smallKernel m₁ ⟨0, fun _ => none⟩ (1 + 1) := by
    constructor
    · have half : (Pgdir.mk 0 fun _ => none).lacks (fun i => Vm.pdx kernbase ≤ i) ≤ 512 := by
        have upper : (Finset.univ.filter fun i : Fin npdentries => Vm.pdx kernbase ≤ i) =
            Finset.Ici ⟨512, by decide⟩ := by
          ext i
          rw [Finset.mem_filter, Finset.mem_Ici, Fin.le_def]
          exact and_iff_right (Finset.mem_univ i)
        simp only [Pgdir.lacks, Option.isNone_none, and_true, decide_eq_true_eq]
        rw [upper, Fin.card_Ici]
        decide
      omega
    · intro f free
      rw [← Multiset.mem_coe, list, Multiset.mem_add, Multiset.mem_coe, List.mem_range'_1] at free
      simp only [Multiset.coe_nil, Multiset.notMem_zero, or_false, kinit2Start, Vm.smallKernel,
        pgsize] at free
      simp only [Vm.smallKernel, phystop, pgsize]
      omega
  obtain ⟨kpgdir, m₂, setup, left⟩ := spare.setupkvm fun va high low => by
    rw [decide_eq_true_eq, ← not_lt]
    exact Vm.pdx_kernel high low
  obtain ⟨f, m₃, taken, left, -⟩ := left.kalloc
  obtain ⟨m₄, high⟩ := freerange_frees (k := Vm.smallKernel) (n := phystop / pgsize - kinit2Start)
    (f := kinit2Start) m₃ (by decide)
  have room := kinit2_room high fun g free => by
    rw [← Multiset.mem_coe, freerange_freelist high, Multiset.mem_add, Multiset.mem_coe,
      List.mem_range'_1] at free
    rcases free with new | old
    · simp only [kinit2Start, Vm.smallKernel, phystop, pgsize] at *
      omega
    · exact left.valid g (Multiset.mem_coe.mp old)
  obtain ⟨m, d, _, stack, booted, left, _⟩ := Vm.userinit_boots [] room (by decide)
  have started : startothers (2 - 1) m₂ = some ([f], m₃) :=
    Option.bind_eq_some_iff.mpr ⟨(f, m₃), taken, rfl⟩
  exact ⟨_, boot_of low setup started high booted, rfl, m, d, stack, rfl, left⟩

/-- `kfree` takes back every page of a process. -/
theorem Inv.valid (inv : Inv k s) {f : Nat} (mine : 0 < s.vm.total.count f) :
    k.kend ≤ f ∧ f < phystop / pgsize := by
  have here := congrArg (Multiset.count f) inv.pages
  rw [State.pages, Multiset.count_add, Multiset.count_add, Multiset.count_add, count_bootPages]
    at here
  by_contra outside
  rw [if_neg outside] at here
  omega

theorem Inv.room (inv : Inv k s) {n : Nat} (enough : npdentries + n ≤ s.vm.mem.freelist.length) :
    Room k s.vm.mem ⟨0, fun _ => none⟩ n := by
  constructor
  · have none : (Pgdir.mk 0 fun _ => none).tablesLeft = npdentries := by simp [Pgdir.tablesLeft]
    rwa [none]
  · intro f free
    apply inv.valid
    rw [Vm.State.total, Multiset.count_add]
    exact Nat.add_pos_left (Multiset.count_pos.mpr free) _

/-- A zombie can always be collected. -/
theorem wait_runs (inv : Inv k s) (zombie : (s.vm.proc p).state = .zombie) :
    ∃ t, s.step k (.wait p) = some t ∧ (t.vm.proc p).state = .unused := by
  have used : (s.vm.proc p).state ≠ .unused := by
    rw [zombie]
    nofun
  have part (f : Nat) :
      s.vm.mem.freelist.count f + (s.vm.proc p).owned.count f ≤ s.vm.total.count f := by
    have single : (s.vm.proc p).owned ≤ ∑ q, (s.vm.proc q).owned :=
      Finset.single_le_sum (f := fun q => (s.vm.proc q).owned) (fun _ _ => Multiset.zero_le _)
      (Finset.mem_univ p)
    rw [Vm.State.total, Multiset.count_add, Multiset.coe_count]
    exact Nat.add_le_add_left (Multiset.count_le_of_le f single) _
  rw [Vm.Proc.owned_used used] at part
  obtain ⟨m₁, freed⟩ : ∃ m₁, s.vm.mem.kfree k (s.vm.proc p).kstack = .ok m₁ := by
    have count := part (s.vm.proc p).kstack
    rw [Multiset.count_cons_self] at count
    have := inv.valid (f := (s.vm.proc p).kstack) (by omega)
    exact ⟨_, if_neg (by omega)⟩
  have returnable : Vm.Returnable k m₁ (s.vm.proc p).image.pgdir := by
    intro f inside
    refine inv.valid (inside.trans_le (le_trans (le_of_eq ?_) (part f)))
    rw [Vm.balance, Multiset.count_add, Multiset.coe_count, Vm.kfree_freelist freed,
      List.count_cons, Multiset.count_cons]
    simp only [beq_iff_eq, eq_comm (a := f)]
    omega
  obtain ⟨m₂, gone⟩ := returnable.freevm
  have reaped : s.vm.reap k p = .ok _ := bind_ok.mpr ⟨_, freed, bind_ok.mpr ⟨_, gone, rfl⟩⟩
  have moved : s.vm.step k (.wait p) = some _ := Vm.step_ok.mpr ⟨decide_eq_true zombie, reaped⟩
  refine ⟨_, Option.map_eq_some_iff.mpr ⟨_, Option.map_eq_some_iff.mpr ⟨_, moved, rfl⟩, rfl⟩, ?_⟩
  simp only [Vm.State.setProc, Function.update_self]

/-- A call of the file table that releases nothing leaves the pages alone. -/
theorem setFiles_quiet {files : Ftable.State}
    (quiet : files.ledger.released = s.files.ledger.released) :
    s.setFiles k files = .ok { s with files := files } := by
  rw [State.setFiles, quiet, List.drop_length]
  rfl

theorem exit_runs {files : Ftable.State} (live : (s.vm.proc p).state = .live)
    (exits : s.files.exit p = .ok files) (quiet : files.ledger.released = s.files.ledger.released) :
    ∃ t, s.step k (.exit p) = some t ∧ (t.vm.proc p).state = .zombie := by
  have moved : s.vm.step k (.exit p) = some _ := Vm.step_ok.mpr ⟨decide_eq_true live, rfl⟩
  rw [State.step, if_pos live, exits]
  refine ⟨_, Option.bind_eq_some_iff.mpr ⟨files, rfl, Option.bind_eq_some_iff.mpr
    ⟨_, toOption_eq_some.mpr (setFiles_quiet quiet), Option.map_eq_some_iff.mpr ⟨_, moved, rfl⟩⟩⟩,
    ?_⟩
  simp only [Vm.State.setProc, Function.update_self]

theorem UserHalf.ends (half : UserHalf s) (alone : Local (· = p) s t)
    (dead : (t.vm.proc p).state ≠ .live) : UserHalf t := by
  intro q live
  have other : q ≠ p := by
    rintro rfl
    exact dead live
  rw [alone.proc q other] at live ⊢
  exact half q live

/-- The slots below `n` run programs of one page each, and the others are free. -/
structure Crowd (n : Slot) (s : State) : Prop where
  live : ∀ q < n, (s.vm.proc q).state = .live ∧ (s.vm.proc q).image.sz = pgsize
  unused : ∀ q, n ≤ q → (s.vm.proc q).state = .unused

namespace Crowd
variable {n : Slot} {r : Nat}

theorem first {d : Pgdir} {stack : Nat} (vm : s.vm = Vm.firstState m d stack) : Crowd 1 s := by
  constructor
  · intro q low
    obtain rfl := (by decide : ∀ q : Slot, q < 1 → q = 0) q low
    rw [vm]
    exact ⟨rfl, rfl⟩
  · intro q high
    have other : q ≠ 0 := by
      rintro rfl
      exact absurd high (by decide)
    rw [vm]
    change (Function.update (fun _ => Vm.emptyProc) 0 _ q).state = _
    rw [Function.update_of_ne other]
    rfl

theorem userHalf (crowd : Crowd n s) : UserHalf s := by
  intro p running
  obtain low | high := lt_or_ge p n
  · rw [(crowd.live p low).2]
    decide
  · exact nomatch (crowd.unused p high).symm.trans running

theorem unusedSlot (crowd : Crowd n s) :
    s.vm.unusedSlot = (List.finRange nproc).find? fun q => decide (n ≤ q) := by
  have same (q : Slot) : (s.vm.proc q).state = .unused ↔ n ≤ q := by
    refine ⟨fun unused => le_of_not_gt fun low => ?_, crowd.unused q⟩
    exact nomatch (crowd.live q low).1.symm.trans unused
  simp only [Vm.State.unusedSlot, same]

/-- The next process joins them. -/
theorem fork {n' : Slot} {files : Ftable.State} {pid : Int} (crowd : Crowd n s) (inv : Inv k s)
    (enough : npdentries + (r + 1 + 1 + 1) ≤ s.vm.mem.freelist.length) (runs : p < n)
    (slot : s.vm.unusedSlot = some n) (next : ∀ q, q < n' ↔ q < n ∨ q = n)
    (forks : s.files.fork p true = .ok (files, pid))
    (quiet : files.ledger.released = s.files.ledger.released) :
    ∃ t, s.step k (.fork p) = some t ∧ Crowd n' t ∧ t.files = files ∧
      r ≤ t.vm.mem.freelist.length := by
  obtain ⟨live, size⟩ := crowd.live p runs
  obtain ⟨vm, forked, left, child, copied, others⟩ :=
    (inv.room enough).fork (p := p) (by rw [size]; decide)
    (by rw [size, one_mul]) slot
  have moved : s.vm.step k (.fork p) = some vm := Vm.step_ok.mpr ⟨decide_eq_true live, forked⟩
  have made : s.forked vm = true := by
    rw [State.forked, slot, Option.any_some, child]
    rfl
  refine ⟨{ s with vm := vm, files := files }, ?_, ⟨fun q low => ?_, fun q high => ?_⟩, rfl, ?_⟩
  · rw [State.step, moved, Option.bind_eq_bind, Option.bind_some, made, forks]
    exact toOption_eq_some.mpr (setFiles_quiet (s := { s with vm := vm }) quiet)
  · obtain early | rfl := (next q).mp low
    · change (vm.proc q).state = _ ∧ (vm.proc q).image.sz = _
      rw [others q early.ne]
      exact crowd.live q early
    · exact ⟨child, copied.trans size⟩
  · rw [← not_lt, next, not_or, not_lt] at high
    change (vm.proc q).state = _
    rw [others q high.2]
    exact crowd.unused q high.1
  · have := left.enough
    change r ≤ vm.mem.freelist.length
    omega

/-- A child that exits and is collected. -/
theorem family {n' : Slot} {files files' : Ftable.State} {pid : Int} (crowd : Crowd n s)
    (inv : Inv k s) (enough : npdentries + (r + 1 + 1 + 1) ≤ s.vm.mem.freelist.length)
    (runs : p < n) (slot : s.vm.unusedSlot = some n) (next : ∀ q, q < n' ↔ q < n ∨ q = n)
    (forks : s.files.fork p true = .ok (files, pid)) (exits : files.exit n = .ok files')
    (quiet' : files'.ledger.released = files.ledger.released)
    (quiet : files.ledger.released = s.files.ledger.released) :
    ∃ t, run (State.step k) s [.fork p, .exit n, .wait n] = some t ∧
      Visits (State.step k) UserHalf s [.fork p, .exit n, .wait n] ∧
      ∀ q, (s.vm.proc q).state = .unused → (t.vm.proc q).state = .unused := by
  obtain ⟨u, forked, more, rfl, -⟩ := crowd.fork inv enough runs slot next forks quiet
  have inv := (step_ok inv crowd.userHalf forked).1
  obtain ⟨v, exited, zombie⟩ :=
    exit_runs (k := k) (more.live n ((next n).mpr (.inr rfl))).1 exits quiet'
  obtain ⟨inv, left⟩ := exit_ok inv more.userHalf exited
  have half : UserHalf v := more.userHalf.ends left (by rw [zombie]; nofun)
  obtain ⟨t, collected, unused⟩ := wait_runs inv zombie
  have gone := (wait_ok inv half collected).2
  refine ⟨t, run_cons.mpr ⟨u, forked, run_cons.mpr ⟨v, exited, run_cons.mpr ⟨t, collected, rfl⟩⟩⟩,
    ?_, fun q before => ?_⟩
  · refine ⟨crowd.userHalf, fun _ taken => ?_⟩
    cases forked.symm.trans taken
    refine ⟨more.userHalf, fun _ taken => ?_⟩
    cases exited.symm.trans taken
    refine ⟨half, fun _ taken => ?_⟩
    cases collected.symm.trans taken
    exact half.ends gone (by rw [unused]; nofun)
  · obtain rfl | other := eq_or_ne q n
    · exact unused
    · rw [gone.proc q other, left.proc q other]
      refine more.unused q (not_lt.mp fun low => ?_)
      obtain early | same := (next q).mp low
      · exact nomatch (crowd.live q early).1.symm.trans before
      · exact other same

theorem ofTree (crowd : Crowd n s) (p : Slot) :
    ∀ a ∈ [Action.fork p, .exit n, .wait n], OfTree s a := by
  intro a member q touched
  simp only [List.mem_cons, List.not_mem_nil, or_false] at member
  rcases member with rfl | rfl | rfl
  · exact touched
  all_goals exact crowd.unused q (le_of_eq touched.symm)

end Crowd

theorem page_has_one_owner_in_family :
    ∃ first s t, boot Vm.smallKernel (fun _ => .zero) 2 [] = some first ∧
    run (State.step Vm.smallKernel) first [.fork 0] = some s ∧ (s.vm.proc 1).state = .live ∧
      (∀ f, s.vm.mem.freelist.count f + s.kernelStacks.count f + s.directories.count f +
        s.pageTables.count f + s.userMemory.count f + s.pipes.count f = if 300 ≤ f ∧
        f < 57344 then 1 else 0) ∧
      freemem s.vm.mem fPages = 57044 - (s.owned.card : Int) ∧
      run (State.step Vm.smallKernel) s [.fork 0, .exit 2, .wait 2] = some t ∧
      freemem t.vm.mem fPages = freemem s.vm.mem fPages := by
  obtain ⟨first, booted, files, m, d, stack, vm, left⟩ := small_boots
  have inv := boot_inv booted
  have crowd := Crowd.first vm
  have many : npdentries + (2048 + 1 + 1 + 1) ≤ first.vm.mem.freelist.length := by
    have := left.enough
    rw [vm]
    change _ ≤ m.freelist.length
    simp only [npdentries]
    omega
  obtain ⟨s, forked, pair, files, many⟩ := crowd.fork inv many (by decide)
    (crowd.unusedSlot.trans (by decide)) (by decide : ∀ q : Slot, q < 2 ↔ q < 1 ∨ q = 1)
    (by rw [files]; rfl : first.files.fork 0 true = .ok (_, 2)) (by rw [files]; rfl)
  have inv := (step_ok inv crowd.userHalf forked).1
  obtain ⟨t, later, small, reaped⟩ :=
    pair.family (r := 0) inv (le_trans (by decide) many) (by decide)
    (pair.unusedSlot.trans (by decide)) (by decide : ∀ q : Slot, q < 3 ↔ q < 2 ∨ q = 2)
    (by rw [files]; rfl : s.files.fork 0 true = .ok (_, 3)) (by rfl) (by rfl) (by rw [files]; rfl)
  have early : Visits (State.step Vm.smallKernel) UserHalf first [.fork 0] := by
    refine ⟨crowd.userHalf, fun _ next => ?_⟩
    cases forked.symm.trans next
    exact pair.userHalf
  have reached := run_cons.mpr ⟨s, forked, (rfl : run (State.step Vm.smallKernel) s [] = some s)⟩
  obtain ⟨places, count, back⟩ := page_has_one_owner booted reached early
  exact ⟨first, s, t, booted, reached, (pair.live 1 (by decide)).1, places, count, later,
    back _ t later small (pair.ofTree 0) reaped⟩

end Aso.Xv6.Kalloc
