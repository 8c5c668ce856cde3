import Aso.Xv6.Vm.Boot

/-! The size of a process. `exec` bounds the size of the image it builds, `fork` copies
a size and a page fault keeps it, so only `sbrk` can move it past the user half. Every
check of a user pointer trusts it. -/
namespace Aso.Xv6.Vm
open Checked Transition

section Exec
variable {k : Kernel} {m m' : Mem} {d d' : Pgdir} {p q : Image} {path : List UInt8}
  {argv : List (List UInt8)}

/-- One round of the loop over the program headers, at the header `ph`: it is refused or is
none of a segment to load, the segment finds no memory or no page to begin at, it is not all
in the file, or it is loaded. -/
inductive Round (k : Kernel) (file : File) (n : Nat) (m : Mem) (d : Pgdir) (sz off : Nat)
    (ph : Proghdr) : Option Nat → Pgdir → Mem → Prop where
  | refused : Round k file n m d sz off ph none d m
  | skipped {r : Option Nat} {d' : Pgdir} {m' : Mem}
      (whole : (file off proghdrSize).length = proghdrSize)
      (other : ph.type ≠ elfProgLoad ∨ ph.memsz = 0)
      (rest : loadSegments k file n m d sz ((off + proghdrSize) % 2 ^ 32) = .ok (r, d', m')) :
      Round k file n m d sz off ph r d' m'
  | unplaced {size : Nat} {d₁ : Pgdir} {m₁ : Mem}
      (alloc : allocuvm k m d sz ((ph.vaddr + ph.memsz) % 2 ^ 32) = .ok (size, d₁, m₁)) :
      Round k file n m d sz off ph none d₁ m₁
  | unread {size : Nat} {d₁ : Pgdir} {m₁ m₂ : Mem} (smaller : ph.filesz ≤ ph.memsz)
      (straight : ph.vaddr ≤ (ph.vaddr + ph.memsz) % 2 ^ 32)
      (alloc : allocuvm k m d sz ((ph.vaddr + ph.memsz) % 2 ^ 32) = .ok (size, d₁, m₁))
        (nonzero : size ≠ 0)
      (load : loaduvm m₁ d₁ ph.vaddr file ph.off ph.filesz = .ok (false, m₂)) :
      Round k file n m d sz off ph none d₁ m₂
  | loaded {size : Nat} {d₁ d' : Pgdir} {m₁ m₂ m' : Mem} {r : Option Nat}
      (whole : (file off proghdrSize).length = proghdrSize)
      (segment : ¬ (ph.type ≠ elfProgLoad ∨ ph.memsz = 0))
      (smaller : ph.filesz ≤ ph.memsz) (straight : ph.vaddr ≤ (ph.vaddr + ph.memsz) % 2 ^ 32)
      (alloc : allocuvm k m d sz ((ph.vaddr + ph.memsz) % 2 ^ 32) = .ok (size, d₁, m₁))
        (nonzero : size ≠ 0)
      (aligned : ph.vaddr % pgsize = 0)
        (load : loaduvm m₁ d₁ ph.vaddr file ph.off ph.filesz = .ok (true, m₂))
      (rest : loadSegments k file n m₂ d₁ size ((off + proghdrSize) % 2 ^ 32) = .ok (r, d', m')) :
      Round k file n m d sz off ph r d' m'

theorem loadSegments_round {file : File} {n sz off : Nat} {r : Option Nat}
    (loaded : loadSegments k file (n + 1) m d sz off = .ok (r, d', m')) :
    Round k file n m d sz off (Proghdr.decode (file off proghdrSize)) r d' m' := by
  unfold loadSegments at loaded
  dsimp only at loaded
  split at loaded
  · cases loaded
    exact .refused
  next whole =>
  split at loaded
  · next other => exact .skipped (not_not.mp whole) other loaded
  next segment =>
  split at loaded
  · cases loaded
    exact .refused
  next smaller =>
  split at loaded
  · cases loaded
    exact .refused
  next straight =>
  obtain ⟨⟨size, d₁, m₁⟩, alloc, rest⟩ := bind_ok.mp loaded
  dsimp only at rest
  split at rest
  · cases rest
    exact .unplaced alloc
  next nonzero =>
  split at rest
  · cases rest
    exact .unplaced alloc
  next aligned =>
  obtain ⟨⟨read, m₂⟩, load, rest⟩ := bind_ok.mp rest
  cases read with
  | true =>
    exact .loaded (not_not.mp whole) segment (not_lt.mp smaller) (not_lt.mp straight) alloc nonzero
      (not_not.mp aligned)
      load rest
  | false =>
    cases rest
    exact .unread (not_lt.mp smaller) (not_lt.mp straight) alloc nonzero load

theorem loadSegments_ok {file : File} {n sz sz' off : Nat} (user : sz < kernbase)
    (loaded : loadSegments k file n m d sz off = .ok (some sz', d', m')) :
    sz' < kernbase ∧ d.HidesNoMore d' := by
  induction n generalizing m d sz off with
  | zero =>
    cases loaded
    exact ⟨user, .refl _⟩
  | succ n ih =>
    cases loadSegments_round loaded with
    | skipped _ _ rest => exact ih user rest
    | loaded _ _ _ _ alloc nonzero _ _ rest =>
      obtain ⟨below, size⟩ := allocuvm_sz alloc nonzero
      obtain ⟨last, hides⟩ := ih (size ▸ max_lt user below) rest
      exact ⟨last, (allocuvm_hides alloc).trans hides⟩

/-- What a call of `exec` that builds an image went through once the segments were loaded. -/
structure Replaced (k : Kernel) (d : Pgdir) (sz : Nat) (q : Image) where
  /-- The directory before the guard page is hidden. -/
  full : Pgdir
  {before after : Mem}
  guard : Nat
  alloc : allocuvm k before d (pgroundup sz)
    ((pgroundup sz + (pgroundup sz / pgsize + 1) * pgsize) % 2 ^ 32) =
    .ok (q.sz, full, after)
  nonzero : q.sz ≠ 0
  cleared : clearpteu full guard = .ok q.pgdir
  guard_eq : guard = (q.sz + 2 ^ 32 - (pgroundup sz / pgsize + 1) * pgsize) % 2 ^ 32
  hidden : q.guard = some guard
  start : q.inicioPaginaGuarda = pgroundup sz

theorem finishExec_ok {sz entry : Nat} {done : Bool}
    (finished : finishExec k m p d sz path entry argv = .ok (done, q, m')) :
    done = false ∧ q = { p with inicioPaginaGuarda := pgroundup sz } ∨
      done = true ∧ Nonempty (Replaced k d sz q) := by
  obtain ⟨⟨grown, d₁, m₁⟩, alloc, rest⟩ := bind_ok.mp finished
  obtain rfl | nonzero := eq_or_ne grown 0
  · obtain ⟨_, _, rest⟩ := bind_ok.mp rest
    cases rest
    exact .inl ⟨rfl, rfl⟩
  · dsimp only at rest
    split at rest
    · next zero =>
      cases zero
      exact absurd rfl nonzero
    · next same =>
      cases same
      obtain ⟨d₂, cleared, rest⟩ := bind_ok.mp rest
      obtain ⟨⟨pointer, m₂⟩, _, rest⟩ := bind_ok.mp rest
      cases pointer with
      | none =>
        obtain ⟨_, _, rest⟩ := bind_ok.mp rest
        cases rest
        exact .inl ⟨rfl, rfl⟩
      | some sp =>
        obtain ⟨_, _, rest⟩ := bind_ok.mp rest
        cases rest
        exact .inr ⟨rfl, ⟨d₁, _, alloc, nonzero, cleared, rfl, rfl, rfl⟩⟩

/-- `exec` either fails, with at most `inicio_pagina_guarda` changed, or builds its image
in an address space with no user page hidden. -/
theorem exec_ok {file : Option File} {done : Bool}
    (finished : exec k m p path file argv = .ok (done, q, m')) :
    done = false ∧ q = { p with inicioPaginaGuarda := q.inicioPaginaGuarda } ∨
      done = true ∧ ∃ d sz, sz < kernbase ∧ (∀ va < kernbase, ∀ e, d.pte va = some e → e.u = true) ∧
        Nonempty (Replaced k d sz q) := by
  unfold exec at finished
  split at finished
  · cases finished
    exact .inl ⟨rfl, rfl⟩
  dsimp only at finished
  split at finished
  · cases finished
    exact .inl ⟨rfl, rfl⟩
  split at finished
  · cases finished
    exact .inl ⟨rfl, rfl⟩
  obtain ⟨⟨made, m₁⟩, setup, rest⟩ := bind_ok.mp finished
  cases made with
  | none =>
    cases rest
    exact .inl ⟨rfl, rfl⟩
  | some d =>
    obtain ⟨⟨size, d₁, m₂⟩, loaded, rest⟩ := bind_ok.mp rest
    cases size with
    | none =>
      obtain ⟨_, _, rest⟩ := bind_ok.mp rest
      cases rest
      exact .inl ⟨rfl, rfl⟩
    | some sz =>
      obtain ⟨rfl, rfl⟩ | ⟨rfl, replaced⟩ := finishExec_ok rest
      · exact .inl ⟨rfl, rfl⟩
      · obtain ⟨below, hides⟩ := loadSegments_ok (by decide) loaded
        refine .inr ⟨rfl, d₁, sz, below, fun va low e present => ?_, replaced⟩
        by_contra hidden
        have old := hides va e present (Bool.eq_false_iff.mpr hidden)
        rw [setupkvm_low setup low] at old
        cases old

theorem Replaced.sz_le {sz : Nat} (below : sz < kernbase) (r : Replaced k d sz q) :
    q.sz ≤ kernbase := by
  obtain ⟨user, size⟩ := allocuvm_sz r.alloc r.nonzero
  exact size ▸ max_le (pgroundup_le below).2 user.le

end Exec

/-- How the image of a process that is live after a step came about. -/
inductive Change (k : Kernel) (s : State) (q : Slot) (i : Image) : Action → Prop where
  | kept {a : Action} (live : (s.proc q).state = .live) (same : i = (s.proc q).image) :
      Change k s q i a
  | copied {p : Slot} {m m' : Mem} {d : Pgdir} (live : (s.proc p).state = .live)
      (slot : s.unusedSlot = some q)
      (copy : copyuvm k m (s.proc p).image.pgdir (s.proc p).image.sz = .ok (some d, m'))
      (image : i = { (s.proc p).image with
        pgdir := d, inicioPaginaGuarda := (s.proc q).image.inicioPaginaGuarda }) :
          Change k s q i (.fork p)
  | replaced {path : List UInt8} {file : Option File} {argv : List (List UInt8)}
      {done : Bool} {m' : Mem}
      (live : (s.proc q).state = .live)
      (result : exec k s.mem (s.proc q).image path file argv = .ok (done, i, m')) :
      Change k s q i (.exec q path file argv)
  | resized {n r : Int} {m' : Mem} (live : (s.proc q).state = .live)
      (int : -2 ^ 31 ≤ n ∧ n < 2 ^ 31)
      (result : sysSbrk k s.mem (s.proc q).image n = .ok (r, i, m')) : Change k s q i (.sbrk q n)
  | served {va : Nat} {kernel served : Bool} {d : Pgdir} {m' : Mem}
      (live : (s.proc q).state = .live)
      (result : reservarPagina k s.mem (s.proc q).image.pgdir va = .ok (served, d, m'))
      (image : i = { (s.proc q).image with pgdir := d }) : Change k s q i (.fault q va kernel)

section Steps
variable {k : Kernel} {s t : State} {q : Slot}

theorem step_ok {a : Action} :
    s.step k a = some t ↔ s.enabled a = true ∧ s.perform k a = .ok t := by
  unfold State.step
  split
  · next enabled => simp [enabled, toOption_eq_some]
  · next disabled => simp [disabled]

theorem setProc_proc {p : Slot} {x : Proc} :
    (s.setProc p x).proc q = if q = p then x else s.proc q := by
  simp [State.setProc, Function.update_apply]

theorem setImage_proc {p : Slot} {i : Image} {m : Mem} :
    (s.setImage p i m).proc q = if q = p then { s.proc p with image := i } else s.proc q :=
  setProc_proc

theorem kill_image {p : Slot} : ((s.kill p).proc q).state = (s.proc q).state ∧
    ((s.kill p).proc q).image = (s.proc q).image := by
  unfold State.kill
  rw [setProc_proc]
  split
  · next same => simp [same]
  · simp

theorem fork_change {p : Slot} (live : (s.proc p).state = .live) (forked : s.fork k p = .ok t)
    (after : (t.proc q).state = .live) : Change k s q (t.proc q).image (.fork p) := by
  unfold State.fork at forked
  split at forked
  · cases forked
    exact .kept after rfl
  next np slot =>
  split at forked
  · cases forked
    exact .kept after rfl
  obtain ⟨⟨copy, m⟩, copied, rest⟩ := bind_ok.mp forked
  cases copy with
  | none =>
    obtain ⟨_, _, rest⟩ := bind_ok.mp rest
    cases rest
    exact .kept after rfl
  | some d =>
    cases rest
    dsimp only at after ⊢
    rw [setProc_proc] at after ⊢
    split
    · next same =>
      subst same
      exact .copied live slot copied rfl
    · next other =>
      rw [if_neg other] at after
      exact .kept after rfl

theorem setImage_change {p : Slot} {i : Image} {m : Mem} {a : Action} (here : Change k s p i a)
    (after : ((s.setImage p i m).proc q).state = .live) :
    Change k s q ((s.setImage p i m).proc q).image a := by
  rw [setImage_proc] at after ⊢
  split
  · next same =>
    subst same
    exact here
  · next other =>
    rw [if_neg other] at after
    exact .kept after rfl

theorem pageFault_change {p : Slot} {va : Nat} {kernel : Bool} (live : (s.proc p).state = .live)
    (faulted : s.pageFault k p va = .ok t) (after : (t.proc q).state = .live) :
    Change k s q (t.proc q).image (.fault p va kernel) := by
  have killed (after : ((s.kill p).proc q).state = .live) :
      Change k s q ((s.kill p).proc q).image (.fault p va kernel) :=
    .kept (kill_image.1 ▸ after) kill_image.2
  unfold State.pageFault at faulted
  dsimp only at faulted
  split at faulted
  · cases faulted
    exact killed after
  split at faulted
  · cases faulted
    exact killed after
  split at faulted
  · cases faulted
    exact killed after
  obtain ⟨⟨served, d, m⟩, reserved, rest⟩ := bind_ok.mp faulted
  cases rest
  have here : Change k s p { (s.proc p).image with pgdir := d } (.fault p va kernel) :=
    .served live reserved rfl
  cases served with
  | true => exact setImage_change here after
  | false =>
    simp only [Bool.false_eq_true, if_false] at after ⊢
    rw [kill_image.1] at after
    rw [kill_image.2]
    exact setImage_change here after

theorem step_change {a : Action} (taken : s.step k a = some t) (after : (t.proc q).state = .live) :
    Change k s q (t.proc q).image a := by
  obtain ⟨enabled, performed⟩ := step_ok.mp taken
  cases a with
  | fork p => exact fork_change (by simpa [State.enabled] using enabled) performed after
  | exec p path file argv =>
    have live : (s.proc p).state = .live := by simpa [State.enabled] using enabled
    obtain ⟨_, result, rest⟩ := bind_ok.mp performed
    cases rest
    exact setImage_change (.replaced live result) after
  | sbrk p n =>
    simp only [State.enabled, decide_eq_true_eq] at enabled
    obtain ⟨_, result, rest⟩ := bind_ok.mp performed
    cases rest
    exact setImage_change (.resized enabled.1 enabled.2 result) after
  | fault p va kernel =>
    simp only [State.enabled, decide_eq_true_eq] at enabled
    exact pageFault_change enabled.1 performed after
  | exit p =>
    cases performed
    rw [setProc_proc] at after ⊢
    split at after
    · cases after
    · next other => exact .kept after (by rw [if_neg other])
  | wait p =>
    obtain ⟨_, _, rest⟩ := bind_ok.mp performed
    obtain ⟨_, _, rest⟩ := bind_ok.mp rest
    cases rest
    dsimp only at after ⊢
    rw [setProc_proc] at after ⊢
    split at after
    · cases after
    · next other => exact .kept after (by rw [if_neg other])

end Steps

section Sbrk
variable {k : Kernel} {m m' : Mem} {p q : Image} {n r : Int}

/-- `sys_sbrk` moves the size without a check, or frees pages down to the new size. -/
theorem sysSbrk_ok (result : sysSbrk k m p n = .ok (r, q, m')) :
    0 ≤ n ∧ q = { p with sz := ((p.sz + n) % 2 ^ 32).toNat } ∨
      n < 0 ∧ ∃ sz d, deallocuvm k m p.pgdir p.sz ((p.sz + n) % 2 ^ 32).toNat = .ok (sz, d, m') ∧
        q = { p with pgdir := d, sz := if sz = 0 then p.sz else sz } := by
  unfold sysSbrk at result
  split at result
  · next shrinks =>
    obtain ⟨⟨grown, q', m₁⟩, changed, rest⟩ := bind_ok.mp result
    cases rest
    unfold growproc at changed
    dsimp only at changed
    rw [if_neg (by omega), if_pos shrinks] at changed
    obtain ⟨⟨sz, d, m₂⟩, freed, rest⟩ := bind_ok.mp changed
    dsimp only at rest
    split at rest
    · next zero =>
      cases rest
      exact .inr ⟨shrinks, sz, d, freed, by rw [if_pos zero]⟩
    · next nonzero =>
      cases rest
      exact .inr ⟨shrinks, sz, d, freed, by rw [if_neg nonzero]⟩
  · next grows =>
    cases result
    exact .inl ⟨by omega, rfl⟩

theorem sysSbrk_sz (result : sysSbrk k m p n = .ok (r, q, m')) (nonempty : 0 < p.sz)
    (user : p.sz ≤ kernbase) (asks : p.sz + n ≤ kernbase) : 0 < q.sz ∧ q.sz ≤ kernbase := by
  obtain ⟨_, rfl⟩ | ⟨_, sz, d, freed, rfl⟩ := sysSbrk_ok result
  · simp only [kernbase] at *
    omega
  · have smaller := deallocuvm_sz freed
    dsimp only
    split <;> omega

/-- A request beyond the user half, or below zero, reports success. -/
theorem sysSbrk_accepts (nonempty : 0 < p.sz) (user : p.sz ≤ kernbase)
    (int : -2 ^ 31 ≤ n ∧ n < 2 ^ 31) (outside : p.sz + n < 0 ∨ kernbase < p.sz + n) :
    ∃ r q, sysSbrk k m p n = .ok (r, q, m) ∧ r ≠ -1 := by
  have address : int32 p.sz ≠ -1 := by
    simp only [int32, kernbase] at *
    split <;> omega
  obtain grows | shrinks := le_or_gt 0 n
  · exact ⟨_, _, by rw [sysSbrk, if_neg (not_lt.mpr grows)], address⟩
  · have wraps : p.sz ≤ ((p.sz + n) % 2 ^ 32).toNat := by
      simp only [kernbase] at *
      omega
    refine ⟨int32 p.sz, p, ?_, address⟩
    rw [sysSbrk, if_pos shrinks, growproc, if_neg (by omega), if_pos shrinks, deallocuvm,
      if_pos wraps]
    refine bind_ok.mpr ⟨(true, p, m), bind_ok.mpr ⟨_, rfl, ?_⟩, rfl⟩
    dsimp only
    rw [if_neg nonempty.ne']

end Sbrk

/-- The images of all processes lie below the kernel. -/
def Bounded (s : State) : Prop :=
  ∀ q, (s.proc q).state = .live → 0 < (s.proc q).image.sz ∧ (s.proc q).image.sz ≤ kernbase

/-- A call of `sbrk` does not ask for more than the user half. -/
def Asks (s : State) : Action → Prop
  | .sbrk p n => (s.proc p).image.sz + n ≤ kernbase
  | _ => True

theorem bounded_step {k : Kernel} (s : State) (a : Action) (t : State) (bounded : Bounded s)
    (asks : Asks s a) (taken : s.step k a = some t) : Bounded t := by
  intro q after
  cases step_change taken after with
  | kept live same => exact same ▸ bounded q live
  | copied live _ _ image => exact image ▸ bounded _ live
  | replaced live result =>
    obtain ⟨_, failed⟩ | ⟨_, d, sz, below, _, ⟨new⟩⟩ := exec_ok result
    · rw [failed]
      exact bounded q live
    · exact ⟨Nat.pos_of_ne_zero new.nonzero, new.sz_le below⟩
  | resized live _ result => exact sysSbrk_sz result (bounded q live).1 (bounded q live).2 asks
  | served live _ image => exact image ▸ bounded q live

theorem bounded_first {k : Kernel} {m : Mem} {code : List UInt8} {s : State}
    (booted : userinit k m code = .ok s) : Bounded s := by
  obtain ⟨m', d, stack, rfl, _⟩ := userinit_ok booted
  intro q live
  obtain rfl | other := eq_or_ne q 0
  · show 0 < pgsize ∧ pgsize ≤ kernbase
    decide
  · simp [firstState, other, emptyProc] at live

/-- A call of `sbrk` asks for a size in the user half. -/
def Fits (s : State) : Action → Prop
  | .sbrk p n => 0 ≤ (s.proc p).image.sz + n ∧ (s.proc p).image.sz + n ≤ kernbase
  | _ => True

section Arguments
variable {sz : Nat} {read : Nat → UInt8}

theorem fetchint_inside {addr : Nat} {v : Int} (user : sz ≤ kernbase)
    (fetched : fetchint sz read addr = some v) : addr + 4 ≤ kernbase := by
  unfold fetchint at fetched
  split at fetched
  · cases fetched
  · simp only [kernbase] at *
    omega

theorem fetchstr_inside {addr len : Nat} (user : sz ≤ kernbase)
    (fetched : fetchstr sz read addr = some len) : addr + len < kernbase := by
  unfold fetchstr at fetched
  split at fetched
  · cases fetched
  · have found := List.mem_range.mp (List.mem_of_find?_eq_some fetched)
    omega

theorem argptr_inside {esp n a : Nat} {size : Int} (user : sz ≤ kernbase) (int : size < 2 ^ 31)
    (accepted : argptr sz read esp n size = some a) : a + size ≤ kernbase := by
  obtain ⟨i, _, rest⟩ := Option.bind_eq_some_iff.mp accepted
  dsimp only at rest
  split at rest
  · cases rest
  · cases rest
    simp only [kernbase] at *
    omega

end Arguments

/-- As long as every `sbrk` asks for a size in the user half, no process leaves it, and
no accepted argument reaches the kernel or wraps around. In every state so reached a
request outside the user half is one that `sbrk` does not refuse. -/
theorem sbrk_keeps_user_half {k : Kernel} {m : Mem} {code : List UInt8} {first s : State}
    {schedule : List Action} {p : Slot} (booted : userinit k m code = .ok first)
    (admitted : Along (State.step k) Fits first schedule)
    (reached : run (State.step k) first schedule = some s) (live : (s.proc p).state = .live) :
    (s.proc p).image.sz ≤ kernbase ∧
      (∀ n : Int, -2 ^ 31 ≤ n → n < 2 ^ 31 →
        ((∀ r q m', sysSbrk k s.mem (s.proc p).image n = .ok (r, q, m') →
          (s.proc p).image.sz + n < 0 ∨ kernbase < (s.proc p).image.sz + n →
            r = -1 ∧ q.sz = (s.proc p).image.sz) ↔ Fits s (.sbrk p n))) ∧
      (∀ read addr v, fetchint (s.proc p).image.sz read addr = some v → addr + 4 ≤ kernbase) ∧
      (∀ read addr len, fetchstr (s.proc p).image.sz read addr = some len → addr + len < kernbase) ∧
      ∀ read esp n (size : Int) a, size < 2 ^ 31 →
      argptr (s.proc p).image.sz read esp n size = some a →
        a + size ≤ kernbase := by
  have asks : ∀ s a, Fits s a → Asks s a := by
    intro s a fits
    cases a with
    | sbrk p n => exact fits.2
    | _ => trivial
  obtain ⟨nonempty, user⟩ :=
    invariant_along bounded_step (admitted.mono asks) reached (bounded_first booted) p live
  refine ⟨user, fun n low high => ⟨fun refuses => ?_, fun fits r q m' _ outside => ?_⟩,
    fun _ _ _ => fetchint_inside user, fun _ _ _ => fetchstr_inside user,
    fun _ _ _ _ _ => argptr_inside user⟩
  · by_contra outside
    have outside : (s.proc p).image.sz + n < 0 ∨ kernbase < (s.proc p).image.sz + n := by
      simp only [Fits] at outside
      omega
    obtain ⟨r, q, result, accepted⟩ := sysSbrk_accepts nonempty user ⟨low, high⟩ outside
    exact accepted (refuses r q _ result outside).1
  · simp only [Fits] at fits
    omega

/-- Growing is a step that only moves the size. -/
theorem sbrk_grows {k : Kernel} {s : State} {p : Slot} {n : Int} {sz : Nat}
    (live : (s.proc p).state = .live) (grows : 0 ≤ n) (int : n < 2 ^ 31)
    (size : (((s.proc p).image.sz + n) % 2 ^ 32).toNat = sz) :
    s.step k (.sbrk p n) = some (s.setImage p { (s.proc p).image with sz := sz } s.mem) := by
  refine step_ok.mpr ⟨?_, bind_ok.mpr ⟨_, by rw [sysSbrk, if_neg (not_lt.mpr grows), size], rfl⟩⟩
  simp only [State.enabled, decide_eq_true_eq]
  exact ⟨live, by omega, int⟩

theorem firstState_sbrk (k : Kernel) (m : Mem) (d : Pgdir) (stack : Nat) (n : Int) (sz : Nat)
    (grows : 0 ≤ n) (int : n < 2 ^ 31) (size : (((pgsize : Nat) + n) % 2 ^ 32).toNat = sz) :
    ∃ s, run (State.step k) (firstState m d stack) [.sbrk 0 n] = some s ∧ s.mem = m ∧
      s.proc 0 = ⟨.live, stack, false, ⟨d, sz, 0, [], 0, pgsize, none⟩⟩ :=
  ⟨_, run_cons.mpr ⟨_, sbrk_grows rfl grows int size, rfl⟩, rfl, rfl⟩

theorem sbrk_keeps_hundred_bytes : ∃ first s, userinit smallKernel smallMem [] = .ok first ∧
    run (State.step smallKernel) first [.sbrk 0 100] = some s ∧ (s.proc 0).image.sz = 4196 ∧
      (s.proc 0).image.sz ≤ kernbase := by
  obtain ⟨m, d, _, stack, booted, _⟩ := userinit_boots [] (smallMem_room 3 (by decide)) (by decide)
  obtain ⟨s, reached, _, proc⟩ :=
    firstState_sbrk smallKernel m d stack 100 4196 (by decide) (by decide) (by decide)
  have fits : Fits (firstState m d stack) (.sbrk 0 100) := by
    show 0 ≤ (pgsize : Int) + 100 ∧ (pgsize : Int) + 100 ≤ kernbase
    decide
  have admitted : Along (State.step smallKernel) Fits (firstState m d stack) [.sbrk 0 100] :=
    ⟨fits, fun _ _ => trivial⟩
  exact ⟨_, s, booted, reached,
    by rw [proc], (sbrk_keeps_user_half booted admitted reached (by rw [proc])).1⟩

/-- The first call of the first process can take its size past the kernel's base. -/
theorem sbrk_passes_kernbase : ∃ first s, userinit smallKernel smallMem [] = .ok first ∧
    run (State.step smallKernel) first [.sbrk 0 (2 ^ 31 - 1)] = some s ∧
      kernbase < (s.proc 0).image.sz := by
  obtain ⟨m, d, _, stack, booted, _⟩ := userinit_boots [] (smallMem_room 3 (by decide)) (by decide)
  obtain ⟨s, reached, _, proc⟩ :=
    firstState_sbrk smallKernel m d stack (2 ^ 31 - 1) 2147487743 (by decide)
    (by decide) (by decide)
  have beyond : kernbase < 2147487743 := by decide
  exact ⟨_, s, booted, reached, by rwa [proc]⟩

end Aso.Xv6.Vm
