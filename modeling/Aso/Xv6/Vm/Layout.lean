import Aso.Xv6.Vm.Pushed

/-! The image that `exec` builds, whatever the file holds: code and data below the guard page,
as many pages of stack above it, and on the stack the arguments. -/
namespace Aso.Xv6.Vm
open Checked

/-- The pages that are free or owned are different pages, and `kfree` takes them back. -/
structure Keeps (k : Kernel) (m : Mem) (d : Pgdir) : Prop where
  valid : Returnable k m d
  apart : Apart m d

section Bounds
variable {k : Kernel} {m : Mem} {d : Pgdir}

theorem Keeps.sound (keeps : Keeps k m d) : m.Sound k where
  valid f free := by
    refine keeps.valid f ?_
    rw [balance, Multiset.count_add, Multiset.coe_count]
    have := List.count_pos_iff.mpr free
    omega
  distinct := by
    rw [List.nodup_iff_count_le_one]
    intro f
    have once := keeps.apart f
    rw [balance, Multiset.count_add, Multiset.coe_count] at once
    omega

/-- There are no more free pages than pages below `PHYSTOP`. -/
theorem Mem.Sound.length_le (sound : m.Sound k) : m.freelist.length ≤ phystop / pgsize := by
  have inside : m.freelist ⊆ List.range (phystop / pgsize) :=
    fun f free => List.mem_range.mpr (sound.valid f free).2
  have fewer := (List.subperm_of_subset sound.distinct inside).length_le
  rwa [List.length_range] at fewer

theorem covers_devices {a : Nat} (high : devspace ≤ a) (word : a < 2 ^ 32) :
    k.covers (pdx a) = true := by
  refine List.any_eq_true.mpr ⟨(devspace, devspace, 0, true), by simp [kmap], decide_eq_true ?_⟩
  simp only [devspace, pdx] at *
  omega

end Bounds

/-- The address space before the arguments are pushed, built from the free pages of `m`: code
and data below the guard page at `g`, and above it as many pages for the stack. -/
structure Prepared (m : Mem) (d : Pgdir) (g sz : Nat) (m' : Mem) : Prop where
  aligned : g % pgsize = 0
  below : g ≤ phystop
  size : sz = g + pgsize + g / pgsize * pgsize
  space : Space d sz
  guard : ∃ e, d.pte g = some e ∧ e.u = false
  accessible : Open d g sz
  devices : ∀ a, devspace ≤ a → a < 2 ^ 32 → (d.table (pdx a)).isSome
  taken : balance m' d = m.freelist
  pages : ∀ f ∉ m.freelist, m'.page f = m.page f

section Preparing
variable {k : Kernel} {m m₁ m₂ : Mem} {d d₁ d₂ : Pgdir} {e sz : Nat}

/-- The sizes are far too small to wrap around. -/
theorem Loaded.small (loaded : Loaded k m d₁ e m₁) (sound : m.Sound k) : pgroundup e ≤ phystop := by
  have pages := loaded.need.trans sound.length_le
  have below := loaded.below
  unfold Kernel.need pagesTo at pages
  simp only [pgroundup, pgrounddown, pgsize, phystop, kernbase] at *
  omega

/-- The guard page is there to be hidden. -/
theorem Loaded.clears (loaded : Loaded k m d₁ e m₁) (sound : m.Sound k)
    (alloc : allocuvm k m₁ d₁ (pgroundup e)
      ((pgroundup e + (pgroundup e / pgsize + 1) * pgsize) % 2 ^ 32) = .ok (sz, d₂, m₂))
    (nonzero : sz ≠ 0) :
    ∃ d, clearpteu d₂ ((sz + 2 ^ 32 - (pgroundup e / pgsize + 1) * pgsize) % 2 ^ 32) = .ok d := by
  have space := allocuvm_space loaded.rounded nonzero alloc
  have small := loaded.small sound
  have aligned := pgroundup_mod e
  obtain ⟨-, grown⟩ := allocuvm_sz alloc nonzero
  generalize pgroundup e = g at *
  have guard : (sz + 2 ^ 32 - (g / pgsize + 1) * pgsize) % 2 ^ 32 = g ∧ g < kernbase ∧
      pgrounddown g < sz := by
    simp only [pgrounddown, pgsize, phystop, kernbase] at *
    omega
  obtain ⟨x, present⟩ := Option.isSome_iff_exists.mp ((space.filled g guard.2.1).mpr guard.2.2)
  obtain ⟨t, found⟩ := Option.isSome_iff_exists.mp (Pgdir.table_of_pte present)
  rw [guard.1, clearpteu, found]
  exact ⟨_, rfl⟩

theorem Loaded.prepared (loaded : Loaded k m d₁ e m₁) (sound : m.Sound k)
    (visible : ∀ va < kernbase, ∀ x, d₁.pte va = some x → x.u = true)
    (tables : ∀ i < npdentries, k.covers i = true → (d₁.table i).isSome)
    (alloc : allocuvm k m₁ d₁ (pgroundup e)
      ((pgroundup e + (pgroundup e / pgsize + 1) * pgsize) % 2 ^ 32) = .ok (sz, d₂, m₂))
    (nonzero : sz ≠ 0)
    (clear : clearpteu d₂ ((sz + 2 ^ 32 - (pgroundup e / pgsize + 1) * pgsize) % 2 ^ 32) = .ok d) :
    Prepared m d (pgroundup e) sz m₂ := by
  have aligned := pgroundup_mod e
  have small := loaded.small sound
  obtain ⟨-, grown⟩ := allocuvm_sz alloc nonzero
  have space₂ := allocuvm_space loaded.rounded nonzero alloc
  have visible₂ (va : Nat) (user : va < kernbase) (x : Pte) (present : d₂.pte va = some x) :
      x.u = true := by
    by_contra hidden
    have old := allocuvm_hides alloc va x present (Bool.eq_false_iff.mpr hidden)
    exact hidden (visible va user x old)
  have tables₂ (a : Nat) (high : devspace ≤ a) (word : a < 2 ^ 32) : (d₂.table (pdx a)).isSome :=
    allocuvm_table nonzero alloc (tables _ (pdx_lt a) (covers_devices high word))
  have taken₂ := (allocuvm_balance alloc).trans loaded.taken
  have untouched := allocuvm_untouched alloc
  generalize pgroundup e = g at *
  have size : sz = g + pgsize + g / pgsize * pgsize := by
    simp only [pgsize, phystop] at *
    omega
  have guard : (sz + 2 ^ 32 - (g / pgsize + 1) * pgsize) % 2 ^ 32 = g := by
    simp only [pgsize, phystop] at *
    omega
  rw [guard] at clear
  have entry := clearpteu_pte clear
  have low : g < kernbase := by
    simp only [phystop, kernbase] at *
    omega
  have user : sz ≤ kernbase := by
    simp only [phystop, kernbase, pgsize] at *
    omega
  have whole : sz % pgsize = 0 := by
    simp only [pgsize] at *
    omega
  have there (a : Nat) (inside : a < sz) : ∃ x, d₂.pte a = some x := by
    refine Option.isSome_iff_exists.mp ((space₂.filled a (by omega)).mpr ?_)
    simp only [pgrounddown, pgsize] at *
    omega
  have same {a : Nat} (word : a < 2 ^ 32) : SamePage g a ↔ g ≤ a ∧ a < g + pgsize := by
    rw [samePage_iff (low.trans (by decide)) word]
    simp only [pgrounddown, pgsize] at *
    omega
  refine ⟨aligned, small, size, clearpteu_space space₂ clear, ?_, fun a word => ?_,
    fun a high word => ?_, ?_, fun f used => ?_⟩
  · obtain ⟨x, present⟩ := there g (by simp only [pgsize] at *; omega)
    exact ⟨{ x with u := false }, by rw [entry, if_pos ⟨rfl, rfl⟩, present]; rfl, rfl⟩
  · rw [Option.isSome_iff_exists, ← same word]
    constructor
    · rintro ⟨q, found⟩
      obtain ⟨x, present, visible, -⟩ := place_eq_some.mp found
      rw [entry] at present
      split at present
      · obtain ⟨y, -, rfl⟩ := Option.map_eq_some_iff.mp present
        cases visible
      · next other =>
        have half := space₂.hidden a x present visible
        have under : a < kernbase := by
          simp only [pdx, kernbase] at *
          omega
        have filled := (space₂.filled a under).mp (by rw [present]; rfl)
        refine ⟨?_, other⟩
        simp only [pgrounddown, pgsize] at *
        omega
    · rintro ⟨inside, other⟩
      obtain ⟨x, present⟩ := there a inside
      refine ⟨_, place_eq_some.mpr ⟨x, ?_, visible₂ a (by omega) x present, rfl⟩⟩
      rw [entry, if_neg other, present]
  · have kept := tables₂ a high word
    unfold clearpteu at clear
    split at clear
    · cases clear
    · cases clear
      by_cases here : pdx a = pdx g
      · simpa [Pgdir.setPte, here] using here ▸ kept
      · simpa [Pgdir.setPte, Function.update_of_ne here] using kept
  · rw [← taken₂, balance, balance, clearpteu_owned clear]
  · rw [untouched f, loaded.pages f used]
    rw [loaded.taken, count_freelist_eq_zero used]

/-- The old address space can still be freed. -/
theorem Keeps.old {old : Pgdir} {g : Nat} {after : Mem} (keeps : Keeps k m old)
    (prepared : Prepared m d g sz m₂) (same : after.freelist = m₂.freelist) :
    Returnable k after old := by
  intro f inside
  refine keeps.valid f ?_
  have total := congrArg (Multiset.count f) prepared.taken
  rw [balance, Multiset.count_add] at inside total ⊢
  rw [same] at inside
  omega

theorem Prepared.user {g : Nat} (prepared : Prepared m d g sz m₂) :
    sz ≤ kernbase ∧ sz % pgsize = 0 ∧ g + pgsize ≤ sz := by
  have size := prepared.size
  have below := prepared.below
  have aligned := prepared.aligned
  simp only [phystop, kernbase, pgsize] at *
  omega

theorem Prepared.injective {g : Nat} (prepared : Prepared m d g sz m₂) (sound : m.Sound k) :
    Injective d := by
  intro a word b word' q found found'
  have inside := ((prepared.accessible a word).mp (by rw [found]; rfl)).1
  have inside' := ((prepared.accessible b word').mp (by rw [found']; rfl)).1
  have user := prepared.user.1
  obtain ⟨x, present, -, rfl⟩ := place_eq_some.mp found
  obtain ⟨y, present', -, same⟩ := place_eq_some.mp found'
  obtain ⟨frames, offsets⟩ := Prod.mk.injEq .. ▸ same
  have apart : Apart m₂ d := sound.count_le prepared.taken
  have page := apart.samePage (by omega) (by omega) present present' frames.symm
  rw [samePage_iff word word'] at page
  simp only [pgrounddown, pgsize] at *
  omega

end Preparing

/-- What a successful `exec` went through. -/
structure Staged (k : Kernel) (m : Mem) (p : Image) (file : File) (argv : List (List UInt8))
    (q : Image) (m' : Mem) where
  {d₀ d₁ : Pgdir}
  {m₀ m₁ before after : Mem}
  {e : Nat}
  setup : setupkvm k m = .ok (some d₀, m₀)
  load : loadSegments k file (Elfhdr.decode (file 0 elfhdrSize)).phnum m₀ d₀ 0
    (Elfhdr.decode (file 0 elfhdrSize)).phoff =
    .ok (some e, d₁, m₁)
  full : Pgdir
  alloc : allocuvm k m₁ d₁ (pgroundup e)
    ((pgroundup e + (pgroundup e / pgsize + 1) * pgsize) % 2 ^ 32) = .ok (q.sz, full, before)
  nonzero : q.sz ≠ 0
  clear : clearpteu full ((q.sz + 2 ^ 32 - (pgroundup e / pgsize + 1) * pgsize) % 2 ^ 32) =
    .ok q.pgdir
  build : buildStack before q.pgdir q.sz argv = .ok (some q.esp, after)
  free : freevm k after p.pgdir = .ok m'
  start : q.inicioPaginaGuarda = pgroundup e

section Stages
variable {k : Kernel} {m m' : Mem} {p q : Image} {path : List UInt8} {file : File}
  {argv : List (List UInt8)}

theorem exec_staged {opened : Option File}
    (finished : exec k m p path opened argv = .ok (true, q, m')) :
    ∃ file, opened = some file ∧ Nonempty (Staged k m p file argv q m') := by
  unfold exec at finished
  split at finished
  · cases finished
  next file =>
  dsimp only at finished
  split at finished
  · cases finished
  split at finished
  · cases finished
  obtain ⟨⟨space, m₀⟩, setup, rest⟩ := bind_ok.mp finished
  cases space with
  | none => cases rest
  | some d₀ =>
    obtain ⟨⟨size, d₁, m₁⟩, load, rest⟩ := bind_ok.mp rest
    cases size with
    | none =>
      obtain ⟨_, _, rest⟩ := bind_ok.mp rest
      cases rest
    | some e =>
      obtain ⟨⟨sz, full, before⟩, alloc, rest⟩ := bind_ok.mp rest
      cases sz with
      | zero =>
        obtain ⟨_, _, rest⟩ := bind_ok.mp rest
        cases rest
      | succ sz =>
        obtain ⟨d₂, clear, rest⟩ := bind_ok.mp rest
        obtain ⟨⟨pointer, after⟩, build, rest⟩ := bind_ok.mp rest
        cases pointer with
        | none =>
          obtain ⟨_, _, rest⟩ := bind_ok.mp rest
          cases rest
        | some sp =>
          obtain ⟨m₃, free, rest⟩ := bind_ok.mp rest
          cases rest
          exact ⟨file, rfl, ⟨⟨setup, load, full, alloc, sz.succ_ne_zero, clear, build, free, rfl⟩⟩⟩

/-- The segments end up on pages that users may access. -/
theorem loadSegments_visible {d d₁ : Pgdir} {m₁ m₂ : Mem} {n off e : Nat}
    (setup : setupkvm k m = .ok (some d, m₁))
    (load : loadSegments k file n m₁ d 0 off = .ok (some e, d₁, m₂)) :
    ∀ va < kernbase, ∀ x, d₁.pte va = some x → x.u = true := by
  intro va user x present
  by_contra hidden
  have old := (loadSegments_ok (by decide) load).2 va x present (Bool.eq_false_iff.mpr hidden)
  rw [setupkvm_low setup user] at old
  cases old

theorem Staged.prepared (staged : Staged k m p file argv q m') (sound : m.Sound k) :
    Prepared m q.pgdir q.inicioPaginaGuarda q.sz staged.before := by
  have loaded := (Loaded.of_segments staged.setup staged.load).1
  rw [staged.start]
  exact loaded.prepared sound (loadSegments_visible staged.setup staged.load)
    (fun i bound covered => loadSegments_table staged.load
    (setupkvm_covers staged.setup bound covered)) staged.alloc
    staged.nonzero staged.clear

/-- The pages of the new image are neither free nor pages of the old one, so that freeing the
old one leaves them alone. -/
theorem Staged.kept (staged : Staged k m p file argv q m') (keeps : Keeps k m p.pgdir) {f : Nat}
    (mine : 0 < q.pgdir.owned.count f) : m'.page f = staged.after.page f := by
  have taken := (staged.prepared keeps.sound).taken
  have total := congrArg (Multiset.count f) taken
  have once := keeps.apart f
  rw [balance, Multiset.count_add] at once total
  refine freevm_untouched staged.free f ?_
  rw [balance, Multiset.count_add, buildStack_freelist staged.build]
  omega

/-- Pushing the arguments leaves everything below the stack alone. -/
theorem Staged.unpushed (staged : Staged k m p file argv q m') (sound : m.Sound k)
    (short : ∀ arg ∈ argv, arg.length + 1 < 2 ^ 32) {va : Nat} {e : Pte}
    (low : va < q.inicioPaginaGuarda + pgsize) (present : q.pgdir.pte va = some e) :
    staged.after.byte (e.frame, va % pgsize) = staged.before.byte (e.frame, va % pgsize) := by
  have prepared := staged.prepared sound
  obtain ⟨user, whole, above⟩ := prepared.user
  have aligned : q.sz % 4 = 0 := by
    simp only [pgsize] at whole
    omega
  have within := (buildStack_stacked (prepared.injective sound) prepared.accessible user aligned
    above short staged.build).2
  refine within _ fun x from_ below there => ?_
  obtain ⟨y, present', -, same⟩ := place_eq_some.mp there
  obtain ⟨frames, offsets⟩ := Prod.mk.injEq .. ▸ same
  have apart : Apart staged.before q.pgdir := sound.count_le prepared.taken
  have page := apart.samePage (by omega) (by omega) present present' frames.symm
  simp only [kernbase] at user
  rw [samePage_iff (by omega) (by omega)] at page
  simp only [pgrounddown, pgsize] at *
  omega

/-- With memory for it and stack for its arguments, a file that can be loaded is run. -/
theorem exec_runs {e : Nat} (keeps : Keeps k m p.pgdir) (ends : imageEnd (some file) = some e)
    (few : argv.length ≤ maxArg)
    (room : stringRoom argv + 4 * (argv.length + 4) ≤ pgroundup e / pgsize * pgsize)
    (need : k.need (pgroundup e + pgsize + pgroundup e / pgsize * pgsize) ≤ m.freelist.length)
    (path : List UInt8) : ∃ q m', exec k m p path (some file) argv = .ok (true, q, m') := by
  have sound := keeps.sound
  rw [imageEnd, Option.bind_some] at ends
  dsimp only at ends
  split at ends
  case isFalse => cases ends
  next header =>
  obtain ⟨size, total⟩ : ∃ size, pgroundup e + pgsize + pgroundup e / pgsize * pgsize = size :=
    ⟨_, rfl⟩
  rw [total] at need
  have below : e < kernbase := (segmentsEnd_ge (by decide) ends).2
  have aligned := pgroundup_mod e
  have rounded := pgroundup_le below
  have pages : pagesTo (pgroundup e) = pagesTo e ∧ pagesTo e ≤ pagesTo size ∧ e ≤ size := by
    simp only [pagesTo, pgroundup, pgrounddown, pgsize, kernbase] at *
    omega
  have spare : Spare (k.tablesFor size) k m ⟨0, fun _ => none⟩ (pagesTo size + 1) := by
    refine ⟨?_, sound.valid⟩
    rw [Kernel.need] at need
    omega
  obtain ⟨d₀, m₀, setup, left⟩ :=
    spare.setupkvm_ranges fun r member va low high => tablesFor_kernel member low high
  have loads : ∃ d₁ m₁, loadSegments k file (Elfhdr.decode (file 0 elfhdrSize)).phnum m₀ d₀ 0
      (Elfhdr.decode (file 0 elfhdrSize)).phoff = .ok (some e, d₁, m₁) ∧
        Spare (k.tablesFor size) k m₁ d₁ (pagesTo size - pagesTo e) := by
    have zero : pagesTo 0 = 0 := by decide
    refine Spare.loadSegments ?_ (setupkvm_space setup) (by decide)
      (fun va _ inside => tablesFor_user (by omega)) ends
    rwa [zero, Nat.sub_zero, Nat.sub_add_cancel pages.2.1]
  obtain ⟨d₁, m₁, load, left⟩ := loads
  have loaded := (Loaded.of_segments setup load).1
  have small := loaded.small sound
  have sums : (pgroundup e + (pgroundup e / pgsize + 1) * pgsize) % 2 ^ 32 = size ∧
      pgroundup e ≤ size ∧ size < kernbase ∧
      pgroundup e < kernbase ∧ size ≠ 0 := by
    simp only [pgsize, phystop, kernbase] at *
    omega
  have grows : ∃ d₂ m₂, allocuvm k m₁ d₁ (pgroundup e)
      ((pgroundup e + (pgroundup e / pgsize + 1) * pgsize) % 2 ^ 32) =
      .ok (size, d₂, m₂) ∧ Spare (k.tablesFor size) k m₂ d₂ 0 := by
    have most := max_eq_right sums.2.1
    have spare : Spare (k.tablesFor size) k m₁ d₁
        (0 + (pagesTo (max (pgroundup e) size) - pagesTo (pgroundup e))) := by
      rwa [most, pages.1, Nat.zero_add]
    have grown := spare.allocuvm loaded.rounded sums.2.2.2.1 sums.2.2.1
      fun va _ inside => tablesFor_user inside
    rw [most] at grown
    rwa [sums.1]
  obtain ⟨d₂, m₂, alloc, -⟩ := grows
  obtain ⟨d, clear⟩ := loaded.clears sound alloc sums.2.2.2.2
  have prepared := loaded.prepared sound (loadSegments_visible setup load)
    (fun i bound covered => loadSegments_table load (setupkvm_covers setup bound covered)) alloc
    sums.2.2.2.2 clear
  obtain ⟨esp, after, build⟩ :=
    buildStack_runs (m := m₂) prepared.accessible prepared.user.1 few (by omega)
  obtain ⟨m', free⟩ := (keeps.old prepared (buildStack_freelist build)).freevm
  rw [exec, if_neg (not_not.mpr header.1), if_neg (not_not.mpr header.2)]
  obtain ⟨n, rfl⟩ := Nat.exists_eq_succ_of_ne_zero sums.2.2.2.2
  exact ⟨_, m', bind_ok.mpr
    ⟨_, setup, bind_ok.mpr ⟨_, load, bind_ok.mpr
    ⟨_, alloc, bind_ok.mpr ⟨_, clear, bind_ok.mpr ⟨_, build, bind_ok.mpr ⟨_, free, rfl⟩⟩⟩⟩⟩⟩⟩

end Stages

/-- The image that `exec` is to build. -/
structure Layout (m : Mem) (q : Image) (argv : List (List UInt8)) : Prop where
  aligned : q.inicioPaginaGuarda % pgsize = 0
  image : ∀ va < q.inicioPaginaGuarda, ∃ e, q.pgdir.pte va = some e ∧ e.u = true
  guard : ∃ e, q.pgdir.pte q.inicioPaginaGuarda = some e ∧ e.u = false
  size : q.sz = q.inicioPaginaGuarda + pgsize + q.inicioPaginaGuarda / pgsize * pgsize
  stack : ∀ va, q.inicioPaginaGuarda + pgsize ≤ va → va < q.sz →
    ∃ e, q.pgdir.pte va = some e ∧ e.u = true
  top : ∀ va, q.sz ≤ va → va < kernbase → q.pgdir.pte va = none
  arguments : Stacked m q.pgdir q.inicioPaginaGuarda q.sz argv q.esp

section Law
variable {k : Kernel} {m m' : Mem} {p q : Image} {path : List UInt8} {opened : Option File}
  {argv : List (List UInt8)}

theorem Holds.of_page {d : Pgdir} {a : Nat} {bytes : List UInt8} (holds : Holds m d a bytes)
    (same : ∀ x e, d.pte x = some e → e.u = true → m'.page e.frame = m.page e.frame) :
    Holds m' d a bytes := by
  intro i inside
  obtain ⟨place, found, byte⟩ := holds i inside
  obtain ⟨e, present, visible, rfl⟩ := place_eq_some.mp found
  refine ⟨_, found, ?_⟩
  rw [← byte, Mem.byte, Mem.byte, same _ e present visible]

theorem Stacked.of_page {d : Pgdir} {g sz esp : Nat} (stacked : Stacked m d g sz argv esp)
    (same : ∀ x e, d.pte x = some e → e.u = true → m'.page e.frame = m.page e.frame) :
    Stacked m' d g sz argv esp := by
  obtain ⟨low, header, addrs, length, array, strings, descending⟩ := stacked
  refine ⟨low, header.of_page same, addrs, length, array.of_page same,
    fun s member => ?_, descending⟩
  obtain ⟨held, bounds⟩ := strings s member
  exact ⟨held.of_page same, bounds⟩

/-- A successful `exec` leaves an image of this layout, and while the arguments were pushed no
byte below the stack was written. -/
theorem exec_layout (keeps : Keeps k m p.pgdir) (short : ∀ arg ∈ argv, arg.length + 1 < 2 ^ 32)
    (finished : exec k m p path opened argv = .ok (true, q, m')) :
    Layout m' q argv ∧ ∃ file, opened = some file ∧ ∃ staged : Staged k m p file argv q m',
      ∀ va < q.inicioPaginaGuarda + pgsize, ∀ e, q.pgdir.pte va = some e →
        staged.after.byte (e.frame, va % pgsize) = staged.before.byte (e.frame, va % pgsize) := by
  obtain ⟨file, rfl, ⟨staged⟩⟩ := exec_staged finished
  have sound := keeps.sound
  have prepared := staged.prepared sound
  obtain ⟨user, whole, above⟩ := prepared.user
  have aligned : q.sz % 4 = 0 := by
    simp only [pgsize] at whole
    omega
  have word : q.sz ≤ 2 ^ 32 := user.trans (by decide)
  have accessible (va : Nat) (inside : va < q.sz)
      (other : ¬ (q.inicioPaginaGuarda ≤ va ∧ va < q.inicioPaginaGuarda + pgsize)) :
      ∃ e, q.pgdir.pte va = some e ∧ e.u = true := by
    obtain ⟨place, found⟩ :=
      Option.isSome_iff_exists.mp ((prepared.accessible va (by omega)).mpr ⟨inside, other⟩)
    obtain ⟨e, present, visible, -⟩ := place_eq_some.mp found
    exact ⟨e, present, visible⟩
  have kept (x : Nat) (e : Pte) (present : q.pgdir.pte x = some e) (visible : e.u = true) :
      m'.page e.frame = staged.after.page e.frame :=
    staged.kept keeps (count_owned present (prepared.space.hidden x e present visible))
  have stacked := (buildStack_stacked (prepared.injective sound) prepared.accessible user aligned
    above short staged.build).1
  refine ⟨⟨prepared.aligned, fun va low => ?_, prepared.guard, prepared.size, fun va low high => ?_,
    fun va high low => ?_, stacked.of_page kept⟩, file, rfl, staged, fun va low e present =>
    staged.unpushed sound short low present⟩
  · exact accessible va (by omega) (by omega)
  · exact accessible va high (by omega)
  · rw [← Option.not_isSome_iff_eq_none, prepared.space.filled va low]
    simp only [pgrounddown, pgsize] at *
    omega

/-- An ELF file with one segment, of one page at address 0,
that begins with two bytes of the file. -/
def jumpFile : List UInt8 :=
  toLe 4 elfMagic ++ List.replicate 24 0 ++ toLe 4 52 ++ List.replicate 12 0 ++ toLe 2 1 ++
    List.replicate 6 0 ++
    [1, 84, 0, 0, 2, 4096, 0, 0].flatMap (toLe 4) ++ [0xeb, 0xfe]

/-- A process without pages. -/
def pageless : Image := { emptyProc.image with pgdir := ⟨2300, fun _ => none⟩ }

theorem pageless_keeps : Keeps smallKernel smallMem pageless.pgdir := by
  have all : balance smallMem pageless.pgdir = smallMem.freelist + {2300} := by
    rw [balance, pageless, owned_empty]
  have other : 2300 ∉ smallMem.freelist := by
    rw [smallMem, List.mem_range'_1]
    omega
  constructor
  · intro f inside
    rw [all, Multiset.count_add, Multiset.coe_count, Multiset.count_singleton] at inside
    split at inside
    · next same =>
      subst same
      decide
    · exact smallMem_sound.valid f (List.count_pos_iff.mp inside)
  · intro f
    have once := List.nodup_iff_count_le_one.mp smallMem_sound.distinct f
    rw [all, Multiset.count_add, Multiset.coe_count, Multiset.count_singleton]
    split
    · next same =>
      subst same
      rw [List.count_eq_zero.mpr other]
    · exact once

theorem jumpFile_need : smallKernel.need 12288 ≤ smallMem.freelist.length := by
  have tables : (Pgdir.mk 0 fun _ => none).lacks (smallKernel.tablesFor 12288) ≤ npdentries :=
    (Finset.card_filter_le _ _).trans_eq (Finset.card_fin npdentries)
  have pages : pagesTo 12288 = 3 := by decide
  rw [Kernel.need, pages, smallMem, List.length_range']
  simp only [npdentries] at tables
  omega

/-- It is run with the argument `a`. -/
theorem jumpFile_runs : ∃ q m', exec smallKernel smallMem pageless [] (some (contents jumpFile))
    [[97]] = .ok (true, q, m') := by
  have ends : imageEnd (some (contents jumpFile)) = some 4096 := by decide
  exact exec_runs pageless_keeps ends (by decide) (by decide) jumpFile_need []

theorem jumpFile_layout : ∃ q m',
    exec smallKernel smallMem pageless [] (some (contents jumpFile)) [[97]] = .ok (true, q, m') ∧
    Layout m' q [[97]] := by
  obtain ⟨q, m', finished⟩ := jumpFile_runs
  exact ⟨q, m', finished, (exec_layout pageless_keeps (by decide) finished).1⟩

end Law

section Returning
variable {k : Kernel} {m m' m₁ : Mem} {d : Pgdir} {p : Image} {path : List UInt8} {file : File}
  {argv : List (List UInt8)} {n sz off e : Nat}

/-- Loading the segments never panics: the pages of a segment are there when it is read. -/
theorem Returnable.loadSegments (returnable : Returnable k m d) (space : Space d sz)
    (below : sz < kernbase) : ∃ r, loadSegments k file n m d sz off = .ok r := by
  induction n generalizing m d sz off with
  | zero => exact ⟨_, rfl⟩
  | succ n ih =>
    unfold Vm.loadSegments
    dsimp only
    split
    · exact ⟨_, rfl⟩
    split
    · exact ih returnable space below
    split
    · exact ⟨_, rfl⟩
    next smaller =>
    split
    · exact ⟨_, rfl⟩
    next straight =>
    have grows : ∃ r, Vm.allocuvm k m d sz (((Proghdr.decode (file off proghdrSize)).vaddr +
        (Proghdr.decode (file off proghdrSize)).memsz) % 2 ^ 32) = .ok r :=
        returnable.allocuvm space
    obtain ⟨⟨size, d₁, m₁⟩, alloc⟩ := grows
    have kept := allocuvm_balance alloc
    rw [alloc, ok_bind]
    dsimp only
    split
    · exact ⟨_, rfl⟩
    next nonzero =>
    split
    · exact ⟨_, rfl⟩
    next aligned =>
    obtain ⟨user, grown⟩ := allocuvm_sz alloc nonzero
    have space₁ := allocuvm_space space nonzero alloc
    have below₁ := grown ▸ max_lt below user
    obtain ⟨m₂, load⟩ := loaduvm_reads (m := m₁) file (Proghdr.decode (file off proghdrSize)).off
      space₁ below₁.le
      (not_not.mp aligned) (Proghdr.fits (not_lt.mp smaller) (not_lt.mp straight) alloc nonzero)
    rw [load, ok_bind]
    dsimp only
    split
    · refine ih (returnable.of_balance ?_) space₁ below₁
      rw [← kept, balance, balance, loaduvm_freelist load]
    · exact ⟨_, rfl⟩

end Returning
end Aso.Xv6.Vm
