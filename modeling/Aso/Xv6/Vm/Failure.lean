import Aso.Xv6.Vm.Need

/-! What a failed `exec` leaves behind. Everything is undone except one assignment:
`inicio_pagina_guarda` is set before the stack is allocated and the arguments are
copied, and both of these may still fail. -/
namespace Aso.Xv6.Vm
open Checked

section Returning
variable {k : Kernel} {m m' : Mem} {d d' : Pgdir} {p : Image} {a f n oldsz newsz sz e : Nat}

/-- `kfree` accepts all pages that are free or owned. -/
def Returnable (k : Kernel) (m : Mem) (d : Pgdir) : Prop :=
  ∀ f, 0 < (balance m d).count f → k.kend ≤ f ∧ f < phystop / pgsize

theorem Returnable.of_balance (returnable : Returnable k m d) (kept : balance m' d' = balance m d) :
    Returnable k m' d' :=
  fun f inside => returnable f (kept ▸ inside)

theorem Returnable.kfree (returnable : Returnable k m d) (inside : 0 < (balance m d).count f)
    (m' : Mem) : ∃ m'', m'.kfree k f = .ok m'' := by
  have valid := returnable f inside
  exact ⟨_, if_neg (by omega)⟩

theorem Returnable.deallocuvm (returnable : Returnable k m d) (user : oldsz ≤ kernbase) :
    ∃ r, deallocuvm k m d oldsz newsz = .ok r := by
  have word : oldsz < 2 ^ 32 := by
    simp only [kernbase] at user
    omega
  have freeable : Freeable k d (pgroundup newsz) oldsz := by
    intro i member e present
    rw [mem_pagesIn (pgroundup_mod newsz)] at member
    exact returnable _
      (count_balance_of_owned (count_owned present (pdx_user (member.2.trans_le user))))
  unfold Vm.deallocuvm
  split
  · exact ⟨_, rfl⟩
  · obtain ⟨r, loop⟩ := (deallocLoop_ok_iff (m := m) word).mpr (.inr ⟨straight_user user, freeable⟩)
    exact ⟨_, bind_ok.mpr ⟨r, loop, rfl⟩⟩

theorem freeTables_returns {i : Nat} (bound : i + n ≤ npdentries)
    (valid : ∀ f, 0 < d.owned.count f → k.kend ≤ f ∧ f < phystop / pgsize) :
    ∃ m', freeTables k n m d i = .ok m' := by
  induction n generalizing m i with
  | zero => exact ⟨m, rfl⟩
  | succ n ih =>
    unfold freeTables
    split
    · exact ih (by omega)
    · next t found =>
      have usable := valid t.frame (count_owned_table found (by omega))
      obtain ⟨m₁, returned⟩ : ∃ m₁, m.kfree k t.frame = .ok m₁ := ⟨_, if_neg (by omega)⟩
      obtain ⟨m', rest⟩ := ih (m := m₁) (i := i + 1) (by omega)
      exact ⟨m', bind_ok.mpr ⟨m₁, returned, rest⟩⟩

/-- Such an address space can be freed. -/
theorem Returnable.freevm (returnable : Returnable k m d) : ∃ m', freevm k m d = .ok m' := by
  have empties : ∃ r, Vm.deallocuvm k m d kernbase 0 = .ok r := returnable.deallocuvm le_rfl
  obtain ⟨⟨left, d₁, m₁⟩, emptied⟩ := empties
  have later := returnable.of_balance (deallocuvm_balance le_rfl emptied)
  obtain ⟨m₂, tables⟩ := freeTables_returns (k := k) (m := m₁) (d := d₁) (i := 0)
    (n := npdentries) (by decide)
    fun f inside => later f (count_balance_of_owned inside)
  have directory : 0 < d₁.owned.count d₁.frame := by
    rw [Pgdir.owned, Multiset.count_cons_self]
    exact Nat.succ_pos _
  obtain ⟨m', freed⟩ := later.kfree (count_balance_of_owned directory) m₂
  exact ⟨m', bind_ok.mpr ⟨_, emptied, bind_ok.mpr ⟨_, tables, freed⟩⟩⟩

/-- Absent pages are mapped, or there is no memory for a page table. -/
theorem mapLoop_returns {c : Nat} {w u : Bool} (distinct : c * pgsize ≤ 2 ^ 32)
    (absent : ∀ i < c, d.pte ((a + i * pgsize) % 2 ^ 32) = none) :
    ∃ r, mapLoop c m d a f w u = .ok r := by
  induction c generalizing m d a f with
  | zero => exact ⟨_, rfl⟩
  | succ c ih =>
    unfold mapLoop
    split
    · exact ⟨_, rfl⟩
    · next walked =>
      obtain ⟨first, rest⟩ := absent_rest distinct absent walked (some ⟨f, w, u⟩)
      rw [first, if_neg (by simp)]
      exact ih ((Nat.mul_le_mul_right _ c.le_succ).trans distinct) rest

theorem mappages_returns {w u : Bool} (aligned : a % pgsize = 0) (absent : d.pte a = none) :
    ∃ r, mappages m d a pgsize f w u = .ok r := by
  rw [mappages_page aligned]
  refine mapLoop_returns (by decide) fun i first => ?_
  rw [Nat.lt_one_iff.mp first, Nat.zero_mul, Nat.add_zero,
    d.pte_congr (samePage_mod.mpr ⟨rfl, rfl⟩), absent]

theorem mapKernel_returns {ranges : List (Nat × Nat × Nat × Bool)} {b : Nat}
    (ascending : Ascending b ranges) (absent : ∀ va, b ≤ va → va < 2 ^ 32 → d.pte va = none) :
    ∃ r, mapKernel m d ranges = .ok r := by
  induction ranges generalizing m d b with
  | nil => exact ⟨_, rfl⟩
  | cons range rest ih =>
    obtain ⟨virt, start, stop, w⟩ := range
    obtain ⟨above, aligned, nonempty, whole, fits, ascending⟩ := ascending
    have maps : ∃ r,
        mappages m d virt ((stop + 2 ^ 32 - start) % 2 ^ 32) (start / pgsize) w false = .ok r := by
      refine mapLoop_returns ?_ fun i inside => absent _ ?_ ?_
      all_goals
        simp only [pgrounddown, pgsize] at *
        omega
    obtain ⟨⟨mapped, d₁, m₁⟩, first⟩ := maps
    cases mapped with
    | false => exact ⟨_, bind_ok.mpr ⟨_, first, rfl⟩⟩
    | true =>
      have later :
          ∀ va, virt + (stop + 2 ^ 32 - start) % 2 ^ 32 ≤ va → va < 2 ^ 32 → d₁.pte va = none := by
        intro va outside below
        rw [mappages_outside aligned nonempty fits whole (.inr outside) below first]
        exact absent va (by omega) below
      obtain ⟨r, others⟩ := ih (m := m₁) ascending later
      exact ⟨r, bind_ok.mpr ⟨_, first, others⟩⟩

/-- `setupkvm` makes the kernel's half of an address space or undoes what it did. -/
theorem setupkvm_returns (valid : ∀ f ∈ m.freelist, k.kend ≤ f ∧ f < phystop / pgsize) :
    ∃ r, setupkvm k m = .ok r := by
  unfold setupkvm
  split
  · exact ⟨_, rfl⟩
  next f m₁ taken =>
  rw [if_neg (by decide)]
  have maps : ∃ r, mapKernel m₁ ⟨f, fun _ => none⟩ (kmap k) = .ok r :=
    mapKernel_returns (kmap_ascending k) fun _ _ _ => rfl
  obtain ⟨⟨mapped, d, m₂⟩, filled⟩ := maps
  cases mapped with
  | true => exact ⟨_, bind_ok.mpr ⟨_, filled, rfl⟩⟩
  | false =>
    have returnable : Returnable k m₂ d := by
      intro g inside
      rw [mapKernel_balance le_rfl (kmap_ascending k) filled, emptySpace_balance taken,
        Multiset.coe_count, List.count_pos_iff] at inside
      exact valid g inside
    obtain ⟨m₃, freed⟩ := returnable.freevm
    exact ⟨_, bind_ok.mpr ⟨_, filled, bind_ok.mpr ⟨_, freed, rfl⟩⟩⟩

theorem Returnable.allocLoop (returnable : Returnable k m d) (space : Space d a)
    (aligned : a % pgsize = 0) (user : newsz ≤ kernbase)
    (inside : n = 0 ∨ a + (n - 1) * pgsize < newsz) :
    ∃ r, allocLoop k oldsz newsz n m d a = .ok r := by
  induction n generalizing m d a with
  | zero => exact ⟨_, rfl⟩
  | succ n ih =>
    have last := inside.resolve_left n.succ_ne_zero
    rw [Nat.add_sub_cancel] at last
    have low : a < kernbase := by omega
    unfold Vm.allocLoop
    split
    · obtain ⟨r, freed⟩ := returnable.deallocuvm user
      exact ⟨_, bind_ok.mpr ⟨r, freed, rfl⟩⟩
    · next f m₁ taken =>
      have absent : d.pte a = none := by
        rw [← Option.not_isSome_iff_eq_none, space.filled a low]
        simp only [pgrounddown, pgsize] at *
        omega
      obtain ⟨⟨mapped, d₁, m₂⟩, page⟩ :=
        mappages_returns (m := m₁.fill f .zero) (f := f) aligned absent
      have moved := mappages_page_balance aligned low page
      have start : balance (m₁.fill f .zero) d + {f} = balance m d := kalloc_balance taken _
      have fits : a + pgsize ≤ kernbase ∧ (n = 0 ∨ a + pgsize + (n - 1) * pgsize < newsz) := by
        simp only [pgsize, kernbase] at *
        omega
      cases mapped with
      | true =>
        rw [if_pos rfl, start] at moved
        obtain ⟨r, rest⟩ := ih (returnable.of_balance moved)
          (mappages_space space aligned fits.1 page)
          ((Nat.add_mod_right a pgsize).trans aligned) fits.2
        exact ⟨r, bind_ok.mpr ⟨_, page, rest⟩⟩
      | false =>
        rw [if_neg Bool.false_ne_true, add_zero] at moved
        have rest : Returnable k m₂ d₁ := by
          intro g inside
          refine returnable g ?_
          rw [← start, Multiset.count_add, ← moved]
          omega
        have taken : 0 < (balance m d).count f := by
          rw [← start, Multiset.count_add, Multiset.count_singleton_self]
          omega
        obtain ⟨⟨left, d₂, m₃⟩, freed⟩ := rest.deallocuvm user
        obtain ⟨m₄, returned⟩ := returnable.kfree taken m₃
        exact ⟨_, bind_ok.mpr ⟨_, page, bind_ok.mpr ⟨_, freed, bind_ok.mpr ⟨_, returned, rfl⟩⟩⟩⟩

theorem Returnable.allocuvm (returnable : Returnable k m d) (space : Space d oldsz) :
    ∃ r, allocuvm k m d oldsz newsz = .ok r := by
  unfold Vm.allocuvm
  split
  · exact ⟨_, rfl⟩
  next user =>
  split
  · exact ⟨_, rfl⟩
  next grows =>
  have start : Space d (pgroundup oldsz) := by
    refine space.resize fun page aligned => ?_
    simp only [pgroundup, pgrounddown, pgsize, kernbase] at *
    omega
  have loops : ∃ r, Vm.allocLoop k oldsz newsz ((newsz - pgroundup oldsz + (pgsize - 1)) / pgsize) m
      d (pgroundup oldsz) =
      .ok r := by
    refine returnable.allocLoop start (pgroundup_mod _) (not_le.mp user).le ?_
    simp only [pgsize] at *
    omega
  obtain ⟨r, loop⟩ := loops
  exact ⟨_, bind_ok.mpr ⟨r, loop, rfl⟩⟩

theorem uva2ka_pte {va : Nat} {e : Pte} (present : d.pte va = some e) :
    uva2ka d va = .ok (if e.u then some e.frame else none) := by
  obtain ⟨t, found, entry⟩ := Option.bind_eq_some_iff.mp present
  rw [uva2ka, found]
  dsimp only
  rw [entry]

/-- Copying the end of an empty string below `sp` does not panic inside the image. -/
theorem copyout_byte {sp : Nat} (space : Space d sz) (user : sz ≤ kernbase) (inside : sp < sz) :
    ∃ r, copyout m d sp [0] = .ok r := by
  have low : sp < kernbase := by omega
  obtain ⟨e, present⟩ : ∃ e, d.pte sp = some e := by
    refine Option.isSome_iff_exists.mp ((space.filled sp low).mpr ?_)
    simp only [pgrounddown, pgsize]
    omega
  rw [← d.pte_congr (samePage_pgrounddown sp)] at present
  have page := uva2ka_pte present
  show ∃ r, copyoutLoop d 1 m sp [0] = .ok r
  rw [copyoutLoop, if_neg (List.cons_ne_nil _ _), page]
  cases e.u with
  | true => exact ⟨_, rfl⟩
  | false => exact ⟨_, rfl⟩

/-- More than `MAXARG` empty arguments are always refused. -/
theorem pushArgs_refused {argc c sp : Nat} (space : Space d sz) (user : sz ≤ kernbase)
    (many : argc + c = maxArg + 1) (some : 0 < c) (aligned : sp % 4 = 0) (room : 4 * c ≤ sp)
    (inside : sp ≤ sz) : ∃ m', pushArgs d argc (List.replicate c []) m sp = .ok (none, m') := by
  induction c generalizing m argc sp with
  | zero => exact absurd some (Nat.lt_irrefl 0)
  | succ c ih =>
    rw [List.replicate_succ, pushArgs]
    split
    · exact ⟨m, rfl⟩
    next fewer =>
    have below :
        (sp + 2 ^ 32 - (([] : List UInt8).length + 1) % 2 ^ 32) % 2 ^ 32 / 4 * 4 = sp - 4 := by
      simp only [List.length_nil, kernbase] at *
      omega
    dsimp only
    rw [below]
    obtain ⟨⟨copied, m₁⟩, copy⟩ := copyout_byte (m := m) space user (show sp - 4 < sz by omega)
    cases copied with
    | false => exact ⟨m₁, bind_ok.mpr ⟨_, copy, rfl⟩⟩
    | true =>
      have later : ∃ m', pushArgs d (argc + 1) (List.replicate c []) m₁ (sp - 4) = .ok (none, m') :=
        ih (by omega) (by omega) (by omega) (by omega) (by omega)
      obtain ⟨m', rest⟩ := later
      exact ⟨m', bind_ok.mpr ⟨_, copy, bind_ok.mpr ⟨_, rest, rfl⟩⟩⟩

theorem covers_last (k : Kernel) : k.covers 1023 = true := by
  refine List.any_eq_true.mpr ⟨(devspace, devspace, 0, true), ?_, by decide⟩
  simp [kmap]

/-- The arguments are refused once there is a stack for an image that ends at `e`. -/
def Refused (argv : List (List UInt8)) (e : Nat) : Prop :=
  ∀ (m : Mem) (d d' : Pgdir) (sz : Nat), Space d sz →
    (pgroundup e + (pgroundup e / pgsize + 1) * pgsize) % 2 ^ 32 < kernbase →
    sz = max (pgroundup e) ((pgroundup e + (pgroundup e / pgsize + 1) * pgsize) % 2 ^ 32) →
    clearpteu d ((sz + 2 ^ 32 - (pgroundup e / pgsize + 1) * pgsize) % 2 ^ 32) = .ok d' →
    ∃ m', buildStack m d' sz argv = .ok (none, m')

theorem refused_many (below : e < kernbase) : Refused (List.replicate (maxArg + 1) []) e := by
  intro m d d' sz space user size cleared
  have aligned := pgroundup_mod e
  obtain ⟨above, most⟩ := pgroundup_le below
  have shape : sz ≤ kernbase ∧ sz % 4 = 0 ∧ 4 * (maxArg + 1) ≤ sz := by
    simp only [pgsize, kernbase, maxArg] at *
    omega
  obtain ⟨m', pushed⟩ := pushArgs_refused (m := m) (clearpteu_space space cleared) shape.1
    (Nat.zero_add (maxArg + 1)) (Nat.succ_pos _) shape.2.1 shape.2.2 le_rfl
  exact ⟨m', bind_ok.mpr ⟨_, pushed, rfl⟩⟩

/-- An empty image gets a guard page and no stack, so there is no place for `argc`. -/
theorem refused_none : Refused [] 0 := by
  intro m d d' sz space _ size cleared
  obtain rfl : sz = pgsize := size
  obtain ⟨e, present⟩ := Option.isSome_iff_exists.mp ((space.filled 0 (by decide)).mpr (by decide))
  have cleared : d'.pte 0 = some { e with u := false } := by
    rw [clearpteu_pte cleared, if_pos ⟨rfl, rfl⟩, present]
    rfl
  have hidden : uva2ka d' (pgrounddown 4080) = .ok none := uva2ka_pte cleared
  refine ⟨m, bind_ok.mpr ⟨_, rfl, bind_ok.mpr ⟨(false, m), ?_, rfl⟩⟩⟩
  show copyoutLoop d' 16 m 4080 _ = _
  rw [copyoutLoop, if_neg (by decide), hidden]
  rfl

/-- Called with arguments that are refused, `exec` fails once the segments are loaded. -/
theorem finishExec_refused {path : List UInt8} {entry : Nat} {argv : List (List UInt8)}
    (refused : Refused argv e) (space : Space d e) (below : e < kernbase)
    (returnable : Returnable k m d) (last : (d.table 1023).isSome) :
    ∃ m', finishExec k m p d e path entry argv =
      .ok (false, { p with inicioPaginaGuarda := pgroundup e }, m') := by
  have aligned := pgroundup_mod e
  obtain ⟨above, most⟩ := pgroundup_le below
  have start : Space d (pgroundup e) := by
    refine space.resize fun page aligned => ?_
    simp only [pgroundup, pgrounddown, pgsize, kernbase] at *
    omega
  have allocates : ∃ r, allocuvm k m d (pgroundup e)
      ((pgroundup e + (pgroundup e / pgsize + 1) * pgsize) % 2 ^ 32) = .ok r :=
    returnable.allocuvm start
  obtain ⟨⟨sz, d₁, m₁⟩, alloc⟩ := allocates
  have kept := allocuvm_balance alloc
  cases sz with
  | zero =>
    obtain ⟨m', freed⟩ := (returnable.of_balance kept).freevm
    exact ⟨m', bind_ok.mpr ⟨_, alloc, bind_ok.mpr ⟨_, freed, rfl⟩⟩⟩
  | succ n =>
    obtain ⟨user, size⟩ := allocuvm_sz alloc n.succ_ne_zero
    have space₁ := allocuvm_space start n.succ_ne_zero alloc
    have table : (d₁.table
        (pdx ((n + 1 + 2 ^ 32 - (pgroundup e / pgsize + 1) * pgsize) % 2 ^ 32))).isSome := by
      by_cases top : pgroundup e = kernbase
      · -- the size of the stack wraps around, and so does the address of the guard page
        have index :
            pdx ((n + 1 + 2 ^ 32 - (pgroundup e / pgsize + 1) * pgsize) % 2 ^ 32) = 1023 := by
          simp only [pdx, pgsize, kernbase] at *
          omega
        rw [index]
        exact allocuvm_table n.succ_ne_zero alloc last
      · have guard : (n + 1 + 2 ^ 32 - (pgroundup e / pgsize + 1) * pgsize) % 2 ^ 32 = pgroundup e ∧
            pgroundup e < kernbase ∧ pgrounddown (pgroundup e) < n + 1 := by
          simp only [pgrounddown, pgsize, kernbase] at *
          omega
        obtain ⟨entry, present⟩ :=
          Option.isSome_iff_exists.mp ((space₁.filled _ guard.2.1).mpr guard.2.2)
        rw [guard.1]
        exact Pgdir.table_of_pte present
    obtain ⟨d₂, cleared⟩ : ∃ d₂, clearpteu d₁
        ((n + 1 + 2 ^ 32 - (pgroundup e / pgsize + 1) * pgsize) % 2 ^ 32) = .ok d₂ := by
      obtain ⟨t, found⟩ := Option.isSome_iff_exists.mp table
      rw [clearpteu, found]
      exact ⟨_, rfl⟩
    obtain ⟨m₂, built⟩ := refused m₁ d₁ d₂ (n + 1) space₁ user size cleared
    have same : balance m₂ d₂ = balance m d := by
      rw [← kept, balance, balance, buildStack_freelist built, clearpteu_owned cleared]
    obtain ⟨m', freed⟩ := (returnable.of_balance same).freevm
    exact ⟨m', bind_ok.mpr
      ⟨_, alloc, bind_ok.mpr ⟨_, cleared, bind_ok.mpr ⟨_, built, bind_ok.mpr ⟨_, freed, rfl⟩⟩⟩⟩⟩

end Returning

/-- Where the image of the file ends, if the file is one that `exec` can load. -/
def imageEnd (file : Option File) : Option Nat :=
  file.bind fun file =>
    let bytes := file 0 elfhdrSize
    let elf := Elfhdr.decode bytes
    if bytes.length = elfhdrSize ∧
      elf.magic = elfMagic then segmentsEnd file elf.phnum 0 elf.phoff else none

section Exec
variable {k : Kernel} {m m' : Mem} {p q : Image} {path : List UInt8} {file : Option File}
  {argv : List (List UInt8)} {e : Nat}

theorem imageEnd_lt {file : Option File} (ends : imageEnd file = some e) : e < kernbase := by
  obtain ⟨file, rfl, sum⟩ := Option.bind_eq_some_iff.mp ends
  dsimp only at sum
  split at sum
  · exact (segmentsEnd_ge (by decide) sum).2
  · cases sum

theorem setupkvm_taken {d : Pgdir} (setup : setupkvm k m = .ok (some d, m')) :
    balance m' d = m.freelist := by
  rw [balance, ← setupkvm_balance setup, made]

/-- The address space with its segments, as `exec` has built it from the free pages of `m`. -/
structure Loaded (k : Kernel) (m : Mem) (d : Pgdir) (e : Nat) (m' : Mem) : Prop where
  space : Space d e
  below : e < kernbase
  taken : balance m' d = m.freelist
  last : (d.table 1023).isSome
  need : k.need e ≤ m.freelist.length
  pages : ∀ f ∉ m.freelist, m'.page f = m.page f

theorem count_freelist_eq_zero {f : Nat} (used : f ∉ m.freelist) :
    Multiset.count f (m.freelist : Multiset Nat) = 0 := by
  rw [Multiset.coe_count]
  exact List.count_eq_zero.mpr used

theorem Loaded.of_segments {file : File} {d d₁ : Pgdir} {m₁ m₂ : Mem} {n off : Nat}
    (setup : setupkvm k m = .ok (some d, m₁))
    (loading : loadSegments k file n m₁ d 0 off = .ok (some e, d₁, m₂)) :
    Loaded k m d₁ e m₂ ∧ segmentsEnd file n 0 off = some e := by
  obtain ⟨written, ends⟩ := loadSegments_space (setupkvm_space setup) (by decide) loading
  obtain ⟨sum, space, below⟩ := ends e rfl
  have kept : balance m₂ d₁ = m.freelist :=
    (loadSegments_balance loading).trans (setupkvm_taken setup)
  have tables (i : Nat) (bound : i < npdentries) (covered : k.covers i = true) :
      (d₁.table i).isSome :=
    loadSegments_table loading (setupkvm_covers setup bound covered)
  refine ⟨⟨space, below, kept, tables 1023 (by decide) (covers_last k), ?_, fun f used => ?_⟩, sum⟩
  · have cost := need_le_owned space below tables
    have total := congrArg Multiset.card kept
    rw [balance, Multiset.card_add, Multiset.coe_card, Multiset.coe_card] at total
    omega
  · rw [written f, setupkvm_page used setup]
    rw [setupkvm_taken setup, count_freelist_eq_zero used]

/-- The image up to the page boundary. -/
theorem Loaded.rounded {d : Pgdir} (loaded : Loaded k m d e m') : Space d (pgroundup e) := by
  have below := loaded.below
  refine loaded.space.resize fun page aligned => ?_
  simp only [pgroundup, pgrounddown, pgsize, kernbase] at *
  omega

theorem Loaded.untouched {d : Pgdir} {m'' : Mem} (loaded : Loaded k m d e m')
    (rest : Untouched m' d m'') {f : Nat} (used : f ∉ m.freelist) : m''.page f = m.page f := by
  rw [rest f ?_, loaded.pages f used]
  rw [loaded.taken, count_freelist_eq_zero used]

/-- The rest of `exec` writes to pages of the new image only, and if it fails, it has
done nothing to the process but one assignment. -/
theorem finishExec_failed {d : Pgdir} {entry : Nat} {m'' : Mem} (loaded : Loaded k m d e m')
    (finished : finishExec k m' p d e path entry argv = .ok (false, q, m'')) :
    q = { p with inicioPaginaGuarda := pgroundup e } ∧ ∀ f ∉ m.freelist, m''.page f = m.page f := by
  refine ⟨(finishExec_ok finished).elim (·.2) fun done => absurd done.1 Bool.false_ne_true,
    fun f used => ?_⟩
  refine loaded.untouched ?_ used
  obtain ⟨⟨size, d₁, m₁⟩, grown, rest⟩ := bind_ok.mp finished
  have kept := allocuvm_balance grown
  have first := allocuvm_untouched grown
  cases size with
  | zero =>
    obtain ⟨m₂, freed, rest⟩ := bind_ok.mp rest
    cases rest
    exact first.trans kept (freevm_untouched freed)
  | succ size =>
    obtain ⟨d₂, cleared, rest⟩ := bind_ok.mp rest
    obtain ⟨⟨stack, m₂⟩, built, rest⟩ := bind_ok.mp rest
    have space := clearpteu_space (allocuvm_space loaded.rounded size.succ_ne_zero grown) cleared
    have kept₁ : balance m₁ d₂ = balance m' d := by
      rw [← kept, balance, balance, clearpteu_owned cleared]
    have second := first.trans kept₁ (buildStack_untouched space built)
    cases stack with
    | none =>
      obtain ⟨m₃, freed, rest⟩ := bind_ok.mp rest
      cases rest
      refine second.trans ?_ (freevm_untouched freed)
      rw [← kept₁, balance, balance, buildStack_freelist built]
    | some sp =>
      obtain ⟨m₃, freed, rest⟩ := bind_ok.mp rest
      cases rest

/-- A failed `exec`: nothing was changed, or the image was loaded and the field was set. -/
theorem exec_failed (finished : exec k m p path file argv = .ok (false, q, m')) :
    (∀ f ∉ m.freelist, m'.page f = m.page f) ∧
      (q = p ∨ ∃ e, imageEnd file = some e ∧ k.need e ≤ m.freelist.length ∧
        q = { p with inicioPaginaGuarda := pgroundup e }) := by
  unfold exec at finished
  split at finished
  · cases finished
    exact ⟨fun _ _ => rfl, .inl rfl⟩
  next file =>
  dsimp only at finished
  split at finished
  · cases finished
    exact ⟨fun _ _ => rfl, .inl rfl⟩
  next whole =>
  split at finished
  · cases finished
    exact ⟨fun _ _ => rfl, .inl rfl⟩
  next magic =>
  obtain ⟨⟨space, m₁⟩, setup, rest⟩ := bind_ok.mp finished
  cases space with
  | none =>
    cases rest
    exact ⟨fun f used => setupkvm_page used setup, .inl rfl⟩
  | some d =>
    obtain ⟨⟨size, d₁, m₂⟩, loading, rest⟩ := bind_ok.mp rest
    cases size with
    | none =>
      obtain ⟨m₃, freed, rest⟩ := bind_ok.mp rest
      cases rest
      refine ⟨fun f used => ?_, .inl rfl⟩
      have first := setupkvm_taken setup
      have written := (loadSegments_space (setupkvm_space setup) (by decide) loading).1
      rw [freevm_untouched freed f, written f, setupkvm_page used setup]
      · rw [first, count_freelist_eq_zero used]
      · rw [loadSegments_balance loading, first, count_freelist_eq_zero used]
    | some e =>
      obtain ⟨loaded, sum⟩ := Loaded.of_segments setup loading
      obtain ⟨field, others⟩ := finishExec_failed loaded rest
      refine ⟨others, .inr ⟨e, ?_, loaded.need, field⟩⟩
      rw [imageEnd, Option.bind_some]
      exact (if_pos ⟨not_not.mp whole, not_not.mp magic⟩).trans sum

/-- With memory for the image, but arguments that are refused, `exec` fails after the
assignment. -/
theorem exec_refused (valid : ∀ f ∈ m.freelist, k.kend ≤ f ∧ f < phystop / pgsize)
    (ends : imageEnd file = some e) (need : k.need e ≤ m.freelist.length)
    (refused : Refused argv e) (p : Image) (path : List UInt8) :
    ∃ m', exec k m p path file argv =
      .ok (false, { p with inicioPaginaGuarda := pgroundup e }, m') := by
  obtain ⟨file, rfl, sum⟩ := Option.bind_eq_some_iff.mp ends
  dsimp only at sum
  split at sum
  · next header =>
    have spare : Spare (k.tablesFor e) k m ⟨0, fun _ => none⟩ (pagesTo e + 1) := by
      refine ⟨?_, valid⟩
      rw [Kernel.need] at need
      omega
    obtain ⟨d, m₁, setup, left⟩ :=
      spare.setupkvm_ranges fun r member va low high => tablesFor_kernel member low high
    have below : e < kernbase := (segmentsEnd_ge (by decide) sum).2
    have loads : ∃ d₁ m₂, loadSegments k file (Elfhdr.decode (file 0 elfhdrSize)).phnum m₁ d 0
        (Elfhdr.decode (file 0 elfhdrSize)).phoff = .ok (some e, d₁, m₂) ∧
        Spare (k.tablesFor e) k m₂ d₁ 0 := by
      rw [← Nat.zero_add (pagesTo e)] at left
      exact left.loadSegments (setupkvm_space setup) (by decide) (fun va _ => tablesFor_user) sum
    obtain ⟨d₁, m₂, loading, -⟩ := loads
    have space := ((loadSegments_space (setupkvm_space setup) (by decide) loading).2 e rfl).2.1
    have first := setupkvm_taken setup
    have returnable : Returnable k m₂ d₁ := by
      intro f inside
      rw [loadSegments_balance loading, first, Multiset.coe_count, List.count_pos_iff] at inside
      exact valid f inside
    have last := loadSegments_table loading (setupkvm_covers setup (by decide) (covers_last k))
    have fails : ∃ m', finishExec k m₂ p d₁ e path (Elfhdr.decode (file 0 elfhdrSize)).entry argv =
        .ok (false, { p with inicioPaginaGuarda := pgroundup e }, m') :=
      finishExec_refused refused space below returnable last
    obtain ⟨m', failed⟩ := fails
    refine ⟨m', ?_⟩
    rw [exec, if_neg (not_not.mpr header.1), if_neg (not_not.mpr header.2)]
    exact bind_ok.mpr ⟨_, setup, bind_ok.mpr ⟨_, loading, failed⟩⟩
  · cases sum

end Exec

/-- The calls of `exec` to the log and to the inode it runs. -/
inductive FsCall where
  | beginOp | namei (found : Bool) | ilock | iunlockput | endOp
  deriving DecidableEq

/-- What the caller holds: operations of the log it has begun, references to the inode
and locks on it. -/
structure Held where
  ops : Int
  refs : Int
  locks : Int

def Held.after (h : Held) : FsCall → Held
  | .beginOp => { h with ops := h.ops + 1 }
  | .namei found => if found then { h with refs := h.refs + 1 } else h
  | .ilock => { h with locks := h.locks + 1 }
  | .iunlockput => { h with refs := h.refs - 1, locks := h.locks - 1 }
  | .endOp => { h with ops := h.ops - 1 }

/-- `exec` with these calls in the order it makes them. -/
def execCalls (k : Kernel) (m : Mem) (p : Image) (path : List UInt8) (file : Option File)
    (argv : List (List UInt8)) : Except Panic (Bool × Image × Mem × List FsCall) :=
  match file with
  | none => .ok (false, p, m, [.beginOp, .namei false, .endOp])
  | some file =>
    let calls := [.beginOp, .namei true, .ilock]
    -- at `bad` while `ip` is not null
    let bad := calls ++ [.iunlockput, .endOp]
    let bytes := file 0 elfhdrSize
    let elf := Elfhdr.decode bytes
    if bytes.length ≠ elfhdrSize then .ok (false, p, m, bad)
    else if elf.magic ≠ elfMagic then .ok (false, p, m, bad)
    else do
      match ← setupkvm k m with
      | (none, m) => .ok (false, p, m, bad)
      | (some d, m) =>
        match ← loadSegments k file elf.phnum m d 0 elf.phoff with
        | (none, d, m) => do
          let m ← freevm k m d
          .ok (false, p, m, bad)
        | (some sz, d, m) => do
          -- from here on `ip` is null, and `bad` makes no more calls
          let calls := calls ++ [.iunlockput, .endOp]
          let (done, p, m) ← finishExec k m p d sz path elf.entry argv
          .ok (done, p, m, calls)

section Law
variable {k : Kernel} {m m' : Mem} {p q : Image} {path : List UInt8} {file : Option File}
  {argv : List (List UInt8)} {calls : List FsCall} {done : Bool}

/-- The calls apart, this is `exec`. -/
theorem execCalls_map : (execCalls k m p path file argv).map (fun r => (r.1, r.2.1, r.2.2.1)) =
    exec k m p path file argv := by
  unfold execCalls exec
  cases file with
  | none => rfl
  | some file =>
    dsimp only
    split
    · rfl
    split
    · rfl
    cases setupkvm k m with
    | error e => rfl
    | ok made =>
      obtain ⟨space, m₁⟩ := made
      cases space with
      | none => rfl
      | some d =>
        simp only [ok_bind]
        cases loadSegments k file (Elfhdr.decode (file 0 elfhdrSize)).phnum m₁ d 0
            (Elfhdr.decode (file 0 elfhdrSize)).phoff with
        | error e => rfl
        | ok loaded =>
          obtain ⟨size, d₁, m₂⟩ := loaded
          cases size with
          | none =>
            simp only [ok_bind]
            cases freevm k m₂ d₁ <;> rfl
          | some e =>
            simp only [ok_bind]
            cases finishExec k m₂ p d₁ e path (Elfhdr.decode (file 0 elfhdrSize)).entry argv <;> rfl

/-- Whatever it returns, `exec` holds what it held before. -/
theorem execCalls_held (finished : execCalls k m p path file argv = .ok (done, q, m', calls))
    (h : Held) : calls.foldl Held.after h = h := by
  have present :
      [FsCall.beginOp, .namei true, .ilock, .iunlockput, .endOp].foldl Held.after h = h := by
    simp [Held.after]
  unfold execCalls at finished
  split at finished
  · cases finished
    simp [Held.after]
  dsimp only at finished
  split at finished
  · cases finished
    exact present
  split at finished
  · cases finished
    exact present
  obtain ⟨⟨space, m₁⟩, setup, rest⟩ := bind_ok.mp finished
  cases space with
  | none =>
    cases rest
    exact present
  | some d =>
    obtain ⟨⟨size, d₁, m₂⟩, loading, rest⟩ := bind_ok.mp rest
    cases size with
    | none =>
      obtain ⟨m₃, freed, rest⟩ := bind_ok.mp rest
      cases rest
      exact present
    | some e =>
      obtain ⟨⟨finish, q₁, m₃⟩, last, rest⟩ := bind_ok.mp rest
      cases rest
      exact present

/-- A failed attempt is undone: the process is as before, the pages it took are free
again, all other pages have their contents, and nothing is held. -/
structure Undone (m : Mem) (p : Image) (m' : Mem) (q : Image) (calls : List FsCall) : Prop where
  image : q = p
  freelist : (m'.freelist : Multiset Nat) = m.freelist
  pages : ∀ f ∉ m.freelist, m'.page f = m.page f
  held : ∀ h : Held, calls.foldl Held.after h = h

def ExecLaw (k : Kernel) (m : Mem) (p : Image) (path : List UInt8) (file : Option File)
    (argv : List (List UInt8)) : Prop :=
  ∀ q m' calls, execCalls k m p path file argv = .ok (false, q, m', calls) → Undone m p m' q calls

theorem exec_of_execCalls (finished : execCalls k m p path file argv = .ok (done, q, m', calls)) :
    exec k m p path file argv = .ok (done, q, m') := by
  rw [← execCalls_map, finished]
  rfl

theorem execCalls_of_exec (finished : exec k m p path file argv = .ok (done, q, m')) :
    ∃ calls, execCalls k m p path file argv = .ok (done, q, m', calls) := by
  rw [← execCalls_map] at finished
  cases result : execCalls k m p path file argv with
  | error e =>
    rw [result] at finished
    cases finished
  | ok r =>
    rw [result] at finished
    cases finished
    exact ⟨r.2.2.2, rfl⟩

/-- Every failed `exec` of a file is undone, whatever the arguments, exactly when the file
is none that can be loaded, or there is no memory for its image, or the image ends where
`inicio_pagina_guarda` already is. -/
theorem failed_exec_undone_iff (valid : ∀ f ∈ m.freelist, k.kend ≤ f ∧ f < phystop / pgsize) :
    (∀ argv, ExecLaw k m p path file argv) ↔
      ∀ e, imageEnd file = some e → k.need e ≤ m.freelist.length →
      pgroundup e = p.inicioPaginaGuarda := by
  constructor
  · intro law e ends need
    obtain ⟨m', failed⟩ := exec_refused valid ends need (refused_many (imageEnd_lt ends)) p path
    obtain ⟨calls, returned⟩ := execCalls_of_exec failed
    exact congrArg Image.inicioPaginaGuarda (law _ _ m' calls returned).image
  · intro condition argv q m' calls returned
    have failed := exec_of_execCalls returned
    obtain ⟨pages, cause⟩ := exec_failed failed
    have image : q = p := by
      obtain same | ⟨e, ends, need, field⟩ := cause
      · exact same
      · rw [field, condition e ends need]
    refine ⟨image, ?_, pages, execCalls_held returned⟩
    have kept := exec_balance failed
    rw [image, balance, balance] at kept
    exact add_right_cancel kept

/-- An ELF file without segments. -/
def bareFile : File := fun off n => ((toLe 4 elfMagic ++ List.replicate 48 0).drop off).take n

theorem need_bare : smallKernel.need 0 ≤ smallMem.freelist.length := by
  have tables : (Pgdir.mk 0 fun _ => none).lacks (smallKernel.tablesFor 0) ≤ npdentries :=
    (Finset.card_filter_le _ _).trans_eq (Finset.card_fin npdentries)
  have pages : pagesTo 0 = 0 := by decide
  rw [Kernel.need, pages, smallMem, List.length_range']
  simp only [npdentries] at tables
  omega

/-- A process whose field is zero may try to run it. -/
theorem bareFile_undone :
    imageEnd (some bareFile) = some 0 ∧
      ∀ argv, ExecLaw smallKernel smallMem twoPages [] (some bareFile) argv := by
  have ends : imageEnd (some bareFile) = some 0 := by decide
  refine ⟨ends, (failed_exec_undone_iff (smallMem_room 0 (by decide)).valid).mpr fun e last _ => ?_⟩
  cases ends.symm.trans last
  decide

/-- A process with its guard page elsewhere loses it, when it is called without arguments. -/
theorem bareFile_moves_guard : ∃ q m' calls,
    execCalls smallKernel smallMem { twoPages with inicioPaginaGuarda := pgsize } [] (some bareFile)
      [] = .ok (false, q, m', calls) ∧ q.inicioPaginaGuarda = 0 := by
  have ends : imageEnd (some bareFile) = some 0 := by decide
  obtain ⟨m', failed⟩ := exec_refused (smallMem_room 0 (by decide)).valid ends need_bare
    refused_none
    { twoPages with inicioPaginaGuarda := pgsize } []
  obtain ⟨calls, returned⟩ := execCalls_of_exec failed
  exact ⟨_, m', calls, returned, rfl⟩

end Law
end Aso.Xv6.Vm
