import Aso.Refs
import Aso.Xv6.Vm.Size

/-! The pages that an address space owns: its directory, its page tables and the
pages mapped below the kernel. Every operation of vm.c moves pages between the free
list and what is owned, and neither loses one nor makes one up. -/
namespace Aso.Xv6.Vm
open Checked

def pteFrame : Option Pte → Multiset Nat
  | none => 0
  | some e => {e.frame}

/-- The pages of the table with index `i`. What the kernel's half maps belongs to nobody. -/
def tableFrames (i : Nat) : Option Pgtab → Multiset Nat
  | none => 0
  | some t =>
    t.frame ::ₘ if i < pdx kernbase then ∑ j ∈ Finset.range npdentries, pteFrame (t.pte j) else 0

def Pgdir.owned (d : Pgdir) : Multiset Nat :=
  d.frame ::ₘ ∑ i ∈ Finset.range npdentries, tableFrames i (d.table i)

/-- All pages that are free or owned by the address space. -/
def balance (m : Mem) (d : Pgdir) : Multiset Nat := (m.freelist : Multiset Nat) + d.owned

theorem pdx_lt (a : Nat) : pdx a < npdentries := Nat.mod_lt _ (by decide)

theorem ptx_lt (a : Nat) : ptx a < npdentries := Nat.mod_lt _ (by decide)

theorem pdx_user {a : Nat} (user : a < kernbase) : pdx a < pdx kernbase := by
  simp only [pdx, kernbase] at *
  omega

theorem pdx_kernel {a : Nat} (kernel : kernbase ≤ a) (word : a < 2 ^ 32) :
    ¬ pdx a < pdx kernbase := by
  simp only [pdx, kernbase] at *
  omega

section Parts
variable {k : Kernel} {m m' : Mem} {d d' : Pgdir} {a f : Nat}

theorem kalloc_freelist (taken : m.kalloc = some (f, m')) : m.freelist = f :: m'.freelist := by
  unfold Mem.kalloc at taken
  split at taken
  · cases taken
  · next free =>
    cases taken
    exact free

/-- The page that `kalloc` hands out is no longer counted. -/
theorem kalloc_balance (taken : m.kalloc = some (f, m')) (data : Page) :
    balance (m'.fill f data) d + {f} = balance m d := by
  rw [balance, balance, kalloc_freelist taken, ← Multiset.cons_coe,
    Multiset.cons_add, ← Multiset.singleton_add, add_comm]
  rfl

theorem kfree_freelist (freed : m.kfree k f = .ok m') : m'.freelist = f :: m.freelist := by
  unfold Mem.kfree at freed
  split at freed
  · cases freed
  · cases freed
    rfl

theorem owned_setTable (d : Pgdir) (a : Nat) (t : Option Pgtab) :
    (Pgdir.mk d.frame (Function.update d.table (pdx a) t)).owned + tableFrames (pdx a)
    (d.table (pdx a)) =
      d.owned + tableFrames (pdx a) t := by
  simp only [Pgdir.owned, Multiset.cons_add]
  rw [sum_update_mem tableFrames d.table (Finset.mem_range.mpr (pdx_lt a)) t]

theorem owned_setPte (there : (d.table (pdx a)).isSome) (e : Option Pte) :
    (d.setPte a e).owned + (if pdx a < pdx kernbase then pteFrame (d.pte a) else 0) =
      d.owned + if pdx a < pdx kernbase then pteFrame e else 0 := by
  obtain ⟨t, found⟩ := Option.isSome_iff_exists.mp there
  have moved := owned_setTable d a (some { t with pte := Function.update t.pte (ptx a) e })
  have entry : d.pte a = t.pte (ptx a) := by rw [Pgdir.pte, found, Option.bind_some]
  have same : d.setPte a e =
      ⟨d.frame, Function.update d.table (pdx a)
      (some { t with pte := Function.update t.pte (ptx a) e })⟩ := by
    rw [Pgdir.setPte, found, Option.map_some]
  rw [← same, found, tableFrames, tableFrames, Multiset.add_cons, Multiset.add_cons,
    Multiset.cons_inj_right] at moved
  rw [entry]
  split at moved
  · next user =>
    have inner := sum_update_mem (fun _ => pteFrame) t.pte (Finset.mem_range.mpr (ptx_lt a)) e
    simp only [if_pos user]
    ext g
    have outer := congrArg (Multiset.count g) moved
    have inner := congrArg (Multiset.count g) inner
    simp only [Multiset.count_add] at outer inner ⊢
    omega
  · next kernel =>
    simp only [if_neg kernel]
    exact moved

/-- The page table that `walkpgdir` makes comes from the free list. -/
theorem walkpgdir_balance (walked : walkpgdir m d a = some (d', m')) :
    balance m' d' = balance m d := by
  unfold walkpgdir at walked
  split at walked
  · cases walked
    rfl
  · next absent =>
    split at walked
    · cases walked
    · next g m₁ taken =>
      cases walked
      have moved := owned_setTable d a (some ⟨g, fun _ => none⟩)
      have nothing :
          ∑ j ∈ Finset.range npdentries, pteFrame ((fun _ => none : Nat → Option Pte) j) = 0 :=
        Finset.sum_eq_zero fun _ _ => rfl
      rw [absent, tableFrames, tableFrames, nothing, ite_self, add_zero, Multiset.add_cons,
        add_zero] at moved
      rw [balance, balance, moved, kalloc_freelist taken, ← Multiset.cons_coe, Multiset.add_cons,
        Multiset.cons_add]

/-- Mapping one page below the kernel adds it to what is owned. -/
theorem mapPage_balance {w u done : Bool} (user : a < kernbase)
    (mapped : mapLoop 1 m d a f w u = .ok (done, d', m')) :
    balance m' d' = balance m d + if done then {f} else 0 := by
  unfold mapLoop at mapped
  split at mapped
  · cases mapped
    exact (add_zero _).symm
  · next d₁ m₁ walked =>
    split at mapped
    · cases mapped
    · next absent =>
      unfold mapLoop at mapped
      cases mapped
      have moved := owned_setPte (walkpgdir_pte walked).2 (some ⟨f, w, u⟩)
      rw [if_pos (pdx_user user), if_pos (pdx_user user), Option.not_isSome_iff_eq_none.mp absent,
        pteFrame, pteFrame, add_zero] at moved
      rw [← walkpgdir_balance walked, balance, balance, moved, if_pos rfl, add_assoc]

/-- The kernel's mappings only cost page tables. -/
theorem mapLoop_kernel {n : Nat} {w u done : Bool}
    (kernel : n = 0 ∨ kernbase ≤ a ∧ a + n * pgsize ≤ 2 ^ 32)
    (mapped : mapLoop n m d a f w u = .ok (done, d', m')) : balance m' d' = balance m d := by
  induction n generalizing m d a f with
  | zero =>
    cases mapped
    rfl
  | succ n ih =>
    obtain ⟨above, fits⟩ := kernel.resolve_left n.succ_ne_zero
    have word : a < 2 ^ 32 := by
      simp only [pgsize] at fits
      omega
    unfold mapLoop at mapped
    split at mapped
    · cases mapped
      rfl
    · next d₁ m₁ walked =>
      split at mapped
      · cases mapped
      · have moved := owned_setPte (walkpgdir_pte walked).2 (some ⟨f, w, u⟩)
        rw [if_neg (pdx_kernel above word), if_neg (pdx_kernel above word), add_zero, add_zero]
          at moved
        have next : n = 0 ∨ kernbase ≤ (a + pgsize) % 2 ^ 32 ∧
            (a + pgsize) % 2 ^ 32 + n * pgsize ≤ 2 ^ 32 := by
          simp only [kernbase, pgsize] at *
          omega
        rw [ih next mapped, ← walkpgdir_balance walked, balance, balance, moved]

theorem mappages_page_balance {w u done : Bool} (aligned : a % pgsize = 0) (user : a < kernbase)
    (mapped : mappages m d a pgsize f w u = .ok (done, d', m')) :
    balance m' d' = balance m d + if done then {f} else 0 := by
  rw [mappages_page aligned] at mapped
  exact mapPage_balance user mapped

theorem mapKernel_balance {ranges : List (Nat × Nat × Nat × Bool)} {b : Nat} {done : Bool}
    (above : kernbase ≤ b) (ascending : Ascending b ranges)
    (mapped : mapKernel m d ranges = .ok (done, d', m')) : balance m' d' = balance m d := by
  induction ranges generalizing m d b with
  | nil =>
    cases mapped
    rfl
  | cons range rest ih =>
    obtain ⟨virt, start, stop, w⟩ := range
    obtain ⟨⟨ready, d₁, m₁⟩, first, others⟩ := bind_ok.mp mapped
    obtain ⟨later, aligned, nonempty, whole, fits, ascending⟩ := ascending
    have kept : balance m₁ d₁ = balance m d := by
      refine mapLoop_kernel (.inr ?_) first
      simp only [pgrounddown, pgsize, kernbase] at *
      omega
    dsimp only at others
    split at others
    · rw [ih (above.trans (later.trans (Nat.le_add_right _ _))) ascending others, kept]
    · cases others
      exact kept

end Parts

section Freeing
variable {k : Kernel} {m m' : Mem} {d d' : Pgdir} {a f oldsz newsz sz : Nat}

/-- A page that is unmapped and freed moves to the free list. -/
theorem freePage_balance {e : Pte} (there : (d.table (pdx a)).isSome) (user : a < kernbase)
    (present : d.pte a = some e) (returned : m.kfree k e.frame = .ok m') :
    balance m' (d.setPte a none) = balance m d := by
  have moved := owned_setPte there none
  rw [if_pos (pdx_user user), if_pos (pdx_user user), present, pteFrame, pteFrame, add_zero]
    at moved
  rw [balance, balance, kfree_freelist returned, ← moved, ← Multiset.cons_coe, Multiset.cons_add,
    ← Multiset.singleton_add, add_comm, add_assoc]

theorem deallocLoop_balance {n : Nat} (user : oldsz ≤ kernbase)
    (freed : deallocLoop k n m d a oldsz = .ok (d', m')) : balance m' d' = balance m d := by
  fun_induction deallocLoop k n m d a oldsz with
  | case1 => cases freed
  | case2 _ _ _ _ _ _ _ ih => exact ih user freed
  | case3 _ _ _ _ _ _ _ _ _ ih => exact ih user freed
  | case4 => cases freed
  | case5 _ m d a _ inside t found e present _ ih =>
    obtain ⟨m₁, returned, rest⟩ := bind_ok.mp freed
    rw [ih m₁ user rest, freePage_balance (by simp [found]) (inside.trans_le user) present returned]
  | case6 =>
    cases freed
    rfl

theorem deallocuvm_balance (user : oldsz ≤ kernbase)
    (freed : deallocuvm k m d oldsz newsz = .ok (sz, d', m')) : balance m' d' = balance m d := by
  unfold deallocuvm at freed
  split at freed
  · cases freed
    rfl
  · obtain ⟨_, loop, rest⟩ := bind_ok.mp freed
    cases rest
    exact deallocLoop_balance user loop

/-- The loop leaves no page behind it. -/
theorem deallocLoop_clears {n va : Nat} (user : oldsz ≤ kernbase) (aligned : a % pgsize = 0)
    (low : a ≤ va) (below : va < oldsz) (freed : deallocLoop k n m d a oldsz = .ok (d', m')) :
    d'.pte va = none := by
  have here {a va : Nat} (low : a ≤ va) (aligned : a % pgsize = 0) (below : va < oldsz)
      (user : oldsz ≤ kernbase) (this : va < a + pgsize) : SamePage a va := by
    simp only [SamePage, pdx, ptx, pgsize, kernbase] at *
    omega
  have next {a va : Nat} (low : a ≤ va) (aligned : a % pgsize = 0) (below : va < oldsz)
      (user : oldsz ≤ kernbase) :
      (a + pgsize) % 2 ^ 32 = a + pgsize ∧ (a + pgsize) % pgsize = 0 := by
    simp only [pgsize, kernbase] at *
    omega
  fun_induction deallocLoop k n m d a oldsz with
  | case1 => cases freed
  | case2 _ m d a _ inside absent ih =>
    -- no page of this table is there
    by_cases same : pdx a = pdx va
    · obtain kept | gone := deallocLoop_pte freed va
      · rw [kept, Pgdir.pte, ← same, absent]
        rfl
      · exact gone
    · refine ih user ?_ ?_ below freed here next
      all_goals
        simp only [pdx, pgsize, kernbase] at *
        omega
  | case3 _ m d a _ inside _ _ absent ih =>
    obtain ⟨wraps, rounded⟩ := next low aligned below user
    rw [wraps] at freed ih
    by_cases this : va < a + pgsize
    · obtain kept | gone := deallocLoop_pte freed va
      · rw [kept, ← d.pte_congr (here low aligned below user this), absent]
      · exact gone
    · exact ih user rounded (not_lt.mp this) below freed here next
  | case4 => cases freed
  | case5 _ m d a _ inside t found e present _ ih =>
    obtain ⟨m₁, _, rest⟩ := bind_ok.mp freed
    obtain ⟨wraps, rounded⟩ := next low aligned below user
    rw [wraps] at rest ih
    by_cases this : va < a + pgsize
    · obtain kept | gone := deallocLoop_pte rest va
      · rw [kept, Pgdir.pte_setPte (by simp [found]), if_pos (here low aligned below user this)]
      · exact gone
    · exact ih m₁ user rounded (not_lt.mp this) below rest here next
  | case6 _ _ _ _ _ outside => exact absurd (low.trans_lt below) outside

theorem freeTables_freelist {n i : Nat} (freed : freeTables k n m d i = .ok m') :
    (m'.freelist : Multiset Nat) =
      m.freelist + ∑ j ∈ Finset.range n, ((d.table (i + j)).map Pgtab.frame).elim 0 singleton := by
  induction n generalizing m i with
  | zero =>
    cases freed
    exact (add_zero _).symm
  | succ n ih =>
    have shift (j : Nat) : i + (j + 1) = i + 1 + j := by omega
    rw [Finset.sum_range_succ', add_zero, Finset.sum_congr rfl fun j _ => by rw [shift]]
    unfold freeTables at freed
    split at freed
    · next absent =>
      rw [ih freed, absent]
      exact congrArg _ (add_zero _).symm
    · next t found =>
      obtain ⟨m₁, returned, rest⟩ := bind_ok.mp freed
      rw [ih rest, found, kfree_freelist returned, ← Multiset.cons_coe]
      change _ = _ + (_ + {t.frame})
      rw [← Multiset.singleton_add]
      exact (add_assoc _ _ _).trans ((add_comm _ _).trans (add_assoc _ _ _))

/-- `freevm` gives back all that the address space owns. -/
theorem freevm_balance (freed : freevm k m d = .ok m') :
    (m'.freelist : Multiset Nat) = balance m d := by
  obtain ⟨⟨_, d₁, m₁⟩, emptied, rest⟩ := bind_ok.mp freed
  obtain ⟨m₂, tables, rest⟩ := bind_ok.mp rest
  have clear (va : Nat) (user : va < kernbase) : d₁.pte va = none := by
    have start : pgroundup 0 = 0 := by decide
    rw [deallocuvm, if_neg (by decide), start] at emptied
    obtain ⟨_, loop, done⟩ := bind_ok.mp emptied
    cases done
    exact deallocLoop_clears le_rfl (Nat.zero_mod _) va.zero_le user loop
  have owned : d₁.owned = d₁.frame ::ₘ
      ∑ j ∈ Finset.range npdentries, ((d₁.table (0 + j)).map Pgtab.frame).elim 0 singleton := by
    rw [Pgdir.owned, Multiset.cons_inj_right]
    refine Finset.sum_congr rfl fun i inside => ?_
    rw [Nat.zero_add]
    cases found : d₁.table i with
    | none => rfl
    | some t =>
      rw [tableFrames]
      split
      · next user =>
        rw [Finset.sum_eq_zero fun j bound => ?_]
        · rfl
        · have address : pdx (i * 2 ^ 22 + j * 2 ^ 12) = i ∧ ptx (i * 2 ^ 22 + j * 2 ^ 12) = j ∧
              i * 2 ^ 22 + j * 2 ^ 12 < kernbase := by
            simp only [Finset.mem_range, npdentries, pdx, ptx, kernbase] at *
            omega
          have absent := clear _ address.2.2
          rw [Pgdir.pte, address.1, address.2.1, found, Option.bind_some] at absent
          rw [absent, pteFrame]
      · rfl
  rw [kfree_freelist rest, ← Multiset.cons_coe,
    freeTables_freelist tables, ← deallocuvm_balance le_rfl emptied, balance, owned,
    Multiset.add_cons]

end Freeing

section Spaces
variable {k : Kernel} {m m' : Mem} {d d' src : Pgdir} {a f oldsz newsz sz : Nat}

/-- The pages of the address space that an operation may have made. -/
def made : Option Pgdir → Multiset Nat
  | none => 0
  | some d => d.owned

theorem owned_empty (f : Nat) : (Pgdir.mk f fun _ => none).owned = {f} := by
  have nothing : ∑ i ∈ Finset.range npdentries, tableFrames i none = 0 :=
    Finset.sum_eq_zero fun _ _ => rfl
  exact congrArg (f ::ₘ ·) nothing

theorem emptySpace_balance (taken : m.kalloc = some (f, m')) :
    balance m' ⟨f, fun _ => none⟩ = m.freelist := by
  rw [balance, owned_empty, kalloc_freelist taken, ← Multiset.cons_coe, ← Multiset.singleton_add,
    add_comm]

theorem setupkvm_balance {result : Option Pgdir} (setup : setupkvm k m = .ok (result, m')) :
    (m'.freelist : Multiset Nat) + made result = m.freelist := by
  unfold setupkvm at setup
  split at setup
  · cases setup
    exact add_zero _
  · next f m₁ taken =>
    split at setup
    · cases setup
    · obtain ⟨⟨mapped, d₁, m₂⟩, filled, rest⟩ := bind_ok.mp setup
      have kept := mapKernel_balance le_rfl (kmap_ascending k) filled
      have start : balance m₁ ⟨f, fun _ => none⟩ = m.freelist := emptySpace_balance taken
      dsimp only at rest
      split at rest
      · cases rest
        exact kept.trans start
      · obtain ⟨m₃, freed, rest⟩ := bind_ok.mp rest
        cases rest
        rw [made, add_zero, freevm_balance freed, kept, start]

theorem allocLoop_balance {n : Nat} {done : Bool} (aligned : a % pgsize = 0)
    (user : newsz ≤ kernbase) (inside : n = 0 ∨ a + (n - 1) * pgsize < newsz)
    (grown : allocLoop k oldsz newsz n m d a = .ok (done, d', m')) :
    balance m' d' = balance m d := by
  induction n generalizing m d a with
  | zero =>
    cases grown
    rfl
  | succ n ih =>
    have last := inside.resolve_left n.succ_ne_zero
    have low : a < kernbase := by
      rw [Nat.add_sub_cancel] at last
      omega
    unfold allocLoop at grown
    split at grown
    · obtain ⟨_, freed, rest⟩ := bind_ok.mp grown
      cases rest
      exact deallocuvm_balance user freed
    · next f m₁ taken =>
      obtain ⟨⟨mapped, d₁, m₂⟩, page, rest⟩ := bind_ok.mp grown
      have moved := mappages_page_balance aligned low page
      have start : balance (m₁.fill f .zero) d + {f} = balance m d := kalloc_balance taken _
      dsimp only at rest
      split at rest
      · next ready =>
        rw [ready, if_pos rfl, start] at moved
        rw [ih ?_ ?_ rest, moved]
        · exact (Nat.add_mod_right a pgsize).trans aligned
        · simp only [pgsize] at *
          omega
      · next failed =>
        obtain ⟨⟨_, d₂, m₃⟩, freed, rest⟩ := bind_ok.mp rest
        obtain ⟨m₄, returned, rest⟩ := bind_ok.mp rest
        cases rest
        rw [if_neg failed, add_zero] at moved
        have kept := deallocuvm_balance user freed
        rw [← start, ← moved, ← kept, balance, balance,
          kfree_freelist returned, ← Multiset.cons_coe,
          Multiset.cons_add, ← Multiset.singleton_add, add_comm]

theorem allocuvm_balance (grown : allocuvm k m d oldsz newsz = .ok (sz, d', m')) :
    balance m' d' = balance m d := by
  unfold allocuvm at grown
  split at grown
  · cases grown
    rfl
  · next user =>
    split at grown
    · cases grown
      rfl
    · next grows =>
      obtain ⟨_, loop, rest⟩ := bind_ok.mp grown
      cases rest
      refine allocLoop_balance (pgroundup_mod _) (not_le.mp user).le ?_ loop
      simp only [pgsize] at *
      omega

theorem clearpteu_owned (cleared : clearpteu d a = .ok d') : d'.owned = d.owned := by
  unfold clearpteu at cleared
  split at cleared
  · cases cleared
  · next found =>
    cases cleared
    have moved := owned_setPte (d := d) (a := a) (by simp [found])
      ((d.pte a).map fun e => { e with u := false })
    have same : pteFrame ((d.pte a).map fun e => { e with u := false }) = pteFrame (d.pte a) := by
      cases d.pte a <;> rfl
    rw [same] at moved
    exact add_right_cancel moved

/-- The copy takes its pages from the free list; the page of a failed mapping is still in hand. -/
theorem copyLoop_balance {n i : Nat} {done : Bool} {left : Option Nat} (user : sz ≤ kernbase)
    (aligned : i % pgsize = 0) (copied : copyLoop src sz n m d i = .ok (done, left, d', m')) :
    balance m' d' + left.elim 0 singleton = balance m d := by
  induction n generalizing m d i with
  | zero => cases copied
  | succ n ih =>
    have next : (i + pgsize) % 2 ^ 32 % pgsize = 0 := by
      simp only [pgsize] at *
      omega
    unfold copyLoop at copied
    split at copied
    · next inside =>
      split at copied
      · exact ih next copied
      · next e present =>
        split at copied
        · cases copied
          exact add_zero _
        · next f m₁ taken =>
          obtain ⟨⟨mapped, d₁, m₂⟩, page, rest⟩ := bind_ok.mp copied
          have moved := mappages_page_balance aligned (inside.trans_le user) page
          have start : balance (m₁.fill f (m₁.page e.frame)) d + {f} = balance m d :=
            kalloc_balance taken _
          dsimp only at rest
          split at rest
          · next ready =>
            rw [ready, if_pos rfl, start] at moved
            rw [ih next rest, moved]
          · next failed =>
            cases rest
            rw [if_neg failed, add_zero] at moved
            rw [← start, moved]
            rfl
    · cases copied
      exact add_zero _

theorem copyLoop_done {n i : Nat} {left : Option Nat}
    (copied : copyLoop src sz n m d i = .ok (true, left, d', m')) : left = none := by
  induction n generalizing m d i with
  | zero => cases copied
  | succ n ih =>
    unfold copyLoop at copied
    split at copied
    · split at copied
      · exact ih copied
      · split at copied
        · cases copied
        · obtain ⟨_, _, rest⟩ := bind_ok.mp copied
          dsimp only at rest
          split at rest
          · exact ih rest
          · cases rest
    · cases copied
      rfl

theorem copyuvm_balance {result : Option Pgdir} (user : sz ≤ kernbase)
    (copied : copyuvm k m src sz = .ok (result, m')) :
    (m'.freelist : Multiset Nat) + made result = m.freelist := by
  obtain ⟨⟨space, m₁⟩, setup, rest⟩ := bind_ok.mp copied
  have start := setupkvm_balance setup
  cases space with
  | none =>
    cases rest
    exact start
  | some d =>
    obtain ⟨⟨done, left, d', m₂⟩, loop, rest⟩ := bind_ok.mp rest
    have moved := copyLoop_balance user (Nat.zero_mod _) loop
    rw [show balance m₁ d = m.freelist from start] at moved
    cases done with
    | true =>
      cases rest
      obtain rfl := copyLoop_done loop
      rw [← moved]
      exact (add_zero _).symm
    | false =>
      cases left with
      | none =>
        obtain ⟨m₃, freed, rest⟩ := bind_ok.mp rest
        cases rest
        rw [made, add_zero, freevm_balance freed, ← moved]
        exact (add_zero _).symm
      | some f =>
        obtain ⟨m₃, returned, rest⟩ := bind_ok.mp rest
        obtain ⟨m₄, freed, rest⟩ := bind_ok.mp rest
        cases rest
        rw [made, add_zero, freevm_balance freed, ← moved, balance, balance,
          kfree_freelist returned, ← Multiset.cons_coe,
          Multiset.cons_add, ← Multiset.singleton_add, add_comm]
        rfl

theorem loadLoop_freelist {addr offset n i : Nat} {file : File} {done : Bool}
    (loaded : loadLoop d addr file offset sz n m i = .ok (done, m')) :
    m'.freelist = m.freelist := by
  induction n generalizing m i with
  | zero =>
    cases loaded
    rfl
  | succ n ih =>
    unfold loadLoop at loaded
    split at loaded
    · cases loaded
    · dsimp only at loaded
      split at loaded
      · have kept := ih loaded
        exact kept
      · cases loaded
        rfl

theorem loaduvm_freelist {addr offset : Nat} {file : File} {done : Bool}
    (loaded : loaduvm m d addr file offset sz = .ok (done, m')) : m'.freelist = m.freelist := by
  unfold loaduvm at loaded
  split at loaded
  · cases loaded
  · exact loadLoop_freelist loaded

theorem copyout_freelist {va : Nat} {buf : List UInt8} {done : Bool}
    (copied : copyout m d va buf = .ok (done, m')) : m'.freelist = m.freelist := by
  unfold copyout at copied
  generalize buf.length = left at copied
  induction left generalizing m va buf with
  | zero =>
    cases copied
    rfl
  | succ left ih =>
    unfold copyoutLoop at copied
    split at copied
    · cases copied
      rfl
    · obtain ⟨page, _, rest⟩ := bind_ok.mp copied
      cases page with
      | none =>
        cases rest
        rfl
      | some f =>
        have kept := ih rest
        exact kept

theorem pushArgs_freelist {argc sp : Nat} {argv : List (List UInt8)}
    {result : Option (Nat × List Nat)} (pushed : pushArgs d argc argv m sp = .ok (result, m')) :
    m'.freelist = m.freelist := by
  induction argv generalizing m m' argc sp result with
  | nil =>
    cases pushed
    rfl
  | cons arg rest ih =>
    unfold pushArgs at pushed
    split at pushed
    · cases pushed
      rfl
    · obtain ⟨⟨copied, m₁⟩, first, others⟩ := bind_ok.mp pushed
      dsimp only at others
      split at others
      · obtain ⟨⟨top, m₂⟩, later, done⟩ := bind_ok.mp others
        have kept := (ih later).trans (copyout_freelist first)
        cases top <;> cases done <;> exact kept
      · cases others
        exact copyout_freelist first

theorem buildStack_freelist {argv : List (List UInt8)} {result : Option Nat}
    (built : buildStack m d sz argv = .ok (result, m')) : m'.freelist = m.freelist := by
  obtain ⟨⟨pushed, m₁⟩, args, rest⟩ := bind_ok.mp built
  have kept := pushArgs_freelist args
  cases pushed with
  | none =>
    cases rest
    exact kept
  | some top =>
    obtain ⟨⟨copied, m₂⟩, table, done⟩ := bind_ok.mp rest
    cases done
    exact (copyout_freelist table).trans kept

theorem loadSegments_balance {file : File} {n off : Nat} {result : Option Nat}
    (loaded : loadSegments k file n m d sz off = .ok (result, d', m')) :
    balance m' d' = balance m d := by
  have reading {m₁ m₂ : Mem} {d₁ : Pgdir} {addr offset size : Nat} {done : Bool}
      (load : loaduvm m₁ d₁ addr file offset size = .ok (done, m₂)) :
      balance m₂ d₁ = balance m₁ d₁ := by
    rw [balance, balance, loaduvm_freelist load]
  induction n generalizing m d sz off with
  | zero =>
    cases loaded
    rfl
  | succ n ih =>
    cases loadSegments_round loaded with
    | refused => rfl
    | skipped _ _ rest => exact ih rest
    | unplaced alloc => exact allocuvm_balance alloc
    | unread _ _ alloc _ load => rw [reading load, allocuvm_balance alloc]
    | loaded _ _ _ _ alloc _ _ load rest => rw [ih rest, reading load, allocuvm_balance alloc]

theorem finishExec_balance {p i : Image} {path : List UInt8} {entry : Nat}
    {argv : List (List UInt8)} {done : Bool}
    (finished : finishExec k m p d sz path entry argv = .ok (done, i, m')) :
    (m'.freelist : Multiset Nat) + i.pgdir.owned = balance m d + p.pgdir.owned := by
  obtain ⟨⟨size, d₁, m₁⟩, grown, rest⟩ := bind_ok.mp finished
  have kept := allocuvm_balance grown
  cases size with
  | zero =>
    obtain ⟨m₂, freed, rest⟩ := bind_ok.mp rest
    cases rest
    rw [freevm_balance freed, kept]
  | succ size =>
    obtain ⟨d₂, cleared, rest⟩ := bind_ok.mp rest
    obtain ⟨⟨stack, m₂⟩, built, rest⟩ := bind_ok.mp rest
    have same : balance m₂ d₂ = balance m d := by
      rw [← kept, balance, balance, buildStack_freelist built, clearpteu_owned cleared]
    cases stack with
    | none =>
      obtain ⟨m₃, freed, rest⟩ := bind_ok.mp rest
      cases rest
      rw [freevm_balance freed, same]
    | some sp =>
      obtain ⟨m₃, freed, rest⟩ := bind_ok.mp rest
      cases rest
      rw [freevm_balance freed, ← same, balance, balance, add_right_comm]

/-- A successful `exec` exchanges one address space for
another; a failed one gives back what it took. -/
theorem exec_balance {p i : Image} {path : List UInt8} {file : Option File}
    {argv : List (List UInt8)} {done : Bool}
    (result : exec k m p path file argv = .ok (done, i, m')) :
    balance m' i.pgdir = balance m p.pgdir := by
  unfold exec at result
  split at result
  · cases result
    rfl
  dsimp only at result
  split at result
  · cases result
    rfl
  split at result
  · cases result
    rfl
  obtain ⟨⟨space, m₁⟩, setup, rest⟩ := bind_ok.mp result
  have start := setupkvm_balance setup
  cases space with
  | none =>
    cases rest
    rw [made, add_zero] at start
    rw [balance, balance, start]
  | some d =>
    obtain ⟨⟨size, d₁, m₂⟩, loaded, rest⟩ := bind_ok.mp rest
    have kept : balance m₂ d₁ = m.freelist := (loadSegments_balance loaded).trans start
    cases size with
    | none =>
      obtain ⟨m₃, freed, rest⟩ := bind_ok.mp rest
      cases rest
      rw [balance, balance, freevm_balance freed, kept]
    | some sz =>
      have finished := finishExec_balance rest
      rw [kept] at finished
      exact finished

end Spaces

/-- The pages of a process; a slot that is not in use has none. -/
def Proc.owned (p : Proc) : Multiset Nat :=
  if p.state = .unused then 0 else p.kstack ::ₘ p.image.pgdir.owned

/-- All pages that are free or owned by a process. -/
def State.total (s : State) : Multiset Nat :=
  (s.mem.freelist : Multiset Nat) + ∑ p, (s.proc p).owned

section Processes
variable {k : Kernel} {s t : State} {p : Slot} {m : Mem} {i : Image}

theorem Proc.owned_used {q : Proc} (used : q.state ≠ .unused) :
    q.owned = q.kstack ::ₘ q.image.pgdir.owned := if_neg used

/-- A step that changes one process and the free list. -/
theorem State.total_setProc (q : Proc)
    (kept : (m.freelist : Multiset Nat) + q.owned = s.mem.freelist + (s.proc p).owned) :
    State.total { s.setProc p q with mem := m } = s.total := by
  have moved := sum_update Proc.owned s.proc p q
  simp only [State.total, State.setProc]
  ext f
  have here := congrArg (Multiset.count f) kept
  have there := congrArg (Multiset.count f) moved
  simp only [Multiset.count_add] at here there ⊢
  omega

theorem State.total_setImage (live : (s.proc p).state = .live)
    (kept : balance m i.pgdir = balance s.mem (s.proc p).image.pgdir) :
    (s.setImage p i m).total = s.total := by
  have used : (s.proc p).state ≠ .unused := by
    rw [live]
    nofun
  refine State.total_setProc _ ?_
  rw [Proc.owned_used used, Proc.owned_used (by exact used), Multiset.add_cons, Multiset.add_cons,
    Multiset.cons_inj_right]
  exact kept

theorem State.total_kill (s : State) (p : Slot) : (s.kill p).total = s.total :=
  State.total_setProc _ rfl

theorem reservarPagina_balance {d d' : Pgdir} {va : Nat} {m m' : Mem} {done : Bool}
    (user : pgrounddown va < kernbase) (reserved : reservarPagina k m d va = .ok (done, d', m')) :
    balance m' d' = balance m d := by
  unfold reservarPagina at reserved
  split at reserved
  · cases reserved
    rfl
  · next f m₁ taken =>
    obtain ⟨⟨mapped, d₁, m₂⟩, page, rest⟩ := bind_ok.mp reserved
    have aligned : pgrounddown va % pgsize = 0 := Nat.mul_mod_left _ _
    have moved := mappages_page_balance aligned user page
    have start : balance (m₁.fill f .zero) d + {f} = balance m d := kalloc_balance taken _
    dsimp only at rest
    split at rest
    · next ready =>
      cases rest
      rw [moved, if_pos ready, start]
    · next failed =>
      obtain ⟨m₃, returned, rest⟩ := bind_ok.mp rest
      cases rest
      rw [if_neg failed, add_zero] at moved
      rw [← start, ← moved, balance, balance, kfree_freelist returned, ← Multiset.cons_coe,
        Multiset.cons_add, ← Multiset.singleton_add, add_comm]

theorem pageFault_total {va : Nat} (live : (s.proc p).state = .live)
    (done : s.pageFault k p va = .ok t) : t.total = s.total := by
  unfold State.pageFault at done
  dsimp only at done
  split at done
  · cases done
    exact s.total_kill p
  split at done
  · cases done
    exact s.total_kill p
  next user =>
  split at done
  · cases done
    exact s.total_kill p
  obtain ⟨⟨served, d, m⟩, reserved, rest⟩ := bind_ok.mp done
  have kept := State.total_setImage (i := { (s.proc p).image with pgdir := d }) live
    (reservarPagina_balance (not_le.mp user) reserved)
  cases rest
  dsimp only
  split
  · exact kept
  · rw [State.total_kill, kept]

theorem sysSbrk_balance {p i : Image} {m m' : Mem} {n v : Int} (user : p.sz ≤ kernbase)
    (done : sysSbrk k m p n = .ok (v, i, m')) : balance m' i.pgdir = balance m p.pgdir := by
  unfold sysSbrk at done
  split at done
  · next shrinks =>
    obtain ⟨⟨grown, q, m₁⟩, moved, rest⟩ := bind_ok.mp done
    cases rest
    unfold growproc at moved
    rw [if_neg (not_lt.mpr shrinks.le), if_pos shrinks] at moved
    obtain ⟨⟨sz, d, m₂⟩, freed, rest⟩ := bind_ok.mp moved
    have kept := deallocuvm_balance user freed
    dsimp only at rest
    split at rest
    · cases rest
      exact kept
    · cases rest
      exact kept
  · cases done
    rfl

theorem fork_total (user : (s.proc p).image.sz ≤ kernbase) (done : s.fork k p = .ok t) :
    t.total = s.total := by
  unfold State.fork at done
  split at done
  · cases done
    rfl
  · next np found =>
    have unused : (s.proc np).state = .unused := by simpa using List.find?_some found
    split at done
    · cases done
      rfl
    · next f m₁ taken =>
      obtain ⟨⟨copy, m₂⟩, copied, rest⟩ := bind_ok.mp done
      have moved := copyuvm_balance user copied
      cases copy with
      | none =>
        obtain ⟨m₃, returned, rest⟩ := bind_ok.mp rest
        cases rest
        rw [made, add_zero] at moved
        simp only [State.total]
        rw [kfree_freelist returned,
          kalloc_freelist taken, ← Multiset.cons_coe, ← Multiset.cons_coe, moved]
      | some d =>
        cases rest
        refine State.total_setProc _ ?_
        rw [Proc.owned_used (by nofun), Proc.owned, if_pos unused, add_zero,
          kalloc_freelist taken, ← Multiset.cons_coe, ← moved, Multiset.add_cons]
        rfl

theorem reap_total (zombie : (s.proc p).state = .zombie) (done : s.reap k p = .ok t) :
    t.total = s.total := by
  obtain ⟨m₁, returned, rest⟩ := bind_ok.mp done
  obtain ⟨m₂, freed, rest⟩ := bind_ok.mp rest
  cases rest
  have used : (s.proc p).state ≠ .unused := by
    rw [zombie]
    nofun
  refine State.total_setProc _ ?_
  rw [Proc.owned_used used, Proc.owned, if_pos rfl, add_zero, freevm_balance freed, balance,
    kfree_freelist returned, ← Multiset.cons_coe, Multiset.add_cons, Multiset.cons_add]

/-- No operation on a process of the user half loses a page or makes one up. -/
theorem step_total {a : Action}
    (user : ∀ p, (s.proc p).state = .live → (s.proc p).image.sz ≤ kernbase)
    (taken : s.step k a = some t) : t.total = s.total := by
  obtain ⟨able, done⟩ := step_ok.mp taken
  cases a with
  | fork p => exact fork_total (user p (by simpa [State.enabled] using able)) done
  | exec p path file argv =>
    obtain ⟨⟨_, i, m⟩, result, rest⟩ := bind_ok.mp done
    cases rest
    exact State.total_setImage (by simpa [State.enabled] using able) (exec_balance result)
  | sbrk p n =>
    obtain ⟨⟨_, i, m⟩, result, rest⟩ := bind_ok.mp done
    cases rest
    have live : (s.proc p).state = .live := by
      simp only [State.enabled, decide_eq_true_eq] at able
      exact able.1
    exact State.total_setImage live (sysSbrk_balance (user p live) result)
  | fault p va kernel =>
    simp only [State.enabled, decide_eq_true_eq] at able
    exact pageFault_total able.1 done
  | exit p =>
    cases done
    have live : (s.proc p).state = .live := by simpa [State.enabled] using able
    refine State.total_setProc (m := s.mem) _ ?_
    rw [Proc.owned_used (by rintro ⟨⟩), Proc.owned_used (by rw [live]; rintro ⟨⟩)]
  | wait p => exact reap_total (by simpa [State.enabled] using able) done

/-- The slot that an operation is about, and the state it leaves the slot in. -/
def Action.slot : Action → Slot
  | .fork p | .exec p _ _ _ | .sbrk p _ | .fault p _ _ | .exit p | .wait p => p

def Action.after : Action → ProcState
  | .fork _ | .exec _ _ _ _ | .sbrk _ _ | .fault _ _ _ => .live
  | .exit _ => .zombie
  | .wait _ => .unused

/-- A `fork` fills the first unused slot or leaves the table alone. -/
theorem fork_proc (done : s.fork k p = .ok t) :
    t.proc = s.proc ∨ ∃ np child, s.unusedSlot = some np ∧ child.state = .live ∧
      t.proc = Function.update s.proc np child := by
  unfold State.fork at done
  split at done
  · cases done
    exact .inl rfl
  · next np found =>
    split at done
    · cases done
      exact .inl rfl
    · obtain ⟨⟨copy, m₂⟩, _, rest⟩ := bind_ok.mp done
      cases copy with
      | none =>
        obtain ⟨_, _, rest⟩ := bind_ok.mp rest
        cases rest
        exact .inl rfl
      | some d =>
        cases rest
        exact .inr ⟨np, _, found, rfl, rfl⟩

theorem pageFault_proc {va : Nat} (done : s.pageFault k p va = .ok t) :
    ∃ x : Proc, t.proc = Function.update s.proc p x ∧ x.state = (s.proc p).state := by
  unfold State.pageFault at done
  dsimp only at done
  split at done
  · cases done
    exact ⟨_, rfl, rfl⟩
  split at done
  · cases done
    exact ⟨_, rfl, rfl⟩
  split at done
  · cases done
    exact ⟨_, rfl, rfl⟩
  obtain ⟨⟨served, d, m⟩, _, rest⟩ := bind_ok.mp done
  cases rest
  dsimp only
  split
  · exact ⟨_, rfl, rfl⟩
  · refine ⟨_, Function.update_idem .., ?_⟩
    simp only [State.setImage, State.setProc, Function.update_self]

/-- Any other operation changes only its own slot. -/
theorem step_slot {a : Action} (taken : s.step k a = some t) (other : ∀ p, a ≠ .fork p) :
    ∃ x : Proc, t.proc = Function.update s.proc a.slot x ∧ x.state = a.after := by
  obtain ⟨able, done⟩ := step_ok.mp taken
  cases a with
  | fork p => exact absurd rfl (other p)
  | exec p path file argv =>
    obtain ⟨_, _, rest⟩ := bind_ok.mp done
    cases rest
    have live : (s.proc p).state = .live := by simpa [State.enabled] using able
    exact ⟨_, rfl, live⟩
  | sbrk p n =>
    obtain ⟨_, _, rest⟩ := bind_ok.mp done
    cases rest
    simp only [State.enabled, decide_eq_true_eq] at able
    exact ⟨_, rfl, able.1⟩
  | fault p va kernel =>
    obtain ⟨x, proc, state⟩ := pageFault_proc done
    simp only [State.enabled, decide_eq_true_eq] at able
    exact ⟨x, proc, state.trans able.1⟩
  | exit p =>
    cases done
    exact ⟨_, rfl, rfl⟩
  | wait p =>
    obtain ⟨_, _, rest⟩ := bind_ok.mp done
    obtain ⟨_, _, rest⟩ := bind_ok.mp rest
    cases rest
    exact ⟨_, rfl, rfl⟩

end Processes

/-- With memory for it, the first page of `initcode` is mapped. -/
theorem inituvm_balance {k : Kernel} {m m' : Mem} {d d' : Pgdir} {code : List UInt8} {n : Nat}
    (room : Room k m d (n + 1)) (empty : ∀ va < pgsize, d.pte va = none)
    (done : inituvm m d code = .ok (d', m')) : balance m' d' = balance m d := by
  unfold inituvm at done
  split at done
  · cases done
  obtain ⟨f, m₁, taken, left, _⟩ := room.kalloc
  rw [taken] at done
  obtain ⟨⟨mapped, d₁, m₂⟩, page, rest⟩ := bind_ok.mp done
  cases rest
  obtain ⟨_, _, filled, _⟩ := (left.fill f .zero).mappages (f := f) (w := true) (u := true)
    (Nat.zero_mod _)
    (by decide) (Nat.mod_self _) (by decide) fun va _ below => empty va (by omega)
  cases page.symm.trans filled
  have moved := mappages_page_balance (Nat.zero_mod _) (by decide) page
  rw [if_pos rfl] at moved
  have start : balance (m₁.fill f .zero) d + {f} = balance m d := kalloc_balance taken _
  exact moved.trans start

/-- The first process gets all that `userinit` takes. -/
theorem userinit_total {k : Kernel} {m : Mem} {code : List UInt8} {s : State} {n : Nat}
    (room : Room k m ⟨0, fun _ => none⟩ (n + 3)) (booted : userinit k m code = .ok s) :
    s.total = m.freelist := by
  obtain ⟨f, m₁, taken, left, _⟩ := room.kalloc
  unfold userinit at booted
  rw [taken] at booted
  obtain ⟨⟨space, m₂⟩, setup, rest⟩ := bind_ok.mp booted
  obtain ⟨d₁, m₂', setup', left⟩ := left.setupkvm
  cases setup.symm.trans setup'
  obtain ⟨⟨d, m₃⟩, loaded, rest⟩ := bind_ok.mp rest
  cases rest
  have kept :=
    inituvm_balance left (fun va below => setupkvm_low setup (below.trans (by decide))) loaded
  have start := setupkvm_balance setup
  change balance m₂ d₁ = _ at start
  have unused : emptyProc.owned = 0 := if_pos rfl
  have nobody : State.total ⟨m, fun _ => emptyProc⟩ = m.freelist := by
    rw [State.total, Finset.sum_eq_zero fun _ _ => unused, add_zero]
  rw [← nobody]
  refine State.total_setProc (s := ⟨m, fun _ => emptyProc⟩) _ ?_
  rw [Proc.owned_used (by nofun), unused, add_zero, kalloc_freelist taken,
    Multiset.add_cons, ← Multiset.cons_coe, ← start, ← kept]
  rfl

end Aso.Xv6.Vm
