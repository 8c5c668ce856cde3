import Aso.Xv6.Vm.Owned

/-! Which pages vm.c and exec.c write to. An operation on an address space writes to
free pages and to pages that the address space owns; all others keep their contents. -/
namespace Aso.Xv6.Vm
open Checked

/-- Pages that are neither free nor owned by `d` keep their contents. -/
def Untouched (m : Mem) (d : Pgdir) (m' : Mem) : Prop :=
  ∀ f, (balance m d).count f = 0 → m'.page f = m.page f

section Parts
variable {k : Kernel} {m m' m₁ m₂ : Mem} {d d' d₁ : Pgdir} {a f : Nat}

theorem Untouched.of_page (same : m'.page = m.page) : Untouched m d m' := fun f _ => congrFun same f

theorem Untouched.trans (first : Untouched m d m₁) (kept : balance m₁ d₁ = balance m d)
    (second : Untouched m₁ d₁ m₂) : Untouched m d m₂ := by
  intro f outside
  rw [second f (by rwa [kept]), first f outside]

theorem Untouched.fill (inside : 0 < (balance m d).count f) (data : Page) :
    Untouched m d (m.fill f data) := by
  intro g outside
  have other : g ≠ f := by
    rintro rfl
    omega
  exact Function.update_of_ne other ..

theorem count_balance_of_owned (inside : 0 < d.owned.count f) : 0 < (balance m d).count f := by
  rw [balance, Multiset.count_add]
  omega

/-- A page mapped below the kernel is owned. -/
theorem count_owned {va : Nat} {e : Pte} (present : d.pte va = some e)
    (user : pdx va < pdx kernbase) : 0 < d.owned.count e.frame := by
  obtain ⟨t, found, entry⟩ := Option.bind_eq_some_iff.mp present
  rw [Multiset.count_pos, Pgdir.owned, Multiset.mem_cons, Multiset.mem_sum]
  refine .inr ⟨pdx va, Finset.mem_range.mpr (pdx_lt va), ?_⟩
  rw [found, tableFrames, if_pos user, Multiset.mem_cons, Multiset.mem_sum]
  refine .inr ⟨ptx va, Finset.mem_range.mpr (ptx_lt va), ?_⟩
  rw [entry, pteFrame]
  exact Multiset.mem_singleton_self _

/-- Where no page is owned twice, user addresses with one page behind them are on one page. -/
theorem samePage_of_frame {va va' : Nat} {e e' : Pte} (distinct : ∀ f, d.owned.count f ≤ 1)
    (user : va < kernbase) (user' : va' < kernbase) (present : d.pte va = some e)
    (present' : d.pte va' = some e') (same : e.frame = e'.frame) : SamePage va va' := by
  by_contra other
  have there := Pgdir.table_of_pte present
  -- without the first entry the page is still owned, by the second one
  have moved := owned_setPte there none
  rw [if_pos (pdx_user user), if_pos (pdx_user user), present, pteFrame, pteFrame, add_zero]
    at moved
  have kept : (d.setPte va none).pte va' = some e' := by
    rw [Pgdir.pte_setPte there, if_neg other, present']
  have once := distinct e.frame
  have again := count_owned kept (pdx_user user')
  rw [← moved, Multiset.count_add, Multiset.count_singleton_self, same] at once
  omega

theorem count_owned_table {i : Nat} {t : Pgtab} (found : d.table i = some t)
    (bound : i < npdentries) : 0 < d.owned.count t.frame := by
  rw [Multiset.count_pos, Pgdir.owned, Multiset.mem_cons, Multiset.mem_sum]
  refine .inr ⟨i, Finset.mem_range.mpr bound, ?_⟩
  rw [found, tableFrames]
  exact Multiset.mem_cons_self _ _

theorem kalloc_page (taken : m.kalloc = some (f, m')) : m'.page = m.page := by
  unfold Mem.kalloc at taken
  split at taken
  · cases taken
  · cases taken
    rfl

theorem kfree_page (freed : m.kfree k f = .ok m') :
    m' = { m.fill f (fun _ => 1) with freelist := f :: m.freelist } := by
  unfold Mem.kfree at freed
  split at freed
  · cases freed
  · cases freed
    rfl

theorem kfree_untouched (freed : m.kfree k f = .ok m') (inside : 0 < (balance m d).count f) :
    Untouched m d m' := by
  rw [kfree_page freed]
  exact Untouched.fill inside fun _ => 1

theorem walkpgdir_page (walked : walkpgdir m d a = some (d', m')) : m'.page = m.page := by
  unfold walkpgdir at walked
  split at walked
  · cases walked
    rfl
  · split at walked
    · cases walked
    · next taken =>
      cases walked
      exact kalloc_page taken

theorem mapLoop_keeps {n : Nat} {w u done : Bool}
    (mapped : mapLoop n m d a f w u = .ok (done, d', m')) : m'.page = m.page := by
  induction n generalizing m d a f with
  | zero =>
    cases mapped
    rfl
  | succ n ih =>
    unfold mapLoop at mapped
    split at mapped
    · cases mapped
      rfl
    · next walked =>
      split at mapped
      · cases mapped
      · rw [ih mapped, walkpgdir_page walked]

theorem mapKernel_keeps {ranges : List (Nat × Nat × Nat × Bool)} {done : Bool}
    (mapped : mapKernel m d ranges = .ok (done, d', m')) : m'.page = m.page := by
  induction ranges generalizing m d with
  | nil =>
    cases mapped
    rfl
  | cons range rest ih =>
    obtain ⟨virt, start, stop, w⟩ := range
    obtain ⟨⟨ready, d₁, m₁⟩, first, others⟩ := bind_ok.mp mapped
    dsimp only at others
    split at others
    · exact (ih others).trans (mapLoop_keeps first)
    · cases others
      exact mapLoop_keeps first

end Parts

section Freeing
variable {k : Kernel} {m m' : Mem} {d d' : Pgdir} {a oldsz newsz sz : Nat}

theorem deallocLoop_untouched {n : Nat} (user : oldsz ≤ kernbase)
    (freed : deallocLoop k n m d a oldsz = .ok (d', m')) : Untouched m d m' := by
  fun_induction deallocLoop k n m d a oldsz with
  | case1 => cases freed
  | case2 _ _ _ _ _ _ _ ih => exact ih user freed
  | case3 _ _ _ _ _ _ _ _ _ ih => exact ih user freed
  | case4 => cases freed
  | case5 _ m d a _ inside t found e present _ ih =>
    obtain ⟨m₁, returned, rest⟩ := bind_ok.mp freed
    have low := inside.trans_le user
    have first : Untouched m d m₁ :=
      kfree_untouched returned (count_balance_of_owned (count_owned present (pdx_user low)))
    exact first.trans (freePage_balance (by simp [found]) low present returned) (ih m₁ user rest)
  | case6 =>
    cases freed
    exact .of_page rfl

theorem deallocuvm_untouched (user : oldsz ≤ kernbase)
    (freed : deallocuvm k m d oldsz newsz = .ok (sz, d', m')) : Untouched m d m' := by
  unfold deallocuvm at freed
  split at freed
  · cases freed
    exact .of_page rfl
  · obtain ⟨_, loop, rest⟩ := bind_ok.mp freed
    cases rest
    exact deallocLoop_untouched user loop

theorem freeTables_page {n i f : Nat} (bound : i + n ≤ npdentries) (outside : d.owned.count f = 0)
    (freed : freeTables k n m d i = .ok m') : m'.page f = m.page f := by
  induction n generalizing m i with
  | zero =>
    cases freed
    rfl
  | succ n ih =>
    unfold freeTables at freed
    split at freed
    · exact ih (by omega) freed
    · next t found =>
      obtain ⟨m₁, returned, rest⟩ := bind_ok.mp freed
      have other : f ≠ t.frame := by
        rintro rfl
        have := count_owned_table found (by omega)
        omega
      rw [ih (by omega) rest, kfree_page returned]
      exact Function.update_of_ne other ..

theorem freevm_untouched (freed : freevm k m d = .ok m') : Untouched m d m' := by
  obtain ⟨⟨_, d₁, m₁⟩, emptied, rest⟩ := bind_ok.mp freed
  obtain ⟨m₂, tables, rest⟩ := bind_ok.mp rest
  intro f outside
  have outside₁ : d₁.owned.count f = 0 := by
    rw [← deallocuvm_balance le_rfl emptied, balance, Multiset.count_add] at outside
    omega
  have other : f ≠ d₁.frame := by
    rintro rfl
    rw [Pgdir.owned, Multiset.count_cons_self] at outside₁
    omega
  rw [kfree_page rest]
  refine (Function.update_of_ne other ..).trans ?_
  rw [freeTables_page (by decide) outside₁ tables, deallocuvm_untouched le_rfl emptied f outside]

end Freeing

section Spaces
variable {k : Kernel} {m m' : Mem} {d d' : Pgdir} {a f oldsz newsz sz : Nat}

theorem setupkvm_page {result : Option Pgdir} (used : f ∉ m.freelist)
    (setup : setupkvm k m = .ok (result, m')) : m'.page f = m.page f := by
  unfold setupkvm at setup
  split at setup
  · cases setup
    rfl
  · next g m₁ taken =>
    split at setup
    · cases setup
    · obtain ⟨⟨mapped, d₁, m₂⟩, filled, rest⟩ := bind_ok.mp setup
      have same : m₂.page f = m.page f := by rw [mapKernel_keeps filled, kalloc_page taken]
      dsimp only at rest
      split at rest
      · cases rest
        exact same
      · obtain ⟨m₃, freed, rest⟩ := bind_ok.mp rest
        cases rest
        rw [freevm_untouched freed f ?_, same]
        rw [mapKernel_balance le_rfl (kmap_ascending k) filled, emptySpace_balance taken,
          Multiset.coe_count]
        exact List.count_eq_zero.mpr used

/-- What `kalloc` hands out may be written to. -/
theorem kalloc_untouched {m₁ : Mem} (taken : m.kalloc = some (f, m₁)) (data : Page) :
    Untouched m d (m₁.fill f data) := by
  intro g outside
  have other : g ≠ f := by
    rintro rfl
    rw [balance, kalloc_freelist taken, ← Multiset.cons_coe, Multiset.count_add,
      Multiset.count_cons_self] at outside
    omega
  rw [← kalloc_page taken]
  exact Function.update_of_ne other ..

theorem allocLoop_untouched {n : Nat} {done : Bool} (aligned : a % pgsize = 0)
    (user : newsz ≤ kernbase) (inside : n = 0 ∨ a + (n - 1) * pgsize < newsz)
    (grown : allocLoop k oldsz newsz n m d a = .ok (done, d', m')) : Untouched m d m' := by
  induction n generalizing m d a with
  | zero =>
    cases grown
    exact .of_page rfl
  | succ n ih =>
    have last := inside.resolve_left n.succ_ne_zero
    have low : a < kernbase := by
      rw [Nat.add_sub_cancel] at last
      omega
    unfold allocLoop at grown
    split at grown
    · obtain ⟨_, freed, rest⟩ := bind_ok.mp grown
      cases rest
      exact deallocuvm_untouched user freed
    · next f m₁ taken =>
      obtain ⟨⟨mapped, d₁, m₂⟩, page, rest⟩ := bind_ok.mp grown
      have moved := mappages_page_balance aligned low page
      have start : balance (m₁.fill f .zero) d + {f} = balance m d := kalloc_balance taken _
      have first : Untouched m d m₂ := by
        intro g outside
        rw [mapLoop_keeps page]
        exact kalloc_untouched taken .zero g outside
      dsimp only at rest
      split at rest
      · next ready =>
        rw [ready, if_pos rfl, start] at moved
        refine first.trans moved (ih ?_ ?_ rest)
        · exact (Nat.add_mod_right a pgsize).trans aligned
        · simp only [pgsize] at *
          omega
      · next failed =>
        obtain ⟨⟨_, d₂, m₃⟩, freed, rest⟩ := bind_ok.mp rest
        obtain ⟨m₄, returned, rest⟩ := bind_ok.mp rest
        cases rest
        rw [if_neg failed, add_zero] at moved
        intro g outside
        rw [← start, Multiset.count_add, ← moved] at outside
        have other : g ≠ f := by
          rintro rfl
          rw [Multiset.count_singleton_self] at outside
          omega
        rw [kfree_page returned]
        refine (Function.update_of_ne other ..).trans ?_
        rw [deallocuvm_untouched user freed g (by omega)]
        refine first g ?_
        rw [← start, Multiset.count_add, ← moved]
        exact outside

theorem allocuvm_untouched (grown : allocuvm k m d oldsz newsz = .ok (sz, d', m')) :
    Untouched m d m' := by
  unfold allocuvm at grown
  split at grown
  · cases grown
    exact .of_page rfl
  · next user =>
    split at grown
    · cases grown
      exact .of_page rfl
    · next grows =>
      obtain ⟨_, loop, rest⟩ := bind_ok.mp grown
      cases rest
      refine allocLoop_untouched (pgroundup_mod _) (not_le.mp user).le ?_ loop
      simp only [pgsize] at *
      omega

end Spaces
end Aso.Xv6.Vm
