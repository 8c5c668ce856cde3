import Aso.Xv6.Vm.Segments
import Aso.Xv6.Vm.Shrink
import Mathlib.Algebra.Order.BigOperators.Group.Finset

/-! How much memory an image needs: a page for the directory, one for each page table of
the kernel's ranges and of the user pages, and the user pages. With that much free,
`exec` loads what the file allows; and what it has loaded has cost that much. -/
namespace Aso.Xv6.Vm
open Checked

def pagesTo (b : Nat) : Nat := (b + (pgsize - 1)) / pgsize

/-- The kernel's half of every address space uses the page table with index `i`. -/
def Kernel.covers (k : Kernel) (i : Nat) : Bool :=
  (kmap k).any fun r => r.1 < (i + 1) * 2 ^ 22 ∧
    i * 2 ^ 22 < r.1 + (r.2.2.1 + 2 ^ 32 - r.2.1) % 2 ^ 32

/-- The page tables of an image that ends at `b`. -/
def Kernel.tablesFor (k : Kernel) (b i : Nat) : Bool := i * 2 ^ 22 < b || k.covers i

/-- The pages that an image that ends at `b` takes. -/
def Kernel.need (k : Kernel) (b : Nat) : Nat :=
  1 + (Pgdir.mk 0 fun _ => none).lacks (k.tablesFor b) + pagesTo b

section Enough
variable {needed : Nat → Bool} {k : Kernel} {m m' : Mem} {d d' : Pgdir} {file : File}
  {a b c n oldsz newsz sz : Nat}

theorem tablesFor_kernel {r : Nat × Nat × Nat × Bool} {va : Nat} (member : r ∈ kmap k)
    (low : r.1 ≤ va) (high : va < r.1 + (r.2.2.1 + 2 ^ 32 - r.2.1) % 2 ^ 32) :
    k.tablesFor b (pdx va) = true := by
  have fits := ((kmap_ascending k).bounds member).2
  rw [Kernel.tablesFor, Bool.or_eq_true]
  refine .inr (List.any_eq_true.mpr ⟨r, member, decide_eq_true ?_⟩)
  simp only [pdx]
  omega

theorem tablesFor_user {va : Nat} (below : pgrounddown va < b) : k.tablesFor b (pdx va) = true := by
  rw [Kernel.tablesFor, Bool.or_eq_true]
  have table : pdx va * 2 ^ 22 ≤ pgrounddown va := by
    simp only [pdx, pgrounddown, pgsize]
    omega
  exact .inl (decide_eq_true (table.trans_lt below))

/-- `allocuvm` succeeds with pages for what it maps. -/
theorem Spare.allocLoop (spare : Spare needed k m d (n + c)) (space : Space d a)
    (aligned : a % pgsize = 0) (user : a + c * pgsize ≤ kernbase)
    (used : ∀ va, a ≤ va → va < a + c * pgsize → needed (pdx va) = true) :
    ∃ d' m', allocLoop k oldsz newsz c m d a = .ok (true, d', m') ∧ Spare needed k m' d' n := by
  induction c generalizing m d a with
  | zero => exact ⟨d, m, rfl, spare⟩
  | succ c ih =>
    have more : a + (c + 1) * pgsize = a + pgsize + c * pgsize := by rw [Nat.succ_mul]; omega
    rw [more] at user used
    obtain ⟨f, m₁, taken, left, -⟩ := spare.kalloc
    have filled : Spare needed k (m₁.fill f .zero) d (n + c) := ⟨left.enough, left.valid⟩
    have absent : ∀ va, a ≤ va → va < a + pgsize → d.pte va = none := by
      intro va low high
      rw [← Option.not_isSome_iff_eq_none, space.filled va (by omega)]
      simp only [pgrounddown, pgsize] at *
      omega
    obtain ⟨d₁, m₂, mapped, left⟩ :=
      filled.mappages (f := f) (w := true) (u := true) aligned (by decide) (Nat.mod_self _)
      (by simp only [kernbase] at user; omega) (fun va low high => used va low (by omega)) absent
    obtain ⟨d', m', grown, left⟩ := ih left (mappages_space space aligned (by omega) mapped)
      ((Nat.add_mod_right a pgsize).trans aligned) user fun va low high => used va (by omega) high
    refine ⟨d', m', ?_, left⟩
    rw [Vm.allocLoop, taken]
    exact bind_ok.mpr ⟨_, mapped, grown⟩

theorem Spare.allocuvm
    (spare : Spare needed k m d (n + (pagesTo (max oldsz newsz) - pagesTo oldsz)))
    (space : Space d oldsz) (below : oldsz < kernbase) (user : newsz < kernbase)
    (used : ∀ va < kernbase, pgrounddown va < newsz → needed (pdx va) = true) :
    ∃ d' m', allocuvm k m d oldsz newsz = .ok (max oldsz newsz, d', m') ∧
      Spare needed k m' d' n := by
  unfold Vm.allocuvm
  rw [if_neg (not_le.mpr user)]
  by_cases shrinks : newsz < oldsz
  · rw [if_pos shrinks, max_eq_left shrinks.le]
    rw [max_eq_left shrinks.le, Nat.sub_self, Nat.add_zero] at spare
    exact ⟨d, m, rfl, spare⟩
  · rw [if_neg shrinks, max_eq_right (not_lt.mp shrinks)]
    rw [max_eq_right (not_lt.mp shrinks)] at spare
    have aligned := pgroundup_mod oldsz
    have count :
        (newsz - pgroundup oldsz + (pgsize - 1)) / pgsize = pagesTo newsz - pagesTo oldsz := by
      simp only [pagesTo, pgroundup, pgrounddown, pgsize, kernbase] at *
      omega
    have start : Space d (pgroundup oldsz) := by
      refine space.resize fun page aligned => ?_
      simp only [pgroundup, pgrounddown, pgsize, kernbase] at *
      omega
    have last : pgroundup oldsz + (pagesTo newsz - pagesTo oldsz) * pgsize ≤ kernbase := by
      have := (pgroundup_le below).2
      rw [← count]
      simp only [pgsize, kernbase] at *
      omega
    have grows :
        ∃ d' m', Vm.allocLoop k oldsz newsz (pagesTo newsz - pagesTo oldsz) m d (pgroundup oldsz) =
        .ok (true, d', m') ∧ Spare needed k m' d' n := by
      refine spare.allocLoop start aligned last fun va low high => used va (high.trans_le last) ?_
      rw [← count] at high
      simp only [pgrounddown, pgsize] at *
      omega
    obtain ⟨d', m', grown, left⟩ := grows
    refine ⟨d', m', ?_, left⟩
    dsimp only
    rw [count]
    exact bind_ok.mpr ⟨_, grown, rfl⟩

theorem segmentsEnd_ge {off e : Nat} (below : sz < kernbase)
    (ends : segmentsEnd file n sz off = some e) : sz ≤ e ∧ e < kernbase := by
  induction n generalizing sz off with
  | zero =>
    cases ends
    exact ⟨le_rfl, below⟩
  | succ n ih =>
    unfold segmentsEnd at ends
    dsimp only at ends
    split at ends
    · cases ends
    split at ends
    · exact ih below ends
    split at ends
    · next sound =>
      obtain ⟨later, user⟩ := ih (max_lt below sound.2.2.1) ends
      exact ⟨(le_max_left _ _).trans later, user⟩
    · cases ends

theorem pagesTo_mono (le : a ≤ b) : pagesTo a ≤ pagesTo b :=
  Nat.div_le_div_right (Nat.add_le_add_right le _)

/-- With pages for the whole image, the segments are loaded. -/
theorem Spare.loadSegments {off e : Nat} (spare : Spare needed k m d (c + (pagesTo e - pagesTo sz)))
    (space : Space d sz) (below : sz < kernbase)
    (used : ∀ va < kernbase, pgrounddown va < e → needed (pdx va) = true)
    (ends : segmentsEnd file n sz off = some e) :
    ∃ d' m', loadSegments k file n m d sz off = .ok (some e, d', m') ∧ Spare needed k m' d' c := by
  induction n generalizing m d sz off with
  | zero =>
    cases ends
    rw [Nat.sub_self, Nat.add_zero] at spare
    exact ⟨d, m, rfl, spare⟩
  | succ n ih =>
    unfold segmentsEnd at ends
    unfold Vm.loadSegments
    dsimp only at ends ⊢
    split at ends
    · cases ends
    next whole =>
    rw [if_neg whole]
    split at ends
    · next skipped =>
      rw [if_pos skipped]
      exact ih spare space below ends
    next segment =>
    rw [if_neg segment]
    split at ends
    · next sound =>
      obtain ⟨smaller, straight, user, aligned, readable⟩ := sound
      rw [if_neg (not_lt.mpr smaller), if_neg (not_lt.mpr straight)]
      generalize grown : max sz (((Proghdr.decode (file off proghdrSize)).vaddr +
        (Proghdr.decode (file off proghdrSize)).memsz) % 2 ^ 32) = size at ends
      have below₁ : size < kernbase := grown ▸ max_lt below user
      have within := (segmentsEnd_ge below₁ ends).1
      have wraps := Proghdr.decode_end straight
      have nonzero : size ≠ 0 := by omega
      have pages : c + (pagesTo e - pagesTo sz) =
          c + (pagesTo e - pagesTo size) + (pagesTo size - pagesTo sz) := by
        have first := pagesTo_mono (a := sz) (b := size) (by omega)
        have second := pagesTo_mono within
        omega
      rw [pages, ← grown] at spare
      obtain ⟨d₁, m₁, alloc, left⟩ :=
        spare.allocuvm space below user fun va low inside => used va low (by omega)
      rw [grown] at alloc left
      have space₁ := allocuvm_space space nonzero alloc
      have fits : (Proghdr.decode (file off proghdrSize)).vaddr +
          (Proghdr.decode (file off proghdrSize)).filesz ≤ size := by
        omega
      obtain ⟨m₂, loaded⟩ :=
        loaduvm_reads (m := m₁) file (Proghdr.decode (file off proghdrSize)).off space₁ below₁.le
        aligned fits
      rw [decide_eq_true readable] at loaded
      have same := loaduvm_freelist loaded
      obtain ⟨d', m', rest, left⟩ := ih ⟨same ▸ left.enough, same ▸ left.valid⟩ space₁ below₁ ends
      refine ⟨d', m', bind_ok.mpr ⟨_, alloc, ?_⟩, left⟩
      dsimp only
      rw [if_neg nonzero, if_neg (not_not.mpr aligned)]
      exact bind_ok.mpr ⟨_, loaded, rest⟩
    · cases ends

end Enough

section Cost
variable {k : Kernel} {m m' : Mem} {d d' : Pgdir} {e : Nat}

theorem sum_blocks (f : Nat → Nat) (n c : Nat) :
    ∑ i ∈ Finset.range n,
      ∑ j ∈ Finset.range c, f (i * c + j) = ∑ x ∈ Finset.range (n * c), f x := by
  induction n with
  | zero => simp
  | succ n ih => rw [Finset.sum_range_succ, ih, Nat.succ_mul, Finset.sum_range_add]

theorem sum_range_if (f : Nat → Nat) {n c : Nat} (le : n ≤ c) :
    ∑ x ∈ Finset.range c, (if x < n then f x else 0) = ∑ x ∈ Finset.range n, f x := by
  rw [← Finset.sum_filter]
  refine Finset.sum_congr ?_ fun _ _ => rfl
  ext x
  rw [Finset.mem_filter, Finset.mem_range, Finset.mem_range]
  omega

theorem card_pteFrame (e : Option Pte) : (pteFrame e).card = if e.isSome then 1 else 0 := by
  cases e <;> rfl

theorem lacks_empty (needed : Nat → Bool) :
    (Pgdir.mk 0 fun _ => none).lacks needed = ∑ i ∈ Finset.range npdentries, if needed i then 1
      else 0 := by
  rw [Pgdir.lacks, Finset.card_filter, ← Fin.sum_univ_eq_sum_range
    (fun i => if needed i then 1 else 0)]
  simp only [Option.isNone_none, and_true]

/-- What the page table with index `i` costs: itself and its pages. -/
theorem card_tableFrames {i : Nat} (space : Space d e) (below : e < kernbase)
    (bound : i < npdentries) (tables : ∀ i < npdentries, k.covers i = true → (d.table i).isSome) :
    (if k.tablesFor e i then 1 else 0) +
        (if i < pdx kernbase then ∑ j ∈ Finset.range npdentries,
          if i * npdentries + j < pagesTo e then 1 else 0 else 0) ≤
      (tableFrames i (d.table i)).card := by
  -- the pages of this table, by their addresses
  have entry {j : Nat} (user : i < pdx kernbase) (inside : j < npdentries) :
      ((d.table i).bind (·.pte j)).isSome ↔ i * npdentries + j < pagesTo e := by
    have address :
        pdx ((i * npdentries + j) * pgsize) = i ∧ ptx ((i * npdentries + j) * pgsize) = j ∧
        (i * npdentries + j) * pgsize < kernbase := by
      simp only [pdx, ptx, npdentries, pgsize, kernbase] at *
      omega
    have filled := space.filled _ address.2.2
    rw [Pgdir.pte, address.1, address.2.1] at filled
    rw [filled]
    simp only [pgrounddown, pagesTo, pgsize]
    omega
  cases table : d.table i with
  | none =>
    rw [table] at entry
    have unneeded : k.tablesFor e i = false := by
      rw [Kernel.tablesFor, Bool.or_eq_false_iff]
      constructor
      · refine decide_eq_false fun low => ?_
        have user : i < pdx kernbase := by
          simp only [pdx, kernbase] at *
          omega
        have first := entry (j := 0) user (by decide)
        simp only [Option.bind_none, Option.isSome_none, Bool.false_eq_true, false_iff, pagesTo,
          npdentries, pgsize] at first
        omega
      · refine Bool.eq_false_iff.mpr fun covered => ?_
        have there := tables i bound covered
        rw [table] at there
        cases there
    have nothing (user : i < pdx kernbase) :
        ∑ j ∈ Finset.range npdentries, (if i * npdentries + j < pagesTo e then 1 else 0) = 0 :=
      Finset.sum_eq_zero fun j inside => if_neg fun below => by
        have there := (entry user (Finset.mem_range.mp inside)).mpr below
        cases there
    rw [unneeded, if_neg Bool.false_ne_true, Nat.zero_add]
    by_cases user : i < pdx kernbase
    · rw [if_pos user, nothing user]
      exact Nat.zero_le _
    · rw [if_neg user]
      exact Nat.zero_le _
  | some t =>
    rw [table] at entry
    rw [tableFrames, Multiset.card_cons]
    have itself : (if k.tablesFor e i = true then 1 else 0) ≤ 1 := by split <;> omega
    by_cases user : i < pdx kernbase
    · have pages : (∑ j ∈ Finset.range npdentries, pteFrame (t.pte j)).card =
          ∑ j ∈ Finset.range npdentries, if i * npdentries + j < pagesTo e then 1 else 0 := by
        rw [Multiset.card_sum]
        refine Finset.sum_congr rfl fun j inside => ?_
        rw [card_pteFrame]
        exact if_congr (entry user (Finset.mem_range.mp inside)) rfl rfl
      rw [if_pos user, if_pos user, pages]
      omega
    · rw [if_neg user, if_neg user]
      omega

theorem need_le_owned (space : Space d e) (below : e < kernbase)
    (tables : ∀ i < npdentries, k.covers i = true → (d.table i).isSome) :
    k.need e ≤ d.owned.card := by
  have user : pdx kernbase ≤ npdentries := by decide
  have pages : ∑ i ∈ Finset.range npdentries,
      (if i < pdx kernbase then ∑ j ∈ Finset.range npdentries,
      if i * npdentries + j < pagesTo e then 1 else 0 else 0) =
        pagesTo e := by
    have fits : pagesTo e ≤ pdx kernbase * npdentries := by
      simp only [pagesTo, pgsize, kernbase, pdx, npdentries] at *
      omega
    rw [sum_range_if _ user, sum_blocks fun x => if x < pagesTo e then 1 else 0,
      sum_range_if (fun _ => 1) fits, ← Finset.card_eq_sum_ones, Finset.card_range]
  rw [Kernel.need, Pgdir.owned, Multiset.card_cons, Multiset.card_sum, lacks_empty]
  have total := Finset.sum_le_sum fun i inside => card_tableFrames space below
    (Finset.mem_range.mp inside) tables
  rw [Finset.sum_add_distrib, pages] at total
  omega

/-- Mapping takes no page table away. -/
theorem mapLoop_table {n a f i : Nat} {w u done : Bool}
    (mapped : mapLoop n m d a f w u = .ok (done, d', m')) (there : (d.table i).isSome) :
    (d'.table i).isSome := by
  induction n generalizing m d a f with
  | zero =>
    cases mapped
    exact there
  | succ n ih =>
    unfold mapLoop at mapped
    split at mapped
    · cases mapped
      exact there
    · next d₁ m₁ walked =>
      split at mapped
      · cases mapped
      · refine ih mapped ?_
        have kept : (d₁.table i).isSome := by
          unfold walkpgdir at walked
          split at walked
          · cases walked
            exact there
          · split at walked
            · cases walked
            · cases walked
              by_cases same : i = pdx a
              · simp [same]
              · simpa [Function.update_of_ne same] using there
        by_cases same : i = pdx a
        · simpa [Pgdir.setPte, same] using same ▸ kept
        · simpa [Pgdir.setPte, Function.update_of_ne same] using kept

theorem mapKernel_table {ranges : List (Nat × Nat × Nat × Bool)} {i : Nat} {done : Bool}
    (mapped : mapKernel m d ranges = .ok (done, d', m')) (there : (d.table i).isSome) :
    (d'.table i).isSome := by
  induction ranges generalizing m d with
  | nil =>
    cases mapped
    exact there
  | cons range rest ih =>
    obtain ⟨virt, start, stop, w⟩ := range
    obtain ⟨⟨ready, d₁, m₁⟩, first, others⟩ := bind_ok.mp mapped
    have kept := mapLoop_table first there
    dsimp only at others
    split at others
    · exact ih others kept
    · cases others
      exact kept

/-- The kernel's ranges have their page tables. -/
theorem mapKernel_covers {ranges : List (Nat × Nat × Nat × Bool)} {b i : Nat}
    (ascending : Ascending b ranges) (bound : i < npdentries)
    (mapped : mapKernel m d ranges = .ok (true, d', m')) {r : Nat × Nat × Nat × Bool}
    (member : r ∈ ranges)
    (covered : r.1 < (i + 1) * 2 ^ 22 ∧ i * 2 ^ 22 < r.1 + (r.2.2.1 + 2 ^ 32 - r.2.1) % 2 ^ 32) :
    (d'.table i).isSome := by
  induction ranges generalizing m d b with
  | nil => cases member
  | cons range rest ih =>
    obtain ⟨virt, start, stop, w⟩ := range
    obtain ⟨above, aligned, nonempty, whole, fits, ascending⟩ := ascending
    obtain ⟨⟨ready, d₁, m₁⟩, first, others⟩ := bind_ok.mp mapped
    cases ready with
    | false => cases others
    | true =>
      cases member with
      | head =>
        refine mapKernel_table others ?_
        dsimp only at covered
        -- the first page of the range that this table maps
        have filled := mapLoop_filled first (i := (max virt (i * 2 ^ 22) - virt) / pgsize) (by
          simp only [pgrounddown, pgsize] at *
          omega)
        have table := Pgdir.table_of_pte filled
        have index : pdx ((pgrounddown virt + (max virt (i * 2 ^ 22) - virt) / pgsize * pgsize) %
            2 ^ 32) = i := by
          simp only [pgrounddown, pgsize, pdx, npdentries] at *
          omega
        rwa [index] at table
      | tail _ later => exact ih ascending others later

theorem setupkvm_covers {i : Nat} (setup : setupkvm k m = .ok (some d, m')) (bound : i < npdentries)
    (covered : k.covers i = true) : (d.table i).isSome := by
  unfold setupkvm at setup
  split at setup
  · cases setup
  split at setup
  · cases setup
  obtain ⟨⟨mapped, d₁, m₁⟩, filled, rest⟩ := bind_ok.mp setup
  cases mapped with
  | false =>
    obtain ⟨_, _, rest⟩ := bind_ok.mp rest
    cases rest
  | true =>
    cases rest
    obtain ⟨r, member, inside⟩ := List.any_eq_true.mp covered
    exact mapKernel_covers (kmap_ascending k) bound filled member (of_decide_eq_true inside)

theorem allocLoop_table {i n a oldsz newsz : Nat}
    (grown : allocLoop k oldsz newsz n m d a = .ok (true, d', m')) (there : (d.table i).isSome) :
    (d'.table i).isSome := by
  induction n generalizing m d a with
  | zero =>
    cases grown
    exact there
  | succ n ih =>
    unfold allocLoop at grown
    split at grown
    · obtain ⟨_, _, rest⟩ := bind_ok.mp grown
      cases rest
    · obtain ⟨⟨mapped, d₁, m₁⟩, page, rest⟩ := bind_ok.mp grown
      cases mapped with
      | false =>
        obtain ⟨_, _, rest⟩ := bind_ok.mp rest
        obtain ⟨_, _, rest⟩ := bind_ok.mp rest
        cases rest
      | true => exact ih rest (mapLoop_table page there)

theorem allocuvm_table {i oldsz newsz sz : Nat} (done : sz ≠ 0)
    (grown : allocuvm k m d oldsz newsz = .ok (sz, d', m')) (there : (d.table i).isSome) :
    (d'.table i).isSome := by
  unfold allocuvm at grown
  split at grown
  · cases grown
    exact there
  split at grown
  · cases grown
    exact there
  obtain ⟨⟨all, d₁, m₁⟩, loop, rest⟩ := bind_ok.mp grown
  cases rest
  cases all with
  | false => exact absurd rfl done
  | true => exact allocLoop_table loop there

theorem loadSegments_table {file : File} {n sz off i : Nat}
    (loaded : loadSegments k file n m d sz off = .ok (some e, d', m'))
    (there : (d.table i).isSome) : (d'.table i).isSome := by
  induction n generalizing m d sz off with
  | zero =>
    cases loaded
    exact there
  | succ n ih =>
    cases loadSegments_round loaded with
    | skipped _ _ rest => exact ih rest there
    | loaded _ _ _ _ alloc nonzero _ _ rest => exact ih rest (allocuvm_table nonzero alloc there)

end Cost
end Aso.Xv6.Vm
