import Aso.Checked
import Aso.Xv6.Vm.Machine

/-! What the operations of vm.c do to the entries of a page directory, address by
address. Every result here is about a call that returns; a panic ends the run. -/
namespace Aso.Xv6.Vm
open Checked

def SamePage (a b : Nat) : Prop := pdx a = pdx b ∧ ptx a = ptx b

instance (a b : Nat) : Decidable (SamePage a b) := inferInstanceAs (Decidable (_ ∧ _))

theorem SamePage.symm {a b : Nat} (same : SamePage a b) : SamePage b a := ⟨same.1.symm, same.2.symm⟩

theorem samePage_iff {a b : Nat} (below : a < 2 ^ 32) (below' : b < 2 ^ 32) :
    SamePage a b ↔ pgrounddown a = pgrounddown b := by
  simp only [SamePage, pdx, ptx, pgrounddown, pgsize]
  omega

theorem samePage_mod {a va : Nat} : SamePage (a % 2 ^ 32) va ↔ SamePage a va := by
  simp only [SamePage, pdx, ptx]
  omega

theorem samePage_pgrounddown (va : Nat) : SamePage (pgrounddown va) va := by
  simp only [SamePage, pdx, ptx, pgrounddown, pgsize]
  omega

theorem pgrounddown_mod (va : Nat) : pgrounddown va % pgsize = 0 := Nat.mul_mod_left _ _

theorem pgroundup_mod (a : Nat) : pgroundup a % pgsize = 0 := by
  simp only [pgroundup, pgrounddown, pgsize]
  omega

theorem pgroundup_le {a : Nat} (below : a < kernbase) :
    a ≤ pgroundup a ∧ pgroundup a ≤ kernbase := by
  simp only [pgroundup, pgrounddown, pgsize, kernbase] at *
  omega

namespace Pgdir

theorem pte_congr (d : Pgdir) {a b : Nat} (same : SamePage a b) : d.pte a = d.pte b := by
  simp only [pte, same.1, same.2]

theorem table_of_pte {d : Pgdir} {va : Nat} {e : Pte} (present : d.pte va = some e) :
    (d.table (pdx va)).isSome := by
  obtain ⟨t, found, _⟩ := Option.bind_eq_some_iff.mp present
  simp [found]

theorem pte_setPte {d : Pgdir} {a : Nat} (there : (d.table (pdx a)).isSome) (e : Option Pte)
    (va : Nat) : (d.setPte a e).pte va = if SamePage a va then e else d.pte va := by
  obtain ⟨t, found⟩ := Option.isSome_iff_exists.mp there
  obtain sameTable | otherTable := eq_or_ne (pdx va) (pdx a)
  · obtain sameEntry | otherEntry := eq_or_ne (ptx va) (ptx a)
    · simp [pte, setPte, SamePage, found, sameTable, sameEntry]
    · simp [pte, setPte, SamePage, found, sameTable, otherEntry, otherEntry.symm]
  · simp [pte, setPte, SamePage, otherTable, otherTable.symm]

/-- Every entry of `d'` that user code may not use is one of `d`. -/
def HidesNoMore (d d' : Pgdir) : Prop :=
  ∀ va e, d'.pte va = some e → e.u = false → d.pte va = some e

theorem HidesNoMore.trans {d d' d'' : Pgdir} (first : d.HidesNoMore d')
    (second : d'.HidesNoMore d'') : d.HidesNoMore d'' :=
  fun va e present hidden => first va e (second va e present hidden) hidden

theorem HidesNoMore.refl (d : Pgdir) : d.HidesNoMore d := fun _ _ present _ => present

end Pgdir

section Walking
variable {m m' : Mem} {d d' : Pgdir} {a va : Nat}

theorem walkpgdir_pte (walked : walkpgdir m d a = some (d', m')) :
    (∀ va, d'.pte va = d.pte va) ∧ (d'.table (pdx a)).isSome := by
  unfold walkpgdir at walked
  split at walked
  · next t found =>
    cases walked
    exact ⟨fun _ => rfl, by simp [found]⟩
  · next absent =>
    split at walked
    · cases walked
    · cases walked
      refine ⟨fun va => ?_, by simp⟩
      obtain same | other := eq_or_ne (pdx va) (pdx a)
      · simp [Pgdir.pte, same, absent]
      · simp [Pgdir.pte, other]

end Walking

section Mapping
variable {m m' : Mem} {d d' : Pgdir} {done w u : Bool}

/-- `mappages` fills absent entries of its range and leaves the others alone. -/
theorem mapLoop_pte {n a f : Nat} (mapped : mapLoop n m d a f w u = .ok (done, d', m')) (va : Nat) :
    d'.pte va = d.pte va ∨
      d.pte va = none ∧ ∃ i < n, SamePage ((a + i * pgsize) % 2 ^ 32) va ∧
      d'.pte va = some ⟨f + i, w, u⟩ := by
  induction n generalizing m d a f with
  | zero =>
    cases mapped
    exact .inl rfl
  | succ n ih =>
    unfold mapLoop at mapped
    split at mapped
    · cases mapped
      exact .inl rfl
    · next d₁ m₁ walked =>
      obtain ⟨same, there⟩ := walkpgdir_pte walked
      split at mapped
      · cases mapped
      · next absent =>
        have later := ih mapped
        rw [Pgdir.pte_setPte there, same] at later
        split at later
        · next here =>
          rw [Pgdir.pte_congr _ here, same, Option.not_isSome_iff_eq_none] at absent
          obtain first | ⟨wrong, _⟩ := later
          · exact .inr ⟨absent, 0, n.succ_pos, by rwa [Nat.zero_mul, samePage_mod], first⟩
          · cases wrong
        · obtain kept | ⟨empty, i, inside, page, filled⟩ := later
          · exact .inl kept
          · refine .inr ⟨empty, i + 1, Nat.succ_lt_succ inside, ?_, ?_⟩
            · rw [Nat.mod_add_mod] at page
              rwa [Nat.succ_mul, Nat.add_comm (i * pgsize), ← Nat.add_assoc]
            · rwa [Nat.add_comm i, ← Nat.add_assoc]

theorem mappages_pte {a size f : Nat} (mapped : mappages m d a size f w u = .ok (done, d', m'))
    (va : Nat) : d'.pte va = d.pte va ∨ d.pte va = none ∧ ∃ f', d'.pte va = some ⟨f', w, u⟩ := by
  obtain kept | ⟨absent, i, _, _, filled⟩ := mapLoop_pte mapped va
  · exact .inl kept
  · exact .inr ⟨absent, f + i, filled⟩

theorem mappages_present {a size f va : Nat}
    (mapped : mappages m d a size f w u = .ok (done, d', m')) (present : (d.pte va).isSome) :
    (d'.pte va).isSome := by
  obtain kept | ⟨absent, _⟩ := mappages_pte mapped va
  · rwa [kept]
  · simp [absent] at present

/-- Got to the end, `mappages` has filled its whole range. -/
theorem mapLoop_filled {n a f : Nat} (mapped : mapLoop n m d a f w u = .ok (true, d', m')) {i : Nat}
    (inside : i < n) : d'.pte ((a + i * pgsize) % 2 ^ 32) = some ⟨f + i, w, u⟩ := by
  induction n generalizing m d a f i with
  | zero => cases inside
  | succ n ih =>
    unfold mapLoop at mapped
    split at mapped
    · cases mapped
    · next d₁ m₁ walked =>
      split at mapped
      · cases mapped
      · cases i with
        | zero =>
          have set := Pgdir.pte_setPte (walkpgdir_pte walked).2 (some ⟨f, w, u⟩) (a % 2 ^ 32)
          rw [if_pos (samePage_mod.mpr ⟨rfl, rfl⟩).symm] at set
          obtain kept | ⟨absent, _⟩ := mapLoop_pte mapped (a % 2 ^ 32)
          · rw [Nat.zero_mul, Nat.add_zero, Nat.add_zero, kept, set]
          · rw [set] at absent
            cases absent
        | succ i =>
          have later := ih mapped (Nat.lt_of_succ_lt_succ inside)
          rw [Nat.mod_add_mod] at later
          rwa [Nat.succ_mul, Nat.add_comm (i * pgsize), ← Nat.add_assoc,
            Nat.add_comm i, ← Nat.add_assoc]

theorem mappages_page {a : Nat} (aligned : a % pgsize = 0) (f : Nat) :
    mappages m d a pgsize f w u = mapLoop 1 m d a f w u := by
  have start : pgrounddown a = a := by
    simp only [pgrounddown, pgsize] at *
    omega
  have count : (pgrounddown ((a + pgsize + (2 ^ 32 - 1)) % 2 ^ 32) + 2 ^ 32 - a) %
      2 ^ 32 / pgsize + 1 = 1 := by
    simp only [pgrounddown, pgsize] at *
    omega
  simp only [mappages, start, count]

/-- One page was mapped. -/
theorem mapPage_pte {a f : Nat} (mapped : mapLoop 1 m d a f w u = .ok (true, d', m')) (va : Nat) :
    d'.pte va = if SamePage a va then some ⟨f, w, u⟩ else d.pte va := by
  split
  · next same =>
    have filled := mapLoop_filled mapped one_pos
    rw [Nat.zero_mul, Nat.add_zero, d'.pte_congr (samePage_mod.mpr same)] at filled
    exact filled
  · next other =>
    obtain kept | ⟨_, i, first, same, _⟩ := mapLoop_pte mapped va
    · exact kept
    · obtain rfl := Nat.lt_one_iff.mp first
      rw [Nat.zero_mul, samePage_mod] at same
      exact absurd same other

/-- The first page of an absent range is mapped; the others are still absent. -/
theorem absent_rest {c a : Nat} {d₁ : Pgdir} {m₁ : Mem} (distinct : (c + 1) * pgsize ≤ 2 ^ 32)
    (absent : ∀ i < c + 1, d.pte ((a + i * pgsize) % 2 ^ 32) = none)
    (walked : walkpgdir m d a = some (d₁, m₁)) (e : Option Pte) :
    d₁.pte a = none ∧
      ∀ i < c, (d₁.setPte a e).pte (((a + pgsize) % 2 ^ 32 + i * pgsize) % 2 ^ 32) = none := by
  obtain ⟨same, there⟩ := walkpgdir_pte walked
  constructor
  · have first := absent 0 c.succ_pos
    rwa [Nat.zero_mul, Nat.add_zero, d.pte_congr (samePage_mod.mpr ⟨rfl, rfl⟩), ← same] at first
  · intro i inside
    have later :
        ((a + pgsize) % 2 ^ 32 + i * pgsize) % 2 ^ 32 = (a + (i + 1) * pgsize) % 2 ^ 32 := by
      rw [Nat.mod_add_mod, Nat.succ_mul, Nat.add_comm (i * pgsize), ← Nat.add_assoc]
    rw [later, Pgdir.pte_setPte there, if_neg, same]
    · exact absent (i + 1) (Nat.succ_lt_succ inside)
    · simp only [SamePage, pdx, ptx, pgsize] at *
      omega

theorem mappages_outside {a size f va : Nat} (aligned : a % pgsize = 0) (nonempty : 0 < size)
    (fits : a + size ≤ 2 ^ 32) (whole : size % pgsize = 0) (outside : va < a ∨ a + size ≤ va)
    (below : va < 2 ^ 32) (mapped : mappages m d a size f w u = .ok (done, d', m')) :
    d'.pte va = d.pte va := by
  obtain kept | ⟨_, i, inside, page, _⟩ := mapLoop_pte mapped va
  · exact kept
  · rw [samePage_iff (Nat.mod_lt _ (by decide)) below] at page
    simp only [pgrounddown, pgsize] at *
    omega

/-- Ranges of whole pages in ascending order from `b` on, none of which wraps around. -/
def Ascending (b : Nat) : List (Nat × Nat × Nat × Bool) → Prop
  | [] => True
  | (virt, start, stop, _) :: rest =>
    let size := (stop + 2 ^ 32 - start) % 2 ^ 32
    b ≤ virt ∧ virt % pgsize = 0 ∧ 0 < size ∧ size % pgsize = 0 ∧ virt + size ≤ 2 ^ 32 ∧
      Ascending (virt + size) rest

theorem Ascending.bounds {ranges : List (Nat × Nat × Nat × Bool)} {b : Nat}
    (ascending : Ascending b ranges) {r : Nat × Nat × Nat × Bool} (member : r ∈ ranges) :
    b ≤ r.1 ∧ r.1 + (r.2.2.1 + 2 ^ 32 - r.2.1) % 2 ^ 32 ≤ 2 ^ 32 := by
  induction ranges generalizing b with
  | nil => cases member
  | cons range rest ih =>
    obtain ⟨above, _, _, _, fits, ascending⟩ := ascending
    cases member with
    | head => exact ⟨above, fits⟩
    | tail _ later =>
      obtain ⟨low, high⟩ := ih ascending later
      exact ⟨by omega, high⟩

theorem kmap_ascending (k : Kernel) : Ascending kernbase (kmap k) := by
  have text := k.text_lt
  have data := k.data_lt
  have kend := k.kend_lt
  simp only [kmap, Ascending, kernbase, extmem, phystop, devspace, kernlink, pgsize] at *
  and_intros
  all_goals first | omega | trivial

theorem mapKernel_below {ranges : List (Nat × Nat × Nat × Bool)} {b va : Nat}
    (ascending : Ascending b ranges) (below : va < b) (word : va < 2 ^ 32)
    (mapped : mapKernel m d ranges = .ok (done, d', m')) : d'.pte va = d.pte va := by
  induction ranges generalizing m d b with
  | nil =>
    cases mapped
    rfl
  | cons range rest ih =>
    obtain ⟨virt, start, stop, w⟩ := range
    obtain ⟨⟨mappedRange, d₁, m₁⟩, first, others⟩ := bind_ok.mp mapped
    obtain ⟨above, aligned, nonempty, whole, fits, ascending⟩ := ascending
    have low := below.trans_le above
    have kept := mappages_outside aligned nonempty fits whole (.inl low) word first
    dsimp only at others
    split at others
    · rw [ih ascending (low.trans_le (Nat.le_add_right _ _)) others, kept]
    · cases others
      exact kept

/-- A new address space has no user pages. -/
theorem setupkvm_low {k : Kernel} {va : Nat} (made : setupkvm k m = .ok (some d, m'))
    (low : va < kernbase) : d.pte va = none := by
  unfold setupkvm at made
  split at made
  · cases made
  · split at made
    · cases made
    · obtain ⟨⟨mapped, d₁, m₁⟩, filled, rest⟩ := bind_ok.mp made
      have empty := mapKernel_below (kmap_ascending k) low (low.trans (by decide)) filled
      dsimp only at rest
      split at rest
      · cases rest
        exact empty
      · obtain ⟨m₂, _, wrong⟩ := bind_ok.mp rest
        cases wrong

end Mapping

section Unmapping
variable {k : Kernel} {m m' : Mem} {d d' : Pgdir}

/-- The loop of `deallocuvm` only takes entries away. -/
theorem deallocLoop_pte {n a oldsz : Nat} (freed : deallocLoop k n m d a oldsz = .ok (d', m'))
    (va : Nat) : d'.pte va = d.pte va ∨ d'.pte va = none := by
  fun_induction deallocLoop k n m d a oldsz with
  | case1 => cases freed
  | case2 _ _ _ _ _ _ _ ih => exact ih freed
  | case3 _ _ _ _ _ _ _ _ _ ih => exact ih freed
  | case4 => cases freed
  | case5 _ m d a _ _ t found e present _ ih =>
    obtain ⟨m₁, _, rest⟩ := bind_ok.mp freed
    have later := ih m₁ rest
    rw [Pgdir.pte_setPte (by simp [found])] at later
    split at later
    · exact .inr (later.elim id id)
    · exact later
  | case6 =>
    cases freed
    exact .inl rfl

/-- Below the kernel the loop only goes up. -/
theorem deallocLoop_below {n a oldsz va : Nat} (user : oldsz ≤ kernbase) (low : va < a)
    (aligned : a % pgsize = 0) (freed : deallocLoop k n m d a oldsz = .ok (d', m')) :
    d'.pte va = d.pte va := by
  have next {a : Nat} (inside : a < oldsz) (low : va < a) (aligned : a % pgsize = 0) :
      va < (a + pgsize) % 2 ^ 32 ∧ (a + pgsize) % 2 ^ 32 % pgsize = 0 := by
    simp only [pgsize, kernbase] at *
    omega
  fun_induction deallocLoop k n m d a oldsz with
  | case1 => cases freed
  | case2 _ _ _ a _ inside _ ih =>
    have skip :
        va < (pdx a + 1) * 2 ^ 22 % 2 ^ 32 ∧ (pdx a + 1) * 2 ^ 22 % 2 ^ 32 % pgsize = 0 := by
      simp only [pdx, pgsize, kernbase] at *
      omega
    exact ih user skip.1 skip.2 freed next
  | case3 _ _ _ _ _ inside _ _ _ ih =>
    exact ih user (next inside low aligned).1 (next inside low aligned).2 freed next
  | case4 => cases freed
  | case5 _ m d a _ inside t found e present _ ih =>
    obtain ⟨m₁, _, rest⟩ := bind_ok.mp freed
    rw [ih m₁ user (next inside low aligned).1 (next inside low aligned).2 rest next,
      Pgdir.pte_setPte (by simp [found]), if_neg]
    simp only [SamePage, pdx, ptx, pgsize, kernbase] at *
    omega
  | case6 =>
    cases freed
    rfl

variable {sz oldsz newsz : Nat}

theorem deallocuvm_sz (freed : deallocuvm k m d oldsz newsz = .ok (sz, d', m')) :
    sz = min oldsz newsz := by
  unfold deallocuvm at freed
  split at freed
  · next grows =>
    cases freed
    exact (min_eq_left grows).symm
  · next shrinks =>
    obtain ⟨_, _, rest⟩ := bind_ok.mp freed
    cases rest
    exact (min_eq_right (by omega)).symm

theorem deallocuvm_pte (freed : deallocuvm k m d oldsz newsz = .ok (sz, d', m')) (va : Nat) :
    d'.pte va = d.pte va ∨ d'.pte va = none := by
  unfold deallocuvm at freed
  split at freed
  · cases freed
    exact .inl rfl
  · obtain ⟨_, loop, rest⟩ := bind_ok.mp freed
    cases rest
    exact deallocLoop_pte loop va

theorem deallocuvm_below {va : Nat} (user : oldsz ≤ kernbase) (low : va < newsz)
    (freed : deallocuvm k m d oldsz newsz = .ok (sz, d', m')) : d'.pte va = d.pte va := by
  unfold deallocuvm at freed
  split at freed
  · cases freed
    rfl
  · next shrinks =>
    obtain ⟨_, loop, rest⟩ := bind_ok.mp freed
    cases rest
    have rounded := (pgroundup_le (lt_of_lt_of_le (not_le.mp shrinks) user)).1
    exact deallocLoop_below user (low.trans_le rounded) (pgroundup_mod _) loop

theorem deallocuvm_hides (freed : deallocuvm k m d oldsz newsz = .ok (sz, d', m')) :
    d.HidesNoMore d' := by
  intro va e present _
  obtain kept | gone := deallocuvm_pte freed va
  · rwa [← kept]
  · rw [gone] at present
    cases present

end Unmapping

section Growing
variable {k : Kernel} {m m' : Mem} {d d' : Pgdir} {done : Bool} {sz oldsz newsz : Nat}

theorem mappages_hides {a size f : Nat} {w : Bool}
    (mapped : mappages m d a size f w true = .ok (done, d', m')) : d.HidesNoMore d' := by
  intro va e present hidden
  obtain kept | ⟨_, f', filled⟩ := mappages_pte mapped va
  · rwa [← kept]
  · rw [filled] at present
    cases present
    cases hidden

theorem allocLoop_hides {n a : Nat} (grown : allocLoop k oldsz newsz n m d a = .ok (done, d', m')) :
    d.HidesNoMore d' := by
  induction n generalizing m d a with
  | zero =>
    cases grown
    exact .refl _
  | succ n ih =>
    unfold allocLoop at grown
    split at grown
    · obtain ⟨_, freed, rest⟩ := bind_ok.mp grown
      cases rest
      exact deallocuvm_hides freed
    · obtain ⟨_, mapped, rest⟩ := bind_ok.mp grown
      dsimp only at rest
      split at rest
      · exact (mappages_hides mapped).trans (ih rest)
      · obtain ⟨_, freed, rest⟩ := bind_ok.mp rest
        obtain ⟨_, _, rest⟩ := bind_ok.mp rest
        cases rest
        exact (mappages_hides mapped).trans (deallocuvm_hides freed)

theorem allocuvm_hides (grown : allocuvm k m d oldsz newsz = .ok (sz, d', m')) :
    d.HidesNoMore d' := by
  unfold allocuvm at grown
  split at grown
  · cases grown
    exact .refl _
  · split at grown
    · cases grown
      exact .refl _
    · obtain ⟨_, loop, rest⟩ := bind_ok.mp grown
      cases rest
      exact allocLoop_hides loop

theorem allocuvm_sz (grown : allocuvm k m d oldsz newsz = .ok (sz, d', m')) (done : sz ≠ 0) :
    newsz < kernbase ∧ sz = max oldsz newsz := by
  unfold allocuvm at grown
  split at grown
  · cases grown
    exact absurd rfl done
  · next user =>
    refine ⟨not_le.mp user, ?_⟩
    split at grown
    · next shrinks =>
      cases grown
      exact (max_eq_left shrinks.le).symm
    · next grows =>
      obtain ⟨⟨grown, _⟩, _, rest⟩ := bind_ok.mp grown
      obtain rfl | rfl : sz = newsz ∨ sz = 0 := by
        cases grown <;> cases rest <;> simp
      · exact (max_eq_right (not_lt.mp grows)).symm
      · exact absurd rfl done

end Growing

section Copying
variable {k : Kernel} {m m' : Mem} {src d d' : Pgdir} {sz : Nat}

/-- Every new entry of the copy has the flags of the entry it is a copy of. -/
theorem copyLoop_pte {n i : Nat} {done : Bool} {left : Option Nat} (aligned : i % pgsize = 0)
    (copied : copyLoop src sz n m d i = .ok (done, left, d', m')) (va : Nat) :
    d'.pte va = d.pte va ∨ ∃ e f, src.pte va = some e ∧ d'.pte va = some ⟨f, e.w, e.u⟩ := by
  induction n generalizing m d i with
  | zero => cases copied
  | succ n ih =>
    have next : (i + pgsize) % 2 ^ 32 % pgsize = 0 := by
      simp only [pgsize] at *
      omega
    unfold copyLoop at copied
    split at copied
    · split at copied
      · exact ih next copied
      · next e present =>
        split at copied
        · cases copied
          exact .inl rfl
        · obtain ⟨⟨mapped, d₁, m₁⟩, page, rest⟩ := bind_ok.mp copied
          have here : d₁.pte va = d.pte va ∨
              ∃ e f, src.pte va = some e ∧ d₁.pte va = some ⟨f, e.w, e.u⟩ := by
            rw [mappages_page aligned] at page
            obtain kept | ⟨_, j, first, same, filled⟩ := mapLoop_pte page va
            · exact .inl kept
            · obtain rfl := Nat.lt_one_iff.mp first
              rw [Nat.zero_mul, samePage_mod] at same
              exact .inr ⟨e, _, (src.pte_congr same).symm.trans present, filled⟩
          dsimp only at rest
          split at rest
          · obtain kept | copied := ih next rest
            · rwa [kept]
            · exact .inr copied
          · cases rest
            exact here
    · cases copied
      exact .inl rfl

/-- Got to the end, the loop has copied every page that begins below the size. -/
theorem copyLoop_present {n i va : Nat} {left : Option Nat} (user : sz ≤ kernbase)
    (aligned : i % pgsize = 0) (inside : i ≤ va) (below : va < sz)
    (copied : copyLoop src sz n m d i = .ok (true, left, d', m')) (present : (src.pte va).isSome) :
    (d'.pte va).isSome := by
  induction n generalizing m d i with
  | zero => cases copied
  | succ n ih =>
    have wraps : (i + pgsize) % 2 ^ 32 = i + pgsize := by
      simp only [kernbase, pgsize] at *
      omega
    have next : (i + pgsize) % pgsize = 0 := (Nat.add_mod_right i pgsize).trans aligned
    unfold copyLoop at copied
    rw [if_pos (inside.trans_lt below), wraps] at copied
    -- either `va` lies on this page, or it is still to come
    obtain later | here := le_or_gt (i + pgsize) va
    · split at copied
      · exact ih next later copied
      · split at copied
        · cases copied
        · obtain ⟨_, _, rest⟩ := bind_ok.mp copied
          dsimp only at rest
          split at rest
          · exact ih next later rest
          · cases rest
    · have same : SamePage i va := by
        simp only [SamePage, pdx, ptx, pgsize] at *
        omega
      rw [← src.pte_congr same] at present
      split at copied
      · next absent => simp [absent] at present
      · split at copied
        · cases copied
        · obtain ⟨⟨mapped, d₁, m₁⟩, page, rest⟩ := bind_ok.mp copied
          dsimp only at rest
          split at rest
          · next done =>
            subst done
            rw [mappages_page aligned] at page
            have filled := mapLoop_filled page one_pos
            rw [Nat.zero_mul, Nat.add_zero, d₁.pte_congr (samePage_mod.mpr same)] at filled
            obtain kept | ⟨e, f, _, copied⟩ := copyLoop_pte next rest va
            · simp [kept, filled]
            · simp [copied]
          · cases rest

/-- What a successful `copyuvm` went through. -/
theorem copyuvm_ok {copy : Pgdir} (copied : copyuvm k m src sz = .ok (some copy, m')) :
    ∃ d m₁ left, setupkvm k m = .ok (some d, m₁) ∧
      copyLoop src sz rounds m₁ d 0 = .ok (true, left, copy, m') := by
  obtain ⟨⟨made, m₁⟩, setup, rest⟩ := bind_ok.mp copied
  cases made with
  | none => cases rest
  | some d =>
    obtain ⟨⟨done, left, d', m₂⟩, loop, rest⟩ := bind_ok.mp rest
    cases done with
    | true =>
      cases rest
      exact ⟨d, m₁, left, setup, loop⟩
    | false =>
      cases left with
      | none =>
        obtain ⟨_, _, wrong⟩ := bind_ok.mp rest
        cases wrong
      | some f =>
        obtain ⟨_, _, rest⟩ := bind_ok.mp rest
        obtain ⟨_, _, wrong⟩ := bind_ok.mp rest
        cases wrong

theorem copyuvm_low {copy : Pgdir} (copied : copyuvm k m src sz = .ok (some copy, m'))
    {va : Nat} {e : Pte} (low : va < kernbase) (present : copy.pte va = some e) :
    ∃ e', src.pte va = some e' ∧ e'.w = e.w ∧ e'.u = e.u := by
  obtain ⟨d, m₁, left, setup, loop⟩ := copyuvm_ok copied
  obtain kept | ⟨e', f, original, filled⟩ := copyLoop_pte (Nat.zero_mod _) loop va
  · rw [kept, setupkvm_low setup low] at present
    cases present
  · rw [filled] at present
    cases present
    exact ⟨e', original, rfl, rfl⟩

theorem copyuvm_present {copy : Pgdir} (copied : copyuvm k m src sz = .ok (some copy, m'))
    (user : sz ≤ kernbase) {va : Nat} (below : va < sz) (present : (src.pte va).isSome) :
    (copy.pte va).isSome := by
  obtain ⟨d, m₁, left, _, loop⟩ := copyuvm_ok copied
  exact copyLoop_present user (Nat.zero_mod _) va.zero_le below loop present

end Copying

section Hiding
variable {d d' : Pgdir} {a : Nat}

theorem clearpteu_pte (cleared : clearpteu d a = .ok d') (va : Nat) :
    d'.pte va = if SamePage a va then (d.pte va).map fun e => { e with u := false }
      else d.pte va := by
  unfold clearpteu at cleared
  split at cleared
  · cases cleared
  · next found =>
    cases cleared
    rw [Pgdir.pte_setPte (by simp [found])]
    split
    · next same => rw [d.pte_congr same]
    · rfl

end Hiding

end Aso.Xv6.Vm
