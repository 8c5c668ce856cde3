import Aso.Xv6.Vm.Owned
import Mathlib.Order.Interval.Finset.Nat

/-! What `sbrk` with a negative argument does, page by page, for a process of any
size: the loop of `deallocuvm` frees the pages of its range once each, unless its
address wraps around or `kfree` refuses a page. -/
namespace Aso.Xv6.Vm
open Checked

/-- The numbers of the pages that start in `[a, b)`. -/
def pagesIn (a b : Nat) : Finset Nat := Finset.Ico (a / pgsize) ((b + (pgsize - 1)) / pgsize)

/-- The frames mapped there, once for each page. -/
def framesIn (d : Pgdir) (a b : Nat) : Multiset Nat :=
  ∑ i ∈ pagesIn a b, pteFrame (d.pte (i * pgsize))

/-- `kfree` accepts all of them. -/
def Freeable (k : Kernel) (d : Pgdir) (a b : Nat) : Prop :=
  ∀ i ∈ pagesIn a b, ∀ e, d.pte (i * pgsize) = some e →
    k.kend ≤ e.frame ∧ e.frame < phystop / pgsize

/-- The pages that start in `[a, b)` are gone and the others as they were. -/
def Unmapped (d : Pgdir) (a b : Nat) (d' : Pgdir) : Prop :=
  ∀ va < 2 ^ 32, d'.pte va = if a ≤ pgrounddown va ∧ pgrounddown va < b then none else d.pte va

/-- The addresses of the loop reach `b` without wrapping around. -/
def Straight (d : Pgdir) (b : Nat) : Prop :=
  b + pgsize ≤ 2 ^ 32 ∧ (1023 * 2 ^ 22 < b → (d.table 1023).isSome)

section Loop
variable {k : Kernel} {m m' : Mem} {d d' : Pgdir} {n a b c : Nat}

theorem mem_pagesIn {i : Nat} (aligned : a % pgsize = 0) :
    i ∈ pagesIn a b ↔ a ≤ i * pgsize ∧ i * pgsize < b := by
  simp only [pagesIn, Finset.mem_Ico, pgsize] at *
  omega

theorem pagesIn_split (aligned : a % pgsize = 0) (inside : a < b) :
    pagesIn a b = insert (a / pgsize) (pagesIn (a + pgsize) b) := by
  ext i
  rw [Finset.mem_insert, mem_pagesIn aligned, mem_pagesIn (by simp only [pgsize] at *; omega)]
  simp only [pgsize] at *
  omega

theorem framesIn_nil (past : b ≤ a) (aligned : a % pgsize = 0) : framesIn d a b = 0 := by
  have : pagesIn a b = ∅ := by
    ext i
    rw [mem_pagesIn aligned]
    simp only [Finset.notMem_empty, iff_false]
    omega
  rw [framesIn, this, Finset.sum_empty]

/-- Pages with nothing in them can be passed over. -/
theorem framesIn_skip (aligned : a % pgsize = 0) (aligned' : c % pgsize = 0) (later : a ≤ c)
    (empty : ∀ i, a ≤ i * pgsize → i * pgsize < c → d.pte (i * pgsize) = none) :
    framesIn d a b = framesIn d c b := by
  rw [framesIn, framesIn]
  symm
  refine Finset.sum_subset (fun i member => ?_) fun i member outside => ?_
  · rw [mem_pagesIn aligned'] at member
    exact (mem_pagesIn aligned).mpr ⟨later.trans member.1, member.2⟩
  · rw [mem_pagesIn aligned] at member
    rw [mem_pagesIn aligned'] at outside
    rw [empty i member.1 (by omega)]
    rfl

/-- What the loop of `deallocuvm` from `a` to `b` does. -/
structure Frees (k : Kernel) (m : Mem) (d : Pgdir) (a b : Nat) (d' : Pgdir) (m' : Mem) : Prop where
  freeable : Freeable k d a b
  unmapped : Unmapped d a b d'
  freelist : (m'.freelist : Multiset Nat) = m.freelist + framesIn d a b
  pages : ∀ f, f ∉ framesIn d a b → m'.page f = m.page f

theorem Frees.nil (past : b ≤ a) (aligned : a % pgsize = 0) : Frees k m d a b d m := by
  refine ⟨fun i member => ?_, fun va word => (if_neg (by omega)).symm, ?_, fun _ _ => rfl⟩
  · rw [mem_pagesIn aligned] at member
    omega
  · rw [framesIn_nil past aligned, add_zero]

/-- Empty pages do not matter. -/
theorem Frees.skip (frees : Frees k m d c b d' m') (aligned : a % pgsize = 0)
    (aligned' : c % pgsize = 0) (later : a ≤ c)
    (empty : ∀ i, a ≤ i * pgsize → i * pgsize < c → d.pte (i * pgsize) = none) :
    Frees k m d a b d' m' := by
  have same := framesIn_skip (b := b) aligned aligned' later empty
  refine ⟨fun i member e present => ?_, fun va word => ?_, same ▸ frees.freelist,
    same ▸ frees.pages⟩
  · by_cases early : i * pgsize < c
    · rw [empty i ((mem_pagesIn aligned).mp member).1 early] at present
      cases present
    · exact frees.freeable i ((mem_pagesIn aligned').mpr
        ⟨not_lt.mp early, ((mem_pagesIn aligned).mp member).2⟩) e present
  · rw [frees.unmapped va word]
    by_cases early : a ≤ pgrounddown va ∧ pgrounddown va < c
    · have none : d.pte va = none :=
        (d.pte_congr (samePage_pgrounddown va)).symm.trans (empty (va / pgsize) early.1 early.2)
      rw [none, ite_self, ite_self]
    · exact if_congr (by omega) rfl rfl

theorem kfree_ok {f : Nat} (freed : m.kfree k f = .ok m') :
    (k.kend ≤ f ∧ f < phystop / pgsize) ∧ m'.freelist = f :: m.freelist ∧
      ∀ g, g ≠ f → m'.page g = m.page g := by
  refine ⟨?_, kfree_freelist freed, fun g other => ?_⟩
  · unfold Mem.kfree at freed
    split at freed
    · cases freed
    · omega
  · unfold Mem.kfree at freed
    split at freed
    · cases freed
    · cases freed
      exact Function.update_of_ne other ..

theorem samePage_aligned {va : Nat} (aligned : a % pgsize = 0) (word : a < 2 ^ 32)
    (below : va < 2 ^ 32) : SamePage a va ↔ pgrounddown va = a := by
  rw [samePage_iff word below]
  simp only [pgrounddown, pgsize] at *
  omega

/-- One page freed, and the pages after it. -/
theorem Frees.take {e : Pte} {m₁ : Mem} (there : (d.table (pdx a)).isSome)
    (aligned : a % pgsize = 0) (inside : a < b) (word : b + pgsize ≤ 2 ^ 32)
    (present : d.pte a = some e) (returned : m.kfree k e.frame = .ok m₁)
    (frees : Frees k m₁ (d.setPte a none) (a + pgsize) b d' m') : Frees k m d a b d' m' := by
  obtain ⟨valid, pushed, others⟩ := kfree_ok returned
  have aligned' : (a + pgsize) % pgsize = 0 := by
    simp only [pgsize] at *
    omega
  have low : a < 2 ^ 32 := by omega
  have first : a / pgsize * pgsize = a := Nat.div_mul_cancel (Nat.dvd_of_mod_eq_zero aligned)
  have kept (i : Nat) (member : i ∈ pagesIn (a + pgsize) b) :
      (d.setPte a none).pte (i * pgsize) = d.pte (i * pgsize) := by
    rw [mem_pagesIn aligned'] at member
    rw [Pgdir.pte_setPte there, if_neg]
    rw [samePage_aligned aligned low (by omega), pgrounddown]
    simp only [pgsize] at *
    omega
  have frames : framesIn d a b = e.frame ::ₘ framesIn (d.setPte a none) (a + pgsize) b := by
    have rest : framesIn (d.setPte a none) (a + pgsize) b = framesIn d (a + pgsize) b :=
      Finset.sum_congr rfl fun i member => by rw [kept i member]
    have fresh : a / pgsize ∉ pagesIn (a + pgsize) b := by
      rw [mem_pagesIn aligned', first]
      simp only [pgsize]
      omega
    rw [rest, framesIn, pagesIn_split aligned inside, Finset.sum_insert fresh, first, present,
      pteFrame, Multiset.singleton_add, framesIn]
  refine ⟨fun i member e' found => ?_, fun va below => ?_, ?_, fun f outside => ?_⟩
  · rw [pagesIn_split aligned inside, Finset.mem_insert] at member
    obtain rfl | later := member
    · rw [first, present] at found
      cases found
      exact valid
    · exact frees.freeable i later e' (by rw [kept i later]; exact found)
  · rw [frees.unmapped va below, Pgdir.pte_setPte there]
    simp only [samePage_aligned aligned low below]
    have page : pgrounddown va % pgsize = 0 := Nat.mul_mod_left _ _
    by_cases here : pgrounddown va = a
    · rw [if_pos here, ite_self, if_pos ⟨here.ge, here ▸ inside⟩]
    · rw [if_neg here]
      refine if_congr ?_ rfl rfl
      simp only [pgsize] at *
      omega
  · rw [frees.freelist, pushed, frames, ← Multiset.cons_coe, Multiset.cons_add, Multiset.add_cons]
  · rw [frames, Multiset.mem_cons, not_or] at outside
    rw [frees.pages f outside.2, others f outside.1]

/-- The page table of an address inside the range, if it is not there, is not the last one. -/
theorem Straight.next_table (straight : Straight d b) (inside : a < b)
    (absent : d.table (pdx a) = none) :
    (pdx a + 1) * 2 ^ 22 % 2 ^ 32 = (pdx a + 1) * 2 ^ 22 ∧ a < (pdx a + 1) * 2 ^ 22 := by
  have word := straight.1
  have last : pdx a ≠ 1023 := by
    intro last
    have present := straight.2 (by simp only [pdx, pgsize] at *; omega)
    rw [← last, absent] at present
    cases present
  simp only [pdx, pgsize] at *
  omega

theorem Straight.setPte (straight : Straight d b) (e : Option Pte) : Straight (d.setPte a e) b := by
  refine ⟨straight.1, fun high => ?_⟩
  have there := straight.2 high
  by_cases same : pdx a = 1023
  · simp [Pgdir.setPte, same, there]
  · simpa [Pgdir.setPte, Function.update_of_ne (Ne.symm same)] using there

theorem Freeable.mono {d₁ : Pgdir} (freeable : Freeable k d a b) (aligned : a % pgsize = 0)
    (aligned' : c % pgsize = 0) (later : a ≤ c)
    (fewer : ∀ va, d₁.pte va = d.pte va ∨ d₁.pte va = none) : Freeable k d₁ c b := by
  intro i member e present
  rw [mem_pagesIn aligned'] at member
  obtain kept | gone := fewer (i * pgsize)
  · exact freeable i ((mem_pagesIn aligned).mpr ⟨later.trans member.1, member.2⟩) e
      (kept.symm.trans present)
  · rw [gone] at present
    cases present

theorem Freeable.here {e : Pte} (freeable : Freeable k d a b) (aligned : a % pgsize = 0)
    (inside : a < b) (present : d.pte a = some e) :
    k.kend ≤ e.frame ∧ e.frame < phystop / pgsize := by
  have first : a / pgsize * pgsize = a := Nat.div_mul_cancel (Nat.dvd_of_mod_eq_zero aligned)
  exact freeable (a / pgsize) ((mem_pagesIn aligned).mpr (by rw [first]; exact ⟨le_rfl, inside⟩)) e
    (by rw [first, present])

/-- The bases of the pages that start in `[a, b)`. -/
def pageBases (a b : Nat) : List Nat := List.range' a ((b - a + (pgsize - 1)) / pgsize) pgsize

/-- What `deallocuvm` is for: each page is tested on its own, and no page table is skipped. -/
def freeEach (k : Kernel) : List Nat → Mem → Pgdir → Except Panic (Pgdir × Mem)
  | [], m, d => .ok (d, m)
  | a :: rest, m, d =>
    match d.pte a with
    | none => freeEach k rest m d
    | some e =>
      if e.frame = 0 then .error .kfree
      else do
        let m ← m.kfree k e.frame
        freeEach k rest m (d.setPte a none)

theorem pageBases_cons (inside : a < b) : pageBases a b = a :: pageBases (a + pgsize) b := by
  have more : (b - a + (pgsize - 1)) / pgsize = (b - (a + pgsize) + (pgsize - 1)) / pgsize + 1 := by
    simp only [pgsize]
    omega
  rw [pageBases, more, List.range'_succ, pageBases]

theorem pageBases_nil (past : b ≤ a) : pageBases a b = [] := by
  have none : (b - a + (pgsize - 1)) / pgsize = 0 := by
    simp only [pgsize]
    omega
  rw [pageBases, none, List.range'_zero]

/-- Induction over the pages that start in `[a, b)`. -/
theorem page_induction {motive : Nat → Prop} (past : ∀ a, b ≤ a → motive a)
    (inside : ∀ a, a < b → motive (a + pgsize) → motive a) (a : Nat) : motive a := by
  obtain ⟨n, enough⟩ : ∃ n, b ≤ a + n * pgsize := ⟨b, by simp only [pgsize]; omega⟩
  induction n generalizing a with
  | zero => exact past a (by omega)
  | succ n ih =>
    by_cases low : a < b
    · refine inside a low (ih _ ?_)
      rw [Nat.succ_mul] at enough
      omega
    · exact past a (not_lt.mp low)

theorem freeEach_skip (empty : ∀ i < n, d.pte (a + i * pgsize) = none) :
    freeEach k (pageBases a b) m d = freeEach k (pageBases (a + n * pgsize) b) m d := by
  induction n with
  | zero => rw [Nat.zero_mul, Nat.add_zero]
  | succ n ih =>
    rw [ih fun i small => empty i (Nat.lt_succ_of_lt small), Nat.succ_mul, ← Nat.add_assoc]
    by_cases inside : a + n * pgsize < b
    · rw [pageBases_cons inside, freeEach, empty n (Nat.lt_succ_self n)]
    · rw [pageBases_nil (not_lt.mp inside),
        pageBases_nil ((not_lt.mp inside).trans (Nat.le_add_right _ _))]

/-- Skipping the page tables that are not there changes nothing. -/
theorem deallocLoop_each (aligned : a % pgsize = 0) (straight : Straight d b) (some : 0 < n)
    (enough : b + pgsize ≤ a + n * pgsize) :
    deallocLoop k n m d a b = freeEach k (pageBases a b) m d := by
  have next {a n : Nat} {d : Pgdir} (straight : Straight d b) (inside : a < b)
      (aligned : a % pgsize = 0) (enough : b + pgsize ≤ a + (n + 1) * pgsize) :
      (a + pgsize) % 2 ^ 32 = a + pgsize ∧ (a + pgsize) % pgsize = 0 ∧ 0 < n ∧
        b + pgsize ≤ a + pgsize + n * pgsize := by
    have := straight.1
    simp only [pgsize] at *
    omega
  fun_induction deallocLoop k n m d a b with
  | case1 => exact absurd some (Nat.lt_irrefl 0)
  | case2 n m d a _ inside absent ih =>
    obtain ⟨wraps, later⟩ := straight.next_table inside absent
    obtain ⟨-, -, left, -⟩ := next straight inside aligned enough
    obtain ⟨i, reach⟩ : ∃ i, (pdx a + 1) * 2 ^ 22 = a + i * pgsize := by
      refine ⟨((pdx a + 1) * 2 ^ 22 - a) / pgsize, ?_⟩
      simp only [pgsize] at *
      omega
    rw [wraps] at ih ⊢
    rw [ih ?_ straight left ?_ next, reach]
    · refine (freeEach_skip fun j small => ?_).symm
      have table : pdx (a + j * pgsize) = pdx a := by
        have := straight.1
        simp only [pdx, pgsize] at *
        omega
      rw [Pgdir.pte, table, absent]
      rfl
    all_goals
      simp only [pgsize] at *
      omega
  | case3 n m d a _ inside t found absent ih =>
    obtain ⟨wraps, aligned', left, enough⟩ := next straight inside aligned enough
    rw [wraps] at ih ⊢
    rw [ih aligned' straight left enough next, pageBases_cons inside, freeEach, absent]
  | case4 n m d a _ inside t found e present zero =>
    rw [pageBases_cons inside, freeEach, present]
    exact (if_pos zero).symm
  | case5 n m d a _ inside t found e present nonzero ih =>
    obtain ⟨wraps, aligned', left, enough⟩ := next straight inside aligned enough
    rw [pageBases_cons inside, freeEach, present]
    simp only [if_neg nonzero, wraps] at ih ⊢
    refine congrArg _ (funext fun m₁ => ?_)
    exact ih m₁ aligned' (straight.setPte none) left enough next
  | case6 _ _ _ _ _ outside =>
    rw [pageBases_nil (not_lt.mp outside)]
    rfl

theorem freeEach_frees (aligned : a % pgsize = 0) (word : b + pgsize ≤ 2 ^ 32)
    (freed : freeEach k (pageBases a b) m d = .ok (d', m')) : Frees k m d a b d' m' := by
  induction a using page_induction (b := b) generalizing m d with
  | past a past =>
    rw [pageBases_nil past] at freed
    cases freed
    exact .nil past aligned
  | inside a inside ih =>
    have aligned' : (a + pgsize) % pgsize = 0 := (Nat.add_mod_right a pgsize).trans aligned
    rw [pageBases_cons inside, freeEach] at freed
    split at freed
    · next absent =>
      refine (ih aligned' freed).skip aligned aligned' (Nat.le_add_right _ _) fun i low below => ?_
      have here : i * pgsize = a := by
        simp only [pgsize] at *
        omega
      rw [here, absent]
    · next e present =>
      split at freed
      · cases freed
      · obtain ⟨m₁, returned, rest⟩ := bind_ok.mp freed
        exact .take (d.table_of_pte present) aligned inside word present returned (ih aligned' rest)

theorem freeEach_returns (aligned : a % pgsize = 0) (freeable : Freeable k d a b) :
    ∃ r, freeEach k (pageBases a b) m d = .ok r := by
  induction a using page_induction (b := b) generalizing m d with
  | past a past => exact ⟨_, by rw [pageBases_nil past, freeEach]⟩
  | inside a inside ih =>
    have aligned' : (a + pgsize) % pgsize = 0 := (Nat.add_mod_right a pgsize).trans aligned
    rw [pageBases_cons inside, freeEach]
    split
    · exact ih aligned' (freeable.mono aligned aligned' (Nat.le_add_right _ _) fun _ => .inl rfl)
    · next e present =>
      have valid := freeable.here aligned inside present
      have nonzero : e.frame ≠ 0 := by
        have := k.data_lt
        omega
      obtain ⟨m₁, returned⟩ : ∃ m₁, m.kfree k e.frame = .ok m₁ := ⟨_, if_neg (by omega)⟩
      have fewer (va : Nat) :
          (d.setPte a none).pte va = d.pte va ∨ (d.setPte a none).pte va = none := by
        rw [Pgdir.pte_setPte (d.table_of_pte present)]
        split
        · exact .inr rfl
        · exact .inl rfl
      obtain ⟨r, done⟩ :=
        ih (m := m₁) aligned' (freeable.mono aligned aligned' (Nat.le_add_right _ _) fewer)
      rw [if_neg nonzero]
      exact ⟨r, bind_ok.mpr ⟨m₁, returned, done⟩⟩

theorem deallocLoop_rounds (aligned : a % pgsize = 0) (straight : Straight d b) :
    deallocLoop k rounds m d a b = freeEach k (pageBases a b) m d := by
  refine deallocLoop_each aligned straight (by decide) ?_
  have := straight.1
  simp only [rounds, pgsize] at *
  omega

theorem deallocLoop_frees (aligned : a % pgsize = 0) (straight : Straight d b)
    (freed : deallocLoop k rounds m d a b = .ok (d', m')) : Frees k m d a b d' m' :=
  freeEach_frees aligned straight.1 (deallocLoop_rounds aligned straight ▸ freed)

/-- The address wraps around before it reaches `b`. -/
def Bent (d : Pgdir) (b : Nat) : Prop :=
  1023 * 2 ^ 22 < b ∧ (2 ^ 32 < b + pgsize ∨ d.table 1023 = none)

theorem bent_of_not_straight (bent : ¬ Straight d b) : Bent d b := by
  rw [Straight, not_and_or, not_le, Classical.not_imp, Option.not_isSome_iff_eq_none] at bent
  obtain far | ⟨high, none⟩ := bent
  · refine ⟨?_, .inl far⟩
    simp only [pgsize] at *
    omega
  · exact ⟨high, .inr none⟩

theorem Bent.next_page {t : Pgtab} (bent : Bent d b) (aligned : a % pgsize = 0) (word : b < 2 ^ 32)
    (found : d.table (pdx a) = some t) :
    (a + pgsize) % 2 ^ 32 % pgsize = 0 ∧ (a + pgsize) % 2 ^ 32 < b := by
  obtain ⟨high, far | none⟩ := bent
  · simp only [pgsize] at aligned far ⊢
    omega
  · have other : pdx a ≠ 1023 := fun last => by
      rw [last, none] at found
      cases found
    simp only [pdx, pgsize] at *
    omega

theorem Bent.setPte {t : Pgtab} (bent : Bent d b) (found : d.table (pdx a) = some t)
    (e : Option Pte) : Bent (d.setPte a e) b := by
  refine ⟨bent.1, bent.2.imp_right fun none => ?_⟩
  have other : pdx a ≠ 1023 := fun last => by
    rw [last, none] at found
    cases found
  simpa [Pgdir.setPte, Function.update_of_ne (Ne.symm other)] using none

/-- If its address wraps around, the loop does not come to its end. -/
theorem deallocLoop_wraps (aligned : a % pgsize = 0) (word : b < 2 ^ 32) (inside : a < b)
    (bent : Bent d b) : deallocLoop k n m d a b ≠ .ok (d', m') := by
  intro freed
  fun_induction deallocLoop k n m d a b with
  | case1 => cases freed
  | case2 n m d a _ _ absent ih =>
    have high := bent.1
    refine ih ?_ word ?_ bent freed
    all_goals
      simp only [pdx, pgsize] at *
      omega
  | case3 n m d a _ inside t found absent ih =>
    obtain ⟨aligned', inside'⟩ := bent.next_page aligned word found
    exact ih aligned' word inside' bent freed
  | case4 => cases freed
  | case5 n m d a _ inside t found e present _ ih =>
    obtain ⟨m₁, returned, rest⟩ := bind_ok.mp freed
    obtain ⟨aligned', inside'⟩ := bent.next_page aligned word found
    exact ih m₁ aligned' word inside' (bent.setPte found none) rest
  | case6 _ _ _ _ _ outside => exact outside inside

theorem deallocLoop_past (past : b ≤ a) : deallocLoop k rounds m d a b = .ok (d, m) := by
  rw [rounds, deallocLoop, if_neg (by omega)]

/-- `deallocuvm` from `b` down to `newsz` returns exactly when the loop has nothing to
do, or does not wrap around and finds only pages that `kfree` accepts. -/
theorem deallocLoop_ok_iff (word : b < 2 ^ 32) {newsz : Nat} :
    (∃ r, deallocLoop k rounds m d (pgroundup newsz) b = .ok r) ↔
      b ≤ pgroundup newsz ∨ Straight d b ∧ Freeable k d (pgroundup newsz) b := by
  have aligned := pgroundup_mod newsz
  constructor
  · rintro ⟨⟨d', m'⟩, freed⟩
    by_cases past : b ≤ pgroundup newsz
    · exact .inl past
    · have straight : Straight d b := by
        by_contra bent
        exact deallocLoop_wraps aligned word (not_le.mp past) (bent_of_not_straight bent) freed
      exact .inr ⟨straight, (deallocLoop_frees aligned straight freed).freeable⟩
  · rintro (past | ⟨straight, freeable⟩)
    · exact ⟨(d, m), deallocLoop_past past⟩
    · rw [deallocLoop_rounds aligned straight]
      exact freeEach_returns aligned freeable

/-- Where nothing is mapped the loop changes nothing. -/
theorem deallocLoop_idle (empty : ∀ va < b, d.pte va = none)
    (freed : deallocLoop k n m d a b = .ok (d', m')) : d' = d ∧ m' = m := by
  fun_induction deallocLoop k n m d a b with
  | case1 => cases freed
  | case2 _ _ _ _ _ _ _ ih => exact ih empty freed
  | case3 _ _ _ _ _ _ _ _ _ ih => exact ih empty freed
  | case4 _ _ _ _ _ inside _ _ _ present =>
    rw [empty _ inside] at present
    cases present
  | case5 _ _ _ _ _ inside _ _ _ present =>
    rw [empty _ inside] at present
    cases present
  | case6 =>
    cases freed
    exact ⟨rfl, rfl⟩

end Loop

section Sbrk
variable {k : Kernel} {m m' : Mem} {p q : Image} {n r : Int}

/-- A request to shrink that is granted: the old break is returned, and the pages that
start in `[PGROUNDUP(sz + n), sz)` are unmapped and freed once each. -/
structure Shrinks (m : Mem) (p : Image) (n r : Int) (q : Image) (m' : Mem) : Prop where
  value : r = int32 p.sz
  sz : (q.sz : Int) = p.sz + n
  rest : q = { p with pgdir := q.pgdir, sz := q.sz }
  unmapped : Unmapped p.pgdir (pgroundup q.sz) p.sz q.pgdir
  freelist : (m'.freelist : Multiset Nat) = m.freelist + framesIn p.pgdir (pgroundup q.sz) p.sz
  pages : ∀ f, f ∉ framesIn p.pgdir (pgroundup q.sz) p.sz → m'.page f = m.page f

/-- The request returns, and is granted or leaves everything as it was. -/
def SbrkLaw (k : Kernel) (m : Mem) (p : Image) (n : Int) : Prop :=
  ∃ r q m', sysSbrk k m p n = .ok (r, q, m') ∧ (Shrinks m p n r q m' ∨ r = -1 ∧ q = p ∧ m' = m)

theorem sysSbrk_shrink {newsz : Nat} (word : p.sz < 2 ^ 32) (negative : n < 0)
    (size : (newsz : Int) = p.sz + n) (positive : 0 < newsz) :
    sysSbrk k m p n = (deallocLoop k rounds m p.pgdir (pgroundup newsz) p.sz).map
      fun (d, m) => (int32 p.sz, { p with pgdir := d, sz := newsz }, m) := by
  have wraps : ((p.sz + n) % 2 ^ 32).toNat = newsz := by omega
  unfold sysSbrk growproc deallocuvm
  dsimp only
  rw [wraps, if_pos negative, if_neg (by omega), if_pos negative, if_neg (by omega)]
  cases deallocLoop k rounds m p.pgdir (pgroundup newsz) p.sz with
  | error e => rfl
  | ok r =>
    simp only [ok_bind, if_neg (show ¬ newsz = 0 by omega)]
    rfl

theorem sysSbrk_all (negative : n < 0) (all : (p.sz : Int) + n = 0) :
    sysSbrk k m p n = (deallocLoop k rounds m p.pgdir 0 p.sz).map fun (d, m) =>
      (-1, { p with pgdir := d }, m) := by
  have wraps : ((p.sz + n) % 2 ^ 32).toNat = 0 := by omega
  have start : pgroundup 0 = 0 := by decide
  unfold sysSbrk growproc deallocuvm
  dsimp only
  rw [wraps, if_pos negative, if_neg (by omega), if_pos negative, if_neg (by omega), start]
  cases deallocLoop k rounds m p.pgdir 0 p.sz with
  | error e => rfl
  | ok r => rfl

theorem sysSbrk_more (negative : n < 0) (int : -2 ^ 31 ≤ n) (more : (p.sz : Int) + n < 0) :
    sysSbrk k m p n = .ok (if p.sz = 0 then -1 else int32 p.sz, p, m) := by
  have wraps : p.sz ≤ ((p.sz + n) % 2 ^ 32).toNat := by omega
  unfold sysSbrk growproc deallocuvm
  dsimp only
  rw [if_pos negative, if_neg (by omega), if_pos negative, if_pos wraps]
  by_cases empty : p.sz = 0
  · simp only [ok_bind, if_pos empty]
    rfl
  · simp only [ok_bind, if_neg empty]
    rfl

/-- Part of the memory is given back. -/
theorem sbrkLaw_part {newsz : Nat} (word : p.sz < 2 ^ 32) (negative : n < 0)
    (size : (newsz : Int) = p.sz + n) (positive : 0 < newsz) :
    SbrkLaw k m p n ↔
      p.sz ≤ pgroundup newsz ∨
      Straight p.pgdir p.sz ∧ Freeable k p.pgdir (pgroundup newsz) p.sz := by
  have call := sysSbrk_shrink (k := k) (m := m) word negative size positive
  have aligned := pgroundup_mod newsz
  have granted {d : Pgdir} {m' : Mem}
      (returned : deallocLoop k rounds m p.pgdir (pgroundup newsz) p.sz = .ok (d, m'))
      (frees : Frees k m p.pgdir (pgroundup newsz) p.sz d m') : SbrkLaw k m p n := by
    refine ⟨int32 p.sz, { p with pgdir := d, sz := newsz }, m', ?_, .inl ?_⟩
    · rw [call, returned]
      rfl
    · exact ⟨rfl, size, rfl, frees.unmapped, frees.freelist, frees.pages⟩
  constructor
  · rintro ⟨r, q, m', returned, -⟩
    rw [call] at returned
    refine (deallocLoop_ok_iff (k := k) (m := m) word).mp ?_
    cases loop : deallocLoop k rounds m p.pgdir (pgroundup newsz) p.sz with
    | error e =>
      rw [loop] at returned
      cases returned
    | ok r => exact ⟨r, rfl⟩
  · rintro (past | ⟨straight, freeable⟩)
    · exact granted (deallocLoop_past past) (.nil past aligned)
    · obtain ⟨⟨d, m'⟩, returned⟩ :=
        (deallocLoop_ok_iff (m := m) word).mpr (.inr ⟨straight, freeable⟩)
      exact granted returned (deallocLoop_frees aligned straight returned)

/-- All of it is given back: `growproc` takes the new size 0 for a failure. -/
theorem sbrkLaw_all (word : p.sz < 2 ^ 32) (negative : n < 0) (all : (p.sz : Int) + n = 0) :
    SbrkLaw k m p n ↔ Straight p.pgdir p.sz ∧ ∀ va < p.sz, p.pgdir.pte va = none := by
  have call := sysSbrk_all (k := k) (m := m) negative all
  have start : pgroundup 0 = 0 := by decide
  constructor
  · rintro ⟨r, q, m', returned, law⟩
    rw [call] at returned
    cases loop : deallocLoop k rounds m p.pgdir 0 p.sz with
    | error e =>
      rw [loop] at returned
      cases returned
    | ok freed =>
      rw [loop] at returned
      cases returned
      obtain past | ⟨straight, -⟩ :=
        (deallocLoop_ok_iff (k := k) (m := m) (d := p.pgdir) word).mp ⟨_, by rw [start, loop]⟩
      · omega
      · obtain shrinks | ⟨-, same, -⟩ := law
        · have := shrinks.sz
          dsimp only at this
          omega
        · have kept : freed.1 = p.pgdir := congrArg Image.pgdir same
          refine ⟨straight, fun va inside => ?_⟩
          rw [← kept, (deallocLoop_frees (by decide) straight loop).unmapped va (by omega), if_pos]
          simp only [pgrounddown, pgsize]
          omega
  · rintro ⟨straight, empty⟩
    have freeable : Freeable k p.pgdir (pgroundup 0) p.sz := by
      intro i member e present
      rw [mem_pagesIn (by decide)] at member
      rw [empty _ member.2] at present
      cases present
    obtain ⟨⟨d, m'⟩, returned⟩ := (deallocLoop_ok_iff (m := m) word).mpr (.inr ⟨straight, freeable⟩)
    rw [start] at returned
    obtain ⟨rfl, rfl⟩ := deallocLoop_idle empty returned
    exact ⟨_, _, _, by rw [call, returned]; rfl, .inr ⟨rfl, rfl, rfl⟩⟩

/-- More than all of it is given back: the sum wraps around, and `deallocuvm` keeps the
size and returns it. -/
theorem sbrkLaw_more (negative : n < 0) (int : -2 ^ 31 ≤ n) (more : (p.sz : Int) + n < 0) :
    SbrkLaw k m p n ↔ p.sz = 0 := by
  have call := sysSbrk_more (k := k) (m := m) negative int more
  constructor
  · rintro ⟨r, q, m', returned, law⟩
    by_contra nonempty
    rw [call, if_neg nonempty] at returned
    cases returned
    obtain shrinks | ⟨failed, -⟩ := law
    · have := shrinks.sz
      omega
    · rw [int32, if_pos (by omega)] at failed
      omega
  · intro empty
    exact ⟨_, _, _, call, .inr ⟨if_pos empty, rfl, rfl⟩⟩

/-- `sbrk(n)` for a negative `n` keeps its contract exactly when the process is empty, or
gives back a part of its memory that `deallocuvm` gets through, or gives back all of its
memory and has no page of it. -/
theorem sbrk_shrinks_iff (word : p.sz < 2 ^ 32) (int : -2 ^ 31 ≤ n) (negative : n < 0) :
    SbrkLaw k m p n ↔
      p.sz = 0 ∨
      -n < p.sz ∧ (p.sz ≤ pgroundup (p.sz + n).toNat ∨
        Straight p.pgdir p.sz ∧ Freeable k p.pgdir (pgroundup (p.sz + n).toNat) p.sz) ∨
      -n = p.sz ∧ Straight p.pgdir p.sz ∧ ∀ va < p.sz, p.pgdir.pte va = none := by
  obtain part | all | more := lt_trichotomy (-n) p.sz
  · rw [sbrkLaw_part word negative (by omega : ((p.sz + n).toNat : Int) = p.sz + n) (by omega)]
    refine ⟨fun law => .inr (.inl ⟨part, law⟩), ?_⟩
    rintro (empty | ⟨-, law⟩ | ⟨all, -⟩)
    · omega
    · exact law
    · omega
  · rw [sbrkLaw_all word negative (by omega)]
    refine ⟨fun law => .inr (.inr ⟨all, law⟩), ?_⟩
    rintro (empty | ⟨part, -⟩ | ⟨-, law⟩)
    · omega
    · omega
    · exact law
  · rw [sbrkLaw_more negative int (by omega)]
    refine ⟨.inl, ?_⟩
    rintro (empty | ⟨part, -⟩ | ⟨all, -⟩)
    · exact empty
    · omega
    · omega

/-- A process of two pages. -/
def twoPages : Image :=
  let table : Pgtab := ⟨2400, fun i => if i < 2 then some ⟨2500 + i, true, true⟩ else none⟩
  ⟨⟨2300, fun i => if i = 0 then some table else none⟩, 2 * pgsize, 0, [], 0, 2 * pgsize, none⟩

theorem twoPages_straight : Straight twoPages.pgdir twoPages.sz := by
  refine ⟨by decide, fun high => ?_⟩
  exact absurd high (by decide)

theorem twoPages_freeable : Freeable smallKernel twoPages.pgdir 0 twoPages.sz := by
  intro i member e present
  rw [mem_pagesIn (by decide)] at member
  obtain rfl | rfl : i = 0 ∨ i = 1 := by
    simp only [twoPages, pgsize] at member
    omega
  · cases (by decide : twoPages.pgdir.pte (0 * pgsize) = some ⟨2500, true, true⟩).symm.trans present
    decide
  · cases (by decide : twoPages.pgdir.pte (1 * pgsize) = some ⟨2501, true, true⟩).symm.trans present
    decide

/-- It can give one of them back. -/
theorem one_page_given_back : SbrkLaw smallKernel smallMem twoPages (-4096) := by
  refine (sbrk_shrinks_iff (by decide) (by decide) (by decide)).mpr
    (.inr (.inl ⟨by decide, .inr ⟨twoPages_straight, ?_⟩⟩))
  exact twoPages_freeable.mono (by decide) (by decide) (Nat.zero_le _) fun _ => .inl rfl

/-- If it gives both back, they are freed and the call fails; if it gives back three,
the call succeeds and nothing happens. -/
theorem two_pages_given_back :
    (∃ q m', sysSbrk smallKernel smallMem twoPages (-8192) = .ok (-1, q, m') ∧ q.sz = twoPages.sz ∧
      (twoPages.pgdir.pte 0).isSome ∧ q.pgdir.pte 0 = none) ∧
      ¬ SbrkLaw smallKernel smallMem twoPages (-8192) ∧
    sysSbrk smallKernel smallMem twoPages (-12288) = .ok (8192, twoPages, smallMem) ∧
      ¬ SbrkLaw smallKernel smallMem twoPages (-12288) := by
  refine ⟨?_, fun law => ?_, sysSbrk_more (by decide) (by decide) (by decide), fun law => ?_⟩
  · have returns : ∃ r,
        deallocLoop smallKernel rounds smallMem twoPages.pgdir (pgroundup 0) twoPages.sz = .ok r :=
      (deallocLoop_ok_iff (by decide)).mpr (.inr ⟨twoPages_straight, twoPages_freeable⟩)
    obtain ⟨⟨d, m'⟩, returned⟩ := returns
    have gone := (deallocLoop_frees (by decide) twoPages_straight returned).unmapped 0 (by decide)
    refine ⟨{ twoPages with pgdir := d }, m', ?_, rfl, by decide, gone⟩
    rw [sysSbrk_all (by decide) (by decide)]
    exact congrArg (Except.map _) returned
  · have empty := ((sbrkLaw_all (by decide) (by decide) (by decide)).mp law).2 0 (by decide)
    exact absurd empty (by decide)
  · exact absurd ((sbrkLaw_more (by decide) (by decide) (by decide)).mp law) (by decide)

end Sbrk

section Deallocuvm
variable {k : Kernel} {m m' : Mem} {d d' : Pgdir} {oldsz newsz sz : Nat} {bases : List Nat}

theorem freeEach_ends : freeEach k bases m d ≠ .error .diverges := by
  induction bases generalizing m d with
  | nil => nofun
  | cons a rest ih =>
    rw [freeEach]
    split
    · exact ih
    · split
      · nofun
      · intro wrong
        rw [Mem.kfree] at wrong
        split at wrong
        · cases wrong
        · exact ih wrong

/-- The page tables stay where they are. -/
theorem freeEach_tables (freed : freeEach k bases m d = .ok (d', m')) :
    d'.frame = d.frame ∧ ∀ i, (d'.table i).map Pgtab.frame = (d.table i).map Pgtab.frame := by
  induction bases generalizing m d with
  | nil =>
    cases freed
    exact ⟨rfl, fun _ => rfl⟩
  | cons a rest ih =>
    rw [freeEach] at freed
    split at freed
    · exact ih freed
    · split at freed
      · cases freed
      · obtain ⟨m₁, -, rest⟩ := bind_ok.mp freed
        obtain ⟨same, tables⟩ := ih rest
        refine ⟨same, fun i => (tables i).trans ?_⟩
        by_cases here : i = pdx a
        · subst here
          simp only [Pgdir.setPte, Function.update_self, Option.map_map]
          rfl
        · simp only [Pgdir.setPte, Function.update_of_ne here]

theorem straight_user (user : oldsz ≤ kernbase) : Straight d oldsz := by
  refine ⟨?_, fun high => ?_⟩
  all_goals
    simp only [pgsize, kernbase] at *
    omega

theorem deallocuvm_each (old : oldsz ≤ kernbase) (new : newsz ≤ kernbase) :
    deallocuvm k m d oldsz newsz = (freeEach k (pageBases (pgroundup newsz) oldsz) m d).map
      (min oldsz newsz, ·) := by
  have rounded : newsz ≤ pgroundup newsz := by
    simp only [pgroundup, pgrounddown, pgsize, kernbase] at *
    omega
  unfold deallocuvm
  split
  · next grows =>
    rw [pageBases_nil (grows.le.trans rounded), min_eq_left grows]
    rfl
  · next shrinks =>
    rw [deallocLoop_rounds (pgroundup_mod newsz) (straight_user old), min_eq_right (by omega)]
    rfl

/-- `deallocuvm`, which skips the page tables that are not there, does what testing every
page does. It comes to its end, and where `kfree` accepts the pages in question it frees
each of them once, clears their entries and touches no other. -/
theorem deallocuvm_tests_pages (old : oldsz ≤ kernbase) (new : newsz ≤ kernbase) :
    deallocuvm k m d oldsz newsz = (freeEach k (pageBases (pgroundup newsz) oldsz) m d).map
      (min oldsz newsz, ·) ∧
    deallocuvm k m d oldsz newsz ≠ .error .diverges ∧
    (Freeable k d (pgroundup newsz) oldsz ↔ ∃ r, deallocuvm k m d oldsz newsz = .ok r) ∧
    ∀ sz d' m', deallocuvm k m d oldsz newsz = .ok (sz, d', m') →
      Frees k m d (pgroundup newsz) oldsz d' m' ∧
      d'.frame = d.frame ∧ ∀ i, (d'.table i).map Pgtab.frame = (d.table i).map Pgtab.frame := by
  have aligned := pgroundup_mod newsz
  have word : oldsz + pgsize ≤ 2 ^ 32 := (straight_user (d := d) old).1
  rw [deallocuvm_each old new]
  refine ⟨rfl, ?_⟩
  cases each : freeEach k (pageBases (pgroundup newsz) oldsz) m d with
  | error e =>
    refine ⟨fun wrong => ?_, ⟨fun freeable => ?_, nofun⟩, nofun⟩
    · cases wrong
      exact freeEach_ends each
    · obtain ⟨r, returned⟩ := freeEach_returns (m := m) aligned freeable
      cases each.symm.trans returned
  | ok r =>
    have frees := freeEach_frees aligned word each
    refine ⟨nofun, ⟨fun _ => ⟨_, rfl⟩, fun _ => frees.freeable⟩, fun sz d' m' freed => ?_⟩
    cases freed
    exact ⟨frees, freeEach_tables each⟩

/-- Two pages, the second page table between them missing. -/
def gapped : Pgdir :=
  ⟨2400, fun i =>
    if i = 0 then some ⟨2401, fun j => if j = 1 then some ⟨2500, true, true⟩ else none⟩
    else if i = 2 then some ⟨2402, fun j => if j = 0 then some ⟨2501, true, true⟩ else none⟩
    else none⟩

theorem gapped_freeable (a b : Nat) : Freeable smallKernel gapped a b := by
  intro i _ e present
  have frames : e.frame = 2500 ∨ e.frame = 2501 := by
    simp only [Pgdir.pte, gapped] at present
    split at present
    · obtain ⟨-, same⟩ := Option.ite_none_right_eq_some.mp present
      cases same
      exact .inl rfl
    split at present
    · obtain ⟨-, same⟩ := Option.ite_none_right_eq_some.mp present
      cases same
      exact .inr rfl
    · cases present
  simp only [smallKernel, phystop, pgsize]
  omega

/-- The loop skips a page table and frees the pages before and behind it. -/
theorem gapped_tested :
    gapped.table 1 = none ∧ (gapped.pte pgsize).isSome ∧ (gapped.pte (2 ^ 23)).isSome ∧
    ∃ r, deallocuvm smallKernel smallMem gapped (2 ^ 23 + pgsize) pgsize = .ok r ∧
      Frees smallKernel smallMem gapped pgsize (2 ^ 23 + pgsize) r.2.1 r.2.2 ∧
      r.2.1.pte pgsize = none ∧ r.2.1.pte (2 ^ 23) = none := by
  have law := @deallocuvm_tests_pages smallKernel smallMem gapped (2 ^ 23 + pgsize) pgsize
    (by decide) (by decide)
  obtain ⟨r, returned⟩ := law.2.2.1.mp (gapped_freeable _ _)
  have frees := (law.2.2.2 _ _ _ returned).1
  exact ⟨rfl, rfl, rfl, r, returned, frees, frees.unmapped _ (by decide),
    frees.unmapped _ (by decide)⟩

end Deallocuvm
end Aso.Xv6.Vm
