import Aso.Xv6.Vm.Pages
import Mathlib.Data.Fintype.Card

/-! With a free page for every page table that may be missing, mapping pages that are
not there succeeds, and so does the boot of the first process. -/
namespace Aso.Xv6.Vm
open Checked

/-- How many page tables a directory could still need. -/
def Pgdir.tablesLeft (d : Pgdir) : Nat :=
  (Finset.univ.filter fun i : Fin npdentries => (d.table i).isNone).card

/-- Free pages for all missing page tables and for `n` more pages, all of them pages
that `kfree` takes back. -/
structure Room (k : Kernel) (m : Mem) (d : Pgdir) (n : Nat) : Prop where
  enough : d.tablesLeft + n ≤ m.freelist.length
  valid : ∀ f ∈ m.freelist, k.kend ≤ f ∧ f < phystop / pgsize

/-- How many of the page tables that are `needed` a directory does not have. -/
def Pgdir.lacks (d : Pgdir) (needed : Nat → Bool) : Nat :=
  (Finset.univ.filter fun i : Fin npdentries => needed i ∧ (d.table i).isNone).card

/-- Free pages for the page tables that are `needed` only. -/
structure Spare (needed : Nat → Bool) (k : Kernel) (m : Mem) (d : Pgdir) (n : Nat) : Prop where
  enough : d.lacks needed + n ≤ m.freelist.length
  valid : ∀ f ∈ m.freelist, k.kend ≤ f ∧ f < phystop / pgsize

variable {needed : Nat → Bool} {k : Kernel} {m : Mem} {d : Pgdir} {n : Nat} {w u : Bool}

namespace Spare

theorem kalloc (spare : Spare needed k m d (n + 1)) :
    ∃ f m', m.kalloc = some (f, m') ∧ Spare needed k m' d n ∧ k.kend ≤ f ∧
      f < phystop / pgsize := by
  obtain ⟨enough, valid⟩ := spare
  unfold Mem.kalloc
  cases free : m.freelist with
  | nil => simp [free] at enough
  | cons f rest =>
    rw [free] at valid enough
    exact ⟨f, _, rfl, ⟨Nat.le_of_succ_le_succ enough, fun g inside => valid g (.tail _ inside)⟩,
      valid f (.head _)⟩

theorem setPte (spare : Spare needed k m d n) (a : Nat) (e : Option Pte) :
    Spare needed k m (d.setPte a e) n := by
  have same (i : Nat) : ((d.setPte a e).table i).isNone = (d.table i).isNone := by
    obtain rfl | other := eq_or_ne i (pdx a)
    · simp [Pgdir.setPte]
    · simp [Pgdir.setPte, other]
  exact ⟨by simpa only [Pgdir.lacks, same] using spare.enough, spare.valid⟩

theorem lacks_add {a : Nat} (used : needed (pdx a) = true) (absent : d.table (pdx a) = none)
    (t : Pgtab) :
    (Pgdir.mk d.frame (Function.update d.table (pdx a) (some t))).lacks needed + 1 =
      d.lacks needed := by
  have bound : pdx a < npdentries := Nat.mod_lt _ (by decide)
  have erased : (Finset.univ.filter fun i : Fin npdentries =>
      needed i ∧ (Function.update d.table (pdx a) (some t) i).isNone) =
      (Finset.univ.filter fun i : Fin npdentries => needed i ∧ (d.table i).isNone).erase
        ⟨pdx a, bound⟩ := by
    ext i
    obtain rfl | other := eq_or_ne i ⟨pdx a, bound⟩
    · simp
    · have differs : (i : Nat) ≠ pdx a := fun same => other (Fin.ext same)
      simp [other, differs]
  unfold Pgdir.lacks
  dsimp only
  rw [erased, Finset.card_erase_add_one]
  simp [absent, used]

theorem walkpgdir {a : Nat} (spare : Spare needed k m d n) (used : needed (pdx a) = true) :
    ∃ d' m', walkpgdir m d a = some (d', m') ∧ Spare needed k m' d' n := by
  unfold Vm.walkpgdir
  split
  · exact ⟨d, m, rfl, spare⟩
  · next absent =>
    -- the table that is made was one of those counted as missing
    have counted (t : Pgtab) :
        Spare needed k m ⟨d.frame, Function.update d.table (pdx a) (some t)⟩ (n + 1) := by
      have added := lacks_add used absent t
      refine ⟨?_, spare.valid⟩
      rw [Nat.add_comm n, ← Nat.add_assoc, added]
      exact spare.enough
    obtain ⟨f, m', free, _, _⟩ := (counted ⟨0, fun _ => none⟩).kalloc
    obtain ⟨f', m'', free', left, _⟩ := (counted ⟨f, fun _ => none⟩).kalloc
    cases free.symm.trans free'
    rw [free]
    exact ⟨_, _, rfl, left⟩

/-- Mapping absent pages succeeds. -/
theorem mapLoop {c a f : Nat} (spare : Spare needed k m d n) (distinct : c * pgsize ≤ 2 ^ 32)
    (used : ∀ i < c, needed (pdx (a + i * pgsize)) = true)
    (absent : ∀ i < c, d.pte ((a + i * pgsize) % 2 ^ 32) = none) :
    ∃ d' m', mapLoop c m d a f w u = .ok (true, d', m') ∧ Spare needed k m' d' n := by
  induction c generalizing m d a f with
  | zero => exact ⟨d, m, rfl, spare⟩
  | succ c ih =>
    have here : needed (pdx a) = true := by
      have := used 0 c.succ_pos
      rwa [Nat.zero_mul, Nat.add_zero] at this
    obtain ⟨d₁, m₁, walked, spare⟩ := spare.walkpgdir here
    obtain ⟨first, rest⟩ := absent_rest distinct absent walked (some ⟨f, w, u⟩)
    have later (i : Nat) :
        ((a + pgsize) % 2 ^ 32 + i * pgsize) % 2 ^ 32 = (a + (i + 1) * pgsize) % 2 ^ 32 := by
      rw [Nat.mod_add_mod, Nat.succ_mul, Nat.add_comm (i * pgsize), ← Nat.add_assoc]
    have others : ∀ i < c, needed (pdx ((a + pgsize) % 2 ^ 32 + i * pgsize)) = true := by
      intro i inside
      rw [← used (i + 1) (Nat.succ_lt_succ inside), ← (samePage_mod.mpr ⟨rfl, rfl⟩).1, later i]
      exact congrArg needed (samePage_mod.mpr ⟨rfl, rfl⟩).1
    have fewer : c * pgsize ≤ 2 ^ 32 := (Nat.mul_le_mul_right _ c.le_succ).trans distinct
    obtain ⟨d', m', mapped, left⟩ := ih (f := f + 1) (spare.setPte a _) fewer others rest
    refine ⟨d', m', ?_, left⟩
    simp only [Vm.mapLoop, walked, first]
    exact mapped

theorem mappages {a size f : Nat} (spare : Spare needed k m d n) (aligned : a % pgsize = 0)
    (nonempty : 0 < size) (whole : size % pgsize = 0) (fits : a + size ≤ 2 ^ 32)
    (used : ∀ va, a ≤ va → va < a + size → needed (pdx va) = true)
    (absent : ∀ va, a ≤ va → va < a + size → d.pte va = none) :
    ∃ d' m', mappages m d a size f w u = .ok (true, d', m') ∧ Spare needed k m' d' n := by
  refine spare.mapLoop ?_ (fun i inside => used _ ?_ ?_) fun i inside => absent _ ?_ ?_
  all_goals
    simp only [pgrounddown, pgsize] at *
    omega

/-- Mapping the kernel's ranges succeeds with the page tables that these ranges need. -/
theorem mapKernel {ranges : List (Nat × Nat × Nat × Bool)} {b : Nat} (spare : Spare needed k m d n)
    (ascending : Ascending b ranges)
    (used : ∀ r ∈ ranges, ∀ va, r.1 ≤ va → va < r.1 + (r.2.2.1 + 2 ^ 32 - r.2.1) % 2 ^ 32 →
      needed (pdx va) = true)
    (absent : ∀ va, b ≤ va → va < 2 ^ 32 → d.pte va = none) :
    ∃ d' m', mapKernel m d ranges = .ok (true, d', m') ∧ Spare needed k m' d' n := by
  induction ranges generalizing m d b with
  | nil => exact ⟨d, m, rfl, spare⟩
  | cons range rest ih =>
    obtain ⟨virt, start, stop, w⟩ := range
    obtain ⟨above, aligned, nonempty, whole, fits, ascending⟩ := ascending
    obtain ⟨d₁, m₁, mapped, spare⟩ := spare.mappages aligned nonempty whole fits (used _ (.head _))
      fun va inside below => absent va (above.trans inside) (below.trans_le fits)
    have later :
        ∀ va, virt + (stop + 2 ^ 32 - start) % 2 ^ 32 ≤ va → va < 2 ^ 32 → d₁.pte va = none := by
      intro va outside below
      rw [mappages_outside aligned nonempty fits whole (.inr outside) below mapped]
      exact absent va (by omega) below
    obtain ⟨d', m', others, left⟩ :=
      ih spare ascending (fun r member => used r (.tail _ member)) later
    exact ⟨d', m', bind_ok.mpr ⟨_, mapped, others⟩, left⟩

theorem setupkvm_ranges (spare : Spare needed k m ⟨0, fun _ => none⟩ (n + 1))
    (used : ∀ r ∈ kmap k, ∀ va, r.1 ≤ va → va < r.1 + (r.2.2.1 + 2 ^ 32 - r.2.1) % 2 ^ 32 →
      needed (pdx va) = true) :
    ∃ d m', setupkvm k m = .ok (some d, m') ∧ Spare needed k m' d n := by
  obtain ⟨f, m₁, free, left, _⟩ := spare.kalloc
  have fresh : Spare needed k m₁ ⟨f, fun _ => none⟩ n := ⟨left.enough, left.valid⟩
  obtain ⟨d, m', mapped, left⟩ := fresh.mapKernel (kmap_ascending k) used fun _ _ _ => rfl
  refine ⟨d, m', ?_, left⟩
  unfold Vm.setupkvm
  rw [free]
  dsimp only
  rw [if_neg (by decide)]
  exact bind_ok.mpr ⟨_, mapped, rfl⟩

theorem setupkvm (spare : Spare needed k m ⟨0, fun _ => none⟩ (n + 1))
    (used : ∀ va, kernbase ≤ va → va < 2 ^ 32 → needed (pdx va) = true) :
    ∃ d m', setupkvm k m = .ok (some d, m') ∧ Spare needed k m' d n := by
  refine spare.setupkvm_ranges fun r member va inside below => ?_
  obtain ⟨above, fits⟩ := (kmap_ascending k).bounds member
  exact used va (above.trans inside) (below.trans_le fits)

end Spare

/-- All page tables may be needed. -/
theorem room_iff : Room k m d n ↔ Spare (fun _ => true) k m d n := by
  have same : d.lacks (fun _ => true) = d.tablesLeft := by
    simp only [Pgdir.lacks, Pgdir.tablesLeft, true_and]
  constructor
  · rintro ⟨enough, valid⟩
    exact ⟨same ▸ enough, valid⟩
  · rintro ⟨enough, valid⟩
    exact ⟨same ▸ enough, valid⟩

namespace Room

theorem kalloc (room : Room k m d (n + 1)) :
    ∃ f m', m.kalloc = some (f, m') ∧ Room k m' d n ∧ k.kend ≤ f ∧ f < phystop / pgsize := by
  simp only [room_iff] at *
  exact room.kalloc

theorem fill (room : Room k m d n) (f : Nat) (data : Page) : Room k (m.fill f data) d n :=
  ⟨room.enough, room.valid⟩

theorem mappages {a size f : Nat} (room : Room k m d n) (aligned : a % pgsize = 0)
    (nonempty : 0 < size) (whole : size % pgsize = 0) (fits : a + size ≤ 2 ^ 32)
    (absent : ∀ va, a ≤ va → va < a + size → d.pte va = none) :
    ∃ d' m', mappages m d a size f w u = .ok (true, d', m') ∧ Room k m' d' n := by
  simp only [room_iff] at *
  exact room.mappages aligned nonempty whole fits (fun _ _ _ => rfl) absent

theorem setupkvm (room : Room k m ⟨0, fun _ => none⟩ (n + 1)) :
    ∃ d m', setupkvm k m = .ok (some d, m') ∧ Room k m' d n := by
  simp only [room_iff] at *
  exact room.setupkvm fun _ _ _ => rfl

theorem inituvm {code : List UInt8} (room : Room k m d (n + 1)) (short : code.length < pgsize)
    (empty : ∀ va < pgsize, d.pte va = none) :
    ∃ d' m' f, inituvm m d code = .ok (d', m') ∧ Room k m' d' n ∧ d'.pte 0 = some ⟨f, true, true⟩ ∧
      (k.kend ≤ f ∧ f < phystop / pgsize) ∧ ∀ va, pgsize ≤ va → va < 2 ^ 32 →
      d'.pte va = d.pte va := by
  obtain ⟨f, m₁, free, left, usable⟩ := room.kalloc
  obtain ⟨d', m', mapped, left⟩ := (left.fill f .zero).mappages (f := f) (w := true) (u := true)
    (Nat.zero_mod _)
    (by decide) (Nat.mod_self _) (by decide) fun va _ below => empty va (by omega)
  refine ⟨d', m'.write f 0 code, f, ?_, ⟨left.enough, left.valid⟩, ?_, usable, fun va above below =>
    mappages_outside (Nat.zero_mod _) (by decide) (by decide) (Nat.mod_self _)
    (.inr (by omega)) below mapped⟩
  · unfold Vm.inituvm
    rw [if_neg (not_le.mpr short), free]
    exact bind_ok.mpr ⟨_, mapped, rfl⟩
  · rw [mappages_page (Nat.zero_mod _)] at mapped
    exact mapLoop_filled mapped one_pos

end Room

/-- The first process, alone in the process table. -/
def firstState (m : Mem) (d : Pgdir) (stack : Nat) : State :=
  ⟨m, Function.update (fun _ => emptyProc) 0
    ⟨.live, stack, false, ⟨d, pgsize, 0, [], 0, pgsize, none⟩⟩⟩

/-- The first process has one page at most, and it may use it. -/
theorem userinit_ok {code : List UInt8} {s : State} (booted : userinit k m code = .ok s) :
    ∃ m' d stack, s = firstState m' d stack ∧
      ∀ va < kernbase, ∀ e, d.pte va = some e → e.u = true := by
  unfold userinit at booted
  split at booted
  · cases booted
  · next stack m₁ _ =>
    obtain ⟨⟨made, m₂⟩, setup, rest⟩ := bind_ok.mp booted
    cases made with
    | none => cases rest
    | some d₁ =>
      obtain ⟨⟨d, m₃⟩, loaded, rest⟩ := bind_ok.mp rest
      cases rest
      refine ⟨m₃, d, stack, rfl, fun va low e present => ?_⟩
      unfold inituvm at loaded
      split at loaded
      · cases loaded
      split at loaded
      · cases loaded
      obtain ⟨_, mapped, rest⟩ := bind_ok.mp loaded
      cases rest
      by_contra hidden
      have old := mappages_hides mapped va e present (Bool.eq_false_iff.mpr hidden)
      rw [setupkvm_low setup low] at old
      cases old

/-- With memory for it, `userinit` makes a first process of one page. -/
theorem userinit_boots (code : List UInt8) (room : Room k m ⟨0, fun _ => none⟩ (n + 3))
    (short : code.length < pgsize) :
    ∃ m' d f stack, userinit k m code = .ok (firstState m' d stack) ∧ Room k m' d n ∧
      d.pte 0 = some ⟨f, true, true⟩ ∧ (k.kend ≤ f ∧ f < phystop / pgsize) ∧
      ∀ va, pgsize ≤ va → va < kernbase → d.pte va = none := by
  obtain ⟨stack, m₁, free, left, _⟩ := room.kalloc
  obtain ⟨d₁, m₂, setup, left⟩ := left.setupkvm
  have empty : ∀ va < pgsize, d₁.pte va = none :=
    fun va below => setupkvm_low setup (below.trans (by decide))
  obtain ⟨d, m₃, f, loaded, left, first, usable, others⟩ := left.inituvm short empty
  refine ⟨m₃, d, f, stack, ?_, left, first, usable, fun va above low => ?_⟩
  · unfold userinit
    rw [free]
    exact bind_ok.mpr ⟨_, setup, bind_ok.mpr ⟨_, loaded, rfl⟩⟩
  · rw [others va above (low.trans (by decide)), setupkvm_low setup low]

/-- A machine with two thousand free pages. -/
def smallKernel : Kernel := ⟨264, 300, by decide, by decide, by decide⟩

def smallMem : Mem := ⟨List.range' 300 2000, fun _ => .zero⟩

theorem smallMem_room (n : Nat) (fits : n ≤ 976) :
    Room smallKernel smallMem ⟨0, fun _ => none⟩ n := by
  refine ⟨?_, fun f inside => ?_⟩
  · have none : (Pgdir.mk 0 fun _ => none).tablesLeft = npdentries := by simp [Pgdir.tablesLeft]
    rw [none]
    simp only [smallMem, List.length_range', npdentries]
    omega
  · simp only [smallMem, List.mem_range'_1] at inside
    simp only [smallKernel, phystop, pgsize]
    omega

end Aso.Xv6.Vm
