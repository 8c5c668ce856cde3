import Aso.Xv6.Vm.Failure

/-! What `copyuvm` makes of an address space: a copy of the pages that are there, and
of nothing else, on pages that were free. When memory runs out on the way, the pages
it took are free again. -/
namespace Aso.Xv6.Vm
open Checked

/-- The free list holds different pages, all of them pages that `kfree` takes back. -/
structure Mem.Sound (k : Kernel) (m : Mem) : Prop where
  valid : ∀ f ∈ m.freelist, k.kend ≤ f ∧ f < phystop / pgsize
  distinct : m.freelist.Nodup

def Pte.flags (e : Pte) : Bool × Bool := (e.w, e.u)

/-- The pages of `src` that begin below the size and below `i` are copied into `d`. -/
structure Copying (m : Mem) (src : Pgdir) (sz i : Nat) (d : Pgdir) (m' : Mem) : Prop where
  taken : balance m' d = m.freelist
  flags : ∀ va < kernbase, (d.pte va).map Pte.flags =
    if pgrounddown va < min i sz then (src.pte va).map Pte.flags else none
  bytes : ∀ va < kernbase, ∀ e e', src.pte va = some e → d.pte va = some e' →
    m'.page e'.frame = m.page e.frame
  others : ∀ f ∉ m.freelist, m'.page f = m.page f

section Steps
variable {k : Kernel} {m m₁ m₂ m₃ : Mem} {src d d' : Pgdir} {e : Pte} {i f sz : Nat}

theorem Mem.Sound.count_le (sound : m.Sound k) (taken : balance m₁ d = m.freelist) (f : Nat) :
    (balance m₁ d).count f ≤ 1 := by
  rw [taken, Multiset.coe_count]
  exact List.nodup_iff_count_le_one.mp sound.distinct f

theorem Mem.Sound.returnable (sound : m.Sound k) (taken : balance m₁ d = m.freelist) :
    Returnable k m₁ d := by
  intro f inside
  rw [taken, Multiset.coe_count, List.count_pos_iff] at inside
  exact sound.valid f inside

/-- The pages that begin below the size and below the end of the page at `i`. -/
theorem pgrounddown_lt_next {va : Nat} (aligned : i % pgsize = 0) (user : sz ≤ kernbase)
    (inside : i < sz) (low : va < kernbase) :
    pgrounddown va < min (i + pgsize) sz ↔ pgrounddown va < min i sz ∨ SamePage i va := by
  rw [samePage_iff ((inside.trans_le user).trans (by decide)) (low.trans (by decide))]
  simp only [pgrounddown, pgsize] at *
  omega

namespace Copying

/-- A page that is not there is not copied. -/
theorem skip (copying : Copying m src sz i d m₁) (aligned : i % pgsize = 0) (user : sz ≤ kernbase)
    (inside : i < sz) (absent : src.pte i = none) : Copying m src sz (i + pgsize) d m₁ := by
  refine ⟨copying.taken, fun va low => ?_, copying.bytes, copying.others⟩
  rw [copying.flags va low]
  by_cases here : SamePage i va
  · rw [← src.pte_congr here, absent]
    simp only [Option.map_none, ite_self]
  · exact if_congr (by rw [pgrounddown_lt_next aligned user inside low, or_iff_left here]) rfl rfl

theorem absent (copying : Copying m src sz i d m₁) (aligned : i % pgsize = 0) (low : i < kernbase) :
    d.pte i = none := by
  have flags := copying.flags i low
  have start : pgrounddown i = i := Nat.div_mul_cancel (Nat.dvd_of_mod_eq_zero aligned)
  rw [start, if_neg (by omega)] at flags
  exact Option.map_eq_none_iff.mp flags

/-- The page that `kalloc` hands out is none of the copy. -/
theorem fresh (copying : Copying m src sz i d m₁) (sound : m.Sound k)
    (free : m₁.kalloc = some (f, m₂)) : d.owned.count f = 0 ∧ f ∈ m.freelist := by
  have once := sound.count_le copying.taken f
  have twice : (balance m₁ d).count f = m₂.freelist.count f + 1 + d.owned.count f := by
    rw [balance, kalloc_freelist free, Multiset.count_add, Multiset.coe_count, List.count_cons_self]
  refine ⟨by omega, ?_⟩
  have inside : 0 < (m.freelist : Multiset Nat).count f := by
    rw [← copying.taken]
    omega
  rwa [Multiset.coe_count, List.count_pos_iff] at inside

/-- One page is copied. -/
theorem page (copying : Copying m src sz i d m₁) (sound : m.Sound k) (aligned : i % pgsize = 0)
    (user : sz ≤ kernbase) (inside : i < sz) (present : src.pte i = some e)
    (used : e.frame ∉ m.freelist) (free : m₁.kalloc = some (f, m₂))
    (mapped : mappages (m₂.fill f (m₂.page e.frame)) d i pgsize f e.w e.u = .ok (true, d', m₃)) :
    Copying m src sz (i + pgsize) d' m₃ := by
  obtain ⟨new, mine⟩ := copying.fresh sound free
  have moved := mappages_page_balance aligned (inside.trans_le user) mapped
  rw [if_pos rfl, kalloc_balance free] at moved
  rw [mappages_page aligned] at mapped
  have entry := mapPage_pte mapped
  have pages : m₃.page = Function.update m₁.page f (m₁.page e.frame) := by
    rw [mapLoop_keeps mapped, Mem.fill, kalloc_page free]
  refine ⟨moved.trans copying.taken, fun va low => ?_, fun va low e₁ e₂ original copied => ?_,
    fun g outside => ?_⟩
  · rw [entry va]
    by_cases here : SamePage i va
    · rw [if_pos here, if_pos ((pgrounddown_lt_next aligned user inside low).mpr
        (.inr here)), ← src.pte_congr here, present]
      rfl
    · rw [if_neg here, copying.flags va low]
      exact if_congr (by rw [pgrounddown_lt_next aligned user inside low, or_iff_left here]) rfl rfl
  · rw [entry va] at copied
    split at copied
    · next here =>
      cases copied
      rw [← src.pte_congr here, present] at original
      cases original
      rw [pages, Function.update_self, copying.others _ used]
    · have old : e₂.frame ≠ f := by
        rintro rfl
        have := count_owned copied (pdx_user low)
        omega
      rw [pages, Function.update_of_ne old, copying.bytes va low e₁ e₂ original copied]
  · rw [pages, Function.update_of_ne (by rintro rfl; exact outside mine), copying.others g outside]

/-- The loop copies all pages, or it stops for lack of memory; the pages in use keep
their contents in both cases. -/
theorem loop (copying : Copying m src sz i d m₁) (sound : m.Sound k) (user : sz ≤ kernbase)
    (aligned : i % pgsize = 0)
    (used : ∀ va < kernbase, ∀ e, src.pte va = some e → e.frame ∉ m.freelist) {n : Nat}
    (enough : sz ≤ i + n * pgsize) :
    ∃ done left d' m', copyLoop src sz (n + 1) m₁ d i = .ok (done, left, d', m') ∧
      (∀ f ∉ m.freelist, m'.page f = m.page f) ∧ (done = true → Copying m src sz sz d' m') := by
  have finish {m₁ : Mem} {d : Pgdir} {i : Nat} (copying : Copying m src sz i d m₁) (past : sz ≤ i) :
      Copying m src sz sz d m₁ := by
    refine ⟨copying.taken, fun va low => ?_, copying.bytes, copying.others⟩
    rw [copying.flags va low, min_eq_right past, min_self]
  induction n generalizing m₁ d i with
  | zero =>
    rw [copyLoop, if_neg (by omega)]
    exact ⟨true, none, d, m₁, rfl, copying.others, fun _ => finish copying (by omega)⟩
  | succ n ih =>
    rw [copyLoop]
    split
    case isFalse past =>
      exact ⟨true, none, d, m₁, rfl, copying.others, fun _ => finish copying (by omega)⟩
    case isTrue inside =>
    have low := inside.trans_le user
    have wraps : (i + pgsize) % 2 ^ 32 = i + pgsize := by
      simp only [kernbase, pgsize] at *
      omega
    have next : (i + pgsize) % pgsize = 0 := (Nat.add_mod_right i pgsize).trans aligned
    have fewer : sz ≤ i + pgsize + n * pgsize := by
      rw [Nat.succ_mul] at enough
      omega
    rw [wraps]
    cases present : src.pte i with
    | none => exact ih (copying.skip aligned user inside present) next fewer
    | some e =>
      cases free : m₁.kalloc with
      | none => exact ⟨false, none, d, m₁, rfl, copying.others, by rintro ⟨⟩⟩
      | some taken =>
        obtain ⟨f, m₂⟩ := taken
        obtain ⟨⟨mapped, d₁, m₃⟩, page⟩ := mappages_returns (m := m₂.fill f (m₂.page e.frame))
          (f := f) (w := e.w)
          (u := e.u) aligned (copying.absent aligned low)
        have mine := (copying.fresh sound free).2
        cases mapped with
        | true =>
          obtain ⟨done, left, d', m', copied, rest⟩ :=
            ih (copying.page sound aligned user inside present (used i low e present) free page)
            next fewer
          exact ⟨done, left, d', m', bind_ok.mpr ⟨_, page, copied⟩, rest⟩
        | false =>
          refine ⟨false, some f, d₁, m₃, bind_ok.mpr ⟨_, page, rfl⟩, fun g outside => ?_,
            by rintro ⟨⟩⟩
          have other : g ≠ f := by
            rintro rfl
            exact outside mine
          have pages : m₃.page = Function.update m₁.page f (m₁.page e.frame) := by
            rw [mapLoop_keeps page, Mem.fill, kalloc_page free]
          rw [pages, Function.update_of_ne other, copying.others g outside]

/-- `setupkvm` makes an address space without user pages. -/
theorem setup (made : setupkvm k m = .ok (some d, m₁)) : Copying m src sz 0 d m₁ where
  taken := setupkvm_taken made
  flags va low := by
    rw [setupkvm_low made low, Nat.zero_min, if_neg (Nat.not_lt_zero _)]
    rfl
  bytes va low e e' _ present := by
    rw [setupkvm_low made low] at present
    cases present
  others f used := setupkvm_page used made

end Copying
end Steps

/-- A copy of the user pages of `src` that begin below `sz`, on pages that were free. -/
structure Duplicate (m : Mem) (src : Pgdir) (sz : Nat) (m' : Mem) (copy : Pgdir) : Prop where
  pages : ∀ va < kernbase, (copy.pte va).map Pte.flags = if pgrounddown va <
    sz then (src.pte va).map Pte.flags else none
  bytes : ∀ va < kernbase, ∀ e e', src.pte va = some e → copy.pte va = some e' →
    m'.page e'.frame = m.page e.frame
  apart : ∀ va < kernbase, ∀ va' < kernbase, ∀ e e', copy.pte va = some e → copy.pte va' = some e' →
    e.frame = e'.frame → SamePage va va'
  fresh : ∀ f, 0 < copy.owned.count f → f ∈ m.freelist ∧ f ∉ m'.freelist
  freelist : (m'.freelist : Multiset Nat) + copy.owned = m.freelist

section Law
variable {k : Kernel} {m m' : Mem} {src copy : Pgdir} {sz : Nat}

theorem Copying.duplicate (sound : m.Sound k) (copied : Copying m src sz sz copy m') :
    Duplicate m src sz m' copy := by
  have once := sound.count_le copied.taken
  have parts (f : Nat) : (balance m' copy).count f = m'.freelist.count f + copy.owned.count f := by
    rw [balance, Multiset.count_add, Multiset.coe_count]
  refine ⟨fun va low => by rw [copied.flags va low,
    min_self], copied.bytes, ?_, fun f mine => ?_, copied.taken⟩
  · intro va low va' low' e e' present present' same
    refine samePage_of_frame (fun f => ?_) low low' present present' same
    have := once f
    have := parts f
    omega
  · have := once f
    have sum := parts f
    constructor
    · have total : 0 < (balance m' copy).count f := by omega
      rwa [copied.taken, Multiset.coe_count, List.count_pos_iff] at total
    · exact List.count_eq_zero.mp (by omega)

/-- Freeing an address space that was built from free pages gives them all back. -/
theorem freevm_undoes {d : Pgdir} {m₁ : Mem} (sound : m.Sound k) (taken : balance m₁ d = m.freelist)
    (others : ∀ f ∉ m.freelist, m₁.page f = m.page f) :
    ∃ m', freevm k m₁ d = .ok m' ∧ (∀ f ∉ m.freelist, m'.page f = m.page f) ∧
      m'.freelist.Perm m.freelist := by
  obtain ⟨m', freed⟩ := (sound.returnable taken).freevm
  refine ⟨m', freed, fun f outside => ?_, ?_⟩
  · rw [freevm_untouched freed f, others f outside]
    rw [taken, count_freelist_eq_zero outside]
  · have all := freevm_balance freed
    rwa [taken, Multiset.coe_eq_coe] at all

/-- `copyuvm` duplicates the user pages that are there; if it fails, the pages that
it took are free again. No page in use is written in either case. -/
theorem copyuvm_duplicates (sound : m.Sound k) (user : sz ≤ kernbase)
    (used : ∀ va < kernbase, ∀ e, src.pte va = some e → e.frame ∉ m.freelist) :
    ∃ result m', copyuvm k m src sz = .ok (result, m') ∧ (∀ f ∉ m.freelist, m'.page f = m.page f) ∧
      match result with
      | some copy => Duplicate m src sz m' copy
      | none => m'.freelist.Perm m.freelist := by
  obtain ⟨⟨space, m₁⟩, made⟩ := setupkvm_returns sound.valid
  cases space with
  | none =>
    have kept := setupkvm_balance made
    rw [Vm.made, add_zero, Multiset.coe_eq_coe] at kept
    exact ⟨none, m₁, bind_ok.mpr ⟨_, made, rfl⟩, fun f used => setupkvm_page used made, kept⟩
  | some d =>
    have start : Copying m src sz 0 d m₁ := .setup made
    have loops : ∃ done left d' m', copyLoop src sz rounds m₁ d 0 = .ok (done, left, d', m') ∧
        (∀ f ∉ m.freelist, m'.page f = m.page f) ∧ (done = true → Copying m src sz sz d' m') := by
      refine start.loop sound user (Nat.zero_mod _) used ?_
      simp only [kernbase, pgsize] at *
      omega
    obtain ⟨done, left, d', m₂, loop, others, all⟩ := loops
    cases done with
    | true =>
      refine ⟨some d', m₂, bind_ok.mpr ⟨_, made, bind_ok.mpr ⟨_, loop, rfl⟩⟩, others, ?_⟩
      exact (all rfl).duplicate sound
    | false =>
      have kept := copyLoop_balance user (Nat.zero_mod _) loop
      rw [start.taken] at kept
      cases left with
      | none =>
        rw [Option.elim_none, add_zero] at kept
        obtain ⟨m', freed, pages, free⟩ := freevm_undoes sound kept others
        exact ⟨none, m', bind_ok.mpr ⟨_, made, bind_ok.mpr ⟨_, loop, bind_ok.mpr ⟨_, freed, rfl⟩⟩⟩,
          pages, free⟩
      | some f =>
        -- the page that could not be mapped is freed first
        rw [Option.elim_some] at kept
        have mine : f ∈ m.freelist := by
          have inside : 0 < (m.freelist : Multiset Nat).count f := by
            rw [← kept, Multiset.count_add, Multiset.count_singleton_self]
            omega
          rwa [Multiset.coe_count, List.count_pos_iff] at inside
        have valid := sound.valid f mine
        obtain ⟨m₃, returned⟩ : ∃ m₃, m₂.kfree k f = .ok m₃ := ⟨_, if_neg (by omega)⟩
        have taken : balance m₃ d' = m.freelist := by
          rw [← kept, balance, balance, kfree_freelist returned, ← Multiset.cons_coe,
            Multiset.cons_add, ← Multiset.singleton_add, add_comm]
        have pages (g : Nat) (outside : g ∉ m.freelist) : m₃.page g = m.page g := by
          have other : g ≠ f := by
            rintro rfl
            exact outside mine
          rw [kfree_page returned]
          exact (Function.update_of_ne other ..).trans (others g outside)
        obtain ⟨m', freed, pages, free⟩ := freevm_undoes sound taken pages
        exact ⟨none, m', bind_ok.mpr ⟨_, made, bind_ok.mpr ⟨_, loop, bind_ok.mpr ⟨_, returned,
          bind_ok.mpr ⟨_, freed, rfl⟩⟩⟩⟩, pages, free⟩

end Law

namespace Room
variable {k : Kernel} {m : Mem} {d : Pgdir} {i r c sz : Nat}

/-- With free pages for all page tables and for the pages below the size, the loop copies all. -/
theorem copyLoop (src : Pgdir) (room : Room k m d (r + c)) (user : sz ≤ kernbase)
    (aligned : i % pgsize = 0)
    (empty : ∀ va, i ≤ va → va < kernbase → d.pte va = none) (few : sz ≤ i + c * pgsize) {n : Nat}
    (enough : sz ≤ i + n * pgsize) :
    ∃ left d' m', copyLoop src sz (n + 1) m d i = .ok (true, left, d', m') ∧ Room k m' d' r := by
  induction n generalizing m d i c with
  | zero =>
    rw [Vm.copyLoop, if_neg (by omega)]
    exact ⟨none, d, m, rfl, by have := room.enough; omega, room.valid⟩
  | succ n ih =>
    rw [Vm.copyLoop]
    split
    case isFalse => exact ⟨none, d, m, rfl, by have := room.enough; omega, room.valid⟩
    case isTrue inside =>
    have low := inside.trans_le user
    have wraps : (i + pgsize) % 2 ^ 32 = i + pgsize := by
      simp only [kernbase, pgsize] at *
      omega
    have next : (i + pgsize) % pgsize = 0 := (Nat.add_mod_right i pgsize).trans aligned
    have fits : i + pgsize ≤ kernbase := by
      simp only [kernbase, pgsize] at *
      omega
    obtain ⟨c, rfl⟩ : ∃ c', c = c' + 1 := Nat.exists_eq_succ_of_ne_zero (by rintro rfl; omega)
    rw [Nat.succ_mul] at few enough
    rw [wraps]
    cases present : src.pte i with
    | none =>
      refine ih (c := c) ⟨?_, room.valid⟩ next (fun va above => empty va (by omega))
        (by omega) (by omega)
      have := room.enough
      omega
    | some e =>
      obtain ⟨f, m₁, free, left, -⟩ := room.kalloc (n := r + c)
      obtain ⟨d₁, m₂, mapped, left⟩ := (left.fill f (m₁.page e.frame)).mappages (f := f)
        (w := e.w) (u := e.u)
        aligned (by decide) (Nat.mod_self _) (fits.trans (by decide)) fun va above below =>
          empty va above (by omega)
      have later (va : Nat) (above : i + pgsize ≤ va) (below : va < kernbase) :
          d₁.pte va = none := by
        rw [mappages_outside aligned (by decide) (fits.trans (by decide)) (Nat.mod_self _)
          (.inr above) (below.trans (by decide)) mapped]
        exact empty va (by omega) below
      obtain ⟨page, d', m', copied, left⟩ := ih left next later (by omega) (by omega)
      refine ⟨page, d', m', ?_, left⟩
      rw [free]
      exact bind_ok.mpr ⟨_, mapped, copied⟩

theorem copyuvm (src : Pgdir) (room : Room k m ⟨0, fun _ => none⟩ (r + c + 1))
    (user : sz ≤ kernbase) (few : sz ≤ c * pgsize) :
    ∃ copy m', copyuvm k m src sz = .ok (some copy, m') ∧ Room k m' copy r := by
  obtain ⟨d, m₁, made, left⟩ := room.setupkvm
  have bound : sz ≤ 0 + (rounds - 1) * pgsize := by
    simp only [kernbase, pgsize] at *
    exact user.trans (by decide)
  obtain ⟨page, copy, m', copied, left⟩ := left.copyLoop src user (Nat.zero_mod _)
    (fun va _ low => setupkvm_low made low) (by omega) bound
  exact ⟨copy, m', bind_ok.mpr ⟨_, made, bind_ok.mpr ⟨_, copied, rfl⟩⟩, left⟩

/-- With memory for a stack and a copy of the address space, `fork` makes a child. -/
theorem fork {s : State} {p np : Slot} (room : Room k s.mem ⟨0, fun _ => none⟩ (r + c + 1 + 1))
    (user : (s.proc p).image.sz ≤ kernbase) (few : (s.proc p).image.sz ≤ c * pgsize)
    (slot : s.unusedSlot = some np) :
    ∃ t, s.fork k p = .ok t ∧ Room k t.mem (t.proc np).image.pgdir r ∧ (t.proc np).state = .live ∧
      (t.proc np).image.sz = (s.proc p).image.sz ∧ ∀ q, q ≠ np → t.proc q = s.proc q := by
  obtain ⟨f, m₁, free, left, -⟩ := room.kalloc
  obtain ⟨copy, m₂, copied, left⟩ := left.copyuvm (s.proc p).image.pgdir user few
  unfold State.fork
  rw [slot]
  dsimp only
  rw [free]
  refine ⟨_, bind_ok.mpr ⟨_, copied, rfl⟩, ?_⟩
  simp only [State.setProc, Function.update_self, true_and]
  exact ⟨left, fun q other => Function.update_of_ne other ..⟩

end Room

/-- A page, a hole and a guard page. -/
def holed : Pgdir :=
  ⟨2300, fun i => if i = 0 then some ⟨2301, fun j =>
    if j = 0 then some ⟨2302, true, true⟩ else if j = 2 then some ⟨2303, true, false⟩
    else none⟩ else none⟩

theorem smallMem_sound : smallMem.Sound smallKernel :=
  ⟨(smallMem_room 0 (by decide)).valid, List.nodup_range'⟩

theorem holed_duplicates : smallMem.Sound smallKernel ∧
    ∃ copy m', copyuvm smallKernel smallMem holed (4 * pgsize) = .ok (some copy, m') ∧
      (∀ f ∉ smallMem.freelist, m'.page f = smallMem.page f) ∧
      Duplicate smallMem holed (4 * pgsize) m' copy := by
  obtain ⟨copy, m', copied, -⟩ := (smallMem_room (0 + 4 + 1) (by decide)).copyuvm holed
    (by decide : 4 * pgsize ≤ kernbase) le_rfl
  refine ⟨smallMem_sound, copy, m', copied, ?_⟩
  suffices used : ∀ va < kernbase, ∀ e, holed.pte va = some e → e.frame ∉ smallMem.freelist by
    obtain ⟨result, m₁, same, law⟩ :=
      copyuvm_duplicates smallMem_sound (by decide : 4 * pgsize ≤ kernbase) used
    cases copied.symm.trans same
    exact law
  intro va _ e present
  have frames : e.frame = 2302 ∨ e.frame = 2303 := by
    simp only [Pgdir.pte, holed] at present
    split at present
    · simp only [Option.bind_some] at present
      split at present
      · cases present
        exact .inl rfl
      split at present
      · cases present
        exact .inr rfl
      · cases present
    · cases present
  rw [smallMem, List.mem_range'_1]
  omega

end Aso.Xv6.Vm
