import Aso.Xv6.Vm.Untouched

/-! The address space that `exec` builds: below the kernel it has the pages up to its
size and no others, and above it nothing that user code may use. So what `exec` writes
for the new image goes to pages of the new image. -/
namespace Aso.Xv6.Vm
open Checked

/-- An address space of size `sz` under construction. -/
structure Space (d : Pgdir) (sz : Nat) : Prop where
  filled : ∀ va < kernbase, (d.pte va).isSome ↔ pgrounddown va < sz
  hidden : ∀ va e, d.pte va = some e → e.u = true → pdx va < pdx kernbase

section Shape
variable {k : Kernel} {m m' : Mem} {d d' : Pgdir} {a b c f oldsz newsz sz : Nat}

/-- Only the number of pages matters. -/
theorem Space.resize (space : Space d b)
    (same : ∀ page, page % pgsize = 0 → (page < b ↔ page < c)) : Space d c :=
  ⟨fun va low => (space.filled va low).trans (same _ (pgrounddown_mod va)), space.hidden⟩

theorem mapKernel_hidden {ranges : List (Nat × Nat × Nat × Bool)} {done : Bool}
    (hidden : ∀ va e, d.pte va = some e → e.u = false)
    (mapped : mapKernel m d ranges = .ok (done, d', m')) :
    ∀ va e, d'.pte va = some e → e.u = false := by
  induction ranges generalizing m d with
  | nil =>
    cases mapped
    exact hidden
  | cons range rest ih =>
    obtain ⟨virt, start, stop, w⟩ := range
    obtain ⟨⟨ready, d₁, m₁⟩, first, others⟩ := bind_ok.mp mapped
    have hidden₁ : ∀ va e, d₁.pte va = some e → e.u = false := by
      intro va e present
      obtain kept | ⟨_, f, filled⟩ := mappages_pte first va
      · exact hidden va e (kept ▸ present)
      · rw [filled] at present
        cases present
        rfl
    dsimp only at others
    split at others
    · exact ih hidden₁ others
    · cases others
      exact hidden₁

theorem setupkvm_space (setup : setupkvm k m = .ok (some d, m')) : Space d 0 := by
  refine ⟨fun va low => ?_, fun va e present visible => ?_⟩
  · rw [setupkvm_low setup low]
    simp
  · unfold setupkvm at setup
    split at setup
    · cases setup
    split at setup
    · cases setup
    obtain ⟨⟨mapped, d₁, m₁⟩, filled, rest⟩ := bind_ok.mp setup
    dsimp only at rest
    split at rest
    · cases rest
      rw [mapKernel_hidden (fun va e present => by cases present) filled va e present] at visible
      cases visible
    · obtain ⟨_, _, rest⟩ := bind_ok.mp rest
      cases rest

/-- The page after the last one is mapped for the user. -/
theorem mappages_space (space : Space d a) (aligned : a % pgsize = 0) (user : a + pgsize ≤ kernbase)
    (mapped : mappages m d a pgsize f true true = .ok (true, d', m')) : Space d' (a + pgsize) := by
  have nonempty : 0 < pgsize := by decide
  have word : a + pgsize ≤ 2 ^ 32 := user.trans (by decide)
  refine ⟨fun va low => ?_, fun va e present visible => ?_⟩
  · by_cases here : pgrounddown va = a
    · have page : SamePage a va := here ▸ samePage_pgrounddown va
      rw [mappages_page aligned] at mapped
      have filled := mapLoop_filled mapped Nat.one_pos
      rw [Nat.zero_mul, Nat.add_zero, d'.pte_congr (samePage_mod.mpr page)] at filled
      rw [filled, here]
      simpa using nonempty
    · have outside : va < a ∨ a + pgsize ≤ va := by
        simp only [pgrounddown, pgsize] at *
        omega
      rw [mappages_outside aligned nonempty word (Nat.mod_self _) outside
        (low.trans (by decide)) mapped, space.filled va low]
      simp only [pgrounddown, pgsize] at *
      omega
  · obtain kept | ⟨_, i, inside, page, _⟩ :=
      mapLoop_pte ((mappages_page aligned f).symm.trans mapped) va
    · exact space.hidden va e (kept ▸ present) visible
    · rw [← page.1]
      refine pdx_user ?_
      simp only [pgsize, kernbase] at *
      omega

theorem allocLoop_space {n : Nat} (space : Space d a) (aligned : a % pgsize = 0)
    (user : a + n * pgsize ≤ kernbase)
    (grown : allocLoop k oldsz newsz n m d a = .ok (true, d', m')) : Space d' (a + n * pgsize) := by
  induction n generalizing m d a with
  | zero =>
    cases grown
    rwa [Nat.zero_mul, Nat.add_zero]
  | succ n ih =>
    have more : a + (n + 1) * pgsize = a + pgsize + n * pgsize := by rw [Nat.succ_mul]; omega
    rw [more] at user ⊢
    unfold allocLoop at grown
    split at grown
    · obtain ⟨_, _, rest⟩ := bind_ok.mp grown
      cases rest
    · next f m₁ _ =>
      obtain ⟨⟨mapped, d₁, m₂⟩, page, rest⟩ := bind_ok.mp grown
      cases mapped with
      | false =>
        obtain ⟨_, _, rest⟩ := bind_ok.mp rest
        obtain ⟨_, _, rest⟩ := bind_ok.mp rest
        cases rest
      | true =>
        have first := mappages_space space aligned (by omega) page
        exact ih first ((Nat.add_mod_right a pgsize).trans aligned) user rest

/-- `allocuvm` extends the address space to the size it returns. -/
theorem allocuvm_space (space : Space d oldsz) (done : sz ≠ 0)
    (grown : allocuvm k m d oldsz newsz = .ok (sz, d', m')) : Space d' sz := by
  obtain ⟨user, size⟩ := allocuvm_sz grown done
  unfold allocuvm at grown
  rw [if_neg (not_le.mpr user)] at grown
  split at grown
  · cases grown
    exact space
  · next grows =>
    have below := (not_lt.mp grows).trans_lt user
    obtain ⟨⟨all, d₁, m₁⟩, loop, rest⟩ := bind_ok.mp grown
    cases rest
    cases all with
    | false => exact absurd rfl done
    | true =>
      have start : Space d (pgroundup oldsz) := by
        refine space.resize fun page aligned => ?_
        simp only [pgroundup, pgrounddown, pgsize, kernbase] at *
        omega
      have bound := (pgroundup_le below).2
      have last : pgroundup oldsz + (newsz - pgroundup oldsz + (pgsize - 1)) / pgsize * pgsize ≤
          kernbase := by
        have aligned := pgroundup_mod oldsz
        simp only [pgsize, kernbase] at *
        omega
      have all := allocLoop_space start (pgroundup_mod _) last loop
      refine all.resize fun page aligned => ?_
      have aligned' := pgroundup_mod oldsz
      simp only [pgroundup, pgrounddown, pgsize, kernbase, if_true] at *
      omega

theorem clearpteu_space (space : Space d sz) (cleared : clearpteu d a = .ok d') : Space d' sz := by
  refine ⟨fun va low => ?_, fun va e present visible => ?_⟩
  · rw [clearpteu_pte cleared, ← space.filled va low]
    split <;> simp
  · rw [clearpteu_pte cleared] at present
    split at present
    · obtain ⟨e', _, rfl⟩ := Option.map_eq_some_iff.mp present
      cases visible
    · exact space.hidden va e present visible

end Shape

section Writing
variable {k : Kernel} {m m' : Mem} {d d' : Pgdir} {f sz : Nat}

theorem write_untouched (inside : 0 < d.owned.count f) (off : Nat) (data : List UInt8) :
    Untouched m d (m.write f off data) :=
  .fill (count_balance_of_owned inside) _

/-- The bytes `loaduvm` wants `i` bytes into a segment are in the file. -/
def Chunk (file : File) (offset size i : Nat) : Prop :=
  min (size - i) pgsize ≤ (file ((offset + i) % 2 ^ 32) (min (size - i) pgsize)).length

instance (file : File) (offset size i : Nat) : Decidable (Chunk file offset size i) :=
  inferInstanceAs (Decidable (_ ≤ _))

/-- One round of `loaduvm`, which finds its page. -/
theorem loadLoop_step {addr size i : Nat} (file : File) (offset : Nat) (space : Space d sz)
    (user : sz ≤ kernbase) (aligned : (addr + i) % pgsize = 0) (fits : addr + size ≤ sz)
    (inside : i < size) (n : Nat) :
    ∃ f bytes, 0 < d.owned.count f ∧ loadLoop d addr file offset size (n + 1) m i =
      if Chunk file offset size i then loadLoop d addr file offset size n (m.write f 0 bytes)
      (i + pgsize)
      else .ok (false, m.write f 0 bytes) := by
  have low : addr + i < kernbase := by omega
  have wraps : (addr + i) % 2 ^ 32 = addr + i := Nat.mod_eq_of_lt (low.trans (by decide))
  obtain ⟨e, present⟩ : ∃ e, d.pte (addr + i) = some e := by
    refine Option.isSome_iff_exists.mp ((space.filled _ low).mpr ?_)
    simp only [pgrounddown, pgsize] at *
    omega
  obtain ⟨t, found, entry⟩ := Option.bind_eq_some_iff.mp present
  let want := min (size - i) pgsize
  refine ⟨e.frame, (file ((offset + i) % 2 ^ 32) want).take want,
    count_owned present (pdx_user low), ?_⟩
  rw [loadLoop, wraps, found]
  dsimp only
  rw [entry, List.length_take]
  exact if_congr min_eq_left_iff rfl rfl

/-- The loop of `loaduvm` writes to nothing but its pages. -/
theorem loadLoop_untouched {addr offset size n i : Nat} {file : File} {done : Bool}
    (space : Space d sz) (user : sz ≤ kernbase) (aligned : (addr + i) % pgsize = 0)
    (fits : addr + size ≤ sz) (inside : n = 0 ∨ i + (n - 1) * pgsize < size)
    (loaded : loadLoop d addr file offset size n m i = .ok (done, m')) : Untouched m d m' := by
  induction n generalizing m i with
  | zero =>
    cases loaded
    exact .of_page rfl
  | succ n ih =>
    have last := inside.resolve_left n.succ_ne_zero
    rw [Nat.add_sub_cancel] at last
    obtain ⟨f, bytes, owned, step⟩ :=
      loadLoop_step (m := m) file offset space user aligned fits (by omega) n
    rw [step] at loaded
    have first : Untouched m d (m.write f 0 bytes) := write_untouched owned 0 bytes
    split at loaded
    · refine first.trans rfl (ih ?_ ?_ loaded)
      · simp only [pgsize] at *
        omega
      · simp only [pgsize] at *
        omega
    · cases loaded
      exact first

theorem loaduvm_untouched {addr offset size : Nat} {file : File} {done : Bool} (space : Space d sz)
    (user : sz ≤ kernbase) (fits : addr + size ≤ sz)
    (loaded : loaduvm m d addr file offset size = .ok (done, m')) : Untouched m d m' := by
  unfold loaduvm at loaded
  split at loaded
  · cases loaded
  · next aligned =>
    refine loadLoop_untouched space user (not_not.mp aligned) fits ?_ loaded
    simp only [pgsize]
    omega

theorem copyout_untouched {va : Nat} {buf : List UInt8} {done : Bool} (space : Space d sz)
    (copied : copyout m d va buf = .ok (done, m')) : Untouched m d m' := by
  unfold copyout at copied
  generalize buf.length = left at copied
  induction left generalizing m va buf with
  | zero =>
    cases copied
    exact .of_page rfl
  | succ left ih =>
    unfold copyoutLoop at copied
    split at copied
    · cases copied
      exact .of_page rfl
    · obtain ⟨page, found, rest⟩ := bind_ok.mp copied
      cases page with
      | none =>
        cases rest
        exact .of_page rfl
      | some f =>
        have inside : 0 < d.owned.count f := by
          unfold uva2ka at found
          split at found
          · cases found
          next t table =>
          split at found
          · cases found
          next e entry =>
          split at found
          · next visible =>
            cases found
            have present : d.pte (pgrounddown va) = some e := by
              rw [Pgdir.pte, table, Option.bind_some, entry]
            exact count_owned present (space.hidden _ e present visible)
          · cases found
        exact (write_untouched inside _ _).trans rfl (ih rest)

theorem pushArgs_untouched {argc sp : Nat} {argv : List (List UInt8)}
    {result : Option (Nat × List Nat)} (space : Space d sz)
    (pushed : pushArgs d argc argv m sp = .ok (result, m')) : Untouched m d m' := by
  induction argv generalizing m m' argc sp result with
  | nil =>
    cases pushed
    exact .of_page rfl
  | cons arg rest ih =>
    unfold pushArgs at pushed
    split at pushed
    · cases pushed
      exact .of_page rfl
    · obtain ⟨⟨copied, m₁⟩, first, others⟩ := bind_ok.mp pushed
      have start := copyout_untouched space first
      dsimp only at others
      split at others
      · obtain ⟨⟨top, m₂⟩, later, done⟩ := bind_ok.mp others
        have all := start.trans (by rw [balance, balance, copyout_freelist first]) (ih later)
        cases top <;> cases done <;> exact all
      · cases others
        exact start

theorem buildStack_untouched {size : Nat} {argv : List (List UInt8)} {result : Option Nat}
    (space : Space d sz) (built : buildStack m d size argv = .ok (result, m')) :
    Untouched m d m' := by
  obtain ⟨⟨pushed, m₁⟩, args, rest⟩ := bind_ok.mp built
  have start := pushArgs_untouched space args
  cases pushed with
  | none =>
    cases rest
    exact start
  | some top =>
    obtain ⟨⟨copied, m₂⟩, table, done⟩ := bind_ok.mp rest
    cases done
    exact start.trans (by rw [balance, balance, pushArgs_freelist args])
      (copyout_untouched space table)

end Writing
end Aso.Xv6.Vm
