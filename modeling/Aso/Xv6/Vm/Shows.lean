import Aso.Layers
import Aso.Xv6.Vm.Copyout
import Aso.Xv6.Vm.Copyuvm

/-! What the pages of an image hold once its segments are loaded: the bytes of the file, a
later segment over an earlier one, and zeros in between. -/
namespace Aso.Xv6.Vm
open Checked

/-- The addresses that have a page hold the bytes of `img`. -/
def Shows (m : Mem) (d : Pgdir) (img : Nat → UInt8) : Prop :=
  ∀ va < kernbase, ∀ e, d.pte va = some e → m.byte (e.frame, va % pgsize) = img va

/-- No page is free twice, owned twice, or both. -/
def Apart (m : Mem) (d : Pgdir) : Prop := ∀ f, (balance m d).count f ≤ 1

section Parts
variable {k : Kernel} {m m' m₁ m₂ : Mem} {d d' : Pgdir} {img : Nat → UInt8} {a f va va' : Nat}
  {e e' : Pte}

theorem Apart.of_balance (apart : Apart m d) (kept : balance m' d' = balance m d) :
    Apart m' d' := by
  intro f
  rw [kept]
  exact apart f

theorem Apart.write (apart : Apart m d) (f off : Nat) (data : List UInt8) :
    Apart (m.write f off data) d :=
  apart.of_balance rfl

theorem Apart.owned (apart : Apart m d) (f : Nat) : d.owned.count f ≤ 1 := by
  have := apart f
  rw [balance, Multiset.count_add] at this
  omega

theorem Apart.samePage (apart : Apart m d) (user : va < kernbase) (user' : va' < kernbase)
    (present : d.pte va = some e) (present' : d.pte va' = some e') (same : e.frame = e'.frame) :
    SamePage va va' :=
  samePage_of_frame apart.owned user user' present present' same

theorem Apart.fresh (apart : Apart m d) (free : m.kalloc = some (f, m₁)) : d.owned.count f = 0 := by
  have once := apart f
  rw [balance, kalloc_freelist free, Multiset.count_add, Multiset.coe_count, List.count_cons_self]
    at once
  omega

/-- A page of zeros is added. -/
theorem Shows.addPage (shows : Shows m d img) (apart : Apart m d) (aligned : a % pgsize = 0)
    (free : m.kalloc = some (f, m₁))
    (mapped : mappages (m₁.fill f .zero) d a pgsize f true true = .ok (true, d', m₂))
    (blank : ∀ va < kernbase, SamePage a va → img va = 0) : Shows m₂ d' img := by
  rw [mappages_page aligned] at mapped
  have pages : m₂.page = Function.update m.page f .zero := by
    rw [mapLoop_keeps mapped, Mem.fill, kalloc_page free]
  intro va user e present
  rw [mapPage_pte mapped] at present
  rw [Mem.byte, pages]
  split at present
  · next here =>
    cases present
    rw [Function.update_self, Bytes.get_zero, blank va user here]
  · have old : e.frame ≠ f := by
      rintro rfl
      have := count_owned present (pdx_user user)
      have := apart.fresh free
      omega
    rw [Function.update_of_ne old]
    exact shows va user e present

end Parts

section Growing
variable {k : Kernel} {m m' : Mem} {d d' : Pgdir} {img : Nat → UInt8} {a oldsz newsz sz : Nat}

theorem allocLoop_shows {n : Nat} (shows : Shows m d img) (apart : Apart m d)
    (aligned : a % pgsize = 0) (user : a + n * pgsize ≤ kernbase)
    (blank : ∀ va < kernbase, a ≤ pgrounddown va → img va = 0)
    (grown : allocLoop k oldsz newsz n m d a = .ok (true, d', m')) : Shows m' d' img := by
  induction n generalizing m d a with
  | zero =>
    cases grown
    exact shows
  | succ n ih =>
    rw [Nat.succ_mul] at user
    have low : a < kernbase := by
      simp only [pgsize] at user
      omega
    unfold allocLoop at grown
    split at grown
    · obtain ⟨_, _, rest⟩ := bind_ok.mp grown
      cases rest
    · next f m₁ free =>
      obtain ⟨⟨mapped, d₁, m₂⟩, page, rest⟩ := bind_ok.mp grown
      cases mapped with
      | false =>
        obtain ⟨_, _, rest⟩ := bind_ok.mp rest
        obtain ⟨_, _, rest⟩ := bind_ok.mp rest
        cases rest
      | true =>
        have moved := mappages_page_balance aligned low page
        rw [if_pos rfl, kalloc_balance free] at moved
        have here : ∀ va < kernbase, SamePage a va → img va = 0 := by
          intro va small same
          refine blank va small ?_
          rw [samePage_iff (low.trans (by decide)) (small.trans (by decide))] at same
          rw [← same, pgrounddown, Nat.div_mul_cancel (Nat.dvd_of_mod_eq_zero aligned)]
        refine ih (shows.addPage apart aligned free page here) (apart.of_balance moved) ?_
          (by omega) ?_ rest
        · exact (Nat.add_mod_right a pgsize).trans aligned
        · exact fun va small later => blank va small (by omega)

/-- What `allocuvm` adds is zero. -/
theorem allocuvm_shows (shows : Shows m d img) (apart : Apart m d)
    (blank : ∀ va < kernbase, oldsz ≤ pgrounddown va → img va = 0) (done : sz ≠ 0)
    (grown : allocuvm k m d oldsz newsz = .ok (sz, d', m')) : Shows m' d' img := by
  unfold allocuvm at grown
  split at grown
  · cases grown
    exact absurd rfl done
  next user =>
  split at grown
  · cases grown
    exact shows
  next grows =>
  obtain ⟨⟨all, d₁, m₁⟩, loop, rest⟩ := bind_ok.mp grown
  cases rest
  cases all with
  | false => exact absurd rfl done
  | true =>
    have below : oldsz < kernbase := by omega
    have rounded := pgroundup_le below
    refine allocLoop_shows shows apart (pgroundup_mod _) ?_
      (fun va small later => blank va small (by omega)) loop
    have aligned := pgroundup_mod oldsz
    simp only [pgsize, kernbase] at *
    omega

end Growing

/-- `readi` on a regular file with these bytes. -/
def contents (data : List UInt8) : File := fun off n =>
  if off > data.length ∨ (off + n) % 2 ^ 32 < off then [] else (data.drop off).take n

/-- What a segment puts at an address. -/
def Proghdr.layer (data : List UInt8) (ph : Proghdr) (va : Nat) : Option UInt8 :=
  if ph.vaddr ≤ va ∧ va < ph.vaddr + ph.filesz then some (data.getD (ph.off + (va - ph.vaddr)) 0)
  else none

/-- The program headers of the segments to load, from the `n` headers at `off`. -/
def segments (file : File) : Nat → Nat → List Proghdr
  | 0, _ => []
  | n + 1, off =>
    let ph := Proghdr.decode (file off proghdrSize)
    let rest := segments file n ((off + proghdrSize) % 2 ^ 32)
    if ph.type ≠ elfProgLoad ∨ ph.memsz = 0 then rest else ph :: rest

section Reading
variable {k : Kernel} {m m' : Mem} {d d' : Pgdir} {img : Nat → UInt8} {data : List UInt8}
  {addr offset size sz : Nat}

/-- A read that is not cut short found the bytes in the file. -/
theorem contents_whole {off n : Nat} (some : 0 < n)
    (all : ((contents data off n).take n).length = n) :
    off + n ≤ data.length ∧
      ∀ j < n, ((contents data off n).take n).getD j 0 = data.getD (off + j) 0 := by
  unfold contents at *
  split at all
  · simp only [List.take_nil, List.length_nil] at all
    omega
  next inside =>
  rw [if_neg inside]
  simp only [List.length_take, List.length_drop] at all
  refine ⟨by omega, fun j small => ?_⟩
  simp only [List.getD_eq_getElem?_getD, List.take_take, min_self]
  rw [List.getElem?_take_of_lt small, List.getElem?_drop]

/-- The image with the first `i` bytes of a segment at `addr`. -/
def partly (data : List UInt8) (img : Nat → UInt8) (addr offset i va : Nat) : UInt8 :=
  if addr ≤ va ∧ va < addr + i then data.getD (offset + (va - addr)) 0 else img va

theorem loadLoop_shows {n i : Nat} (shows : Shows m d (partly data img addr offset (min i size)))
    (apart : Apart m d) (space : Space d sz) (user : sz ≤ kernbase)
    (aligned : (addr + i) % pgsize = 0) (fits : addr + size ≤ sz)
    (inside : n = 0 ∨ i + (n - 1) * pgsize < size)
    (last : size ≤ i + n * pgsize) (short : data.length < 2 ^ 32)
    (word : n = 0 ∨ offset + i < 2 ^ 32)
    (loaded : loadLoop d addr (contents data) offset size n m i = .ok (true, m')) :
    Shows m' d (partly data img addr offset size) := by
  induction n generalizing m i with
  | zero =>
    cases loaded
    rwa [min_eq_right (by omega)] at shows
  | succ n ih =>
    have further := inside.resolve_left n.succ_ne_zero
    have reads := word.resolve_left n.succ_ne_zero
    rw [Nat.add_sub_cancel] at further
    have more : i < size := by omega
    have low : addr + i < kernbase := by omega
    have wraps : (addr + i) % 2 ^ 32 = addr + i := Nat.mod_eq_of_lt (low.trans (by decide))
    obtain ⟨e, present⟩ : ∃ e, d.pte (addr + i) = some e := by
      refine Option.isSome_iff_exists.mp ((space.filled _ low).mpr ?_)
      simp only [pgrounddown, pgsize]
      omega
    obtain ⟨t, table, entry⟩ := Option.bind_eq_some_iff.mp present
    rw [loadLoop, wraps, table] at loaded
    simp only [entry, Option.map_some, Option.getD_some, Nat.mod_eq_of_lt reads] at loaded
    split at loaded
    case isFalse => cases loaded
    next whole =>
    have want : 0 < min (size - i) pgsize := by
      simp only [pgsize]
      omega
    obtain ⟨there, bytes⟩ := contents_whole want whole
    refine ih ?_ (apart.write _ _ _) ?_ ?_ ?_ ?_ loaded
    · intro va small e' present'
      have old := shows va small e' present'
      rw [byte_write (Nat.mod_lt _ (by decide)), whole]
      dsimp only
      by_cases here : SamePage (addr + i) va
      · -- on the page that is read
        rw [d.pte_congr here, present'] at present
        cases present
        have place : va = addr + i + va % pgsize := by
          rw [samePage_iff (low.trans (by decide)) (small.trans (by decide))] at here
          simp only [pgrounddown, pgsize] at *
          omega
        by_cases read : va % pgsize < min (size - i) pgsize
        · have index : offset + (va - addr) = offset + i + va % pgsize := by omega
          rw [if_pos ⟨rfl, Nat.zero_le _, by omega⟩, Nat.sub_zero, bytes _ read, partly,
            if_pos (by omega), index]
        · rw [if_neg (by omega), old, partly, partly, if_neg (by omega), if_neg (by omega)]
      · have other : e'.frame ≠ e.frame :=
          fun same => here (apart.samePage low small present present' same.symm)
        rw [if_neg fun hit => other hit.1, old, partly, partly]
        refine if_congr ?_ rfl rfl
        rw [samePage_iff (low.trans (by decide)) (small.trans (by decide))] at here
        simp only [pgrounddown, pgsize] at *
        omega
    · rw [← Nat.add_assoc]
      exact (Nat.add_mod_right _ _).trans aligned
    · simp only [pgsize] at *
      omega
    · rw [Nat.succ_mul] at last
      omega
    · simp only [pgsize] at *
      omega

theorem loaduvm_shows (shows : Shows m d img) (apart : Apart m d) (space : Space d sz)
    (user : sz ≤ kernbase) (fits : addr + size ≤ sz) (short : data.length < 2 ^ 32)
    (word : offset < 2 ^ 32)
    (loaded : loaduvm m d addr (contents data) offset size = .ok (true, m')) :
    Shows m' d (partly data img addr offset size) := by
  unfold loaduvm at loaded
  split at loaded
  · cases loaded
  next aligned =>
  refine loadLoop_shows (i := 0) ?_ apart space user (not_not.mp aligned) fits ?_ ?_ short
    (.inr word) loaded
  · intro va small e present
    rw [shows va small e present, partly, if_neg (by omega)]
  · simp only [pgsize]
    omega
  · simp only [pgsize]
    omega

/-- Loading the segments lays them over the image one after another. -/
theorem loadSegments_shows {n off e : Nat} (shows : Shows m d img) (apart : Apart m d)
    (space : Space d sz) (below : sz < kernbase)
    (blank : ∀ va < kernbase, sz ≤ pgrounddown va → img va = 0) (short : data.length < 2 ^ 32)
    (loaded : loadSegments k (contents data) n m d sz off = .ok (some e, d', m')) :
    Shows m' d' (layered img ((segments (contents data) n off).map (Proghdr.layer data))) ∧
      ∀ va < kernbase, e ≤ pgrounddown va →
      layered img ((segments (contents data) n off).map (Proghdr.layer data)) va = 0 := by
  induction n generalizing m d sz off img with
  | zero =>
    cases loaded
    exact ⟨shows, blank⟩
  | succ n ih =>
    unfold segments
    dsimp only
    cases loadSegments_round loaded with
    | skipped _ other rest =>
      rw [if_pos other]
      exact ih shows apart space below blank rest
    | @loaded size _ _ _ _ _ _ _ segment smaller straight alloc nonzero aligned load rest =>
      rw [if_neg segment, List.map_cons, layered_cons]
      obtain ⟨user, grown⟩ := allocuvm_sz alloc nonzero
      have space₁ := allocuvm_space space nonzero alloc
      have below₁ := grown ▸ max_lt below user
      have fits := Proghdr.fits smaller straight alloc nonzero
      have apart₁ := apart.of_balance (allocuvm_balance alloc)
      have zeros := allocuvm_shows shows apart blank nonzero alloc
      have same (va : Nat) :
          ((Proghdr.decode (contents data off proghdrSize)).layer data va).getD (img va) =
          partly data img (Proghdr.decode (contents data off proghdrSize)).vaddr
            (Proghdr.decode (contents data off proghdrSize)).off
            (Proghdr.decode (contents data off proghdrSize)).filesz va := by
        unfold Proghdr.layer partly
        split <;> rfl
      have filled := loaduvm_shows zeros apart₁ space₁ below₁.le fits short (field_lt _ 4 4) load
      refine ih (fun va small e present => (filled va small e present).trans (same va).symm) ?_
        space₁ below₁ ?_ rest
      · refine apart₁.of_balance ?_
        rw [balance, balance, loaduvm_freelist load]
      · intro va small beyond
        have start : pgrounddown va ≤ va := Nat.div_mul_le_self _ _
        rw [same, partly, if_neg (by omega), blank va small (by omega)]

end Reading
end Aso.Xv6.Vm
