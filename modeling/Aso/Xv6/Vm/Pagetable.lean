import Aso.Bytes
import Aso.Xv6.Param

/-! Physical pages and page tables: kalloc.c and vm.c. Physical pages are numbered,
so that the kernel's two views of a page, by physical and by kernel virtual address,
are one number. A page directory is a tree whose nodes carry the number of the page
they are stored in, and an entry that is not present is absent. Addresses and sizes
are 32-bit words with explicit wrap-around. -/
namespace Aso.Xv6.Vm

def pgsize : Nat := 4096
def kernbase : Nat := 0x80000000
def extmem : Nat := 0x100000
def phystop : Nat := 0xE000000
def devspace : Nat := 0xFE000000
def kernlink : Nat := kernbase + extmem
def npdentries : Nat := 1024

def pgrounddown (a : Nat) : Nat := a / pgsize * pgsize
def pgroundup (a : Nat) : Nat := pgrounddown ((a + (pgsize - 1)) % 2 ^ 32)
def pdx (va : Nat) : Nat := va / 2 ^ 22 % 1024
def ptx (va : Nat) : Nat := va / 2 ^ 12 % 1024

abbrev Page := Bytes pgsize

inductive Panic where
  | kfree | remap | phystopTooHigh | clearpteu | loadAligned | loadExist | inituvm | userinit
  /-- A page-table entry is read through a null pointer. -/
  | nullPte
  /-- A loop whose counter wraps around before it reaches its bound. -/
  | diverges
  deriving DecidableEq

/-- What the linker decides: the first page of the kernel's data and the first
page after its `end`. -/
structure Kernel where
  data : Nat
  kend : Nat
  text_lt : extmem / pgsize < data
  data_lt : data < kend
  kend_lt : kend < phystop / pgsize

structure Mem where
  freelist : List Nat
  page : Nat → Page

namespace Mem

def kalloc (m : Mem) : Option (Nat × Mem) :=
  match m.freelist with
  | [] => none
  | f :: rest => some (f, { m with freelist := rest })

def fill (m : Mem) (f : Nat) (data : Page) : Mem := { m with page := Function.update m.page f data }

/-- `kfree`, which fills the page with junk. -/
def kfree (k : Kernel) (m : Mem) (f : Nat) : Except Panic Mem :=
  if f < k.kend ∨ f ≥ phystop / pgsize then .error .kfree
  else .ok { m.fill f (fun _ => 1) with freelist := f :: m.freelist }

end Mem

structure Pte where
  frame : Nat
  w : Bool
  u : Bool
  deriving DecidableEq

structure Pgtab where
  frame : Nat
  pte : Nat → Option Pte

structure Pgdir where
  frame : Nat
  table : Nat → Option Pgtab

namespace Pgdir

/-- The entry that maps address `va`, if its page table exists. -/
def pte (d : Pgdir) (va : Nat) : Option Pte := (d.table (pdx va)).bind (·.pte (ptx va))

def setPte (d : Pgdir) (va : Nat) (e : Option Pte) : Pgdir :=
  { d with
    table := Function.update d.table (pdx va)
      ((d.table (pdx va)).map fun t => { t with pte := Function.update t.pte (ptx va) e }) }

end Pgdir

/-- `walkpgdir` with `alloc`: the page table of `va` is there afterwards, or the
result is null. Without `alloc` it only looks at the directory. -/
def walkpgdir (m : Mem) (d : Pgdir) (va : Nat) : Option (Pgdir × Mem) :=
  match d.table (pdx va) with
  | some _ => some (d, m)
  | none =>
    match m.kalloc with
    | none => none
    | some (f, m) =>
      some ({ d with table := Function.update d.table (pdx va) (some ⟨f, fun _ => none⟩) }, m)

/-- The loop of `mappages` over `n` pages; the result is whether it got to the end. -/
def mapLoop : Nat → Mem → Pgdir → Nat → Nat → Bool → Bool → Except Panic (Bool × Pgdir × Mem)
  | 0, m, d, _, _, _, _ => .ok (true, d, m)
  | n + 1, m, d, a, f, w, u =>
    match walkpgdir m d a with
    | none => .ok (false, d, m)
    | some (d, m) =>
      if (d.pte a).isSome then .error .remap
      else mapLoop n m (d.setPte a (some ⟨f, w, u⟩)) ((a + pgsize) % 2 ^ 32) (f + 1) w u

def mappages (m : Mem) (d : Pgdir) (va size f : Nat) (w u : Bool) :
    Except Panic (Bool × Pgdir × Mem) :=
  let a := pgrounddown va
  let last := pgrounddown ((va + size + (2 ^ 32 - 1)) % 2 ^ 32)
  mapLoop ((last + 2 ^ 32 - a) % 2 ^ 32 / pgsize + 1) m d a f w u

/-- The loop of `deallocuvm`; a page table that is not there is skipped as a whole. -/
def deallocLoop (k : Kernel) : Nat → Mem → Pgdir → Nat → Nat → Except Panic (Pgdir × Mem)
  | 0, _, _, _, _ => .error .diverges
  | rounds + 1, m, d, a, oldsz =>
    if a < oldsz then
      match d.table (pdx a) with
      | none => deallocLoop k rounds m d ((pdx a + 1) * 2 ^ 22 % 2 ^ 32) oldsz
      | some _ =>
        match d.pte a with
        | none => deallocLoop k rounds m d ((a + pgsize) % 2 ^ 32) oldsz
        | some e =>
          if e.frame = 0 then .error .kfree
          else do
            let m ← m.kfree k e.frame
            deallocLoop k rounds m (d.setPte a none) ((a + pgsize) % 2 ^ 32) oldsz
    else .ok (d, m)

/-- More rounds than there are pages. -/
def rounds : Nat := 2 ^ 20 + 1

def deallocuvm (k : Kernel) (m : Mem) (d : Pgdir) (oldsz newsz : Nat) :
    Except Panic (Nat × Pgdir × Mem) :=
  if newsz ≥ oldsz then .ok (oldsz, d, m)
  else do
    let (d, m) ← deallocLoop k rounds m d (pgroundup newsz) oldsz
    .ok (newsz, d, m)

/-- Free the page tables with index at least `i`, of which `n` indices are left. -/
def freeTables (k : Kernel) : Nat → Mem → Pgdir → Nat → Except Panic Mem
  | 0, m, _, _ => .ok m
  | n + 1, m, d, i =>
    match d.table i with
    | none => freeTables k n m d (i + 1)
    | some t => do
      let m ← m.kfree k t.frame
      freeTables k n m d (i + 1)

def freevm (k : Kernel) (m : Mem) (d : Pgdir) : Except Panic Mem := do
  let (_, d, m) ← deallocuvm k m d kernbase 0
  let m ← freeTables k npdentries m d 0
  m.kfree k d.frame

/-- `kmap`: virtual address, physical range and whether it is writable. -/
def kmap (k : Kernel) : List (Nat × Nat × Nat × Bool) :=
  [(kernbase, 0, extmem, true),
   (kernlink, extmem, k.data * pgsize, false),
   (kernbase + k.data * pgsize, k.data * pgsize, phystop, true),
   (devspace, devspace, 0, true)]

def mapKernel (m : Mem) (d : Pgdir) :
    List (Nat × Nat × Nat × Bool) → Except Panic (Bool × Pgdir × Mem)
  | [] => .ok (true, d, m)
  | (virt, start, stop, w) :: rest => do
    let (mapped, d, m) ← mappages m d virt ((stop + 2 ^ 32 - start) % 2 ^ 32)
        (start / pgsize) w false
    if mapped then mapKernel m d rest else .ok (false, d, m)

/-- Null when there is no memory for it. -/
def setupkvm (k : Kernel) (m : Mem) : Except Panic (Option Pgdir × Mem) :=
  match m.kalloc with
  | none => .ok (none, m)
  | some (f, m) =>
    if kernbase + phystop > devspace then .error .phystopTooHigh
    else do
      let (mapped, d, m) ← mapKernel m ⟨f, fun _ => none⟩ (kmap k)
      if mapped then .ok (some d, m)
      else do
        let m ← freevm k m d
        .ok (none, m)

/-- The loop of `allocuvm` over the `n` pages from `a` on; `false` when memory ran out. -/
def allocLoop (k : Kernel) (oldsz newsz : Nat) :
    Nat → Mem → Pgdir → Nat → Except Panic (Bool × Pgdir × Mem)
  | 0, m, d, _ => .ok (true, d, m)
  | n + 1, m, d, a =>
    match m.kalloc with
    | none => do
      let (_, d, m) ← deallocuvm k m d newsz oldsz
      .ok (false, d, m)
    | some (f, m) => do
      let (mapped, d, m) ← mappages (m.fill f .zero) d a pgsize f true true
      if mapped then allocLoop k oldsz newsz n m d (a + pgsize)
      else do
        let (_, d, m) ← deallocuvm k m d newsz oldsz
        let m ← m.kfree k f
        .ok (false, d, m)

/-- The new size, zero on error. -/
def allocuvm (k : Kernel) (m : Mem) (d : Pgdir) (oldsz newsz : Nat) :
    Except Panic (Nat × Pgdir × Mem) :=
  if newsz ≥ kernbase then .ok (0, d, m)
  else if newsz < oldsz then .ok (oldsz, d, m)
  else do
    let a := pgroundup oldsz
    let (grown, d, m) ← allocLoop k oldsz newsz ((newsz - a + (pgsize - 1)) / pgsize) m d a
    .ok (if grown then newsz else 0, d, m)

/-- Clear the user bit of the page at `va`. -/
def clearpteu (d : Pgdir) (va : Nat) : Except Panic Pgdir :=
  match d.table (pdx va) with
  | none => .error .clearpteu
  | some _ => .ok (d.setPte va ((d.pte va).map fun e => { e with u := false }))

/-- The loop of `copyuvm` from address `i` on into the new
directory; `false` when memory ran out. -/
def copyLoop (src : Pgdir) (sz : Nat) :
    Nat → Mem → Pgdir → Nat → Except Panic (Bool × Option Nat × Pgdir × Mem)
  | 0, _, _, _ => .error .diverges
  | rounds + 1, m, d, i =>
    if i < sz then
      match src.pte i with
      | none => copyLoop src sz rounds m d ((i + pgsize) % 2 ^ 32)
      | some e =>
        match m.kalloc with
        | none => .ok (false, none, d, m)
        | some (f, m) => do
          let (mapped, d, m) ← mappages (m.fill f (m.page e.frame)) d i pgsize f e.w e.u
          if mapped then copyLoop src sz rounds m d ((i + pgsize) % 2 ^ 32)
          else .ok (false, some f, d, m)
    else .ok (true, none, d, m)

def copyuvm (k : Kernel) (m : Mem) (src : Pgdir) (sz : Nat) :
    Except Panic (Option Pgdir × Mem) := do
  match ← setupkvm k m with
  | (none, m) => .ok (none, m)
  | (some d, m) =>
    match ← copyLoop src sz rounds m d 0 with
    | (true, _, d, m) => .ok (some d, m)
    | (false, none, d, m) => do
      let m ← freevm k m d
      .ok (none, m)
    | (false, some f, d, m) => do
      let m ← m.kfree k f
      let m ← freevm k m d
      .ok (none, m)

end Aso.Xv6.Vm
