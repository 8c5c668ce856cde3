import Aso.Xv6.Ftable.Machine
import Aso.Xv6.Vm.Machine

/-! The pages of kalloc.c over the life of the system, from the boot in main.c on:
address spaces and kernel stacks come and go with the processes of the `Vm` machine,
pipes with the file table. One call is one step. The file table records the
`pipeclose` and `iput` calls it makes; they are carried out here. -/
namespace Aso.Xv6.Kalloc
open Vm (Kernel Mem Pgdir Page Panic Slot kernbase pgsize phystop)

/-- `readopen` and `writeopen` of the pipe in a page. -/
structure Ends where
  readopen : Bool
  writeopen : Bool
  deriving DecidableEq

/-- The store of `pipeclose`. -/
def Ends.close (e : Ends) (writable : Bool) : Ends :=
  if writable then { e with writeopen := false } else { e with readopen := false }

structure State where
  kpgdir : Pgdir
  /-- The stacks of the other processors. -/
  cpuStacks : List Nat
  vm : Vm.State
  files : Ftable.State
  pipe : Nat → Ends

def fPages : Int := 0
def fBytes : Int := 1

def freemem (m : Mem) (type : Int) : Int :=
  let pages : Int := m.freelist.length
  if type = fPages then pages else if type = fBytes then pgsize * pages else -1

/-- `freerange` over `n` whole pages from `f` on. -/
def freerange (k : Kernel) : Nat → Nat → Mem → Except Panic Mem
  | 0, _, m => .ok m
  | n + 1, f, m => do
    let m ← m.kfree k f
    freerange k n (f + 1) m

/-- `startothers` for `n` other processors; one that has no stack stops the boot. -/
def startothers : Nat → Mem → Option (List Nat × Mem)
  | 0, m => some ([], m)
  | n + 1, m => do
    let (f, m) ← m.kalloc
    let (others, m) ← startothers n m
    some (f :: others, m)

/-- The first page that `kinit2` frees, at 4 MB. -/
def kinit2Start : Nat := 4 * 1024 * 1024 / pgsize

/-- `main` up to the first process, on a machine with `ncpu` processors; a panic is no state. -/
def boot (k : Kernel) (page : Nat → Page) (ncpu : Nat) (initcode : List UInt8) : Option State := do
  let m ← (freerange k (kinit2Start - k.kend) k.kend ⟨[], page⟩).toOption
  let (kpgdir, m) ← (Vm.setupkvm k m).toOption
  let kpgdir ← kpgdir
  let (cpuStacks, m) ← startothers (ncpu - 1) m
  let m ← (freerange k (phystop / pgsize - kinit2Start) kinit2Start m).toOption
  let vm ← (Vm.userinit k m initcode).toOption
  some ⟨kpgdir, cpuStacks, vm, Ftable.userinit, fun _ => ⟨false, false⟩⟩

namespace State

def setMem (s : State) (m : Mem) : State := { s with vm := { s.vm with mem := m } }

def setPipe (s : State) (g : Nat) (ends : Ends) : State :=
  { s with pipe := Function.update s.pipe g ends }

def pipeclose (k : Kernel) (s : State) (g : Nat) (writable : Bool) : Except Panic State :=
  let ends := (s.pipe g).close writable
  let s := s.setPipe g ends
  if !ends.readopen && !ends.writeopen then do
    let m ← s.vm.mem.kfree k g
    .ok (s.setMem m)
  else .ok s

/-- What `fileclose` does with what was behind an entry; `iput` frees no page. -/
def release (k : Kernel) : List (Nat × Ftable.Resource) → State → Except Panic State
  | [], s => .ok s
  | (_, .pipeEnd g writable) :: rest, s => do
    let s ← s.pipeclose k g writable
    release k rest s
  | (_, .inode _) :: rest, s => release k rest s

/-- The file table after a call, and the releases that the call made. -/
def setFiles (k : Kernel) (s : State) (files : Ftable.State) : Except Panic State :=
  release k (files.ledger.released.drop s.files.ledger.released.length) { s with files := files }

/-- `sys_pipe`: `kalloc` is called once two entries of the file table are there. -/
def sysPipe (k : Kernel) (s : State) (p : Slot) (argok : Bool) : Option State := do
  let (files, _) ← (s.files.sysPipe p argok (s.vm.mem.kalloc.map Prod.fst)).toOption
  if files.ledger.acquired.length = s.files.ledger.acquired.length
    then (s.setFiles k files).toOption
  else do
    let (g, m) ← s.vm.mem.kalloc
    (((s.setMem m).setPipe g ⟨true, true⟩).setFiles k files).toOption

/-- Whether the `fork` that led to `vm` made a child. -/
def forked (s : State) (vm : Vm.State) : Bool :=
  s.vm.unusedSlot.any fun np => (vm.proc np).state = .live

end State

inductive Action where
  | fork (p : Slot)
  | exec (p : Slot) (path : List UInt8) (file : Option Vm.File) (argv : List (List UInt8))
  | sbrk (p : Slot) (n : Int)
  | fault (p : Slot) (va : Nat) (kernel : Bool)
  | exit (p : Slot)
  /-- The parent of `p` collects it. -/
  | wait (p : Slot)
  | pipe (p : Slot) (argok : Bool)
  | close (p : Slot) (fd : Int)
  | dup (p : Slot) (fd : Int)
  | dup2 (p : Slot) (oldfd newfd : Int)
  | open (p : Slot) (found : Option (Nat × Bool)) (omode : Nat)

namespace State

/-- A step of the processes that leaves the file table alone. -/
def vmStep (k : Kernel) (s : State) (a : Vm.Action) : Option State :=
  (s.vm.step k a).map fun vm => { s with vm := vm }

/-- A call on descriptors by a process that runs. -/
def fileCall (k : Kernel) (s : State) (p : Slot) (call : Ftable.Call) : Option State :=
  if (s.vm.proc p).state = .live then do
    let (files, _) ← (s.files.call p call).toOption
    (s.setFiles k files).toOption
  else none

def step (k : Kernel) (s : State) : Action → Option State
  | .fork p => do
    let vm ← s.vm.step k (.fork p)
    let (files, _) ← (s.files.fork p (s.forked vm)).toOption
    (State.setFiles k { s with vm := vm } files).toOption
  | .exec p path file argv => s.vmStep k (.exec p path file argv)
  | .sbrk p n => s.vmStep k (.sbrk p n)
  | .fault p va kernel => s.vmStep k (.fault p va kernel)
  | .exit p =>
    -- the descriptors are closed first
    if (s.vm.proc p).state = .live then do
      let files ← (s.files.exit p).toOption
      let t ← (s.setFiles k files).toOption
      t.vmStep k (.exit p)
    else none
  | .wait p => (s.vmStep k (.wait p)).map fun t => { t with files := t.files.setState p .unused }
  | .pipe p argok => if (s.vm.proc p).state = .live then s.sysPipe k p argok else none
  | .close p fd => s.fileCall k p (.close fd)
  | .dup p fd => s.fileCall k p (.dup fd)
  | .dup2 p oldfd newfd => s.fileCall k p (.dup2 oldfd newfd)
  | .open p found omode => s.fileCall k p (.open found omode)

end State
end Aso.Xv6.Kalloc
