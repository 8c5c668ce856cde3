import Aso.Transition
import Aso.Xv6.Vm.Exec
import Mathlib.Data.List.FinRange

/-! User memory over the life of the processes: `userinit`, `fork`, `exec`, `sbrk`,
page faults, `exit` and `wait`. An operation is one step; other processes matter to
it only through the free list and the process table. A slot that is given back keeps
the fields that nobody resets. -/
namespace Aso.Xv6.Vm

abbrev Slot := Fin nproc

inductive ProcState where
  | unused | live | zombie
  deriving DecidableEq

structure Proc where
  state : ProcState
  kstack : Nat
  killed : Bool
  image : Image

structure State where
  mem : Mem
  proc : Slot → Proc

/-- A slot of the zeroed process table. -/
def emptyProc : Proc := ⟨.unused, 0, false, ⟨⟨0, fun _ => none⟩, 0, 0, [], 0, 0, none⟩⟩

inductive Action where
  | fork (p : Slot)
  | exec (p : Slot) (path : List UInt8) (file : Option File) (argv : List (List UInt8))
  | sbrk (p : Slot) (n : Int)
  /-- An access to address `va` that faults, by user code or by the kernel for it. -/
  | fault (p : Slot) (va : Nat) (kernel : Bool)
  | exit (p : Slot)
  /-- The parent of `p` collects it. -/
  | wait (p : Slot)

/-- `reservarPagina`. -/
def reservarPagina (k : Kernel) (m : Mem) (d : Pgdir) (va : Nat) :
    Except Panic (Bool × Pgdir × Mem) :=
  match m.kalloc with
  | none => .ok (false, d, m)
  | some (f, m) => do
    let (mapped, d, m) ← mappages (m.fill f .zero) d (pgrounddown va) pgsize f true true
    if mapped then .ok (true, d, m)
    else do
      let m ← m.kfree k f
      .ok (false, d, m)

/-- `growproc`; the result is whether it returned 0. -/
def growproc (k : Kernel) (m : Mem) (p : Image) (n : Int) : Except Panic (Bool × Image × Mem) :=
  let newsz := ((p.sz + n) % 2 ^ 32).toNat
  if n > 0 then do
    let (sz, d, m) ← allocuvm k m p.pgdir p.sz newsz
    .ok (if sz = 0 then (false, { p with pgdir := d }, m)
      else (true, { p with pgdir := d, sz := sz }, m))
  else if n < 0 then do
    let (sz, d, m) ← deallocuvm k m p.pgdir p.sz newsz
    .ok (if sz = 0 then (false, { p with pgdir := d }, m)
      else (true, { p with pgdir := d, sz := sz }, m))
  else .ok (true, p, m)

/-- `sys_sbrk` with its result. -/
def sysSbrk (k : Kernel) (m : Mem) (p : Image) (n : Int) : Except Panic (Int × Image × Mem) :=
  if n < 0 then do
    let (grown, q, m) ← growproc k m p n
    .ok (if grown then int32 p.sz else -1, q, m)
  else .ok (int32 p.sz, { p with sz := ((p.sz + n) % 2 ^ 32).toNat }, m)

/-- `fetchint` for a process of size `sz`; `read` is what the processor finds at each
address once the faults are served. -/
def fetchint (sz : Nat) (read : Nat → UInt8) (addr : Nat) : Option Int :=
  if addr ≥ sz ∨ (addr + 4) % 2 ^ 32 > sz then none
  else some (int32 (leNat ((List.range 4).map fun i => read (addr + i))))

/-- `fetchstr`: the length of the string at `addr`. -/
def fetchstr (sz : Nat) (read : Nat → UInt8) (addr : Nat) : Option Nat :=
  if addr ≥ sz then none else (List.range (sz - addr)).find? fun i => read (addr + i) = 0

def argint (sz : Nat) (read : Nat → UInt8) (esp n : Nat) : Option Int :=
  fetchint sz read ((esp + 4 + 4 * n) % 2 ^ 32)

/-- `argptr`: the pointer to a block of `size` bytes. -/
def argptr (sz : Nat) (read : Nat → UInt8) (esp n : Nat) (size : Int) : Option Nat := do
  let i := ((← argint sz read esp n) % 2 ^ 32).toNat
  if size < 0 ∨ i ≥ sz ∨ (i + size) % 2 ^ 32 > sz then none else some i

namespace State

def setProc (s : State) (p : Slot) (q : Proc) : State :=
  { s with proc := Function.update s.proc p q }

def setImage (s : State) (p : Slot) (i : Image) (m : Mem) : State :=
  { s.setProc p { s.proc p with image := i } with mem := m }

def kill (s : State) (p : Slot) : State := s.setProc p { s.proc p with killed := true }

/-- The case `T_PGFLT` of `trap`. -/
def pageFault (k : Kernel) (s : State) (p : Slot) (va : Nat) : Except Panic State :=
  let i := (s.proc p).image
  let dirErr := pgrounddown va
  if dirErr ≥ i.sz then .ok (s.kill p)
  else if dirErr ≥ kernbase then .ok (s.kill p)
  else if dirErr = i.inicioPaginaGuarda then .ok (s.kill p)
  else do
    let (served, d, m) ← reservarPagina k s.mem i.pgdir va
    let t := s.setImage p { i with pgdir := d } m
    .ok (if served then t else t.kill p)

def unusedSlot (s : State) : Option Slot :=
  (List.finRange nproc).find? fun q => (s.proc q).state = .unused

/-- `fork`: the copy keeps whatever its slot holds as `inicio_pagina_guarda`. -/
def fork (k : Kernel) (s : State) (p : Slot) : Except Panic State :=
  match s.unusedSlot with
  | none => .ok s
  | some np =>
    match s.mem.kalloc with
    | none => .ok s
    | some (f, m) => do
      let i := (s.proc p).image
      match ← copyuvm k m i.pgdir i.sz with
      | (none, m) => do
        let m ← m.kfree k f
        .ok { s with mem := m }
      | (some d, m) =>
        let child := { (s.proc np).image with
          pgdir := d, sz := i.sz, name := i.name, eip := i.eip, esp := i.esp, guard := i.guard }
        .ok { s.setProc np { s.proc np with state := .live, kstack := f, image := child } with
          mem := m }

/-- What `wait` does with the zombie it found. -/
def reap (k : Kernel) (s : State) (p : Slot) : Except Panic State := do
  let m ← s.mem.kfree k (s.proc p).kstack
  let m ← freevm k m (s.proc p).image.pgdir
  .ok { s.setProc p { s.proc p with state := .unused, killed := false } with mem := m }

/-- An access of user code faults without the page or without the user bit, an
access of the kernel without the page. -/
def faults (s : State) (p : Slot) (va : Nat) (kernel : Bool) : Bool :=
  match (s.proc p).image.pgdir.pte va with
  | none => true
  | some e => !kernel && !e.u

def perform (k : Kernel) (s : State) : Action → Except Panic State
  | .fork p => s.fork k p
  | .exec p path file argv => do
    let (_, i, m) ← Vm.exec k s.mem (s.proc p).image path file argv
    .ok (s.setImage p i m)
  | .sbrk p n => do
    let (_, i, m) ← sysSbrk k s.mem (s.proc p).image n
    .ok (s.setImage p i m)
  | .fault p va _ => s.pageFault k p va
  | .exit p => .ok (s.setProc p { s.proc p with state := .zombie })
  | .wait p => s.reap k p

def enabled (s : State) : Action → Bool
  | .fork p | .exec p _ _ _ | .exit p => (s.proc p).state = .live
  | .sbrk p n => (s.proc p).state = .live ∧ -2 ^ 31 ≤ n ∧ n < 2 ^ 31
  | .fault p va kernel => (s.proc p).state = .live ∧ va < 2 ^ 32 ∧ s.faults p va kernel
  | .wait p => (s.proc p).state = .zombie

/-- A panic ends the run. -/
def step (k : Kernel) (s : State) (a : Action) : Option State :=
  if s.enabled a then (s.perform k a).toOption else none

end State

/-- From the memory and the zeroed process table at boot to the first process. -/
def userinit (k : Kernel) (m : Mem) (initcode : List UInt8) : Except Panic State :=
  match m.kalloc with
  | none => .error .userinit
  | some (f, m) => do
    match ← setupkvm k m with
    | (none, _) => .error .userinit
    | (some d, m) =>
      let (d, m) ← inituvm m d initcode
      let image := { emptyProc.image with pgdir := d, sz := pgsize, esp := pgsize, eip := 0 }
      .ok ⟨m, Function.update (fun _ => emptyProc) 0
        { emptyProc with state := .live, kstack := f, image := image }⟩

end Aso.Xv6.Vm
