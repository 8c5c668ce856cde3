import Aso.Refs
import Aso.Transition
import Aso.Xv6.Param

/-! The file table of file.c and the calls of sysfile.c and proc.c that move
references to it between descriptors: open, pipe, dup, dup2, close, fork and
exit, one whole call at a time. What the rest of the kernel answers (a path
lookup, an allocation) is part of the action. The ledger is a history: it
records each pipe end or inode put behind an entry, and each call of
`pipeclose` or `iput` that gives one back. -/
namespace Aso.Xv6.Ftable
open Refs

abbrev Slot := Fin nproc
abbrev Fd := Fin nofile
abbrev Entry := Fin nfile

inductive FdType where
  | none
  | pipe (pipe : Nat)
  | inode (ip : Nat)
  deriving DecidableEq

/-- `struct file` without its offset, which no reference depends on; `tag` is
the place in the ledger of what is behind the entry. -/
structure File where
  type : FdType
  ref : Nat
  readable : Bool
  writable : Bool
  tag : Nat
  deriving DecidableEq

/-- What `fileclose` gives back: an end of a pipe or a reference to an inode. -/
inductive Resource where
  | pipeEnd (pipe : Nat) (writable : Bool)
  | inode (ip : Nat)
  deriving DecidableEq

def File.behind (f : File) : Option (Nat × Resource) :=
  match f.type with
  | .none => none
  | .pipe pipe => some (f.tag, .pipeEnd pipe f.writable)
  | .inode ip => some (f.tag, .inode ip)

/-- States of a process slot, as far as descriptors are concerned. -/
inductive Life where
  | unused | embryo | alive | zombie
  deriving DecidableEq

structure State where
  file : Entry → File
  ofile : Slot × Fd → Option Entry
  state : Slot → Life
  initproc : Slot
  nextpid : Int
  ledger : Ledger Resource

inductive Panic where
  | filedup
  | fileclose
  | initExiting
  deriving DecidableEq

namespace State

def ref (s : State) (f : Entry) : Nat := (s.file f).ref

def behind (s : State) (f : Entry) : Option (Nat × Resource) := (s.file f).behind

def setFile (s : State) (f : Entry) (file : File) : State :=
  { s with file := Function.update s.file f file }

def setRef (s : State) (f : Entry) (n : Nat) : State := s.setFile f { s.file f with ref := n }

def setFd (s : State) (p : Slot) (fd : Fd) (f : Option Entry) : State :=
  { s with ofile := Function.update s.ofile (p, fd) f }

def setState (s : State) (p : Slot) (life : Life) : State :=
  { s with state := Function.update s.state p life }

def filealloc (s : State) : Option (Entry × State) :=
  match (List.finRange nfile).find? fun f => s.ref f = 0 with
  | none => none
  | some f => some (f, s.setRef f 1)

def filedup (f : Entry) (s : State) : Except Panic State :=
  if s.ref f < 1 then .error .filedup else .ok (s.setRef f (s.ref f + 1))

/-- `pipeclose` or `iput` on what was behind a closed entry. -/
def release (s : State) : Option (Nat × Resource) → State
  | none => s
  | some event => { s with ledger := ⟨s.ledger.acquired, s.ledger.released ++ [event]⟩ }

def fileclose (f : Entry) (s : State) : Except Panic State :=
  if s.ref f < 1 then .error .fileclose
  else if 0 < s.ref f - 1 then .ok (s.setRef f (s.ref f - 1))
  else
    let ff := s.file f
    .ok ((s.setFile f { ff with ref := 0, type := .none }).release ff.behind)

/-- The stores that make an allocated entry a pipe end or an inode. -/
def attach (f : Entry) (type : FdType) (readable writable : Bool) (s : State) : State :=
  let file : File := { s.file f with type, readable, writable, tag := s.ledger.acquired.length }
  { s.setFile f file with
    ledger := ⟨s.ledger.acquired ++ (file.behind.map Prod.snd).toList, s.ledger.released⟩ }

def fdalloc (p : Slot) (f : Entry) (s : State) : Option (Fd × State) :=
  match (List.finRange nofile).find? fun fd => (s.ofile (p, fd)).isNone with
  | none => none
  | some fd => some (fd, s.setFd p fd (some f))

/-- A descriptor number that lies in the table. -/
def fdOf (fd : Int) : Option Fd :=
  if h : 0 ≤ fd ∧ fd < nofile then some ⟨fd.toNat, by omega⟩ else none

def argfd (s : State) (p : Slot) (fd : Int) : Option (Fd × Entry) :=
  match fdOf fd with
  | none => none
  | some fd => (s.ofile (p, fd)).map (fd, ·)

def sysDup (p : Slot) (fd : Int) (s : State) : Except Panic (State × Int) :=
  match s.argfd p fd with
  | none => .ok (s, -1)
  | some (_, f) =>
    match s.fdalloc p f with
    | none => .ok (s, -1)
    | some (fd, s) => do
      let s ← s.filedup f
      .ok (s, fd)

/-- The part of `sys_dup2` that closes `newfd`; the slot
keeps its old name until it is overwritten. -/
def closeNew (p : Slot) (newfd : Fd) (s : State) : Except Panic State :=
  match s.ofile (p, newfd) with
  | none => .ok s
  | some f => s.fileclose f

def sysDup2 (p : Slot) (oldfd newfd : Int) (s : State) : Except Panic (State × Int) :=
  match s.argfd p oldfd with
  | none => .ok (s, -1)
  | some (old, f) =>
    match fdOf newfd with
    | none => .ok (s, -1)
    | some new =>
      if old = new then .ok (s, old)
      else do
        let s ← s.closeNew p new
        let s ← s.filedup f
        .ok (s.setFd p new (some f), new)

def sysClose (p : Slot) (fd : Int) (s : State) : Except Panic (State × Int) :=
  match s.argfd p fd with
  | none => .ok (s, -1)
  | some (fd, f) => do
    let s ← (s.setFd p fd none).fileclose f
    .ok (s, 0)

def oWronly : Nat := 0x001
def oRdwr : Nat := 0x002
def oCreate : Nat := 0x200

/-- `found` is the inode that `create` or `namei` returned and whether it is a directory. -/
def sysOpen (p : Slot) (found : Option (Nat × Bool)) (omode : Nat) (s : State) :
    Except Panic (State × Int) :=
  match found with
  | none => .ok (s, -1)
  | some (ip, isDir) =>
    if omode &&& oCreate = 0 ∧ isDir ∧ omode ≠ 0 then .ok (s, -1)
    else
      match s.filealloc with
      | none => .ok (s, -1)
      | some (f, s) =>
        match s.fdalloc p f with
        | none => do
          let s ← s.fileclose f
          .ok (s, -1)
        | some (fd, s) =>
          let writable := omode &&& oWronly ≠ 0 ∨ omode &&& oRdwr ≠ 0
          .ok (s.attach f (.inode ip) (omode &&& oWronly = 0) writable, fd)

/-- `page` is what `kalloc` returned. -/
def pipealloc (page : Option Nat) (s : State) : Except Panic (State × Option (Entry × Entry)) :=
  match s.filealloc with
  | none => .ok (s, none)
  | some (f0, s) =>
    match s.filealloc with
    | none => do
      let s ← s.fileclose f0
      .ok (s, none)
    | some (f1, s) =>
      match page with
      | none => do
        let s ← s.fileclose f0
        let s ← s.fileclose f1
        .ok (s, none)
      | some page =>
        .ok ((s.attach f0 (.pipe page) true false).attach f1 (.pipe page) false true, some (f0, f1))

/-- `argok` is whether the user's array of two descriptors lies in its memory. -/
def sysPipe (p : Slot) (argok : Bool) (page : Option Nat) (s : State) :
    Except Panic (State × Int) :=
  if !argok then .ok (s, -1)
  else do
    match ← s.pipealloc page with
    | (s, none) => .ok (s, -1)
    | (s, some (rf, wf)) =>
      match s.fdalloc p rf with
      | none => do
        let s ← s.fileclose rf
        let s ← s.fileclose wf
        .ok (s, -1)
      | some (fd0, s) =>
        match s.fdalloc p wf with
        | none => do
          let s ← (s.setFd p fd0 none).fileclose rf
          let s ← s.fileclose wf
          .ok (s, -1)
        | some (_, s) => .ok (s, 0)

def allocproc (s : State) : Option (Slot × State) :=
  match (List.finRange nproc).find? fun q => s.state q = .unused with
  | none => none
  | some np => some (np, { s.setState np .embryo with nextpid := s.nextpid + 1 })

/-- The loop of `fork` over the descriptors. -/
def dupAll (p np : Slot) : List Fd → State → Except Panic State
  | [], s => .ok s
  | fd :: rest, s =>
    match s.ofile (p, fd) with
    | none => dupAll p np rest s
    | some f => do
      let s ← s.filedup f
      dupAll p np rest (s.setFd np fd (some f))

/-- `memory` is whether the kernel stack and the copy of the address space could be had. -/
def fork (p : Slot) (memory : Bool) (s : State) : Except Panic (State × Int) :=
  match s.allocproc with
  | none => .ok (s, -1)
  | some (np, s') =>
    if !memory then .ok (s'.setState np .unused, -1)
    else do
      let s' ← dupAll p np (List.finRange nofile) s'
      .ok (s'.setState np .alive, s.nextpid)

/-- The loop of `exit` over the descriptors. -/
def closeAll (p : Slot) : List Fd → State → Except Panic State
  | [], s => .ok s
  | fd :: rest, s =>
    match s.ofile (p, fd) with
    | none => closeAll p rest s
    | some f => do
      let s ← s.fileclose f
      closeAll p rest (s.setFd p fd none)

def exit (p : Slot) (s : State) : Except Panic State :=
  if p = s.initproc then .error .initExiting
  else do
    let s ← closeAll p (List.finRange nofile) s
    .ok (s.setState p .zombie)

end State

inductive Call where
  | open (found : Option (Nat × Bool)) (omode : Nat)
  | pipe (argok : Bool) (page : Option Nat)
  | dup (fd : Int)
  | dup2 (oldfd newfd : Int)
  | close (fd : Int)
  | fork (memory : Bool)

def State.call (s : State) (p : Slot) : Call → Except Panic (State × Int)
  | .open found omode => s.sysOpen p found omode
  | .pipe argok page => s.sysPipe p argok page
  | .dup fd => s.sysDup p fd
  | .dup2 oldfd newfd => s.sysDup2 p oldfd newfd
  | .close fd => s.sysClose p fd
  | .fork memory => s.fork p memory

inductive Action where
  | call (p : Slot) (call : Call)
  | exit (p : Slot)
  /-- A `wait` takes the slot of an exited process away. -/
  | reap (p : Slot)

/-- One call as the kernel makes it, panics included; nothing if the process cannot make it. -/
def State.act (s : State) : Action → Option (Except Panic State)
  | .call p call => if s.state p = .alive then some ((s.call p call).map Prod.fst) else none
  | .exit p => if s.state p = .alive then some (s.exit p) else none
  | .reap p => if s.state p = .zombie then some (.ok (s.setState p .unused)) else none

def State.step (s : State) (a : Action) : Option State := (s.act a).bind Except.toOption

/-- After `userinit`: an empty table, and one process without descriptors. -/
def userinit : State where
  file := fun _ => ⟨.none, 0, false, false, 0⟩
  ofile := fun _ => none
  state := Function.update (fun _ => .unused) 0 .alive
  initproc := 0
  nextpid := 2
  ledger := ⟨[], []⟩

end Aso.Xv6.Ftable
