import Aso.Interleave
import Aso.Xv6.Param
import Mathlib.Algebra.BigOperators.Fin

/-! The calls on path names: fs.c from `ialloc` to `namex` and sysfile.c, as programs
over operations that are atomic because of a lock that is held for the whole of them.
The cached copy of an inode and its copy on disk are one, since every change is written
through under the inode's lock. A directory is its list of slots; the bytes of other
files, the log and the table of open files of other processes play no part. -/
namespace Aso.Xv6.Names
open Interleave

abbrev Slot := Fin nproc

/-- The type of an inode on disk; `free` is type zero. -/
inductive Ty where
  | free | dir | file | dev
  deriving DecidableEq

abbrev Path := List UInt8
abbrev Name := List UInt8

def namecmp (a b : Name) : Bool := a.take dirsiz = b.take dirsiz

/-- A slot of a directory; it is empty when its inode number is zero. -/
structure Dirent where
  name : Name
  inum : Nat

structure Inode where
  ty : Ty
  nlink : Int
  entries : List Dirent
  ref : Nat
  valid : Bool
  lock : Option Slot

/-- `birth`, `clock`, `refs` and `pin` are histories and no part of the source: when an inode
number was last allocated, the references each process has taken and not dropped, and whether it
has had the inode locked while it held one. -/
structure Shared where
  ninodes : Nat
  inode : Nat → Inode
  birth : Nat → Nat
  clock : Nat
  refs : Slot → Multiset Nat
  pin : Slot → Nat → Bool

/-- What an operation leaves open: the inode that `ialloc` comes upon, whether a table has
room, and the data of a write. -/
structure Choice where
  inum : Nat
  flag : Bool
  data : List Dirent

/-- The caller of `acquiresleep`: `ilock`, `iput`, or the `iput` in which `iunlockput` ends. -/
inductive Caller where
  | ilock | iput | iunlockput
  deriving DecidableEq

inductive Op where
  /-- `iget` and `idup`. -/
  | iget (i : Nat)
  /-- `acquiresleep`. -/
  | acquire (i : Nat) (caller : Caller)
  /-- What `ilock` does with the lock held. -/
  | load (i : Nat)
  | release (i : Nat)
  | type (i : Nat)
  /-- The test of `iput` for the last reference to an inode without links. -/
  | last (i : Nat)
  | free (i : Nat)
  | unref (i : Nat)
  | dirlookup (d : Nat) (name : Name)
  /-- What `dirlink` does once the name is known to be absent. -/
  | insert (d : Nat) (name : Name) (inum : Nat)
  | erase (d off : Nat)
  | isdirempty (d : Nat)
  /-- The check of `unlink` that there is a link to take away. -/
  | linked (i : Nat)
  | nlink (i : Nat) (change : Int)
  /-- `ialloc` up to its `iget`. -/
  | ialloc (ty : Ty)
  /-- The first link of a new inode. -/
  | init (i : Nat)
  | writei (i : Nat)
  | choose
  | panic

def Res : Op → Type
  | .type _ => Ty
  | .last _ | .isdirempty _ | .choose => Bool
  | .dirlookup _ _ => Option (Nat × Nat)
  | .ialloc _ => Nat
  | _ => Unit

/-- A C `short`. -/
def short (n : Int) : Int := (n + 2 ^ 15) % 2 ^ 16 - 2 ^ 15

namespace Inode

/-- An entry of the cache that is not in use is filled anew. -/
def addRef (n : Inode) : Inode := { n with ref := n.ref + 1, valid := n.valid && n.ref ≠ 0 }

def dropRef (n : Inode) : Inode := { n with ref := n.ref - 1 }

def loaded (n : Inode) : Inode := { n with valid := true }

def freed (n : Inode) : Inode := { n with ty := .free, entries := [], valid := false }

def allocated (ty : Ty) (n : Inode) : Inode := { n with ty := ty, nlink := 0, entries := [] }

end Inode

namespace Shared

def modify (s : Shared) (i : Nat) (f : Inode → Inode) : Shared :=
  { s with inode := Function.update s.inode i (f (s.inode i)) }

def setPin (s : Shared) (p : Slot) (i : Nat) (b : Bool) : Shared :=
  { s with pin := Function.update s.pin p (Function.update (s.pin p) i b) }

def iget (s : Shared) (p : Slot) (i : Nat) : Shared :=
  { s.modify i Inode.addRef with refs := Function.update s.refs p (i ::ₘ s.refs p) }

def unref (s : Shared) (p : Slot) (i : Nat) : Shared :=
  { (s.modify i Inode.dropRef).setPin p i (s.pin p i && i ∈ (s.refs p).erase i) with
    refs := Function.update s.refs p ((s.refs p).erase i) }

def load (s : Shared) (p : Slot) (i : Nat) : Shared :=
  (s.modify i Inode.loaded).setPin p i (i ∈ s.refs p)

def free (s : Shared) (p : Slot) (i : Nat) : Shared := (s.modify i Inode.freed).setPin p i false

def ialloc (s : Shared) (k : Nat) (ty : Ty) : Shared :=
  { s.modify k (Inode.allocated ty) with
    birth := Function.update s.birth k s.clock
    clock := s.clock + 1 }

end Shared

/-- The slot with the name, and its number. -/
def findEntry (entries : List Dirent) (name : Name) : Option (Nat × Nat) :=
  (entries.zipIdx.find? fun (e, _) => e.inum ≠ 0 && namecmp name e.name).map
    fun (e, off) => (e.inum, off)

/-- Write an entry to the first empty slot, or to a new one at the end. -/
def addEntry (entries : List Dirent) (e : Dirent) : List Dirent :=
  match entries with
  | [] => [e]
  | slot :: rest => if slot.inum = 0 then e :: rest else slot :: addEntry rest e

/-- No result is a wait for a lock or a panic. -/
def exec (p : Slot) (o : Op) (x : Choice) (s : Shared) : Option (Res o × Shared) :=
  match o with
  | .iget i => some ((), s.iget p i)
  | .acquire i caller =>
    if (s.inode i).lock = none ∧ (caller ≠ .ilock ∨ (s.inode i).ref ≠ 0) then
      some ((), s.modify i fun n => { n with lock := some p })
    else none
  | .load i => if (s.inode i).valid ∨ (s.inode i).ty ≠ .free then some ((), s.load p i) else none
  | .release i =>
    if (s.inode i).lock = some p then some ((), s.modify i fun n => { n with lock := none })
    else none
  | .type i => some ((s.inode i).ty, s)
  | .last i => some (decide ((s.inode i).valid ∧ (s.inode i).nlink = 0 ∧ (s.inode i).ref = 1), s)
  | .free i => some ((), s.free p i)
  | .unref i => some ((), s.unref p i)
  | .dirlookup d name =>
    if (s.inode d).ty = .dir then
      match findEntry (s.inode d).entries name with
      | none => some (none, s)
      | some (i, off) => some (some (i, off), s.iget p i)
    else none
  | .insert d name inum =>
    some ((), s.modify d fun n => { n with entries := addEntry n.entries ⟨name, inum⟩ })
  | .erase d off => some ((), s.modify d fun n => { n with entries := n.entries.set off ⟨[], 0⟩ })
  | .isdirempty d => some (((s.inode d).entries.drop 2).all (·.inum = 0), s)
  | .linked i => if (s.inode i).nlink < 1 then none else some ((), s)
  | .nlink i change => some ((), s.modify i fun n => { n with nlink := short (n.nlink + change) })
  | .ialloc ty =>
    if 1 ≤ x.inum ∧ x.inum < s.ninodes ∧
      (s.inode x.inum).ty = .free then some (x.inum, s.ialloc x.inum ty) else none
  | .init i => some ((), s.modify i fun n => { n with nlink := 1 })
  | .writei i =>
    some ((), if (s.inode i).ty = .dir then s.modify i fun n => { n with entries := x.data } else s)
  | .choose => some (x.flag, s)
  | .panic => none

abbrev Code (α : Type) := Prog Res α

def perform (o : Op) : Code (Res o) := Prog.run o

def ilock (i : Nat) : Code Unit := do
  perform (.acquire i .ilock)
  perform (.load i)

def iunlock (i : Nat) : Code Unit := perform (.release i)

/-- An `if` without `else`. -/
def onlyIf (b : Bool) (prog : Code Unit) : Code Unit := if b then prog else pure ()

/-- The body of `iput`, with the caller on record. -/
def iputFrom (caller : Caller) (i : Nat) : Code Unit := do
  perform (.acquire i caller)
  let last : Bool ← perform (.last i)
  onlyIf last (perform (.free i))
  perform (.release i)
  perform (.unref i)

def iput (i : Nat) : Code Unit := iputFrom .iput i

def iunlockput (i : Nat) : Code Unit := do
  iunlock i
  iputFrom .iunlockput i

/-- Whether the entry was written. -/
def dirlink (d : Nat) (name : Name) (inum : Nat) : Code Bool := do
  let found : Option (Nat × Nat) ← perform (.dirlookup d name)
  match found with
  | some (i, _) => do
    iput i
    pure false
  | none => do
    perform (.insert d name inum)
    pure true

/-- The next element of a path, cut to the length of a name, and the path after it. -/
def skipelem (path : Path) : Option (Name × Path) :=
  let path := path.dropWhile (· = 47)
  if path = [] then none
  else some ((path.takeWhile (· ≠ 47)).take dirsiz, (path.dropWhile (· ≠ 47)).dropWhile (· = 47))

/-- All elements of a path; there are at most as many as bytes. -/
def elements : Nat → Path → List Name
  | 0, _ => []
  | n + 1, path =>
    match skipelem path with
    | none => []
    | some (name, rest) => name :: elements n rest

/-- The loop of `namex` with a reference to `ip`; the result has a reference. -/
def namexLoop (parent : Bool) : List Name → Nat → Code (Option (Nat × Name))
  | [], ip =>
    if parent then do
      iput ip
      pure none
    else pure (some (ip, []))
  | name :: rest, ip => do
    ilock ip
    let ty : Ty ← perform (.type ip)
    if ty ≠ .dir then do
      iunlockput ip
      pure none
    else if parent ∧ rest = [] then do
      iunlock ip
      pure (some (ip, name))
    else do
      let found : Option (Nat × Nat) ← perform (.dirlookup ip name)
      match found with
      | none => do
        iunlockput ip
        pure none
      | some (next, _) => do
        iunlockput ip
        namexLoop parent rest next

def namex (parent : Bool) (path : Path) (cwd : Nat) : Code (Option (Nat × Name)) := do
  let ip := if path.head? = some 47 then rootino else cwd
  perform (.iget ip)
  namexLoop parent (elements path.length path) ip

def namei (path : Path) (cwd : Nat) : Code (Option Nat) := do
  let found ← namex false path cwd
  pure (found.map Prod.fst)

def nameiparent (path : Path) (cwd : Nat) : Code (Option (Nat × Name)) := namex true path cwd

/-- A call of `dirlink` whose failure is a panic. -/
def mustLink (d : Nat) (name : Name) (inum : Nat) : Code Unit := do
  let linked ← dirlink d name inum
  onlyIf (!linked) (perform .panic)

/-- The entries of a new directory. -/
def makeDots (dp ip : Nat) : Code Unit := do
  perform (.nlink dp 1)
  mustLink ip [46] ip
  mustLink ip [46, 46] dp

/-- The inode, locked. -/
def create (path : Path) (ty : Ty) (cwd : Nat) : Code (Option Nat) := do
  match ← nameiparent path cwd with
  | none => pure none
  | some (dp, name) => do
    ilock dp
    let found : Option (Nat × Nat) ← perform (.dirlookup dp name)
    match found with
    | some (ip, _) => do
      iunlockput dp
      ilock ip
      let old : Ty ← perform (.type ip)
      if ty = .file ∧ old = .file then pure (some ip)
      else do
        iunlockput ip
        pure none
    | none => do
      let ip : Nat ← perform (.ialloc ty)
      perform (.iget ip)
      ilock ip
      perform (.init ip)
      onlyIf (ty = .dir) (makeDots dp ip)
      mustLink dp name ip
      iunlockput dp
      pure (some ip)

structure File where
  ip : Nat
  readable : Bool
  writable : Bool

/-- What a process keeps between its calls. -/
structure Data where
  cwd : Nat
  ofile : Fin nofile → Option File

/-- The reference behind a descriptor. -/
def fileRef : Option File → Multiset Nat
  | none => 0
  | some f => {f.ip}

/-- The references that a process has between its calls. -/
def Data.refs (c : Data) : Multiset Nat := c.cwd ::ₘ ∑ fd, fileRef (c.ofile fd)

/-- `fdalloc`. -/
def Data.fdalloc (c : Data) : Option (Fin nofile) :=
  (List.finRange nofile).find? fun fd => (c.ofile fd).isNone

def Data.setFile (c : Data) (fd : Fin nofile) (f : Option File) : Data :=
  { c with ofile := Function.update c.ofile fd f }

/-- The second half of `sys_link`: whether the new name was written. -/
def linkName (new : Path) (ip cwd : Nat) : Code Bool := do
  match ← nameiparent new cwd with
  | none => pure false
  | some (dp, name) => do
    ilock dp
    let linked ← dirlink dp name ip
    iunlockput dp
    pure linked

/-- The label `bad` of `sys_link`. -/
def undoLink (ip : Nat) : Code Unit := do
  ilock ip
  perform (.nlink ip (-1))
  iunlockput ip

def sysLink (old new : Path) (c : Data) : Code Data := do
  match ← namei old c.cwd with
  | none => pure c
  | some ip => do
    ilock ip
    let ty : Ty ← perform (.type ip)
    if ty = .dir then do
      iunlockput ip
      pure c
    else do
      perform (.nlink ip 1)
      iunlock ip
      if ← linkName new ip c.cwd then do
        iput ip
        pure c
      else do
        undoLink ip
        pure c

/-- Whether the inode is a directory with more than the dots. -/
def holdsNames (ip : Nat) (ty : Ty) : Code Bool :=
  if ty = .dir then do
    let empty : Bool ← perform (.isdirempty ip)
    pure (!empty)
  else pure false

/-- The rest of `sys_unlink` with both inodes locked. -/
def unlinkEntry (dp off ip : Nat) : Code Unit := do
  perform (.linked ip)
  let ty : Ty ← perform (.type ip)
  if ← holdsNames ip ty then do
    iunlockput ip
    iunlockput dp
  else do
    perform (.erase dp off)
    onlyIf (ty = .dir) (perform (.nlink dp (-1)))
    iunlockput dp
    perform (.nlink ip (-1))
    iunlockput ip

def sysUnlink (path : Path) (c : Data) : Code Data := do
  match ← nameiparent path c.cwd with
  | none => pure c
  | some (dp, name) => do
    ilock dp
    if namecmp name [46] ∨ namecmp name [46, 46] then do
      iunlockput dp
      pure c
    else do
      let found : Option (Nat × Nat) ← perform (.dirlookup dp name)
      match found with
      | none => do
        iunlockput dp
        pure c
      | some (ip, off) => do
        ilock ip
        unlinkEntry dp off ip
        pure c

/-- The first half of `sys_open`: the inode, locked. -/
def openInode (path : Path) (omode cwd : Nat) : Code (Option Nat) :=
  if omode.testBit 9 then create path .file cwd
  else do
    match ← namei path cwd with
    | none => pure none
    | some ip => do
      ilock ip
      let ty : Ty ← perform (.type ip)
      if ty = .dir ∧ omode ≠ 0 then do
        iunlockput ip
        pure none
      else pure (some ip)

/-- `sys_open`; a table that is full is a choice. -/
def sysOpen (path : Path) (omode : Nat) (c : Data) : Code Data := do
  match ← openInode path omode c.cwd with
  | none => pure c
  | some ip => do
    let room : Bool ← perform .choose
    match if room then c.fdalloc else none with
    | none => do
      iunlockput ip
      pure c
    | some fd => do
      iunlock ip
      pure (c.setFile fd (some ⟨ip, !omode.testBit 0, omode.testBit 0 || omode.testBit 1⟩))

/-- `sys_mkdir` and `sys_mknod`. -/
def sysCreate (path : Path) (ty : Ty) (c : Data) : Code Data := do
  match ← create path ty c.cwd with
  | none => pure c
  | some ip => do
    iunlockput ip
    pure c

def sysChdir (path : Path) (c : Data) : Code Data := do
  match ← namei path c.cwd with
  | none => pure c
  | some ip => do
    ilock ip
    let ty : Ty ← perform (.type ip)
    if ty ≠ .dir then do
      iunlockput ip
      pure c
    else do
      iunlock ip
      iput c.cwd
      pure { c with cwd := ip }

/-- The part of `exec` that deals with inodes; it keeps none of them. -/
def sysExec (path : Path) (c : Data) : Code Data := do
  match ← namei path c.cwd with
  | none => pure c
  | some ip => do
    ilock ip
    iunlockput ip
    pure c

/-- The driver of a device gives up the lock of the inode while it waits. -/
def yieldLock (ip : Nat) : Code Unit := do
  iunlock ip
  ilock ip

/-- Whether the inode is a device; there may be no driver for it. -/
def device (ip : Nat) : Code Bool := do
  let ty : Ty ← perform (.type ip)
  if ty = .dev then do
    let driver : Bool ← perform .choose
    onlyIf driver (yieldLock ip)
    pure true
  else pure false

def sysRead (fd : Fin nofile) (c : Data) : Code Data := do
  match c.ofile fd with
  | none => pure c
  | some f =>
    if f.readable then do
      ilock f.ip
      let _ ← device f.ip
      iunlock f.ip
      pure c
    else pure c

/-- The loop of `filewrite` over `n` chunks; a write that falls short ends it. -/
def writeLoop (ip : Nat) : Nat → Code Unit
  | 0 => pure ()
  | n + 1 => do
    ilock ip
    let dev ← device ip
    onlyIf (!dev) (perform (.writei ip))
    iunlock ip
    let more : Bool ← perform .choose
    onlyIf more (writeLoop ip n)

def sysWrite (fd : Fin nofile) (n : Nat) (c : Data) : Code Data := do
  match c.ofile fd with
  | none => pure c
  | some f =>
    if f.writable then do
      writeLoop f.ip ((n + 1535) / 1536)
      pure c
    else pure c

def sysClose (fd : Fin nofile) (c : Data) : Code Data := do
  match c.ofile fd with
  | none => pure c
  | some f => do
    iput f.ip
    pure (c.setFile fd none)

inductive Call where
  | opens (path : Path) (omode : Nat)
  | mkdir (path : Path)
  | mknod (path : Path)
  | link (old new : Path)
  | unlink (path : Path)
  | chdir (path : Path)
  | exec (path : Path)
  | read (fd : Fin nofile)
  | write (fd : Fin nofile) (n : Nat)
  | close (fd : Fin nofile)

def call : Call → Data → Code Data
  | .opens path omode => sysOpen path omode
  | .mkdir path => sysCreate path .dir
  | .mknod path => sysCreate path .dev
  | .link old new => sysLink old new
  | .unlink path => sysUnlink path
  | .chdir path => sysChdir path
  | .exec path => sysExec path
  | .read fd => sysRead fd
  | .write fd n => sysWrite fd n
  | .close fd => sysClose fd

abbrev System := State Res Slot Shared Data

abbrev Event := Action Slot Call Choice

def step (s : System) (a : Event) : Option System := Interleave.step exec call s a

end Aso.Xv6.Names
