import Aso.Partial
import Aso.Xv6.Fs.Icache
import Aso.Xv6.Fs.Itrunc
import Aso.Xv6.Names.Machine

/-! Directories over the bytes on disk: fs.c from `idup` to `dirlookup`. One call runs at a
time. A panic is no result, and so is a wait for a lock that the call itself has. -/
namespace Aso.Xv6.Fs
open Names (Path Name)

/-- A pointer to characters is the list of the bytes there; a
NUL ends it, and so does the end of the list. -/
def strncmp : Nat → List UInt8 → List UInt8 → Int
  | 0, _, _ => 0
  | n + 1, p, q =>
    if p.headD 0 ≠ 0 ∧ p.headD 0 = q.headD 0 then strncmp n p.tail q.tail
    else (p.headD 0).toNat - (q.headD 0).toNat

/-- The `n` bytes that are stored. -/
def strncpy : Nat → List UInt8 → List UInt8
  | 0, _ => []
  | n + 1, t => if t.headD 0 = 0 then List.replicate (n + 1) 0 else t.headD 0 :: strncpy n t.tail

def namecmp (s t : List UInt8) : Int := strncmp dirsiz s t

/-- Size of `struct dirent`. -/
def direntSize : Nat := 16

/-- `struct dirent` in memory order; the inode number is a `ushort`. -/
def dirent (name : Name) (inum : Nat) : List UInt8 := toLe 2 inum ++ strncpy dirsiz name

def direntInum (de : List UInt8) : Nat := leNat (de.take 2)
def direntName (de : List UInt8) : List UInt8 := (de.drop 2).take dirsiz

/-- The number of rounds of a loop over the entries of a directory. -/
def entryCount (size : Nat) : Nat := (size + 15) / 16

namespace State

/-- The caller has a reference to the inode. -/
def idup (s : State) (ip : Slot) : Option State :=
  if (s.icache ip).ref < 1 then none
  else some (s.setInode ip { s.icache ip with ref := (s.icache ip).ref + 1 })

/-- Truncate and free the inode, as `iput` does. -/
def ifree (s : State) (ip : Slot) : Option State := do
  let s ← s.itrunc ip
  let s := (s.setInode ip { s.icache ip with type := 0 }).iupdate ip
  some (s.setInode ip { s.icache ip with valid := false })

/-- The caller has a reference to the inode. -/
def iput (s : State) (ip : Slot) : Option State :=
  let i := s.icache ip
  if i.ref < 1 then none
  else do
    let s ← if i.valid ∧ i.nlink = 0 ∧ i.ref = 1 then s.ifree ip else some s
    some (s.setInode ip { s.icache ip with ref := (s.icache ip).ref - 1 })

end State

/-- The file system with the locks of the inodes in memory. -/
structure Kernel where
  fs : State
  locked : Slot → Bool

abbrev Call (α : Type) := StateT Kernel Option α

namespace Kernel

def onFs {α : Type} (f : State → Option (α × State)) : Call α :=
  fun k => (f k.fs).map fun (a, s) => (a, { k with fs := s })

def quiet (f : State → Option State) : Call Unit := onFs fun s => (f s).map fun s => ((), s)

def iget (inum : Nat) : Call Slot := onFs (·.iget inum)

def idup (ip : Slot) : Call Unit := quiet (·.idup ip)

def ilock (ip : Slot) : Call Unit := fun k =>
  if k.locked ip then none
  else (k.fs.ilock ip).map fun s => ((), ⟨s, Function.update k.locked ip true⟩)

def iunlock (ip : Slot) : Call Unit := fun k =>
  if k.locked ip ∧
    1 ≤ (k.fs.icache ip).ref then some ((), { k with locked := Function.update k.locked ip false })
  else none

def iput (ip : Slot) : Call Unit := fun k => if k.locked ip then none else quiet (·.iput ip) k

def iunlockput (ip : Slot) : Call Unit := do
  iunlock ip
  iput ip

/-- The fields of an inode in memory. -/
def inode (ip : Slot) : Call Inode := onFs fun s => some (s.icache ip, s)

def readi (ip : Slot) (off n : Nat) : Call (Int × List UInt8) :=
  onFs fun s => (s.readi ip off n).map fun (r, bytes, s) => ((r, bytes), s)

/-- Read the entry at `off`; anything but a whole entry is a panic. -/
def readEntry (dp : Slot) (off : Nat) : Call (List UInt8) := do
  let (r, de) ← readi dp off direntSize
  if r = direntSize then pure de else failure

/-- The loop of `dirlookup` from `off` on: an inode number, and where it was found. -/
def findEntry (dp : Slot) (name : Name) : Nat → Nat → Call (Option (Nat × Nat))
  | 0, _ => pure none
  | left + 1, off => do
    let de ← readEntry dp off
    if direntInum de ≠ 0 ∧ namecmp name (direntName de) = 0 then pure (some (direntInum de, off))
    else findEntry dp name left (off + direntSize)

def dirlookup (dp : Slot) (name : Name) : Call (Option (Slot × Nat)) := do
  let d ← inode dp
  if d.type ≠ tDir then failure
  else
    match ← findEntry dp name (entryCount d.size) 0 with
    | none => pure none
    | some (inum, off) => do
      let ip ← iget inum
      pure (some (ip, off))

/-- Where a walk begins: at the root, or at the current directory. -/
def startOf (path : Path) (cwd : Slot) : Call Slot :=
  if path.head? = some 47 then iget rootino
  else do
    idup cwd
    pure cwd

end Kernel
end Aso.Xv6.Fs
