import Aso.Refs
import Aso.Transition
import Aso.Xv6.Fs.Inode

/-! The inode cache of fs.c with any number of processes. A section under `icache.lock` is one
step, and so is each access to an inode on disk, made with its block locked. A process has the
references it was given until its `iput` drops them, and may hand one over, as `fork` does with
the current directory and `fileclose` with the inode of a file. A panic, and a wait for a lock,
is `none`. -/
namespace Aso.Xv6.Icache

abbrev Slot := Fin ninode

structure Key where
  dev : Nat
  inum : Nat
  deriving DecidableEq

/-- `struct inode`, with the fields that are on disk as its copy; the lock is kept apart. -/
structure Inode where
  key : Key
  ref : Nat
  valid : Bool
  copy : Fs.Dinode

/-- How far a process is in its call. -/
inductive Pc where
  | idle
  /-- `ilock` waits for the lock of the inode. -/
  | ilock (ip : Slot)
  /-- `ilock` has the lock. -/
  | loading (ip : Slot)
  /-- `iput` waits for the lock of the inode. -/
  | iput (ip : Slot)
  /-- `iput` has the lock. -/
  | testing (ip : Slot)
  /-- `iput` has found no links and no other references. -/
  | truncating (ip : Slot)
  /-- `itrunc` has returned to `iput`. -/
  | clearing (ip : Slot)
  /-- `iput` has written type zero. -/
  | discarding (ip : Slot)
  | releasing (ip : Slot)
  /-- `iput` has released the lock. -/
  | dropping (ip : Slot)
  /-- The loop of `ialloc`. -/
  | ialloc (dev inum : Nat) (type : Int16)
  /-- `ialloc` has marked an inode and goes on to `iget`. -/
  | marked (key : Key)
  deriving DecidableEq

/-- `held` is no part of the source: the references that
each process was given and has not dropped. -/
structure State (K : Nat) where
  ninodes : Nat
  entry : Slot → Inode
  lock : Slot → Option (Fin K)
  disk : Key → Fs.Dinode
  pc : Fin K → Pc
  held : Fin K → Multiset Slot

variable {K : Nat}

namespace State

def setEntry (s : State K) (ip : Slot) (inode : Inode) : State K :=
  { s with entry := Function.update s.entry ip inode }

def setPc (s : State K) (p : Fin K) (pc : Pc) : State K :=
  { s with pc := Function.update s.pc p pc }

def setLock (s : State K) (ip : Slot) (holder : Option (Fin K)) : State K :=
  { s with lock := Function.update s.lock ip holder }

def setHeld (s : State K) (p : Fin K) (held : Multiset Slot) : State K :=
  { s with held := Function.update s.held p held }

def hold (s : State K) (p : Fin K) (ip : Slot) : State K := s.setHeld p (ip ::ₘ s.held p)

def lose (s : State K) (p : Fin K) (ip : Slot) : State K := s.setHeld p ((s.held p).erase ip)

/-- The entry in use for the inode, or else the first entry that is not in use. -/
def iget (s : State K) (key : Key) : Option (Slot × State K) :=
  match (List.finRange ninode).find? fun ip => 0 < (s.entry ip).ref ∧ (s.entry ip).key = key with
  | some ip => some (ip, s.setEntry ip { s.entry ip with ref := (s.entry ip).ref + 1 })
  | none =>
    match (List.finRange ninode).find? fun ip => (s.entry ip).ref = 0 with
    | some ip => some (ip, s.setEntry ip { s.entry ip with key := key, ref := 1, valid := false })
    | none => none

def idup (s : State K) (ip : Slot) : State K :=
  s.setEntry ip { s.entry ip with ref := (s.entry ip).ref + 1 }

/-- Change the fields of the inode and write them to the disk. -/
def iupdate (s : State K) (ip : Slot) (copy : Fs.Dinode) : State K :=
  { s.setEntry ip { s.entry ip with copy := copy } with
    disk := Function.update s.disk (s.entry ip).key copy }

/-- The inode as `itrunc` leaves it. -/
def itrunc (s : State K) (ip : Slot) : State K :=
  s.iupdate ip { (s.entry ip).copy with size := 0, addrs := fun _ => 0 }

/-- What `ilock` does with the lock held. -/
def load (s : State K) (ip : Slot) : Option (State K) :=
  if (s.entry ip).valid then some s
  else
    let dip := s.disk (s.entry ip).key
    if dip.type = 0 then none
    else some (s.setEntry ip { s.entry ip with copy := dip, valid := true })

/-- The test of `iput`: the copy is current, and there is neither a link nor another reference. -/
def last (s : State K) (ip : Slot) : Bool :=
  (s.entry ip).valid && (s.entry ip).copy.nlink = 0 && (s.entry ip).ref = 1

def acquiresleep (s : State K) (p : Fin K) (ip : Slot) : Option (State K) :=
  if s.lock ip = none then some (s.setLock ip (some p)) else none

/-- The dinode that `ialloc` writes. -/
def fresh (type : Int16) : Fs.Dinode := ⟨type, 0, 0, 0, 0, fun _ => 0⟩

/-- The next step of the call that a process has begun. -/
def go (s : State K) (p : Fin K) : Option (State K) :=
  match s.pc p with
  | .idle => none
  | .ilock ip => (s.acquiresleep p ip).map (·.setPc p (.loading ip))
  | .loading ip => (s.load ip).map (·.setPc p .idle)
  | .iput ip => (s.acquiresleep p ip).map (·.setPc p (.testing ip))
  | .testing ip => some (s.setPc p (if s.last ip then .truncating ip else .releasing ip))
  | .truncating ip => some ((s.itrunc ip).setPc p (.clearing ip))
  | .clearing ip =>
    some ((s.iupdate ip { (s.entry ip).copy with type := 0 }).setPc p (.discarding ip))
  | .discarding ip =>
    some ((s.setEntry ip { s.entry ip with valid := false }).setPc p (.releasing ip))
  | .releasing ip => some ((s.setLock ip none).setPc p (.dropping ip))
  | .dropping ip =>
    some (((s.setEntry ip { s.entry ip with ref := (s.entry ip).ref - 1 }).lose p ip).setPc p .idle)
  | .ialloc dev inum type =>
    if inum < s.ninodes then
      if (s.disk ⟨dev, inum⟩).type = 0 then
        some ({ s with disk := Function.update s.disk ⟨dev, inum⟩ (fresh type) }.setPc p
          (.marked ⟨dev, inum⟩))
      else some (s.setPc p (.ialloc dev (inum + 1) type))
    else none
  | .marked key => (s.iget key).map fun (ip, s) => (s.hold p ip).setPc p .idle

end State

inductive Action (K : Nat) where
  | iget (p : Fin K) (key : Key)
  | idup (p : Fin K) (ip : Slot)
  | ilock (p : Fin K) (ip : Slot)
  | iunlock (p : Fin K) (ip : Slot)
  | iput (p : Fin K) (ip : Slot)
  | ialloc (p : Fin K) (dev : Nat) (type : Int16)
  /-- A process that has locked an inode changes it, except for its type, and calls `iupdate`. -/
  | iupdate (p : Fin K) (ip : Slot) (copy : Fs.Dinode)
  /-- A reference of one process becomes one of another. -/
  | hand (p q : Fin K) (ip : Slot)
  | go (p : Fin K)

def step (s : State K) : Action K → Option (State K)
  | .iget p key => if s.pc p = .idle then (s.iget key).map fun (ip, s) => s.hold p ip else none
  | .idup p ip => if s.pc p = .idle ∧ ip ∈ s.held p then some ((s.idup ip).hold p ip) else none
  | .ilock p ip =>
    if s.pc p = .idle ∧ 1 ≤ (s.entry ip).ref then some (s.setPc p (.ilock ip)) else none
  | .iunlock p ip =>
    if s.pc p = .idle ∧ s.lock ip = some p ∧
      1 ≤ (s.entry ip).ref then some (s.setLock ip none) else none
  | .iput p ip => if s.pc p = .idle ∧ ip ∈ s.held p then some (s.setPc p (.iput ip)) else none
  | .ialloc p dev type => if s.pc p = .idle then some (s.setPc p (.ialloc dev 1 type)) else none
  | .iupdate p ip copy =>
    if s.pc p = .idle ∧ s.lock ip = some p ∧ (s.entry ip).valid ∧
      copy.type = (s.entry ip).copy.type then
      some (s.iupdate ip copy)
    else none
  | .hand p q ip => if s.pc p = .idle ∧ ip ∈ s.held p then some ((s.lose p ip).hold q ip) else none
  | .go p => s.go p

/-- No entry is in use after boot. -/
def boot (ninodes : Nat) (disk : Key → Fs.Dinode) : State K where
  ninodes := ninodes
  entry _ := ⟨⟨0, 0⟩, 0, false, State.fresh 0⟩
  lock _ := none
  disk := disk
  pc _ := .idle
  held _ := 0

end Aso.Xv6.Icache
