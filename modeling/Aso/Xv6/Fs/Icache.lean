import Aso.Xv6.Fs.ReadWrite

/-! From a disk to an inode in memory: the superblock, `iget` and `ilock` of
fs.c. A panic is `none`. -/
namespace Aso.Xv6.Fs

/-- The kernel before the first `iget`. -/
def mount (disk : Nat → Block) (devsw : Nat → Devsw) : State where
  sb := readsb (disk superblockNo)
  block := disk
  icache _ :=
    { type := 0, major := 0, minor := 0, nlink := 0, size := 0, addrs := fun _ => 0
      inum := 0, ref := 0, valid := false }
  devsw := devsw
  logged := []

namespace State

/-- The cached inode, or else the first unused slot. -/
def iget (s : State) (inum : Nat) : Option (Slot × State) :=
  match (List.finRange ninode).find? fun ip => 0 < (s.icache ip).ref ∧
    (s.icache ip).inum = inum with
  | some ip => some (ip, s.setInode ip { s.icache ip with ref := (s.icache ip).ref + 1 })
  | none =>
    match (List.finRange ninode).find? fun ip => (s.icache ip).ref = 0 with
    | some ip =>
      some (ip, s.setInode ip { s.icache ip with inum := inum, ref := 1, valid := false })
    | none => none

/-- Read the inode from its block unless the copy is current. -/
def ilock (s : State) (ip : Slot) : Option State :=
  if (s.icache ip).ref < 1 then none
  else if (s.icache ip).valid then some s
  else
    let dip := s.dinode (s.icache ip).inum
    let s := s.setInode ip { s.icache ip with toDinode := dip, valid := true }
    if (s.icache ip).type = 0 then none else some s

/-- The first inode is loaded into slot 0. -/
def load (s : State) (inum : Nat) : State :=
  s.setInode 0 { toDinode := s.dinode inum, inum := inum, ref := 1, valid := true }

theorem load_icache_same (s : State) (inum : Nat) :
    (s.load inum).icache 0 =
    { toDinode := s.dinode inum, inum := inum, ref := 1, valid := true } := by
  simp only [load, setInode, Function.update_self]

theorem load_icache_other (s : State) (inum : Nat) {ip : Slot} (other : ip ≠ 0) :
    (s.load inum).icache ip = s.icache ip := by
  simp only [load, setInode, Function.update_of_ne other]

theorem load_inUse_iff {s : State} {inum : Nat} {ip : Slot} (none : ∀ ip, (s.icache ip).ref = 0) :
    ((s.load inum).icache ip).inUse ↔ ip = 0 := by
  obtain rfl | other := eq_or_ne ip 0
  · rw [load_icache_same]
    exact iff_of_true ⟨Nat.one_pos, rfl⟩ rfl
  · rw [load_icache_other s inum other, Inode.inUse, none ip]
    exact iff_of_false (fun used => absurd used.1 (Nat.lt_irrefl 0)) other

theorem iget_mount (disk : Nat → Block) (devsw : Nat → Devsw) (inum : Nat) :
    (mount disk devsw).iget inum =
      some (0, (mount disk devsw).setInode 0
        { (mount disk devsw).icache 0 with inum := inum, ref := 1, valid := false }) :=
  rfl

theorem ilock_mount {disk : Nat → Block} {devsw : Nat → Devsw} (inum : Nat) :
    ((mount disk devsw).setInode 0
        { (mount disk devsw).icache 0 with inum := inum, ref := 1, valid := false }).ilock 0 =
      if ((mount disk devsw).dinode inum).type = 0 then none
      else some ((mount disk devsw).load inum) := by
  simp only [ilock, setInode, Function.update_self, Function.update_idem, lt_irrefl, if_false,
    Bool.false_eq_true]
  rfl

end State
end Aso.Xv6.Fs
