import Aso.Xv6.Fs.Calls

/-! The file system between calls. What is said of the disk is said of inode numbers, and
what is said of the cache ties it to the disk, so that a step on one of them leaves the
other alone. The trees of the inodes in memory are those on disk. -/
namespace Aso.Xv6.Fs
namespace State
variable {s t : State} {ip : Slot} {x y : Ino} {n m : Node} {i j : Nat}

def Allocated (s : State) (i : Nat) : Prop := i < s.sb.ninodes ∧ (s.dinode i).type ≠ 0

/-- Every block that the file reaches into is mapped. -/
def Filled (s : State) (x : Ino) : Prop :=
  ∀ bn, bn * bsize < (s.inode x).size → bn < maxfile ∧ s.lookup x bn ≠ 0

/-- The inode number in entry `i` of a directory with these bytes. -/
def entryInum (bytes : Nat → UInt8) (i : Nat) : Nat :=
  leNat [bytes (direntSize * i), bytes (direntSize * i + 1)]

/-- The entries of a directory name inodes that exist. -/
def Leads (s : State) (x : Ino) : Prop :=
  ∀ i, direntSize * i < (s.inode x).size → entryInum (s.byteAt x) i < s.sb.ninodes

structure DiskOk (s : State) : Prop where
  wf : s.sb.Wf
  root : rootino < s.sb.ninodes
  reserved : Reserved s
  data : ∀ i n, s.Allocated i → s.addr (.disk i) n ≠ 0 → s.sb.IsData (s.addr (.disk i) n)
  marked : ∀ i n, s.Allocated i → s.addr (.disk i) n ≠ 0 → s.used (s.addr (.disk i) n) = true
  once : ∀ i j m n, s.Allocated i → s.Allocated j → s.addr (.disk i) m ≠ 0 →
    s.addr (.disk i) m = s.addr (.disk j) n → i = j ∧ m = n
  filled : ∀ i, s.Allocated i → (s.dinode i).type ≠ tDev → s.Filled (.disk i)
  leads : ∀ i, s.Allocated i → (s.dinode i).type = tDir → s.Leads (.disk i)

structure CacheOk (s : State) : Prop where
  known : ∀ ip, (s.icache ip).inum < s.sb.ninodes
  unique : ∀ a b, 0 < (s.icache a).ref → 0 < (s.icache b).ref →
    (s.icache a).inum = (s.icache b).inum → a = b
  typed : ∀ ip, (s.icache ip).inUse → (s.icache ip).type ≠ 0
  through : ∀ ip, (s.icache ip).inUse → (s.icache ip).toDinode = s.dinode (s.icache ip).inum

/-- The number of an inode. -/
def num (s : State) : Ino → Nat
  | .core ip => (s.icache ip).inum
  | .disk i => i

theorem addr_of_inode (same : s.inode x = s.inode y) : s.addr x n = s.addr y n := by
  cases n <;> simp only [addr, same]

theorem lookup_of_inode (same : s.inode x = s.inode y) : s.lookup x = s.lookup y :=
  funext fun _ => addr_of_inode same

theorem byteAt_of_inode (same : s.inode x = s.inode y) : s.byteAt x = s.byteAt y := by
  funext i
  rw [byteAt, byteAt, lookup_of_inode same]

theorem filled_of_inode (same : s.inode x = s.inode y) : s.Filled x ↔ s.Filled y := by
  rw [Filled, Filled, same, lookup_of_inode same]

namespace CacheOk

theorem inode_eq (cache : CacheOk s) (live : s.Live y) : s.inode y = s.inode (.disk (s.num y)) := by
  cases y with
  | core ip => exact cache.through ip live
  | disk i => rfl

theorem allocated (cache : CacheOk s) (live : s.Live y) : s.Allocated (s.num y) := by
  cases y with
  | core ip =>
    refine ⟨cache.known ip, ?_⟩
    have typed := cache.typed ip live
    rw [show (s.icache ip).type = (s.icache ip).toDinode.type from rfl, cache.through ip live]
      at typed
    exact typed
  | disk i => exact ⟨live.1, live.2.1⟩

theorem num_inj (cache : CacheOk s) (first : s.Live x) (second : s.Live y)
    (same : s.num x = s.num y) : x = y := by
  cases x with
  | core a =>
    cases y with
    | core b => rw [cache.unique a b first.1 second.1 same]
    | disk j => exact absurd same (second.2.2 a first)
  | disk i =>
    cases y with
    | core b => exact absurd same.symm (first.2.2 b second)
    | disk j => exact congrArg Ino.disk same

end CacheOk

theorem DiskOk.sound (disk : DiskOk s) (cache : CacheOk s) : Sound s := by
  have place {y : Ino} (live : s.Live y) (n : Node) : s.addr y n = s.addr (.disk (s.num y)) n :=
    addr_of_inode (cache.inode_eq live)
  refine ⟨⟨disk.wf, fun y n live there => ?_, fun y n live there => ?_,
    fun x y m n first second there same => ?_⟩, disk.reserved⟩
  · rw [place live] at there ⊢
    exact disk.data _ n (cache.allocated live) there
  · rw [place live] at there ⊢
    exact disk.marked _ n (cache.allocated live) there
  · rw [place first] at there same
    rw [place second] at same
    obtain ⟨number, rfl⟩ := disk.once _ _ m n (cache.allocated first)
      (cache.allocated second) there same
    exact ⟨cache.num_inj first second number, rfl⟩

/-- While the blocks of the data area stay, an inode with the same roots has the same tree. -/
theorem DiskOk.addr_kept (disk : DiskOk s)
    (blocks : ∀ c, s.sb.dataStart ≤ c → t.block c = s.block c) (allocated : s.Allocated i)
    (roots : (t.dinode i).addrs = (s.dinode i).addrs) (n : Node) :
    t.addr (.disk i) n = s.addr (.disk i) n := by
  apply addr_unique
  · exact fun j => (congrFun roots j).symm
  intro n p child
  rw [addr_child child]
  obtain absent | present := eq_or_ne (s.addr (.disk i) p) 0
  · rw [absent, follow_zero, follow_zero]
  · rw [follow_of_ne present, follow_of_ne present, blocks _ (disk.data i p allocated present).1]

theorem DiskOk.byteAt_kept (disk : DiskOk s)
    (blocks : ∀ c, s.sb.dataStart ≤ c → t.block c = s.block c) (allocated : s.Allocated i)
    (roots : (t.dinode i).addrs = (s.dinode i).addrs) :
    t.byteAt (.disk i) = s.byteAt (.disk i) := by
  funext pos
  have place : t.lookup (.disk i) (pos / bsize) = s.lookup (.disk i) (pos / bsize) :=
    disk.addr_kept blocks allocated roots _
  rw [byteAt, byteAt, place]
  split
  · rfl
  · next present =>
      rw [blocks (s.lookup (.disk i) (pos / bsize)) (disk.data i _ allocated present).1]

/-- The disk changes in its inodes and its bitmap only. An inode keeps its kind and its tree, or is
as `ialloc` makes it; the blocks in the trees stay marked. -/
theorem DiskOk.change (disk : DiskOk s) (sb : t.sb = s.sb)
    (blocks : ∀ c, s.sb.dataStart ≤ c → t.block c = s.block c) (reserved : Reserved t)
    (nodes : ∀ i, t.Allocated i → ((t.dinode i).size = 0 ∧ ∀ j, (t.dinode i).addrs j = 0) ∨
      (s.Allocated i ∧ (t.dinode i).type = (s.dinode i).type ∧
      (t.dinode i).size = (s.dinode i).size ∧
        (t.dinode i).addrs = (s.dinode i).addrs ∧
        ∀ n, s.addr (.disk i) n ≠ 0 → t.used (s.addr (.disk i) n) = true)) : DiskOk t := by
  have empty {i : Nat} (none : ∀ j, (t.dinode i).addrs j = 0) (n : Node) :
      t.addr (.disk i) n = 0 := by
    cases n <;> simp only [addr, inode, none, follow_zero]
  have same {i : Nat} (allocated : s.Allocated i) (roots : (t.dinode i).addrs = (s.dinode i).addrs)
      (n : Node) :
      t.addr (.disk i) n = s.addr (.disk i) n := disk.addr_kept blocks allocated roots n
  refine ⟨sb ▸ disk.wf, sb ▸ disk.root, reserved, fun i n allocated there => ?_,
    fun i n allocated there => ?_, fun i j m n first second there equal => ?_,
    fun i allocated kind => ?_, fun i allocated kind => ?_⟩
  · obtain ⟨-, none⟩ | ⟨before, -, -, roots, -⟩ := nodes i allocated
    · exact absurd (empty none n) there
    · rw [same before roots] at there ⊢
      rw [sb]
      exact disk.data i n before there
  · obtain ⟨-, none⟩ | ⟨before, -, -, roots, marked⟩ := nodes i allocated
    · exact absurd (empty none n) there
    · rw [same before roots] at there ⊢
      exact marked n there
  · obtain ⟨-, none⟩ | ⟨before, -, -, roots, -⟩ := nodes i first
    · exact absurd (empty none m) there
    · obtain ⟨-, none'⟩ | ⟨before', -, -, roots', -⟩ := nodes j second
      · exact absurd (equal.trans (empty none' n)) there
      · rw [same before roots] at there equal
        rw [same before' roots'] at equal
        exact disk.once i j m n before before' there equal
  · intro bn inside
    obtain ⟨none, -⟩ | ⟨before, type, size, roots, -⟩ := nodes i allocated
    · rw [show (t.inode (.disk i)).size = 0 from none] at inside
      exact absurd inside (Nat.not_lt_zero _)
    · have filled := disk.filled i before (type ▸ kind) bn
        (by rw [show (s.inode (.disk i)).size = _ from size.symm]; exact inside)
      rw [lookup, same before roots]
      exact filled
  · intro e inside
    obtain ⟨none, -⟩ | ⟨before, type, size, roots, -⟩ := nodes i allocated
    · rw [show (t.inode (.disk i)).size = 0 from none] at inside
      exact absurd inside (Nat.not_lt_zero _)
    · rw [disk.byteAt_kept blocks before roots, sb]
      exact disk.leads i before (type ▸ kind) e
        (by rw [show (s.inode (.disk i)).size = _ from size.symm]; exact inside)

/-- The cache and the rest of memory do not matter to the disk. -/
theorem DiskOk.congr (disk : DiskOk s) (sb : t.sb = s.sb) (block : t.block = s.block) :
    DiskOk t := by
  have node (i : Nat) : t.dinode i = s.dinode i := dinode_congr sb (congrFun block _)
  have used (c : Nat) : t.used c = s.used c := by rw [State.used, State.used, sb, block]
  refine disk.change sb (fun c _ => congrFun block c) (fun b bound before => ?_)
    fun i allocated => .inr ⟨?_, ?_⟩
  · rw [sb] at bound before
    rw [used]
    exact disk.reserved b bound before
  · exact ⟨sb ▸ allocated.1, node i ▸ allocated.2⟩
  · rw [node]
    refine ⟨rfl, rfl, rfl, fun n there => ?_⟩
    rw [used]
    exact disk.marked i n ⟨sb ▸ allocated.1, node i ▸ allocated.2⟩ there

end State

end Aso.Xv6.Fs
