import Aso.Transition
import Aso.Xv6.Fs.Balloc

/-! Block trees of inodes and who owns which block. A tree is seen as a function
from places to block numbers, zero where nothing is attached; the only thing that
`bmap` ever does to the trees is to attach a fresh zeroed block at an empty place. -/
namespace Aso.Xv6.Fs

/-- A place for a block number in the tree of an inode: in `addrs`, in the
indirect block, in the double-indirect block, or in one of its level-1 blocks. -/
inductive Node where
  | root (i : Fin (ndirect + 2))
  | single (j : Fin nindirect)
  | level1 (j : Fin nindirect)
  | leaf (j k : Fin nindirect)
  deriving DecidableEq

def indirect : Fin (ndirect + 2) := ⟨ndirect, indirect_lt⟩
def double : Fin (ndirect + 2) := ⟨ndirect + 1, double_lt⟩

namespace Node

/-- The place that holds the number of the block this place lies in. -/
def parent : Node → Option Node
  | .root _ => none
  | .single _ => some (.root indirect)
  | .level1 _ => some (.root double)
  | .leaf j _ => some (.level1 j)

def index : Node → Nat
  | .root i => i.val
  | .single j | .level1 j => j.val
  | .leaf _ k => k.val

/-- Places whose blocks hold bytes of the file rather than block numbers. -/
def isData : Node → Bool
  | .root i => i.val < ndirect
  | .single _ | .leaf _ _ => true
  | .level1 _ => false

/-- Number of blocks on the way from the inode to the block of this place. -/
def depth : Node → Nat
  | .root _ => 1
  | .single _ | .level1 _ => 2
  | .leaf _ _ => 3

theorem parent_depth {n p : Node} (child : n.parent = some p) : p.depth + 1 = n.depth := by
  cases n <;> cases child <;> rfl

theorem parent_isData {n p : Node} (child : n.parent = some p) : p.isData = false := by
  cases n <;> cases child <;> rfl

theorem index_lt {n p : Node} (child : n.parent = some p) : n.index < nindirect := by
  cases n with
  | root => cases child
  | single j | level1 j => exact j.isLt
  | leaf _ k => exact k.isLt

theorem eq_of_index {m n p : Node} (first : m.parent = some p) (second : n.parent = some p)
    (same : m.index = n.index) : m = n := by
  cases m <;> cases first <;> cases n <;> simp_all [parent, index, Fin.ext_iff, indirect, double]

/-- The place of the `bn`th block of a file, for `bn` below `maxfile`. -/
def ofBn (bn : Nat) : Node :=
  if direct : bn < ndirect then .root ⟨bn, direct_lt direct⟩
  else
    let bn := bn - ndirect
    if single : bn < nindirect then .single ⟨bn, single⟩
    else
      let bn := bn - nindirect
      .leaf ⟨bn / nindirect % nindirect, Nat.mod_lt _ (by decide)⟩
        ⟨bn % nindirect, Nat.mod_lt _ (by decide)⟩

theorem ofBn_isData (bn : Nat) : (ofBn bn).isData = true := by
  unfold ofBn
  dsimp only
  split
  · rename_i direct
    simpa [isData] using direct
  · split <;> rfl

/-- The block index of a place for file data. -/
def toBn : Node → Nat
  | .root i => i.val
  | .single j => ndirect + j.val
  | .level1 _ => 0
  | .leaf j k => ndirect + nindirect + j.val * nindirect + k.val

theorem toBn_ofBn {bn : Nat} (bound : bn < maxfile) : toBn (ofBn bn) = bn := by
  simp only [maxfile, nbde, nindirect, ndirect, bsize] at bound
  unfold ofBn
  split
  · rfl
  · rename_i direct
    dsimp only
    split
    · simp only [toBn, ndirect] at direct ⊢
      omega
    · rename_i single
      simp only [toBn, nindirect, ndirect, bsize] at direct single ⊢
      omega

theorem ofBn_injective {a b : Nat} (ha : a < maxfile) (hb : b < maxfile)
    (same : ofBn a = ofBn b) : a = b := by
  rw [← toBn_ofBn ha, ← toBn_ofBn hb, same]

end Node

/-- Inodes in memory, and inodes that are only on disk. -/
inductive Ino where
  | core (ip : Slot)
  | disk (inum : Nat)
  deriving DecidableEq

def Inode.inUse (i : Inode) : Prop := 0 < i.ref ∧ i.valid = true

namespace State
variable {s t : State} {x y : Ino} {m n : Node} {a b : Nat}

/-- The dinode with this number on disk. -/
def dinode (s : State) (inum : Nat) : Dinode :=
  .decode (s.block (s.sb.iblock inum)) (dinodeSize * (inum % ipb))

def inode (s : State) : Ino → Dinode
  | .core ip => (s.icache ip).toDinode
  | .disk inum => s.dinode inum

/-- The inodes of the file system: those in use in the cache, and the allocated
ones on disk that have no current copy there. -/
def Live (s : State) : Ino → Prop
  | .core ip => (s.icache ip).inUse
  | .disk inum => inum < s.sb.ninodes ∧ (s.dinode inum).type ≠ 0 ∧
      ∀ ip, (s.icache ip).inUse → (s.icache ip).inum ≠ inum

/-- Word `i` of block `b`, zero when there is no such block. -/
def follow (s : State) (b i : Nat) : Nat := if b = 0 then 0 else (s.block b).word i

/-- The block number at a place of the tree of `x`. -/
def addr (s : State) (x : Ino) : Node → Nat
  | .root i => (s.inode x).addrs i
  | .single j => s.follow ((s.inode x).addrs indirect) j
  | .level1 j => s.follow ((s.inode x).addrs double) j
  | .leaf j k => s.follow (s.follow ((s.inode x).addrs double) j) k

theorem addr_child {p : Node} (child : n.parent = some p) :
    s.addr x n = s.follow (s.addr x p) n.index := by
  cases n <;> cases child <;> rfl

/-- Every block number in the trees is a data block marked used, and occurs once. -/
structure Owned (s : State) : Prop where
  wf : s.sb.Wf
  data : ∀ x n, s.Live x → s.addr x n ≠ 0 → s.sb.IsData (s.addr x n)
  marked : ∀ x n, s.Live x → s.addr x n ≠ 0 → s.used (s.addr x n) = true
  once : ∀ x y m n, s.Live x → s.Live y → s.addr x m ≠ 0 → s.addr x m = s.addr y n → x = y ∧ m = n

/-- The blocks before the data area are marked used. -/
def Reserved (s : State) : Prop := ∀ b < s.sb.size, b < s.sb.dataStart → s.used b = true

/-- A block that is not marked is in no tree. -/
theorem Owned.addr_ne_of_clear (owned : Owned s) (clear : s.used a = false) (live : s.Live y)
    (there : s.addr y m ≠ 0) : s.addr y m ≠ a := by
  intro same
  have marked := owned.marked y m live there
  rw [same, clear] at marked
  cases marked

/-- A fresh zeroed block `a` is attached at the empty place `n` of the tree of
`x`, and nothing else happens to the trees, the bitmap or the file data. -/
structure Attach (s t : State) (x : Ino) (n : Node) (a : Nat) : Prop where
  sb : t.sb = s.sb
  devsw : t.devsw = s.devsw
  inum : ∀ ip, (t.icache ip).inum = (s.icache ip).inum
  live : ∀ y, t.Live y ↔ s.Live y
  data : s.sb.IsData a
  fresh : s.used a = false
  empty : s.addr x n = 0
  target : s.Live x
  used : ∀ c < s.sb.size, t.used c = (s.used c || decide (a = c))
  free : t.free + 1 = s.free
  zero : t.block a = .zero
  addr : ∀ y m, s.Live y → t.addr y m = if y = x ∧ m = n then a else s.addr y m
  kept : ∀ y, s.Live y → { t.inode y with addrs := (s.inode y).addrs } = s.inode y
  content : ∀ y m, s.Live y → m.isData = true → s.addr y m ≠ 0 →
    t.block (s.addr y m) = s.block (s.addr y m)

namespace Attach

theorem addr_ne (attach : Attach s t x n a) (owned : Owned s) (live : s.Live y) (m : Node) :
    s.addr y m ≠ a := by
  intro same
  exact owned.addr_ne_of_clear attach.fresh live (same ▸ attach.data.ne_zero) same

theorem owned (attach : Attach s t x n a) (owned : Owned s) : Owned t where
  wf := attach.sb ▸ owned.wf
  data y m live nonzero := by
    have live := (attach.live y).mp live
    rw [attach.addr y m live] at nonzero ⊢
    rw [attach.sb]
    split at nonzero <;> rename_i here
    · rw [if_pos here]
      exact attach.data
    · rw [if_neg here]
      exact owned.data y m live nonzero
  marked y m live nonzero := by
    have live := (attach.live y).mp live
    rw [attach.addr y m live] at nonzero ⊢
    split at nonzero <;> rename_i here
    · rw [if_pos here, attach.used a attach.data.2]
      simp
    · rw [if_neg here, attach.used _ (owned.data y m live nonzero).2, owned.marked y m live nonzero]
      rfl
  once y z m k first second nonzero same := by
    have first := (attach.live y).mp first
    have second := (attach.live z).mp second
    rw [attach.addr y m first] at nonzero same
    rw [attach.addr z k second] at same
    split at same <;> rename_i here <;> split at same <;> rename_i there
    · exact ⟨here.1.trans there.1.symm, here.2.trans there.2.symm⟩
    · exact absurd same.symm (attach.addr_ne owned second k)
    · exact absurd same (attach.addr_ne owned first m)
    · rw [if_neg here] at nonzero
      exact owned.once y z m k first second nonzero same

theorem reserved (attach : Attach s t x n a) (reserved : Reserved s) : Reserved t := by
  intro b bound before
  rw [attach.sb] at bound before
  rw [attach.used b bound, reserved b bound before]
  rfl

end Attach

/-- Under `Reserved`, `balloc` finds a data block or every block is in use. -/
theorem balloc_data (reserved : Reserved s) :
    (∃ a, s.sb.IsData a ∧ s.used a = false ∧ s.balloc = some (a, s.take a)) ∨
      (s.balloc = none ∧ s.free = 0) := by
  obtain ⟨a, bound, clear, -, found⟩ | ⟨none, full⟩ := s.balloc_spec
  · refine .inl ⟨a, ⟨?_, bound⟩, clear, found⟩
    by_contra before
    simp [reserved a bound (by omega)] at clear
  · refine .inr ⟨none, Nat.eq_zero_of_not_pos fun positive => ?_⟩
    obtain ⟨b, bound, clear⟩ := free_pos_iff.mp positive
    simp [full b bound] at clear

theorem follow_zero (i : Nat) : s.follow 0 i = 0 := rfl

theorem follow_of_ne {b i : Nat} (present : b ≠ 0) : s.follow b i = (s.block b).word i :=
  if_neg present

/-- A tree is determined by its roots and the words of its blocks. -/
theorem addr_unique (tree : Node → Nat) (roots : ∀ i, tree (.root i) = (s.inode x).addrs i)
    (words : ∀ m p, m.parent = some p → tree m = s.follow (tree p) m.index) (m : Node) :
    s.addr x m = tree m := by
  cases m with
  | root i => exact (roots i).symm
  | single j =>
    rw [words (.single j) (.root indirect) rfl, roots]
    rfl
  | level1 j =>
    rw [words (.level1 j) (.root double) rfl, roots]
    rfl
  | leaf j k =>
    rw [words (.leaf j k) (.level1 j) rfl, words (.level1 j) (.root double) rfl, roots]
    rfl

/-- Storing a fresh block number at one empty place, below a block that is
there, changes the trees at that place only. -/
theorem addr_attach (present : ∀ p, n.parent = some p → s.addr x p ≠ 0) (empty : s.addr x n = 0)
    (zero : t.block a = .zero)
    (roots : ∀ i, (t.inode y).addrs i = if y = x ∧ .root i = n then a else (s.inode y).addrs i)
    (words : ∀ m p, m.parent = some p → s.addr y p ≠ 0 →
      (t.block (s.addr y p)).word m.index = if y = x ∧ m = n then a
      else (s.block (s.addr y p)).word m.index)
    (nonzero : a ≠ 0) (m : Node) : t.addr y m = if y = x ∧ m = n then a else s.addr y m := by
  apply addr_unique fun m => if y = x ∧ m = n then a else s.addr y m
  · exact fun i => (roots i).symm
  · intro m p child
    by_cases here : y = x ∧ p = n
    · obtain ⟨rfl, rfl⟩ := here
      have other : m ≠ p := by
        rintro rfl
        cases m <;> cases child
      rw [if_neg (by simp [other]), if_pos ⟨rfl, rfl⟩, follow_of_ne nonzero, zero, Bytes.word_zero,
        addr_child child, empty, follow_zero]
    · rw [if_neg here]
      obtain absent | there := eq_or_ne (s.addr y p) 0
      · have other : ¬(y = x ∧ m = n) := by
          rintro ⟨rfl, rfl⟩
          exact present p child absent
        rw [if_neg other, addr_child child, absent, follow_zero, follow_zero]
      · rw [follow_of_ne there, words m p child there, addr_child child, follow_of_ne there]

theorem dinode_congr {inum : Nat} (sb : t.sb = s.sb)
    (block : t.block (s.sb.iblock inum) = s.block (s.sb.iblock inum)) :
    t.dinode inum = s.dinode inum := by
  rw [dinode, dinode, sb, block]

theorem live_congr (wf : s.sb.Wf) (sb : t.sb = s.sb)
    (blocks : ∀ c < s.sb.bmapstart, t.block c = s.block c)
    (use : ∀ ip, (t.icache ip).inUse ↔ (s.icache ip).inUse)
    (inum : ∀ ip, (t.icache ip).inum = (s.icache ip).inum) (y : Ino) : t.Live y ↔ s.Live y := by
  cases y with
  | core ip => exact use ip
  | disk i =>
    simp only [Live, sb, use, inum]
    apply and_congr_right
    intro bound
    rw [dinode_congr sb (blocks _ (Superblock.iblock_lt_bmapstart wf bound))]

theorem free_congr (sb : t.sb = s.sb) (used : ∀ c < s.sb.size, t.used c = s.used c) :
    t.free = s.free := by
  unfold free
  rw [sb]
  congr 1
  apply Finset.filter_congr
  intro c member
  rw [used c (Finset.mem_range.mp member)]

theorem bmapstart_lt_dataStart (sb : Superblock) : sb.bmapstart < sb.dataStart :=
  Nat.lt_succ_of_le (Nat.le_add_right _ _)

/-- Outside the bitmap only the taken block changes. -/
theorem take_block (data : s.sb.IsData a) {c : Nat} (other : c ≠ a)
    (outside : c < s.sb.bmapstart ∨ s.sb.dataStart ≤ c) : (s.take a).block c = s.block c := by
  apply take_block_other other
  have := Superblock.bblock_lt_dataStart data.2
  have : s.sb.bmapstart ≤ s.sb.bblock a := Nat.le_add_left _ _
  omega

theorem take_block_low (data : s.sb.IsData a) {c : Nat} (low : c < s.sb.bmapstart) :
    (s.take a).block c = s.block c := by
  have := bmapstart_lt_dataStart s.sb
  have := data.1
  exact take_block data (by omega) (.inl low)

theorem take_block_addr (owned : Owned s) (data : s.sb.IsData a) (clear : s.used a = false)
    (live : s.Live y) (there : s.addr y m ≠ 0) :
    (s.take a).block (s.addr y m) = s.block (s.addr y m) :=
  take_block data (owned.addr_ne_of_clear clear live there) (.inr (owned.data y m live there).1)

section
variable {ip : Slot} {i : Fin (ndirect + 2)}

@[simp] theorem setAddr_sb : (s.setAddr ip i a).sb = s.sb := rfl

@[simp] theorem setAddr_block : (s.setAddr ip i a).block = s.block := rfl

@[simp] theorem setAddr_used : (s.setAddr ip i a).used = s.used := rfl

theorem setAddr_icache_same :
    (s.setAddr ip i a).icache ip =
    { s.icache ip with addrs := Function.update (s.icache ip).addrs i a } := by
  simp [setAddr, setInode]

theorem setAddr_icache_other {k : Slot} (other : k ≠ ip) :
    (s.setAddr ip i a).icache k = s.icache k := by
  simp [setAddr, setInode, other]

/-- Only the root that was set has changed. -/
theorem setAddr_inode (y : Ino) :
    (s.setAddr ip i a).inode y = { s.inode y with
      addrs := if y = .core ip then Function.update (s.inode y).addrs i a
      else (s.inode y).addrs } := by
  cases y with
  | disk inum => simp [inode, dinode]
  | core k =>
    obtain rfl | other := eq_or_ne k ip
    · simp [inode, setAddr_icache_same]
    · simp [inode, setAddr_icache_other other, other]

end

/-- Taking a block leaves the inodes on disk alone. -/
theorem take_inode (owned : Owned s) (data : s.sb.IsData a) (live : s.Live y) :
    (s.take a).inode y = s.inode y := by
  cases y with
  | core ip => rfl
  | disk inum =>
    exact dinode_congr rfl (take_block_low data (Superblock.iblock_lt_bmapstart owned.wf live.1))

theorem attach_root {ip : Slot} {i : Fin (ndirect + 2)} (owned : Owned s) (live : s.Live (.core ip))
    (data : s.sb.IsData a) (fresh : s.used a = false) (empty : s.addr (.core ip) (.root i) = 0) :
    Attach s ((s.take a).setAddr ip i a) (.core ip) (.root i) a := by
  have cached (k : Slot) : ((s.take a).setAddr ip i a).icache k =
      { s.icache k with
        addrs :=
          if k = ip then Function.update (s.icache k).addrs i a else (s.icache k).addrs } := by
    obtain rfl | other := eq_or_ne k ip
    · simp [setAddr_icache_same]
    · simp [setAddr_icache_other other, other]
  constructor
  case sb => rfl
  case devsw => rfl
  case inum => simp [cached]
  case live =>
    refine live_congr owned.wf setAddr_sb (fun c low => ?_) (by simp [cached, Inode.inUse])
      (by simp [cached])
    rw [setAddr_block, take_block_low data low]
  case data => exact data
  case fresh => exact fresh
  case empty => exact empty
  case target => exact live
  case used =>
    intro c bound
    rw [setAddr_used, used_take data bound]
  case free => rw [free_congr setAddr_sb fun c _ => by rw [setAddr_used], free_take data fresh]
  case zero => rw [setAddr_block, take_block_same]
  case kept =>
    intro y here
    rw [setAddr_inode, take_inode owned data here]
  case content =>
    intro y m here _ present
    rw [setAddr_block, take_block_addr owned data fresh here present]
  case addr =>
    intro y m here
    apply addr_attach (by simp [Node.parent]) empty (by rw [setAddr_block, take_block_same]) _ _
      data.ne_zero
    · intro k
      rw [setAddr_inode, take_inode owned data here]
      simp only [Node.root.injEq]
      split <;> simp_all [Function.update_apply]
    · intro m p child present
      have other : m ≠ .root i := by
        rintro rfl
        cases child
      rw [setAddr_block, take_block_addr owned data fresh here present]
      simp [other]

theorem logWrite_inode {data : Block} (wf : s.sb.Wf) (outside : s.sb.dataStart ≤ b)
    (known : ∀ inum, y = .disk inum → inum < s.sb.ninodes) :
    (s.logWrite b data).inode y = s.inode y := by
  cases y with
  | core ip => rfl
  | disk inum =>
    have below := Superblock.iblock_lt_bmapstart wf (known inum rfl)
    have := bmapstart_lt_dataStart s.sb
    exact dinode_congr rfl (logWrite_block_other s data (by omega))

theorem Live.known (live : s.Live y) (inum : Nat) (disk : y = .disk inum) :
    inum < s.sb.ninodes := by
  subst y
  exact live.1

/-- A number written to a block of a tree changes the word of one place. -/
theorem setWord_word {p q : Node} (owned : Owned s) (live : s.Live x) (child : n.parent = some p)
    (fits : a < 2 ^ 32) (here : s.Live y) (parent : m.parent = some q) (there : s.addr y q ≠ 0) :
    ((t.logWrite (s.addr x p) ((t.block (s.addr x p)).setWord n.index a)).block (s.addr y q)).word
      m.index =
      if y = x ∧ m = n then a else (t.block (s.addr y q)).word m.index := by
  by_cases same : s.addr y q = s.addr x p
  · obtain ⟨rfl, rfl⟩ := owned.once y x q p here live there same
    rw [logWrite_block_same]
    by_cases place : m = n
    · subst m
      rw [if_pos ⟨rfl, rfl⟩]
      apply Bytes.word_setWord_same _ _ fits
      have := Node.index_lt child
      simp only [nindirect, bsize] at this ⊢
      omega
    · have other : n.index ≠ m.index := fun same => place (Node.eq_of_index parent child same.symm)
      rw [if_neg (by simp [place]), Bytes.word_setWord_other _ other]
  · have other : ¬(y = x ∧ m = n) := by
      rintro ⟨rfl, rfl⟩
      rw [child] at parent
      cases parent
      exact same rfl
    rw [logWrite_block_other _ _ same, if_neg other]

theorem attach_entry {p : Node} (owned : Owned s) (live : s.Live x) (child : n.parent = some p)
    (present : s.addr x p ≠ 0) (data : s.sb.IsData a) (fresh : s.used a = false)
    (empty : s.addr x n = 0) :
    Attach s ((s.take a).logWrite (s.addr x p) (((s.take a).block (s.addr x p)).setWord n.index a))
      x n a := by
  have holder := owned.data x p live present
  have fits : a < 2 ^ 32 := by
    have := owned.wf.fits
    have := data.2
    omega
  have zeroed : ((s.take a).logWrite (s.addr x p)
      (((s.take a).block (s.addr x p)).setWord n.index a)).block a =
      .zero := by
    rw [logWrite_block_other _ _ (owned.addr_ne_of_clear fresh live present).symm, take_block_same]
  have below (c : Nat) (low : c < s.sb.bmapstart) :
      ((s.take a).logWrite (s.addr x p) (((s.take a).block (s.addr x p)).setWord n.index a)).block
      c =
        s.block c := by
    have := bmapstart_lt_dataStart s.sb
    have := holder.1
    rw [logWrite_block_other _ _ (by omega), take_block_low data low]
  have inode (y : Ino) (here : s.Live y) :
      ((s.take a).logWrite (s.addr x p) (((s.take a).block (s.addr x p)).setWord n.index a)).inode
      y =
        s.inode y := by
    rw [logWrite_inode (s := s.take a) owned.wf holder.1 (Live.known (s := s) here),
      take_inode owned data here]
  constructor
  case sb => rw [logWrite_sb, take_sb]
  case devsw => rw [logWrite_devsw, take_devsw]
  case inum => simp
  case live => exact live_congr owned.wf (by simp) below (by simp) (by simp)
  case data => exact data
  case fresh => exact fresh
  case empty => exact empty
  case target => exact live
  case used =>
    intro c bound
    rw [used_logWrite (s := s.take a) holder.1 bound, used_take data bound]
  case free =>
    rw [free_congr (s := s.take a) (logWrite_sb _ _ _)
      fun c bound => used_logWrite (s := s.take a) holder.1 bound, free_take data fresh]
  case zero => exact zeroed
  case kept =>
    intro y here
    rw [inode y here]
  case content =>
    intro y m here bytes there
    have other : s.addr y m ≠ s.addr x p := by
      intro same
      obtain ⟨-, rfl⟩ := owned.once y x m p here live there same
      rw [Node.parent_isData child] at bytes
      cases bytes
    rw [logWrite_block_other _ _ other, take_block_addr owned data fresh here there]
  case addr =>
    intro y m here
    apply addr_attach _ empty zeroed _ _ data.ne_zero
    · intro q parent
      rw [child] at parent
      cases parent
      exact present
    · intro i
      have other : Node.root i ≠ n := by
        rintro rfl
        cases child
      rw [inode y here, if_neg (by simp [other])]
    · intro m q parent there
      rw [setWord_word owned live child fits here parent there,
        take_block_addr owned data fresh here there]

/-- What looking up one place of a tree does: the number is there, a fresh block
is attached, or no block is left. -/
inductive Resolved (s : State) (x : Ino) (n : Node) : Option (Nat × State) → Prop where
  | present (there : s.addr x n ≠ 0) : Resolved s x n (some (s.addr x n, s))
  | fresh {a : Nat} {t : State} (attach : Attach s t x n a) : Resolved s x n (some (a, t))
  | full (spent : s.free = 0) (empty : s.addr x n = 0) : Resolved s x n none

theorem mapRoot_resolved {ip : Slot} {i : Fin (ndirect + 2)} (owned : Owned s)
    (reserved : Reserved s) (live : s.Live (.core ip)) :
    Resolved s (.core ip) (.root i) (s.mapRoot ip i) := by
  unfold mapRoot
  split
  · rename_i empty
    obtain ⟨a, data, fresh, found⟩ | ⟨none, full⟩ := balloc_data reserved
    · rw [found]
      exact .fresh (attach_root owned live data fresh empty)
    · rw [none]
      exact .full full empty
  · rename_i there
    exact .present there

theorem mapEntry_resolved {p : Node} (owned : Owned s) (reserved : Reserved s) (live : s.Live x)
    (child : n.parent = some p) (present : s.addr x p ≠ 0) :
    Resolved s x n (s.mapEntry (s.addr x p) n.index) := by
  have word : (s.block (s.addr x p)).word n.index = s.addr x n := by
    rw [addr_child child, follow_of_ne present]
  unfold mapEntry
  rw [word]
  split
  · rename_i empty
    obtain ⟨a, data, fresh, found⟩ | ⟨none, full⟩ := balloc_data reserved
    · rw [found]
      exact .fresh (attach_entry owned live child present data fresh empty)
    · rw [none]
      exact .full full empty
  · rename_i there
    exact .present there

/-- Blocks attached one after another at the listed places of the tree of `x`. -/
inductive Grows (x : Ino) (s : State) : State → List Node → Prop where
  | refl : Grows x s s []
  | attach {t u : State} {places : List Node} {n : Node} {a : Nat} (grows : Grows x s t places)
      (attach : Attach t u x n a) : Grows x s u (n :: places)

namespace Grows
variable {places : List Node}

theorem owned (grows : Grows x s t places) (start : Owned s) : Owned t := by
  induction grows with
  | refl => exact start
  | attach _ attach ih => exact attach.owned ih

theorem reserved (grows : Grows x s t places) (start : Reserved s) : Reserved t := by
  induction grows with
  | refl => exact start
  | attach _ attach ih => exact attach.reserved ih

theorem sb (grows : Grows x s t places) : t.sb = s.sb := by
  induction grows with
  | refl => rfl
  | attach _ attach ih => rw [attach.sb, ih]

theorem devsw (grows : Grows x s t places) : t.devsw = s.devsw := by
  induction grows with
  | refl => rfl
  | attach _ attach ih => rw [attach.devsw, ih]

theorem inum (grows : Grows x s t places) (ip : Slot) :
    (t.icache ip).inum = (s.icache ip).inum := by
  induction grows with
  | refl => rfl
  | attach _ attach ih => rw [attach.inum, ih]

theorem live (grows : Grows x s t places) (y : Ino) : t.Live y ↔ s.Live y := by
  induction grows with
  | refl => rfl
  | attach _ attach ih => rw [attach.live, ih]

theorem free (grows : Grows x s t places) : t.free + places.length = s.free := by
  induction grows with
  | refl => rfl
  | attach _ attach ih =>
    rw [List.length_cons, ← ih, ← attach.free]
    omega

theorem addr_other (grows : Grows x s t places) (live : s.Live y) (other : ¬(y = x ∧ m ∈ places)) :
    t.addr y m = s.addr y m := by
  induction grows with
  | refl => rfl
  | attach grows attach ih =>
    rw [List.mem_cons, not_and_or, not_or] at other
    rw [attach.addr y m ((grows.live y).mpr live), if_neg (by tauto), ih (by tauto)]

theorem addr_kept (grows : Grows x s t places) (live : s.Live y) (there : s.addr y m ≠ 0) :
    t.addr y m = s.addr y m := by
  induction grows with
  | refl => rfl
  | @attach t u places n a grows attach ih =>
    have other : ¬(y = x ∧ m = n) := by
      rintro ⟨rfl, rfl⟩
      exact there (ih ▸ attach.empty)
    rw [attach.addr y m ((grows.live y).mpr live), if_neg other, ih]

theorem kept (grows : Grows x s t places) (live : s.Live y) :
    { t.inode y with addrs := (s.inode y).addrs } = s.inode y := by
  induction grows with
  | refl => rfl
  | attach grows attach ih =>
    rw [← ih, ← attach.kept y ((grows.live y).mpr live)]

theorem content (grows : Grows x s t places) (live : s.Live y) (bytes : m.isData = true)
    (there : s.addr y m ≠ 0) : t.block (s.addr y m) = s.block (s.addr y m) := by
  induction grows with
  | refl => rfl
  | attach grows attach ih =>
    have same := grows.addr_kept live there
    rw [← ih, ← same]
    exact attach.content y m ((grows.live y).mpr live) bytes (same ▸ there)

theorem trans {u : State} {more : List Node} (first : Grows x s t places)
    (second : Grows x t u more) : Grows x s u (more ++ places) := by
  induction second with
  | refl => exact first
  | attach _ attach ih => exact .attach ih attach

end Grows

/-- The place `n` holds `a` in `t`, and `t` differs from `s` by the blocks that
had to be attached on the way to it. -/
structure Reaches (s t : State) (x : Ino) (n : Node) (a : Nat) : Prop where
  path : ∃ places, Grows x s t places ∧ places.length ≤ n.depth ∧
    ∀ m ∈ places, m = n ∨ (m.isData = false ∧ m.depth < n.depth)
  there : t.addr x n = a
  nonzero : a ≠ 0
  zero : s.addr x n = 0 → t.block a = .zero
  same : s.addr x n ≠ 0 → t = s

theorem Resolved.reaches (resolved : Resolved s x n (some (a, t))) :
    ∃ places, Grows x s t places ∧ places.length ≤ 1 ∧ (∀ m ∈ places, m = n) ∧
      t.addr x n = a ∧ a ≠ 0 ∧
      (s.addr x n = 0 → t.block a = .zero) ∧ (s.addr x n ≠ 0 → t = s) := by
  cases resolved with
  | present there =>
    exact ⟨[], .refl, by simp, by simp, rfl, there, fun empty => absurd empty there, fun _ => rfl⟩
  | fresh attach =>
    refine ⟨[n], .attach .refl attach, by simp, by simp, ?_, attach.data.ne_zero,
      fun _ => attach.zero, fun there => absurd attach.empty there⟩
    rw [attach.addr x n attach.target, if_pos ⟨rfl, rfl⟩]

theorem Resolved.root {i : Fin (ndirect + 2)} (resolved : Resolved s x (.root i) (some (a, t))) :
    Reaches s t x (.root i) a := by
  obtain ⟨places, grows, short, only, there, nonzero, zero, same⟩ := resolved.reaches
  exact ⟨⟨places, grows, short, fun m member => .inl (only m member)⟩, there, nonzero, zero, same⟩

/-- One level further down. -/
theorem Reaches.entry {u : State} {p : Node} (reaches : Reaches s t x p b) (live : s.Live x)
    (child : n.parent = some p) (resolved : Resolved t x n (some (a, u))) : Reaches s u x n a := by
  obtain ⟨above, grown, few, where_⟩ := reaches.path
  obtain ⟨places, grows, short, only, there, nonzero, zero, same⟩ := resolved.reaches
  have depth := Node.parent_depth child
  have untouched : n ∉ above := by
    intro member
    obtain rfl | ⟨-, lower⟩ := where_ n member <;> omega
  have addr : t.addr x n = s.addr x n := grown.addr_other live (by simp [untouched])
  constructor
  · refine ⟨places ++ above, grown.trans grows,
      by rw [List.length_append]; omega, fun m member => ?_⟩
    obtain below | earlier := List.mem_append.mp member
    · exact .inl (only m below)
    · obtain rfl | ⟨pointer, lower⟩ := where_ m earlier
      · exact .inr ⟨Node.parent_isData child, by omega⟩
      · exact .inr ⟨pointer, by omega⟩
  · exact there
  · exact nonzero
  · exact fun empty => zero (addr ▸ empty)
  · intro present
    have parent : s.addr x p ≠ 0 := by
      intro absent
      rw [addr_child child, absent, follow_zero] at present
      exact present rfl
    rw [same (addr.symm ▸ present), reaches.same parent]

/-- No block is left on the way to a place that was empty. -/
theorem Reaches.full {p : Node} (reaches : Reaches s t x p b) (live : s.Live x)
    (child : n.parent = some p) (spent : t.free = 0) (empty : t.addr x n = 0) :
    s.free < n.depth ∧ s.addr x n = 0 := by
  obtain ⟨above, grown, few, -⟩ := reaches.path
  have depth := Node.parent_depth child
  have free := grown.free
  refine ⟨by omega, ?_⟩
  by_contra there
  rw [grown.addr_kept live there] at empty
  exact there empty

end State
end Aso.Xv6.Fs
