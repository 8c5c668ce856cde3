import Aso.Bitmap
import Aso.Xv6.Param
import Mathlib.Data.Fin.Basic

/-! Blocks and inodes of fs.c. The buffer cache is a single-copy store of blocks,
the inode cache holds the in-memory inodes, and `logged` records the block
numbers passed to `log_write`. A panic is `none`. There is one device. -/
namespace Aso.Xv6.Fs

abbrev Block := Bytes bsize
abbrev Slot := Fin ninode

instance : NeZero ninode := ⟨by decide⟩

/-- The direct entries of `addrs`, and the two behind them. -/
theorem direct_lt {bn : Nat} (direct : bn < ndirect) : bn < ndirect + 2 := by omega
theorem indirect_lt : ndirect < ndirect + 2 := by decide
theorem double_lt : ndirect + 1 < ndirect + 2 := by decide

structure Superblock where
  size : Nat
  nblocks : Nat
  ninodes : Nat
  nlog : Nat
  logstart : Nat
  inodestart : Nat
  bmapstart : Nat
  deriving DecidableEq

/-- Size of `struct dinode`, inodes per block and bitmap bits per block. -/
def dinodeSize : Nat := 64
def ipb : Nat := bsize / dinodeSize
def bpb : Nat := bsize * 8

namespace Superblock

def iblock (sb : Superblock) (i : Nat) : Nat := i / ipb + sb.inodestart
def bblock (sb : Superblock) (b : Nat) : Nat := b / bpb + sb.bmapstart

end Superblock

/-- The block that `readsb` reads. -/
def superblockNo : Nat := 1

/-- `struct superblock` at the start of that block. -/
def readsb (b : Block) : Superblock where
  size := b.word 0
  nblocks := b.word 1
  ninodes := b.word 2
  nlog := b.word 3
  logstart := b.word 4
  inodestart := b.word 5
  bmapstart := b.word 6

def tDir : Int16 := 1
def tFile : Int16 := 2
def tDev : Int16 := 3

structure Dinode where
  type : Int16
  major : Int16
  minor : Int16
  nlink : Int16
  size : Nat
  addrs : Fin (ndirect + 2) → Nat

/-- An inode of the cache: its copy of the on-disk fields is current when `valid`. -/
structure Inode extends Dinode where
  inum : Nat
  ref : Nat
  valid : Bool

def short (i : Int16) : List UInt8 := toLe 2 i.toUInt16.toNat
def toShort (bytes : List UInt8) : Int16 := (UInt16.ofNat (leNat bytes)).toInt16

namespace Dinode

/-- `struct dinode` in memory order. -/
def encode (d : Dinode) : List UInt8 :=
  short d.type ++ short d.major ++ short d.minor ++ short d.nlink ++ toLe 4 d.size ++
    (List.finRange (ndirect + 2)).flatMap fun i => toLe 4 (d.addrs i)

/-- The dinode at byte `off` of an inode block. -/
def decode (b : Block) (off : Nat) : Dinode where
  type := toShort (b.read off 2)
  major := toShort (b.read (off + 2) 2)
  minor := toShort (b.read (off + 4) 2)
  nlink := toShort (b.read (off + 6) 2)
  size := leNat (b.read (off + 8) 4)
  addrs i := leNat (b.read (off + 12 + 4 * i.val) 4)

end Dinode

/-- An entry of `devsw`: `read` takes the number of bytes asked for, `write` the bytes. -/
structure Devsw where
  read : Option (Nat → Int × List UInt8)
  write : Option (List UInt8 → Int)

structure State where
  sb : Superblock
  block : Nat → Block
  icache : Slot → Inode
  devsw : Nat → Devsw
  /-- Latest first. -/
  logged : List Nat

namespace State

/-- Change the buffer of block `b` and `log_write` it. -/
def logWrite (s : State) (b : Nat) (data : Block) : State :=
  { s with block := Function.update s.block b data, logged := b :: s.logged }

@[simp] theorem logWrite_sb (s : State) (b : Nat) (data : Block) :
    (s.logWrite b data).sb = s.sb := rfl

@[simp] theorem logWrite_icache (s : State) (b : Nat) (data : Block) :
    (s.logWrite b data).icache = s.icache := rfl

@[simp] theorem logWrite_devsw (s : State) (b : Nat) (data : Block) :
    (s.logWrite b data).devsw = s.devsw := rfl

@[simp] theorem logWrite_block_same (s : State) (b : Nat) (data : Block) :
    (s.logWrite b data).block b = data := by
  simp [logWrite]

theorem logWrite_block_other (s : State) {b c : Nat} (data : Block) (other : c ≠ b) :
    (s.logWrite b data).block c = s.block c := by
  simp [logWrite, other]

def bzero (s : State) (b : Nat) : State := s.logWrite b .zero

/-- The inner loop of `balloc` over one bitmap block, from bit `bi` on: a clear
bit of a block below the size of the file system. -/
def clearBit (s : State) (data : Block) (b : Nat) : Nat → Nat → Option Nat
  | 0, _ => none
  | left + 1, bi =>
    if b + bi < s.sb.size then
      if data.bit bi then s.clearBit data b left (bi + 1) else some bi
    else none

/-- The outer loop of `balloc`, from the bitmap block of block `b` on. -/
def ballocFrom (s : State) : Nat → Nat → Option (Nat × State)
  | 0, _ => none
  | left + 1, b =>
    if b < s.sb.size then
      let bp := s.sb.bblock b
      match s.clearBit (s.block bp) b bpb 0 with
      | some bi => some (b + bi, (s.logWrite bp ((s.block bp).setBit bi)).bzero (b + bi))
      | none => s.ballocFrom left (b + bpb)
    else none

def balloc (s : State) : Option (Nat × State) := s.ballocFrom (s.sb.size / bpb + 1) 0

def setInode (s : State) (ip : Slot) (i : Inode) : State :=
  { s with icache := Function.update s.icache ip i }

def setAddr (s : State) (ip : Slot) (i : Fin (ndirect + 2)) (addr : Nat) : State :=
  s.setInode ip { s.icache ip with addrs := Function.update (s.icache ip).addrs i addr }

/-- The block number in `ip->addrs[i]`, allocating if it is zero. -/
def mapRoot (s : State) (ip : Slot) (i : Fin (ndirect + 2)) : Option (Nat × State) :=
  if (s.icache ip).addrs i = 0 then
    match s.balloc with
    | none => none
    | some (addr, s) => some (addr, s.setAddr ip i addr)
  else some ((s.icache ip).addrs i, s)

/-- The block number in word `i` of block `b`, allocating if it is zero. -/
def mapEntry (s : State) (b i : Nat) : Option (Nat × State) :=
  if (s.block b).word i = 0 then
    match s.balloc with
    | none => none
    | some (addr, s) => some (addr, s.logWrite b ((s.block b).setWord i addr))
  else some ((s.block b).word i, s)

def bmap (s : State) (ip : Slot) (bn : Nat) : Option (Nat × State) :=
  if direct : bn < ndirect then s.mapRoot ip ⟨bn, direct_lt direct⟩
  else
    let bn := bn - ndirect
    if bn < nindirect then do
      let (addr, s) ← s.mapRoot ip ⟨ndirect, indirect_lt⟩
      s.mapEntry addr bn
    else
      let bn := bn - nindirect
      if bn < nbde then do
        let (addr, s) ← s.mapRoot ip ⟨ndirect + 1, double_lt⟩
        let (addr, s) ← s.mapEntry addr (bn / nindirect)
        s.mapEntry addr (bn % nindirect)
      else none

def iupdate (s : State) (ip : Slot) : State :=
  let i := s.icache ip
  let bp := s.sb.iblock i.inum
  s.logWrite bp ((s.block bp).write (dinodeSize * (i.inum % ipb)) i.toDinode.encode)

/-- The loop of `readi`; every round takes at least one byte, so `n` rounds are enough. -/
def readLoop (s : State) (ip : Slot) : Nat → Nat → Nat → Option (List UInt8 × State)
  | 0, _, _ => some ([], s)
  | left + 1, off, n =>
    if n = 0 then some ([], s)
    else do
      let (b, s) ← s.bmap ip (off / bsize)
      let m := min n (bsize - off % bsize)
      let (rest, t) ← s.readLoop ip left (off + m) (n - m)
      some ((s.block b).read (off % bsize) m ++ rest, t)

/-- Returns the result of the call and the bytes stored at `dst`. -/
def readi (s : State) (ip : Slot) (off n : Nat) : Option (Int × List UInt8 × State) :=
  let i := s.icache ip
  if i.type = tDev then
    if i.major < 0 ∨ i.major.toInt ≥ ndev then some (-1, [], s)
    else match (s.devsw i.major.toInt.toNat).read with
      | none => some (-1, [], s)
      | some read => some ((read n).1, (read n).2, s)
  else if off > i.size ∨ (off + n) % 2 ^ 32 < off then some (-1, [], s)
  else
    let n := if off + n > i.size then i.size - off else n
    (s.readLoop ip n off n).map fun (bytes, s) => (int32 n, bytes, s)

/-- The loop of `writei`; every round takes at least one byte of `src`. -/
def writeLoop (s : State) (ip : Slot) : Nat → Nat → List UInt8 → Option State
  | 0, _, _ => some s
  | left + 1, off, src =>
    if src = [] then some s
    else do
      let (b, s) ← s.bmap ip (off / bsize)
      let m := min src.length (bsize - off % bsize)
      (s.logWrite b ((s.block b).write (off % bsize) (src.take m))).writeLoop ip left (off + m)
        (src.drop m)

/-- `writei(ip, src, off, n)` with `n` the length of `src`. -/
def writei (s : State) (ip : Slot) (src : List UInt8) (off : Nat) : Option (Int × State) :=
  let i := s.icache ip
  let n := src.length
  if i.type = tDev then
    if i.major < 0 ∨ i.major.toInt ≥ ndev then some (-1, s)
    else match (s.devsw i.major.toInt.toNat).write with
      | none => some (-1, s)
      | some write => some (write src, s)
  else if off > i.size ∨ (off + n) % 2 ^ 32 < off then some (-1, s)
  else if off + n > maxfile * bsize then some (-1, s)
  else do
    let s ← s.writeLoop ip n off src
    let i := s.icache ip
    if n > 0 ∧ off + n > i.size then
      some (int32 n, (s.setInode ip { i with size := off + n }).iupdate ip)
    else some (int32 n, s)

end State
end Aso.Xv6.Fs
