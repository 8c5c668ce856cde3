import Aso.Checked
import Aso.Xv6.Fs.ReadWrite

/-! mkfs.c: the program that writes the file system image the kernel starts
from. Input files are regular, so `read` returns a full buffer until the last
one; the image file covers `FSSIZE` sectors from the first loop on, and a read
past it ends the program. `outOfBounds` is not an exit of the program: it is an
access outside the local array `indirect`, of which C says nothing. -/
namespace Aso.Xv6.Mkfs
open Fs

def ninodes : Nat := 200

/-- Blocks for the bitmap, for the inodes, and before the data. -/
def nbitmap : Nat := fsSize / (bsize * 8) + 1
def ninodeblocks : Nat := ninodes / ipb + 1
def nmeta : Nat := 2 + nlog + ninodeblocks + nbitmap
def nblocks : Nat := fsSize - nmeta

def sb : Superblock where
  size := fsSize
  nblocks := nblocks
  ninodes := ninodes
  nlog := nlog
  logstart := 2
  inodestart := 2 + nlog
  bmapstart := 2 + nlog + ninodeblocks

inductive Stop where
  | assertion
  | exit
  | outOfBounds
  deriving DecidableEq

structure Img where
  disk : Nat → Block
  freeinode : Nat
  freeblock : Nat

/-- The sector at which `lseek` ends: `sec * BSIZE` is an unsigned product. -/
def sectorAt (sec : Nat) : Nat := sec % (2 ^ 32 / bsize)

namespace Img

def wsect (sec : Nat) (buf : Block) (img : Img) : Img :=
  { img with disk := Function.update img.disk (sectorAt sec) buf }

def rsect (sec : Nat) (img : Img) : Except Stop Block :=
  if sectorAt sec < fsSize then .ok (img.disk (sectorAt sec)) else .error .exit

def rinode (inum : Nat) (img : Img) : Except Stop Dinode := do
  let buf ← img.rsect (sb.iblock inum)
  .ok (.decode buf (dinodeSize * (inum % ipb)))

def winode (inum : Nat) (ip : Dinode) (img : Img) : Except Stop Img := do
  let buf ← img.rsect (sb.iblock inum)
  .ok (img.wsect (sb.iblock inum) (buf.write (dinodeSize * (inum % ipb)) ip.encode))

def ialloc (type : Int16) (img : Img) : Except Stop (Nat × Img) := do
  let inum := img.freeinode
  let img ← { img with freeinode := img.freeinode + 1 }.winode inum ⟨type, 0, 0, 1, 0, fun _ => 0⟩
  .ok (inum, img)

/-- The first `used` bits of a bitmap block. -/
def bits (used : Nat) : Block := (List.range used).foldl Bytes.setBit .zero

def balloc (used : Nat) (img : Img) : Except Stop Img :=
  if used < bsize * 8 then .ok (img.wsect sb.bmapstart (bits used)) else .error .assertion

/-- `din.addrs[i]`, a new block if it is zero. -/
def mapAddr (i : Fin (ndirect + 2)) (din : Dinode) (img : Img) : Dinode × Img :=
  if din.addrs i = 0 then
    ({ din with addrs := Function.update din.addrs i img.freeblock },
      { img with freeblock := img.freeblock + 1 })
  else (din, img)

/-- Entry `i` of the indirect block, a new block if it is zero. -/
def mapIndirect (addr i : Nat) (img : Img) : Except Stop (Nat × Img) := do
  let indirect ← img.rsect addr
  if nindirect ≤ i then .error .outOfBounds
  else if indirect.word i = 0 then
    .ok (img.freeblock,
      { img.wsect addr (indirect.setWord i img.freeblock) with freeblock := img.freeblock + 1 })
  else .ok (indirect.word i, img)

/-- The block for the `fbn`th block of the file: `x` of `iappend`. -/
def mapBlock (fbn : Nat) (din : Dinode) (img : Img) : Except Stop (Nat × Dinode × Img) :=
  if direct : fbn < ndirect then
    let (din, img) := img.mapAddr ⟨fbn, Fs.direct_lt direct⟩ din
    .ok (din.addrs ⟨fbn, Fs.direct_lt direct⟩, din, img)
  else do
    let (din, img) := img.mapAddr indirect din
    let (x, img) ← img.mapIndirect (din.addrs indirect) (fbn - ndirect)
    .ok (x, din, img)

/-- The loop of `iappend`; every round takes at least one byte, so `left` rounds are enough. -/
def appendLoop : Nat → Dinode → Nat → List UInt8 → Img → Except Stop (Dinode × Nat × Img)
  | 0, din, off, _, img => .ok (din, off, img)
  | left + 1, din, off, p, img =>
    if p = [] then .ok (din, off, img)
    else
      let fbn := off / bsize
      if maxfile ≤ fbn then .error .assertion
      else do
        let (x, din, img) ← img.mapBlock fbn din
        let n1 := min p.length ((fbn + 1) * bsize - off)
        let buf ← img.rsect x
        appendLoop left din (off + n1) (p.drop n1)
          (img.wsect x (buf.write (off - fbn * bsize) (p.take n1)))

def iappend (inum : Nat) (p : List UInt8) (img : Img) : Except Stop Img := do
  let din ← img.rinode inum
  let (din, off, img) ← appendLoop p.length din din.size p img
  img.winode inum { din with size := off }

/-- `struct dirent`; `strncpy` cuts the name or pads it with zeros. -/
def dirent (inum : Nat) (name : List UInt8) : List UInt8 :=
  toLe 2 inum ++ (name ++ List.replicate dirsiz 0).take dirsiz

/-- The loop that copies a file, a buffer at a time. -/
def copyLoop (inum : Nat) : Nat → List UInt8 → Img → Except Stop Img
  | 0, _, img => .ok img
  | left + 1, content, img =>
    if content = [] then .ok img
    else do
      let img ← img.iappend inum (content.take bsize)
      copyLoop inum left (content.drop bsize) img

end Img

structure File where
  name : List UInt8
  content : List UInt8

def slash : UInt8 := 47
def underscore : UInt8 := 95

/-- The name without its leading `_`. -/
def File.entry (f : File) : List UInt8 :=
  match f.name with
  | c :: rest => if c = underscore then rest else f.name
  | [] => []

namespace Img

/-- One round of the loop over the arguments. -/
def addFile (f : File) (img : Img) : Except Stop Img :=
  if slash ∈ f.name then .error .assertion
  else do
    let (inum, img) ← img.ialloc tFile
    let img ← img.iappend rootino (dirent inum f.entry)
    img.copyLoop inum f.content.length f.content

def addFiles : List File → Img → Except Stop Img
  | [], img => .ok img
  | f :: rest, img => do
    let img ← img.addFile f
    img.addFiles rest

def fixRoot (img : Img) : Except Stop Img := do
  let din ← img.rinode rootino
  img.winode rootino { din with size := (din.size / bsize + 1) * bsize }

end Img

/-- `struct superblock` in memory order. -/
def sbBytes : List UInt8 :=
  [sb.size, sb.nblocks, sb.ninodes, sb.nlog, sb.logstart, sb.inodestart, sb.bmapstart].flatMap
    (toLe 4)

/-- All sectors zero but the superblock. -/
def blank : Img where
  disk := Function.update (fun _ => .zero) 1 (Bytes.write .zero 0 sbBytes)
  freeinode := 1
  freeblock := nmeta

def dot : List UInt8 := [46]

/-- The root directory with its two entries. -/
def makeRoot : Except Stop Img := do
  let (root, img) ← blank.ialloc tDir
  if root ≠ rootino then .error .assertion
  else do
    let img ← img.iappend root (Img.dirent root dot)
    img.iappend root (Img.dirent root (dot ++ dot))

def mkfs (files : List File) : Except Stop Img := do
  let img ← makeRoot
  let img ← img.addFiles files
  let img ← img.fixRoot
  img.balloc img.freeblock

end Aso.Xv6.Mkfs
