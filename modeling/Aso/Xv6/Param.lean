import Mathlib.Algebra.GroupWithZero.Nat
import Mathlib.Algebra.Group.Int.Defs

/-! Compile-time constants of param.h, fs.h, mmu.h, memlayout.h, traps.h and mkfs.c, with the
source's values. Bounds that the C code computes from one another stay
computed here. -/
namespace Aso.Xv6

def nproc : Nat := 64

instance : NeZero nproc := ⟨by decide⟩

def ncpu : Nat := 8

instance : NeZero ncpu := ⟨by decide⟩

def nofile : Nat := 16
def nfile : Nat := 100
def ninode : Nat := 50
def maxArg : Nat := 32
def maxOpBlocks : Nat := 10
def logSize : Nat := maxOpBlocks * 3
def nbuf : Nat := maxOpBlocks * 3
def fsSize : Nat := 20000

def ndev : Nat := 10

def bsize : Nat := 512
def ndirect : Nat := 11
def nindirect : Nat := bsize / 4
def nbde : Nat := nindirect * nindirect
def maxfile : Nat := ndirect + nindirect + nbde
def rootino : Nat := 1
def dirsiz : Nat := 14

/-- `nlog` of mkfs.c: the header block is one of the log's blocks. -/
def nlog : Nat := logSize

def tPgflt : Nat := 14

/-- A 32-bit word read as a C `int`. -/
def int32 (w : Nat) : Int := if w < 2 ^ 31 then w else w - 2 ^ 32

end Aso.Xv6
