import Aso.Xv6.Fs.Inode
import Mathlib.Data.Finset.Card

/-! The block allocator. `balloc` takes the first block whose bit is clear,
whatever the block is for: it stays off the blocks before the data area only as
long as their bits are set, as mkfs leaves them. -/
namespace Aso.Xv6.Fs

namespace Superblock

/-- First block after the bitmap. -/
def dataStart (sb : Superblock) : Nat := sb.bmapstart + sb.size / bpb + 1

/-- The inode blocks end before the bitmap and block numbers fit an `int`, as in
every file system that mkfs lays out. -/
structure Wf (sb : Superblock) : Prop where
  inodes : sb.inodestart + sb.ninodes / ipb + 1 ≤ sb.bmapstart
  fits : sb.size < 2 ^ 31

def IsData (sb : Superblock) (b : Nat) : Prop := sb.dataStart ≤ b ∧ b < sb.size

theorem IsData.ne_zero {sb : Superblock} {b : Nat} (data : sb.IsData b) : b ≠ 0 :=
  Nat.ne_of_gt (Nat.lt_of_lt_of_le (Nat.succ_pos _) data.1)

theorem bblock_lt_dataStart {sb : Superblock} {b : Nat} (bound : b < sb.size) :
    sb.bblock b < sb.dataStart := by
  have : b / bpb ≤ sb.size / bpb := Nat.div_le_div_right (by omega)
  unfold bblock dataStart
  omega

theorem iblock_lt_bmapstart {sb : Superblock} (wf : sb.Wf) {i : Nat} (bound : i < sb.ninodes) :
    sb.iblock i < sb.bmapstart := by
  have : i / ipb ≤ sb.ninodes / ipb := Nat.div_le_div_right (by omega)
  have := wf.inodes
  unfold iblock
  omega

end Superblock

namespace State
variable {s : State} {b c : Nat}

/-- The bit of block `b` in the bitmap. -/
def used (s : State) (b : Nat) : Bool := (s.block (s.sb.bblock b)).bit (b % bpb)

/-- Mark block `b` in use and zero it. -/
def take (s : State) (b : Nat) : State :=
  let bp := s.sb.bblock b
  (s.logWrite bp ((s.block bp).setBit (b % bpb))).bzero b

theorem clearBit_some {data : Block} {left bi found : Nat}
    (result : s.clearBit data b left bi = some found) :
    bi ≤ found ∧ found < bi + left ∧ b + found < s.sb.size ∧ data.bit found = false ∧
      ∀ i, bi ≤ i → i < found → data.bit i = true := by
  induction left generalizing bi with
  | zero => cases result
  | succ left ih =>
    unfold clearBit at result
    split at result
    · split at result
      · rename_i inside taken
        obtain ⟨lower, upper, bound, clear, before⟩ := ih result
        refine ⟨by omega, by omega, bound, clear, fun i low high => ?_⟩
        obtain rfl | later := Nat.eq_or_lt_of_le low
        · exact taken
        · exact before i later high
      · rename_i inside clear
        cases result
        exact ⟨le_rfl, by omega, inside, by simpa using clear, fun i low high => by omega⟩
    · cases result

theorem clearBit_none {data : Block} {left bi : Nat} (result : s.clearBit data b left bi = none) :
    ∀ i, bi ≤ i → i < bi + left → b + i < s.sb.size → data.bit i = true := by
  induction left generalizing bi with
  | zero => intro i low high; omega
  | succ left ih =>
    intro i low high bound
    unfold clearBit at result
    rw [if_pos (by omega)] at result
    split at result
    · rename_i taken
      obtain rfl | later := Nat.eq_or_lt_of_le low
      · exact taken
      · exact ih result i later (by omega) bound
    · cases result

theorem div_mod_bpb {q i : Nat} (small : i < bpb) :
    (q * bpb + i) / bpb = q ∧ (q * bpb + i) % bpb = i ∧ q * bpb / bpb = q := by
  have positive : 0 < bpb := by decide
  refine ⟨?_, ?_, Nat.mul_div_cancel q positive⟩
  · rw [Nat.add_comm, Nat.add_mul_div_right _ _ positive, Nat.div_eq_of_lt small, Nat.zero_add]
  · rw [Nat.add_comm, Nat.add_mul_mod_self_right, Nat.mod_eq_of_lt small]

theorem used_add {q i : Nat} (small : i < bpb) :
    s.used (q * bpb + i) = (s.block (s.sb.bblock (q * bpb))).bit i := by
  simp only [used, Superblock.bblock, div_mod_bpb small]

theorem take_add {q i : Nat} (small : i < bpb) :
    s.take (q * bpb + i) =
      (s.logWrite (s.sb.bblock (q * bpb)) ((s.block (s.sb.bblock (q * bpb))).setBit i)).bzero
      (q * bpb + i) := by
  simp only [take, Superblock.bblock, div_mod_bpb small]

/-- The outer loop from bitmap block `q` on, with rounds enough to reach the end. -/
theorem ballocFrom_spec {left q : Nat} (rounds : s.sb.size ≤ (q + left) * bpb)
    (before : ∀ c < s.sb.size, c < q * bpb → s.used c = true) :
    (∃ b < s.sb.size, s.used b = false ∧ (∀ c < b, s.used c = true) ∧
      s.ballocFrom left (q * bpb) = some (b, s.take b)) ∨
    (s.ballocFrom left (q * bpb) = none ∧ ∀ b < s.sb.size, s.used b = true) := by
  induction left generalizing q with
  | zero => exact .inr ⟨rfl, fun b bound => before b bound (by rw [Nat.add_zero] at rounds; omega)⟩
  | succ left ih =>
    unfold ballocFrom
    split
    · dsimp only
      split
      · rename_i bi found
        obtain ⟨-, small, bound, clear, earlier⟩ := clearBit_some found
        rw [Nat.zero_add] at small
        refine .inl ⟨q * bpb + bi, bound, by rw [used_add small, clear], fun c lower => ?_,
          by rw [take_add small]⟩
        obtain low | high := Nat.lt_or_ge c (q * bpb)
        · exact before c (by omega) low
        · obtain ⟨i, rfl⟩ := Nat.exists_eq_add_of_le high
          rw [used_add (by omega)]
          exact earlier i (Nat.zero_le i) (by omega)
      · rename_i found
        have next : q * bpb + bpb = (q + 1) * bpb := (Nat.succ_mul q bpb).symm
        rw [next]
        apply ih
        · rwa [Nat.add_right_comm, Nat.add_assoc]
        · intro c bound lower
          obtain low | high := Nat.lt_or_ge c (q * bpb)
          · exact before c bound low
          · obtain ⟨i, rfl⟩ := Nat.exists_eq_add_of_le high
            have small : i < bpb := by omega
            rw [used_add small]
            exact clearBit_none found i (Nat.zero_le i) (by omega) bound
    · rename_i past
      exact .inr ⟨rfl, fun b bound => before b bound (by omega)⟩

/-- `balloc` takes the lowest free block, and panics only when there is none. -/
theorem balloc_spec (s : State) :
    (∃ b < s.sb.size, s.used b = false ∧ (∀ c < b, s.used c = true) ∧
      s.balloc = some (b, s.take b)) ∨
    (s.balloc = none ∧ ∀ b < s.sb.size, s.used b = true) := by
  have rounds : s.sb.size ≤ (0 + (s.sb.size / bpb + 1)) * bpb := by
    have := Nat.lt_mul_div_succ s.sb.size (show 0 < bpb by decide)
    rw [Nat.zero_add, Nat.mul_comm]
    omega
  simpa only [balloc, Nat.zero_mul] using
    ballocFrom_spec rounds (by simp only [Nat.zero_mul, Nat.not_lt_zero]; simp)

@[simp] theorem take_sb : (s.take b).sb = s.sb := rfl

@[simp] theorem take_devsw : (s.take b).devsw = s.devsw := rfl

@[simp] theorem take_icache : (s.take b).icache = s.icache := rfl

@[simp] theorem take_block_same : (s.take b).block b = .zero := by
  simp [take, bzero, logWrite]

theorem take_block_other (other : c ≠ b) (bitmap : c ≠ s.sb.bblock b) :
    (s.take b).block c = s.block c := by
  simp [take, bzero, logWrite, other, bitmap]

theorem used_take (data : s.sb.IsData b) (bound : c < s.sb.size) :
    (s.take b).used c = (s.used c || decide (b = c)) := by
  have apart (d : Nat) (bound : d < s.sb.size) : s.sb.bblock d ≠ b :=
    Nat.ne_of_lt (Nat.lt_of_lt_of_le (Superblock.bblock_lt_dataStart bound) data.1)
  have bits : 8 * bsize = bpb := by decide
  have inside : b % bpb < 8 * bsize := bits ▸ Nat.mod_lt b (by decide)
  obtain same | other := eq_or_ne (s.sb.bblock c) (s.sb.bblock b)
  · have block : (s.take b).block (s.sb.bblock c) = (s.block (s.sb.bblock b)).setBit (b % bpb) := by
      simp [take, bzero, logWrite, same, apart b data.2]
    have quotient : c / bpb = b / bpb := by simpa [Superblock.bblock] using same
    have index : b % bpb = c % bpb ↔ b = c := by
      constructor
      · intro rest
        rw [← Nat.div_add_mod b bpb, ← Nat.div_add_mod c bpb, quotient, rest]
      · exact fun eq => by rw [eq]
    rw [used, used, take_sb, block, Bytes.bit_setBit _ inside, same]
    simp only [index]
  · have different : b ≠ c := fun eq => other (by rw [eq])
    have block := take_block_other (apart c bound) other
    simp [used, block, different]

theorem used_logWrite {data : Block} (outside : s.sb.dataStart ≤ b) (bound : c < s.sb.size) :
    (s.logWrite b data).used c = s.used c := by
  have apart : s.sb.bblock c ≠ b :=
    Nat.ne_of_lt (Nat.lt_of_lt_of_le (Superblock.bblock_lt_dataStart bound) outside)
  rw [used, used, logWrite_sb, logWrite_block_other s data apart]

/-- Number of blocks that `balloc` can still hand out. -/
def free (s : State) : Nat := ((Finset.range s.sb.size).filter (s.used · = false)).card

theorem free_take (data : s.sb.IsData b) (clear : s.used b = false) :
    (s.take b).free + 1 = s.free := by
  have same : (Finset.range s.sb.size).filter ((s.take b).used · = false) =
      ((Finset.range s.sb.size).filter (s.used · = false)).erase b := by
    ext c
    simp only [Finset.mem_filter, Finset.mem_erase, Finset.mem_range]
    constructor
    · rintro ⟨bound, unused⟩
      rw [used_take data bound] at unused
      simp only [Bool.or_eq_false_iff, decide_eq_false_iff_not] at unused
      exact ⟨fun eq => unused.2 eq.symm, bound, unused.1⟩
    · rintro ⟨other, bound, unused⟩
      exact ⟨bound, by simp [used_take data bound, unused, other.symm]⟩
  have member : b ∈ (Finset.range s.sb.size).filter (s.used · = false) := by
    simp [data.2, clear]
  rw [free, free, take_sb, same]
  exact Finset.card_erase_add_one member

theorem free_pos_iff : 0 < s.free ↔ ∃ b < s.sb.size, s.used b = false := by
  simp [free, Finset.card_pos, Finset.Nonempty]

end State
end Aso.Xv6.Fs
