import Aso.Xv6.Fs.Icache
import Aso.Xv6.Fs.Itrunc

/-! The free map bit by bit: what `balloc` changes on disk, and that `bfree` changes it back. -/
namespace Aso.Xv6.Fs
namespace State
variable {s : State} {b : Nat}

/-- The superblock in memory is the one on disk, ahead of the bitmap; block numbers fit an `int`,
and the blocks before the data area are marked, as mkfs leaves them. -/
structure Mounted (s : State) : Prop extends SuperblockRead s where
  fits : s.sb.size < 2 ^ 31
  reserved : Reserved s

/-- The three kinds of blocks after `balloc`: the new one, its bitmap block and the others. -/
theorem take_blocks (apart : s.sb.bblock b ≠ b) :
    (s.take b).block b = .zero ∧
    (∀ i, ((s.take b).block (s.sb.bblock b)).bit i =
      ((s.block (s.sb.bblock b)).bit i || decide (b % bpb = i))) ∧
    ∀ c, c ≠ b → c ≠ s.sb.bblock b → (s.take b).block c = s.block c := by
  refine ⟨take_block_same, fun i => ?_, fun c other bitmap => take_block_other other bitmap⟩
  have block : (s.take b).block (s.sb.bblock b) = (s.block (s.sb.bblock b)).setBit (b % bpb) := by
    simp [take, bzero, logWrite, apart]
  have inside : b % bpb < 8 * bsize := Nat.mod_lt b (by decide)
  rw [block, Bytes.bit_setBit _ inside]

/-- `bfree` takes back the bit that `balloc` has set. -/
theorem bfree_take (mounted : Mounted s) (apart : s.sb.bblock b ≠ b) (super : superblockNo ≠ b)
    (clear : s.used b = false) :
    ∃ u, (s.take b).bfree [] b = some u ∧
      ∀ c, c ≠ b → ∀ i, (u.block c).bit i = (s.block c).bit i := by
  obtain ⟨-, bits, others⟩ := take_blocks apart
  have read : SuperblockRead (s.take b) := by
    have bitmap : superblockNo ≠ s.sb.bblock b := (mounted.ahead.trans_le (Nat.le_add_left _ _)).ne
    exact ⟨by rw [others _ super bitmap, mounted.loaded, take_sb], mounted.ahead⟩
  have set : (s.take b).used b = true := by
    rw [used, take_sb, bits, decide_eq_true rfl, Bool.or_true]
  refine ⟨_, by rw [bfree_eq read, if_neg (by simp), if_pos set], fun c other i => ?_⟩
  rw [take_sb]
  obtain rfl | elsewhere := eq_or_ne c (s.sb.bblock b)
  · rw [logWrite_block_same, Bytes.bit_clearBit, bits]
    obtain rfl | same := eq_or_ne (b % bpb) i
    · rw [decide_eq_false (not_not.mpr rfl), Bool.and_false]
      exact clear.symm
    · rw [decide_eq_false same, decide_eq_true same, Bool.or_false, Bool.and_true]
  · rw [logWrite_block_other _ _ elsewhere]
    exact congrArg (Bytes.bit · i) (others c other elsewhere)

/-- `balloc` takes the lowest block whose bit is clear, sets that bit,
zeroes that block and changes nothing else; it panics exactly when no bit is
clear, and `bfree` of the block restores every bit. -/
theorem balloc_takes_lowest (mounted : Mounted s) :
    (s.balloc = none ↔ ∀ b < s.sb.size, s.used b = true) ∧
    ∀ b t, s.balloc = some (b, t) →
      b < s.sb.size ∧ s.used b = false ∧ (∀ c < b, s.used c = true) ∧ t.block b = .zero ∧
      (∀ i, (t.block (s.sb.bblock b)).bit i =
        ((s.block (s.sb.bblock b)).bit i || decide (b % bpb = i))) ∧
      (∀ c, c ≠ b → c ≠ s.sb.bblock b → t.block c = s.block c) ∧
      ∃ u, t.bfree [] b = some u ∧ ∀ c, c ≠ b → ∀ i, (u.block c).bit i = (s.block c).bit i := by
  obtain ⟨b, bound, clear, lower, result⟩ | ⟨panics, full⟩ := balloc_spec s
  · refine ⟨?_, fun b' t done => ?_⟩
    · rw [result]
      refine iff_of_false nofun fun full => ?_
      rw [full b bound] at clear
      cases clear
    · cases result.symm.trans done
      -- the block is behind the bitmap, and so behind the superblock
      have data : s.sb.dataStart ≤ b := by
        by_contra low
        rw [mounted.reserved b bound (not_le.mp low)] at clear
        cases clear
      have apart : s.sb.bblock b < b := (Superblock.bblock_lt_dataStart bound).trans_le data
      have super : superblockNo < b := mounted.ahead.trans_le ((Nat.le_add_left _ _).trans apart.le)
      obtain ⟨zero, bits, others⟩ := take_blocks apart.ne
      exact ⟨bound, clear, lower, zero, bits, others, bfree_take mounted apart.ne super.ne clear⟩
  · refine ⟨iff_of_true panics full, fun b t done => ?_⟩
    rw [panics] at done
    cases done

/-- `smallFs` with its superblock on disk. -/
def mountedFs (bitmap : UInt8) : State :=
  { smallFs bitmap with
    block := Function.update (smallFs bitmap).block superblockNo
      (Bytes.write .zero 0 ([16, 11, 8, 0, 2, 2, 4].flatMap (toLe 4))) }

theorem balloc_takes_block_five : (mountedFs 0x1f).balloc.map Prod.fst = some 5 ∧
    ∃ t u, (mountedFs 0x1f).balloc = some (5, t) ∧ t.bfree [] 5 = some u ∧
      ∀ c, c ≠ 5 → ∀ i, (u.block c).bit i = ((mountedFs 0x1f).block c).bit i := by
  have five : (mountedFs 0x1f).balloc.map Prod.fst = some 5 := by decide
  have mounted : Mounted (mountedFs 0x1f) := by
    refine ⟨⟨by decide, by decide⟩, by decide, ?_⟩
    unfold Reserved
    decide
  obtain ⟨⟨b, t⟩, done, rfl⟩ := Option.map_eq_some_iff.mp five
  obtain ⟨-, -, -, -, -, -, u, freed, restored⟩ := (balloc_takes_lowest mounted).2 5 t done
  exact ⟨five, t, u, done, freed, restored⟩

/-- With the bit of the bitmap block clear, `balloc` sets it and then zeroes it with all others. -/
theorem balloc_takes_bitmap : (mountedFs 0x0f).used 0 = true ∧
    (mountedFs 0x0f).balloc.map (fun r => (r.1, r.2.used 0, r.2.used 4)) =
      some (4, false, false) := by
  decide

end State
end Aso.Xv6.Fs
