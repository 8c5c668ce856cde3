import Aso.Xv6.Fs.Consistent

/-! `readi` on a consistent file system: a file without holes is read without any change. -/
namespace Aso.Xv6.Fs
namespace State
variable {s : State} {ip : Slot} {x y : Ino} {bn off : Nat}

/-- A mapped block is found where it is. -/
theorem bmap_mapped (sound : Sound s) (live : s.Live (.core ip)) (bound : bn < maxfile)
    (there : s.lookup (.core ip) bn ≠ 0) : s.bmap ip bn = some (s.lookup (.core ip) bn, s) := by
  obtain ⟨a, t, found, reaches⟩ | ⟨-, -, unmapped⟩ :=
    bmap_finds sound.owned sound.reserved live bound
  · obtain rfl := reaches.same there
    rw [found, ← reaches.there]
    rfl
  · exact absurd unmapped there

theorem byteAt_range {m : Nat} (there : s.lookup x (off / bsize) ≠ 0) :
    (s.block (s.lookup x (off / bsize))).read (off % bsize) (round off m) =
      (List.range (round off m)).map fun i => s.byteAt x (off + i) := by
  apply List.map_congr_left
  intro i member
  obtain ⟨quotient, rest⟩ := div_add_round (List.mem_range.mp member)
  rw [byteAt, quotient, rest, if_neg there]

/-- The loop of `readi` over mapped blocks. -/
theorem readLoop_mapped {left : Nat} (sound : Sound s) (live : s.Live (.core ip)) {m : Nat}
    (rounds : m ≤ left) (mapped : ∀ bn ∈ touched off m, bn < maxfile ∧ s.lookup (.core ip) bn ≠ 0) :
    s.readLoop ip left off m =
      some ((List.range m).map fun i => s.byteAt (.core ip) (off + i), s) := by
  induction left generalizing off m with
  | zero =>
    obtain rfl : m = 0 := by omega
    rfl
  | succ left ih =>
    unfold readLoop
    split
    · next nothing =>
      subst m
      rfl
    · next something =>
      have some : 0 < m := Nat.pos_of_ne_zero something
      have steps := touched_step off some
      have positive := round_pos off some
      have shorter : m = round off m + (m - round off m) := by
        have : round off m ≤ m := Nat.min_le_left _ _
        omega
      obtain ⟨bound, there⟩ := mapped (off / bsize) (steps ▸ Finset.mem_insert_self _ _)
      have rest := @ih (off + round off m) (m - round off m) (by omega) fun bn member =>
        mapped bn (steps ▸ Finset.mem_insert_of_mem member)
      have cut : min m (bsize - off % bsize) = round off m := rfl
      simp only [cut, Option.bind_eq_bind, bmap_mapped sound live bound there, Option.bind_some,
        rest, byteAt_range there]
      conv_rhs => rw [shorter, range_map_add]
      simp only [Nat.add_assoc]

/-- The blocks that a range within a file without holes touches. -/
theorem Filled.touched {m : Nat} (filled : s.Filled x) (inside : off + m ≤ (s.inode x).size) :
    ∀ bn ∈ touched off m, bn < maxfile ∧ s.lookup x bn ≠ 0 := by
  intro bn member
  obtain ⟨i, small, rfl⟩ := mem_touched.mp member
  refine filled _ ?_
  have := Nat.div_mul_le_self (off + i) bsize
  omega

/-- A read of a file without holes returns its bytes and changes nothing. -/
theorem readi_filled {m : Nat} (sound : Sound s) (live : s.Live (.core ip))
    (file : (s.icache ip).type ≠ tDev) (filled : s.Filled (.core ip))
    (inside : off ≤ (s.icache ip).size) (straight : off ≤ (off + m) % 2 ^ 32) :
    s.readi ip off m = some (int32 (s.readLen ip off m),
      (List.range (s.readLen ip off m)).map fun i => s.byteAt (.core ip) (off + i), s) := by
  have within : off + s.readLen ip off m ≤ (s.inode (.core ip)).size := by
    have : (s.inode (.core ip)).size = (s.icache ip).size := rfl
    unfold readLen
    omega
  rw [readi_eq file inside straight, readLoop_mapped sound live le_rfl (filled.touched within)]
  rfl

theorem Filled.size_le (filled : s.Filled x) : (s.inode x).size ≤ maxfile * bsize := by
  by_contra large
  have := (filled maxfile (by omega)).1
  omega

theorem DiskOk.filled_live (disk : DiskOk s) (cache : CacheOk s) (live : s.Live y)
    (file : (s.inode y).type ≠ tDev) : s.Filled y := by
  have same := cache.inode_eq live
  rw [filled_of_inode same]
  rw [same] at file
  exact disk.filled _ (cache.allocated live) file

end State
end Aso.Xv6.Fs
