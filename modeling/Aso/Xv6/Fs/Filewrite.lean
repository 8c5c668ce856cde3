import Aso.Xv6.Fs.ReadWrite

/-! The transactions of `filewrite`. A call is cut into pieces so that one `writei` should
stay within the `maxOpBlocks` blocks that `begin_op` reserves; the size of a piece was
chosen for one bitmap block and one indirect block. -/
namespace Aso.Xv6.Fs

/-- The `max` of `filewrite`. -/
def chunk : Nat := (maxOpBlocks - 1 - 1 - 2) / 2 * 512

example : chunk = 1536 := rfl

namespace State
variable {s t : State} {ip : Slot} {x : Ino} {off : Nat} {src : List UInt8}

/-- The round of `filewrite` with the bytes `src` left to write: the `writei` between
`begin_op` and `end_op`, with nothing logged before. -/
def transaction (s : State) (ip : Slot) (src : List UInt8) (off : Nat) : Option (Int × State) :=
  ({ s with logged := [] }).writei ip (src.take chunk) off

/-- `writei` goes on to its loop. -/
def Accepts (s : State) (ip : Slot) (off n : Nat) : Prop :=
  (s.icache ip).type ≠ tDev ∧ off ≤ (s.icache ip).size ∧ off ≤ (off + n) % 2 ^ 32 ∧
    off + n ≤ maxfile * bsize

instance (s : State) (ip : Slot) (off n : Nat) : Decidable (s.Accepts ip off n) := by
  unfold Accepts
  infer_instance

/-- What a write of `n` bytes at `off` needs in the log: the blocks it stores bytes in, the
index blocks it adds or stores numbers in, the bitmap blocks of the lowest free blocks, as
many as are absent, and the inode block if the file becomes longer. -/
def demand (s : State) (ip : Slot) (off n : Nat) : Nat :=
  (noted (s.absent (.core ip) off n) (places off n)).card +
    ((s.freeBlocks.take (s.absent (.core ip) off n).card).map s.sb.bblock).toFinset.card +
    if (s.icache ip).size < off + n then 1 else 0

theorem Sound.unlogged (sound : Sound s) : Sound { s with logged := [] } :=
  sound.of_same rfl (fun _ => Iff.rfl) (fun _ _ _ => rfl) fun _ _ => rfl

/-- Distinct places hold distinct blocks. -/
theorem card_image_addr (owned : Owned s) (live : s.Live x) {places : Finset Node}
    (there : ∀ m ∈ places, s.addr x m ≠ 0) : (places.image (s.addr x)).card = places.card := by
  apply Finset.card_image_of_injOn
  intro m first k second same
  exact (owned.once x x m k live live (there m first) same).2

/-- The log after the loop of a write that started with an empty log. -/
theorem logged_loop {new wrote : Finset Node} (ledger : Ledger s t x new wrote)
    (none : s.logged = []) : t.logged.toFinset =
      (noted new wrote).image (t.addr x) ∪
      ((s.freeBlocks.take new.card).map s.sb.bblock).toFinset := by
  ext b
  simp only [List.mem_toFinset, ledger.logged, none, List.not_mem_nil, false_or, Finset.mem_union,
    Finset.mem_image, List.mem_map]

/-- A refused write logs nothing. -/
theorem writei_refused {r : Int} (refused : ¬ s.Accepts ip off src.length)
    (done : s.writei ip src off = some (r, t)) : t = s := by
  unfold writei at done
  dsimp only at done
  split at done
  · split at done
    · cases done
      rfl
    · split at done <;> cases done <;> rfl
  · rename_i file
    split at done
    · cases done
      rfl
    · rename_i inside
      split at done
      · cases done
        rfl
      · rename_i short
        exact absurd ⟨file, by omega, by omega, by omega⟩ refused

theorem writei_accepted {r : Int} (accepts : s.Accepts ip off src.length)
    (done : s.writei ip src off = some (r, t)) : ∃ u, s.writeLoop ip src.length off src = some u ∧
      t = if src.length > 0 ∧
      off + src.length > (u.icache ip).size then u.resize ip (off + src.length) else u := by
  obtain ⟨file, inside, straight, short⟩ := accepts
  unfold writei at done
  dsimp only at done
  rw [if_neg file, if_neg (by omega), if_neg (by omega)] at done
  obtain ⟨u, loop, rest⟩ := Option.bind_eq_some_iff.mp done
  refine ⟨u, loop, ?_⟩
  split at rest <;> rename_i longer <;> cases rest
  · rw [if_pos longer]
    rfl
  · rw [if_neg longer]

/-- An accepted write that starts with an empty log logs the blocks that it demands. -/
theorem card_logged {r : Int} (sound : Sound s) (live : s.Live (.core ip))
    (known : (s.icache ip).inum < s.sb.ninodes) (none : s.logged = [])
    (accepts : s.Accepts ip off src.length) (done : s.writei ip src off = some (r, t)) :
    t.logged.toFinset.card = s.demand ip off src.length := by
  obtain ⟨u, loop, rfl⟩ := writei_accepted accepts done
  obtain ⟨-, inside, -, short⟩ := accepts
  have ledger := writeLoop_ledger src.length off src sound live le_rfl short loop
  have there := (ledger.frame.live _).mpr live
  have size : (u.icache ip).size = (s.icache ip).size := ledger.frame.size live
  have data (b : Nat)
      (member : b ∈ (noted (s.absent (.core ip) off src.length) (places off src.length)).image
      (u.addr (.core ip))) : s.sb.dataStart ≤ b := by
    obtain ⟨m, place, rfl⟩ := Finset.mem_image.mp member
    rw [← ledger.frame.sb]
    exact (ledger.sound.owned.data _ m there (ledger.noted_there m place)).1
  have bitmap (b : Nat)
      (member : b ∈ ((s.freeBlocks.take (s.absent (.core ip) off src.length).card).map
      s.sb.bblock).toFinset) : s.sb.bmapstart ≤ b ∧ b < s.sb.dataStart := by
    obtain ⟨c, free, rfl⟩ := List.mem_map.mp (List.mem_toFinset.mp member)
    have bound := (List.mem_filter.mp (List.mem_of_mem_take free)).1
    exact ⟨Nat.le_add_left _ _, Superblock.bblock_lt_dataStart (List.mem_range.mp bound)⟩
  have loopCard : u.logged.toFinset.card =
      (noted (s.absent (.core ip) off src.length) (places off src.length)).card +
      ((s.freeBlocks.take (s.absent (.core ip) off src.length).card).map
        s.sb.bblock).toFinset.card := by
    rw [logged_loop ledger none, Finset.card_union_of_disjoint,
      card_image_addr ledger.sound.owned there ledger.noted_there]
    refine Finset.disjoint_left.mpr fun b first second => ?_
    have := data b first
    have := bitmap b second
    omega
  rw [size, demand, ← loopCard]
  by_cases longer : (s.icache ip).size < off + src.length
  · have some : 0 < src.length := by omega
    have below := Superblock.iblock_lt_bmapstart sound.owned.wf known
    have fresh : s.sb.iblock (s.icache ip).inum ∉ u.logged.toFinset := by
      intro member
      rw [logged_loop ledger none, Finset.mem_union] at member
      obtain member | member := member
      · have := data _ member
        have := bmapstart_lt_dataStart s.sb
        omega
      · have := bitmap _ member
        omega
    have logged :
        (u.resize ip (off + src.length)).logged = s.sb.iblock (s.icache ip).inum :: u.logged := by
      rw [← ledger.frame.sb, ← ledger.frame.inum ip]
      simp [resize, iupdate, setInode]
    rw [if_pos ⟨some, longer⟩, if_pos longer, logged, List.toFinset_cons,
      Finset.card_insert_of_notMem fresh]
  · rw [if_neg (fun both => longer both.2), if_neg longer, Nat.add_zero]

def entry (j : Nat) : Fin nindirect := ⟨j % nindirect, Nat.mod_lt _ (by decide)⟩

/-- Bitmap block `q` with bit 1000 clear, and in the fifth block the rest of that byte too. -/
def sparse (q : Nat) : Block := fun i => if i.val = 125 then if q < 4 then 0xfe else 0 else 0xff

/-- The numbers 200, 201 and so on in all words of the block but the last. -/
def nearlyFull : Block :=
  fun i => if i.val / 4 < nindirect - 1 then (toLe 4 (200 + i.val / 4)).getD (i.val % 4) 0 else 0

/-- A file that fills its direct blocks and, but for one entry and one byte, its indirect block. -/
def nearlyInode : Dinode where
  type := tFile
  major := 0
  minor := 0
  nlink := 1
  size := (ndirect + nindirect - 1) * bsize - 1
  addrs i := if i.val < ndirect then 100 + i.val else if i.val = ndirect then 120 else 0

/-- A file system as mkfs lays it out, with this file as inode 1, on disk and in memory. The
first four bitmap blocks have one free block each. -/
def nearlyIndirect : State where
  sb := ⟨fsSize, 19937, 200, 30, 2, 32, 58⟩
  block b := if b = 120 then nearlyFull
    else if b = 32 then Bytes.write .zero dinodeSize nearlyInode.encode
    else if 58 ≤ b ∧ b < 63 then sparse (b - 58) else .zero
  icache ip := ⟨nearlyInode, ip.val + 1, if ip.val = 0 then 1 else 0, true⟩
  devsw _ := ⟨none, none⟩
  logged := []

/-- The block numbers in the tree of that file. -/
def nearlyTree : Node → Nat
  | .root i => if i.val < ndirect then 100 + i.val else if i.val = ndirect then 120 else 0
  | .single j => if j.val < nindirect - 1 then 200 + j.val else 0
  | .level1 _ | .leaf _ _ => 0

theorem nearlyFull_word :
    ∀ j : Fin nindirect, nearlyFull.word j = if j.val < nindirect - 1 then 200 + j.val else 0 := by
  decide

theorem nearlyIndirect_addr (ip : Slot) : nearlyIndirect.addr (.core ip) = nearlyTree := by
  funext m
  cases m with
  | root i => rfl
  | single j => exact nearlyFull_word j
  | level1 j => rfl
  | leaf j k => rfl

theorem nearlyIndirect_bitmap {q : Nat} (bound : q ≤ 4) :
    nearlyIndirect.block (q + 58) = sparse q := by
  simp only [nearlyIndirect]
  rw [if_neg (by omega), if_neg (by omega), if_pos (by omega), Nat.add_sub_cancel]

theorem nearlyIndirect_used {b : Nat} (bound : b < fsSize) :
    nearlyIndirect.used b = decide (b % bpb / 8 ≠ 125 ∨ (b / bpb < 4 ∧ b % 8 ≠ 0)) := by
  have quotient : b / bpb ≤ 4 := by
    have bound : b < 20000 := bound
    show b / 4096 ≤ 4
    omega
  have block : nearlyIndirect.block (nearlyIndirect.sb.bblock b) = sparse (b / bpb) :=
    nearlyIndirect_bitmap quotient
  have inside : b % bpb / 8 < bsize := Nat.div_lt_of_lt_mul (Nat.mod_lt b (by decide))
  have rest : b % bpb % 8 = b % 8 := Nat.mod_mod_of_dvd b (by decide)
  have full : ∀ k < 8, Nat.testBit 255 k = true := by decide
  have one : ∀ k < 8, Nat.testBit 254 k = decide (k ≠ 0) := by decide
  have small : b % 8 < 8 := Nat.mod_lt b (by decide)
  rw [used, block, Bytes.bit_eq_testBit, Bytes.get, dif_pos inside, rest, sparse]
  dsimp only
  split
  · rename_i here
    split
    · rename_i low
      simp only [here, low, ne_eq, not_true_eq_false, false_or, true_and]
      exact one _ small
    · rename_i high
      simp [here, high]
  · rename_i other
    simp only [ne_eq, other, not_false_eq_true, true_or, decide_true]
    exact full _ small

theorem nearlyTree_range {m : Node} (there : nearlyTree m ≠ 0) :
    100 ≤ nearlyTree m ∧ nearlyTree m < 400 := by
  cases m with
  | root i =>
    revert i
    decide
  | single j =>
    revert j
    decide
  | level1 | leaf => exact absurd rfl there

theorem nearlyTree_injective {m k : Node} (there : nearlyTree m ≠ 0)
    (same : nearlyTree m = nearlyTree k) : m = k := by
  let place (b : Nat) : Node :=
    if b = 120 then .root indirect else if b < 120 then .root (.ofNat _ (b - 100))
    else .single (entry (b - 200))
  have back (m : Node) (there : nearlyTree m ≠ 0) : place (nearlyTree m) = m := by
    cases m with
    | root i =>
      revert i
      decide
    | single j =>
      revert j
      decide
    | level1 | leaf => exact absurd rfl there
  rw [← back m there, same, back k (same ▸ there)]

theorem nearlyIndirect_dinode {inum : Nat} (bound : inum < 200) (other : inum ≠ 1) :
    (nearlyIndirect.dinode inum).type = 0 := by
  have quotient : inum / ipb < 26 := Nat.div_lt_of_lt_mul (Nat.lt_of_lt_of_le bound (by decide))
  have zero (off : Nat) : (Dinode.decode .zero off).type = 0 := by
    simp [Dinode.decode, toShort, leNat]
  simp only [dinode, Superblock.iblock, nearlyIndirect]
  rw [if_neg (by omega)]
  obtain first | later := Nat.eq_zero_or_pos (inum / ipb)
  · have apart : dinodeSize * (inum % ipb) + dinodeSize ≤ dinodeSize ∨
        dinodeSize + dinodeSize ≤ dinodeSize * (inum % ipb) := by
      have := Nat.div_add_mod inum ipb
      rw [first] at this
      simp only [dinodeSize]
      omega
    rw [if_pos (by omega), Dinode.decode_write_other _ _ apart, zero]
  · rw [if_neg (by omega), if_neg (by omega), zero]

theorem nearlyIndirect_sound : Sound nearlyIndirect := by
  have only (x : Ino) (live : nearlyIndirect.Live x) : x = .core 0 := by
    cases x with
    | core ip =>
      have positive : 0 < if ip.val = 0 then 1 else 0 := live.1
      split at positive
      · rename_i first
        rw [Fin.ext (a := ip) (b := 0) first]
      · cases positive
    | disk inum =>
      exact absurd (nearlyIndirect_dinode live.1 (live.2.2 0 ⟨Nat.one_pos, rfl⟩).symm) live.2.1
  have low {b : Nat} (small : b < 400) : nearlyIndirect.used b = true := by
    rw [nearlyIndirect_used (Nat.lt_trans small (by decide)), decide_eq_true_eq,
      Nat.mod_eq_of_lt (Nat.lt_trans small (by decide))]
    omega
  constructor
  · constructor
    case wf => exact ⟨by decide, by decide⟩
    case data =>
      intro x m live there
      cases only x live
      rw [nearlyIndirect_addr] at there ⊢
      obtain ⟨above, below⟩ := nearlyTree_range there
      exact ⟨Nat.le_trans (by decide) above, Nat.lt_trans below (by decide)⟩
    case marked =>
      intro x m live there
      cases only x live
      rw [nearlyIndirect_addr] at there ⊢
      exact low (nearlyTree_range there).2
    case once =>
      intro x y m k first second there same
      cases only x first
      cases only y second
      rw [nearlyIndirect_addr] at there same
      exact ⟨rfl, nearlyTree_injective there same⟩
  · intro b bound before
    have : nearlyIndirect.sb.dataStart = 63 := by decide
    exact low (by omega)

theorem nearlyIndirect_free : nearlyIndirect.freeBlocks =
    [1000, 5096, 9192, 13288, 17384, 17385, 17386, 17387, 17388, 17389, 17390, 17391] := by
  have member (b : Nat) : b ∈ nearlyIndirect.freeBlocks ↔
      b ∈ [1000, 5096, 9192, 13288, 17384, 17385, 17386, 17387, 17388, 17389, 17390, 17391] := by
    have free (bound : b < 20000) :
        (!nearlyIndirect.used b) = true ↔ b % 4096 / 8 = 125 ∧ (b / 4096 < 4 → b % 8 = 0) := by
      rw [nearlyIndirect_used bound, Bool.not_eq_true', decide_eq_false_iff_not, not_or, not_and,
        not_not, not_not]
      exact Iff.rfl
    rw [freeBlocks, List.mem_filter, List.mem_range, show nearlyIndirect.sb.size = 20000 from rfl]
    constructor
    · rintro ⟨bound, clear⟩
      obtain ⟨byte, bit⟩ := (free bound).mp clear
      have all : ∀ q ≤ 4, ∀ r < 8, (q < 4 → r = 0) → 4096 * q + 1000 + r ∈
          [1000, 5096, 9192, 13288, 17384, 17385, 17386, 17387, 17388, 17389, 17390, 17391] := by
            decide
      have place : 4096 * (b / 4096) + 1000 + b % 8 = b := by omega
      have listed := all (b / 4096) (by omega) (b % 8) (by omega) bit
      rwa [place] at listed
    · intro listed
      have all :
          ∀ b ∈ [1000, 5096, 9192, 13288, 17384, 17385, 17386, 17387, 17388, 17389, 17390, 17391],
          b < 20000 ∧ b % 4096 / 8 = 125 ∧ (b / 4096 < 4 → b % 8 = 0) := by decide
      obtain ⟨bound, clear⟩ := all b listed
      exact ⟨bound, (free bound).mpr clear⟩
  have sorted : nearlyIndirect.freeBlocks.Pairwise (· < ·) := List.pairwise_lt_range.filter _
  refine List.Perm.eq_of_pairwise
    (fun a b _ _ below above => absurd (below.trans above) (lt_irrefl a)) sorted (by decide) ?_
  exact (List.perm_ext_iff_of_nodup (sorted.imp ne_of_lt) (by decide)).mpr member

theorem nearlyIndirect_touched : touched nearlyInode.size chunk = {137, 138, 139, 140} := by
  rw [touched_step _ (by decide), touched_step _ (by decide), touched_step _ (by decide),
    touched_step _ (by decide)]
  decide

/-- The chunk stores one byte in the last block that is there, and needs the last entry of the
indirect block, the double-indirect block and a block of it, and three blocks for bytes. -/
theorem nearlyIndirect_places : places nearlyInode.size chunk =
    {.single (entry 126), .single (entry 127), .leaf (entry 0) (entry 0),
      .leaf (entry 0) (entry 1)} ∧
    nearlyIndirect.absent (.core 0) nearlyInode.size chunk =
      {.single (entry 127), .root double, .level1 (entry 0), .leaf (entry 0) (entry 0),
        .leaf (entry 0) (entry 1)} := by
  have wrote : places nearlyInode.size chunk = {.single (entry 126), .single (entry 127),
      .leaf (entry 0) (entry 0), .leaf (entry 0) (entry 1)} := by
    rw [places, nearlyIndirect_touched]
    decide
  refine ⟨wrote, ?_⟩
  rw [State.absent, wrote, nearlyIndirect_addr]
  decide

theorem nearlyIndirect_absent :
    (nearlyIndirect.absent (.core 0) nearlyInode.size chunk).card = 5 := by
  rw [nearlyIndirect_places.2]
  decide

theorem nearlyIndirect_demand : nearlyIndirect.demand 0 nearlyInode.size chunk = 13 := by
  rw [demand, nearlyIndirect_absent, nearlyIndirect_places.1, nearlyIndirect_places.2,
    nearlyIndirect_free]
  decide

/-- A transaction of `filewrite` stays within `maxOpBlocks` blocks exactly when `writei`
refuses the call or the blocks it demands are that few. -/
theorem filewrite_fits_iff {r : Int} (sound : Sound s) (live : s.Live (.core ip))
    (known : (s.icache ip).inum < s.sb.ninodes) (done : s.transaction ip src off = some (r, t)) :
    t.logged.toFinset.card ≤ maxOpBlocks ↔
      (s.Accepts ip off (min src.length chunk) →
        s.demand ip off (min src.length chunk) ≤ maxOpBlocks) := by
  have length : (src.take chunk).length = min src.length chunk := by
    rw [List.length_take, Nat.min_comm]
  rw [← length]
  by_cases accepts : s.Accepts ip off (src.take chunk).length
  · rw [card_logged sound.unlogged live known rfl accepts done]
    exact ⟨fun fits _ => fits, fun fits => fits accepts⟩
  · rw [writei_refused (s := { s with logged := [] }) accepts done]
    exact ⟨fun _ accepted => absurd accepted accepts, fun _ => Nat.zero_le _⟩

/-- A small write to an empty file stores one block, its bitmap block and the inode. -/
theorem small_write_fits :
    ∃ t, (smallFs 0x1f).transaction 0 [7, 9] 0 = some (2, t) ∧
      t.logged.toFinset.card ≤ maxOpBlocks := by
  have reserved : Reserved (smallFs 0x1f) := by unfold Reserved; decide
  have runs : ((smallFs 0x1f).transaction 0 [7, 9] 0).map Prod.fst = some 2 := by decide
  obtain ⟨⟨r, t⟩, done, rfl⟩ := Option.map_eq_some_iff.mp runs
  refine ⟨t, done, (filewrite_fits_iff ⟨owned_smallFs _, reserved⟩ ⟨by decide, rfl⟩
    (by decide) done).mpr fun _ => ?_⟩
  decide

/-- One chunk appended where the file enters its double-indirect block, with its five new
blocks marked in five bitmap blocks, passes thirteen blocks to the log. -/
theorem append_exceeds_log :
    Sound nearlyIndirect ∧ nearlyIndirect.sb.size = fsSize ∧ nearlyIndirect.Live (.core 0) ∧
      (∀ bn ≤ nearlyInode.size / bsize, nearlyIndirect.lookup (.core 0) bn ≠ 0) ∧
      ∃ t, nearlyIndirect.transaction 0 (List.replicate chunk 0) nearlyInode.size = some (1536, t) ∧
        t.logged.toFinset.card = 13 ∧ maxOpBlocks < t.logged.toFinset.card := by
  have live : nearlyIndirect.Live (.core 0) := ⟨Nat.one_pos, rfl⟩
  have known : (nearlyIndirect.icache 0).inum < nearlyIndirect.sb.ninodes := by decide
  have length : (List.replicate chunk (0 : UInt8)).length = chunk := List.length_replicate
  have free : nearlyIndirect.free = 12 := by
    rw [← length_freeBlocks, nearlyIndirect_free]
    rfl
  have bound : nearlyInode.size + (List.replicate chunk (0 : UInt8)).length ≤ maxfile * bsize := by
    rw [length]
    decide
  obtain ⟨u, loop⟩ := writeLoop_returns nearlyIndirect_sound live bound
    (by rw [length, nearlyIndirect_absent, free]; decide)
  obtain ⟨t, done⟩ : ∃ t, nearlyIndirect.writei 0 (List.replicate chunk 0) nearlyInode.size =
      some (((List.replicate chunk (0 : UInt8)).length : Int), t) :=
    ⟨_, writei_eq (by decide) (le_refl nearlyInode.size) bound loop⟩
  have count : t.logged.toFinset.card = 13 := by
    rw [card_logged nearlyIndirect_sound live known rfl (by rw [length]; decide) done, length,
      nearlyIndirect_demand]
  refine ⟨nearlyIndirect_sound, rfl, live, ?_, t, ?_, count, ?_⟩
  · simp only [lookup, nearlyIndirect_addr]
    decide
  · have whole : (List.replicate chunk (0 : UInt8)).take chunk = List.replicate chunk 0 := by
      rw [List.take_replicate, Nat.min_self]
    have same : { nearlyIndirect with logged := [] } = nearlyIndirect := rfl
    rw [transaction, whole, same, done, length]
    rfl
  · rw [count]
    decide

end State
end Aso.Xv6.Fs
