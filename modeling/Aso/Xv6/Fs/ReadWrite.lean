import Aso.Xv6.Fs.Ledger

/-! `readi` and `writei` on files: a write overwrites a range of one file, possibly
making it longer, and no other file or inode changes. -/
namespace Aso.Xv6.Fs

theorem Dinode.length_encode (d : Dinode) : d.encode.length = dinodeSize := by
  simp only [encode, short, List.length_append, length_toLe, List.length_flatMap]
  decide

/-- Writing one dinode leaves the others in the block alone. -/
theorem Dinode.decode_write_other (d : Dinode) (b : Block) {off off' : Nat}
    (apart : off + dinodeSize ≤ off' ∨ off' + dinodeSize ≤ off) :
    decode (b.write off' d.encode) off = decode b off := by
  have read (k len : Nat) (inside : k + len ≤ dinodeSize) :
      (Bytes.write b off' d.encode).read (off + k) len = b.read (off + k) len := by
    apply Bytes.read_write_other
    rw [length_encode]
    omega
  have root (i : Fin (ndirect + 2)) :
      (Bytes.write b off' d.encode).read (off + 12 + 4 * i.val) 4 =
      b.read (off + 12 + 4 * i.val) 4 := by
    have := i.isLt
    simp only [Nat.add_assoc]
    apply read
    simp only [ndirect, dinodeSize] at this ⊢
    omega
  have start := read 0 2 (by decide)
  rw [Nat.add_zero] at start
  simp only [decode, start, read 2 2 (by decide), read 4 2 (by decide), read 6 2 (by decide),
    read 8 4 (by decide), root]

theorem toShort_short (i : Int16) : toShort (short i) = i := by
  rw [toShort, short, leNat_toLe]
  · rw [UInt16.ofNat_toNat, UInt16.toInt16]
  · exact i.toUInt16.toNat_lt

@[simp] theorem length_short (i : Int16) : (short i).length = 2 := length_toLe 2 _

/-- A dinode written into its block is read back. -/
theorem Dinode.decode_write_same (d : Dinode) (b : Block) {off : Nat}
    (inside : off + dinodeSize ≤ bsize) (size : d.size < 2 ^ 32) (addrs : ∀ i, d.addrs i < 2 ^ 32) :
    decode (b.write off d.encode) off = d := by
  have read (k len : Nat) (part : k + len ≤ dinodeSize) :
      (Bytes.write b off d.encode).read (off + k) len = (d.encode.drop k).take len :=
    Bytes.read_write_part b off d.encode (by rwa [length_encode]) (by rwa [length_encode])
  have root (i : Fin (ndirect + 2)) :
      leNat ((Bytes.write b off d.encode).read (off + 12 + 4 * i.val) 4) = d.addrs i := by
    have bound := i.isLt
    have part : 12 + 4 * i.val + 4 ≤ dinodeSize := by
      simp only [ndirect, dinodeSize] at bound ⊢
      omega
    have table :
        d.encode.drop 12 = (List.finRange (ndirect + 2)).flatMap fun i => toLe 4 (d.addrs i) :=
      List.drop_left' (by simp only [short, List.length_append, length_toLe])
    have entry := take_drop_flatMap (fun i => toLe 4 (d.addrs i)) (fun _ => length_toLe 4 _)
      (List.finRange (ndirect + 2)) (i := i.val) (by simp only [List.length_finRange, bound])
    rw [Nat.add_assoc, read _ 4 part, ← List.drop_drop, table, entry, leNat_toLe]
    · simp only [List.get_eq_getElem, List.getElem_finRange, Fin.cast_mk, Fin.eta]
    · exact addrs _
  have type : (d.encode.drop 0).take 2 = short d.type := by
    simp [encode]
  have major : (d.encode.drop 2).take 2 = short d.major := by
    simp [encode]
  have minor : (d.encode.drop 4).take 2 = short d.minor := by
    simp [encode, List.drop_append, List.drop_of_length_le]
  have nlink : (d.encode.drop 6).take 2 = short d.nlink := by
    simp [encode, List.drop_append, List.drop_of_length_le]
  have length : (d.encode.drop 8).take 4 = toLe 4 d.size := by
    simp [encode, List.drop_append, List.drop_of_length_le]
  have start := read 0 2 (by decide)
  rw [Nat.add_zero] at start
  simp only [decode, root, start, read 2 2 (by decide), read 4 2 (by decide), read 6 2 (by decide),
    read 8 4 (by decide), type, major, minor, nlink, length, toShort_short,
    leNat_toLe (show d.size < 256 ^ 4 from size)]

namespace State
variable {s t u : State} {ip : Slot} {x y : Ino} {n : Node} {a bn off : Nat}

theorem iupdate_block {c : Nat} (outside : c ≠ s.sb.iblock (s.icache ip).inum) :
    (s.iupdate ip).block c = s.block c :=
  logWrite_block_other s _ outside

theorem dinode_iupdate_other {inum : Nat} (other : (s.icache ip).inum ≠ inum) :
    (s.iupdate ip).dinode inum = s.dinode inum := by
  unfold dinode iupdate
  dsimp only [logWrite_sb]
  obtain same | apart := eq_or_ne (s.sb.iblock inum) (s.sb.iblock (s.icache ip).inum)
  · rw [same, logWrite_block_same]
    apply Dinode.decode_write_other
    have : inum % ipb ≠ (s.icache ip).inum % ipb := by
      simp only [Superblock.iblock, Nat.add_right_cancel_iff] at same
      intro rest
      apply other
      rw [← Nat.div_add_mod (s.icache ip).inum ipb, ← Nat.div_add_mod inum ipb, same, rest]
    simp only [dinodeSize]
    omega
  · rw [logWrite_block_other _ _ apart]

/-- Store a new size in the inode and write the inode to disk. -/
def resize (s : State) (ip : Slot) (size : Nat) : State :=
  (s.setInode ip { s.icache ip with size := size }).iupdate ip

section
variable {size : Nat}

theorem resize_icache (k : Slot) :
    (s.resize ip size).icache k =
    { s.icache k with size := if k = ip then size else (s.icache k).size } := by
  obtain rfl | other := eq_or_ne k ip
  · simp [resize, iupdate, setInode]
  · simp [resize, iupdate, setInode, other]

theorem resize_block {c : Nat} (outside : c ≠ s.sb.iblock (s.icache ip).inum) :
    (s.resize ip size).block c = s.block c := by
  rw [resize, iupdate_block (by simpa [setInode] using outside)]
  rfl

theorem resize_dinode {inum : Nat} (other : (s.icache ip).inum ≠ inum) :
    (s.resize ip size).dinode inum = s.dinode inum := by
  rw [resize, dinode_iupdate_other (by simpa [setInode] using other)]
  rfl

@[simp] theorem resize_sb : (s.resize ip size).sb = s.sb := rfl

theorem resize_live (live : s.Live (.core ip)) (y : Ino) :
    (s.resize ip size).Live y ↔ s.Live y := by
  have use (k : Slot) : ((s.resize ip size).icache k).inUse ↔ (s.icache k).inUse := by
    simp [resize_icache, Inode.inUse]
  have inum (k : Slot) : ((s.resize ip size).icache k).inum = (s.icache k).inum := by
    simp [resize_icache]
  cases y with
  | core k => exact use k
  | disk i =>
    simp only [Live, resize_sb, use, inum]
    apply and_congr_right
    intro bound
    obtain same | other := eq_or_ne (s.icache ip).inum i
    · simp only [and_congr_left_iff]
      exact fun free => absurd same (free ip live)
    · rw [resize_dinode other]

/-- Only the size of the inode changes. -/
theorem resize_inode (live : s.Live (.core ip)) (here : s.Live y) :
    (s.resize ip size).inode y =
      { s.inode y with size := if y = .core ip then size else (s.inode y).size } := by
  cases y with
  | core k => simp [inode, resize_icache]
  | disk i => simp [inode, resize_dinode (here.2.2 ip live)]

theorem resize_addr (owned : Owned s) (live : s.Live (.core ip))
    (known : (s.icache ip).inum < s.sb.ninodes) (here : s.Live y) (m : Node) :
    (s.resize ip size).addr y m = s.addr y m := by
  have below := Superblock.iblock_lt_bmapstart owned.wf known
  have := bmapstart_lt_dataStart s.sb
  apply addr_unique
  · intro i
    rw [resize_inode live here]
    rfl
  · intro m p child
    rw [addr_child child]
    obtain absent | present := eq_or_ne (s.addr y p) 0
    · rw [absent, follow_zero, follow_zero]
    · have := (owned.data y p here present).1
      rw [follow_of_ne present, follow_of_ne present, resize_block (by omega)]

theorem resize_used (owned : Owned s) (known : (s.icache ip).inum < s.sb.ninodes) :
    (s.resize ip size).used = s.used := by
  have below := Superblock.iblock_lt_bmapstart owned.wf known
  funext c
  have : s.sb.bmapstart ≤ s.sb.bblock c := Nat.le_add_left _ _
  rw [used, used, resize_sb, resize_block (by omega)]

theorem resize_sound (sound : Sound s) (live : s.Live (.core ip))
    (known : (s.icache ip).inum < s.sb.ninodes) : Sound (s.resize ip size) :=
  sound.of_same resize_sb (resize_live live)
    (fun _ m here => resize_addr sound.owned live known here m)
    fun c _ => congrFun (resize_used sound.owned known) c

end

/-- How much of a read of `n` bytes at `off` lies within the file. -/
def readLen (s : State) (ip : Slot) (off n : Nat) : Nat := min n ((s.icache ip).size - off)

/-- A read of a file is the loop on the part of the range within the file. -/
theorem readi_eq {n : Nat} (file : (s.icache ip).type ≠ tDev) (inside : off ≤ (s.icache ip).size)
    (straight : off ≤ (off + n) % 2 ^ 32) :
    s.readi ip off n = (s.readLoop ip (s.readLen ip off n) off (s.readLen ip off n)).map
      fun (bytes, t) => (int32 (s.readLen ip off n), bytes, t) := by
  have length : (if off + n > (s.icache ip).size then (s.icache ip).size - off else n) =
      s.readLen ip off n := by
    unfold readLen
    split <;> omega
  unfold readi
  dsimp only
  rw [if_neg file, if_neg (by omega), length]

theorem int32_small {w : Nat} (small : w < 2 ^ 31) : int32 w = w := if_pos small

/-- With the blocks for its holes, a read returns the bytes of the file. -/
theorem readi_bytes {n : Nat} (sound : Sound s) (live : s.Live (.core ip))
    (file : (s.icache ip).type ≠ tDev) (inside : off ≤ (s.icache ip).size)
    (range : off + n < 2 ^ 32) (bound : off + s.readLen ip off n ≤ maxfile * bsize)
    (enough : (s.absent (.core ip) off (s.readLen ip off n)).card ≤ s.free) :
    ∃ t, s.readi ip off n = some ((s.readLen ip off n : Int),
      (List.range (s.readLen ip off n)).map fun i => s.byteAt (.core ip) (off + i), t) := by
  have small : s.readLen ip off n < 2 ^ 31 := by
    simp only [maxfile, nbde, nindirect, ndirect, bsize] at bound
    omega
  rw [readi_eq file inside (by rw [Nat.mod_eq_of_lt range]; omega)]
  cases loop : s.readLoop ip (s.readLen ip off n) off (s.readLen ip off n) with
  | none =>
    have := readLoop_starves _ off _ sound live le_rfl bound loop
    omega
  | some found =>
    obtain ⟨bytes, t⟩ := found
    obtain ⟨rfl, -⟩ := readLoop_spec sound live le_rfl loop
    exact ⟨t, by rw [Option.map_some, int32_small small]⟩

/-- A read that returned in `s` returns the same in a state with the same bytes
for this inode, if it has the blocks there. -/
theorem readi_same {n : Nat} {r : Int} {bytes : List UInt8} (sound : Sound s) (later : Sound t)
    (live : s.Live (.core ip)) (live' : t.Live (.core ip)) (devsw : t.devsw = s.devsw)
    (type : (t.icache ip).type = (s.icache ip).type)
    (major : (t.icache ip).major = (s.icache ip).major)
    (size : (t.icache ip).size = (s.icache ip).size)
    (same : ∀ i < maxfile * bsize, t.byteAt (.core ip) i = s.byteAt (.core ip) i)
    (read : s.readi ip off n = some (r, bytes, u))
    (enough : (t.absent (.core ip) off (t.readLen ip off n)).card ≤ t.free) :
    ∃ v, t.readi ip off n = some (r, bytes, v) := by
  have length : t.readLen ip off n = s.readLen ip off n := by rw [readLen, readLen, size]
  by_cases device : (s.icache ip).type = tDev
  · unfold readi at read ⊢
    dsimp only at read ⊢
    rw [if_pos device] at read
    rw [type, if_pos device, major, devsw]
    split at read <;> rename_i bad
    · cases read
      exact ⟨t, by rw [if_pos bad]⟩
    · rw [if_neg bad]
      split at read <;> cases read <;> exact ⟨t, rfl⟩
  · by_cases refused : off > (s.icache ip).size ∨ (off + n) % 2 ^ 32 < off
    · unfold readi at read ⊢
      dsimp only at read ⊢
      rw [if_neg device, if_pos refused] at read
      cases read
      exact ⟨t, by rw [type, if_neg device, size, if_pos refused]⟩
    · rw [readi_eq device (by omega) (by omega), Option.map_eq_some_iff] at read
      obtain ⟨⟨found, w⟩, loop, result⟩ := read
      cases result
      rw [readi_eq (type ▸ device) (by omega) (by omega), length]
      rw [length] at enough
      obtain ⟨rfl, range, -⟩ := readLoop_spec sound live le_rfl loop
      cases again : t.readLoop ip (s.readLen ip off n) off (s.readLen ip off n) with
      | none =>
        obtain empty | range := range
        · rw [empty] at again
          cases again
        · have := readLoop_starves _ off _ later live' le_rfl range again
          omega
      | some found =>
        obtain ⟨read, v⟩ := found
        obtain ⟨rfl, -⟩ := readLoop_spec later live' le_rfl again
        have bytes :
            (List.range (s.readLen ip off n)).map (fun i => t.byteAt (.core ip) (off + i)) =
            (List.range (s.readLen ip off n)).map fun i => s.byteAt (.core ip) (off + i) := by
          apply List.map_congr_left
          intro i member
          have := List.mem_range.mp member
          exact same _ (by omega)
        exact ⟨v, by rw [Option.map_some, bytes]⟩

/-- What a successful write of `src` at `off` of the file in `ip` does. -/
structure Written (s t : State) (ip : Slot) (off : Nat) (src : List UInt8) : Prop where
  sound : Sound t
  live : ∀ y, t.Live y ↔ s.Live y
  size : (t.icache ip).size = max (s.icache ip).size (off + src.length)
  /-- Reads of the file before the write. -/
  before : ∀ pos n, pos ≤ (s.icache ip).size → pos + n < 2 ^ 32 →
    pos + s.readLen ip pos n ≤ maxfile * bsize →
    (s.absent (.core ip) pos (s.readLen ip pos n)).card ≤ s.free →
    ∃ u, s.readi ip pos n = some ((s.readLen ip pos n : Int),
      (List.range (s.readLen ip pos n)).map fun i => s.byteAt (.core ip) (pos + i), u)
  /-- Reads of the file after the write. -/
  after : ∀ pos n, pos ≤ (t.icache ip).size → pos + n < 2 ^ 32 →
    pos + t.readLen ip pos n ≤ maxfile * bsize →
    (t.absent (.core ip) pos (t.readLen ip pos n)).card ≤ t.free →
    ∃ u, t.readi ip pos n = some ((t.readLen ip pos n : Int),
      (List.range (t.readLen ip pos n)).map fun i => overwrite (s.byteAt (.core ip)) off src
      (pos + i), u)
  /-- Reads of the other files in memory. -/
  others : ∀ k pos n r bytes u, k ≠ ip → s.Live (.core k) → s.readi k pos n = some (r, bytes, u) →
    (t.absent (.core k) pos (t.readLen k pos n)).card ≤ t.free →
    ∃ v, t.readi k pos n = some (r, bytes, v)
  /-- Sizes and bytes of all other files, in memory or on disk. -/
  elsewhere : ∀ y, s.Live y → y ≠ .core ip → (t.inode y).size = (s.inode y).size ∧
    ∀ i < maxfile * bsize, t.byteAt y i = s.byteAt y i

theorem written_of {src : List UInt8} (sound : Sound s) (later : Sound t) (live : s.Live (.core ip))
    (file : (s.icache ip).type ≠ tDev) (devsw : t.devsw = s.devsw) (same : ∀ y, t.Live y ↔ s.Live y)
    (kept : ∀ y, s.Live y →
      (t.inode y).type = (s.inode y).type ∧ (t.inode y).major = (s.inode y).major)
    (size : ∀ y, s.Live y → (t.inode y).size =
      if y = .core ip then max (s.icache ip).size (off + src.length) else (s.inode y).size)
    (bytes : Overwrites s t (.core ip) off src) : Written s t ip off src where
  sound := later
  live := same
  size := by simpa [inode] using size (.core ip) live
  before pos n inside range bound enough := readi_bytes sound live file inside range bound enough
  after pos n inside range bound enough := by
    have type : (t.icache ip).type = (s.icache ip).type := (kept (.core ip) live).1
    obtain ⟨u, read⟩ := readi_bytes later ((same _).mpr live)
      (type ▸ file) inside range bound enough
    refine ⟨u, read.trans ?_⟩
    have written : (List.range (t.readLen ip pos n)).map (fun i => t.byteAt (.core ip) (pos + i)) =
        (List.range (t.readLen ip pos n)).map fun i => overwrite (s.byteAt (.core ip)) off src
        (pos + i) := by
      apply List.map_congr_left
      intro i member
      have := List.mem_range.mp member
      simpa using bytes (.core ip) (pos + i) live (by omega)
    rw [written]
  others k pos n r data u other here read enough := by
    have apart : Ino.core k ≠ .core ip := by simpa using other
    refine readi_same sound later here ((same _).mpr here) devsw (kept _ here).1
      (kept _ here).2 ?_ ?_ read enough
    · simpa [inode, other] using size (.core k) here
    · intro i inside
      simpa [apart] using bytes (.core k) i here inside
  elsewhere y here other := by
    refine ⟨by simpa [other] using size y here, fun i inside => ?_⟩
    simpa [other] using bytes y i here inside

theorem resize_overwrites {src : List UInt8} {size : Nat} (owned : Owned t) (frame : Frame s t)
    (live : t.Live (.core ip)) (known : (t.icache ip).inum < t.sb.ninodes)
    (bytes : Overwrites s t x off src) : Overwrites s (t.resize ip size) x off src := by
  intro y i here inside
  have same : (t.resize ip size).byteAt y i = t.byteAt y i := by
    have there := (frame.live y).mpr here
    have place : (t.resize ip size).lookup y (i / bsize) = t.lookup y (i / bsize) :=
      resize_addr owned live known there _
    have below := Superblock.iblock_lt_bmapstart owned.wf known
    have := bmapstart_lt_dataStart t.sb
    rw [byteAt, byteAt, place]
    split
    · rfl
    · rename_i present
      have : t.sb.dataStart ≤ t.lookup y (i / bsize) := (owned.data y _ there present).1
      rw [resize_block (by omega)]
  rw [same]
  exact bytes y i here inside

/-- After the loop: the inode is written only when the file became longer. -/
theorem written_of_loop {src : List UInt8} (sound : Sound s) (live : s.Live (.core ip))
    (known : (s.icache ip).inum < s.sb.ninodes) (file : (s.icache ip).type ≠ tDev)
    (inside : off ≤ (s.icache ip).size) (frame : Frame s t) (later : Sound t)
    (bytes : Overwrites s t (.core ip) off src) :
    Written s (if src.length > 0 ∧
      off + src.length > (t.icache ip).size then t.resize ip (off + src.length) else t)
      ip off src := by
  have size : (t.icache ip).size = (s.icache ip).size := frame.size live
  have there := (frame.live _).mpr live
  split
  · rename_i longer
    have known : (t.icache ip).inum < t.sb.ninodes := by
      rw [frame.inum, frame.sb]
      exact known
    refine written_of sound (resize_sound later there known) live file frame.devsw
      (fun y => (resize_live there y).trans (frame.live y)) (fun y here => ?_) (fun y here => ?_)
      (resize_overwrites later.owned frame there known bytes)
    · rw [resize_inode there ((frame.live y).mpr here)]
      exact ⟨frame.type here, frame.major here⟩
    · rw [resize_inode there ((frame.live y).mpr here)]
      dsimp only
      split
      · omega
      · exact frame.size here
  · rename_i enough
    refine written_of sound later live file frame.devsw frame.live
      (fun y here => ⟨frame.type here, frame.major here⟩) (fun y here => ?_) bytes
    rw [frame.size here]
    split
    · rename_i same
      subst y
      have : (s.inode (.core ip)).size = (s.icache ip).size := rfl
      omega
    · rfl

theorem writeLoop_returns {src : List UInt8} (sound : Sound s) (live : s.Live (.core ip))
    (bound : off + src.length ≤ maxfile * bsize)
    (enough : (s.absent (.core ip) off src.length).card ≤ s.free) :
    ∃ t, s.writeLoop ip src.length off src = some t := by
  cases loop : s.writeLoop ip src.length off src with
  | none =>
    have := writeLoop_starves _ off src sound live le_rfl bound loop
    omega
  | some t => exact ⟨t, rfl⟩

/-- A write within the largest file is the loop, and then the inode if the file became longer. -/
theorem writei_eq {src : List UInt8} (file : (s.icache ip).type ≠ tDev)
    (inside : off ≤ (s.icache ip).size) (bound : off + src.length ≤ maxfile * bsize)
    (loop : s.writeLoop ip src.length off src = some t) :
    s.writei ip src off = some ((src.length : Int),
      if src.length > 0 ∧ off + src.length > (t.icache ip).size then t.resize ip (off + src.length)
      else t) := by
  have largest : maxfile * bsize < 2 ^ 31 := by decide
  unfold writei
  dsimp only
  rw [if_neg file, if_neg (by rw [Nat.mod_eq_of_lt (by omega)]; omega), if_neg (by omega), loop]
  simp only [Option.bind_eq_bind, Option.bind_some]
  rw [int32_small (by omega)]
  split <;> rfl

/-- `writei` on a file: within the largest file and with the blocks it needs it
writes all of `src`; otherwise a refused call returns -1 and changes nothing. -/
theorem writei_overwrites (src : List UInt8) (sound : Sound s) (live : s.Live (.core ip))
    (known : (s.icache ip).inum < s.sb.ninodes) (file : (s.icache ip).type ≠ tDev) :
    (off ≤ (s.icache ip).size → off + src.length ≤ maxfile * bsize →
      (s.absent (.core ip) off src.length).card ≤ s.free →
      ∃ t, s.writei ip src off = some ((src.length : Int), t) ∧ Written s t ip off src) ∧
    (off < 2 ^ 32 → src.length < 2 ^ 32 →
      (s.icache ip).size < off ∨ 2 ^ 32 ≤ off + src.length ∨ maxfile * bsize < off + src.length →
      s.writei ip src off = some (-1, s)) := by
  constructor
  · intro inside bound enough
    obtain ⟨t, loop⟩ := writeLoop_returns sound live bound enough
    obtain ⟨frame, later, bytes⟩ := writeLoop_spec sound live le_rfl bound loop
    exact ⟨_, writei_eq file inside bound loop,
      written_of_loop sound live known file inside frame later bytes⟩
  · intro first second refused
    unfold writei
    dsimp only
    rw [if_neg file]
    split
    · rfl
    · rename_i accepted
      rw [if_pos (by omega)]

theorem writei_overwrites_small_fs :
    (∃ t, (smallFs 0x1f).writei 0 [7, 9] 0 = some (2, t) ∧ Written (smallFs 0x1f) t 0 0 [7, 9]) ∧
      (smallFs 0x1f).writei 0 [7, 9] 1 = some (-1, smallFs 0x1f) := by
  have reserved : Reserved (smallFs 0x1f) := by unfold Reserved; decide
  have sound : Sound (smallFs 0x1f) := ⟨owned_smallFs _, reserved⟩
  exact ⟨(writei_overwrites [7, 9] sound ⟨by decide, rfl⟩ (by decide) (by decide)).1
      (by decide) (by decide) (by decide),
    (writei_overwrites [7, 9] sound ⟨by decide, rfl⟩ (by decide) (by decide)).2
      (by decide) (by decide) (.inl (by decide))⟩

/-- With the bit of block 0 clear, `balloc` hands out block 0 and the number stored
in the inode says that nothing is mapped: the bytes written cannot be read back. -/
theorem writei_loses_bytes :
    Owned (smallFs 0x00) ∧ ((smallFs 0x00).absent (.core 0) 0 1).card ≤ (smallFs 0x00).free ∧
      ((smallFs 0x00).writei 0 [7] 0).map Prod.fst = some 1 ∧
      (((smallFs 0x00).writei 0 [7] 0).bind fun w => w.2.readi 0 0 1).map (fun r => (r.1, r.2.1)) =
        some (1, [0]) :=
  ⟨owned_smallFs _, by decide, by decide, by decide⟩

end State
end Aso.Xv6.Fs
