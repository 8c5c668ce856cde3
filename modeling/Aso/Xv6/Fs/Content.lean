import Aso.Xv6.Fs.Bmap

/-! Files as byte sequences. The byte at a position is read through the tree, and
is zero where no block is mapped; allocation by `bmap` leaves every byte of every
file alone, and the loops of `readi` and `writei` read and overwrite a range. -/
namespace Aso.Xv6.Fs
namespace State
variable {s t u : State} {ip : Slot} {x y : Ino} {n : Node} {a bn off : Nat}

def byteAt (s : State) (x : Ino) (i : Nat) : UInt8 :=
  if s.lookup x (i / bsize) = 0 then 0 else (s.block (s.lookup x (i / bsize))).get (i % bsize)

/-- Block indices that the bytes `[off, off + n)` of a file lie in. -/
def touched (off n : Nat) : Finset Nat := (Finset.range n).image fun i => (off + i) / bsize

/-- Inodes and superblock are as before, block numbers apart. -/
structure Frame (s t : State) : Prop where
  sb : t.sb = s.sb
  devsw : t.devsw = s.devsw
  inum : ∀ ip, (t.icache ip).inum = (s.icache ip).inum
  live : ∀ y, t.Live y ↔ s.Live y
  kept : ∀ y, s.Live y → { t.inode y with addrs := (s.inode y).addrs } = s.inode y

namespace Frame

theorem refl (s : State) : Frame s s := ⟨rfl, rfl, fun _ => rfl, fun _ => Iff.rfl, fun _ _ => rfl⟩

theorem trans (first : Frame s t) (second : Frame t u) : Frame s u where
  sb := second.sb.trans first.sb
  devsw := second.devsw.trans first.devsw
  inum ip := (second.inum ip).trans (first.inum ip)
  live y := (second.live y).trans (first.live y)
  kept y here := by rw [← first.kept y here, ← second.kept y ((first.live y).mpr here)]

theorem size (frame : Frame s t) (live : s.Live y) : (t.inode y).size = (s.inode y).size := by
  rw [← frame.kept y live]

theorem type (frame : Frame s t) (live : s.Live y) : (t.inode y).type = (s.inode y).type := by
  rw [← frame.kept y live]

theorem major (frame : Frame s t) (live : s.Live y) : (t.inode y).major = (s.inode y).major := by
  rw [← frame.kept y live]

end Frame

namespace Reaches

theorem sound (reaches : Reaches s t x n a) (sound : Sound s) : Sound t :=
  ⟨reaches.owned sound.owned, reaches.reserved sound.reserved⟩

theorem frame (reaches : Reaches s t x n a) : Frame s t :=
  let ⟨_, grows, _⟩ := reaches.path
  ⟨grows.sb, grows.devsw, grows.inum, grows.live, fun _ => grows.kept⟩

/-- A block that is newly mapped reads as the zeros that were read before. -/
theorem byteAt (reaches : Reaches s t x n a) (live : s.Live y) : t.byteAt y = s.byteAt y := by
  funext i
  obtain ⟨places, grows, -, only⟩ := reaches.path
  unfold State.byteAt lookup
  obtain unmapped | there := eq_or_ne (s.addr y (.ofBn (i / bsize))) 0
  · by_cases here : y = x ∧ Node.ofBn (i / bsize) = n
    · obtain ⟨rfl, rfl⟩ := here
      rw [if_pos unmapped, reaches.there, if_neg reaches.nonzero, reaches.zero unmapped,
        Bytes.get_zero]
    · have outside : ¬(y = x ∧ Node.ofBn (i / bsize) ∈ places) := by
        rintro ⟨rfl, member⟩
        obtain same | ⟨pointer, -⟩ := only _ member
        · exact here ⟨rfl, same⟩
        · simp [Node.ofBn_isData] at pointer
      rw [grows.addr_other live outside, if_pos unmapped, if_pos unmapped]
  · rw [grows.addr_kept live there, grows.content live (Node.ofBn_isData _) there]

end Reaches

theorem mem_touched {n : Nat} : bn ∈ touched off n ↔ ∃ i < n, (off + i) / bsize = bn := by
  simp [touched]

/-- One round of a loop takes the bytes up to the end of the block or of the range. -/
def round (off n : Nat) : Nat := min n (bsize - off % bsize)

theorem round_pos (off : Nat) {n : Nat} (some : 0 < n) : 0 < round off n := by
  have : off % bsize < bsize := Nat.mod_lt _ (by decide)
  unfold round
  omega

/-- A round that starts inside the largest file ends there. -/
theorem round_le (inside : off / bsize < maxfile) (n : Nat) :
    off + round off n ≤ maxfile * bsize := by
  simp only [round, bsize] at inside ⊢
  omega

theorem div_add_round {n i : Nat} (inside : i < round off n) :
    (off + i) / bsize = off / bsize ∧ (off + i) % bsize = off % bsize + i := by
  simp only [round, bsize] at inside ⊢
  omega

theorem touched_step (off : Nat) {n : Nat} (some : 0 < n) :
    touched off n = insert (off / bsize) (touched (off + round off n) (n - round off n)) := by
  ext bn
  simp only [Finset.mem_insert, mem_touched]
  have positive := round_pos off some
  constructor
  · rintro ⟨i, inside, rfl⟩
    obtain first | later := Nat.lt_or_ge i (round off n)
    · exact .inl (div_add_round first).1
    · exact .inr ⟨i - round off n, by omega, by rw [Nat.add_assoc, Nat.add_sub_cancel' later]⟩
  · rintro (rfl | ⟨i, inside, rfl⟩)
    · exact ⟨0, some, rfl⟩
    · exact ⟨round off n + i, by omega, by rw [Nat.add_assoc]⟩

theorem bmap_out_of_range (outside : maxfile ≤ bn) : s.bmap ip bn = none := by
  unfold maxfile at outside
  unfold bmap
  rw [dif_neg (by omega), if_neg (by omega), if_neg (by omega)]

/-- The bytes of one block that are read in a round. -/
theorem read_round {n : Nat} (live : s.Live x) (reaches : Reaches s t x (.ofBn (off / bsize)) a) :
    (t.block a).read (off % bsize) (round off n) =
      (List.range (round off n)).map fun i => s.byteAt x (off + i) := by
  apply List.map_congr_left
  intro i member
  obtain ⟨quotient, rest⟩ := div_add_round (List.mem_range.mp member)
  have there : t.lookup x (off / bsize) = a := reaches.there
  rw [← reaches.byteAt live, State.byteAt, quotient, rest, there, if_neg reaches.nonzero]

theorem range_map_add (f : Nat → UInt8) (m k : Nat) :
    (List.range (m + k)).map f = (List.range m).map f ++ (List.range k).map fun i => f (m + i) := by
  rw [List.range_add, List.map_append, List.map_map]
  rfl

/-- The loop of `readi` returns the bytes of the range and changes no file. -/
theorem readLoop_spec {left n : Nat} {bytes : List UInt8} (sound : Sound s)
    (live : s.Live (.core ip)) (rounds : n ≤ left)
    (done : s.readLoop ip left off n = some (bytes, t)) :
    bytes = (List.range n).map (fun i => s.byteAt (.core ip) (off + i)) ∧
      (n = 0 ∨ off + n ≤ maxfile * bsize) ∧ Frame s t ∧ Sound t ∧
      ∀ y, s.Live y → t.byteAt y = s.byteAt y := by
  induction left generalizing s off n bytes with
  | zero =>
    obtain rfl : n = 0 := by omega
    cases done
    exact ⟨rfl, .inl rfl, .refl _, sound, fun _ _ => rfl⟩
  | succ left ih =>
    unfold readLoop at done
    split at done
    · rename_i nothing
      subst n
      cases done
      exact ⟨rfl, .inl rfl, .refl _, sound, fun _ _ => rfl⟩
    · rename_i something
      have some : 0 < n := Nat.pos_of_ne_zero something
      have cut : min n (bsize - off % bsize) = round off n := rfl
      simp only [cut, Option.bind_eq_bind] at done
      obtain ⟨⟨a, u⟩, mapped, done⟩ := Option.bind_eq_some_iff.mp done
      obtain ⟨⟨later, v⟩, loop, done⟩ := Option.bind_eq_some_iff.mp done
      cases done
      have inside : off / bsize < maxfile := Nat.lt_of_not_ge fun outside => by
        cases (bmap_out_of_range outside).symm.trans mapped
      obtain ⟨a, u, found, reaches⟩ | ⟨none, -⟩ := bmap_finds sound.owned sound.reserved live inside
      · cases found.symm.trans mapped
        have positive := round_pos off some
        have shorter : n = round off n + (n - round off n) := by
          have : round off n ≤ n := Nat.min_le_left _ _
          omega
        have frame := reaches.frame
        obtain ⟨read, range, rest, last, bytes⟩ :=
          ih (reaches.sound sound) ((frame.live _).mpr live)
          (show n - round off n ≤ left by omega) loop
        refine ⟨?_, .inr ?_, frame.trans rest, last, fun y here => ?_⟩
        · rw [read, read_round live reaches, reaches.byteAt live]
          conv_rhs => rw [shorter, range_map_add]
          simp only [Nat.add_assoc]
        · have := round_le inside n
          omega
        · rw [bytes y ((frame.live y).mpr here), reaches.byteAt here]
      · cases none.symm.trans mapped

section
variable {d : Block}

/-- Writing a block of file data changes no tree: it holds no block numbers. -/
theorem logWrite_addr (owned : Owned s) (live : s.Live x) (bytes : n.isData = true)
    (there : s.addr x n ≠ 0) (here : s.Live y) (m : Node) :
    (s.logWrite (s.addr x n) d).addr y m = s.addr y m := by
  have outside := (owned.data x n live there).1
  apply addr_unique
  · intro i
    rw [logWrite_inode owned.wf outside (Live.known here)]
    rfl
  · intro m p child
    obtain absent | present := eq_or_ne (s.addr y p) 0
    · rw [addr_child child, absent, follow_zero, follow_zero]
    · have other : s.addr y p ≠ s.addr x n := by
        intro same
        obtain ⟨-, rfl⟩ := owned.once y x p n here live present same
        rw [Node.parent_isData child] at bytes
        cases bytes
      rw [addr_child child, follow_of_ne present, follow_of_ne present,
        logWrite_block_other s d other]

theorem logWrite_frame (owned : Owned s) (live : s.Live x) (there : s.addr x n ≠ 0) :
    Frame s (s.logWrite (s.addr x n) d) := by
  have outside := (owned.data x n live there).1
  have := bmapstart_lt_dataStart s.sb
  constructor
  case sb => rfl
  case devsw => rfl
  case inum => exact fun _ => rfl
  case live =>
    exact live_congr owned.wf rfl (fun c low => logWrite_block_other s d (by omega))
      (fun _ => Iff.rfl)
      fun _ => rfl
  case kept =>
    intro y here
    rw [logWrite_inode owned.wf outside (Live.known here)]

theorem logWrite_sound (sound : Sound s) (live : s.Live x) (bytes : n.isData = true)
    (there : s.addr x n ≠ 0) : Sound (s.logWrite (s.addr x n) d) := by
  have outside := (sound.owned.data x n live there).1
  exact sound.of_same rfl (logWrite_frame sound.owned live there).live
    (fun y m here => logWrite_addr sound.owned live bytes there here m)
    fun c bound => used_logWrite outside bound

end

theorem div_lt_maxfile {i : Nat} (bound : i < maxfile * bsize) : i / bsize < maxfile :=
  Nat.div_lt_of_lt_mul (by rwa [Nat.mul_comm])

/-- One round of `writei`: the bytes stored in the block are overwritten in the file. -/
theorem byteAt_logWrite {src : List UInt8} {i : Nat} (owned : Owned s) (live : s.Live x)
    (there : s.lookup x (off / bsize) ≠ 0) (fits : off % bsize + src.length ≤ bsize)
    (bound : off < maxfile * bsize) (here : s.Live y) (inside : i < maxfile * bsize) :
    (s.logWrite (s.lookup x (off / bsize))
      ((s.block (s.lookup x (off / bsize))).write (off % bsize) src)).byteAt y i =
      if y = x then overwrite (s.byteAt x) off src i else s.byteAt y i := by
  have data := Node.ofBn_isData (off / bsize)
  have lookup : (s.logWrite (s.lookup x (off / bsize))
      ((s.block (s.lookup x (off / bsize))).write (off % bsize) src)).lookup y (i / bsize) =
        s.lookup y (i / bsize) :=
    logWrite_addr owned live data there here _
  by_cases same : y = x ∧ i / bsize = off / bsize
  · obtain ⟨rfl, quotient⟩ := same
    have rest : i % bsize < bsize := Nat.mod_lt _ (by decide)
    rw [byteAt, lookup, quotient, if_neg there, if_pos rfl, logWrite_block_same,
      Bytes.get_write_eq_overwrite _ rest]
    have byte : s.byteAt y i = (s.block (s.lookup y (off / bsize))).get (i % bsize) := by
      rw [byteAt, quotient, if_neg there]
    have position : off % bsize ≤ i % bsize ↔ off ≤ i := by
      simp only [bsize] at quotient ⊢
      omega
    have index : i % bsize - off % bsize = i - off := by
      simp only [bsize] at quotient ⊢
      omega
    simp only [overwrite, position, index, byte]
  · have outside :
        (if y = x then overwrite (s.byteAt x) off src i else s.byteAt y i) = s.byteAt y i := by
      split
      · rename_i file
        subst y
        apply overwrite_outside
        have other : i / bsize ≠ off / bsize := fun quotient => same ⟨rfl, quotient⟩
        simp only [bsize] at other fits
        omega
      · rfl
    rw [outside, byteAt, byteAt, lookup]
    obtain unmapped | present := eq_or_ne (s.lookup y (i / bsize)) 0
    · rw [if_pos unmapped, if_pos unmapped]
    · have other : s.lookup y (i / bsize) ≠ s.lookup x (off / bsize) := by
        intro shared
        obtain ⟨rfl, place⟩ := owned.once y x _ _ here live present shared
        exact same ⟨rfl, Node.ofBn_injective (div_lt_maxfile inside) (div_lt_maxfile bound) place⟩
      rw [if_neg present, if_neg present, logWrite_block_other s _ other]

/-- The file of `x` is overwritten from `off` on and every other byte is as before. -/
def Overwrites (s t : State) (x : Ino) (off : Nat) (src : List UInt8) : Prop :=
  ∀ y i, s.Live y → i < maxfile * bsize →
    t.byteAt y i = if y = x then overwrite (s.byteAt x) off src i else s.byteAt y i

theorem overwrites_nil (s : State) (x : Ino) (off : Nat) : Overwrites s s x off [] := by
  intro y i here bound
  rw [overwrite_nil]
  split
  · rename_i same
    rw [same]
  · rfl

/-- Two rounds of writing, the second one after the first. -/
theorem Overwrites.append {m : Nat} {src : List UInt8} (frame : Frame s t)
    (first : Overwrites s t x off (src.take m)) (second : Overwrites t u x (off + m) (src.drop m))
    (enough : m ≤ src.length) : Overwrites s u x off src := by
  intro y i here bound
  rw [second y i ((frame.live y).mpr here) bound]
  split
  · rename_i same
    subst y
    rw [← overwrite_take_drop _ off m src enough]
    apply overwrite_congr
    simpa using first x i here bound
  · rename_i other
    simpa [other] using first y i here bound

/-- One round of the loop of `writei`. -/
theorem write_round {src : List UInt8} (sound : Sound s) (live : s.Live x) (some : src ≠ [])
    (bound : off + src.length ≤ maxfile * bsize) (reaches : Reaches s t x (.ofBn (off / bsize)) a)
    (written : u =
      t.logWrite a ((t.block a).write (off % bsize) (src.take (round off src.length)))) :
    Frame s u ∧ Sound u ∧ Overwrites s u x off (src.take (round off src.length)) := by
  have positive := List.length_pos_of_ne_nil some
  have there : t.lookup x (off / bsize) = a := reaches.there
  have present : t.lookup x (off / bsize) ≠ 0 := there ▸ reaches.nonzero
  have data := Node.ofBn_isData (off / bsize)
  have next := reaches.sound sound
  have before := reaches.frame
  have target := (before.live x).mpr live
  rw [← there] at written
  subst u
  refine ⟨before.trans (logWrite_frame next.owned target present),
    logWrite_sound next target data present, ?_⟩
  intro y i here inside
  have : off % bsize < bsize := Nat.mod_lt _ (by decide)
  rw [byteAt_logWrite next.owned target present _ (by omega) ((before.live y).mpr here) inside,
    reaches.byteAt live, reaches.byteAt here]
  rw [List.length_take]
  unfold round
  omega

/-- The loop of `writei` overwrites the range and changes nothing else. -/
theorem writeLoop_spec {left : Nat} {src : List UInt8} (sound : Sound s) (live : s.Live (.core ip))
    (rounds : src.length ≤ left) (bound : off + src.length ≤ maxfile * bsize)
    (done : s.writeLoop ip left off src = some t) :
    Frame s t ∧ Sound t ∧ Overwrites s t (.core ip) off src := by
  induction left generalizing s off src with
  | zero =>
    obtain rfl : src = [] := List.eq_nil_of_length_eq_zero (by omega)
    cases done
    exact ⟨.refl _, sound, overwrites_nil _ _ off⟩
  | succ left ih =>
    unfold writeLoop at done
    split at done
    · rename_i nothing
      subst src
      cases done
      exact ⟨.refl _, sound, overwrites_nil _ _ off⟩
    · rename_i something
      have some := List.length_pos_of_ne_nil something
      have cut : min src.length (bsize - off % bsize) = round off src.length := rfl
      have inside : off / bsize < maxfile := div_lt_maxfile (by omega)
      have shorter : round off src.length ≤ src.length := Nat.min_le_left _ _
      simp only [cut, Option.bind_eq_bind] at done
      obtain ⟨⟨a, u⟩, mapped, done⟩ := Option.bind_eq_some_iff.mp done
      obtain ⟨a, u, found, reaches⟩ | ⟨none, -⟩ := bmap_finds sound.owned sound.reserved live inside
      · cases found.symm.trans mapped
        have positive := round_pos off some
        obtain ⟨frame, next, first⟩ := write_round sound live something bound reaches rfl
        obtain ⟨later, last, second⟩ := ih next ((frame.live _).mpr live)
          (by rw [List.length_drop]; omega) (by rw [List.length_drop]; omega) done
        exact ⟨frame.trans later, last, first.append frame second shorter⟩
      · cases none.symm.trans mapped

end State
end Aso.Xv6.Fs
