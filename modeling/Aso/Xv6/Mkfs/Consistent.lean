import Aso.Xv6.Fs.Icache
import Aso.Xv6.Mkfs.Image

/-! What the kernel relies on in the image: the blocks of every inode up to its
size are mapped, the bitmap covers the blocks in use, and inode numbers stay
below the count in the superblock. Padding the root directory breaks the first
when its entries end with a block, and mkfs does not count inodes. -/
namespace Aso.Xv6.Mkfs
open Fs

/-- The image as the kernel's file system state. -/
def view (img : Img) : State := { mount img.disk fun _ => ⟨none, none⟩ with sb := sb }

/-- The inodes that mkfs allocated. -/
def Img.Allocated (img : Img) (inum : Nat) : Prop := 1 ≤ inum ∧ inum < img.freeinode

structure Consistent (img : Img) : Prop where
  super : readsb (img.disk 1) = sb
  mapped : ∀ inum bn, img.Allocated inum → bn * bsize < ((view img).dinode inum).size →
    sb.IsData ((view img).addr (.disk inum) (.ofBn bn))
  once : ∀ x y m n, img.Allocated x → img.Allocated y → (view img).addr (.disk x) m ≠ 0 →
    (view img).addr (.disk x) m = (view img).addr (.disk y) n → x = y ∧ m = n
  bitmap : ∀ b < sb.size, (view img).used b = true ↔
    b < sb.dataStart ∨ ∃ inum n, img.Allocated inum ∧ (view img).addr (.disk inum) n = b
  numbers : ∀ inum, img.Allocated inum → inum < sb.ninodes

theorem readsb_blank : readsb (blank.disk 1) = sb := by decide

theorem dataStart_eq : sb.dataStart = nmeta := by decide

theorem view_addr (img : Img) (inum : Nat) (n : Node) :
    (view img).addr (.disk inum) n = place img.disk (dinode img.disk inum) n :=
  addr_eq_place _ _ n

theorem bit_bits {used i : Nat} (small : used ≤ bsize * 8) :
    (Img.bits used).bit i = decide (i < used) := by
  induction used with
  | zero => simp [Img.bits, Bytes.bit]
  | succ used ih =>
    rw [Img.bits, List.range_succ, List.foldl_append, List.foldl_cons, List.foldl_nil,
      Bytes.bit_setBit _ (by rw [Nat.mul_comm]; exact small), ← Img.bits,
      ih (Nat.le_of_succ_le small), Bool.eq_iff_iff, Bool.or_eq_true, decide_eq_true_eq,
      decide_eq_true_eq, decide_eq_true_eq]
    omega

section
variable {img : Img} {content : Nat → List UInt8} {files : List File}

/-- The tree of an inode without content is empty. -/
theorem Laid.place_of_nil {disk : Nat → Block} {top count y : Nat} {inode : Nat → Dinode}
    (laid : Laid disk top count inode content) (live : y < count) (empty : content y = [])
    (n : Node) : place disk (inode y) n = 0 := by
  have index : (inode y).addrs indirect = 0 := by
    by_contra present
    rw [← Ne, laid.index y live, empty] at present
    exact absurd present (by decide)
  have single := laid.single y live
  cases n with
  | root i =>
    by_contra present
    rcases Nat.lt_or_ge i.val ndirect with direct | past
    · have mapped := (laid.mapped y i.val live (by rw [maxAppend]; omega)).mp
        (by rw [ofBn_direct direct]; exact present)
      rw [empty] at mapped
      exact absurd mapped (Nat.not_lt_zero _)
    · have last : i = indirect ∨ i = double := by
        simp only [Fin.ext_iff, indirect, double]
        omega
      rcases last with rfl | rfl
      · exact present index
      · exact present single
  | single j => exact if_pos index
  | level1 j => exact if_pos single
  | leaf j k => simp only [place, single, if_true]

/-- The bitmap has the bits of the blocks handed out. -/
theorem used_iff_of_bits (bitmap : img.disk sb.bmapstart = Img.bits img.freeblock)
    (clear : ∀ b, sb.bmapstart < b → b < nmeta → img.disk b = .zero)
    (first : img.freeblock < bsize * 8) {b : Nat} (bound : b < sb.size) :
    (view img).used b = true ↔ b < img.freeblock := by
  rw [State.used]
  change ((img.disk (b / bpb + sb.bmapstart)).bit (b % bpb)) = true ↔ _
  have whole : bpb = bsize * 8 := rfl
  rcases Nat.lt_or_ge b bpb with low | high
  · rw [Nat.div_eq_of_lt low, Nat.mod_eq_of_lt low, Nat.zero_add, bitmap, bit_bits first.le,
      decide_eq_true_eq]
  · have before : b / bpb + sb.bmapstart < nmeta := by
      change b < 20000 at bound
      change b / 4096 + 58 < 63
      omega
    have some : 1 ≤ b / bpb := (Nat.one_le_div_iff (by decide)).mpr high
    rw [clear _ (by omega) before]
    refine iff_of_false ?_ (by omega)
    simp [Bytes.bit]

theorem Finished.used_iff (finished : Finished img content) {b : Nat} (bound : b < sb.size) :
    (view img).used b = true ↔ b < img.freeblock :=
  used_iff_of_bits finished.bitmap finished.clear finished.first bound

theorem Finished.bitmap_iff (finished : Finished img content) (zero : content 0 = []) {b : Nat}
    (bound : b < sb.size) : (view img).used b = true ↔
      b < sb.dataStart ∨ ∃ inum n, img.Allocated inum ∧ (view img).addr (.disk inum) n = b := by
  rw [finished.used_iff bound, dataStart_eq]
  have laid := finished.laid
  constructor
  · intro taken
    rcases Nat.lt_or_ge b nmeta with early | late
    · exact .inl early
    · right
      obtain ⟨y, n, live, there⟩ := laid.onto b late taken
      refine ⟨y, n, ⟨?_, live⟩, there⟩
      by_contra none
      obtain rfl := Nat.lt_one_iff.mp (Nat.lt_of_not_le none)
      rw [laid.place_of_nil live zero] at there
      have : 0 < nmeta := by decide
      omega
  · rintro (early | ⟨y, n, ⟨-, live⟩, rfl⟩)
    · exact early.trans_le laid.start
    · rw [view_addr]
      by_cases empty : place img.disk (dinode img.disk y) n = 0
      · have : 0 < nmeta := by decide
        have := laid.start
        omega
      · exact (laid.data y n live empty).2

end

section Counting
variable {img next : Img} {x fbn : Nat} {d : Dinode}

theorem winode_freeinode (done : img.winode x d = .ok next) : next.freeinode = img.freeinode := by
  obtain ⟨buf, -, rest⟩ := Checked.bind_ok.mp done
  cases rest
  rfl

theorem mapAddr_freeinode (i : Fin (ndirect + 2)) :
    (img.mapAddr i d).2.freeinode = img.freeinode := by
  rw [Img.mapAddr]
  split <;> rfl

theorem mapIndirect_freeinode {a i r : Nat} (done : img.mapIndirect a i = .ok (r, next)) :
    next.freeinode = img.freeinode := by
  obtain ⟨buf, -, rest⟩ := Checked.bind_ok.mp done
  split at rest
  · cases rest
  · split at rest <;> cases rest <;> rfl

theorem mapBlock_freeinode {r : Nat} {din : Dinode}
    (done : img.mapBlock fbn d = .ok (r, din, next)) : next.freeinode = img.freeinode := by
  rw [Img.mapBlock] at done
  split at done
  · cases done
    exact mapAddr_freeinode _
  · obtain ⟨⟨a, mid⟩, entry, rest⟩ := Checked.bind_ok.mp done
    cases rest
    exact (mapIndirect_freeinode entry).trans (mapAddr_freeinode _)

theorem appendLoop_freeinode {left off : Nat} {p : List UInt8} {din : Dinode} {r : Nat}
    (done : Img.appendLoop left d off p img = .ok (din, r, next)) :
    next.freeinode = img.freeinode := by
  induction left generalizing d off p img with
  | zero =>
    cases done
    rfl
  | succ left ih =>
    rw [Img.appendLoop] at done
    split at done
    · cases done
      rfl
    · dsimp only at done
      split at done
      · cases done
      · obtain ⟨⟨a, d', mid⟩, mapped, rest⟩ := Checked.bind_ok.mp done
        obtain ⟨buf, -, rest⟩ := Checked.bind_ok.mp rest
        exact (ih rest).trans (show mid.freeinode = img.freeinode from mapBlock_freeinode mapped)

theorem iappend_freeinode {p : List UInt8} (done : img.iappend x p = .ok next) :
    next.freeinode = img.freeinode := by
  obtain ⟨din, -, rest⟩ := Checked.bind_ok.mp done
  obtain ⟨⟨din', off, mid⟩, loop, rest⟩ := Checked.bind_ok.mp rest
  exact (winode_freeinode rest).trans (appendLoop_freeinode loop)

theorem copyLoop_freeinode {left : Nat} {p : List UInt8} (done : img.copyLoop x left p = .ok next) :
    next.freeinode = img.freeinode := by
  induction left generalizing p img with
  | zero =>
    cases done
    rfl
  | succ left ih =>
    rw [Img.copyLoop] at done
    split at done
    · cases done
      rfl
    · obtain ⟨mid, append, rest⟩ := Checked.bind_ok.mp done
      exact (ih rest).trans (iappend_freeinode append)

theorem addFile_freeinode {f : File} (done : img.addFile f = .ok next) :
    next.freeinode = img.freeinode + 1 := by
  rw [Img.addFile] at done
  split at done
  · cases done
  · obtain ⟨⟨inum, made⟩, alloc, rest⟩ := Checked.bind_ok.mp done
    obtain ⟨mid, root, rest⟩ := Checked.bind_ok.mp rest
    obtain ⟨made', write, same⟩ := Checked.bind_ok.mp alloc
    cases same
    rw [copyLoop_freeinode rest, iappend_freeinode root, winode_freeinode write]

theorem addFiles_freeinode {files : List File} (done : img.addFiles files = .ok next) :
    next.freeinode = img.freeinode + files.length := by
  induction files generalizing img with
  | nil =>
    cases done
    rfl
  | cons f rest ih =>
    obtain ⟨mid, first, more⟩ := Checked.bind_ok.mp done
    rw [ih more, addFile_freeinode first, List.length_cons]
    omega

/-- mkfs allocates an inode for the root and for each file, however many. -/
theorem mkfs_freeinode {files : List File} (done : mkfs files = .ok next) :
    next.freeinode = files.length + 2 := by
  obtain ⟨img, root, count, -⟩ := makeRoot_built
  rw [mkfs, root, Checked.ok_bind] at done
  obtain ⟨mid, added, rest⟩ := Checked.bind_ok.mp done
  obtain ⟨fixed, fix, rest⟩ := Checked.bind_ok.mp rest
  obtain ⟨din, -, write⟩ := Checked.bind_ok.mp fix
  rw [Img.balloc] at rest
  split at rest
  · cases rest
    change fixed.freeinode = _
    rw [winode_freeinode write, addFiles_freeinode added, count, Nat.add_comm]
  · cases rest

end Counting

section
variable {img : Img} {content : Nat → List UInt8} {files : List File}

theorem Finished.isData_iff (finished : Finished img content) {y bn : Nat}
    (live : y < img.freeinode) (bound : bn < maxAppend) :
    sb.IsData ((view img).addr (.disk y) (.ofBn bn)) ↔ bn * bsize < (content y).length := by
  have laid := finished.laid
  rw [view_addr, ← laid.mapped y bn live bound]
  constructor
  · exact Superblock.IsData.ne_zero
  · intro present
    have bounds := laid.data y _ live present
    exact ⟨dataStart_eq ▸ bounds.1, bounds.2.trans (finished.first.trans (by decide))⟩

/-- All blocks up to the sizes are mapped unless the root directory ends with a block. -/
theorem Finished.mapped_iff (finished : Finished img content) (root : img.Allocated rootino)
    (entries : (content rootino).length < maxAppend * bsize) :
    (∀ inum bn, img.Allocated inum → bn * bsize < ((view img).dinode inum).size →
      sb.IsData ((view img).addr (.disk inum) (.ofBn bn))) ↔
      (content rootino).length % bsize ≠ 0 := by
  have size {y : Nat} (live : y < img.freeinode) : ((view img).dinode y).size = _ :=
    finished.size y live
  have last : (content rootino).length / bsize < maxAppend :=
    Nat.div_lt_of_lt_mul (by rw [Nat.mul_comm]; exact entries)
  constructor
  · intro mapped
    have inside := (finished.isData_iff root.2 last).mp <| mapped rootino _ root <| by
      rw [size root.2, if_pos rfl]
      simp only [bsize]
      omega
    simp only [bsize] at inside ⊢
    omega
  · intro partly inum bn allocated inside
    rw [size allocated.2] at inside
    split at inside
    · next same =>
      subst same
      have index : bn ≤ (content rootino).length / bsize := by
        simp only [bsize] at inside ⊢
        omega
      rw [finished.isData_iff root.2 (index.trans_lt last)]
      simp only [bsize] at partly index ⊢
      omega
    · have short := finished.laid.short inum allocated.2
      have bound : bn < maxAppend := Nat.lt_of_mul_lt_mul_right (inside.trans_le short)
      exact (finished.isData_iff allocated.2 bound).mpr inside

theorem allocated_below_iff (done : mkfs files = .ok img) :
    (∀ inum, img.Allocated inum → inum < sb.ninodes) ↔ files.length ≤ 198 := by
  have count := mkfs_freeinode done
  have ninodes : sb.ninodes = 200 := rfl
  constructor
  · intro below
    have := below (files.length + 1) ⟨by omega, by omega⟩
    omega
  · rintro few inum ⟨-, live⟩
    omega

theorem consistent_iff_of_few (few : files.length ≤ 198) (done : mkfs files = .ok img) :
    Consistent img ↔ (files.length + 2) % 32 ≠ 0 := by
  obtain ⟨count, finished⟩ := mkfs_finished (by change files.length + 2 ≤ 208; omega) done
  have root : img.Allocated rootino := ⟨le_rfl, by rw [count]; exact Nat.lt_add_left _ (by decide)⟩
  have length := length_contents_files files
  have mapped := finished.mapped_iff root (by rw [length]; change _ < 139 * 512; omega)
  have multiple : (contents files 2 rootEntries rootino).length % bsize ≠ 0 ↔
      (files.length + 2) % 32 ≠ 0 := by
    rw [length]
    simp only [bsize]
    omega
  constructor
  · intro consistent
    exact multiple.mp (mapped.mp consistent.mapped)
  · intro partly
    refine ⟨finished.super.symm ▸ readsb_blank, mapped.mpr (multiple.mpr partly), ?_, ?_,
      (allocated_below_iff done).mpr few⟩
    · intro x y m n live live' present same
      rw [view_addr] at present same
      rw [view_addr] at same
      exact finished.laid.once x y m n live.2 live'.2 present same
    · intro b bound
      refine finished.bitmap_iff ?_ bound
      exact (contents_earlier (by decide) (by decide)).trans (Function.update_of_ne (by decide) _ _)

/-- The image is what the kernel relies on exactly if the entries of the root do
not end with a block and the files get inode numbers below `ninodes`. -/
theorem mkfs_consistent_iff (done : mkfs files = .ok img) :
    Consistent img ↔ files.length ≤ 198 ∧ (files.length + 2) % 32 ≠ 0 := by
  constructor
  · intro consistent
    have few := (allocated_below_iff done).mp consistent.numbers
    exact ⟨few, (consistent_iff_of_few few done).mp consistent⟩
  · rintro ⟨few, partly⟩
    exact (consistent_iff_of_few few done).mpr partly

theorem one_file_consistent : ∃ img, mkfs [⟨[97], [104, 105]⟩] = .ok img ∧ Consistent img := by
  obtain ⟨img, done⟩ := mkfs_ok [⟨[97], [104, 105]⟩] (by decide) (by decide) (by decide) (by decide)
  exact ⟨img, done, (mkfs_consistent_iff done).mpr (by decide)⟩

/-- With 30 empty files the root has 32 entries, one block; its padded size has a second. -/
theorem thirty_files_inconsistent :
    ∃ img, mkfs ((List.range 30).map fun k => ⟨[UInt8.ofNat (97 + k)], []⟩) = .ok img ∧
      ¬ Consistent img := by
  obtain ⟨img, done⟩ := mkfs_ok ((List.range 30).map fun k => ⟨[UInt8.ofNat (97 + k)], []⟩)
    (by decide) (by decide) (by decide) (by decide)
  refine ⟨img, done, ?_⟩
  rw [consistent_iff_of_few (by decide) done]
  decide

end
end Aso.Xv6.Mkfs
