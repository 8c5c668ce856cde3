import Aso.Xv6.Mkfs.Append
import Mathlib.Algebra.BigOperators.Group.Finset.Basic

/-! The image through the run of mkfs: after every call the inodes made so far
hold the contents written so far. -/
namespace Aso.Xv6.Mkfs
open Fs

/-- The inodes that the inode blocks hold. -/
def inodeRoom : Nat := ninodeblocks * ipb

/-- The inodes that mkfs puts before the data; it does not count them, and those past `inodeRoom`
are written into the blocks of the bitmap. -/
def dinodeRoom : Nat := (nmeta - sb.inodestart) * ipb

def dinode (disk : Nat → Block) (inum : Nat) : Dinode :=
  .decode (disk (sb.iblock inum)) (dinodeSize * (inum % ipb))

def setDinode (disk : Nat → Block) (inum : Nat) (d : Dinode) : Nat → Block :=
  Function.update disk (sb.iblock inum)
    ((disk (sb.iblock inum)).write (dinodeSize * (inum % ipb)) d.encode)

section Inodes
variable {disk disk' : Nat → Block} {x y b : Nat} {d : Dinode} {img : Img}

theorem iblock_lt (room : x < inodeRoom) : sb.iblock x < sb.bmapstart := by
  change x / 8 + 32 < 58
  change x < 208 at room
  omega

theorem iblock_lt_nmeta (room : x < dinodeRoom) : sb.iblock x < nmeta := by
  change x / 8 + 32 < 63
  change x < 248 at room
  omega

theorem inodeRoom_le : inodeRoom ≤ dinodeRoom := by decide

theorem iblock_ge (x : Nat) : sb.inodestart ≤ sb.iblock x := Nat.le_add_left _ _

theorem bmapstart_lt : sb.bmapstart < nmeta := by decide

theorem rinode_eq (room : x < dinodeRoom) : img.rinode x = .ok (dinode img.disk x) := by
  have sector : sb.iblock x < fsSize := (iblock_lt_nmeta room).trans (by decide)
  rw [Img.rinode, rsect_eq sector]
  rfl

theorem winode_eq (room : x < dinodeRoom) :
    img.winode x d = .ok { img with disk := setDinode img.disk x d } := by
  have sector : sb.iblock x < fsSize := (iblock_lt_nmeta room).trans (by decide)
  rw [Img.winode, rsect_eq sector, Checked.ok_bind, wsect_eq _ sector]
  rfl

theorem setDinode_other (other : b ≠ sb.iblock x) : setDinode disk x d b = disk b :=
  Function.update_of_ne other _ _

theorem dinode_setDinode_same (size : d.size < 2 ^ 32) (addrs : ∀ i, d.addrs i < 2 ^ 32) :
    dinode (setDinode disk x d) x = d := by
  rw [dinode, setDinode, Function.update_self]
  refine Dinode.decode_write_same d _ ?_ size addrs
  change 64 * (x % 8) + 64 ≤ 512
  omega

theorem dinode_setDinode_other (other : y ≠ x) : dinode (setDinode disk x d) y = dinode disk y := by
  by_cases block : sb.iblock y = sb.iblock x
  · rw [dinode, dinode, block, setDinode, Function.update_self]
    apply Dinode.decode_write_other
    change y / 8 + 32 = x / 8 + 32 at block
    change 64 * (y % 8) + 64 ≤ 64 * (x % 8) ∨ 64 * (x % 8) + 64 ≤ 64 * (y % 8)
    omega
  · rw [dinode, dinode, setDinode_other block]

theorem dinode_congr (room : y < dinodeRoom) (low : ∀ b < nmeta, disk' b = disk b) :
    dinode disk' y = dinode disk y := by
  rw [dinode, dinode, low _ (iblock_lt_nmeta room)]

end Inodes

/-- Type of inode `y` when the inodes below `count` are allocated. -/
def kindOf (count y : Nat) : Int16 :=
  if y = 0 ∨ count ≤ y then 0 else if y = rootino then tDir else tFile

theorem kindOf_succ {count y : Nat} (other : y ≠ count) :
    kindOf (count + 1) y = kindOf count y := by
  have same : count + 1 ≤ y ↔ count ≤ y := by omega
  simp only [kindOf, same]

/-- The image between two calls of main. -/
structure Built (img : Img) (content : Nat → List UInt8) : Prop where
  few : img.freeinode ≤ dinodeRoom
  laid : Laid img.disk img.freeblock img.freeinode (dinode img.disk) content
  size : ∀ y < img.freeinode, (dinode img.disk y).size = (content y).length
  type : ∀ y < dinodeRoom, (dinode img.disk y).type = kindOf img.freeinode y
  sectors : ∀ b < nmeta, (∀ y < img.freeinode, sb.iblock y ≠ b) → img.disk b = blank.disk b
  unused : ∀ y, img.freeinode ≤ y → content y = []
  total : img.freeblock = nmeta + ∑ y ∈ Finset.range img.freeinode, blocksFor (content y).length

theorem Laid.addr_lt {disk : Nat → Block} {top count y : Nat} {inode : Nat → Dinode}
    {content : Nat → List UInt8} (laid : Laid disk top count inode content) (live : y < count)
    (i : Fin (ndirect + 2)) : (inode y).addrs i < 2 ^ 32 := by
  have size : fsSize < 2 ^ 32 := by decide
  by_cases empty : (inode y).addrs i = 0
  · rw [empty]
    decide
  · exact (laid.data y (.root i) live empty).2.trans_le (laid.fits.trans size.le)

/-- The blocks of all inodes when the content of one changes. -/
theorem sum_blocksFor_update {count x : Nat} (live : x < count) (content : Nat → List UInt8)
    (now : List UInt8) :
    ∑ y ∈ Finset.range count, blocksFor (Function.update content x now y).length +
        blocksFor (content x).length =
      ∑ y ∈ Finset.range count, blocksFor (content y).length + blocksFor now.length := by
  have member := Finset.mem_range.mpr live
  have others : ∑ y ∈ (Finset.range count).erase x,
        blocksFor (Function.update content x now y).length =
      ∑ y ∈ (Finset.range count).erase x, blocksFor (content y).length := by
    refine Finset.sum_congr rfl fun y there => ?_
    rw [Function.update_of_ne (Finset.ne_of_mem_erase there)]
  rw [← Finset.add_sum_erase _ _ member,
    ← Finset.add_sum_erase _ (fun y => blocksFor (content y).length) member, others,
    Function.update_self]
  omega

/-- The results of appending `p` to the content of `x`. -/
inductive Extended (img : Img) (content : Nat → List UInt8) (x : Nat) (p : List UInt8) :
    Except Stop Img → Prop where
  | ok {next : Img} (count : next.freeinode = img.freeinode)
      (built : Built next (Function.update content x (content x ++ p)))
      (cost : next.freeblock + blocksFor (content x).length =
        img.freeblock + blocksFor ((content x).length + p.length)) :
      Extended img content x p (.ok next)
  | full (exceeds : fsSize + blocksFor (content x).length <
        img.freeblock + blocksFor (min ((content x).length + p.length) (maxAppend * bsize))) :
      Extended img content x p (.error .exit)
  | overrun (exceeds : maxAppend * bsize < (content x).length + p.length) :
      Extended img content x p (.error .outOfBounds)

section Calls
variable {img : Img} {content : Nat → List UInt8} {x : Nat} {p : List UInt8}

theorem iappend_extended (built : Built img content) (live : x < img.freeinode) (p : List UInt8) :
    Extended img content x p (img.iappend x p) := by
  have room : x < dinodeRoom := live.trans_le built.few
  rw [Img.iappend, rinode_eq room, Checked.ok_bind, built.size x live]
  have appended := appendLoop_appended p.length _ p img (dinode img.disk) content built.laid
    live rfl le_rfl
  generalize Img.appendLoop p.length (dinode img.disk x) (content x).length p img =
    result at appended
  cases appended with
  | full exceeds => exact .full exceeds
  | overrun exceeds => exact .overrun exceeds
  | @ok din disk top type laid low cost =>
    rw [Checked.ok_bind]
    dsimp only
    rw [winode_eq room]
    have old {y : Nat} (there : y < dinodeRoom) : dinode disk y = dinode img.disk y :=
      dinode_congr there low
    have short := laid.short x live
    rw [Function.update_self, List.length_append] at short
    have same : dinode (setDinode disk x { din with size := (content x).length + p.length }) x =
        { din with size := (content x).length + p.length } := by
      apply dinode_setDinode_same
      · exact short.trans_lt (by decide)
      · have small := laid.addr_lt live
        rw [Function.update_self] at small
        exact small
    refine .ok rfl ⟨built.few, ?_, ?_, ?_, ?_, ?_, ?_⟩ cost
    · apply laid.relabel
      · intro b above
        exact setDinode_other (by have := iblock_lt_nmeta room; omega)
      · intro y there
        obtain rfl | other := eq_or_ne y x
        · rw [same, Function.update_self]
        · rw [dinode_setDinode_other other, old (there.trans_le built.few),
            Function.update_of_ne other]
    · intro y there
      obtain rfl | other := eq_or_ne y x
      · rw [same, Function.update_self, List.length_append]
      · rw [dinode_setDinode_other other, old (there.trans_le built.few),
          Function.update_of_ne other]
        exact built.size y there
    · intro y there
      obtain rfl | other := eq_or_ne y x
      · rw [same]
        exact type.trans (built.type y there)
      · rw [dinode_setDinode_other other, old there]
        exact built.type y there
    · intro b early outside
      have kept := (low b early).trans (built.sectors b early outside)
      exact (setDinode_other (outside x live).symm).trans kept
    · intro y beyond
      rw [Function.update_of_ne (by rintro rfl; exact absurd live (Nat.not_lt.mpr beyond))]
      exact built.unused y beyond
    · have sum := sum_blocksFor_update live content (content x ++ p)
      have total := built.total
      rw [List.length_append] at sum
      dsimp only
      omega

/-- Appending in two pieces. -/
theorem Extended.append {q : List UInt8} {next : Img} {result : Except Stop Img}
    (count : next.freeinode = img.freeinode) (cost : next.freeblock + blocksFor (content x).length =
      img.freeblock + blocksFor ((content x).length + p.length))
    (rest : Extended next (Function.update content x (content x ++ p)) x q result) :
    Extended img content x (p ++ q) result := by
  have whole : (content x).length + (p ++ q).length = (content x).length + p.length + q.length := by
    rw [List.length_append, Nat.add_assoc]
  have length :
      (Function.update content x (content x ++ p) x).length = (content x).length + p.length := by
    rw [Function.update_self, List.length_append]
  cases rest with
  | ok count' built cost' =>
    rw [length] at cost'
    rw [Function.update_idem, Function.update_self, List.append_assoc] at built
    exact .ok (count'.trans count) built (by rw [whole]; omega)
  | full exceeds =>
    rw [length] at exceeds
    exact .full (by rw [whole]; omega)
  | overrun exceeds =>
    rw [length] at exceeds
    exact .overrun (by rw [whole]; omega)

theorem Extended.fits {result : Except Stop Img} (extended : Extended img content x p result)
    (short : (content x).length + p.length ≤ maxAppend * bsize)
    (room : img.freeblock + blocksFor ((content x).length + p.length) ≤ fsSize) :
    ∃ next, result = .ok next ∧ next.freeinode = img.freeinode ∧
      Built next (Function.update content x (content x ++ p)) ∧
      next.freeblock + blocksFor (content x).length =
      img.freeblock + blocksFor ((content x).length + p.length) := by
  cases extended with
  | ok count built cost => exact ⟨_, rfl, count, built, cost⟩
  | full exceeds =>
    rw [Nat.min_eq_left short] at exceeds
    omega
  | overrun exceeds => exact absurd exceeds (Nat.not_lt.mpr short)

theorem Extended.nil (built : Built img content) : Extended img content x [] (.ok img) := by
  refine .ok rfl ?_ rfl
  rw [List.append_nil, Function.update_eq_self]
  exact built

theorem copyLoop_extended (left : Nat) (data : List UInt8) (img : Img) (content : Nat → List UInt8)
    (built : Built img content) (live : x < img.freeinode) (enough : data.length ≤ left) :
    Extended img content x data (Img.copyLoop x left data img) := by
  induction left generalizing data img content with
  | zero =>
    obtain rfl := List.length_eq_zero_iff.mp (Nat.le_zero.mp enough)
    exact .nil built
  | succ left ih =>
    rw [Img.copyLoop]
    split
    · next done =>
      subst done
      exact .nil built
    · next more =>
      have positive := List.length_pos_iff.mpr more
      have first := iappend_extended built live (data.take bsize)
      generalize img.iappend x (data.take bsize) = result at first
      have length : (data.take bsize).length ≤ data.length := List.length_take_le' _ _
      cases first with
      | ok count built' cost =>
        have second := ih (data.drop bsize) _ _ built' (count ▸ live)
          (by rw [List.length_drop]; simp only [bsize]; omega)
        have both := Extended.append count cost second
        rw [List.take_append_drop] at both
        exact both
      | full exceeds =>
        have more :
            blocksFor (min ((content x).length + (data.take bsize).length) (maxAppend * bsize)) ≤
            blocksFor (min ((content x).length + data.length) (maxAppend * bsize)) :=
              blocksFor_mono (by omega)
        exact .full (by omega)
      | overrun exceeds => exact .overrun (by omega)

/-- A new inode has no content. -/
theorem ialloc_built {type : Int16} (built : Built img content) (room : img.freeinode < dinodeRoom)
    (positive : img.freeinode ≠ 0) (kind : type = if img.freeinode = rootino then tDir else tFile) :
    ∃ next, img.ialloc type = .ok (img.freeinode, next) ∧ next.freeinode = img.freeinode + 1 ∧
      next.freeblock = img.freeblock ∧ Built next content := by
  let d : Dinode := ⟨type, 0, 0, 1, 0, fun _ => 0⟩
  have same : dinode (setDinode img.disk img.freeinode d) img.freeinode = d :=
    dinode_setDinode_same (Nat.two_pow_pos 32) fun _ => Nat.two_pow_pos 32
  refine ⟨{ img with disk := setDinode img.disk img.freeinode d, freeinode := img.freeinode + 1 },
    ?_, rfl, rfl, ?_⟩
  · rw [Img.ialloc, winode_eq room]
    rfl
  have old {y : Nat} (live : y < img.freeinode) :
      dinode (setDinode img.disk img.freeinode d) y = dinode img.disk y :=
      dinode_setDinode_other live.ne
  have empty := built.unused img.freeinode le_rfl
  have below := iblock_lt_nmeta room
  refine ⟨room, ?_, ?_, ?_, ?_, ?_, ?_⟩
  · refine Laid.alloc ?_ (fun _ => by rw [same]) empty
    apply built.laid.relabel
    · intro b high
      exact setDinode_other (by omega)
    · intro y live
      rw [old live]
  · intro y live
    obtain earlier | rfl := Nat.lt_succ_iff_lt_or_eq.mp live
    · exact (congrArg Dinode.size (old earlier)).trans (built.size y earlier)
    · rw [empty]
      exact congrArg Dinode.size same
  · intro y there
    obtain rfl | other := eq_or_ne y img.freeinode
    · rw [same, kindOf, if_neg]
      · exact kind
      · rintro (none | past)
        · exact positive none
        · exact Nat.not_succ_le_self _ past
    · rw [kindOf_succ other]
      exact (congrArg Dinode.type (dinode_setDinode_other other)).trans (built.type y there)
  · intro b early outside
    have apart : b ≠ sb.iblock img.freeinode := (outside _ (Nat.lt_succ_self _)).symm
    refine (setDinode_other apart).trans (built.sectors b early fun y live => ?_)
    exact outside y (live.trans (Nat.lt_succ_self _))
  · intro y beyond
    exact built.unused y (Nat.le_of_succ_le beyond)
  · change img.freeblock =
      nmeta + ∑ y ∈ Finset.range (img.freeinode + 1), blocksFor (content y).length
    rw [Finset.sum_range_succ, empty]
    exact built.total

end Calls

/-- The contents of the inodes after `files` are added, the first one as inode `inum`. -/
def contents : List File → Nat → (Nat → List UInt8) → Nat → List UInt8
  | [], _, content => content
  | f :: rest, inum, content => contents rest (inum + 1)
      (Function.update
      (Function.update content rootino (content rootino ++ Img.dirent inum f.entry)) inum f.content)

theorem length_dirent (inum : Nat) (name : List UInt8) : (Img.dirent inum name).length = 16 := by
  rw [Img.dirent, List.length_append, length_toLe, List.length_take, List.length_append,
    List.length_replicate, dirsiz]
  omega

section Contents
variable {files : List File} {inum y : Nat} {content : Nat → List UInt8}

theorem contents_earlier (before : y < inum) (other : y ≠ rootino) :
    contents files inum content y = content y := by
  induction files generalizing inum content with
  | nil => rfl
  | cons f rest ih =>
    rw [contents, ih (before.trans (Nat.lt_succ_self _)), Function.update_of_ne before.ne,
      Function.update_of_ne other]

theorem contents_file (later : rootino < inum) {k : Nat} (member : k < files.length) :
    contents files inum content (inum + k) = (files.get ⟨k, member⟩).content := by
  induction files generalizing inum content k with
  | nil => cases member
  | cons f rest ih =>
    rw [contents]
    cases k with
    | zero =>
      refine (contents_earlier (Nat.lt_succ_self inum) later.ne').trans ?_
      rw [Function.update_self]
      rfl
    | succ k =>
      have shift : inum + (k + 1) = inum + 1 + k := by omega
      rw [shift, ih (later.trans (Nat.lt_succ_self _)) (Nat.lt_of_succ_lt_succ member)]
      rfl

/-- The root directory gets an entry for each file. -/
theorem contents_root (later : rootino < inum) : contents files inum content rootino =
    content rootino ++ (files.zipIdx inum).flatMap fun (f, k) => Img.dirent k f.entry := by
  induction files generalizing inum content with
  | nil => exact (List.append_nil _).symm
  | cons f rest ih =>
    rw [contents, ih (later.trans (Nat.lt_succ_self _)), Function.update_of_ne later.ne,
      Function.update_self, List.zipIdx_cons, List.flatMap_cons, List.append_assoc]

theorem length_contents_root (later : rootino < inum) :
    (contents files inum content rootino).length =
    (content rootino).length + 16 * files.length := by
  induction files generalizing inum content with
  | nil => rfl
  | cons f rest ih =>
    rw [contents, ih (later.trans (Nat.lt_succ_self _)), Function.update_of_ne later.ne,
      Function.update_self, List.length_append, length_dirent, List.length_cons]
    omega

end Contents

/-- Enough blocks for the files and their directory entries. -/
def demand (files : List File) : Nat :=
  (files.map fun f => 2 + blocksFor (min f.content.length (maxAppend * bsize))).sum

/-- The results of adding files: a file whose name has a slash or that is too
long ends the run, and so does a full image. -/
inductive Added (img : Img) (content : Nat → List UInt8) (files : List File) :
    Except Stop Img → Prop where
  | ok {next : Img} (count : next.freeinode = img.freeinode + files.length)
      (built : Built next (contents files img.freeinode content))
      (cost : next.freeblock ≤ img.freeblock + demand files) :
      Added img content files (.ok next)
  | slash {f : File} (member : f ∈ files) (bad : slash ∈ f.name) :
      Added img content files (.error .assertion)
  | full (exceeds : fsSize < img.freeblock + demand files) : Added img content files (.error .exit)
  | overrun {f : File} (member : f ∈ files) (long : maxAppend * bsize < f.content.length) :
      Added img content files (.error .outOfBounds)

section Files
variable {img : Img} {content : Nat → List UInt8}

theorem blocksFor_entry (len : Nat) : blocksFor (len + 16) ≤ blocksFor len + 2 := by
  change (len + 16 + 511) / 512 + (if 11 * 512 < len + 16 then 1 else 0) ≤
    (len + 511) / 512 + (if 11 * 512 < len then 1 else 0) + 2
  split_ifs <;> omega

theorem addFile_added (f : File) (built : Built img content) (room : img.freeinode < dinodeRoom)
    (later : rootino < img.freeinode) (entries : (content rootino).length = 16 * img.freeinode) :
    Added img content [f] (img.addFile f) := by
  have need : demand [f] = 2 + blocksFor (min f.content.length (maxAppend * bsize)) :=
    Nat.add_zero _
  rw [Img.addFile]
  split
  · next bad => exact .slash (List.mem_singleton_self f) bad
  obtain ⟨made, alloc, count, top, built₁⟩ :=
    ialloc_built built room (by omega) (if_neg later.ne').symm
  rw [alloc, Checked.ok_bind]
  dsimp only
  have root := iappend_extended (x := rootino) built₁ (by omega) (Img.dirent img.freeinode f.entry)
  generalize made.iappend rootino (Img.dirent img.freeinode f.entry) = result at root
  have step := blocksFor_entry (content rootino).length
  cases root with
  | full exceeds =>
    rw [length_dirent] at exceeds
    have := blocksFor_mono (Nat.min_le_left ((content rootino).length + 16) (maxAppend * bsize))
    exact .full (by omega)
  | overrun exceeds =>
    -- The entries of all inodes fit into the root directory.
    rw [length_dirent, entries] at exceeds
    have : 16 * dinodeRoom + 16 ≤ maxAppend * bsize := by decide
    omega
  | ok count₁ built₂ cost =>
    rw [length_dirent] at cost
    rw [Checked.ok_bind]
    have file := copyLoop_extended f.content.length f.content _ _ built₂ (x := img.freeinode)
      (by omega) le_rfl
    have other : img.freeinode ≠ rootino := later.ne'
    have empty : Function.update content rootino
        (content rootino ++ Img.dirent img.freeinode f.entry) img.freeinode = [] := by
      rw [Function.update_of_ne other]
      exact built.unused _ le_rfl
    have none : blocksFor 0 = 0 := by decide
    generalize Img.copyLoop img.freeinode f.content.length f.content _ = result at file
    cases file with
    | full exceeds =>
      rw [empty, List.length_nil, Nat.zero_add] at exceeds
      exact .full (by omega)
    | overrun exceeds =>
      rw [empty, List.length_nil, Nat.zero_add] at exceeds
      exact .overrun (List.mem_singleton_self f) exceeds
    | ok count₂ built₃ cost₂ =>
      have short := built₃.laid.short img.freeinode (by omega)
      rw [Function.update_self] at short
      rw [empty, List.nil_append] at built₃ short
      rw [empty, List.length_nil, Nat.zero_add] at cost₂
      refine .ok (by rw [List.length_singleton]; omega) built₃ ?_
      rw [need, Nat.min_eq_left short]
      omega

theorem demand_cons (f : File) (rest : List File) :
    demand (f :: rest) = demand [f] + demand rest := by
  simp only [demand, List.map_cons, List.map_nil, List.sum_cons, List.sum_nil, Nat.add_zero]

theorem Added.cons {f : File} {rest : List File} {next : Img} {result : Except Stop Img}
    (count : next.freeinode = img.freeinode + 1)
    (cost : next.freeblock ≤ img.freeblock + demand [f])
    (more : Added next (contents [f] img.freeinode content) rest result) :
    Added img content (f :: rest) result := by
  have need := demand_cons f rest
  cases more with
  | ok count' built cost' =>
    rw [count] at built
    exact .ok (by rw [List.length_cons]; omega) built (by omega)
  | slash member bad => exact .slash (List.mem_cons_of_mem f member) bad
  | full exceeds => exact .full (by omega)
  | overrun member long => exact .overrun (List.mem_cons_of_mem f member) long

theorem addFiles_added (files : List File) (img : Img) (content : Nat → List UInt8)
    (built : Built img content) (room : img.freeinode + files.length ≤ dinodeRoom)
    (later : rootino < img.freeinode) (entries : (content rootino).length = 16 * img.freeinode) :
    Added img content files (img.addFiles files) := by
  induction files generalizing img content with
  | nil => exact .ok rfl built (Nat.le_add_right _ _)
  | cons f rest ih =>
    rw [List.length_cons] at room
    have first := addFile_added f built (by omega) later entries
    rw [Img.addFiles]
    generalize img.addFile f = result at first
    have need := demand_cons f rest
    cases first with
    | slash member bad => exact .slash (List.mem_singleton.mp member ▸ List.mem_cons_self) bad
    | full exceeds => exact .full (by omega)
    | overrun member long => exact .overrun (List.mem_singleton.mp member ▸ List.mem_cons_self) long
    | ok count built' cost =>
      refine .cons count cost (ih _ _ built' ?_ ?_ ?_)
      · rw [count, List.length_singleton]
        omega
      · rw [count]
        omega
      · rw [length_contents_root later, entries, count, List.length_singleton]
        omega

end Files

/-- The root directory before the files are added. -/
def rootEntries : Nat → List UInt8 :=
  Function.update (fun _ => []) rootino (Img.dirent rootino dot ++ Img.dirent rootino (dot ++ dot))

theorem length_rootEntries : (rootEntries rootino).length = 16 * 2 := by
  rw [rootEntries, Function.update_self, List.length_append, length_dirent, length_dirent]

theorem length_contents_files (files : List File) :
    (contents files 2 rootEntries rootino).length = 16 * (files.length + 2) := by
  rw [length_contents_root (by decide), length_rootEntries]
  omega

theorem blank_other {b : Nat} (other : b ≠ 1) : blank.disk b = .zero := by
  change Function.update (fun _ => Bytes.zero) 1 _ b = _
  rw [Function.update_of_ne other]

theorem blank_built : Built blank fun _ => [] := by
  have zero (b : Nat) (high : nmeta ≤ b) : blank.disk b = .zero := by
    apply blank_other
    rintro rfl
    exact absurd high (by decide)
  have none : Laid blank.disk nmeta 0 (dinode blank.disk) fun _ => [] := by
    refine ⟨⟨le_rfl, zero, nofun, nofun, ?_, nofun⟩, by decide, nofun, nofun, nofun, nofun⟩
    intro b low high
    exact absurd high (Nat.not_lt.mpr low)
  refine ⟨by decide, none.alloc (by decide) rfl, ?_, ?_, fun _ _ _ => rfl, fun _ _ => rfl,
    by decide⟩
  · intro y live
    obtain rfl := Nat.lt_one_iff.mp live
    decide
  · intro y there
    have block : sb.iblock y ≠ 1 := by
      have := iblock_ge y
      have : 1 < sb.inodestart := by decide
      omega
    have none : kindOf blank.freeinode y = 0 := if_pos (Nat.eq_zero_or_pos y)
    rw [none, dinode, blank_other block]
    simp only [Dinode.decode, Bytes.read_zero]
    rfl

theorem makeRoot_built : ∃ img, makeRoot = .ok img ∧ img.freeinode = 2 ∧ img.freeblock = nmeta + 1 ∧
    Built img rootEntries := by
  obtain ⟨made, alloc, count, top, built⟩ := ialloc_built blank_built (by decide) (by decide)
    (if_pos rfl).symm
  have live : rootino < made.freeinode := count ▸ by decide
  obtain ⟨img₁, append₁, count₁, built₁, cost₁⟩ :=
    (iappend_extended built live (Img.dirent rootino dot)).fits (by rw [length_dirent]; decide)
      (by rw [length_dirent, top]; decide)
  have length : (Function.update (fun _ => []) rootino ([] ++ Img.dirent rootino dot)
      rootino).length = 16 := by
    rw [Function.update_self, List.nil_append, length_dirent]
  rw [length_dirent, top] at cost₁
  have top₁ : img₁.freeblock = nmeta + 1 := cost₁
  obtain ⟨img₂, append₂, count₂, built₂, cost₂⟩ :=
    (iappend_extended built₁ (count₁ ▸ live) (Img.dirent rootino (dot ++ dot))).fits
      (by rw [length, length_dirent]; decide)
      (by rw [length, length_dirent, top₁]; decide)
  rw [length, length_dirent, top₁] at cost₂
  have number : blank.freeinode = rootino := rfl
  refine ⟨img₂, ?_, ?_, ?_, ?_⟩
  · rw [makeRoot, alloc, Checked.ok_bind]
    dsimp only
    rw [number, if_neg (not_not.mpr rfl), append₁, Checked.ok_bind, append₂]
  · rw [count₂, count₁, count]
    rfl
  · exact Nat.add_right_cancel cost₂
  · rw [Function.update_idem, Function.update_self] at built₂
    exact built₂

/-- The image that mkfs leaves. -/
structure Finished (img : Img) (content : Nat → List UInt8) : Prop where
  few : img.freeinode ≤ inodeRoom
  laid : Laid img.disk img.freeblock img.freeinode (dinode img.disk) content
  size : ∀ y < img.freeinode, (dinode img.disk y).size =
    if y = rootino then ((content y).length / bsize + 1) * bsize else (content y).length
  type : ∀ y < inodeRoom, (dinode img.disk y).type = kindOf img.freeinode y
  super : img.disk 1 = blank.disk 1
  bitmap : img.disk sb.bmapstart = Img.bits img.freeblock
  clear : ∀ b, sb.bmapstart < b → b < nmeta → img.disk b = .zero
  first : img.freeblock < bsize * 8

/-- The dinode of the root with its size rounded up. -/
def padded (disk : Nat → Block) : Dinode :=
  { dinode disk rootino with size := ((dinode disk rootino).size / bsize + 1) * bsize }

/-- The sectors after the root is padded and the bitmap written. -/
def finish (disk : Nat → Block) (used : Nat) : Nat → Block :=
  Function.update (setDinode disk rootino (padded disk)) sb.bmapstart (Img.bits used)

/-- The results of mkfs. -/
inductive Made (files : List File) : Except Stop Img → Prop where
  | ok {img : Img} (count : img.freeinode = files.length + 2)
      (built : Built img (contents files 2 rootEntries)) (first : img.freeblock < bsize * 8) :
      Made files (.ok { img with disk := finish img.disk img.freeblock })
  | slash {f : File} (member : f ∈ files) (bad : slash ∈ f.name) : Made files (.error .assertion)
  | large (exceeds : bsize * 8 ≤ nmeta + 1 + demand files) : Made files (.error .assertion)
  | full (exceeds : fsSize < nmeta + 1 + demand files) : Made files (.error .exit)
  | overrun {f : File} (member : f ∈ files) (long : maxAppend * bsize < f.content.length) :
      Made files (.error .outOfBounds)

section Finish
variable {img : Img} {content : Nat → List UInt8}

theorem fixRoot_eq (built : Built img content) (live : rootino < img.freeinode) :
    img.fixRoot = .ok { img with disk := setDinode img.disk rootino (padded img.disk) } := by
  have room : rootino < dinodeRoom := live.trans_le built.few
  rw [Img.fixRoot, rinode_eq room, Checked.ok_bind, winode_eq room]
  rfl

/-- The sectors that `main` writes last. -/
theorem finish_other {disk : Nat → Block} {used b : Nat} (apart : b ≠ sb.bmapstart)
    (apart' : b ≠ sb.iblock rootino) : finish disk used b = disk b := by
  rw [finish, Function.update_of_ne apart, setDinode_other apart']

theorem dinode_padded (built : Built img content) (live : rootino < img.freeinode) :
    dinode (setDinode img.disk rootino (padded img.disk)) rootino = padded img.disk := by
  have short := built.laid.short rootino live
  apply dinode_setDinode_same
  · change ((dinode img.disk rootino).size / bsize + 1) * bsize < 2 ^ 32
    rw [built.size rootino live]
    have : maxAppend * bsize + bsize < 2 ^ 32 := by decide
    have := Nat.div_mul_le_self (content rootino).length bsize
    rw [Nat.add_mul, Nat.one_mul]
    omega
  · exact built.laid.addr_lt live

theorem dinode_finish (built : Built img content) (live : rootino < img.freeinode) {y : Nat}
    (apart : sb.iblock y ≠ sb.bmapstart) : dinode (finish img.disk img.freeblock) y =
      if y = rootino then padded img.disk else dinode img.disk y := by
  rw [dinode, finish, Function.update_of_ne apart]
  change dinode (setDinode img.disk rootino (padded img.disk)) y = _
  split
  · next root => rw [root, dinode_padded built live]
  · next other => exact dinode_setDinode_other other

theorem addrs_finish (built : Built img content) (live : rootino < img.freeinode) {y : Nat}
    (apart : sb.iblock y ≠ sb.bmapstart) :
    (dinode (finish img.disk img.freeblock) y).addrs = (dinode img.disk y).addrs := by
  rw [dinode_finish built live apart]
  split
  · next root => rw [root]; rfl
  · rfl

theorem type_finish (built : Built img content) (live : rootino < img.freeinode) {y : Nat}
    (room : y < dinodeRoom) (apart : sb.iblock y ≠ sb.bmapstart) :
    (dinode (finish img.disk img.freeblock) y).type = kindOf img.freeinode y := by
  rw [dinode_finish built live apart]
  refine Eq.trans ?_ (built.type y room)
  split
  · next root => rw [root]; rfl
  · rfl

theorem size_finish (built : Built img content) (live : rootino < img.freeinode) {y : Nat}
    (there : y < img.freeinode) (apart : sb.iblock y ≠ sb.bmapstart) :
    (dinode (finish img.disk img.freeblock) y).size =
      if y = rootino then ((content y).length / bsize + 1) * bsize else (content y).length := by
  rw [dinode_finish built live apart]
  split
  · next root =>
    rw [root, ← built.size rootino live]
    rfl
  · exact built.size y there

theorem super_finish (built : Built img content) :
    finish img.disk img.freeblock 1 = blank.disk 1 := by
  refine (finish_other (by decide) (by decide)).trans
    (built.sectors 1 (by decide) fun y _ same => ?_)
  have above := iblock_ge y
  rw [same] at above
  exact absurd above (by decide)

/-- The sectors of the bitmap after the first, as long as no inode lies there. -/
theorem clear_finish (built : Built img content) (few : img.freeinode ≤ inodeRoom + ipb) {b : Nat}
    (above : sb.bmapstart < b) (before : b < nmeta) : finish img.disk img.freeblock b = .zero := by
  have later : b ≠ 1 := by
    rintro rfl
    exact absurd above (by decide)
  have root : sb.iblock rootino < sb.bmapstart := iblock_lt (by decide)
  refine (finish_other (by omega) (by omega)).trans
    ((built.sectors b before fun y live same => ?_).trans (blank_other later))
  have past : y < 216 := live.trans_le few
  change y / 8 + 32 = b at same
  change 58 < b at above
  omega

theorem finished_of_built (built : Built img content) (few : img.freeinode ≤ inodeRoom)
    (live : rootino < img.freeinode) (first : img.freeblock < bsize * 8) :
    Finished { img with disk := finish img.disk img.freeblock } content := by
  have start := bmapstart_lt
  have root : sb.iblock rootino < sb.bmapstart := iblock_lt (by decide)
  refine ⟨few, ?_, ?_, ?_, ?_, ?_, ?_, first⟩
  · apply built.laid.relabel
    · intro b high
      exact finish_other (by omega) (by omega)
    · intro y there
      exact addrs_finish built live (iblock_lt (there.trans_le few)).ne
  · intro y there
    exact size_finish built live there (iblock_lt (there.trans_le few)).ne
  · intro y there
    exact type_finish built live (there.trans_le inodeRoom_le) (iblock_lt there).ne
  · have super := super_finish built
    exact super
  · change finish img.disk img.freeblock sb.bmapstart = _
    rw [finish, Function.update_self]
  · intro b above before
    exact clear_finish built (few.trans (Nat.le_add_right _ _)) above before

theorem mkfs_made (files : List File) (few : files.length + 2 ≤ dinodeRoom) :
    Made files (mkfs files) := by
  obtain ⟨img, root, count, top, built⟩ := makeRoot_built
  rw [mkfs, root, Checked.ok_bind]
  have added := addFiles_added files img rootEntries built (by omega) (count ▸ by decide)
    (length_rootEntries.trans (by rw [count]))
  generalize img.addFiles files = result at added
  cases added with
  | slash member bad => exact .slash member bad
  | full exceeds => exact .full (top ▸ exceeds)
  | overrun member long => exact .overrun member long
  | @ok next count' built' cost =>
    have live : rootino < next.freeinode := by
      rw [count', count]
      exact Nat.lt_add_right _ (by decide)
    rw [Checked.ok_bind, fixRoot_eq built' live, Checked.ok_bind, Img.balloc]
    split
    · next first =>
      rw [count] at built' count'
      rw [wsect_eq _ (by decide)]
      exact .ok (count'.trans (Nat.add_comm _ _)) built' first
    · next exceeds => exact .large (by dsimp only at exceeds; omega)

/-- The image of files whose inodes all have room. -/
theorem mkfs_finished {files : List File} (few : files.length + 2 ≤ inodeRoom)
    (done : mkfs files = .ok img) :
    img.freeinode = files.length + 2 ∧ Finished img (contents files 2 rootEntries) := by
  have made := mkfs_made files (few.trans inodeRoom_le)
  rw [done] at made
  cases made with
  | ok count built first =>
    exact ⟨count, finished_of_built built (count.trans_le few)
      (count ▸ Nat.lt_add_left _ (by decide)) first⟩

/-- Files with plain names that are short enough and not too many become an image. -/
theorem mkfs_ok (files : List File) (few : files.length + 2 ≤ dinodeRoom)
    (names : ∀ f ∈ files, slash ∉ f.name)
    (short : ∀ f ∈ files, f.content.length ≤ maxAppend * bsize)
    (fits : nmeta + 1 + demand files < bsize * 8) : ∃ img, mkfs files = .ok img := by
  have made := mkfs_made files few
  have disk : bsize * 8 < fsSize := by decide
  generalize mkfs files = result at made
  cases made with
  | ok => exact ⟨_, rfl⟩
  | slash member bad => exact absurd bad (names _ member)
  | large exceeds => omega
  | full exceeds => omega
  | overrun member long => exact absurd long (Nat.not_lt.mpr (short _ member))

theorem addFiles_append (first rest : List File) (img : Img) :
    img.addFiles (first ++ rest) = img.addFiles first >>= Img.addFiles rest := by
  induction first generalizing img with
  | nil => rfl
  | cons f first ih =>
    rw [List.cons_append, Img.addFiles, Img.addFiles]
    cases img.addFile f with
    | error stop => rfl
    | ok next => exact ih next

/-- Whatever comes later, a file whose inode lies before the
data is not longer than `iappend` allows. -/
theorem mkfs_short {files : List File} (done : mkfs files = .ok img) {k : Nat}
    (member : k < files.length) (room : k + 2 < dinodeRoom) :
    (files.get ⟨k, member⟩).content.length ≤ maxAppend * bsize := by
  obtain ⟨made, root, count, -, built⟩ := makeRoot_built
  rw [mkfs, root, Checked.ok_bind, ← List.take_append_drop (k + 1) files, addFiles_append] at done
  obtain ⟨all, rest, -⟩ := Checked.bind_ok.mp done
  obtain ⟨mid, first, -⟩ := Checked.bind_ok.mp rest
  have length : (files.take (k + 1)).length = k + 1 := List.length_take_of_le member
  have added := addFiles_added (files.take (k + 1)) made rootEntries built (by omega)
    (count ▸ by decide)
    (length_rootEntries.trans (by rw [count]))
  rw [first] at added
  cases added with
  | ok count' built' cost =>
    have short := built'.laid.short (made.freeinode + k) (by omega)
    rw [contents_file (count ▸ by decide) (by omega)] at short
    simpa using short

/-- The bitmap is written last. -/
theorem mkfs_bitmap {files : List File} (done : mkfs files = .ok img) :
    img.disk sb.bmapstart = Img.bits img.freeblock ∧ img.freeblock < bsize * 8 := by
  obtain ⟨made, -, rest⟩ := Checked.bind_ok.mp done
  obtain ⟨added, -, rest⟩ := Checked.bind_ok.mp rest
  obtain ⟨fixed, -, rest⟩ := Checked.bind_ok.mp rest
  rw [Img.balloc] at rest
  split at rest
  · next first =>
    rw [wsect_eq _ (by decide)] at rest
    cases rest
    refine ⟨?_, first⟩
    dsimp only
    rw [Function.update_self]
  · cases rest

end Finish
end Aso.Xv6.Mkfs
