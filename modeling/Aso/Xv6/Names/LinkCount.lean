import Aso.Xv6.Mkfs.Image
import Aso.Xv6.Names.Files

/-! The link count of an inode and the entries that name it, over whole runs of calls
that come one after another, from the image of mkfs. The counts part from the entries when
a directory that is in use loses its name: it stays, with its `..`, but no longer counts
in its parent, which can then be removed as well. -/
namespace Aso.Xv6.Names
open Interleave Aso.Sequential Transition

inductive FsCall where
  | opens (path : Path) (omode : Nat)
  | mkdir (path : Path)
  | mknod (path : Path)
  | link (old new : Path)
  | unlink (path : Path)
  | chdir (path : Path)
  | close (fd : Fin nofile)
  | exit

/-- A call after which the process goes on. -/
def returning (prog : Code Data) : Code (Option Data) := do
  let c ← prog
  pure (some c)

/-- A process that has exited makes no calls. -/
def fsCall (which : FsCall) : Option Data → Code (Option Data)
  | none => pure none
  | some c =>
    match which with
    | .opens path omode => returning (sysOpen path omode c)
    | .mkdir path => returning (sysCreate path .dir c)
    | .mknod path => returning (sysCreate path .dev c)
    | .link old new => returning (sysLink old new c)
    | .unlink path => returning (sysUnlink path c)
    | .chdir path => returning (sysChdir path c)
    | .close fd => returning (sysClose fd c)
    | .exit => sysExit c

abbrev FsSystem := State Res Slot Shared (Option Data)

abbrev FsEvent := Action Slot FsCall Choice

def fsStep (s : FsSystem) (a : FsEvent) : Option FsSystem := Interleave.step exec fsCall s a

/-- The entries that mkfs makes for its arguments. -/
def fileSlots (files : List Mkfs.File) : List Dirent :=
  (files.zipIdx 2).map fun (f, inum) => ⟨f.entry.take dirsiz, inum⟩

/-- The root directory of mkfs; its size is rounded up, so it ends with empty slots. -/
def rootSlots (files : List Mkfs.File) : List Dirent :=
  ⟨[46], rootino⟩ :: ⟨[46, 46], rootino⟩ ::
    (fileSlots files ++ List.replicate (32 - (files.length + 2) % 32) ⟨[], 0⟩)

/-- The inodes of the image: `ialloc` of mkfs gives each one link. -/
def image (files : List Mkfs.File) (i : Nat) : Dnode :=
  if i = rootino then ⟨.dir, 1, rootSlots files⟩
  else if 2 ≤ i ∧ i < files.length + 2 then ⟨.file, 1, []⟩
  else ⟨.free, 0, []⟩

/-- Processes at the root, without open files. -/
def started (procs : Slot → Bool) (p : Slot) : Option Data :=
  if procs p then some ⟨rootino, fun _ => none⟩ else none

def boot (procs : Slot → Bool) (files : List Mkfs.File) : FsSystem where
  shared :=
    { ninodes := Mkfs.ninodes
      inode := fun i =>
        { ty := (image files i).ty
          nlink := (image files i).nlink
          entries := (image files i).entries
          ref := keeps (started procs) i, valid := false, lock := none }
      birth := fun _ => 0
      clock := 0
      refs := fun p => held (started procs p)
      pin := fun _ _ => false }
  data := started procs
  code := fun _ => none

section Image
variable {files : List Mkfs.File} {i : Nat}

/-- The numbers in stat.h. -/
def Ty.code : Ty → Int16
  | .free => 0
  | .dir => Fs.tDir
  | .file => Fs.tFile
  | .dev => Fs.tDev

theorem image_ty (files : List Mkfs.File) (i : Nat) :
    (image files i).ty.code = Mkfs.kindOf (files.length + 2) i := by
  simp only [image, Mkfs.kindOf]
  split
  · next here =>
    rw [if_neg (by rw [here]; simp [rootino])]
    rfl
  · next other =>
    split
    · rw [if_neg (by omega)]
      rfl
    · rw [if_pos (by simp only [rootino] at other; omega)]
      rfl

/-- The bytes of the root directory, up to its padding. -/
theorem image_bytes (files : List Mkfs.File) : Mkfs.contents files 2 Mkfs.rootEntries rootino =
    (⟨[46], rootino⟩ :: ⟨[46, 46], rootino⟩ :: fileSlots files).flatMap
      fun e => Mkfs.Img.dirent e.inum e.name := by
  have cut (inum : Nat) (name : List UInt8) :
      Mkfs.Img.dirent inum (name.take dirsiz) = Mkfs.Img.dirent inum name := by
    rw [Mkfs.Img.dirent, Mkfs.Img.dirent, List.take_append, List.take_append, List.length_take]
    have rest : dirsiz - min dirsiz name.length = dirsiz - name.length := by omega
    rw [List.take_take, Nat.min_self, rest]
  rw [Mkfs.contents_root (by decide), fileSlots]
  simp only [List.flatMap_cons, List.flatMap_map, cut, Mkfs.rootEntries, Function.update_self,
    List.append_assoc]
  rfl

/-- What mkfs writes is this image. -/
theorem image_made {img : Mkfs.Img} (few : files.length + 2 ≤ Mkfs.inodeRoom)
    (done : Mkfs.mkfs files = .ok img) :
    (∀ y < Mkfs.inodeRoom, (Mkfs.dinode img.disk y).type = (image files y).ty.code) ∧
      ∃ content, Mkfs.Finished img content ∧ content rootino =
        (⟨[46], rootino⟩ :: ⟨[46, 46], rootino⟩ :: fileSlots files).flatMap
        fun e => Mkfs.Img.dirent e.inum e.name := by
  obtain ⟨count, finished⟩ := Mkfs.mkfs_finished few done
  refine ⟨fun y bound => ?_, _, finished, image_bytes files⟩
  rw [finished.type y bound, count, image_ty]

theorem image_of_one_file :
    ∃ img, Mkfs.mkfs [⟨[97], [104]⟩] = .ok img ∧ (Mkfs.dinode img.disk 2).type = Fs.tFile := by
  obtain ⟨img, done⟩ := Mkfs.mkfs_ok [⟨[97], [104]⟩] (by decide) (by decide) (by decide) (by decide)
  exact ⟨img, done, (image_made (by decide) done).1 2 (by decide)⟩

theorem live_append (a b : List Dirent) : live (a ++ b) = live a + live b := by
  simp only [live, List.filter_append, List.map_append, Multiset.coe_add]

theorem childrenOf_rootSlots (files : List Mkfs.File) :
    childrenOf (rootSlots files) = List.range' 2 files.length := by
  have padding (n : Nat) : live (List.replicate n ⟨[], 0⟩) = 0 := by
    rw [Multiset.eq_zero_iff_forall_notMem]
    intro i member
    obtain ⟨used, e, inside, rfl⟩ := mem_live.mp member
    rw [List.eq_of_mem_replicate inside] at used
    exact used rfl
  have used : (fileSlots files).filter (·.inum ≠ 0) = fileSlots files := by
    rw [List.filter_eq_self]
    intro e member
    obtain ⟨⟨f, inum⟩, inside, rfl⟩ := List.mem_map.mp member
    have least := List.le_snd_of_mem_zipIdx inside
    simp only [ne_eq, decide_not, Bool.not_eq_true', decide_eq_false_iff_not]
    omega
  change live (fileSlots files ++ _) = _
  rw [live_append, padding, add_zero, live, used, fileSlots, List.map_map]
  exact congrArg _ (List.zipIdx_map_snd 2 files)

theorem count_children (files : List Mkfs.File) (i : Nat) :
    (childrenOf (rootSlots files)).count i = if 2 ≤ i ∧ i < files.length + 2 then 1 else 0 := by
  rw [childrenOf_rootSlots,
    Multiset.count_eq_of_nodup (Multiset.coe_nodup.mpr (List.nodup_range' 1 Nat.one_pos))]
  simp only [Multiset.mem_coe, List.mem_range'_1, Nat.add_comm]

theorem image_root : image files rootino = ⟨.dir, 1, rootSlots files⟩ := if_pos rfl

theorem image_file (file : 2 ≤ i ∧ i < files.length + 2) : image files i = ⟨.file, 1, []⟩ := by
  rw [image, if_neg (by simp only [rootino]; omega), if_pos file]

theorem image_free (other : i ≠ rootino) (none : ¬(2 ≤ i ∧ i < files.length + 2)) :
    image files i = ⟨.free, 0, []⟩ := by
  rw [image, if_neg other, if_neg none]

theorem image_cases (files : List Mkfs.File) (i : Nat) :
    i = rootino ∨ (2 ≤ i ∧ i < files.length + 2) ∨ image files i = ⟨.free, 0, []⟩ := by
  by_cases root : i = rootino
  · exact .inl root
  · by_cases file : 2 ≤ i ∧ i < files.length + 2
    · exact .inr (.inl file)
    · exact .inr (.inr (image_free root file))

theorem image_dir : (image files i).ty = .dir ↔ i = rootino := by
  refine ⟨fun dir => ?_, by rintro rfl; rw [image_root]⟩
  rcases image_cases files i with root | file | free
  · exact root
  · rw [image_file file] at dir
    cases dir
  · rw [free] at dir
    cases dir

theorem image_linked (few : files.length + 2 ≤ Mkfs.inodeRoom)
    (plain : ∀ f ∈ files, ¬ IsDot f.entry) : Linked Mkfs.inodeRoom (image files) := by
  have only : dirs Mkfs.inodeRoom (image files) = {rootino} := by
    ext i
    rw [mem_dirs, image_dir, Finset.mem_singleton, and_iff_right_iff_imp]
    rintro rfl
    decide
  have parent : parentOf (image files rootino).entries = rootino := by
    rw [image_root]
    rfl
  have children : childrenOf (image files rootino).entries = childrenOf (rootSlots files) := by
    rw [image_root]
  have self : (childrenOf (rootSlots files)).count rootino = 0 := by
    rw [count_children, if_neg (fun wrong => absurd wrong.1 (by decide))]
  refine ⟨?_, ?_, ?_, ?_, ?_, ?_, ?_⟩
  · rw [only]
    refine ⟨Finset.mem_singleton_self _, parent, fun c member => ?_, fun c member d member' => ?_⟩
    · obtain rfl := Finset.mem_singleton.mp member
      rw [parent]
      exact member
    · obtain rfl := Finset.mem_singleton.mp member
      obtain rfl := Finset.mem_singleton.mp member'
      rw [children, self, if_neg (fun wrong => wrong.1 rfl)]
  · intro d dir
    obtain rfl := image_dir.mp dir
    rw [image_root]
    refine ⟨rootino, _, rfl, fun e member used => ?_⟩
    rcases List.mem_append.mp member with inside | inside
    · obtain ⟨⟨f, inum⟩, listed, rfl⟩ := List.mem_map.mp inside
      have given := plain f (List.fst_mem_of_mem_zipIdx listed)
      simp only [IsDot, namecmp, List.take_take, Nat.min_self] at given ⊢
      exact given
    · rw [List.eq_of_mem_replicate inside] at used
      exact absurd rfl used
  · intro i allocated
    rcases image_cases files i with rfl | file | free
    · decide
    · omega
    · rw [free] at allocated
      exact absurd rfl allocated
  · intro d i dir member
    obtain rfl := image_dir.mp dir
    rw [children, ← Multiset.count_pos, count_children] at member
    split at member
    · next file =>
      rw [image_file file]
      rintro ⟨⟩
    · cases member
  · intro i allocated
    rw [only, Links.links, Finset.sum_singleton, parent, children]
    rcases image_cases files i with rfl | file | free
    · rw [Multiset.count_cons_self, self, image_root]
      rfl
    · rw [Multiset.count_cons_of_ne (by simp only [rootino]; omega), count_children, if_pos file,
        image_file file]
      rfl
    · rw [free] at allocated
      exact absurd rfl allocated
  · intro i leaf
    rcases image_cases files i with root | file | free
    · exact absurd (image_dir.mpr root) leaf
    · rw [image_file file]
    · rw [free]
  · intro i
    have one : (1 : Int) < 2 ^ 15 := by decide
    rcases image_cases files i with rfl | file | free
    · rw [image_root]
      exact one
    · rw [image_file file]
      exact one
    · rw [free]
      exact Int.zero_lt_one.trans one

end Image

section Runs
variable {procs : Slot → Bool} {files : List Mkfs.File} {s : FsSystem} {schedule : List FsEvent}

/-- The entries other than `.` that name an inode, in all directories. -/
def naming (s : Shared) (i : Nat) : Nat :=
  ∑ d ∈ Finset.range Mkfs.inodeRoom,
    if (s.inode d).ty = .dir then
      ((s.inode d).entries.filter fun e => e.inum ≠ 0 ∧ e.inum = i ∧
        namecmp e.name [46] = false).length
    else 0

section Naming
variable {entries rest : List Dirent} {d i : Nat}

theorem length_filter_live (plain : ∀ e ∈ rest, e.inum ≠ 0 → ¬ IsDot e.name) :
    (rest.filter fun e => e.inum ≠ 0 ∧ e.inum = i ∧ namecmp e.name [46] = false).length =
    (live rest).count i := by
  induction rest with
  | nil => rfl
  | cons e rest ih =>
    have tail := ih fun e' member => plain e' (List.mem_cons_of_mem _ member)
    rw [live_cons, List.filter_cons]
    by_cases empty : e.inum = 0
    · rw [if_pos empty, if_neg (by simp [empty]), tail]
    · have name : namecmp e.name [46] = false := by
        by_contra dot
        exact plain e List.mem_cons_self empty (.inl (Bool.not_eq_false _ ▸ dot))
      rw [if_neg empty]
      by_cases here : e.inum = i
      · rw [if_pos (by simp [here, name]; exact here ▸ empty), List.length_cons, tail, here,
          Multiset.count_cons_self]
      · rw [if_neg (by simp [here]), tail, Multiset.count_cons_of_ne (Ne.symm here)]

theorem Shape.length_filter (shape : Shape d entries) (above : parentOf entries ≠ 0) :
    (entries.filter fun e => e.inum ≠ 0 ∧ e.inum = i ∧ namecmp e.name [46] = false).length =
      (parentOf entries ::ₘ childrenOf entries).count i := by
  obtain ⟨parent, rest, rfl, plain⟩ := shape
  have above : parent ≠ 0 := above
  have dots : namecmp [46, 46] [46] = false := by decide
  have dot : namecmp [46] [46] = true := by decide
  rw [List.filter_cons, if_neg (by simp [dot]), List.filter_cons]
  change _ = (parent ::ₘ live rest).count i
  by_cases here : parent = i
  · rw [if_pos (by simp [here, dots]; exact here ▸ above), List.length_cons,
      length_filter_live plain, here, Multiset.count_cons_self]
  · rw [if_neg (by simp [here]), length_filter_live plain, Multiset.count_cons_of_ne (Ne.symm here)]

theorem naming_eq_links {s : Shared} (linked : Linked Mkfs.inodeRoom s.disk) (i : Nat) :
    naming s i =
    Links.links (dirs Mkfs.inodeRoom s.disk) (fun d => parentOf (s.disk d).entries)
      (fun d => childrenOf (s.disk d).entries) i := by
  rw [naming, Links.links, dirs, Finset.sum_filter]
  refine Finset.sum_congr rfl fun d _ => ?_
  change (if (s.disk d).ty = .dir then _ else _) = _
  split
  · next dir => exact (linked.shape d dir).length_filter (linked.parent dir).1
  · rfl

end Naming

theorem mem_started {p : Slot} {c : Data} (here : started procs p = some c) :
    c = ⟨rootino, fun _ => none⟩ := by
  rw [started] at here
  split at here
  · exact (Option.some.inj here).symm
  · cases here

theorem keeps_started {i : Nat} (used : keeps (started procs) i ≠ 0) : i = rootino := by
  obtain ⟨p, -, positive⟩ := Finset.exists_ne_zero_of_sum_ne_zero used
  have member := Multiset.count_ne_zero.mp positive
  cases here : started procs p with
  | none =>
    rw [here] at member
    cases member
  | some c =>
    rw [here, held, mem_started here, Data.refs] at member
    simpa [fileRef] using member

theorem boot_settled (few : files.length + 2 ≤ Mkfs.inodeRoom)
    (plain : ∀ f ∈ files, ¬ IsDot f.entry) :
    Settled Mkfs.inodeRoom (boot procs files).data (boot procs files).shared := by
  intro p
  refine ⟨image files, ⟨image_linked few plain, fun i home => ?_, fun i allocated zero => ?_⟩, ?_⟩
  · obtain ⟨q, c, here, rfl⟩ := home
    rw [mem_started here, image_root]
  · exfalso
    rcases image_cases files i with rfl | file | free
    · rw [image_root] at zero
      cases zero
    · rw [image_file file] at zero
      cases zero
    · rw [free] at allocated
      exact allocated rfl
  · refine ⟨(by decide : Mkfs.ninodes ≤ Mkfs.inodeRoom), fun i => rfl, fun i => ?_, fun i => rfl,
      nofun, fun i used => ?_, nofun⟩
    · rw [Multiset.count_zero, add_zero]
      rfl
    · rcases used with ⟨kept, other⟩ | none
      · exact absurd (keeps_started kept) other
      · cases none

theorem hold_returning {p : Slot} {prog : Code Data} {post : Option Data → Shared → Prop}
    {s : Shared} (proved : rules.wp exec p prog (fun a t => post (some a) t) s) :
    rules.wp exec p (returning prog) post s :=
  Rules.wp_bind proved

/-- Every call that starts in a settled state ends in one. -/
theorem hold_call {N : Nat} (p : Slot) (which : FsCall) (data : Slot → Option Data) (s : Shared)
    (settled : Settled N data s) :
    rules.wp exec p (fsCall which (data p))
      (fun a t => Settled N (Function.update data p a) t) s := by
  cases mine : data p with
  | none =>
    change Settled N (Function.update data p none) s
    rw [← mine, Function.update_eq_self]
    exact settled
  | some c =>
    obtain ⟨disk, tidy, here⟩ := settled p
    have unchanged (a : Data) (t : Shared) (done : a = c ∧ Kept p (keeps data) N (homes data) t) :
        Settled N (Function.update data p (some a)) t := done.1 ▸ Settled.same mine done.2
    cases which with
    | opens path omode => exact hold_returning (hold_sysOpen path omode settled mine)
    | mkdir path => exact hold_returning (hold_sysCreate path nofun settled mine)
    | mknod path => exact hold_returning (hold_sysCreate path nofun settled mine)
    | link old new =>
      exact hold_returning (Rules.wp_mono (hold_sysLink old new here tidy (home_of mine)) unchanged)
    | unlink path =>
      exact hold_returning (Rules.wp_mono
        (hold_sysUnlink path here tidy (home_of mine) fun i home => keeps_of_home home) unchanged)
    | chdir path => exact hold_returning (hold_sysChdir path settled mine)
    | close fd =>
      exact hold_returning (Rules.wp_mono (hold_sysClose fd settled mine) fun a t done => done.2)
    | exit => exact hold_sysExit settled mine

theorem sound_of_run (few : files.length + 2 ≤ Mkfs.inodeRoom)
    (plain : ∀ f ∈ files, ¬ IsDot f.entry)
    (admitted : Along fsStep (Admitted rules) (boot procs files) schedule)
    (reached : run fsStep (boot procs files) schedule = some s) :
    Sequential.Sound rules exec (Settled Mkfs.inodeRoom) s :=
  invariant_along (fun _ _ _ sound admitted taken => sound_step hold_call sound admitted taken)
    admitted reached
    (.idle (fun _ => rfl) (boot_settled few plain))

theorem Settled.linked {data : Slot → Option Data} {t : Shared}
    (settled : Settled Mkfs.inodeRoom data t) :
    Tidy Mkfs.inodeRoom (homes data) (fun i => (t.inode i).ref) t.disk := by
  obtain ⟨disk, tidy, here⟩ := settled 0
  obtain rfl : t.disk = disk := funext here.same
  have refs : (fun i => (t.inode i).ref) = keeps data := by
    funext i
    rw [here.ref, Multiset.count_zero, add_zero]
  rw [refs]
  exact tidy

/-- A call from beginning to end; `ialloc` comes upon the inode `inum`. -/
def whole (p : Slot) (c : FsCall) (inum steps : Nat) : List FsEvent :=
  .call p c :: List.replicate steps (.step p ⟨inum, true, []⟩)

/-- Along every run of calls one after another in which no directory loses its name while
somebody else refers to it, and no count leaves its range: between calls the link count of an
inode is the number of its entries, so that an inode is free exactly when it can be. -/
theorem link_count_law (few : files.length + 2 ≤ Mkfs.inodeRoom)
    (plain : ∀ f ∈ files, ¬ IsDot f.entry)
    (admitted : Along fsStep (Admitted rules) (boot procs files) schedule)
    (reached : run fsStep (boot procs files) schedule = some s) (quiet : ∀ p, s.code p = none) :
    (∀ i, (s.shared.inode i).ty ≠ .free → (s.shared.inode i).nlink = naming s.shared i) ∧
      (∀ i, naming s.shared i = 0 → (s.shared.inode i).ref = 0 → (s.shared.inode i).ty = .free) ∧
      ∀ i, naming s.shared i ≠ 0 → (s.shared.inode i).ty ≠ .free := by
  have tidy := ((sound_of_run few plain admitted reached).between quiet).linked
  have law (i : Nat) (allocated : (s.shared.inode i).ty ≠ .free) :
      (s.shared.inode i).nlink = naming s.shared i := by
    rw [naming_eq_links tidy.linked]
    exact tidy.linked.law i allocated
  refine ⟨law, fun i unnamed unused => ?_, fun i named free => ?_⟩
  · by_contra allocated
    have zero := law i allocated
    rw [unnamed] at zero
    exact tidy.unnamed i allocated zero unused
  · rw [naming_eq_links tidy.linked] at named
    exact named (tidy.linked.unnamed free)

/-- The file `a` of the image gets a second name in a new directory and loses its first one. -/
theorem link_and_unlink_law :
    ∃ s, run fsStep (boot (· = 0) [⟨[97], []⟩])
        (whole 0 (.mkdir [47, 100]) 3 31 ++ whole 0 (.link [97] [100, 47, 98]) 0 43 ++ whole 0
          (.unlink [97]) 0 25) = some s ∧
      naming s.shared 2 = 1 ∧ ∀ i, (s.shared.inode i).ty ≠ .free →
      (s.shared.inode i).nlink = naming s.shared i := by
  have runs : (run fsStep (boot (· = 0) [⟨[97], []⟩])
      (whole 0 (.mkdir [47, 100]) 3 31 ++ whole 0 (.link [97] [100, 47, 98]) 0 43 ++ whole 0
      (.unlink [97]) 0 25)).map
      (fun s => (naming s.shared 2, decide (∀ p, (s.code p).isNone))) = some (1, true) := by
        decide +kernel
  obtain ⟨s, reached, seen⟩ := Option.map_eq_some_iff.mp runs
  obtain ⟨one, quiet⟩ := Prod.mk.inj seen
  have quiet (p : Slot) : s.code p = none :=
    Option.isNone_iff_eq_none.mp (of_decide_eq_true quiet p)
  refine ⟨s, reached, one, (link_count_law ?_ ?_ ?_ reached quiet).1⟩
  · decide
  · decide
  · decide +kernel

/-- A process makes `/d`, enters it and removes its name: the root has two entries that lead to
it, its own `..` and that of the directory without a name, but one link. -/
theorem cwd_unlinked_breaks_law :
    (run fsStep (boot (· = 0) [])
        (whole 0 (.mkdir [47, 100]) 2 31 ++ whole 0 (.chdir [100]) 0 19 ++ whole 0
        (.unlink [47, 100]) 0 27)).map
      (fun s => ((s.code 0).isNone, (s.shared.inode rootino).ty, (s.shared.inode rootino).nlink,
        naming s.shared rootino)) =
      some (true, .dir, 1, 2) := by
  decide +kernel

/-- Along the same runs a lookup meets allocated inodes only: `ilock` finds a type at every
moment, and between calls every entry of every directory leads to an inode that has one. -/
theorem entries_lead_to_inodes (few : files.length + 2 ≤ Mkfs.inodeRoom)
    (plain : ∀ f ∈ files, ¬ IsDot f.entry)
    (admitted : Along fsStep (Admitted rules) (boot procs files) schedule)
    (reached : run fsStep (boot procs files) schedule = some s) :
    (∀ p i next, s.code p = some (.op (.load i) next) → (s.shared.inode i).valid = true ∨
      (s.shared.inode i).ty ≠ .free) ∧
      ((∀ p, s.code p = none) →
        (∀ d, (s.shared.inode d).ty = .dir → ∀ e ∈ (s.shared.inode d).entries, e.inum ≠ 0 →
          (s.shared.inode e.inum).ty ≠ .free) ∧
        ∀ p c, s.data p = some c → (s.shared.inode c.cwd).ty = .dir) := by
  have sound := sound_of_run few plain admitted reached
  refine ⟨fun p i next here => sound.safe here, fun quiet => ?_⟩
  have tidy := (sound.between quiet).linked
  exact ⟨fun d dir e member used => (tidy.linked.entry dir member used).1,
    fun p c here => tidy.home _ (home_of here)⟩

/-- A walk through a directory and its dots. -/
theorem walk_leads_to_inodes :
    ∃ s, run fsStep (boot (· = 0) [⟨[97], []⟩])
        (whole 0 (.mkdir [47, 100]) 3 31 ++ whole 0 (.chdir [100]) 0 19 ++ whole 0
          (.opens [46, 46, 47, 97] 0) 0 25) = some s ∧
      (s.data 0).map (·.cwd) = some 3 ∧
      ∀ d, (s.shared.inode d).ty = .dir → ∀ e ∈ (s.shared.inode d).entries, e.inum ≠ 0 →
      (s.shared.inode e.inum).ty ≠ .free := by
  have runs : (run fsStep (boot (· = 0) [⟨[97], []⟩])
      (whole 0 (.mkdir [47, 100]) 3 31 ++ whole 0 (.chdir [100]) 0 19 ++ whole 0
      (.opens [46, 46, 47, 97] 0) 0 25)).map
      (fun s => ((s.data 0).map (·.cwd), decide (∀ p, (s.code p).isNone))) =
        some (some 3, true) := by decide
  obtain ⟨s, reached, seen⟩ := Option.map_eq_some_iff.mp runs
  obtain ⟨there, quiet⟩ := Prod.mk.inj seen
  have quiet (p : Slot) : s.code p = none :=
    Option.isNone_iff_eq_none.mp (of_decide_eq_true quiet p)
  refine ⟨s, reached, there, ((entries_lead_to_inodes ?_ ?_ ?_ reached).2 quiet).1⟩
  · decide
  · decide
  · decide +kernel

/-- Where the `ilock` of a call has the lock and is about to read the inode. -/
def loading (s : FsSystem) (p : Slot) : Option Nat :=
  match s.code p with
  | some (.op (.load i) _) => some i
  | _ => none

/-- A process makes `/a` and `/a/b`, enters `/a/b` and removes both names: inode 2 is free, and
the `..` of its current directory leads there. A lookup of `..` locks it and panics. -/
theorem parent_of_cwd_freed :
    (run fsStep (boot (· = 0) [])
        (whole 0 (.mkdir [47, 97]) 2 31 ++ whole 0 (.mkdir [47, 97, 47, 98]) 3 40 ++ whole 0
        (.chdir [97, 47, 98]) 0 28 ++
          whole 0 (.unlink [47, 97, 47, 98]) 0 36 ++ whole 0 (.unlink [47, 97]) 0 28)).map
      (fun s => ((s.code 0).isNone, (s.data 0).map (·.cwd), (s.shared.inode 3).ty,
        (s.shared.inode 3).entries.map (·.inum), (s.shared.inode 2).ty)) =
      some (true, some 3, .dir, [3, 2], .free) ∧
    (run fsStep (boot (· = 0) [])
        (whole 0 (.mkdir [47, 97]) 2 31 ++ whole 0 (.mkdir [47, 97, 47, 98]) 3 40 ++ whole 0
        (.chdir [97, 47, 98]) 0 28 ++
          whole 0 (.unlink [47, 97, 47, 98]) 0 36 ++ whole 0 (.unlink [47, 97]) 0 28 ++ whole 0
          (.chdir [46, 46]) 0 11)).map
      (fun s => (loading s 0, (s.shared.inode 2).valid, (s.shared.inode 2).ty)) =
      some (some 2, false, .free) := by
  decide

end Runs
end Aso.Xv6.Names
