import Aso.Links
import Aso.Xv6.Names.Ops

/-! The directories on disk as a tree with link counts. Every directory starts
with its two dots, and the names after them lead to allocated inodes. -/
namespace Aso.Xv6.Names
open Links

/-- The part of an inode that is on disk. -/
structure Dnode where
  ty : Ty
  nlink : Int
  entries : List Dirent

def Inode.dnode (n : Inode) : Dnode := ⟨n.ty, n.nlink, n.entries⟩

def Shared.disk (s : Shared) (i : Nat) : Dnode := (s.inode i).dnode

/-- The inode numbers in use in a list of slots. -/
def live (entries : List Dirent) : Multiset Nat := (entries.filter (·.inum ≠ 0)).map (·.inum)

/-- Where `..` leads, in the second slot. -/
def parentOf : List Dirent → Nat
  | _ :: e :: _ => e.inum
  | _ => 0

/-- The inodes named after the dots. -/
def childrenOf (entries : List Dirent) : Multiset Nat := live (entries.drop 2)

/-- The directories among the first `N` inodes. -/
def dirs (N : Nat) (disk : Nat → Dnode) : Finset Nat :=
  (Finset.range N).filter fun d => (disk d).ty = .dir

/-- The slots of directory `d`. -/
def Shape (d : Nat) (entries : List Dirent) : Prop :=
  ∃ parent rest, entries = ⟨[46], d⟩ :: ⟨[46, 46], parent⟩ :: rest ∧
    ∀ e ∈ rest, e.inum ≠ 0 → ¬ IsDot e.name

structure Linked (N : Nat) (disk : Nat → Dnode) : Prop where
  tree : Tree (dirs N disk) rootino (fun d => parentOf (disk d).entries)
    (fun d => childrenOf (disk d).entries)
  shape : ∀ d, (disk d).ty = .dir → Shape d (disk d).entries
  range : ∀ i, (disk i).ty ≠ .free → 0 < i ∧ i < N
  target : ∀ d i, (disk d).ty = .dir → i ∈ childrenOf (disk d).entries → (disk i).ty ≠ .free
  law : ∀ i, (disk i).ty ≠ .free →
    (disk i).nlink = links (dirs N disk) (fun d => parentOf (disk d).entries)
    (fun d => childrenOf (disk d).entries) i
  blank : ∀ i, (disk i).ty ≠ .dir → (disk i).entries = []
  small : ∀ i, (disk i).nlink < 2 ^ 15

section Entries
variable {entries rest : List Dirent} {e slot : Dirent} {off : Nat}

theorem live_cons (e : Dirent) (rest : List Dirent) :
    live (e :: rest) = if e.inum = 0 then live rest else e.inum ::ₘ live rest := by
  by_cases empty : e.inum = 0
  · rw [if_pos empty, live, List.filter_cons_of_neg (by simpa using empty)]
    rfl
  · rw [if_neg empty, live, List.filter_cons_of_pos (by simpa using empty)]
    rfl

theorem mem_live {i : Nat} : i ∈ live entries ↔ i ≠ 0 ∧ ∃ e ∈ entries, e.inum = i := by
  simp only [live, Multiset.mem_coe, List.mem_map, List.mem_filter, ne_eq, decide_not,
    Bool.not_eq_true', decide_eq_false_iff_not]
  constructor
  · rintro ⟨e, ⟨member, used⟩, rfl⟩
    exact ⟨used, e, member, rfl⟩
  · rintro ⟨used, e, member, rfl⟩
    exact ⟨e, ⟨member, used⟩, rfl⟩

theorem live_addEntry (used : e.inum ≠ 0) :
    live (addEntry entries e) = e.inum ::ₘ live entries := by
  induction entries with
  | nil =>
    rw [addEntry, live_cons, if_neg used]
  | cons slot rest ih =>
    rw [addEntry]
    split
    · next empty => rw [live_cons, if_neg used, live_cons, if_pos empty]
    · next full => rw [live_cons, if_neg full, live_cons, if_neg full, ih, Multiset.cons_swap]

theorem live_set {name : Name} (found : entries[off]? = some e) (used : e.inum ≠ 0) :
    live (entries.set off ⟨name, 0⟩) = (live entries).erase e.inum := by
  induction entries generalizing off with
  | nil => cases found
  | cons slot rest ih =>
    cases off with
    | zero =>
      cases found
      rw [List.set_cons_zero, live_cons, if_pos rfl, live_cons, if_neg used,
        Multiset.erase_cons_head]
    | succ off =>
      rw [List.getElem?_cons_succ] at found
      rw [List.set_cons_succ, live_cons, live_cons, ih found]
      split
      · rfl
      · obtain same | apart := eq_or_ne slot.inum e.inum
        · have member : e.inum ∈ live rest :=
            mem_live.mpr ⟨used, e, List.mem_of_getElem? found, rfl⟩
          rw [same, Multiset.erase_cons_head, Multiset.cons_erase member]
        · rw [Multiset.erase_cons_tail _ apart]

variable {d : Nat}

/-- A new name goes after the dots. -/
theorem Shape.addEntry (shape : Shape d entries) (self : d ≠ 0) (above : parentOf entries ≠ 0)
    (plain : ¬ IsDot e.name) (used : e.inum ≠ 0) :
    Shape d (addEntry entries e) ∧ parentOf (addEntry entries e) = parentOf entries ∧
      childrenOf (addEntry entries e) = e.inum ::ₘ childrenOf entries := by
  obtain ⟨parent, rest, rfl, names⟩ := shape
  have first : Names.addEntry (⟨[46], d⟩ :: ⟨[46, 46], parent⟩ :: rest) e =
      ⟨[46], d⟩ :: ⟨[46, 46], parent⟩ :: Names.addEntry rest e := by
    rw [Names.addEntry, if_neg self, Names.addEntry, if_neg (show parent ≠ 0 from above)]
  rw [first]
  refine ⟨⟨parent, _, rfl, ?_⟩, rfl, live_addEntry used⟩
  intro slot member
  rcases mem_addEntry member with old | rfl
  · exact names slot old
  · exact fun _ => plain

/-- A name that is not a dot is after the dots. -/
theorem Shape.set (shape : Shape d entries) (found : entries[off]? = some e) (used : e.inum ≠ 0)
    {name : Name} (plain : ¬ IsDot name) (same : namecmp name e.name = true) :
    Shape d (entries.set off ⟨[], 0⟩) ∧ parentOf (entries.set off ⟨[], 0⟩) = parentOf entries ∧
      childrenOf (entries.set off ⟨[], 0⟩) = (childrenOf entries).erase e.inum ∧
      e.inum ∈ childrenOf entries := by
  obtain ⟨parent, rest, rfl, names⟩ := shape
  match off, found with
  | 0, found =>
    cases found
    exact absurd (.inl same) plain
  | 1, found =>
    cases found
    exact absurd (.inr same) plain
  | off + 2, found =>
    refine ⟨⟨parent, rest.set off ⟨[], 0⟩, rfl, ?_⟩, rfl, live_set found used,
      mem_live.mpr ⟨used, e, List.mem_of_getElem? found, rfl⟩⟩
    intro slot member live
    rcases List.mem_or_eq_of_mem_set member with old | rfl
    · exact names slot old live
    · exact absurd rfl live

/-- The dots are always found. -/
theorem Shape.plain (shape : Shape d entries) (self : d ≠ 0) (above : parentOf entries ≠ 0)
    {name : Name} (absent : findEntry entries name = none) : ¬ IsDot name := by
  obtain ⟨parent, rest, rfl, -⟩ := shape
  rintro (dot | dots)
  · exact absurd dot (Bool.eq_false_iff.mp (findEntry_none absent List.mem_cons_self self))
  · exact absurd dots (Bool.eq_false_iff.mp
      (findEntry_none absent (List.mem_cons_of_mem _ List.mem_cons_self) above))

end Entries

section Steps
variable {N d x k : Nat} {disk disk' : Nat → Dnode}

theorem mem_dirs : d ∈ dirs N disk ↔ d < N ∧ (disk d).ty = .dir := by
  rw [dirs, Finset.mem_filter, Finset.mem_range]

namespace Linked

/-- The link count that the entries give. -/
theorem links_pos (linked : Linked N disk) (dir : (disk d).ty = .dir) : (disk d).nlink ≠ 0 := by
  have allocated : (disk d).ty ≠ .free := dir ▸ nofun
  have positive := linked.tree.links_pos (mem_dirs.mpr ⟨(linked.range d allocated).2, dir⟩)
  rw [linked.law d allocated]
  omega

theorem mem (linked : Linked N disk) (dir : (disk d).ty = .dir) : d ∈ dirs N disk :=
  mem_dirs.mpr ⟨(linked.range d (dir ▸ nofun)).2, dir⟩

theorem parent (linked : Linked N disk) (dir : (disk d).ty = .dir) :
    parentOf (disk d).entries ≠ 0 ∧ (disk (parentOf (disk d).entries)).ty = .dir := by
  have above := (mem_dirs.mp (linked.tree.parent_mem d (linked.mem dir))).2
  exact ⟨(linked.range _ (above ▸ nofun)).1.ne', above⟩

/-- A free inode has no name. -/
theorem unnamed (linked : Linked N disk) (free : (disk k).ty = .free) :
    links (dirs N disk) (fun d => parentOf (disk d).entries)
      (fun d => childrenOf (disk d).entries) k = 0 := by
  apply Finset.sum_eq_zero
  intro e member
  have dir := (mem_dirs.mp member).2
  rw [Multiset.count_eq_zero, Multiset.mem_cons, not_or]
  constructor
  · rintro rfl
    have above := (linked.parent dir).2
    rw [free] at above
    cases above
  · exact fun named => linked.target e k dir named free

/-- What an entry leads to is allocated and linked. -/
theorem entry (linked : Linked N disk) (dir : (disk d).ty = .dir) {e : Dirent}
    (member : e ∈ (disk d).entries) (used : e.inum ≠ 0) :
    (disk e.inum).ty ≠ .free ∧ (disk e.inum).nlink ≠ 0 := by
  obtain ⟨parent, rest, entries, names⟩ := linked.shape d dir
  rw [entries] at member
  rcases List.mem_cons.mp member with rfl | member
  · exact ⟨dir ▸ nofun, linked.links_pos dir⟩
  · rcases List.mem_cons.mp member with rfl | member
    · have above := (linked.parent dir).2
      rw [entries] at above
      exact ⟨above ▸ nofun, linked.links_pos above⟩
    · have named : e.inum ∈ childrenOf (disk d).entries := by
        rw [entries]
        exact mem_live.mpr ⟨used, e, member, rfl⟩
      have allocated := linked.target d e.inum dir named
      have count := count_le_links (fun d => parentOf (disk d).entries)
        (fun d => childrenOf (disk d).entries)
        (linked.mem dir) e.inum
      have positive := Multiset.count_pos.mpr named
      refine ⟨allocated, ?_⟩
      rw [linked.law _ allocated]
      omega

theorem dirs_congr (types : ∀ i, (disk' i).ty = .dir ↔ (disk i).ty = .dir) :
    dirs N disk' = dirs N disk := by
  ext i
  rw [mem_dirs, mem_dirs, types]

/-- The names in `d` of the inode `x`, which is no
directory, change together with its link count. -/
theorem rename (linked : Linked N disk) (dir : (disk d).ty = .dir) (leaf : (disk x).ty ≠ .dir)
    (allocated : (disk x).ty ≠ .free) (types : ∀ i, (disk' i).ty = (disk i).ty)
    (entries : ∀ i, i ≠ d → (disk' i).entries = (disk i).entries)
    (shape : Shape d (disk' d).entries)
    (parent : parentOf (disk' d).entries = parentOf (disk d).entries) (others : ∀ i, i ≠ x →
      (childrenOf (disk' d).entries).count i = (childrenOf (disk d).entries).count i)
    (nlink : ∀ i, i ≠ x → (disk' i).nlink = (disk i).nlink)
    (change : (disk' x).nlink + (childrenOf (disk d).entries).count x =
      (disk x).nlink + (childrenOf (disk' d).entries).count x)
    (small : (disk' x).nlink < 2 ^ 15) : Linked N disk' := by
  have same : dirs N disk' = dirs N disk := dirs_congr fun i => by rw [types]
  have parents : (fun e => parentOf (disk' e).entries) = fun e => parentOf (disk e).entries := by
    funext e
    obtain rfl | other := eq_or_ne e d
    · exact parent
    · rw [entries e other]
  have children : (fun e => childrenOf (disk' e).entries) =
      Function.update (fun e => childrenOf (disk e).entries) d (childrenOf (disk' d).entries) := by
    funext e
    obtain rfl | other := eq_or_ne e d
    · rw [Function.update_self]
    · rw [Function.update_of_ne other, entries e other]
  have member := linked.mem dir
  have named (i : Nat) := links_update (fun e => parentOf (disk e).entries)
    (fun e => childrenOf (disk e).entries)
    member (childrenOf (disk' d).entries) i
  refine ⟨?_, ?_, ?_, ?_, ?_, ?_, ?_⟩
  · rw [same, parents, children]
    apply linked.tree.rename
    intro c inside
    apply others
    rintro rfl
    exact leaf (mem_dirs.mp inside).2
  · intro e here
    obtain rfl | other := eq_or_ne e d
    · exact shape
    · rw [entries e other]
      exact linked.shape e (types e ▸ here)
  · intro i here
    exact linked.range i (types i ▸ here)
  · intro e i here inside
    rw [types]
    obtain rfl | other := eq_or_ne e d
    · obtain rfl | apart := eq_or_ne i x
      · exact allocated
      · rw [← Multiset.count_pos, others i apart, Multiset.count_pos] at inside
        exact linked.target e i dir inside
    · rw [entries e other] at inside
      exact linked.target e i (types e ▸ here) inside
  · intro i here
    rw [types] at here
    have old := linked.law i here
    have count := named i
    rw [same, parents, children]
    obtain rfl | apart := eq_or_ne i x
    · omega
    · rw [others i apart] at count
      rw [nlink i apart]
      omega
  · intro i here
    rw [types] at here
    rw [entries i (by rintro rfl; exact here dir)]
    exact linked.blank i here
  · intro i
    obtain rfl | apart := eq_or_ne i x
    · exact small
    · rw [nlink i apart]
      exact linked.small i

/-- A step that leaves the directories alone: of an inode that is none, only one without
links goes free, and only a free one is allocated, without a link. -/
theorem retype (linked : Linked N disk) (leaf : (disk x).ty ≠ .dir)
    (other : ∀ i, i ≠ x → disk' i = disk i) (leaf' : (disk' x).ty ≠ .dir)
    (none : (disk' x).entries = []) (unlinked : (disk' x).nlink = 0)
    (before : (disk x).ty = .free ∨ (disk x).nlink = 0)
    (inside : 0 < x ∧ x < N) : Linked N disk' := by
  have same : dirs N disk' = dirs N disk := by
    apply dirs_congr
    intro i
    obtain rfl | apart := eq_or_ne i x
    · exact iff_of_false leaf' leaf
    · rw [other i apart]
  have entries (i : Nat) : (disk' i).entries = (disk i).entries := by
    obtain rfl | apart := eq_or_ne i x
    · rw [none, linked.blank i leaf]
    · rw [other i apart]
  have named : links (dirs N disk) (fun d => parentOf (disk d).entries)
      (fun d => childrenOf (disk d).entries) x = 0 := by
    rcases before with free | zero
    · exact linked.unnamed free
    · by_cases free : (disk x).ty = .free
      · exact linked.unnamed free
      · have law := linked.law x free
        omega
  refine ⟨?_, ?_, ?_, ?_, ?_, ?_, ?_⟩
  · simp only [same, entries]
    exact linked.tree
  · intro d dir
    rw [entries]
    apply linked.shape
    rw [← other d (by rintro rfl; exact leaf' dir)]
    exact dir
  · intro i here
    obtain rfl | apart := eq_or_ne i x
    · exact inside
    · rw [other i apart] at here
      exact linked.range i here
  · intro d i dir member
    rw [entries] at member
    have dir' : (disk d).ty = .dir := by
      rw [← other d (by rintro rfl; exact leaf' dir)]
      exact dir
    obtain rfl | apart := eq_or_ne i x
    · have part := count_le_links (fun d => parentOf (disk d).entries)
        (fun d => childrenOf (disk d).entries)
        (linked.mem dir') i
      have positive := Multiset.count_pos.mpr member
      omega
    · rw [other i apart]
      exact linked.target d i dir' member
  · intro i here
    simp only [same, entries]
    obtain rfl | apart := eq_or_ne i x
    · rw [unlinked, named]
      rfl
    · rw [other i apart] at here ⊢
      exact linked.law i here
  · intro i here
    rw [entries]
    obtain rfl | apart := eq_or_ne i x
    · exact linked.blank i leaf
    · rw [other i apart] at here
      exact linked.blank i here
  · intro i
    obtain rfl | apart := eq_or_ne i x
    · rw [unlinked]
      decide
    · rw [other i apart]
      exact linked.small i

/-- The free inode `k` becomes a directory in `d`. -/
theorem mkdir (linked : Linked N disk) (dir : (disk d).ty = .dir) (free : (disk k).ty = .free)
    (inside : 0 < k ∧ k < N) (new : disk' k = ⟨.dir, 1, [⟨[46], k⟩, ⟨[46, 46], d⟩]⟩)
    (other : ∀ i, i ≠ k → i ≠ d → disk' i = disk i) (dir' : (disk' d).ty = .dir)
    (shape : Shape d (disk' d).entries)
    (parent : parentOf (disk' d).entries = parentOf (disk d).entries)
    (children : childrenOf (disk' d).entries = k ::ₘ childrenOf (disk d).entries)
    (nlink : (disk' d).nlink = (disk d).nlink + 1) (small : (disk' d).nlink < 2 ^ 15) :
    Linked N disk' := by
  have apart : d ≠ k := by
    rintro rfl
    rw [free] at dir
    cases dir
  have fresh : k ∉ dirs N disk := by
    intro member
    rw [mem_dirs, free] at member
    cases member.2
  have member := linked.mem dir
  have more : dirs N disk' = insert k (dirs N disk) := by
    ext i
    rw [Finset.mem_insert, mem_dirs, mem_dirs]
    obtain rfl | other₁ := eq_or_ne i k
    · rw [new]
      exact iff_of_true ⟨inside.2, rfl⟩ (.inl rfl)
    · obtain rfl | other₂ := eq_or_ne i d
      · simp only [dir, dir', other₁, false_or]
      · rw [other i other₁ other₂]
        simp only [other₁, false_or]
  have parents : (fun e => parentOf (disk' e).entries) =
      Function.update (fun e => parentOf (disk e).entries) k d := by
    funext e
    obtain rfl | other₁ := eq_or_ne e k
    · rw [Function.update_self, new]
      rfl
    · rw [Function.update_of_ne other₁]
      obtain rfl | other₂ := eq_or_ne e d
      · exact parent
      · rw [other e other₁ other₂]
  have kids : (fun e => childrenOf (disk' e).entries) =
      Function.update (Function.update (fun e => childrenOf (disk e).entries) k 0) d
        (k ::ₘ childrenOf (disk d).entries) := by
    funext e
    obtain rfl | other₂ := eq_or_ne e d
    · rw [Function.update_self, children]
    · rw [Function.update_of_ne other₂]
      obtain rfl | other₁ := eq_or_ne e k
      · rw [Function.update_self, new]
        rfl
      · rw [Function.update_of_ne other₁, other e other₁ other₂]
  have named := linked.unnamed free
  have unnamed : ∀ e ∈ dirs N disk, (childrenOf (disk e).entries).count k = 0 := by
    intro e member
    have part := count_le_links (fun d => parentOf (disk d).entries)
      (fun d => childrenOf (disk d).entries) member k
    omega
  refine ⟨?_, ?_, ?_, ?_, ?_, ?_, ?_⟩
  · rw [more, parents, kids]
    exact linked.tree.mkdir fresh unnamed member
  · intro e here
    obtain rfl | other₁ := eq_or_ne e k
    · rw [new]
      exact ⟨d, [], rfl, nofun⟩
    · obtain rfl | other₂ := eq_or_ne e d
      · exact shape
      · rw [other e other₁ other₂] at here ⊢
        exact linked.shape e here
  · intro i here
    obtain rfl | other₁ := eq_or_ne i k
    · exact inside
    · obtain rfl | other₂ := eq_or_ne i d
      · exact linked.range i (dir ▸ nofun)
      · rw [other i other₁ other₂] at here
        exact linked.range i here
  · intro e i here child
    have old : i ≠ k → (disk i).ty ≠ .free → (disk' i).ty ≠ .free := by
      intro other₁ allocated
      obtain rfl | other₂ := eq_or_ne i d
      · exact dir' ▸ nofun
      · rw [other i other₁ other₂]
        exact allocated
    obtain rfl | other₁ := eq_or_ne i k
    · rw [new]
      nofun
    · apply old other₁
      obtain rfl | other₂ := eq_or_ne e d
      · rw [children, Multiset.mem_cons] at child
        exact linked.target e i dir (child.resolve_left other₁)
      · obtain rfl | other₃ := eq_or_ne e k
        · rw [new] at child
          cases child
        · rw [other e other₃ other₂] at here child
          exact linked.target e i here child
  · intro i here
    rw [more, parents, kids, links_mkdir fresh member]
    obtain rfl | other₁ := eq_or_ne i k
    · rw [new, named, if_neg apart.symm, if_pos rfl]
      rfl
    · obtain rfl | other₂ := eq_or_ne i d
      · rw [nlink, linked.law i (dir ▸ nofun), if_pos rfl, if_neg other₁]
        rfl
      · rw [other i other₁ other₂] at here ⊢
        rw [linked.law i here, if_neg other₂, if_neg other₁]
        rfl
  · intro i here
    obtain rfl | other₁ := eq_or_ne i k
    · exact absurd (by rw [new]) here
    · obtain rfl | other₂ := eq_or_ne i d
      · exact absurd dir' here
      · rw [other i other₁ other₂] at here ⊢
        exact linked.blank i here
  · intro i
    obtain rfl | other₁ := eq_or_ne i k
    · rw [new]
      exact (by decide : (1 : Int) < 2 ^ 15)
    · obtain rfl | other₂ := eq_or_ne i d
      · exact small
      · rw [other i other₁ other₂]
        exact linked.small i

/-- A directory is named in its parent only, and the root nowhere. -/
theorem named_in (linked : Linked N disk) (dir : (disk d).ty = .dir) (sub : (disk k).ty = .dir)
    (named : k ∈ childrenOf (disk d).entries) : k ≠ rootino ∧ d = parentOf (disk k).entries := by
  have count := linked.tree.named k (linked.mem sub) d (linked.mem dir)
  have positive := Multiset.count_pos.mpr named
  by_contra wrong
  rw [if_neg wrong] at count
  omega

theorem nlink_of_empty (linked : Linked N disk) (sub : (disk k).ty = .dir) (other : k ≠ rootino)
    (empty : childrenOf (disk k).entries = 0) : (disk k).nlink = 1 := by
  rw [linked.law k (sub ▸ nofun), linked.tree.links_of_empty (linked.mem sub) other empty]
  rfl

/-- The empty directory `k` goes free, with its name in `d` and its link to `d`. -/
theorem rmdir (linked : Linked N disk) (dir : (disk d).ty = .dir) (sub : (disk k).ty = .dir)
    (named : k ∈ childrenOf (disk d).entries) (empty : childrenOf (disk k).entries = 0)
    (free : (disk' k).ty = .free) (none : (disk' k).entries = []) (unlinked : (disk' k).nlink = 0)
    (other : ∀ i, i ≠ k → i ≠ d → disk' i = disk i) (dir' : (disk' d).ty = .dir)
    (shape : Shape d (disk' d).entries)
    (parent : parentOf (disk' d).entries = parentOf (disk d).entries)
    (children : childrenOf (disk' d).entries = (childrenOf (disk d).entries).erase k)
    (nlink : (disk' d).nlink + 1 = (disk d).nlink) : Linked N disk' := by
  obtain ⟨notRoot, above⟩ := linked.named_in dir sub named
  have member := linked.mem sub
  have apart : d ≠ k := above ▸ linked.tree.parent_ne member notRoot empty member
  have less : dirs N disk' = (dirs N disk).erase k := by
    ext i
    rw [Finset.mem_erase, mem_dirs, mem_dirs]
    obtain rfl | other₁ := eq_or_ne i k
    · rw [free]
      exact iff_of_false (fun wrong => nomatch wrong.2) fun wrong => wrong.1 rfl
    · obtain rfl | other₂ := eq_or_ne i d
      · simp only [dir, dir', other₁, ne_eq, not_false_eq_true, true_and]
      · rw [other i other₁ other₂]
        simp only [other₁, ne_eq, not_false_eq_true, true_and]
  have old {e : Nat} (inside : e ∈ (dirs N disk).erase k) :
      parentOf (disk' e).entries = parentOf (disk e).entries ∧
        childrenOf (disk' e).entries =
          Function.update (fun e => childrenOf (disk e).entries) d
          ((childrenOf (disk d).entries).erase k) e := by
    have other₁ := Finset.ne_of_mem_erase inside
    obtain rfl | other₂ := eq_or_ne e d
    · rw [Function.update_self]
      exact ⟨parent, children⟩
    · rw [Function.update_of_ne other₂, other e other₁ other₂]
      exact ⟨rfl, rfl⟩
  have tree := linked.tree.rmdir member notRoot empty
  have count (i : Nat) := linked.tree.links_rmdir member notRoot empty i
  rw [← above] at tree
  simp only [← above] at count
  have law (i : Nat) : links (dirs N disk') (fun d => parentOf (disk' d).entries)
      (fun d => childrenOf (disk' d).entries) i +
      ((if i = d then 1 else 0) + if i = k then 1 else 0) =
      links (dirs N disk) (fun d => parentOf (disk d).entries)
        (fun d => childrenOf (disk d).entries) i := by
    rw [← count i, less]
    congr 1
    exact links_congr (fun e inside => (old inside).1) (fun e inside => (old inside).2) i
  refine ⟨?_, ?_, ?_, ?_, ?_, ?_, ?_⟩
  · rw [less]
    refine ⟨tree.root_mem, ?_, ?_, ?_⟩
    · exact (old tree.root_mem).1.trans tree.parent_root
    · intro c inside
      rw [(old inside).1]
      exact tree.parent_mem c inside
    · intro c inside e inside'
      rw [(old inside).1, (old inside').2]
      exact tree.named c inside e inside'
  · intro e here
    have other₁ : e ≠ k := by
      rintro rfl
      rw [free] at here
      cases here
    obtain rfl | other₂ := eq_or_ne e d
    · exact shape
    · rw [other e other₁ other₂] at here ⊢
      exact linked.shape e here
  · intro i here
    obtain rfl | other₂ := eq_or_ne i d
    · exact linked.range i (dir ▸ nofun)
    · rw [other i (by rintro rfl; exact here free) other₂] at here
      exact linked.range i here
  · intro e i here child
    have other₁ : e ≠ k := by
      rintro rfl
      rw [free] at here
      cases here
    have dirOld : (disk e).ty = .dir := by
      obtain rfl | other₂ := eq_or_ne e d
      · exact dir
      · rw [← other e other₁ other₂]
        exact here
    have part := count_le_links (fun d => parentOf (disk' d).entries)
      (fun d => childrenOf (disk' d).entries)
      (less ▸ Finset.mem_erase.mpr ⟨other₁, linked.mem dirOld⟩) i
    have positive := Multiset.count_pos.mpr child
    obtain rfl | other₃ := eq_or_ne i k
    · -- Its only link is gone.
      have one := linked.tree.links_of_empty member notRoot empty
      have now := law i
      rw [one, if_neg apart.symm, if_pos rfl] at now
      omega
    · obtain rfl | other₄ := eq_or_ne i d
      · exact dir' ▸ nofun
      · rw [other i other₃ other₄]
        apply linked.target e i dirOld
        obtain rfl | other₂ := eq_or_ne e d
        · rw [children] at child
          exact Multiset.mem_of_mem_erase child
        · rw [other e other₁ other₂] at child
          exact child
  · intro i here
    have now := law i
    have other₁ : i ≠ k := by
      rintro rfl
      exact here free
    rw [if_neg other₁] at now
    obtain rfl | other₂ := eq_or_ne i d
    · have before := linked.law i (dir ▸ nofun)
      rw [if_pos rfl] at now
      omega
    · rw [other i other₁ other₂] at here ⊢
      have before := linked.law i here
      rw [if_neg other₂] at now
      omega
  · intro i here
    obtain rfl | other₁ := eq_or_ne i k
    · exact none
    · obtain rfl | other₂ := eq_or_ne i d
      · exact absurd dir' here
      · rw [other i other₁ other₂] at here ⊢
        exact linked.blank i here
  · intro i
    obtain rfl | other₁ := eq_or_ne i k
    · rw [unlinked]
      decide
    · obtain rfl | other₂ := eq_or_ne i d
      · have before := linked.small i
        omega
      · rw [other i other₁ other₂]
        exact linked.small i

end Linked
end Steps
end Aso.Xv6.Names
