import Aso.Xv6.Names.Alone
import Aso.Xv6.Names.Calls

/-! Each call, run alone, leaves the directories a tree with the right link counts
and frees what has neither a name nor a reference. A walk only meets inodes that are
allocated and linked, so it changes nothing on disk. -/
namespace Aso.Xv6.Names
open Interleave Aso.Sequential Aso.Sequential.Rules

def Dnode.Alive (n : Dnode) : Prop := n.ty ≠ .free ∧ n.nlink ≠ 0

/-- Walks from the root and from `cwd` stay among linked inodes. -/
structure Walkable (cwd : Nat) (disk : Nat → Dnode) : Prop where
  root : (disk rootino).Alive
  cwd : (disk cwd).Alive
  entry : ∀ d, (disk d).ty = .dir → ∀ e ∈ (disk d).entries, e.inum ≠ 0 → (disk e.inum).Alive

/-- The inode that `namex` looks for, from `d` on. -/
def sought (disk : Nat → Dnode) (parent : Bool) : Nat → List Name → Option Nat
  | d, [] => if parent then none else some d
  | d, name :: rest =>
    if (disk d).ty ≠ .dir then none
    else if parent ∧ rest = [] then some d
    else match findEntry (disk d).entries name with
      | none => none
      | some (next, _) => sought disk parent next rest

section
variable {p : Slot} {base : Nat → Nat} {N i cwd : Nat} {extra : Multiset Nat} {locked : List Nat}
  {disk : Nat → Dnode} {s : Shared}

/-- A linked inode outlives the references to it. -/
theorem hold_put {caller : Caller} {post : Unit → Shared → Prop}
    (here : Holds p base N (i ::ₘ extra) locked disk s) (alive : (disk i).Alive)
    (next : ∀ t, Holds p base N extra locked disk t → post () t) :
    rules.wp exec p (iputFrom caller i) post s := by
  refine hold_iput here (Multiset.mem_cons_self _ _) (fun t _ here => ?_)
    fun t unlinked => absurd unlinked alive.2
  rw [Multiset.erase_cons_head] at here
  exact next t here

theorem hold_unlockput (rest : List Nat) {post : Unit → Shared → Prop}
    (here : Holds p base N (i ::ₘ extra) locked disk s)
    (without : ∀ j, j ∈ rest ↔ j ∈ locked ∧ j ≠ i) (alive : (disk i).Alive)
    (next : ∀ t, Holds p base N extra rest disk t → post () t) :
    rules.wp exec p (iunlockput i) post s :=
  wp_bind (hold_iunlock rest here without fun _ _ here => hold_put here alive next)

theorem hold_onlyIf {b : Bool} {prog : Code Unit} {post : Unit → Shared → Prop}
    (yes : b = true → rules.wp exec p prog post s) (no : b = false → post () s) :
    rules.wp exec p (onlyIf b prog) post s := by
  cases b with
  | true => exact yes rfl
  | false => exact no rfl

theorem Walkable.found (walkable : Walkable cwd disk) {d k off : Nat} {name : Name}
    (dir : (disk d).ty = .dir) (found : findEntry (disk d).entries name = some (k, off)) :
    (disk k).Alive := by
  obtain ⟨e, place, rfl, used, -⟩ := findEntry_at found
  exact walkable.entry d dir e (List.mem_of_getElem? place) used

theorem hold_namexLoop (parent : Bool) (elems : List Name) {ip : Nat}
    {post : Option (Nat × Name) → Shared → Prop} (here : Holds p base N (ip ::ₘ extra) [] disk s)
    (walkable : Walkable cwd disk) (alive : (disk ip).Alive)
    (failed : ∀ t, sought disk parent ip elems = none → Holds p base N extra [] disk t →
      post none t)
    (found : ∀ k name t, sought disk parent ip elems = some k → (disk k).Alive →
      (parent = true → (disk k).ty = .dir) → Holds p base N (k ::ₘ extra) [] disk t →
      post (some (k, name)) t) :
    rules.wp exec p (namexLoop parent elems ip) post s := by
  induction elems generalizing ip s with
  | nil =>
    unfold namexLoop
    split
    · next above => exact wp_bind (hold_put here alive fun t => failed t (if_pos above))
    · next child => exact found ip [] s (if_neg child) alive (fun wrong => absurd wrong child) here
  | cons name rest ih =>
    unfold namexLoop
    refine wp_bind (hold_ilock here alive.1 fun t₁ _ here₁ => ?_)
    refine wp_bind (hold_type here₁ ?_)
    have fails (none : sought disk parent ip (name :: rest) = none) :
        rules.wp exec p (iunlockput ip >>= fun _ => pure Option.none) post t₁ :=
      wp_bind (hold_unlockput [] here₁ nothing_left alive fun t => failed t none)
    rw [sought] at failed found fails
    split
    · next other => exact fails (if_pos other)
    · next dir =>
      rw [if_neg dir] at failed found fails
      have dir : (disk ip).ty = .dir := not_not.mp dir
      split
      · next last =>
        refine wp_bind (hold_iunlock [] here₁ nothing_left fun t₂ _ here₂ => ?_)
        exact found ip name t₂ (if_pos last) alive (fun _ => dir) here₂
      · next more =>
        rw [if_neg more] at failed found fails
        refine wp_bind (hold_dirlookup here₁ (fun _ absent => fails (by rw [absent])) ?_)
        intro k off t₂ _ entry here₂
        rw [entry] at failed found
        rw [Multiset.cons_swap] at here₂
        refine wp_bind (hold_unlockput [] here₂ nothing_left alive fun t₃ here₃ => ?_)
        exact ih here₃ (walkable.found dir entry) failed found

theorem hold_namex (parent : Bool) (path : Path) {post : Option (Nat × Name) → Shared → Prop}
    (here : Holds p base N extra [] disk s) (walkable : Walkable cwd disk)
    (failed : ∀ t, Holds p base N extra [] disk t → post none t)
    (found : ∀ k name t, (disk k).Alive → (parent = true → (disk k).ty = .dir) →
      Holds p base N (k ::ₘ extra) [] disk t → post (some (k, name)) t) :
    rules.wp exec p (namex parent path cwd) post s := by
  refine wp_bind (hold_iget here fun t here => ?_)
  refine hold_namexLoop parent _ here walkable ?_ (fun t _ => failed t)
    fun k name t _ => found k name t
  split
  · exact walkable.root
  · exact walkable.cwd

theorem hold_namei (path : Path) {post : Option Nat → Shared → Prop}
    (here : Holds p base N extra [] disk s) (walkable : Walkable cwd disk)
    (failed : ∀ t, Holds p base N extra [] disk t → post none t)
    (found : ∀ k t, (disk k).Alive → Holds p base N (k ::ₘ extra) [] disk t → post (some k) t) :
    rules.wp exec p (namei path cwd) post s :=
  wp_bind (hold_namex false path here walkable failed fun k _ t alive _ => found k t alive)

end

/-- The disk between two calls: `homes` are the current
directories and `total` counts the references. -/
structure Tidy (N : Nat) (homes : Nat → Prop) (total : Nat → Nat) (disk : Nat → Dnode) : Prop where
  linked : Linked N disk
  home : ∀ i, homes i → (disk i).ty = .dir
  unnamed : ∀ i, (disk i).ty ≠ .free → (disk i).nlink = 0 → total i ≠ 0

/-- A C `short` holds small numbers as they are. -/
theorem short_of_small {n : Int} (least : 0 ≤ n) (small : n < 2 ^ 15) : short n = n := by
  rw [short, Int.emod_eq_of_lt (by omega) (by omega)]
  omega

section
variable {N d k cwd : Nat} {homes : Nat → Prop} {total : Nat → Nat} {disk disk' : Nat → Dnode}
  {name : Name} {ty : Ty}

theorem Linked.nlink_nonneg (linked : Linked N disk) (allocated : (disk k).ty ≠ .free) :
    0 ≤ (disk k).nlink := by
  rw [linked.law k allocated]
  exact Int.natCast_nonneg _

theorem Linked.alive (linked : Linked N disk) (dir : (disk d).ty = .dir) : (disk d).Alive :=
  ⟨dir ▸ nofun, linked.links_pos dir⟩

theorem Linked.walkable (linked : Linked N disk) (home : (disk cwd).ty = .dir) :
    Walkable cwd disk where
  root := linked.alive (mem_dirs.mp linked.tree.root_mem).2
  cwd := linked.alive home
  entry := fun _ dir _ member used => linked.entry dir member used

/-- A new inode without a directory's entries gets its first name. -/
theorem Linked.create_leaf (linked : Linked N disk) (dir : (disk d).ty = .dir)
    (free : (disk k).ty = .free) (inside : 0 < k ∧ k < N)
    (absent : findEntry (disk d).entries name = none) (kind : ty ≠ .free) (leaf : ty ≠ .dir)
    (new : disk' k = ⟨ty, 1, []⟩) (other : ∀ i, i ≠ k → i ≠ d → disk' i = disk i)
    (above : disk' d = { disk d with entries := addEntry (disk d).entries ⟨name, k⟩ }) :
    Linked N disk' := by
  have apart : d ≠ k := by
    rintro rfl
    rw [free] at dir
    cases dir
  -- First the inode is allocated, then it is linked.
  have start : Linked N (Function.update disk k ⟨ty, 0, []⟩) := by
    refine linked.retype (x := k) (by rw [free]; nofun)
      (fun i other => Function.update_of_ne other ..) ?_ ?_ ?_
      (.inl free) inside
    · rw [Function.update_self]
      exact leaf
    · rw [Function.update_self]
    · rw [Function.update_self]
  have oldDir : Function.update disk k ⟨ty, 0, []⟩ d = disk d := Function.update_of_ne apart ..
  have oldNew : Function.update disk k ⟨ty, 0, []⟩ k = ⟨ty, 0, []⟩ := Function.update_self ..
  have parent := linked.parent dir
  have shape := linked.shape d dir
  have added := shape.addEntry (e := ⟨name, k⟩) (linked.range d (dir ▸ nofun)).1.ne' parent.1
    (shape.plain (linked.range d (dir ▸ nofun)).1.ne' parent.1 absent) inside.1.ne'
  have none : (childrenOf (disk d).entries).count k = 0 := by
    rw [Multiset.count_eq_zero]
    exact fun named => linked.target d k dir named free
  refine start.rename (d := d) (x := k) (by rw [oldDir]; exact dir) (by rw [oldNew]; exact leaf)
    (by rw [oldNew]; exact kind)
    (fun i => ?_) (fun i otherDir => ?_) ?_ ?_ (fun i otherNew => ?_) (fun i otherNew => ?_) ?_ ?_
  · obtain rfl | otherNew := eq_or_ne i k
    · rw [new, oldNew]
    · rw [Function.update_of_ne otherNew]
      obtain rfl | otherDir := eq_or_ne i d
      · rw [above]
      · rw [other i otherNew otherDir]
  · obtain rfl | otherNew := eq_or_ne i k
    · rw [new, oldNew]
    · rw [Function.update_of_ne otherNew, other i otherNew otherDir]
  · rw [above]
    exact added.1
  · rw [above, oldDir]
    exact added.2.1
  · rw [above, oldDir, added.2.2, Multiset.count_cons_of_ne otherNew]
  · rw [Function.update_of_ne otherNew]
    obtain rfl | otherDir := eq_or_ne i d
    · rw [above]
    · rw [other i otherNew otherDir]
  · rw [above, oldDir, oldNew, new, added.2.2, Multiset.count_cons_self, none]
    rfl
  · rw [new]
    exact (by decide : (1 : Int) < 2 ^ 15)

/-- The disk after `create` of the inode `k` in `d`. -/
structure Created (ty : Ty) (d k : Nat) (name : Name) (disk disk' : Nat → Dnode) : Prop where
  new : disk' k = ⟨ty, 1, if ty = .dir then [⟨[46], k⟩, ⟨[46, 46], d⟩] else []⟩
  above : disk' d = ⟨(disk d).ty, (disk d).nlink + (if ty = .dir then 1 else 0),
    addEntry (disk d).entries ⟨name, k⟩⟩
  other : ∀ i, i ≠ k → i ≠ d → disk' i = disk i

theorem Linked.create (linked : Linked N disk) (dir : (disk d).ty = .dir)
    (free : (disk k).ty = .free) (inside : 0 < k ∧ k < N)
    (absent : findEntry (disk d).entries name = none) (kind : ty ≠ .free)
    (created : Created ty d k name disk disk') (small : (disk' d).nlink < 2 ^ 15) :
    Linked N disk' := by
  obtain ⟨new, above, other⟩ := created
  by_cases sub : ty = .dir
  · subst sub
    rw [if_pos rfl] at new above
    have parent := linked.parent dir
    have shape := linked.shape d dir
    have added := shape.addEntry (e := ⟨name, k⟩) (linked.range d (dir ▸ nofun)).1.ne' parent.1
      (shape.plain (linked.range d (dir ▸ nofun)).1.ne' parent.1 absent) inside.1.ne'
    refine linked.mkdir dir free inside new other ?_ ?_ ?_ ?_ ?_ small
    all_goals rw [above]
    · exact dir
    · exact added.1
    · exact added.2.1
    · exact added.2.2
  · rw [if_neg sub] at new above
    refine linked.create_leaf dir free inside absent kind sub new other ?_
    rw [above, add_zero]

theorem Tidy.create (tidy : Tidy N homes total disk) (dir : (disk d).ty = .dir)
    (free : (disk k).ty = .free) (inside : 0 < k ∧ k < N)
    (absent : findEntry (disk d).entries name = none) (kind : ty ≠ .free)
    (created : Created ty d k name disk disk') (small : (disk' d).nlink < 2 ^ 15) :
    Tidy N homes total disk' := by
  have linked := tidy.linked.create dir free inside absent kind created small
  refine ⟨linked, fun i home => ?_, fun i allocated zero => ?_⟩
  · have before := tidy.home i home
    obtain rfl | otherDir := eq_or_ne i d
    · rw [created.above]
      exact dir
    · rw [created.other i (by rintro rfl; rw [free] at before; cases before) otherDir]
      exact before
  · obtain rfl | otherNew := eq_or_ne i k
    · rw [created.new] at zero
      cases zero
    · obtain rfl | otherDir := eq_or_ne i d
      · exact absurd zero (linked.links_pos (by rw [created.above]; exact dir))
      · rw [created.other i otherNew otherDir] at allocated zero
        exact tidy.unnamed i allocated zero

end

section
variable {p : Slot} {base : Nat → Nat} {N cwd dp ip off : Nat} {homes : Nat → Prop}
  {extra : Multiset Nat} {locked : List Nat} {disk : Nat → Dnode} {s : Shared}

theorem hold_mustLink {d k : Nat} {name : Name} {post : Unit → Shared → Prop}
    (here : Holds p base N extra locked disk s) (absent : findEntry (disk d).entries name = none)
    (next : ∀ t, Holds p base N extra locked
      (Function.update disk d { disk d with entries := addEntry (disk d).entries ⟨name, k⟩ }) t →
      post () t) : rules.wp exec p (mustLink d name k) post s := by
  refine wp_bind (wp_bind (hold_dirlookup here (fun _ _ => ?_) fun _ _ _ _ found => ?_))
  · refine wp_bind (hold_insert here fun t here => ?_)
    exact next t here
  · rw [absent] at found
    cases found

theorem hold_makeDots {post : Unit → Shared → Prop} (here : Holds p base N extra locked disk s)
    (apart : ip ≠ dp) (self : ip ≠ 0) (new : disk ip = ⟨.dir, 1, []⟩) (least : 0 ≤ (disk dp).nlink)
    (next : ∀ disk' t, disk' ip = ⟨.dir, 1, [⟨[46], ip⟩, ⟨[46, 46], dp⟩]⟩ →
      disk' dp = { disk dp with nlink := (disk dp).nlink + 1 } → (disk dp).nlink + 1 < 2 ^ 15 →
      (∀ i, i ≠ ip → i ≠ dp → disk' i = disk i) → Holds p base N extra locked disk' t → post () t) :
    rules.wp exec p (makeDots dp ip) post s := by
  refine wp_bind (hold_nlink here fun t₁ small here₁ => ?_)
  rw [short_of_small (by omega) small] at here₁
  have new₁ :
      Function.update disk dp { disk dp with nlink := (disk dp).nlink + 1 } ip = ⟨.dir, 1, []⟩ := by
    rw [Function.update_of_ne apart, new]
  refine wp_bind (hold_mustLink here₁ (by rw [new₁]; rfl) fun t₂ here₂ => ?_)
  refine hold_mustLink here₂ (by rw [Function.update_self, new₁]; simp [addEntry, findEntry,
    namecmp, dirsiz]) fun t₃ here₃ => ?_
  refine next _ t₃ ?_ ?_ small (fun i other₁ other₂ => ?_) here₃
  · simp only [Function.update_self, new₁, addEntry, self, if_false]
  · simp only [Function.update_of_ne apart.symm, Function.update_self]
  · simp only [Function.update_of_ne other₁, Function.update_of_ne other₂]

/-- `create` leaves the directory, locks the inode and keeps a reference to it. -/
theorem hold_create (path : Path) {ty : Ty} (kind : ty ≠ .free) {post : Option Nat → Shared → Prop}
    (here : Holds p base N extra [] disk s) (tidy : Tidy N homes base disk) (home : homes cwd)
    (failed : ∀ t, Holds p base N extra [] disk t → post none t)
    (made : ∀ ip disk' t, Tidy N homes base disk' → (disk' ip).Alive →
      Holds p base N (ip ::ₘ extra) [ip] disk' t →
      post (some ip) t) : rules.wp exec p (create path ty cwd) post s := by
  have walkable := tidy.linked.walkable (tidy.home cwd home)
  refine wp_bind (hold_namex true path here walkable failed fun dp name t₁ alive dir here₁ => ?_)
  have dir := dir rfl
  refine wp_bind (hold_ilock here₁ alive.1 fun t₂ _ here₂ => ?_)
  refine wp_bind (hold_dirlookup here₂ (fun _ absent => ?_) fun ip off t₃ _ found here₃ => ?_)
  · refine wp_bind (hold_ialloc here₂ fun ip t₃ positive bound free here₃ => ?_)
    refine wp_bind (hold_iget here₃ fun t₄ here₄ => ?_)
    refine wp_bind
      (hold_ilock here₄ (by rw [Function.update_self]; exact kind) fun t₅ unheld here₅ => ?_)
    have apart : ip ≠ dp := by simpa using unheld
    refine wp_bind (hold_init here₅ fun t₆ here₆ => ?_)
    simp only [Function.update_self, Function.update_idem] at here₆
    have least := tidy.linked.nlink_nonneg alive.1
    -- The last two steps are the same for every type.
    have finish (disk₁ : Nat → Dnode) (t : Shared)
        (here : Holds p base N (ip ::ₘ dp ::ₘ extra) [ip, dp] disk₁ t)
        (entries : (disk₁ dp).entries = (disk dp).entries)
        (created : Created ty dp ip name disk
          (Function.update disk₁ dp
          { disk₁ dp with entries := addEntry (disk₁ dp).entries ⟨name, ip⟩ }))
        (small : (disk₁ dp).nlink < 2 ^ 15) :
        rules.wp exec p (mustLink dp name ip >>= fun _ => iunlockput dp >>= fun _ => pure (some ip))
          post t := by
      refine wp_bind (hold_mustLink here (by rw [entries]; exact absent) fun t₇ here₇ => ?_)
      have tidy' := tidy.create dir free ⟨positive, bound⟩ absent kind created
        (by rw [Function.update_self]; exact small)
      rw [Multiset.cons_swap] at here₇
      refine wp_bind (hold_unlockput [ip] here₇ (first_left apart)
        (tidy'.linked.alive (by rw [created.above]; exact dir)) fun t₈ here₈ => ?_)
      refine made ip _ t₈ tidy' ?_ here₈
      rw [created.new]
      exact ⟨kind, one_ne_zero⟩
    refine wp_bind (hold_onlyIf (fun sub => ?_) fun leaf => ?_)
    · have sub : ty = .dir := of_decide_eq_true sub
      subst sub
      refine hold_makeDots here₆ apart positive.ne' (Function.update_self ..) ?_
        fun disk' t₇ new above small other here₇ => ?_
      · rw [Function.update_of_ne apart.symm]
        exact least
      · rw [Function.update_of_ne apart.symm] at above small
        refine finish disk' t₇ here₇ (by rw [above]) ⟨?_, ?_, fun i other₁ other₂ => ?_⟩
          (by rw [above]; exact small)
        · rw [Function.update_of_ne apart, new, if_pos rfl]
        · rw [Function.update_self, above, if_pos rfl]
        · rw [Function.update_of_ne other₂, other i other₁ other₂, Function.update_of_ne other₁]
    · have leaf : ty ≠ .dir := of_decide_eq_false leaf
      have same : Function.update disk ip ⟨ty, 1, []⟩ dp = disk dp :=
        Function.update_of_ne apart.symm ..
      refine finish _ t₆ here₆ (by rw [same]) ⟨?_, ?_, fun i other₁ other₂ => ?_⟩
        (by rw [same]; exact tidy.linked.small dp)
      · rw [Function.update_of_ne apart, Function.update_self, if_neg leaf]
      · rw [Function.update_self, same, if_neg leaf, add_zero]
      · rw [Function.update_of_ne other₂, Function.update_of_ne other₁]
  · rw [Multiset.cons_swap] at here₃
    refine wp_bind (hold_unlockput [] here₃ nothing_left alive fun t₄ here₄ => ?_)
    have target := walkable.found dir found
    refine wp_bind (hold_ilock here₄ target.1 fun t₅ _ here₅ => ?_)
    refine wp_bind (hold_type here₅ ?_)
    split
    · exact made ip disk t₅ tidy target here₅
    · exact wp_bind (hold_unlockput [] here₅ nothing_left target failed)

/-- A call is over, and nothing is left of it. -/
def Kept (p : Slot) (base : Nat → Nat) (N : Nat) (homes : Nat → Prop) (t : Shared) : Prop :=
  ∃ disk, Tidy N homes base disk ∧ Holds p base N 0 [] disk t

/-- The disk with one more link counted for an inode. -/
def counted (disk : Nat → Dnode) (ip : Nat) : Nat → Dnode :=
  Function.update disk ip { disk ip with nlink := (disk ip).nlink + 1 }

/-- The disk with one more name in a directory. -/
def entered (disk : Nat → Dnode) (dp : Nat) (e : Dirent) : Nat → Dnode :=
  Function.update disk dp { disk dp with entries := addEntry (disk dp).entries e }

theorem counted_ty (i : Nat) : (counted disk ip i).ty = (disk i).ty := by
  obtain rfl | other := eq_or_ne i ip
  · rw [counted, Function.update_self]
  · rw [counted, Function.update_of_ne other]

theorem counted_entries (i : Nat) : (counted disk ip i).entries = (disk i).entries := by
  obtain rfl | other := eq_or_ne i ip
  · rw [counted, Function.update_self]
  · rw [counted, Function.update_of_ne other]

theorem Walkable.counted (walkable : Walkable cwd disk) (least : 0 ≤ (disk ip).nlink) :
    Walkable cwd (counted disk ip) := by
  have alive (i : Nat) (before : (disk i).Alive) : (Names.counted disk ip i).Alive := by
    refine ⟨by rw [counted_ty]; exact before.1, ?_⟩
    obtain rfl | other := eq_or_ne i ip
    · rw [Names.counted, Function.update_self]
      change (disk i).nlink + 1 ≠ 0
      omega
    · rw [Names.counted, Function.update_of_ne other]
      exact before.2
  refine ⟨alive _ walkable.root, alive _ walkable.cwd, fun d dir e member used => alive _ ?_⟩
  rw [counted_ty] at dir
  rw [counted_entries] at member
  exact walkable.entry d dir e member used

theorem hold_linkName {post : Bool → Shared → Prop} (new : Path)
    (here : Holds p base N extra [] disk s) (walkable : Walkable cwd disk)
    (failed : ∀ t, Holds p base N extra [] disk t → post false t)
    (linked : ∀ dp name t, (disk dp).ty = .dir → findEntry (disk dp).entries name = none →
      Holds p base N extra [] (entered disk dp ⟨name, ip⟩) t → post true t) :
    rules.wp exec p (linkName new ip cwd) post s := by
  refine wp_bind (hold_namex true new here walkable failed fun dp name t₁ alive dir here₁ => ?_)
  have dir := dir rfl
  refine wp_bind (hold_ilock here₁ alive.1 fun t₂ _ here₂ => ?_)
  refine wp_bind
    (wp_bind (hold_dirlookup here₂ (fun _ absent => ?_) fun k off t₃ _ found here₃ => ?_))
  · refine wp_bind (hold_insert here₂ fun t₃ here₃ => ?_)
    refine wp_bind
      (hold_unlockput [] here₃ nothing_left ?_ fun t₄ here₄ => linked dp name t₄ dir absent here₄)
    rw [Function.update_self]
    exact alive
  · refine wp_bind (hold_put here₃ (walkable.found dir found) fun t₄ here₄ => ?_)
    exact wp_bind (hold_unlockput [] here₄ nothing_left alive failed)

theorem hold_undoLink {post : Unit → Shared → Prop}
    (here : Holds p base N (ip ::ₘ extra) [] (counted disk ip) s) (alive : (disk ip).Alive)
    (least : 0 ≤ (disk ip).nlink) (small : (disk ip).nlink < 2 ^ 15)
    (next : ∀ t, Holds p base N extra [] disk t → post () t) :
    rules.wp exec p (undoLink ip) post s := by
  refine wp_bind (hold_ilock here (by rw [counted_ty]; exact alive.1) fun t₁ _ here₁ => ?_)
  refine wp_bind (hold_nlink here₁ fun t₂ _ here₂ => ?_)
  have undone : Function.update (counted disk ip) ip
      { counted disk ip ip with nlink := short ((counted disk ip ip).nlink + -1) } = disk := by
    rw [counted, Function.update_self, Function.update_idem]
    change Function.update disk ip { disk ip with nlink := short ((disk ip).nlink + 1 + -1) } = disk
    rw [Int.add_neg_cancel_right, short_of_small least small, Function.update_eq_self]
  rw [undone] at here₂
  exact hold_unlockput [] here₂ nothing_left alive next

theorem Tidy.link {name : Name} {total : Nat → Nat} (tidy : Tidy N homes total disk)
    (dir : (disk dp).ty = .dir) (leaf : (disk ip).ty ≠ .dir) (alive : (disk ip).Alive)
    (absent : findEntry (disk dp).entries name = none) (small : (disk ip).nlink + 1 < 2 ^ 15) :
    Tidy N homes total (entered (counted disk ip) dp ⟨name, ip⟩) := by
  have linked := tidy.linked
  have apart : ip ≠ dp := by
    rintro rfl
    exact leaf dir
  have here : entered (counted disk ip) dp ⟨name, ip⟩ dp =
      { disk dp with entries := addEntry (disk dp).entries ⟨name, ip⟩ } := by
    rw [entered, Function.update_self, counted, Function.update_of_ne apart.symm]
  have there : entered (counted disk ip) dp ⟨name, ip⟩ ip =
      { disk ip with nlink := (disk ip).nlink + 1 } := by
    rw [entered, Function.update_of_ne apart, counted, Function.update_self]
  have other (i : Nat) (other₁ : i ≠ ip) (other₂ : i ≠ dp) :
      entered (counted disk ip) dp ⟨name, ip⟩ i = disk i := by
    rw [entered, Function.update_of_ne other₂, counted, Function.update_of_ne other₁]
  have types (i : Nat) : (entered (counted disk ip) dp ⟨name, ip⟩ i).ty = (disk i).ty := by
    obtain rfl | other₁ := eq_or_ne i ip
    · rw [there]
    · obtain rfl | other₂ := eq_or_ne i dp
      · rw [here]
      · rw [other i other₁ other₂]
  have counts (i : Nat) (other₁ : i ≠ ip) :
      (entered (counted disk ip) dp ⟨name, ip⟩ i).nlink = (disk i).nlink := by
    obtain rfl | other₂ := eq_or_ne i dp
    · rw [here]
    · rw [other i other₁ other₂]
  have self := (linked.range dp (dir ▸ nofun)).1.ne'
  have parent := linked.parent dir
  have shape := linked.shape dp dir
  have added := shape.addEntry (e := ⟨name, ip⟩) self parent.1 (shape.plain self parent.1 absent)
    (linked.range ip alive.1).1.ne'
  refine ⟨?_, fun i home => (types i).trans (tidy.home i home), fun i allocated zero => ?_⟩
  · refine linked.rename dir leaf alive.1 types (fun i otherDir => ?_) ?_ ?_
      (fun i otherNew => ?_) counts ?_ ?_
    · obtain rfl | other₁ := eq_or_ne i ip
      · rw [there]
      · rw [other i other₁ otherDir]
    · rw [here]
      exact added.1
    · rw [here]
      exact added.2.1
    · rw [here, added.2.2, Multiset.count_cons_of_ne otherNew]
    · rw [here, there, added.2.2, Multiset.count_cons_self]
      change (disk ip).nlink + 1 + _ = (disk ip).nlink + _
      omega
    · rw [there]
      exact small
  · obtain rfl | other₁ := eq_or_ne i ip
    · rw [there] at zero
      have least := linked.nlink_nonneg alive.1
      change (disk i).nlink + 1 = 0 at zero
      omega
    · rw [counts i other₁] at zero
      exact tidy.unnamed i (types i ▸ allocated) zero

theorem hold_sysLink {c : Data} (old new : Path) (here : Holds p base N 0 [] disk s)
    (tidy : Tidy N homes base disk) (home : homes c.cwd) :
    rules.wp exec p (sysLink old new c) (fun a t => a = c ∧ Kept p base N homes t) s := by
  have walkable := tidy.linked.walkable (tidy.home _ home)
  have same (t : Shared) (here : Holds p base N 0 [] disk t) : c = c ∧ Kept p base N homes t :=
    ⟨rfl, disk, tidy, here⟩
  refine wp_bind (hold_namei old here walkable same fun ip t₁ alive here₁ => ?_)
  refine wp_bind (hold_ilock here₁ alive.1 fun t₂ _ here₂ => ?_)
  refine wp_bind (hold_type here₂ ?_)
  split
  · exact wp_bind (hold_unlockput [] here₂ nothing_left alive same)
  · next leaf =>
    have least := tidy.linked.nlink_nonneg alive.1
    refine wp_bind (hold_nlink here₂ fun t₃ small here₃ => ?_)
    rw [short_of_small (by omega) small] at here₃
    change Holds p base N (ip ::ₘ 0) [ip] (counted disk ip) t₃ at here₃
    refine wp_bind (hold_iunlock [] here₃ nothing_left fun t₄ _ here₄ => ?_)
    have walkable' := walkable.counted least
    refine wp_bind
      (hold_linkName new here₄ walkable' (fun t₅ here₅ => ?_) fun dp name t₅ dir absent here₅ => ?_)
    · exact wp_bind (hold_undoLink here₅ alive least (tidy.linked.small ip) same)
    · rw [counted_ty] at dir
      rw [counted_entries] at absent
      have tidy' := tidy.link dir leaf alive absent small
      refine wp_bind (hold_put here₅ ?_ fun t₆ here₆ => ⟨rfl, _, tidy', here₆⟩)
      have apart : ip ≠ dp := by
        rintro rfl
        exact leaf dir
      rw [entered, Function.update_of_ne apart, counted, Function.update_self]
      refine ⟨alive.1, ?_⟩
      change (disk ip).nlink + 1 ≠ 0
      omega

/-- An inode without a name goes free with the last reference. -/
theorem Tidy.free {total total' : Nat → Nat} (tidy : Tidy N homes total disk)
    (allocated : (disk ip).ty ≠ .free) (unlinked : (disk ip).nlink = 0)
    (others : ∀ i, i ≠ ip → total' i = total i) :
    Tidy N homes total' (Function.update disk ip ⟨.free, (disk ip).nlink, []⟩) := by
  have leaf : (disk ip).ty ≠ .dir := fun dir => tidy.linked.links_pos dir unlinked
  have now :
      Function.update disk ip ⟨.free, (disk ip).nlink, []⟩ ip = ⟨.free, (disk ip).nlink, []⟩ :=
    Function.update_self ..
  refine ⟨?_, fun i home => ?_, fun i still zero => ?_⟩
  · refine tidy.linked.retype leaf (fun i other => Function.update_of_ne other ..) ?_ ?_ ?_
      (.inr unlinked)
      (tidy.linked.range ip allocated)
    · rw [now]
      nofun
    · rw [now]
    · rw [now]
      exact unlinked
  · have before := tidy.home i home
    rw [Function.update_of_ne (by rintro rfl; exact leaf before)]
    exact before
  · obtain rfl | other := eq_or_ne i ip
    · rw [now] at still
      exact absurd rfl still
    · rw [Function.update_of_ne other] at still zero
      rw [others i other]
      exact tidy.unnamed i still zero

/-- The last step of a call that may have taken the last name. -/
theorem hold_drop {caller : Caller} {post : Unit → Shared → Prop}
    (here : Holds p base N (ip ::ₘ extra) locked disk s)
    (valid : (disk ip).nlink = 0 → (s.inode ip).valid = true)
    (tidy : Tidy N homes (fun i => base i + (ip ::ₘ extra).count i) disk) (next : ∀ disk' t,
      Tidy N homes (fun i => base i + extra.count i) disk' → Holds p base N extra locked disk' t →
      post () t) : rules.wp exec p (iputFrom caller ip) post s := by
  refine hold_iput here (Multiset.mem_cons_self _ _) (fun t more here' => ?_)
    fun t unlinked last here' => ?_
  · rw [Multiset.erase_cons_head] at here'
    refine next disk t ⟨tidy.linked, tidy.home, fun i allocated zero => ?_⟩ here'
    obtain rfl | other := eq_or_ne i ip
    · rw [Multiset.count_cons_self] at more
      intro none
      exact more ⟨valid zero, zero, by omega⟩
    · have before := tidy.unnamed i allocated zero
      rw [Multiset.count_cons_of_ne other] at before
      exact before
  · rw [Multiset.erase_cons_head] at here'
    refine next _ t (tidy.free (here.typed ip (valid unlinked)) unlinked fun i other => ?_) here'
    rw [Multiset.count_cons_of_ne other]

theorem hold_unlockdrop {post : Unit → Shared → Prop}
    (here : Holds p base N (ip ::ₘ extra) [ip] disk s)
    (tidy : Tidy N homes (fun i => base i + (ip ::ₘ extra).count i) disk) (next : ∀ disk' t,
      Tidy N homes (fun i => base i + extra.count i) disk' → Holds p base N extra [] disk' t →
      post () t) : rules.wp exec p (iunlockput ip) post s := by
  refine wp_bind (hold_iunlock [] here nothing_left fun t valid here' => ?_)
  refine hold_drop here' (fun _ => ?_) tidy next
  rw [valid]
  exact here.loaded ip (.inr (.head _))

theorem hold_holdsNames {ty : Ty} {post : Bool → Shared → Prop}
    (here : Holds p base N extra locked disk s) (full : ∀ b, b = true → post b s)
    (empty : (ty = .dir → childrenOf (disk ip).entries = 0) → post false s) :
    rules.wp exec p (holdsNames ip ty) post s := by
  unfold holdsNames
  split
  · refine wp_bind (hold_isdirempty here ?_)
    cases none : ((disk ip).entries.drop 2).all (·.inum = 0) with
    | true =>
      refine empty fun _ => ?_
      rw [Multiset.eq_zero_iff_forall_notMem]
      intro i member
      obtain ⟨used, e, inside, rfl⟩ := mem_live.mp member
      exact used (by simpa using List.all_eq_true.mp none e inside)
    | false => exact full _ rfl
  · next leaf => exact empty fun dir => absurd dir leaf

/-- The disk with a slot of a directory cleared. -/
def erased (disk : Nat → Dnode) (dp off : Nat) : Nat → Dnode :=
  Function.update disk dp { disk dp with entries := (disk dp).entries.set off ⟨[], 0⟩ }

/-- What `unlink` finds in the directory. -/
structure Entry (disk : Nat → Dnode) (dp off ip : Nat) : Prop where
  dir : (disk dp).ty = .dir
  apart : ip ≠ dp
  named : ∃ name, ¬ IsDot name ∧ findEntry (disk dp).entries name = some (ip, off)

theorem Entry.erase (entry : Entry disk dp off ip) (linked : Linked N disk) :
    Shape dp ((disk dp).entries.set off ⟨[], 0⟩) ∧
      parentOf ((disk dp).entries.set off ⟨[], 0⟩) = parentOf (disk dp).entries ∧
      childrenOf ((disk dp).entries.set off ⟨[], 0⟩) = (childrenOf (disk dp).entries).erase ip ∧
      ip ∈ childrenOf (disk dp).entries := by
  obtain ⟨name, plain, found⟩ := entry.named
  obtain ⟨e, place, rfl, used, same⟩ := findEntry_at found
  exact (linked.shape dp entry.dir).set place used plain same

theorem Tidy.unlink {total total' : Nat → Nat} (tidy : Tidy N homes total disk)
    (entry : Entry disk dp off ip) (leaf : (disk ip).ty ≠ .dir) (alive : (disk ip).Alive)
    (more : ∀ i, total i ≠ 0 ∨ i = ip → total' i ≠ 0) : Tidy N homes total'
      (Function.update (erased disk dp off) ip
        { erased disk dp off ip with nlink := (disk ip).nlink - 1 }) := by
  have linked := tidy.linked
  obtain ⟨shape, parent, children, named⟩ := entry.erase linked
  obtain ⟨disk', same⟩ : ∃ disk', disk' =
      Function.update (erased disk dp off) ip
      { erased disk dp off ip with nlink := (disk ip).nlink - 1 } := ⟨_, rfl⟩
  have here : disk' dp = { disk dp with entries := (disk dp).entries.set off ⟨[], 0⟩ } := by
    rw [same, Function.update_of_ne entry.apart.symm, erased, Function.update_self]
  have there : disk' ip = { disk ip with nlink := (disk ip).nlink - 1 } := by
    rw [same, Function.update_self, erased, Function.update_of_ne entry.apart]
  have other (i : Nat) (other₁ : i ≠ ip) (other₂ : i ≠ dp) : disk' i = disk i := by
    rw [same, Function.update_of_ne other₁, erased, Function.update_of_ne other₂]
  rw [← same]
  have types (i : Nat) : (disk' i).ty = (disk i).ty := by
    obtain rfl | other₁ := eq_or_ne i ip
    · rw [there]
    · obtain rfl | other₂ := eq_or_ne i dp
      · rw [here]
      · rw [other i other₁ other₂]
  have counts (i : Nat) (other₁ : i ≠ ip) : (disk' i).nlink = (disk i).nlink := by
    obtain rfl | other₂ := eq_or_ne i dp
    · rw [here]
    · rw [other i other₁ other₂]
  have positive := Multiset.count_pos.mpr named
  refine ⟨?_, fun i home => (types i).trans (tidy.home i home), fun i allocated zero => ?_⟩
  · refine linked.rename entry.dir leaf alive.1 types (fun i otherDir => ?_) ?_ ?_
      (fun i otherNew => ?_) counts ?_ ?_
    · obtain rfl | other₁ := eq_or_ne i ip
      · rw [there]
      · rw [other i other₁ otherDir]
    · rw [here]
      exact shape
    · rw [here]
      exact parent
    · rw [here, children, Multiset.count_erase_of_ne otherNew]
    · rw [here, there, children, Multiset.count_erase_self]
      change (disk ip).nlink - 1 + _ = (disk ip).nlink + _
      omega
    · rw [there]
      have small := linked.small ip
      change (disk ip).nlink - 1 < 2 ^ 15
      omega
  · obtain rfl | other₁ := eq_or_ne i ip
    · exact more i (.inr rfl)
    · rw [counts i other₁] at zero
      exact more i (.inl (tidy.unnamed i (types i ▸ allocated) zero))

/-- The disk after `unlink` of an empty directory that nobody else refers to. -/
structure Removed (dp ip off : Nat) (disk disk' : Nat → Dnode) : Prop where
  gone : disk' ip = ⟨.free, 0, []⟩
  above : disk' dp = ⟨(disk dp).ty, (disk dp).nlink - 1, (disk dp).entries.set off ⟨[], 0⟩⟩
  other : ∀ i, i ≠ ip → i ≠ dp → disk' i = disk i

theorem Tidy.rmdir {total : Nat → Nat} {disk' : Nat → Dnode} (tidy : Tidy N homes total disk)
    (entry : Entry disk dp off ip) (sub : (disk ip).ty = .dir)
    (empty : childrenOf (disk ip).entries = 0) (stranger : ¬ homes ip)
    (removed : Removed dp ip off disk disk') : Tidy N homes total disk' := by
  obtain ⟨gone, above, other⟩ := removed
  obtain ⟨shape, parent, children, named⟩ := entry.erase tidy.linked
  have linked : Linked N disk' := by
    refine tidy.linked.rmdir entry.dir sub named empty ?_ ?_ ?_ other ?_ ?_ ?_ ?_ ?_
    any_goals rw [gone]
    all_goals rw [above]
    · exact entry.dir
    · exact shape
    · exact parent
    · exact children
    · change (disk dp).nlink - 1 + 1 = _
      omega
  refine ⟨linked, fun i home => ?_, fun i allocated zero => ?_⟩
  · obtain rfl | other₂ := eq_or_ne i dp
    · rw [above]
      exact entry.dir
    · rw [other i (by rintro rfl; exact stranger home) other₂]
      exact tidy.home i home
  · have other₁ : i ≠ ip := by
      rintro rfl
      rw [gone] at allocated
      exact allocated rfl
    obtain rfl | other₂ := eq_or_ne i dp
    · exact absurd zero (linked.links_pos (by rw [above]; exact entry.dir))
    · rw [other i other₁ other₂] at allocated zero
      exact tidy.unnamed i allocated zero

/-- The end of `unlink` for a file. -/
theorem hold_unlinkLeaf {post : Unit → Shared → Prop}
    (here : Holds p base N (ip ::ₘ dp ::ₘ 0) [ip, dp] (erased disk dp off) s)
    (tidy : Tidy N homes base disk) (entry : Entry disk dp off ip) (leaf : (disk ip).ty ≠ .dir)
    (alive : (disk ip).Alive) (next : ∀ t, Kept p base N homes t → post () t) :
    rules.wp exec p (iunlockput dp >>= fun _ => perform (.nlink ip (-1)) >>= fun _ => iunlockput ip)
      post s := by
  rw [Multiset.cons_swap] at here
  have above : (erased disk dp off dp).Alive := by
    rw [erased, Function.update_self]
    exact tidy.linked.alive entry.dir
  have same : erased disk dp off ip = disk ip := Function.update_of_ne entry.apart ..
  refine wp_bind (hold_unlockput [ip] here (first_left entry.apart) above fun t₁ here₁ => ?_)
  refine wp_bind (hold_nlink here₁ fun t₂ small here₂ => ?_)
  have least := tidy.linked.nlink_nonneg alive.1
  have linked := alive.2
  rw [same] at small
  change (disk ip).nlink - 1 < 2 ^ 15 at small
  rw [show (erased disk dp off ip).nlink + -1 = (disk ip).nlink - 1 by rw [same]; rfl,
    short_of_small (by omega) small] at here₂
  refine hold_unlockdrop here₂ (tidy.unlink entry leaf alive fun i used => ?_)
    fun disk' t₃ tidy' here₃ => ?_
  · rcases used with used | rfl
    · omega
    · rw [Multiset.count_cons_self]
      omega
  · exact next t₃ ⟨disk', by simpa using tidy', here₃⟩

/-- The end of `unlink` for a directory: its last reference goes, so it goes free. -/
theorem hold_unlinkDir {post : Unit → Shared → Prop}
    (here : Holds p base N (ip ::ₘ dp ::ₘ 0) [ip, dp] (erased disk dp off) s)
    (tidy : Tidy N homes base disk) (entry : Entry disk dp off ip) (sub : (disk ip).ty = .dir)
    (empty : childrenOf (disk ip).entries = 0) (alone : base ip = 0) (stranger : ¬ homes ip)
    (next : ∀ t, Kept p base N homes t → post () t) :
    rules.wp exec p
      (perform (.nlink dp (-1)) >>= fun _ =>
        iunlockput dp >>= fun _ => perform (.nlink ip (-1)) >>= fun _ => iunlockput ip) post s := by
  have above := tidy.linked.alive entry.dir
  have least := tidy.linked.nlink_nonneg above.1
  have one : (disk ip).nlink = 1 :=
    tidy.linked.nlink_of_empty sub
    (tidy.linked.named_in entry.dir sub (entry.erase tidy.linked).2.2.2).1 empty
  have sameDir :
      erased disk dp off dp = { disk dp with entries := (disk dp).entries.set off ⟨[], 0⟩ } :=
    Function.update_self ..
  have sameSub : erased disk dp off ip = disk ip := Function.update_of_ne entry.apart ..
  refine wp_bind (hold_nlink here fun t₁ small here₁ => ?_)
  rw [sameDir] at small here₁
  change (disk dp).nlink - 1 < 2 ^ 15 at small
  change Holds p base N _ _ (Function.update _ dp
    ⟨(disk dp).ty, short ((disk dp).nlink - 1), (disk dp).entries.set off ⟨[], 0⟩⟩) t₁ at here₁
  rw [short_of_small (by have := above.2; omega) small, erased, Function.update_idem] at here₁
  obtain ⟨disk₁, define⟩ : ∃ disk₁, disk₁ = Function.update disk dp
    ⟨(disk dp).ty, (disk dp).nlink - 1, (disk dp).entries.set off ⟨[], 0⟩⟩ := ⟨_, rfl⟩
  rw [← define] at here₁
  have dir₁ :
      disk₁ dp = ⟨(disk dp).ty, (disk dp).nlink - 1, (disk dp).entries.set off ⟨[], 0⟩⟩ := by
    rw [define, Function.update_self]
  have sub₁ : disk₁ ip = disk ip := by rw [define, Function.update_of_ne entry.apart]
  have removed : Removed dp ip off disk (Function.update disk₁ ip ⟨.free, 0, []⟩) := by
    refine ⟨Function.update_self .., ?_, fun i other₁ other₂ => ?_⟩
    · rw [Function.update_of_ne entry.apart.symm, dir₁]
    · rw [Function.update_of_ne other₁, define, Function.update_of_ne other₂]
  have tidy' := tidy.rmdir entry sub empty stranger removed
  have above' : (disk₁ dp).Alive := by
    have final := tidy'.linked.alive (d := dp) (by rw [removed.above]; exact entry.dir)
    rw [Function.update_of_ne entry.apart.symm] at final
    exact final
  rw [Multiset.cons_swap] at here₁
  refine wp_bind (hold_unlockput [ip] here₁ (first_left entry.apart) above' fun t₂ here₂ => ?_)
  refine wp_bind (hold_nlink here₂ fun t₃ _ here₃ => ?_)
  rw [sub₁, one] at here₃
  refine wp_bind (hold_iunlock [] here₃ nothing_left fun t₄ valid here₄ => ?_)
  refine hold_iput here₄ (Multiset.mem_cons_self _ _) (fun t₅ more _ => ?_) fun t₅ _ _ here₅ => ?_
  · refine absurd ⟨?_, ?_, ?_⟩ more
    · rw [valid]
      exact here₃.loaded ip (.inr (.head _))
    · rw [Function.update_self]
      rfl
    · rw [alone]
      simp
  · rw [Multiset.erase_cons_head, Function.update_self, Function.update_idem] at here₅
    exact next t₅ ⟨_, tidy', here₅⟩

theorem hold_sysUnlink {c : Data} (path : Path) (here : Holds p base N 0 [] disk s)
    (tidy : Tidy N homes base disk) (home : homes c.cwd) (kept : ∀ i, homes i → base i ≠ 0) :
    rules.wp exec p (sysUnlink path c) (fun a t => a = c ∧ Kept p base N homes t) s := by
  have walkable := tidy.linked.walkable (tidy.home _ home)
  have same (t : Shared) (here : Holds p base N 0 [] disk t) : c = c ∧ Kept p base N homes t :=
    ⟨rfl, disk, tidy, here⟩
  refine wp_bind (hold_namex true path here walkable same fun dp name t₁ above dir here₁ => ?_)
  refine wp_bind (hold_ilock here₁ above.1 fun t₂ _ here₂ => ?_)
  have fails : rules.wp exec p (iunlockput dp >>= fun _ => pure c)
      (fun a t => a = c ∧ Kept p base N homes t) t₂ :=
    wp_bind (hold_unlockput [] here₂ nothing_left above same)
  split
  · exact fails
  · next plain =>
    refine wp_bind (hold_dirlookup here₂ (fun _ _ => fails) fun ip off t₃ dir found here₃ => ?_)
    have alive := walkable.found dir found
    refine wp_bind (hold_ilock here₃ alive.1 fun t₄ unheld here₄ => ?_)
    have entry : Entry disk dp off ip := ⟨dir, by simpa using unheld, name, plain, found⟩
    refine wp_bind (wp_bind (hold_linked here₄ fun _ => ?_))
    refine wp_bind (hold_type here₄ ?_)
    refine wp_bind (hold_holdsNames here₄ (fun b full => ?_) fun empty => ?_)
    · rw [if_pos full]
      refine wp_bind (hold_unlockput [dp] here₄ (second_left entry.apart) alive fun t₅ here₅ => ?_)
      exact hold_unlockput [] here₅ nothing_left above same
    · rw [if_neg Bool.false_ne_true]
      refine wp_bind (hold_erase here₄ fun t₅ spared here₅ => ?_)
      by_cases sub : (disk ip).ty = .dir
      · rw [decide_eq_true sub]
        obtain ⟨e, place, rfl, -⟩ := findEntry_at found
        have alone := spared e place sub
        rw [Multiset.count_cons_self] at alone
        have none : base e.inum = 0 := by omega
        exact hold_unlinkDir here₅ tidy entry sub (empty sub) none (fun wrong => kept _ wrong none)
          fun t kept => ⟨rfl, kept⟩
      · rw [decide_eq_false sub]
        exact hold_unlinkLeaf here₅ tidy entry sub alive fun t kept => ⟨rfl, kept⟩

end
end Aso.Xv6.Names
