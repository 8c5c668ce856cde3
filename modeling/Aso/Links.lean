import Mathlib.Algebra.BigOperators.Group.Finset.Piecewise
import Mathlib.Algebra.Order.BigOperators.Group.Finset

/-! Link counts in a tree of directories. A directory has a parent and named
children; what is not a directory may be named any number of times, a directory
once, in its parent. -/
namespace Aso.Links
variable {ι : Type} [DecidableEq ι] {dirs : Finset ι} {root c d i x : ι} {parent : ι → ι}
  {children : ι → Multiset ι}

/-- The names of `i` in the directories, and the links back from its subdirectories. -/
def links (dirs : Finset ι) (parent : ι → ι) (children : ι → Multiset ι) (i : ι) : Nat :=
  ∑ d ∈ dirs, (parent d ::ₘ children d).count i

structure Tree (dirs : Finset ι) (root : ι) (parent : ι → ι)
    (children : ι → Multiset ι) : Prop where
  root_mem : root ∈ dirs
  parent_root : parent root = root
  parent_mem : ∀ c ∈ dirs, parent c ∈ dirs
  named : ∀ c ∈ dirs, ∀ d ∈ dirs, (children d).count c = if c ≠ root ∧ d = parent c then 1 else 0

theorem links_congr {parent' : ι → ι} {children' : ι → Multiset ι}
    (parents : ∀ d ∈ dirs, parent' d = parent d)
    (same : ∀ d ∈ dirs, children' d = children d) (i : ι) :
    links dirs parent' children' i = links dirs parent children i := by
  apply Finset.sum_congr rfl
  intro d member
  rw [parents d member, same d member]

theorem links_update (parent : ι → ι) (children : ι → Multiset ι) (member : d ∈ dirs)
    (kids : Multiset ι) (i : ι) :
    links dirs parent (Function.update children d kids) i + (children d).count i =
      links dirs parent children i + kids.count i := by
  have others : ∑ e ∈ dirs.erase d, (parent e ::ₘ Function.update children d kids e).count i =
      ∑ e ∈ dirs.erase d, (parent e ::ₘ children e).count i := by
    apply Finset.sum_congr rfl
    intro e other
    rw [Function.update_of_ne (Finset.ne_of_mem_erase other)]
  rw [links, links, ← Finset.add_sum_erase _ _ member, ← Finset.add_sum_erase _ _ member, others,
    Function.update_self, Multiset.count_cons, Multiset.count_cons]
  omega

theorem count_le_links (parent : ι → ι) (children : ι → Multiset ι) (member : d ∈ dirs) (i : ι) :
    (children d).count i ≤ links dirs parent children i := by
  have part : (parent d ::ₘ children d).count i ≤ links dirs parent children i :=
    Finset.single_le_sum (f := fun d => (parent d ::ₘ children d).count i)
    (fun _ _ => Nat.zero_le _) member
  exact (Multiset.count_le_count_cons ..).trans part

namespace Tree

/-- Every directory has a name, and the root its own link back. -/
theorem links_pos (tree : Tree dirs root parent children) (member : c ∈ dirs) :
    0 < links dirs parent children c := by
  obtain rfl | other := eq_or_ne c root
  · have own : (parent c ::ₘ children c).count c ≤ links dirs parent children c :=
      Finset.single_le_sum (f := fun d => (parent d ::ₘ children d).count c)
      (fun _ _ => Nat.zero_le _) member
    rw [tree.parent_root, Multiset.count_cons_self] at own
    omega
  · have name := tree.named c member (parent c) (tree.parent_mem c member)
    rw [if_pos ⟨other, rfl⟩] at name
    have part := count_le_links parent children (tree.parent_mem c member) c
    omega

/-- A change of the names of other things than directories. -/
theorem rename (tree : Tree dirs root parent children) {kids : Multiset ι}
    (same : ∀ c ∈ dirs, kids.count c = (children d).count c) :
    Tree dirs root parent (Function.update children d kids) := by
  refine ⟨tree.root_mem, tree.parent_root, tree.parent_mem, ?_⟩
  intro c member e inside
  obtain rfl | other := eq_or_ne e d
  · rw [Function.update_self, same c member]
    exact tree.named c member e inside
  · rw [Function.update_of_ne other]
    exact tree.named c member e inside

/-- An empty directory is nobody's parent. -/
theorem parent_ne (tree : Tree dirs root parent children) (member : c ∈ dirs) (other : c ≠ root)
    (empty : children c = 0) (inside : d ∈ dirs) : parent d ≠ c := by
  rintro rfl
  obtain rfl | apart := eq_or_ne d root
  · exact other tree.parent_root
  · have name := tree.named d inside (parent d) member
    rw [empty, if_pos ⟨apart, rfl⟩] at name
    cases name

theorem links_of_empty (tree : Tree dirs root parent children) (member : c ∈ dirs)
    (other : c ≠ root) (empty : children c = 0) : links dirs parent children c = 1 := by
  have each : ∀ d ∈ dirs, (parent d ::ₘ children d).count c = if d = parent c then 1 else 0 := by
    intro d inside
    rw [Multiset.count_cons_of_ne (tree.parent_ne member other empty inside).symm,
      tree.named c member d inside]
    simp only [ne_eq, other, not_false_eq_true, true_and]
  rw [links, Finset.sum_congr rfl each, Finset.sum_ite_eq', if_pos (tree.parent_mem c member)]

/-- The empty directory `c` goes, with its name. -/
theorem rmdir (tree : Tree dirs root parent children) (member : c ∈ dirs) (other : c ≠ root)
    (empty : children c = 0) :
    Tree (dirs.erase c) root parent
      (Function.update children (parent c) ((children (parent c)).erase c)) := by
  refine ⟨Finset.mem_erase.mpr ⟨other.symm, tree.root_mem⟩, tree.parent_root, ?_, ?_⟩
  · intro x inside
    have old := Finset.mem_of_mem_erase inside
    exact Finset.mem_erase.mpr ⟨tree.parent_ne member other empty old, tree.parent_mem x old⟩
  · intro x inside e inside'
    have apart := Finset.ne_of_mem_erase inside
    rw [← tree.named x (Finset.mem_of_mem_erase inside) e (Finset.mem_of_mem_erase inside')]
    obtain rfl | elsewhere := eq_or_ne e (parent c)
    · rw [Function.update_self, Multiset.count_erase_of_ne apart]
    · rw [Function.update_of_ne elsewhere]

theorem links_rmdir (tree : Tree dirs root parent children) (member : c ∈ dirs) (other : c ≠ root)
    (empty : children c = 0) (i : ι) :
    links (dirs.erase c) parent
      (Function.update children (parent c) ((children (parent c)).erase c)) i +
      ((if i = parent c then 1 else 0) + if i = c then 1 else 0) =
      links dirs parent children i := by
  have apart := tree.parent_ne member other empty member
  have above : parent c ∈ dirs.erase c := Finset.mem_erase.mpr ⟨apart, tree.parent_mem c member⟩
  have whole : links dirs parent children i =
      (parent c ::ₘ children c).count i + links (dirs.erase c) parent children i :=
    (Finset.add_sum_erase dirs (fun d => (parent d ::ₘ children d).count i) member).symm
  have change := links_update parent children above ((children (parent c)).erase c) i
  have name : (children (parent c)).count c = 1 := by
    rw [tree.named c member _ (tree.parent_mem c member), if_pos ⟨other, rfl⟩]
  rw [whole, empty, Multiset.count_cons, Multiset.count_zero]
  obtain rfl | elsewhere := eq_or_ne i c
  · rw [Multiset.count_erase_self, name] at change
    rw [if_neg apart.symm, if_pos rfl]
    omega
  · rw [Multiset.count_erase_of_ne elsewhere] at change
    rw [if_neg elsewhere]
    omega

/-- The new directory `c` in `d`. -/
theorem mkdir (tree : Tree dirs root parent children) (fresh : c ∉ dirs)
    (unnamed : ∀ e ∈ dirs, (children e).count c = 0) (inside : d ∈ dirs) :
    Tree (insert c dirs) root (Function.update parent c d)
      (Function.update (Function.update children c 0) d (c ::ₘ children d)) := by
  have old {e : ι} (member : e ∈ dirs) : e ≠ c := by
    rintro rfl
    exact fresh member
  have above := old inside
  refine ⟨Finset.mem_insert_of_mem tree.root_mem, ?_, ?_, ?_⟩
  · rw [Function.update_of_ne (old tree.root_mem)]
    exact tree.parent_root
  · intro x known
    obtain rfl | member := Finset.mem_insert.mp known
    · rw [Function.update_self]
      exact Finset.mem_insert_of_mem inside
    · rw [Function.update_of_ne (old member)]
      exact Finset.mem_insert_of_mem (tree.parent_mem x member)
  · intro x known e member'
    obtain rfl | member := Finset.mem_insert.mp known
    · -- The new directory is named in `d` alone.
      rw [Function.update_self]
      obtain rfl | elsewhere := eq_or_ne e d
      · rw [Function.update_self, Multiset.count_cons_self, unnamed e inside,
          if_pos ⟨(old tree.root_mem).symm, rfl⟩]
      · rw [Function.update_of_ne elsewhere, if_neg fun same => elsewhere same.2]
        obtain rfl | inside' := Finset.mem_insert.mp member'
        · rw [Function.update_self, Multiset.count_zero]
        · rw [Function.update_of_ne (old inside'), unnamed e inside']
    · rw [Function.update_of_ne (old member)]
      obtain rfl | inside' := Finset.mem_insert.mp member'
      · have apart : e ≠ parent x := (old (tree.parent_mem x member)).symm
        rw [Function.update_of_ne above.symm, Function.update_self, Multiset.count_zero,
          if_neg fun same => apart same.2]
      · rw [← tree.named x member e inside']
        obtain rfl | elsewhere := eq_or_ne e d
        · rw [Function.update_self, Multiset.count_cons_of_ne (old member)]
        · rw [Function.update_of_ne elsewhere, Function.update_of_ne (old inside')]

end Tree

theorem links_mkdir (fresh : c ∉ dirs) (inside : d ∈ dirs) (i : ι) :
    links (insert c dirs) (Function.update parent c d)
        (Function.update (Function.update children c 0) d (c ::ₘ children d)) i =
      links dirs parent children i + ((if i = d then 1 else 0) + if i = c then 1 else 0) := by
  have old {e : ι} (member : e ∈ dirs) : e ≠ c := by
    rintro rfl
    exact fresh member
  have rest : links dirs (Function.update parent c d)
      (Function.update (Function.update children c 0) d (c ::ₘ children d)) i =
      links dirs parent (Function.update children d (c ::ₘ children d)) i := by
    refine links_congr (fun e member => Function.update_of_ne (old member) ..)
      (fun e member => ?_) i
    obtain rfl | elsewhere := eq_or_ne e d
    · rw [Function.update_self, Function.update_self]
    · rw [Function.update_of_ne elsewhere, Function.update_of_ne elsewhere,
        Function.update_of_ne (old member)]
  have change := links_update parent children inside (c ::ₘ children d) i
  have new : links (insert c dirs) (Function.update parent c d)
      (Function.update (Function.update children c 0) d (c ::ₘ children d)) i = _ :=
      Finset.sum_insert fresh
  rw [links] at rest
  rw [new, rest, Function.update_self, Function.update_of_ne (old inside).symm,
    Function.update_self, Multiset.count_cons, Multiset.count_zero]
  rw [Multiset.count_cons] at change
  omega

end Aso.Links
