import Aso.Xv6.Names.Machine
import Mathlib.Algebra.Order.BigOperators.Group.Finset

/-! What a process may rely on between its operations: that the inodes it has locked and
the inodes it holds on to stay what they are. Every operation keeps it for the other
processes, under the lock that the source takes for it. -/
namespace Aso.Xv6.Names
open Interleave

def IsDot (n : Name) : Prop := namecmp n [46] = true ∨ namecmp n [46, 46] = true

instance (n : Name) : Decidable (IsDot n) := inferInstanceAs (Decidable (_ ∨ _))

/-- An entry other than the dots leads to a younger directory, if to a directory at all, and
an inode has at least the references that were handed out. -/
structure Inv (s : Shared) : Prop where
  rank : ∀ d e, (s.inode d).ty = .dir → e ∈ (s.inode d).entries → e.inum ≠ 0 → ¬ IsDot e.name →
    (s.inode e.inum).ty = .dir → s.birth d < s.birth e.inum
  clock : ∀ i, s.birth i < s.clock
  count : ∀ i, ∑ q, (s.refs q).count i ≤ (s.inode i).ref
  pin : ∀ q i, s.pin q i = true → (s.inode i).ty ≠ .free ∧ i ∈ s.refs q
  valid : ∀ i, (s.inode i).valid = true → (s.inode i).ty ≠ .free

structure Rely (p : Slot) (s t : Shared) : Prop where
  locks : ∀ i, (s.inode i).lock = some p ↔ (t.inode i).lock = some p
  held : ∀ i, (s.inode i).lock = some p → (s.inode i).ty ≠ .free →
    (t.inode i).ty = (s.inode i).ty ∧ (t.inode i).entries = (s.inode i).entries ∧
    t.birth i = s.birth i
  links : ∀ i, (s.inode i).lock = some p → (s.inode i).ty ≠ .free →
    (t.inode i).nlink = (s.inode i).nlink
  refs : t.refs p = s.refs p
  pin : t.pin p = s.pin p
  pinned : ∀ i, s.pin p i = true → (t.inode i).ty = (s.inode i).ty
  birth : ∀ i, s.birth i ≤ t.birth i
  alone : ∀ i, (s.inode i).lock = some p → (∀ q, q ≠ p → s.pin q i = false) →
    ∀ q, q ≠ p → t.pin q i = false

namespace Rely
variable {p : Slot} {s t u : Shared}

theorem refl (p : Slot) (s : Shared) : Rely p s s where
  locks _ := Iff.rfl
  held _ _ _ := ⟨rfl, rfl, rfl⟩
  links _ _ _ := rfl
  refs := rfl
  pin := rfl
  pinned _ _ := rfl
  birth _ := le_rfl
  alone _ _ none := none

theorem trans (first : Rely p s t) (second : Rely p t u) : Rely p s u where
  locks i := (first.locks i).trans (second.locks i)
  held i lock ty := by
    obtain ⟨sameTy, sameEntries, sameBirth⟩ := first.held i lock ty
    obtain ⟨sameTy', sameEntries', sameBirth'⟩ :=
      second.held i ((first.locks i).mp lock) (sameTy ▸ ty)
    exact ⟨sameTy'.trans sameTy, sameEntries'.trans sameEntries, sameBirth'.trans sameBirth⟩
  links i lock ty := by
    have same := (first.held i lock ty).1
    exact (second.links i ((first.locks i).mp lock) (same ▸ ty)).trans (first.links i lock ty)
  refs := second.refs.trans first.refs
  pin := second.pin.trans first.pin
  pinned i pinned := (second.pinned i (first.pin ▸ pinned)).trans (first.pinned i pinned)
  birth i := (first.birth i).trans (second.birth i)
  alone i lock none := second.alone i ((first.locks i).mp lock) (first.alone i lock none)

/-- A step of `p` on inode `i` that nobody else has locked or holds on to, or that
leaves the type and the entries alone. -/
theorem of_local {q i : _} (other : q ≠ p) (outside : ∀ j, j ≠ i → t.inode j = s.inode j)
    (birth : t.birth = s.birth) (refs : t.refs q = s.refs q)
    (pins : ∀ r j, r ≠ p ∨ j ≠ i → t.pin r j = s.pin r j)
    (locks : (s.inode i).lock = some q ↔ (t.inode i).lock = some q)
    (held : (s.inode i).lock = some q →
      (t.inode i).ty = (s.inode i).ty ∧ (t.inode i).entries = (s.inode i).entries ∧
      (t.pin p i = true → s.pin p i = true))
    (links : (s.inode i).lock = some q → (t.inode i).nlink = (s.inode i).nlink)
    (pinned : s.pin q i = true → (t.inode i).ty = (s.inode i).ty) : Rely q s t where
  locks j := by
    obtain rfl | apart := eq_or_ne j i
    · exact locks
    · rw [outside j apart]
  held j lock ty := by
    obtain rfl | apart := eq_or_ne j i
    · exact ⟨(held lock).1, (held lock).2.1, congrFun birth j⟩
    · rw [outside j apart, birth]
      exact ⟨rfl, rfl, rfl⟩
  links j lock _ := by
    obtain rfl | apart := eq_or_ne j i
    · exact links lock
    · rw [outside j apart]
  refs := refs
  pin := funext fun j => pins q j (.inl other)
  pinned j here := by
    obtain rfl | apart := eq_or_ne j i
    · exact pinned here
    · rw [outside j apart]
  birth j := by rw [birth]
  alone j lock none r apart := by
    by_cases here : r = p ∧ j = i
    · obtain ⟨rfl, rfl⟩ := here
      exact Bool.eq_false_iff.mpr fun pin => Bool.eq_false_iff.mp (none r apart)
        ((held lock).2.2 pin)
    · rw [pins r j (by tauto)]
      exact none r apart

end Rely

/-- The only lock that `p` holds is that of a directory above inode `i`: an older one, or
one with an entry for `i`. -/
def Above (p : Slot) (i : Nat) (s : Shared) : Prop :=
  ∃ d, (∀ j, (s.inode j).lock = some p ↔ j = d) ∧ (s.inode d).ty = .dir ∧
    (s.birth d < s.birth i ∨ ∃ e ∈ (s.inode d).entries, e.inum = i ∧ i ≠ 0 ∧ ¬ IsDot e.name)

/-- `ilock` is called without a lock, or from above, and so is `iput` where the calls are `strict`;
a name is added where it is absent, and an inode is freed under its lock and without links. -/
def Pre (strict : Bool) (p : Slot) : Op → Shared → Prop
  | .acquire i .ilock, s => (∀ j, (s.inode j).lock ≠ some p) ∨ Above p i s
  | .acquire i .iput, s => strict = true → (∀ j, (s.inode j).lock ≠ some p) ∨ Above p i s
  | .insert d name _, s => findEntry (s.inode d).entries name = none
  | .free i, s => (s.inode i).nlink = 0 ∧ (s.inode i).lock = some p
  | _, _ => True

/-- No file is written that is a directory, and strict calls find a new inode without entries. -/
def Admits (strict : Bool) : Op → Shared → Prop
  | .writei i, s => (s.inode i).ty ≠ .dir
  | .init i, s => strict = true → (s.inode i).entries = []
  | _, _ => True

def logic (strict : Bool) : Logic Slot Op Shared where
  rely := Rely
  inv := Inv
  pre := Pre strict
  admits _ := Admits strict
  refl := Rely.refl
  trans _ _ _ _ := Rely.trans

/-- What `p` holds: locks and references. -/
structure At (p : Slot) (held : List Nat) (refs : Multiset Nat) (s : Shared) : Prop where
  locks : ∀ i, (s.inode i).lock = some p ↔ i ∈ held
  refs : s.refs p = refs

/-- What `p` knows of the inodes `H` it keeps locked and of the inodes `B` it keeps references to
is still so. -/
structure After (p : Slot) (H : List Nat) (B : Multiset Nat) (s t : Shared) : Prop where
  held : ∀ i ∈ H, (s.inode i).ty ≠ .free →
    (t.inode i).ty = (s.inode i).ty ∧ (t.inode i).entries = (s.inode i).entries ∧
    t.birth i = s.birth i
  pinned : ∀ i ∈ B, s.pin p i = true → t.pin p i = true ∧ (t.inode i).ty = (s.inode i).ty
  birth : ∀ i, s.birth i ≤ t.birth i

section Views
variable {p : Slot} {s t u : Shared} {held H H' : List Nat} {refs B B' : Multiset Nat}

theorem At.rely (here : At p held refs s) (relied : Rely p s t) : At p held refs t :=
  ⟨fun i => (relied.locks i).symm.trans (here.locks i), relied.refs.trans here.refs⟩

/-- A step that takes and releases no lock. -/
theorem At.of_same {refs' : Multiset Nat} (here : At p held refs s)
    (locks : ∀ i, (t.inode i).lock = (s.inode i).lock) (now : t.refs p = refs') :
    At p held refs' t where
  locks i := by
    rw [locks]
    exact here.locks i
  refs := now

theorem After.rely (here : At p held refs s) (relied : Rely p s t) : After p held refs s t where
  held i inside := relied.held i ((here.locks i).mpr inside)
  pinned i _ pinned := ⟨relied.pin ▸ pinned, relied.pinned i pinned⟩
  birth := relied.birth

theorem After.trans (first : After p H B s t) (second : After p H B t u) : After p H B s u where
  held i inside ty := by
    obtain ⟨sameTy, sameEntries, sameBirth⟩ := first.held i inside ty
    obtain ⟨sameTy', sameEntries', sameBirth'⟩ := second.held i inside (sameTy ▸ ty)
    exact ⟨sameTy'.trans sameTy, sameEntries'.trans sameEntries, sameBirth'.trans sameBirth⟩
  pinned i inside pinned := by
    obtain ⟨stays, same⟩ := first.pinned i inside pinned
    obtain ⟨stays', same'⟩ := second.pinned i inside stays
    exact ⟨stays', same'.trans same⟩
  birth i := (first.birth i).trans (second.birth i)

theorem After.mono (after : After p H B s t) (locks : ∀ i ∈ H', i ∈ H) (refs : ∀ i ∈ B', i ∈ B) :
    After p H' B' s t :=
  ⟨fun i inside => after.held i (locks i inside), fun i inside => after.pinned i (refs i inside),
    after.birth⟩

/-- A step that leaves types, entries, births and the pins of `p` alone. -/
theorem After.of_same (types : ∀ i, (t.inode i).ty = (s.inode i).ty)
    (entries : ∀ i ∈ H, (t.inode i).entries = (s.inode i).entries) (birth : t.birth = s.birth)
    (pins : ∀ i ∈ B, s.pin p i = true → t.pin p i = true) : After p H B s t where
  held i inside _ := ⟨types i, entries i inside, congrFun birth i⟩
  pinned i inside pinned := ⟨pins i inside pinned, types i⟩
  birth i := by rw [birth]

end Views

section Modify
variable {s : Shared} {i j : Nat} {f : Inode → Inode}

@[simp] theorem modify_inode_same : (s.modify i f).inode i = f (s.inode i) :=
  Function.update_self ..

@[simp] theorem modify_inode_other (apart : j ≠ i) : (s.modify i f).inode j = s.inode j :=
  Function.update_of_ne apart ..

theorem modify_field {α : Type} (field : Inode → α)
    (same : field (f (s.inode i)) = field (s.inode i)) (j : Nat) :
    field ((s.modify i f).inode j) = field (s.inode j) := by
  obtain rfl | apart := eq_or_ne j i
  · rw [modify_inode_same, same]
  · rw [modify_inode_other apart]

theorem setPin_pin (s : Shared) (p : Slot) (i : Nat) (b : Bool) (q : Slot) (j : Nat) :
    (s.setPin p i b).pin q j = if q = p ∧ j = i then b else s.pin q j := by
  obtain rfl | other := eq_or_ne q p
  · obtain rfl | apart := eq_or_ne j i
    · simp [Shared.setPin]
    · simp [Shared.setPin, apart]
  · simp [Shared.setPin, other]

end Modify

end Aso.Xv6.Names
