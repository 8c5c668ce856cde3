import Mathlib.Data.List.Nodup

/-! Circular doubly linked lists with a sentinel, whose pointers are kept in the nodes
themselves. -/
namespace Aso
variable {α : Type}

/-- The two pointers of every node; `none` is the sentinel. -/
structure Linked (α : Type) where
  next : Option α → Option α
  prev : Option α → Option α

namespace Linked
variable {h g : Linked α} {x y z : Option α} {l l₁ l₂ : List α} {b : α}

/-- The same list read backwards. -/
def flip (h : Linked α) : Linked α := ⟨h.prev, h.next⟩

/-- Take a node out of its list. -/
def unlink [DecidableEq α] (h : Linked α) (b : α) : Linked α :=
  let h := { h with prev := Function.update h.prev (h.next (some b)) (h.prev (some b)) }
  { h with next := Function.update h.next (h.prev (some b)) (h.next (some b)) }

/-- Put a node behind the sentinel. -/
def pushFront [DecidableEq α] (h : Linked α) (b : α) : Linked α :=
  let h := { h with next := Function.update h.next (some b) (h.next none) }
  let h := { h with prev := Function.update h.prev (some b) none }
  let h := { h with prev := Function.update h.prev (h.next none) (some b) }
  { h with next := Function.update h.next none (some b) }

/-- The loop that looks for a node from `x` on, up to the sentinel; `none` if it has not
come to an end after `fuel` nodes. -/
def find (h : Linked α) (p : α → Bool) : Nat → Option α → Option (Option α)
  | _, none => some none
  | 0, some _ => none
  | fuel + 1, some b => if p b then some (some b) else find h p fuel (h.next (some b))

/-- From `x` the pointers lead through the nodes of `l` to `y`, and from `y` back. -/
def Seg (h : Linked α) : Option α → List α → Option α → Prop
  | x, [], y => h.next x = y ∧ h.prev y = x
  | x, b :: l, y => h.next x = some b ∧ h.prev (some b) = x ∧ Seg h (some b) l y

/-- The nodes of the list, in order. -/
structure Holds (h : Linked α) (l : List α) : Prop where
  seg : h.Seg none l none
  nodup : l.Nodup

theorem seg_append : h.Seg x (l₁ ++ b :: l₂) y ↔ h.Seg x l₁ (some b) ∧ h.Seg (some b) l₂ y := by
  induction l₁ generalizing x with
  | nil => exact and_assoc.symm
  | cons c l₁ ih =>
    change (_ ∧ _ ∧ h.Seg (some c) (l₁ ++ b :: l₂) y) ↔ (_ ∧ _ ∧ h.Seg (some c) l₁ (some b)) ∧ _
    rw [ih, and_assoc, and_assoc]

theorem Seg.flip (seg : h.Seg x l y) : h.flip.Seg y l.reverse x := by
  induction l generalizing x with
  | nil => exact ⟨seg.2, seg.1⟩
  | cons b l ih =>
    obtain ⟨next, prev, rest⟩ := seg
    rw [List.reverse_cons]
    exact seg_append.mpr ⟨ih rest, prev, next⟩

theorem Holds.flip (holds : h.Holds l) : h.flip.Holds l.reverse :=
  ⟨holds.seg.flip, List.nodup_reverse.mpr holds.nodup⟩

/-- Only the pointers along the segment matter. -/
theorem Seg.congr (seg : h.Seg x l y) (next : ∀ z, z = x ∨ z ∈ l.map some → g.next z = h.next z)
    (prev : ∀ z, z = y ∨ z ∈ l.map some → g.prev z = h.prev z) : g.Seg x l y := by
  induction l generalizing x with
  | nil => exact ⟨(next x (.inl rfl)).trans seg.1, (prev y (.inl rfl)).trans seg.2⟩
  | cons b l ih =>
    obtain ⟨forth, back, rest⟩ := seg
    refine ⟨(next x (.inl rfl)).trans forth, (prev _ (.inr (by simp))).trans back,
      ih rest (fun z member => ?_) fun z member => ?_⟩
    · exact next z (.inr (by simpa using member))
    · refine prev z (member.imp_right fun member => ?_)
      rw [List.map_cons]
      exact List.mem_cons_of_mem _ member

theorem Seg.next_mem (seg : h.Seg x l y) : h.next x = y ∨ h.next x ∈ l.map some := by
  cases l with
  | nil => exact .inl seg.1
  | cons b l => exact .inr (by simp [seg.1])

theorem Seg.prev_mem (seg : h.Seg x l y) : h.prev y = x ∨ h.prev y ∈ l.map some := by
  have back := seg.flip.next_mem
  rwa [List.map_reverse, List.mem_reverse] at back

/-- The last node of a segment is made to point elsewhere. -/
theorem Seg.retarget (seg : h.Seg x l z) (start : x ∉ l.map some) (nodup : l.Nodup)
    (last : g.next (h.prev z) = y) (back : g.prev y = h.prev z)
    (next : ∀ w, w ≠ h.prev z → g.next w = h.next w)
    (prev : ∀ w ∈ l.map some, g.prev w = h.prev w) : g.Seg x l y := by
  induction l generalizing x with
  | nil =>
    rw [seg.2] at last back
    exact ⟨last, back⟩
  | cons b l ih =>
    obtain ⟨forth, into, rest⟩ := seg
    have other : x ≠ h.prev z := by
      intro same
      rcases rest.prev_mem with first | later
      · exact start (by simp [same, first])
      · exact start (by rw [same, List.map_cons]; exact List.mem_cons_of_mem _ later)
    refine ⟨(next x other).trans forth, (prev _ (by simp)).trans into, ih rest ?_ nodup.of_cons
      fun w member => ?_⟩
    · simpa using (List.nodup_cons.mp nodup).1
    · exact prev w (by rw [List.map_cons]; exact List.mem_cons_of_mem _ member)

section Update
variable [DecidableEq α]

theorem Holds.unlink (holds : h.Holds l) (member : b ∈ l) : (h.unlink b).Holds (l.erase b) := by
  obtain ⟨l₁, l₂, before, rfl, erased⟩ := List.exists_erase_eq member
  obtain ⟨seg₁, seg₂⟩ := seg_append.mp holds.seg
  have nodup := List.nodup_append.mp holds.nodup
  have nodup₂ := List.nodup_cons.mp nodup.2.1
  have apart (c : α) (left : c ∈ l₁) : some c ≠ some b ∧ some c ∉ l₂.map some := by
    refine ⟨fun same => before (Option.some.inj same ▸ left), fun right => ?_⟩
    exact nodup.2.2 c left c (List.mem_cons_of_mem _ (by simpa using right)) rfl
  -- the neighbours of `b`
  have after : h.next (some b) = none ∨ h.next (some b) ∈ l₂.map some := seg₂.next_mem
  have ahead : h.prev (some b) = none ∨ h.prev (some b) ∈ l₁.map some := seg₁.prev_mem
  have next_ne : some b ≠ h.next (some b) := by
    rintro same
    rw [← same] at after
    simp [nodup₂.1] at after
  have unlinked : h.unlink b = ⟨Function.update h.next (h.prev (some b)) (h.next (some b)),
      Function.update h.prev (h.next (some b)) (h.prev (some b))⟩ := by
    simp only [Linked.unlink, Function.update_of_ne next_ne]
  have left : (h.unlink b).Seg none l₁ (h.next (some b)) := by
    rw [unlinked]
    refine seg₁.retarget (by simp) nodup.1 (Function.update_self ..) (Function.update_self ..)
      (fun w other => Function.update_of_ne other ..) fun w member => Function.update_of_ne ?_ ..
    obtain ⟨c, inside, rfl⟩ := List.mem_map.mp member
    intro same
    rw [← same] at after
    exact after.elim nofun (apart c inside).2
  refine ⟨?_, ?_⟩
  · rw [erased]
    cases l₂ with
    | nil =>
      rw [seg₂.1] at left
      rw [List.append_nil]
      exact left
    | cons c l₂ =>
      obtain ⟨forth, -, rest⟩ := seg₂
      rw [forth] at left
      refine seg_append.mpr ⟨left, rest.congr (fun z member => ?_) fun z member => ?_⟩
      · rw [unlinked]
        refine Function.update_of_ne ?_ ..
        rintro rfl
        have right : h.prev (some b) ∈ (c :: l₂).map some := by
          rw [List.map_cons]
          exact List.mem_cons.mpr member
        rcases ahead with none | inside
        · rw [none] at right
          simp at right
        · obtain ⟨d, inside, same⟩ := List.mem_map.mp inside
          exact (apart d inside).2 (same ▸ right)
      · rw [unlinked, forth]
        refine Function.update_of_ne ?_ ..
        rintro rfl
        have twice : c ∈ l₂ := by simpa using member
        exact (List.nodup_cons.mp nodup₂.2).1 twice
  · exact holds.nodup.erase b

theorem Holds.pushFront (holds : h.Holds l) (fresh : b ∉ l) : (h.pushFront b).Holds (b :: l) := by
  refine ⟨?_, List.nodup_cons.mpr ⟨fresh, holds.nodup⟩⟩
  have first : h.next none = none ∨ h.next none ∈ l.map some := holds.seg.next_mem
  have first_ne : some b ≠ h.next none := by
    intro same
    rw [← same] at first
    simp [fresh] at first
  have pushed : h.pushFront b =
      ⟨Function.update (Function.update h.next (some b) (h.next none)) none (some b),
      Function.update (Function.update h.prev (some b) none) (h.next none) (some b)⟩ := by
    simp only [Linked.pushFront, Function.update_of_ne (Option.some_ne_none b).symm]
  have head : (h.pushFront b).next none = some b := by simp [pushed]
  have next (z : α) :
      (h.pushFront b).next (some z) = if z = b then h.next none else h.next (some z) := by
    simp [pushed, Function.update_apply]
  have back : (h.pushFront b).prev (h.next none) = some b := by simp [pushed]
  have prev (z : Option α) (other : z ≠ h.next none) :
      (h.pushFront b).prev z = if z = some b then none else h.prev z := by
    simp [pushed, Function.update_apply, other]
  refine ⟨head, (prev _ first_ne).trans (if_pos rfl), ?_⟩
  have behind := (next b).trans (if_pos rfl)
  have seg := holds.seg
  have nodup := holds.nodup
  cases l with
  | nil => exact ⟨behind.trans seg.1, seg.1 ▸ back⟩
  | cons c l =>
    obtain ⟨forth, -, rest⟩ := seg
    rw [forth] at behind back prev
    refine ⟨behind, back, rest.congr (fun z member => ?_) fun z member => ?_⟩
    · have inside : z ∈ (c :: l).map some := by
        rw [List.map_cons]
        exact List.mem_cons.mpr member
      obtain ⟨d, inside, rfl⟩ := List.mem_map.mp inside
      exact (next d).trans (if_neg fun same => fresh (by rwa [← same]))
    · refine (prev z ?_).trans (if_neg ?_)
      · rintro rfl
        exact (List.nodup_cons.mp nodup).1 (by simpa using member)
      · rintro rfl
        exact fresh (List.mem_cons_of_mem _ (by simpa using member))

/-- Nodes put in one after the other. -/
theorem Holds.foldl_pushFront {bs : List α} (holds : h.Holds l) (nodup : bs.Nodup)
    (fresh : ∀ b ∈ bs, b ∉ l) : (bs.foldl Linked.pushFront h).Holds (bs.reverse ++ l) := by
  induction bs generalizing h l with
  | nil => exact holds
  | cons b bs ih =>
    obtain ⟨first, rest⟩ := List.nodup_cons.mp nodup
    rw [List.reverse_cons, List.append_assoc]
    refine ih (holds.pushFront (fresh b List.mem_cons_self)) rest fun c member => ?_
    refine List.not_mem_cons_of_ne_of_not_mem ?_ (fresh c (List.mem_cons_of_mem _ member))
    rintro rfl
    exact first member

end Update

theorem Seg.find {p : α → Bool} {fuel : Nat} (seg : h.Seg x l none) (enough : l.length ≤ fuel) :
    h.find p fuel (h.next x) = some (l.find? p) := by
  induction l generalizing x fuel with
  | nil =>
    rw [seg.1]
    cases fuel <;> rfl
  | cons b l ih =>
    obtain ⟨forth, -, rest⟩ := seg
    obtain ⟨fuel, rfl⟩ : ∃ n, fuel = n + 1 :=
      Nat.exists_eq_succ_of_ne_zero (Nat.ne_of_gt (Nat.lt_of_lt_of_le (Nat.succ_pos _) enough))
    rw [forth, Linked.find, List.find?_cons, ih rest (Nat.le_of_succ_le_succ enough)]
    cases p b <;> rfl

/-- The loop along `next` finds the first node of the list, and ends. -/
theorem Holds.find (holds : h.Holds l) (p : α → Bool) {fuel : Nat} (enough : l.length ≤ fuel) :
    h.find p fuel (h.next none) = some (l.find? p) := holds.seg.find enough

/-- The loop along `prev` finds the last one. -/
theorem Holds.find_flip (holds : h.Holds l) (p : α → Bool) {fuel : Nat} (enough : l.length ≤ fuel) :
    h.flip.find p fuel (h.prev none) = some (l.reverse.find? p) :=
  holds.flip.find p (by rwa [List.length_reverse])

end Linked
end Aso
