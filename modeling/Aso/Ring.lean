import Mathlib.Data.BitVec

/-! Ring buffers with free-running counters. Neither counter is ever reduced
to a cell number, so a full ring differs from an empty one; a counter that
wraps still points at the next cell as long as the number of cells divides the
range of the counters. -/
namespace Aso
universe u

/-- A ring of `size` cells whose counters have `w` bits. -/
structure Ring (α : Type u) (size w : Nat) where
  data : Nat → α
  nread : BitVec w
  nwrite : BitVec w

namespace Ring
variable {α : Type u} {size w : Nat}

/-- The cell a counter points at. -/
def slot (size : Nat) (counter : BitVec w) : Nat := counter.toNat % size

def count (r : Ring α size w) : Nat := (r.nwrite - r.nread).toNat

def isEmpty (r : Ring α size w) : Bool := r.nread == r.nwrite

def isFull (r : Ring α size w) : Bool := r.nwrite == r.nread + BitVec.ofNat w size

def push (r : Ring α size w) (a : α) : Ring α size w :=
  { r with data := Function.update r.data (slot size r.nwrite) a, nwrite := r.nwrite + 1 }

def front (r : Ring α size w) : α := r.data (slot size r.nread)

def pop (r : Ring α size w) : Ring α size w := { r with nread := r.nread + 1 }

/-- The element pushed last. -/
def back (r : Ring α size w) : α := r.data (slot size (r.nwrite - 1))

def retract (r : Ring α size w) : Ring α size w := { r with nwrite := r.nwrite - 1 }

/-- The queue the ring stands for, oldest element first. -/
def contents (r : Ring α size w) : List α :=
  (List.range r.count).map fun i => r.data (slot size (r.nread + BitVec.ofNat w i))

@[simp] theorem length_contents (r : Ring α size w) : r.contents.length = r.count := by
  simp [contents]

theorem nwrite_eq (r : Ring α size w) : r.nwrite = r.nread + BitVec.ofNat w r.count := by
  rw [count, BitVec.ofNat_toNat, BitVec.setWidth_eq, add_sub_cancel]

theorem isEmpty_iff (r : Ring α size w) : r.isEmpty = true ↔ r.count = 0 := by
  rw [isEmpty, beq_iff_eq]
  constructor
  · intro same
    simp [count, same]
  · intro none
    have position := r.nwrite_eq
    rw [none] at position
    simpa using position.symm

theorem count_pos {r : Ring α size w} (some : r.isEmpty = false) : 0 < r.count := by
  rw [Nat.pos_iff_ne_zero]
  intro none
  exact absurd (some.symm.trans (r.isEmpty_iff.mpr none)) Bool.false_ne_true

theorem contents_empty {r : Ring α size w} (empty : r.isEmpty = true) : r.contents = [] :=
  List.length_eq_zero_iff.mp (r.length_contents.trans (r.isEmpty_iff.mp empty))

variable (small : size < 2 ^ w)

include small in
theorem isFull_iff (r : Ring α size w) : r.isFull = true ↔ r.count = size := by
  rw [isFull, beq_iff_eq]
  constructor
  · intro same
    rw [count, same, add_sub_cancel_left, BitVec.toNat_ofNat, Nat.mod_eq_of_lt small]
  · intro all
    have position := r.nwrite_eq
    rwa [all] at position

include small in
theorem count_push {r : Ring α size w} (room : r.count < size) (a : α) :
    (r.push a).count = r.count + 1 := by
  have position : (r.push a).nwrite - (r.push a).nread = BitVec.ofNat w (r.count + 1) := by
    change r.nwrite + 1 - r.nread = _
    rw [r.nwrite_eq, BitVec.add_assoc, add_sub_cancel_left, BitVec.ofNat_add]
    rfl
  rw [count, position, BitVec.toNat_ofNat, Nat.mod_eq_of_lt (by omega)]

theorem count_pop {r : Ring α size w} (some : 0 < r.count) : r.pop.count + 1 = r.count := by
  obtain ⟨left, total⟩ := Nat.exists_eq_succ_of_ne_zero some.ne'
  have bounded : r.count < 2 ^ w := BitVec.isLt _
  have position : r.pop.nwrite - r.pop.nread = BitVec.ofNat w left := by
    change r.nwrite - (r.nread + 1) = _
    rw [r.nwrite_eq, total, Nat.succ_eq_add_one, Nat.add_comm, BitVec.ofNat_add, ← BitVec.add_assoc]
    exact add_sub_cancel_left _ _
  rw [count, position, BitVec.toNat_ofNat, Nat.mod_eq_of_lt (by omega), total]

section Cells
variable (divides : size ∣ 2 ^ w)

include divides in
/-- Wrapping a counter does not disturb the cell it points at. -/
theorem slot_add (counter : BitVec w) (i : Nat) :
    slot size (counter + BitVec.ofNat w i) = (counter.toNat + i) % size := by
  rw [slot, BitVec.toNat_add, BitVec.toNat_ofNat, Nat.add_mod_mod, Nat.mod_mod_of_dvd _ divides]

include divides in
theorem slot_inj (counter : BitVec w) {i j : Nat} (first : i < size) (second : j < size)
    (same : slot size (counter + BitVec.ofNat w i) = slot size (counter + BitVec.ofNat w j)) :
    i = j := by
  rw [slot_add divides, slot_add divides] at same
  have cancelled : i % size = j % size := Nat.ModEq.add_left_cancel' counter.toNat same
  rwa [Nat.mod_eq_of_lt first, Nat.mod_eq_of_lt second] at cancelled

include small divides in
theorem contents_push {r : Ring α size w} (room : r.count < size) (a : α) :
    (r.push a).contents = r.contents ++ [a] := by
  rw [contents, count_push small room, List.range_succ, List.map_append, List.map_singleton]
  congr 1
  · apply List.map_congr_left
    intro i before
    have before := List.mem_range.mp before
    -- the cells in use lie fewer than `size` counts before the one written
    have other : slot size (r.nread + BitVec.ofNat w i) ≠ slot size r.nwrite := by
      rw [r.nwrite_eq]
      intro same
      exact before.ne (slot_inj divides r.nread (before.trans room) room same)
    exact Function.update_of_ne other a r.data
  · change [Function.update r.data (slot size r.nwrite) a
      (slot size (r.nread + BitVec.ofNat w r.count))] = [a]
    rw [← r.nwrite_eq, Function.update_self]

end Cells

theorem contents_pop {r : Ring α size w} (some : 0 < r.count) :
    r.contents = r.front :: r.pop.contents := by
  rw [contents, ← count_pop some, List.range_succ_eq_map, List.map_cons, List.map_map]
  congr 1
  · simp [front]
  · apply List.map_congr_left
    intro i _
    have moved : r.nread + BitVec.ofNat w (i + 1) = r.nread + 1 + BitVec.ofNat w i := by
      rw [Nat.add_comm, BitVec.ofNat_add, BitVec.add_assoc]
      rfl
    simp only [Function.comp_apply, Nat.succ_eq_add_one, moved]
    rfl

theorem retract_nwrite {r : Ring α size w} {left : Nat} (total : r.count = left + 1) :
    r.nwrite - 1 = r.nread + BitVec.ofNat w left := by
  rw [r.nwrite_eq, total, BitVec.ofNat_add, ← BitVec.add_assoc]
  exact add_sub_cancel_right _ _

theorem count_retract {r : Ring α size w} (some : 0 < r.count) : r.retract.count + 1 = r.count := by
  obtain ⟨left, total⟩ := Nat.exists_eq_succ_of_ne_zero some.ne'
  have bounded : r.count < 2 ^ w := BitVec.isLt _
  have position : r.retract.nwrite - r.retract.nread = BitVec.ofNat w left := by
    change r.nwrite - 1 - r.nread = _
    rw [retract_nwrite total, add_sub_cancel_left]
  rw [count, position, BitVec.toNat_ofNat, Nat.mod_eq_of_lt (by omega), total]

theorem contents_retract {r : Ring α size w} (some : 0 < r.count) :
    r.contents = r.retract.contents ++ [r.back] := by
  have last : r.nwrite - 1 = r.nread + BitVec.ofNat w r.retract.count :=
    retract_nwrite (count_retract some).symm
  rw [contents, ← count_retract some, List.range_succ, List.map_append,
    List.map_singleton, back, last]
  rfl

end Ring
end Aso
