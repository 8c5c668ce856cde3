import Mathlib.Data.List.Induction
import Mathlib.Data.Nat.ModEq
import Mathlib.Tactic.Ring

/-! Dealing a sequence in turn to `n` piles. With `d` the number of turns by which
a pile is behind, it has `(N + d) / n` of the first `N` items. -/
namespace Aso.Deal
variable {α : Type} {n i : Nat} {xs : List α} {x : α}

/-- The items at the positions congruent to `i` modulo `n`. -/
def residue (n i : Nat) (xs : List α) : List α :=
  (xs.zipIdx.filter fun p => p.2 % n = i).map Prod.fst

@[simp] theorem residue_nil : residue n i ([] : List α) = [] := rfl

theorem residue_one (xs : List α) : residue 1 0 xs = xs := by
  rw [residue, List.filter_eq_self.mpr fun p _ => by simp [Nat.mod_one]]
  exact List.zipIdx_map_fst 0 xs

theorem residue_concat : residue n i (xs ++ [x]) = if xs.length % n = i then residue n i xs ++ [x]
    else residue n i xs := by
  unfold residue
  rw [List.zipIdx_append, List.filter_append, List.map_append]
  split <;> simp_all

/-- A pile gets the next item exactly when its turn has come. -/
theorem turn_iff (below : i < n) (N : Nat) : (i + N) % n = i ↔ n ∣ N := by
  have := Nat.add_modEq_left_iff (a := i) (b := N) (n := n)
  rw [← this, Nat.ModEq, Nat.mod_eq_of_lt below]

/-- While `r` items are dealt, no pile grows past the next multiple of `t`: from one
multiple to the next each pile takes a whole period of `n * t` items. -/
theorem share_le {t d N r : Nat} (behind : d < n) (aligned : t ∣ N) (short : r ≤ t) :
    (N + r + d) / n ≤ t * ((N + d) / n / t) + t := by
  obtain ⟨m, rfl⟩ := aligned
  by_contra past
  have positive : 0 < n := by omega
  generalize levels : (t * m + d) / n / t = j at past
  have reached : (t * (j + 1) + 1) * n ≤ t * m + r + d := by
    rw [← Nat.le_div_iff_mul_le positive]
    have : t * (j + 1) = t * j + t := Nat.mul_succ t j
    omega
  -- so the piece before it ended at or after the multiple already
  have wholes : t * (n * (j + 1)) < t * (m + 1) := by
    have : (t * (j + 1) + 1) * n = t * (n * (j + 1)) + n := by ring
    have : t * (m + 1) = t * m + t := Nat.mul_succ t m
    omega
  have before : t * (n * (j + 1)) ≤ t * m :=
    Nat.mul_le_mul_left t (Nat.lt_succ_iff.mp (Nat.lt_of_mul_lt_mul_left wholes))
  have level : t * (j + 1) ≤ (t * m + d) / n := by
    rw [Nat.le_div_iff_mul_le positive]
    have : t * (j + 1) * n = t * (n * (j + 1)) := by ring
    omega
  have room : 0 < t := Nat.pos_of_ne_zero fun none => by simp [none] at wholes
  have := (Nat.le_div_iff_mul_le room).mpr ((Nat.mul_comm _ _).trans_le level)
  omega

end Aso.Deal
