import Mathlib.Algebra.BigOperators.Group.Finset.Piecewise
import Mathlib.Algebra.Order.BigOperators.Group.Finset

/-! Sequences of pieces from several sources, each piece tagged with its source. The pieces
of one source keep their order and lie between those of the others. -/
namespace Aso.Tagged
variable {α : Type} {pieces more : List (Nat × List α)} {c k : Nat}

/-- All pieces one after another. -/
def joined (pieces : List (Nat × List α)) : List α := pieces.flatMap Prod.snd

/-- The pieces of source `c` one after another. -/
def part (c : Nat) (pieces : List (Nat × List α)) : List α := joined (pieces.filter (·.1 = c))

@[simp] theorem joined_append : joined (pieces ++ more) = joined pieces ++ joined more :=
  List.flatMap_append

@[simp] theorem joined_singleton (piece : Nat × List α) : joined [piece] = piece.2 := by
  simp [joined]

theorem part_append_same (piece : List α) :
    part c (pieces ++ [(c, piece)]) = part c pieces ++ piece := by
  simp [part]

theorem part_append_other {d : Nat} (piece : List α) (other : c ≠ d) :
    part d (pieces ++ [(c, piece)]) = part d pieces := by
  simp [part, other]

/-- Every piece belongs to one source. -/
theorem sum_length_part (tags : ∀ piece ∈ pieces, piece.1 < k) :
    ∑ c ∈ Finset.range k, (part c pieces).length = (joined pieces).length := by
  induction pieces with
  | nil => simp [part, joined]
  | cons piece rest ih =>
    have one (c : Nat) : (part c (piece :: rest)).length =
        (if piece.1 = c then piece.2.length else 0) + (part c rest).length := by
      by_cases here : piece.1 = c <;> simp [part, joined, here]
    simp only [one, Finset.sum_add_distrib,
      ih fun later member => tags later (List.mem_cons_of_mem _ member)]
    rw [Finset.sum_ite_eq, if_pos (Finset.mem_range.mpr (tags piece List.mem_cons_self))]
    simp [joined]

theorem sum_length_getD (sources : List (List α)) :
    ∑ c ∈ Finset.range sources.length, (sources.getD c []).length = sources.flatten.length := by
  induction sources with
  | nil => rfl
  | cons first rest ih =>
    rw [List.length_cons, Finset.sum_range_succ', List.flatten_cons, List.length_append,
      Nat.add_comm]
    simp only [List.getD_cons_succ, ih, List.getD_cons_zero]

/-- When the pieces of each source are a part of it that comes before its rest, the rest of one
of them has not been counted. -/
theorem length_joined_add_le {sources : List (List α)} {rest : List α} (bound : c < sources.length)
    (tags : ∀ piece ∈ pieces, piece.1 < sources.length)
    (here : sources.getD c [] = part c pieces ++ rest)
    (others : ∀ d < sources.length, (part d pieces).length ≤ (sources.getD d []).length) :
    (joined pieces).length + rest.length ≤ sources.flatten.length := by
  rw [← sum_length_part tags, ← sum_length_getD, ← Finset.add_sum_erase _ _
    (Finset.mem_range.mpr bound), ← Finset.add_sum_erase _ (fun c => (sources.getD c []).length)
    (Finset.mem_range.mpr bound), here, List.length_append]
  have := Finset.sum_le_sum fun d (member : d ∈ (Finset.range sources.length).erase c) =>
    others d (Finset.mem_range.mp (Finset.mem_of_mem_erase member))
  omega

end Aso.Tagged
