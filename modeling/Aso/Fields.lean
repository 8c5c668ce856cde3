import Mathlib.Data.List.TakeWhile

/-! The tokens of a list with separators, as a scanner finds them that skips separators before
each token, against the fields that the separators delimit. -/
namespace Aso.Fields
variable {α : Type} {p : α → Bool} {xs : List α}

/-- The next token and what follows the separator behind it. -/
def next (p : α → Bool) (xs : List α) : Option (List α × List α) :=
  match xs.dropWhile p with
  | [] => none
  | x :: rest => some ((x :: rest).takeWhile (!p ·), ((x :: rest).dropWhile (!p ·)).tail)

/-- The nonempty fields. -/
def tokens (p : α → Bool) (xs : List α) : List (List α) := (xs.splitOnP p).filter (· ≠ [])

theorem tokens_dropWhile (p : α → Bool) (xs : List α) :
    tokens p (xs.dropWhile p) = tokens p xs := by
  induction xs with
  | nil => rfl
  | cons x rest ih =>
    rw [List.dropWhile_cons]
    split
    · rename_i separator
      rw [ih, tokens, tokens, List.splitOnP_cons_eq_if_modifyHead, if_pos separator]
      rfl
    · rfl

theorem head_dropWhile {x : α} {rest : List α} (found : xs.dropWhile p = x :: rest) :
    p x = false := by
  have head := List.head?_dropWhile_not p xs
  rw [found] at head
  simpa using head

theorem tokens_next (p : α → Bool) (xs : List α) :
    tokens p xs = (next p xs).elim [] fun found => found.1 :: tokens p found.2 := by
  rw [← tokens_dropWhile, next]
  split
  · rename_i none
    rw [none]
    rfl
  · rename_i x rest found
    have head := head_dropWhile found
    rw [found, Option.elim_some]
    have text : ∀ y ∈ (x :: rest).takeWhile (!p ·), p y = false := by
      intro y member
      simpa using List.mem_takeWhile_imp member
    have some : (x :: rest).takeWhile (!p ·) ≠ [] := by simp [head]
    have whole : tokens p (x :: rest) =
        tokens p ((x :: rest).takeWhile (!p ·) ++ (x :: rest).dropWhile (!p ·)) := by
      rw [List.takeWhile_append_dropWhile]
    rw [whole]
    cases behind : (x :: rest).dropWhile (!p ·) with
    | nil =>
      rw [List.append_nil, tokens, List.splitOnP_eq_singleton fun y member => text y member,
        List.filter_cons_of_pos (by simpa using some)]
      rfl
    | cons separator after =>
      have ends : p separator = true := by simpa using head_dropWhile behind
      rw [tokens, List.splitOnP_append_cons _ _ ends, List.splitOnP_eq_singleton
        fun y member => text y member, List.singleton_append,
        List.filter_cons_of_pos (by simpa using some)]
      rfl

theorem length_next {token rest : List α} (found : next p xs = some (token, rest)) :
    rest.length < xs.length := by
  unfold next at found
  split at found
  · cases found
  · rename_i x behind start
    have head := head_dropWhile start
    have shorter := (List.dropWhile_suffix p (l := xs)).length_le
    have after := (List.dropWhile_suffix (!p ·) (l := behind)).length_le
    cases found
    rw [start, List.length_cons] at shorter
    rw [List.dropWhile_cons_of_pos (by simpa using head), List.length_tail]
    omega

/-- The number of separators and one more is the number of fields. -/
theorem length_splitOnP (p : α → Bool) (xs : List α) :
    (xs.splitOnP p).length = xs.countP p + 1 := by
  induction xs with
  | nil => rfl
  | cons x rest ih =>
    rw [List.splitOnP_cons_eq_if_modifyHead, List.countP_cons]
    split <;> simp_all

/-- There are as many tokens as fields exactly when no field is empty. -/
theorem length_tokens_eq_iff (p : α → Bool) (xs : List α) :
    (tokens p xs).length = xs.countP p + 1 ↔ [] ∉ xs.splitOnP p := by
  rw [← length_splitOnP, tokens, List.length_filter_eq_length_iff]
  constructor
  · intro all empty
    simpa using all [] empty
  · intro none field member
    simp only [ne_eq, decide_not, Bool.not_eq_eq_eq_not, Bool.not_true, decide_eq_false_iff_not]
    rintro rfl
    exact none member

end Aso.Fields
