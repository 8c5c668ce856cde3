import Mathlib.Data.List.DropRight

/-! The maximal runs of the elements with a property, read from the left: the
runs already closed by an element without it, and the run still open. -/
namespace Aso.Runs
variable {α : Type} {p : α → Bool} {n t : Nat} {x : α} {xs : List α}

/-- The maximal runs of `p`, with an empty one wherever two separators meet. -/
def runs (p : α → Bool) (xs : List α) : List (List α) := xs.splitOnP fun x => !p x

/-- The run still open at the end. -/
def openRun (p : α → Bool) (xs : List α) : List α := xs.rtakeWhile p

def closedRuns (p : α → Bool) (xs : List α) : List (List α) := (runs p xs).dropLast

/-- A run if it is long enough. -/
def emit (n : Nat) (run : List α) : List α := if n ≤ run.length then run else []

/-- The runs of length at least `n`, one after another. -/
def long (p : α → Bool) (n : Nat) (xs : List α) : List α :=
  ((runs p xs).filter (n ≤ ·.length)).flatten

def closedLong (p : α → Bool) (n : Nat) (xs : List α) : List α :=
  ((closedRuns p xs).filter (n ≤ ·.length)).flatten

theorem openRun_concat : openRun p (xs ++ [x]) = if p x then openRun p xs ++ [x] else [] :=
  List.rtakeWhile_concat p xs x

theorem runs_append (xs : List α) {ys : List α} (all : ∀ y ∈ ys, p y = true) :
    runs p (xs ++ ys) = closedRuns p xs ++ [openRun p xs ++ ys] := by
  -- `closedRuns` is read off the case of no `ys`
  suffices ∃ init, ∀ zs, (∀ z ∈ zs, p z = true) →
      runs p (xs ++ zs) = init ++ [openRun p xs ++ zs] by
    obtain ⟨init, split⟩ := this
    have here := split [] nofun
    rw [List.append_nil, List.append_nil] at here
    rw [closedRuns, here, List.dropLast_concat]
    exact split ys all
  clear all
  induction xs using List.reverseRecOn with
  | nil =>
    exact ⟨[], fun zs all => List.splitOnP_eq_singleton fun z member => by simp [all z member]⟩
  | append_singleton xs x ih =>
    obtain ⟨init, split⟩ := ih
    rw [openRun_concat]
    by_cases holds : p x = true
    · refine ⟨init, fun zs all => ?_⟩
      rw [if_pos holds, List.append_assoc, List.append_assoc]
      exact split _ (by simpa [holds] using all)
    · refine ⟨runs p xs, fun zs all => ?_⟩
      rw [if_neg holds, List.append_assoc]
      exact (List.splitOnP_append_cons xs zs (by simp [holds])).trans
        (congrArg _ (List.splitOnP_eq_singleton fun z member => by simp [all z member]))

theorem runs_eq (p : α → Bool) (xs : List α) : runs p xs = closedRuns p xs ++ [openRun p xs] := by
  have whole : runs p (xs ++ []) = _ := runs_append xs nofun
  rwa [List.append_nil, List.append_nil] at whole

theorem closedRuns_concat :
    closedRuns p (xs ++ [x]) = if p x then closedRuns p xs else runs p xs := by
  split
  · next holds => rw [closedRuns, runs_append xs (by simpa using holds), List.dropLast_concat]
  · next fails =>
    rw [closedRuns, runs, List.splitOnP_append_cons xs [] (by simpa using fails), List.splitOnP_nil,
      List.dropLast_concat]
    rfl

theorem long_eq : long p n xs = closedLong p n xs ++ emit n (openRun p xs) := by
  rw [long, runs_eq, List.filter_append, List.flatten_append, closedLong]
  congr 1
  unfold emit
  split <;> simp_all

theorem closedLong_concat : closedLong p n (xs ++ [x]) = if p x then closedLong p n xs
    else closedLong p n xs ++ emit n (openRun p xs) := by
  rw [closedLong, closedRuns_concat]
  split
  · rfl
  · exact long_eq

/-- The runs are bounded by `t` when no element with the property extends a run of `t`. -/
theorem runs_concat_le : (∀ r ∈ runs p (xs ++ [x]), r.length ≤ t) ↔
    (∀ r ∈ runs p xs, r.length ≤ t) ∧ (p x = true → (openRun p xs).length < t) := by
  have whole := runs_eq p xs
  rw [runs_eq, closedRuns_concat, openRun_concat]
  split
  · next holds =>
    rw [whole]
    simp only [List.forall_mem_append, List.forall_mem_singleton, List.length_append,
      List.length_singleton, holds, forall_const]
    constructor
    · rintro ⟨closed, last⟩
      exact ⟨⟨closed, by omega⟩, by omega⟩
    · rintro ⟨⟨closed, -⟩, last⟩
      exact ⟨closed, by omega⟩
  · next fails =>
    simp only [List.forall_mem_append, List.forall_mem_singleton, List.length_nil, Nat.zero_le,
      and_true, fails]
    exact ⟨fun all => ⟨all, nofun⟩, And.left⟩

theorem runs_le_of_append {ys : List α} (all : ∀ r ∈ runs p (xs ++ ys), r.length ≤ t) :
    ∀ r ∈ runs p xs, r.length ≤ t := by
  induction ys using List.reverseRecOn with
  | nil => simpa using all
  | append_singleton ys y ih =>
    rw [← List.append_assoc] at all
    exact ih (runs_concat_le.mp all).1

end Aso.Runs
