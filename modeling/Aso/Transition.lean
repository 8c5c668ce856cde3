import Mathlib.Data.List.Infix

/-! Schedules of a machine whose partial step function resolves every choice
in its action. A refused action refuses the rest of the schedule, so a
successful run has taken each of its actions in an enabling state. -/
namespace Aso.Transition
variable {S A : Type}

def run (step : S → A → Option S) : S → List A → Option S
  | s, [] => some s
  | s, a :: rest => (step s a).bind (run step · rest)

/-- Every action of the schedule is taken in a state that admits it. -/
def Along (step : S → A → Option S) (ok : S → A → Prop) : S → List A → Prop
  | _, [] => True
  | s, a :: rest => ok s a ∧ ∀ t, step s a = some t → Along step ok t rest

/-- `P` holds in the first state of the schedule and in every state it visits. -/
def Visits (step : S → A → Option S) (P : S → Prop) : S → List A → Prop
  | s, [] => P s
  | s, a :: rest => P s ∧ ∀ t, step s a = some t → Visits step P t rest

variable {step : S → A → Option S} {ok : S → A → Prop} {P : S → Prop} {s t : S} {schedule : List A}

theorem run_cons {a : A} {rest : List A} :
    run step s (a :: rest) = some t ↔ ∃ m, step s a = some m ∧ run step m rest = some t := by
  simp only [run, Option.bind_eq_some_iff]

theorem run_append {first last : List A} :
    run step s (first ++ last) = some t ↔
      ∃ m, run step s first = some m ∧ run step m last = some t := by
  induction first generalizing s with
  | nil => simp [run]
  | cons a rest ih =>
    rw [List.cons_append, run_cons]
    simp only [run_cons, ih]
    constructor
    · rintro ⟨n, taken, m, reached, last⟩
      exact ⟨m, ⟨n, taken, reached⟩, last⟩
    · rintro ⟨m, ⟨n, taken, reached⟩, last⟩
      exact ⟨n, taken, m, reached, last⟩

/-- The induction behind every safety result about admitted schedules. -/
theorem invariant_along (preserves : ∀ s a t, P s → ok s a → step s a = some t → P t)
    (admitted : Along step ok s schedule) (reached : run step s schedule = some t)
    (initial : P s) : P t := by
  induction schedule generalizing s with
  | nil =>
    cases Option.some.inj reached
    exact initial
  | cons a rest ih =>
    obtain ⟨m, taken, reached⟩ := run_cons.mp reached
    exact ih (admitted.2 m taken) reached (preserves s a m initial admitted.1 taken)

theorem invariant (preserves : ∀ s a t, P s → step s a = some t → P t)
    (reached : run step s schedule = some t) (initial : P s) : P t := by
  induction schedule generalizing s with
  | nil =>
    cases Option.some.inj reached
    exact initial
  | cons a rest ih =>
    obtain ⟨m, taken, reached⟩ := run_cons.mp reached
    exact ih reached (preserves s a m initial taken)

/-- No action takes the machine further. -/
def Stuck (step : S → A → Option S) (s : S) : Prop := ∀ a, step s a = none

/-- Every run from `s` comes to an end, and ends well. -/
structure Ends (step : S → A → Option S) (s : S) (good : S → Prop) : Prop where
  finite : ∃ bound, ∀ schedule t, run step s schedule = some t → schedule.length ≤ bound
  well : ∀ schedule t, run step s schedule = some t → Stuck step t → good t

/-- Where each step takes a measure down, the measure bounds the run. -/
theorem length_le_measure {I : Nat → S → Prop}
    (decreases : ∀ m s a t, I m s → step s a = some t → ∃ k < m, I k t) {m : Nat} (initial : I m s)
    (reached : run step s schedule = some t) : schedule.length ≤ m := by
  induction schedule generalizing m s with
  | nil => exact Nat.zero_le m
  | cons a rest ih =>
    obtain ⟨u, taken, reached⟩ := run_cons.mp reached
    obtain ⟨k, less, next⟩ := decreases m s a u initial taken
    exact Nat.succ_le_of_lt ((ih next reached).trans_lt less)

/-- A machine whose runs are bounded comes to a state that it cannot leave. -/
theorem exists_stuck {bound : Nat}
    (finite : ∀ schedule t, run step s schedule = some t → schedule.length ≤ bound) :
    ∃ schedule t, run step s schedule = some t ∧ Stuck step t := by
  by_contra none
  have longer (n : Nat) : ∃ schedule t, run step s schedule = some t ∧ schedule.length = n := by
    induction n with
    | zero => exact ⟨[], s, rfl, rfl⟩
    | succ n ih =>
      obtain ⟨schedule, t, reached, length⟩ := ih
      obtain ⟨a, moves⟩ : ∃ a, step t a ≠ Option.none := by
        by_contra stuck
        exact none ⟨schedule, t, reached, fun a => not_not.mp fun moves => stuck ⟨a, moves⟩⟩
      obtain ⟨u, taken⟩ := Option.ne_none_iff_exists'.mp moves
      exact ⟨schedule ++ [a], u, run_append.mpr ⟨t, reached, run_cons.mpr ⟨u, taken, rfl⟩⟩,
        by simp [length]⟩
  obtain ⟨schedule, t, reached, length⟩ := longer (bound + 1)
  have := finite schedule t reached
  omega

theorem Visits.here (visits : Visits step P s schedule) : P s := by
  cases schedule with
  | nil => exact visits
  | cons a rest => exact visits.1

theorem Visits.last (visits : Visits step P s schedule)
    (reached : run step s schedule = some t) : P t := by
  induction schedule generalizing s with
  | nil =>
    cases Option.some.inj reached
    exact visits
  | cons a rest ih =>
    obtain ⟨m, taken, reached⟩ := run_cons.mp reached
    exact ih (visits.2 m taken) reached

/-- Where one step keeps `P` exactly when it is admitted, so does a whole schedule. -/
theorem visits_iff_along {I : S → Prop} (preserves : ∀ s a t, I s → P s → step s a = some t → I t)
    (one : ∀ s a t, I s → P s → step s a = some t → (P t ↔ ok s a))
    (reached : run step s schedule = some t) (inv : I s) (initial : P s) :
    Visits step P s schedule ↔ Along step ok s schedule := by
  induction schedule generalizing s with
  | nil => exact iff_of_true initial trivial
  | cons a rest ih =>
    obtain ⟨m, taken, reached⟩ := run_cons.mp reached
    have later (next : P m) := ih reached (preserves s a m inv initial taken) next
    have first := one s a m inv initial taken
    simp only [Visits, Along, taken, Option.some.injEq, forall_eq']
    constructor
    · rintro ⟨-, visits⟩
      exact ⟨first.mp visits.here, (later visits.here).mp visits⟩
    · rintro ⟨admitted, along⟩
      exact ⟨initial, (later (first.mpr admitted)).mpr along⟩

instance decidableAlong [∀ s a, Decidable (ok s a)] :
    ∀ s schedule, Decidable (Along step ok s schedule)
  | _, [] => isTrue trivial
  | s, a :: rest =>
    match taken : step s a with
    | none => decidable_of_iff (ok s a) (by simp [Along, taken])
    | some t =>
      have := decidableAlong t rest
      decidable_of_iff (ok s a ∧ Along step ok t rest) (by simp [Along, taken])

instance decidableVisits [∀ s, Decidable (P s)] : ∀ s schedule, Decidable (Visits step P s schedule)
  | s, [] => inferInstanceAs (Decidable (P s))
  | s, a :: rest =>
    match taken : step s a with
    | none => decidable_of_iff (P s) (by simp [Visits, taken])
    | some t =>
      have := decidableVisits t rest
      decidable_of_iff (P s ∧ Visits step P t rest) (by simp [Visits, taken])

/-- Only the admission of actions is weakened; the states visited are the same. -/
theorem Along.mono {ok' : S → A → Prop} (weaker : ∀ s a, ok s a → ok' s a)
    (admitted : Along step ok s schedule) : Along step ok' s schedule := by
  induction schedule generalizing s with
  | nil => trivial
  | cons a rest ih => exact ⟨weaker s a admitted.1, fun t taken => ih (admitted.2 t taken)⟩

theorem Along.append {later : List A} (admitted : Along step ok s schedule)
    (rest : ∀ t, run step s schedule = some t → Along step ok t later) :
    Along step ok s (schedule ++ later) := by
  induction schedule generalizing s with
  | nil => exact rest s rfl
  | cons a schedule ih =>
    exact ⟨admitted.1, fun m taken => ih (admitted.2 m taken)
      fun t reached => rest t (run_cons.mpr ⟨m, taken, reached⟩)⟩

/-- A machine whose steps are seen by a view as nothing or as one step of
another machine runs only through states the other machine reaches. -/
theorem simulation {S' A' : Type} {step' : S' → A' → Option S'} {ok' : S' → A' → Prop}
    (view : S → S') (event : S → A → Option A')
    (simulates : ∀ s a t, step s a = some t →
      (event s a = none ∧ view t = view s) ∨
        ∃ e, event s a = some e ∧ step' (view s) e = some (view t))
    (admits : ∀ s a e, ok s a → event s a = some e → ok' (view s) e)
    (admitted : Along step ok s schedule) (reached : run step s schedule = some t) :
    ∃ events, Along step' ok' (view s) events ∧ run step' (view s) events = some (view t) := by
  induction schedule generalizing s with
  | nil =>
    cases Option.some.inj reached
    exact ⟨[], trivial, rfl⟩
  | cons a rest ih =>
    obtain ⟨m, taken, reached⟩ := run_cons.mp reached
    obtain ⟨events, along, follows⟩ := ih (admitted.2 m taken) reached
    obtain ⟨-, same⟩ | ⟨e, seen, moved⟩ := simulates s a m taken
    · exact ⟨events, same ▸ along, same ▸ follows⟩
    · refine ⟨e :: events, ⟨admits s a e admitted.1 seen, fun t next => ?_⟩, ?_⟩
      · cases Option.some.inj (moved.symm.trans next)
        exact along
      · exact run_cons.mpr ⟨_, moved, follows⟩

end Aso.Transition
