import Mathlib.Algebra.GroupWithZero.Nat
import Mathlib.Algebra.BigOperators.Group.List.Basic

/-! The round-robin merge of lists, and the filling of buffers of `t` items with
whole rounds of it. -/
namespace Aso.RoundRobin
variable {α : Type} {files : List (List α)} {t r : Nat}

/-- Round `r` takes item `r` of each list longer than `r`. -/
def roundOf (files : List (List α)) (r : Nat) : List α := files.filterMap (·[r]?)

/-- The first rounds, one after another. -/
def merged (files : List (List α)) (rounds : Nat) : List α :=
  (List.range rounds).flatMap (roundOf files)

def longest (files : List (List α)) : Nat := (files.map List.length).foldr max 0

def roundRobin (files : List (List α)) : List α := merged files (longest files)

theorem length_le_longest {file : List α} (member : file ∈ files) :
    file.length ≤ longest files := by
  induction files with
  | nil => cases member
  | cons first rest ih =>
    have here : longest (first :: rest) = max first.length (longest rest) := rfl
    obtain rfl | later := List.mem_cons.mp member
    · omega
    · have := ih later
      omega

theorem longest_le (enough : ∀ file ∈ files, file.length ≤ r) : longest files ≤ r := by
  induction files with
  | nil => exact Nat.zero_le r
  | cons first rest ih =>
    rw [List.forall_mem_cons] at enough
    exact Nat.max_le.mpr ⟨enough.1, ih enough.2⟩

theorem round_eq_nil_iff : roundOf files r = [] ↔ ∀ file ∈ files, file.length ≤ r := by
  simp [roundOf, List.filterMap_eq_nil_iff]

theorem merged_add (files : List (List α)) (a b : Nat) :
    merged files (a + b) = merged files a ++ (List.range b).flatMap fun r =>
      roundOf files (a + r) := by
  rw [merged, List.range_add, List.flatMap_append, List.flatMap_map, merged]

theorem merged_succ (files : List (List α)) (r : Nat) :
    merged files (r + 1) = merged files r ++ roundOf files r := by
  simp [merged, List.range_succ]

/-- Rounds past the longest list add nothing. -/
theorem merged_eq (enough : ∀ file ∈ files, file.length ≤ r) :
    merged files r = roundRobin files := by
  have reached : longest files ≤ r := longest_le enough
  obtain ⟨d, rfl⟩ := Nat.exists_eq_add_of_le reached
  have rest (q : Nat) : roundOf files (longest files + q) = [] :=
    round_eq_nil_iff.mpr fun file member => Nat.le_trans (length_le_longest member)
    (Nat.le_add_right _ _)
  rw [merged_add, roundRobin]
  simp [rest]

theorem roundRobin_singleton (file : List α) : roundRobin [file] = file := by
  have rounds (r : Nat) : merged [file] r = file.take r := by
    induction r with
    | zero => rfl
    | succ r ih =>
      rw [merged_succ, ih, List.take_add_one]
      cases here : file[r]? <;> simp [roundOf, here]
  rw [roundRobin, rounds]
  exact List.take_of_length_le (length_le_longest List.mem_cons_self)

/-- Merging pieces of `t` items of each list, and then what is left of them. -/
theorem roundRobin_take_drop (files : List (List α)) (t : Nat) :
    roundRobin files = roundRobin (files.map (·.take t)) ++ roundRobin (files.map (·.drop t)) := by
  have first : merged (files.map (·.take t)) t = roundRobin (files.map (·.take t)) :=
    merged_eq fun file member => by
      obtain ⟨whole, -, rfl⟩ := List.mem_map.mp member
      rw [List.length_take]
      omega
  have second : merged (files.map (·.drop t)) (longest files) = roundRobin (files.map (·.drop t)) :=
    merged_eq fun file member => by
      obtain ⟨whole, inside, rfl⟩ := List.mem_map.mp member
      have := length_le_longest inside
      rw [List.length_drop]
      omega
  have all : merged files (t + longest files) = roundRobin files :=
    merged_eq fun file member => Nat.le_trans (length_le_longest member) (Nat.le_add_left _ _)
  rw [← all, merged_add, ← first, ← second]
  congr 1
  · refine List.flatMap_congr fun r inside => ?_
    rw [roundOf, roundOf, List.filterMap_map]
    refine List.filterMap_congr fun file _ => ?_
    exact (List.getElem?_take_of_lt (List.mem_range.mp inside)).symm
  · refine List.flatMap_congr fun r _ => ?_
    rw [roundOf, roundOf, List.filterMap_map]
    refine List.filterMap_congr fun file _ => ?_
    exact List.getElem?_drop.symm

/-- How many lists have an item left in round `r`. -/
def active (files : List (List α)) (r : Nat) : Nat := files.countP (r < ·.length)

theorem length_round (files : List (List α)) (r : Nat) :
    (roundOf files r).length = active files r := by
  rw [roundOf, active, List.length_filterMap_eq_countP]
  refine List.countP_congr fun file _ => ?_
  simp

/-- How full the buffer is before each round, when it is emptied
after a round that leaves `t` items in it or more. -/
def fill (t : Nat) (added : Nat → Nat) : Nat → Nat
  | 0 => 0
  | r + 1 => if t ≤ fill t added r + added r then 0 else fill t added r + added r

variable {added : Nat → Nat}

theorem fill_lt (room : 0 < t) (added : Nat → Nat) (r : Nat) : fill t added r < t := by
  cases r with
  | zero => exact room
  | succ r =>
    unfold fill
    split <;> omega

/-- As long as no round has gone past `t`, the buffer holds
what is past the last multiple of `t`. -/
theorem fill_eq_mod (inside : ∀ q < r, fill t added q + added q ≤ t) :
    fill t added r = ((List.range r).map added).sum % t := by
  induction r with
  | zero => simp [fill]
  | succ r ih =>
    have before := ih fun q bound => inside q (by omega)
    have here := inside r (by omega)
    rw [fill, List.range_succ, List.map_append, List.sum_append, List.map_singleton,
      List.sum_singleton, ← Nat.mod_add_mod, ← before]
    split
    · next reached =>
      have whole : fill t added r + added r = t := by omega
      rw [whole, Nat.mod_self]
    · exact (Nat.mod_eq_of_lt (by omega)).symm

/-- No round goes past `t` items. -/
theorem fill_inside_iff :
    (∀ q < r, fill t added q + added q ≤ t) ↔
      ∀ q < r, ((List.range q).map added).sum % t + added q ≤ t := by
  induction r with
  | zero => simp
  | succ r ih =>
    rw [Nat.forall_lt_succ_right, Nat.forall_lt_succ_right, ← ih]
    refine and_congr_right fun inside => ?_
    rw [fill_eq_mod inside]

end Aso.RoundRobin
