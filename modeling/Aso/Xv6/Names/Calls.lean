import Aso.Xv6.Names.Ops

/-! Every call takes its locks from above and drops what it has taken. The rules are
about a program, what the process holds before it, and what it holds after it. -/
namespace Aso.Xv6.Names
open Interleave Interleave.Logic

variable {strict : Bool} {p : Slot} {s : Shared} {held : List Nat} {refs : Multiset Nat} {i : Nat}

/-- A lock that is the only one. -/
theorem nothing_left (j : Nat) : j ∈ ([] : List Nat) ↔ j ∈ [i] ∧ j ≠ i := by simp

/-- The first of two locks is released. -/
theorem second_left {d : Nat} (apart : i ≠ d) (j : Nat) : j ∈ [d] ↔ j ∈ [i, d] ∧ j ≠ i := by
  simp only [List.mem_cons, List.not_mem_nil, or_false]
  constructor
  · rintro rfl
    exact ⟨.inr rfl, apart.symm⟩
  · exact fun ⟨inside, other⟩ => inside.resolve_left other

/-- The second of two locks is released. -/
theorem first_left {d : Nat} (apart : i ≠ d) (j : Nat) : j ∈ [i] ↔ j ∈ [i, d] ∧ j ≠ d := by
  simp only [List.mem_cons, List.not_mem_nil, or_false]
  constructor
  · rintro rfl
    exact ⟨.inl rfl, apart⟩
  · exact fun ⟨inside, other⟩ => inside.resolve_right other

section Creating
variable {dp ip : Nat}

end Creating

section Linking
variable {dp ip : Nat}

end Linking

section Calls
variable {c : Data}

/-- Opening and closing a file moves its reference. -/
theorem refs_setFile (c : Data) (fd : Fin nofile) (f : Option File) :
    (c.setFile fd f).refs + fileRef (c.ofile fd) = c.refs + fileRef f := by
  simp only [Data.refs, Data.setFile, Multiset.cons_add, sum_update]

theorem refs_open {fd : Fin nofile} (free : c.ofile fd = none) (f : File) :
    (c.setFile fd (some f)).refs = f.ip ::ₘ c.refs := by
  have moved := refs_setFile c fd (some f)
  rw [free, fileRef, fileRef, add_zero, add_comm, Multiset.singleton_add] at moved
  exact moved

theorem refs_close {fd : Fin nofile} {f : File} (opened : c.ofile fd = some f) :
    c.refs = f.ip ::ₘ (c.setFile fd none).refs := by
  have moved := refs_setFile c fd none
  rw [opened, fileRef, fileRef, add_zero, add_comm, Multiset.singleton_add] at moved
  exact moved.symm

theorem fdalloc_free {fd : Fin nofile} (found : c.fdalloc = some fd) : c.ofile fd = none := by
  simpa using List.find?_some found

end Calls

end Aso.Xv6.Names
