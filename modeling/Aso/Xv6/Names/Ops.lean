import Aso.Refs
import Aso.Xv6.Names.Rely

/-! One rule for each operation: what a process has to hold for it, and what it then knows. -/
namespace Aso.Xv6.Names
open Interleave

section Counting
variable {s : Shared}

end Counting

section Rules
variable {strict : Bool} {p : Slot} {s : Shared} {held : List Nat} {refs : Multiset Nat} {i : Nat}

end Rules

section Referencing
variable {s : Shared}

end Referencing

section Changing
variable {s : Shared} {p : Slot} {i : Nat}

end Changing

section Rules
variable {strict : Bool} {p : Slot} {s : Shared} {held : List Nat} {refs : Multiset Nat} {i : Nat}

theorem findEntry_at {entries : List Dirent} {name : Name} {k off : Nat}
    (found : findEntry entries name = some (k, off)) :
    ∃ e, entries[off]? = some e ∧ e.inum = k ∧ k ≠ 0 ∧ namecmp name e.name = true := by
  obtain ⟨⟨e, n⟩, hit, same⟩ := Option.map_eq_some_iff.mp found
  cases same
  have test := List.find?_some hit
  have place := List.mem_zipIdx_iff_getElem?.mp (List.mem_of_find?_eq_some hit)
  simp only [ne_eq, decide_not, Bool.and_eq_true, Bool.not_eq_true', decide_eq_false_iff_not]
    at test
  exact ⟨e, place, rfl, test.1, test.2⟩

theorem findEntry_none {entries : List Dirent} {name : Name} {e : Dirent}
    (absent : findEntry entries name = none) (member : e ∈ entries) (used : e.inum ≠ 0) :
    namecmp name e.name = false := by
  have none := Option.map_eq_none_iff.mp absent
  obtain ⟨n, place⟩ := List.mem_iff_getElem?.mp member
  have test := List.find?_eq_none.mp none (e, n) (List.mem_zipIdx_iff_getElem?.mpr place)
  simpa [used] using test

theorem mem_addEntry {entries : List Dirent} {e new : Dirent} (inside : e ∈ addEntry entries new) :
    e ∈ entries ∨ e = new := by
  induction entries with
  | nil => exact .inr (List.mem_singleton.mp inside)
  | cons slot rest ih =>
    unfold addEntry at inside
    split at inside
    · rcases List.mem_cons.mp inside with rfl | later
      · exact .inr rfl
      · exact .inl (.tail _ later)
    · rcases List.mem_cons.mp inside with rfl | later
      · exact .inl (.head _)
      · exact (ih later).imp_left (.tail _)

end Rules

end Aso.Xv6.Names
