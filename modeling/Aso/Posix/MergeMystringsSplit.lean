import Aso.Fields
import Aso.Posix.MergeFiles
import Aso.Posix.Mystrings
import Aso.Transition
import Aso.Posix.SplitFiles

/-! merge_mystrings_split.c. One scan of the list given to `-i` counts commas to size `fich_in`
and the arguments of merge_files; another, with `strtok_r`, fills them in. The arguments built
for mystrings are not the ones its `exec` passes on, and split_files is started too late for a
long text. -/
namespace Aso.Posix.MergeMystringsSplit
open Function Transition

abbrev Bytes := List UInt8

variable {access : Bytes → Bool} {i : Bytes}

def isComma (b : UInt8) : Bool := b == 44

/-- `numficheros_in` after the scan for commas. -/
def numFicherosIn (i : Bytes) : Nat := i.foldl (fun n b => if isComma b then n + 1 else n) 0 + 1

/-- `strtok_r(_, ",", &saveptr)`: the token, and the text from `saveptr` on. -/
def strtokR (text : Bytes) : Option (Bytes × Bytes) := Fields.next isComma text

/-- The loop over the tokens with `j` of them stored; a file that cannot be accessed ends the
program. -/
def fillIn (access : Bytes → Bool) :
    Nat → Nat → Bytes → (Nat → Option Bytes) → Option (Nat → Option Bytes)
  | 0, _, _, fichIn => some fichIn
  | fuel + 1, j, text, fichIn =>
    match strtokR text with
    | none => some fichIn
    | some (token, text) =>
      if access token then fillIn access fuel (j + 1) text (update fichIn j (some token)) else none

/-- The file arguments that merge_files gets. An entry of `fich_in` that was never assigned is
none; each token takes at least one byte, which bounds the turns of the loop. -/
def mergeArgs (access : Bytes → Bool) (i : Bytes) : Option (List (Option Bytes)) :=
  (fillIn access i.length 0 i fun _ => none).map
    fun fichIn => (List.range (numFicherosIn i)).map fichIn

theorem numFicherosIn_eq (i : Bytes) : numFicherosIn i = i.countP isComma + 1 := by
  have scan (n : Nat) :
      i.foldl (fun n b => if isComma b then n + 1 else n) n = n + i.countP isComma := by
    induction i generalizing n with
    | nil => rfl
    | cons b rest ih =>
      rw [List.foldl_cons, ih, List.countP_cons]
      split <;> omega
  rw [numFicherosIn, scan, Nat.zero_add]

/-- The tokens end up one after another from entry `j` on. -/
theorem fillIn_eq {fuel j : Nat} {text : Bytes} {fichIn filled : Nat → Option Bytes}
    (turns : text.length ≤ fuel) (done : fillIn access fuel j text fichIn = some filled) (k : Nat) :
    filled k = if j ≤ k ∧ k < j + (Fields.tokens isComma text).length
      then (Fields.tokens isComma text)[k - j]? else fichIn k := by
  induction fuel generalizing j text fichIn with
  | zero =>
    cases List.eq_nil_of_length_eq_zero (Nat.le_zero.mp turns)
    cases done
    rw [if_neg]
    rintro ⟨low, high⟩
    exact absurd high (Nat.not_lt.mpr low)
  | succ fuel ih =>
    rw [Fields.tokens_next]
    unfold fillIn strtokR at done
    split at done
    · rename_i none
      cases done
      rw [none, Option.elim_none, if_neg (by simp)]
    · rename_i token rest found
      rw [found, Option.elim_some]
      have shorter := Fields.length_next found
      split at done
      · rw [ih (by omega) done]
        simp only [List.length_cons]
        by_cases first : k = j
        · subst k
          rw [if_neg (by omega), if_pos (by omega), update_self, Nat.sub_self,
            List.getElem?_cons_zero]
        · by_cases inside : j + 1 ≤ k ∧ k < j + 1 + (Fields.tokens isComma rest).length
          · obtain ⟨d, rfl⟩ := Nat.exists_eq_add_of_le inside.1
            have index : j + 1 + d - j = d + 1 := by omega
            rw [if_pos inside, if_pos (by omega), Nat.add_sub_cancel_left, index,
              List.getElem?_cons_succ]
          · rw [if_neg inside, if_neg (by omega), update_of_ne first]
      · cases done

/-- The arguments are the tokens, and one unassigned entry for each empty field. -/
theorem mergeArgs_eq {args : List (Option Bytes)} (done : mergeArgs access i = some args) :
    args = (List.range (i.countP isComma + 1)).map fun k => (Fields.tokens isComma i)[k]? := by
  obtain ⟨filled, loop, rfl⟩ := Option.map_eq_some_iff.mp done
  rw [numFicherosIn_eq]
  refine List.map_congr_left fun k _ => ?_
  rw [fillIn_eq le_rfl loop, Nat.sub_zero]
  split
  · rfl
  · rename_i outside
    rw [List.getElem?_eq_none (by omega)]

/-- merge_files gets as many files as `strtok_r` yields, all of them assigned, exactly when no
field between the commas is empty. -/
theorem passes_tokens_iff {args : List (Option Bytes)} (done : mergeArgs access i = some args) :
    (args.length = (Fields.tokens isComma i).length ∧ ∀ entry ∈ args, entry.isSome) ↔
    [] ∉ i.splitOnP isComma := by
  rw [mergeArgs_eq done, ← Fields.length_tokens_eq_iff, List.length_map, List.length_range]
  constructor
  · exact fun both => both.1.symm
  · intro same
    refine ⟨same.symm, fun entry member => ?_⟩
    obtain ⟨k, bound, rfl⟩ := List.mem_map.mp member
    rw [List.getElem?_eq_getElem (by rw [same]; exact List.mem_range.mp bound)]
    rfl

/-- With `a,b` both files are passed. -/
theorem two_files_pass : ∃ args, mergeArgs (fun _ => true) [97, 44, 98] = some args ∧
    args.length = (Fields.tokens isComma [97, 44, 98]).length ∧ ∀ entry ∈ args, entry.isSome := by
  have done : mergeArgs (fun _ => true) [97, 44, 98] = some [some [97], some [98]] := by decide
  exact ⟨_, done, (passes_tokens_iff done).mpr (by decide)⟩

/-- With `a,,b` merge_files gets a third argument that was never assigned. -/
theorem empty_field_unassigned :
    mergeArgs (fun _ => true) [97, 44, 44, 98] = some [some [97], some [98], none] ∧
    (Fields.tokens isComma [97, 44, 44, 98]).length = 2 := by
  decide

section Delivers
variable {capacity : Nat} {sys : Nat → Sys} {usage : Nat → Bytes}
  {disk : Option Bytes → Option Bytes} {images : Images}

end Delivers

section Options
variable {t n : Nat} {strings : List Mystrings.Opt} {text : Bytes}

section Single
variable {capacity : Nat} {usage : Nat → Bytes} {input : Bytes}

end Single

end Options

end Aso.Posix.MergeMystringsSplit
