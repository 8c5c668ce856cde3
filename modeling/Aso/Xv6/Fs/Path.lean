import Aso.Fields
import Aso.Xv6.Fs.Through
import Mathlib.Data.List.DropRight

/-! `skipelem`, `namex`, `namei` and `nameiparent` of fs.c with the buffer that an element of the
path is copied to, and what they look up: the elements of a path, the entries of a directory by
name, and a walk along them. A path is its characters before the NUL. -/
namespace Aso.Xv6.Fs
open Names (Path Name)

/-- `char name[DIRSIZ]`. -/
abbrev NameBuf := Bytes dirsiz

/-- The characters of a field before its first NUL. -/
def fieldText (field : List UInt8) : Name := field.takeWhile (· ≠ 0)

def NameBuf.text (name : NameBuf) : Name := fieldText (name.read 0 dirsiz)

/-- The path after its next element, which is copied to `name`. -/
def skipelem (path : Path) (name : NameBuf) : Option (Path × NameBuf) :=
  let path := path.dropWhile (· = 47)
  if path = [] then none
  else
    let s := path
    let path := path.dropWhile (· ≠ 47)
    let len := s.length - path.length
    let name :=
      if len ≥ dirsiz then name.write 0 (s.take dirsiz)
      -- what an earlier element left behind the NUL stays
      else (name.write 0 (s.take len)).write len [0]
    some (path.dropWhile (· = 47), name)

namespace Walk
open Kernel

/-- The loop of `namex` with a reference to `ip`; each round
takes at least one character off the path. -/
def rounds (parent : Bool) : Nat → Path → NameBuf → Slot → Call (Option Slot × NameBuf)
  | 0, _, _, _ => failure
  | left + 1, path, name, ip =>
    match skipelem path name with
    | none =>
      if parent then do
        iput ip
        pure (none, name)
      else pure (some ip, name)
    | some (path, name) => do
      ilock ip
      let i ← inode ip
      if i.type ≠ tDir then do
        iunlockput ip
        pure (none, name)
      else if parent ∧ path = [] then do
        iunlock ip
        pure (some ip, name)
      else
        match ← dirlookup ip (name.read 0 dirsiz) with
        | none => do
          iunlockput ip
          pure (none, name)
        | some (next, _) => do
          iunlockput ip
          rounds parent left path name next

def namex (path : Path) (parent : Bool) (name : NameBuf) (cwd : Slot) :
    Call (Option Slot × NameBuf) := do
  let ip ← startOf path cwd
  rounds parent (path.length + 1) path name ip

/-- `name` is what the stack holds where `namei` has its buffer. -/
def namei (path : Path) (name : NameBuf) (cwd : Slot) : Call (Option Slot) := do
  let (ip, _) ← namex path false name cwd
  pure ip

def nameiparent (path : Path) (name : NameBuf) (cwd : Slot) : Call (Option Slot × NameBuf) :=
  namex path true name cwd

end Walk

/-- The nonempty parts of a path between slashes, each cut to the length of a name. -/
def components (path : Path) : List Name := (Fields.tokens (· = 47) path).map (·.take dirsiz)

namespace State

/-- The name in entry `i` of a directory with these bytes. -/
def entryName (bytes : Nat → UInt8) (i : Nat) : Name :=
  fieldText ((List.range dirsiz).map fun j => bytes (direntSize * i + (2 + j)))

/-- The inode number in the first entry of directory `d` that is in use and has the name. -/
def child (s : State) (d : Nat) (name : Name) : Option Nat :=
  let bytes := s.byteAt (.disk d)
  ((List.range ((s.dinode d).size / direntSize)).find? fun i => entryInum bytes i ≠ 0 ∧
    entryName bytes i = name).map
    (entryInum bytes)

/-- The inode number that a walk along the names leads to. -/
def walk (s : State) : Nat → List Name → Option Nat
  | d, [] => some d
  | d, name :: rest =>
    if (s.dinode d).type = tDir then
      match s.child d name with
      | none => none
      | some next => s.walk next rest
    else none

/-- A name on the way is missing, or is looked for in an inode that is no directory. -/
def Blocked (s : State) (d : Nat) (names : List Name) : Prop :=
  ∃ before name after e, names = before ++ name :: after ∧ s.walk d before = some e ∧
    ((s.dinode e).type ≠ tDir ∨ s.child e name = none)

theorem walk_eq_none_iff (s : State) (d : Nat) (names : List Name) :
    s.walk d names = none ↔ s.Blocked d names := by
  induction names generalizing d with
  | nil =>
    refine iff_of_false nofun ?_
    rintro ⟨before, name, after, e, split, -⟩
    exact List.cons_ne_nil _ _ (List.append_eq_nil_iff.mp split.symm).2
  | cons name rest ih =>
    have first (stuck : (s.dinode d).type ≠ tDir ∨ s.child d name = none) :
        s.Blocked d (name :: rest) :=
      ⟨[], name, rest, d, rfl, rfl, stuck⟩
    rw [walk]
    split
    · next dir =>
      split
      · next absent => exact iff_of_true rfl (first (.inr absent))
      · next next found =>
        rw [ih]
        constructor
        · rintro ⟨before, last, after, e, rfl, walked, stuck⟩
          refine ⟨name :: before, last, after, e, rfl, ?_, stuck⟩
          rw [walk, if_pos dir, found]
          exact walked
        · rintro ⟨before, last, after, e, split, walked, stuck⟩
          cases before with
          | nil =>
            cases split
            cases walked
            exact absurd stuck (by simp [dir, found])
          | cons head before =>
            cases split
            rw [walk, if_pos dir, found] at walked
            exact ⟨before, last, after, e, rfl, walked, stuck⟩
    · next file => exact iff_of_true rfl (first (.inl file))

/-- The directory that has the last of the names. -/
def parentOf (s : State) (d : Nat) (names : List Name) : Option Nat :=
  if names = [] then none else (s.walk d names.dropLast).filter fun i => (s.dinode i).type = tDir

/-- What `namex` looks for. -/
def sought (s : State) (parent : Bool) (d : Nat) (names : List Name) : Option Nat :=
  if parent then s.parentOf d names else s.walk d names

theorem sought_nil (s : State) (parent : Bool) (d : Nat) :
    s.sought parent d [] = if parent then none else some d := rfl

theorem sought_cons (s : State) (parent : Bool) (d : Nat) (name : Name) (rest : List Name) :
    s.sought parent d (name :: rest) =
      if (s.dinode d).type = tDir then
        if parent = true ∧ rest = [] then some d
        else match s.child d name with
          | none => none
          | some next => s.sought parent next rest
      else none := by
  cases parent with
  | false => simp only [sought, walk, Bool.false_eq_true, if_false, false_and]
  | true =>
    simp only [sought, if_true, true_and]
    rw [parentOf, if_neg (List.cons_ne_nil _ _)]
    cases rest with
    | nil =>
      rw [List.dropLast_singleton, walk, Option.filter_some, if_pos rfl]
      simp only [decide_eq_true_eq]
    | cons next rest =>
      rw [List.dropLast_cons_cons, walk, if_neg (List.cons_ne_nil _ _)]
      split
      · split
        · rfl
        · rw [parentOf, if_neg (List.cons_ne_nil _ _)]
      · rfl

end State

theorem fieldText_take_succ (n : Nat) (p : List UInt8) :
    fieldText (p.take (n + 1)) = if p.headD 0 = 0 then []
      else p.headD 0 :: fieldText (p.tail.take n) := by
  cases p with
  | nil => rfl
  | cons a p =>
    by_cases zero : a = 0
    · simp [fieldText, zero]
    · simp [fieldText, zero]

/-- Two fields compare equal when the characters before their NULs are the same. -/
theorem strncmp_eq_zero_iff (n : Nat) (p q : List UInt8) :
    strncmp n p q = 0 ↔ fieldText (p.take n) = fieldText (q.take n) := by
  induction n generalizing p q with
  | zero => simp [strncmp]
  | succ n ih =>
    have value (a b : UInt8) : (a.toNat : Int) - b.toNat = 0 ↔ a = b := by
      rw [sub_eq_zero, Nat.cast_inj, UInt8.toNat_inj]
    rw [strncmp, fieldText_take_succ, fieldText_take_succ]
    split
    · next both =>
      rw [ih, ← both.2, if_neg both.1, if_neg both.1, List.cons.injEq, and_iff_right rfl]
    · next apart =>
      rw [value]
      by_cases zero : p.headD 0 = 0
      · rw [if_pos zero, zero]
        by_cases zero' : q.headD 0 = 0
        · exact iff_of_true zero'.symm (if_pos zero').symm
        · rw [if_neg zero']
          exact iff_of_false (fun same => zero' same.symm) nofun
      · have differ : p.headD 0 ≠ q.headD 0 := fun same => apart ⟨zero, same⟩
        rw [if_neg zero]
        split
        · simp only [differ, reduceCtorEq]
        · simp only [differ, List.cons.injEq, false_and]

theorem fieldText_of_clean {field : List UInt8} (clean : 0 ∉ field) : fieldText field = field := by
  refine List.takeWhile_eq_self_iff.mpr fun c member => decide_eq_true ?_
  rintro rfl
  exact clean member

theorem fieldText_append_nul {field : List UInt8} (clean : 0 ∉ field) (behind : List UInt8) :
    fieldText (field ++ 0 :: behind) = field := by
  have all := fieldText_of_clean clean
  rw [fieldText] at all ⊢
  rw [List.takeWhile_append, all, if_pos rfl, List.takeWhile_cons_of_neg (by decide),
    List.append_nil]

theorem read_add {size : Nat} (b : Bytes size) (off m k : Nat) :
    b.read off (m + k) = b.read off m ++ b.read (off + m) k := by
  rw [Bytes.read, State.range_map_add]
  simp only [← Nat.add_assoc]
  rfl

/-- What lies behind a NUL is not read. -/
theorem text_of_nul {name : NameBuf} {elem : List UInt8} (short : elem.length < dirsiz)
    (start : name.read 0 elem.length = elem) (nul : name.get elem.length = 0) (clean : 0 ∉ elem) :
    name.text = elem := by
  have field (n : Nat) (beyond : elem.length < n) : fieldText (name.read 0 n) = elem := by
    obtain ⟨k, rfl⟩ := Nat.exists_eq_add_of_lt beyond
    rw [Nat.add_assoc, Nat.add_comm k, ← Nat.add_assoc, read_add, read_add, start, Nat.zero_add,
      List.append_assoc, show name.read elem.length 1 = [0] from congrArg (fun c => [c]) nul]
    exact fieldText_append_nul clean _
  exact field dirsiz short

theorem not_slash : (fun c : UInt8 => !decide (c = 47)) = fun c => decide (c ≠ 47) := by
  funext c
  rw [decide_not]

/-- The first element of a path that starts with one, and the elements behind it. -/
theorem components_start {path : Path} {c : UInt8} {rest : Path}
    (start : path.dropWhile (· = 47) = c :: rest) :
    components path = ((c :: rest).takeWhile (· ≠ 47)).take dirsiz ::
      components (((c :: rest).dropWhile (· ≠ 47)).dropWhile (· = 47)) := by
  have next : Fields.next (· = 47) path =
      some ((c :: rest).takeWhile (· ≠ 47), ((c :: rest).dropWhile (· ≠ 47)).tail) := by
    rw [Fields.next, start, not_slash]
  have behind :
      Fields.tokens (fun c : UInt8 => decide (c = 47)) ((c :: rest).dropWhile (· ≠ 47)).tail =
      Fields.tokens (· = 47) (((c :: rest).dropWhile (· ≠ 47)).dropWhile (· = 47)) := by
    rw [Fields.tokens_dropWhile]
    cases after : (c :: rest).dropWhile (· ≠ 47) with
    | nil => rfl
    | cons d tail =>
      -- the element ends at a slash
      have slash : d = 47 := by
        have head := Fields.head_dropWhile after
        simpa using head
      rw [← Fields.tokens_dropWhile _ (d :: tail),
        List.dropWhile_cons_of_pos (by simpa using slash), Fields.tokens_dropWhile, List.tail_cons]
  rw [components, Fields.tokens_next, next, Option.elim_some, List.map_cons, behind]
  rfl

theorem components_eq_nil_iff {path : Path} :
    components path = [] ↔ path.dropWhile (· = 47) = [] := by
  cases start : path.dropWhile (· = 47) with
  | nil =>
    rw [components, Fields.tokens_next, Fields.next, start]
    exact iff_of_true rfl rfl
  | cons c rest =>
    rw [components_start start]
    exact iff_of_false (List.cons_ne_nil _ _) (List.cons_ne_nil _ _)

theorem skipelem_none_iff {path : Path} {name : NameBuf} :
    skipelem path name = none ↔ components path = [] := by
  rw [components_eq_nil_iff]
  unfold skipelem
  dsimp only
  split
  · next empty => exact iff_of_true rfl empty
  · next some => exact iff_of_false nofun some

/-- The buffer after an element of length `elem.length` is copied from `s`. -/
theorem text_copied {name : NameBuf} {s elem : List UInt8} (start : elem <+: s) (clean : 0 ∉ elem) :
    NameBuf.text (if elem.length ≥ dirsiz then name.write 0 (s.take dirsiz)
      else (name.write 0 elem).write elem.length [0]) =
      elem.take dirsiz := by
  split
  · next long =>
    obtain ⟨behind, rfl⟩ := start
    rw [List.take_append_of_le_length long]
    have length : (elem.take dirsiz).length = dirsiz := List.length_take_of_le long
    have copied := Bytes.read_write_same name 0 (elem.take dirsiz) (by rw [length, Nat.zero_add])
    rw [length] at copied
    rw [NameBuf.text, copied]
    exact fieldText_of_clean fun member => clean (List.mem_of_mem_take member)
  · next short =>
    have short : elem.length < dirsiz := Nat.lt_of_not_ge short
    rw [List.take_of_length_le short.le]
    refine text_of_nul short ?_ ?_ clean
    · rw [Bytes.read_write_other _ (.inl (Nat.zero_add _).le)]
      exact Bytes.read_write_same name 0 elem (by omega)
    · have inside : ((name.write 0 elem).write elem.length [0]).get (elem.length + 0) = 0 :=
        Bytes.get_write_inside _ short Nat.one_pos
      exact inside

/-- `skipelem` takes the first element off the path. -/
theorem skipelem_some {path rest : Path} {name name' : NameBuf} (string : 0 ∉ path)
    (found : skipelem path name = some (rest, name')) :
    components path = name'.text :: components rest ∧ rest.length < path.length ∧ 0 ∉ rest ∧
      (rest = [] ↔ components rest = []) := by
  unfold skipelem at found
  dsimp only at found
  cases start : path.dropWhile (· = 47) with
  | nil =>
    rw [start, if_pos rfl] at found
    cases found
  | cons c tail =>
    rw [start, if_neg (List.cons_ne_nil _ _)] at found
    have suffix : (c :: tail) <:+ path := start ▸ List.dropWhile_suffix _
    have clean : (0 : UInt8) ∉ c :: tail := fun member => string (suffix.mem member)
    have head : c ≠ 47 := by simpa using Fields.head_dropWhile start
    have shorter : ((c :: tail).dropWhile (· ≠ 47)).length ≤ tail.length := by
      rw [List.dropWhile_cons_of_pos (by simpa using head)]
      exact (List.dropWhile_suffix _).length_le
    have length : (c :: tail).length - ((c :: tail).dropWhile (· ≠ 47)).length =
        ((c :: tail).takeWhile (· ≠ 47)).length := by
      have whole := congrArg List.length
        (List.takeWhile_append_dropWhile (p := fun c : UInt8 => decide (c ≠ 47)) (l := c :: tail))
      rw [List.length_append] at whole
      omega
    have taken :
        (c :: tail).take ((c :: tail).takeWhile (· ≠ 47)).length = (c :: tail).takeWhile (· ≠ 47) :=
      (List.prefix_iff_eq_take.mp (List.takeWhile_prefix _)).symm
    have text := components_start start
    rw [length, taken] at found
    generalize elem_eq : (c :: tail).takeWhile (· ≠ 47) = elem at *
    cases found
    have back : ((c :: tail).dropWhile (· ≠ 47)).dropWhile (· = 47) <:+ c :: tail :=
      (List.dropWhile_suffix _).trans (List.dropWhile_suffix _)
    have start' : elem <+: c :: tail := elem_eq ▸ List.takeWhile_prefix _
    refine ⟨?_, ?_, fun member => clean (back.mem member), ?_⟩
    · rw [text, text_copied start' fun member => clean (start'.mem member)]
    · have := (List.dropWhile_suffix (fun c : UInt8 => decide (c = 47))
        (l := (c :: tail).dropWhile (· ≠ 47))).length_le
      have := suffix.length_le
      rw [List.length_cons] at this
      omega
    · rw [components_eq_nil_iff, List.dropWhile_idempotent]

end Aso.Xv6.Fs
