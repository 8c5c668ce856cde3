import Mathlib.Data.List.Basic

/-! grep.c. What is printed is compared over all the ways in which `read` may cut the
input into pieces. A string is the list of its bytes before the terminating NUL. -/
namespace Aso.Xv6.Grep

section Matching

def dot : UInt8 := 46

/-- `matchstar`, the rest of the expression being matched by `here`. -/
def matchstar (here : List UInt8 → Bool) (c : UInt8) : List UInt8 → Bool
  | [] => here []
  | t :: text => here (t :: text) || (t == c || c == dot) && matchstar here c text

/-- `matchhere`; `*` is 42 and `$` is 36. -/
def matchhere : List UInt8 → List UInt8 → Bool
  | [], _ => true
  | c :: 42 :: re, text => matchstar (matchhere re) c text
  | [36], text => text.isEmpty
  | c :: re, t :: text => (c == dot || c == t) && matchhere re text
  | _ :: _, [] => false

/-- The loop of `match`, which also looks at the empty end of the text. -/
def matchFrom (re : List UInt8) : List UInt8 → Bool
  | [] => matchhere re []
  | t :: text => matchhere re (t :: text) || matchFrom re text

/-- `match`; `^` is 94. -/
def matchText : List UInt8 → List UInt8 → Bool
  | 94 :: re, text => matchhere re text
  | re, text => matchFrom re text

end Matching

def newline : UInt8 := 10

/-- `strchr`: the bytes before the character and those after it. -/
def strchr (c : UInt8) : List UInt8 → Option (List UInt8 × List UInt8)
  | [] => none
  | b :: text =>
    if b = 0 then none
    else if b = c then some ([], text)
    else (strchr c text).map fun (line, rest) => (b :: line, rest)

theorem strchr_some {c : UInt8} {text line rest : List UInt8}
    (found : strchr c text = some (line, rest)) :
    text = line ++ c :: rest ∧ 0 ∉ line ∧ c ∉ line := by
  induction text generalizing line with
  | nil => cases found
  | cons b text ih =>
    rw [strchr] at found
    split at found
    · cases found
    · next nonzero =>
      split at found
      · next here =>
        cases found
        exact ⟨by rw [here, List.nil_append], List.not_mem_nil, List.not_mem_nil⟩
      · next other =>
        obtain ⟨⟨line', rest'⟩, later, same⟩ := Option.map_eq_some_iff.mp found
        cases same
        obtain ⟨rfl, noZero, first⟩ := ih later
        exact ⟨rfl, List.not_mem_cons_of_ne_of_not_mem (Ne.symm nonzero) noZero,
          List.not_mem_cons_of_ne_of_not_mem (Ne.symm other) first⟩

theorem strchr_shorter {c : UInt8} {text line rest : List UInt8}
    (found : strchr c text = some (line, rest)) : rest.length < text.length := by
  rw [(strchr_some found).1, List.length_append, List.length_cons]
  omega

theorem strchr_append {c : UInt8} {line rest : List UInt8} (nonzero : c ≠ 0) (noZero : 0 ∉ line)
    (first : c ∉ line) : strchr c (line ++ c :: rest) = some (line, rest) := by
  induction line with
  | nil => rw [List.nil_append, strchr, if_neg nonzero, if_pos rfl]
  | cons b line ih =>
    rw [List.mem_cons, not_or] at noZero first
    rw [List.cons_append, strchr, if_neg (Ne.symm noZero.1), if_neg (Ne.symm first.1),
      ih noZero.2 first.2]
    rfl

/-- A character that `strchr` does not find stands after a NUL. -/
theorem strchr_none {c : UInt8} {text : List UInt8} (nonzero : c ≠ 0)
    (missed : strchr c text = none) (member : c ∈ text) :
    ∃ a s b, text = a ++ 0 :: (s ++ c :: b) := by
  induction text with
  | nil => cases member
  | cons x text ih =>
    rw [strchr] at missed
    split at missed
    · next zero =>
      have later : c ∈ text :=
        (List.mem_cons.mp member).resolve_left fun here => nonzero (here.trans zero)
      obtain ⟨s, b, split⟩ := List.append_of_mem later
      exact ⟨[], s, b, by rw [zero, split, List.nil_append]⟩
    · split at missed
      · cases missed
      · next other =>
        have later : c ∈ text := (List.mem_cons.mp member).resolve_left (Ne.symm other)
        obtain ⟨a, s, b, split⟩ := ih (Option.map_eq_none_iff.mp missed) later
        exact ⟨x :: a, s, b, by rw [split, List.cons_append]⟩

/-- What is written for a line, which is put together with its newline if it matches. -/
def printed (re line : List UInt8) : List UInt8 :=
  if matchText re line then line ++ [newline] else []

/-- The inner loop of `grep` from `p` on: what is written, and what `p` points at in the end. -/
def printLines (re text : List UInt8) : List UInt8 × List UInt8 :=
  match found : strchr newline text with
  | none => ([], text)
  | some (line, rest) =>
    have := strchr_shorter found
    let (out, left) := printLines re rest
    (printed re line ++ out, left)
  termination_by text.length

def bufsize : Nat := 1024

/-- The loop of `grep` with `held` at the front of the buffer, `m` being its length, and the
pieces `read` is going to return: what is written in all. No answer if these are not pieces
`read` can return. -/
def grepLoop (re : List UInt8) : List UInt8 → List (List UInt8) → Option (List UInt8)
  | _, [] => some []
  | held, piece :: pieces =>
    if piece = [] ∨ bufsize - held.length - 1 < piece.length then none
    else
      let text := held ++ piece
      let (out, left) := printLines re text
      -- `p == buf` when there was no newline
      let held := if left.length = text.length then [] else left
      (grepLoop re held pieces).map (out ++ ·)

def grep (re : List UInt8) (pieces : List (List UInt8)) : Option (List UInt8) :=
  grepLoop re [] pieces

section Pieces
variable {re input text held left out a b s : List UInt8} {pieces : List (List UInt8)}

theorem newline_ne_zero : newline ≠ 0 := by decide

/-- What `grep` writes when each byte comes alone: all lines are taken for empty ones. -/
def alone (re text : List UInt8) : List UInt8 :=
  text.flatMap fun x => if x = newline then printed re [] else []

theorem alone_append : alone re (a ++ b) = alone re a ++ alone re b := List.flatMap_append

theorem alone_newline : alone re (newline :: b) = printed re [] ++ alone re b := rfl

theorem alone_nil (silent : newline ∈ text → printed re [] = []) : alone re text = [] := by
  refine List.flatMap_eq_nil_iff.mpr fun x member => ?_
  split
  · next same => exact silent (same ▸ member)
  · rfl

theorem alone_line (line : newline ∉ s) : alone re s = [] :=
  alone_nil fun member => absurd member line

theorem printLines_none (missed : strchr newline text = none) :
    printLines re text = ([], text) := by
  rw [printLines]
  split
  · rfl
  · next found => cases missed.symm.trans found

theorem printLines_line (noZero : 0 ∉ s) (line : newline ∉ s) :
    printLines re (s ++ newline :: b) =
      (printed re s ++ (printLines re b).1, (printLines re b).2) := by
  have found : strchr newline (s ++ newline :: b) = some (s, b) :=
    strchr_append newline_ne_zero noZero line
  rw [printLines]
  split
  · next missed => cases missed.symm.trans found
  · next same =>
    cases same.symm.trans found
    rfl

theorem grepLoop_step (result : printLines re (held ++ s) = (out, left)) (some : s ≠ [])
    (room : held.length + s.length < bufsize) : grepLoop re held (s :: pieces) =
      (grepLoop re (if left.length = (held ++ s).length then [] else left) pieces).map
      (out ++ ·) := by
  have piece : ¬ (s = [] ∨ bufsize - held.length - 1 < s.length) := by
    rw [not_or]
    exact ⟨some, by omega⟩
  rw [grepLoop, if_neg piece]
  simp only [result]

/-- A piece in which `strchr` finds no newline is lost. -/
theorem grepLoop_silent (missed : strchr newline s = none) (some : s ≠ [])
    (room : s.length < bufsize) : grepLoop re [] (s :: pieces) = grepLoop re [] pieces := by
  rw [grepLoop_step (by exact printLines_none missed) some (by simpa using room),
    List.nil_append, if_pos rfl]
  exact Option.map_id'

theorem grepLoop_line (noZero : 0 ∉ s) (line : newline ∉ s) (room : s.length + 1 < bufsize) :
    grepLoop re []
      ((s ++ [newline]) :: pieces) = (grepLoop re [] pieces).map (printed re s ++ ·) := by
  have result : printLines re ([] ++ (s ++ [newline])) = (printed re s, []) := by
    rw [List.nil_append, printLines_line noZero line, printLines_none rfl, List.append_nil]
  rw [grepLoop_step result (by simp) (by simpa using room), ite_self]

theorem grepLoop_alone : grepLoop re [] (text.map ([·]) ++ pieces) =
    (grepLoop re [] pieces).map (alone re text ++ ·) := by
  induction text with
  | nil => simp [alone]
  | cons x text ih =>
    rw [List.map_cons, List.cons_append]
    by_cases ends : x = newline
    · subst ends
      have first (pieces : List (List UInt8)) :
          grepLoop re [] ([newline] :: pieces) = (grepLoop re [] pieces).map (printed re [] ++ ·) :=
        grepLoop_line (s := []) List.not_mem_nil List.not_mem_nil (by decide)
      rw [first, ih, Option.map_map, alone_newline]
      simp only [Function.comp_def, List.append_assoc]
    · have missed : strchr newline [x] = none := by
        rw [strchr, if_neg ends]
        exact ite_self _
      have skipped : alone re (x :: text) = alone re text := by
        rw [alone, List.flatMap_cons, if_neg ends]
        rfl
      rw [grepLoop_silent missed (List.cons_ne_nil x []) (by simp [bufsize]), ih, skipped]

/-- The input cut into single bytes. -/
theorem grep_alone : grep re (text.map ([·])) = some (alone re text) := by
  rw [grep, ← List.append_nil (text.map _), grepLoop_alone, grepLoop, Option.map_some,
    List.append_nil]

/-- The input cut into single bytes but for one piece in the middle. -/
theorem grep_piece
    (done : ∀ pieces, grepLoop re [] (s :: pieces) = (grepLoop re [] pieces).map (out ++ ·)) :
    grep re (a.map ([·]) ++ s :: b.map ([·])) = some (alone re a ++ out ++ alone re b) := by
  have rest : grepLoop re [] (b.map ([·])) = some (alone re b) := grep_alone
  rw [grep, grepLoop_alone, done, rest, Option.map_some, Option.map_some, List.append_assoc]

/-- Whatever way the input is cut, the output is the same. -/
def CutFree (re input : List UInt8) : Prop :=
  ∀ c₁ c₂ : List (List UInt8), c₁.flatten = input → c₂.flatten = input →
    ∀ o₁ o₂, grep re c₁ = some o₁ → grep re c₂ = some o₂ → o₁ = o₂

/-- No end of a line that fits in the buffer matches, and neither does the empty text if
there is a line that is not empty. -/
structure Indifferent (re input : List UInt8) : Prop where
  empty : ∀ a x b, input = a ++ x :: newline :: b → x ≠ newline → matchText re [] = false
  line : ∀ a s b, input = a ++ s ++ newline :: b → s ≠ [] → 0 ∉ s → newline ∉ s →
    s.length + 1 < bufsize →
    matchText re s = false

theorem flatten_alone : (text.map ([·])).flatten = text := by
  rw [← List.flatMap_def, List.flatMap_singleton']

theorem CutFree.piece (free : CutFree re input) (cut : input = a ++ s ++ b)
    (done : ∀ pieces, grepLoop re [] (s :: pieces) = (grepLoop re [] pieces).map (out ++ ·)) :
    out = alone re s := by
  have same := free _ _ (by simp [flatten_alone, cut]) flatten_alone _ _
    (grep_piece (a := a) (b := b) done) grep_alone
  rw [cut, alone_append, alone_append, List.append_left_inj, List.append_right_inj] at same
  exact same

theorem printed_eq_nil : printed re s = [] ↔ matchText re s = false := by
  unfold printed
  split <;> simp_all

theorem CutFree.line (free : CutFree re input) (cut : input = a ++ s ++ newline :: b)
    (nonempty : s ≠ []) (noZero : 0 ∉ s) (line : newline ∉ s) (room : s.length + 1 < bufsize) :
    matchText re s = false ∧ matchText re [] = false := by
  have same := free.piece (a := a) (b := b)
    (by simpa using cut) fun pieces => grepLoop_line noZero line room
  rw [alone_append, alone_line line, List.nil_append, alone_newline, alone_line List.not_mem_nil,
    List.append_nil] at same
  have := List.length_pos_iff.mpr nonempty
  unfold printed at same
  split at same <;> split at same
  · have lengths := congrArg List.length same
    simp only [List.length_append, List.length_cons, List.length_nil] at lengths
    omega
  · simp at same
  · simp at same
  · simp_all

theorem CutFree.indifferent (free : CutFree re input) : Indifferent re input := by
  refine ⟨fun a x b cut other => ?_, fun a s b cut nonempty noZero line room =>
    (free.line cut nonempty noZero line room).1⟩
  by_cases zero : x = 0
  · subst zero
    have lost (pieces : List (List UInt8)) :
        grepLoop re [] ([0, newline] :: pieces) = (grepLoop re [] pieces).map ([] ++ ·) := by
      rw [grepLoop_silent rfl (List.cons_ne_nil _ _) (by decide)]
      exact Option.map_id'.symm
    have same := free.piece (a := a) (b := b) (by simpa using cut) lost
    rw [← printed_eq_nil]
    exact (same.trans (List.append_nil _)).symm
  · exact (free.line (s := [x]) (by simpa using cut) (List.cons_ne_nil x [])
      (by simpa using Ne.symm zero) (by simpa using Ne.symm other) (by simp [bufsize])).2

/-- Before the first newline of a line that is not empty stands something else. -/
theorem exists_end {x : UInt8} (other : x ≠ newline) (s b : List UInt8) :
    ∃ a y c, x :: (s ++ newline :: b) = a ++ y :: newline :: c ∧ y ≠ newline := by
  induction s generalizing x with
  | nil => exact ⟨[], x, b, rfl, other⟩
  | cons z s ih =>
    by_cases ends : z = newline
    · exact ⟨[], x, s ++ newline :: b, by rw [ends]; rfl, other⟩
    · obtain ⟨a, y, c, split, differs⟩ := ih ends
      exact ⟨x :: a, y, c, by rw [List.cons_append, split]; rfl, differs⟩

theorem Indifferent.silent {x : UInt8} (same : Indifferent re input)
    (cut : input = a ++ x :: (s ++ newline :: b)) (other : x ≠ newline) : printed re [] = [] := by
  obtain ⟨a', y, c, split, differs⟩ := exists_end other s b
  exact printed_eq_nil.mpr
    (same.empty (a ++ a') y c (by rw [cut, split, List.append_assoc]) differs)

/-- Of a text in which `strchr` finds no newline, nothing is missed. -/
theorem Indifferent.quiet (same : Indifferent re input) (cut : input = a ++ text ++ b)
    (missed : strchr newline text = none) : alone re text = [] := by
  refine alone_nil fun member => ?_
  obtain ⟨c, s, d, split⟩ := strchr_none newline_ne_zero missed member
  exact same.silent (a := a ++ c) (s := s) (b := d ++ b) (by simp [cut, split]) newline_ne_zero.symm

theorem Indifferent.printed (same : Indifferent re input) (cut : input = a ++ s ++ newline :: b)
    (noZero : 0 ∉ s) (line : newline ∉ s) (room : s.length + 1 < bufsize) :
    printed re s = printed re [] := by
  cases s with
  | nil => rfl
  | cons x s =>
    have other : x ≠ newline := fun ends => line (ends ▸ List.mem_cons_self)
    rw [same.silent (a := a) (s := s) (b := b) (by simp [cut]) other, printed_eq_nil]
    exact same.line a (x :: s) b cut (List.cons_ne_nil x s) noZero line room

theorem Indifferent.printLines (same : Indifferent re input) (cut : input = a ++ text ++ b)
    (room : text.length < bufsize) (result : printLines re text = (out, left)) :
    ∃ front, text = front ++ left ∧ out = alone re front ∧ strchr newline left = none := by
  fun_induction Grep.printLines re text generalizing a out with
  | case1 text missed =>
    cases result
    exact ⟨[], rfl, rfl, missed⟩
  | case2 text line rest found this out' left' again ih =>
    cases result
    obtain ⟨rfl, noZero, first⟩ := strchr_some found
    rw [List.length_append, List.length_cons] at room
    obtain ⟨front, rfl, rfl, done⟩ :=
      ih (a := a ++ line ++ [newline]) (by simp [cut]) (by omega) again
    refine ⟨line ++ newline :: front, by simp, ?_, done⟩
    rw [alone_append, alone_line first, List.nil_append, alone_newline,
      same.printed (a := a) (b := front ++ left ++ b) (by simp [cut]) noZero first (by omega)]

theorem Indifferent.grepLoop (same : Indifferent re input)
    (cut : input = a ++ held ++ pieces.flatten) (missed : strchr newline held = none)
    (done : grepLoop re held pieces = some out) : out = alone re (held ++ pieces.flatten) := by
  induction pieces generalizing a held out with
  | nil =>
    cases done
    rw [List.flatten_nil, List.append_nil, same.quiet cut missed]
  | cons piece pieces ih =>
    rw [List.flatten_cons, ← List.append_assoc] at cut ⊢
    rw [List.append_assoc a] at cut
    by_cases possible : piece ≠ [] ∧ held.length + piece.length < bufsize
    · obtain ⟨first, left, result⟩ :
          ∃ first left, Grep.printLines re (held ++ piece) = (first, left) := ⟨_, _, rfl⟩
      obtain ⟨front, whole, rfl, later⟩ :=
        same.printLines cut (by simpa using possible.2) result
      rw [grepLoop_step result possible.1 possible.2] at done
      obtain ⟨rest, tail, rfl⟩ := Option.map_eq_some_iff.mp done
      rw [whole] at cut tail ⊢
      split at tail
      · next kept =>
        -- nothing was found, and the text is thrown away
        obtain rfl : front = [] := by
          rw [List.length_append] at kept
          exact List.length_eq_zero_iff.mp (by omega)
        rw [ih (a := a ++ left) (by simpa using cut) rfl tail, List.nil_append, List.nil_append,
          alone_append, same.quiet (a := a) (b := pieces.flatten) (by simpa using cut) later]
        rfl
      · rw [ih (a := a ++ front) (by simpa using cut) later tail, ← alone_append, List.append_assoc]
    · rw [Grep.grepLoop, if_pos] at done
      · cases done
      · by_cases none : piece = []
        · exact .inl none
        · have := List.length_pos_iff.mpr none
          have full : ¬ held.length + piece.length < bufsize := fun small => possible ⟨none, small⟩
          exact .inr (by omega)

/-- The output does not depend on the cuts exactly where all cuts print as little as single
bytes do, because a piece without a newline is thrown away with the start of its line. -/
theorem cutFree_iff : CutFree re input ↔ Indifferent re input := by
  refine ⟨CutFree.indifferent, fun same c₁ c₂ cut₁ cut₂ o₁ o₂ done₁ done₂ => ?_⟩
  have all {c : List (List UInt8)} {o : List UInt8} (cut : c.flatten = input)
      (done : grep re c = some o) :
      o = alone re input := by
    rw [same.grepLoop (a := []) cut.symm rfl done, cut, List.nil_append]
  rw [all cut₁ done₁, all cut₂ done₂]

/-- A line is found in one piece and lost in two. -/
theorem line_lost : grep [97] [[97, 98, newline]] = some [97, 98, newline] ∧
    grep [97] [[97], [98, newline]] = some [] ∧ ¬ CutFree [97] [97, 98, newline] := by
  have whole : grep [97] [[97, 98, newline]] = some [97, 98, newline] :=
    grepLoop_line (s := [97, 98]) (by decide) (by decide) (by decide)
  have cut : grep [97] [[97], [98, newline]] = some [] := by
    rw [grep, grepLoop_silent rfl (by decide) (by decide)]
    exact grepLoop_line (s := [98]) (by decide) (by decide) (by decide)
  refine ⟨whole, cut, fun free => ?_⟩
  cases free _ _ rfl rfl _ _ whole cut

end Pieces
end Aso.Xv6.Grep
