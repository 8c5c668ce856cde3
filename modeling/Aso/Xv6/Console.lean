import Aso.Ring
import Aso.Transition

/-! The console input of console.c under any number of readers. A section of
`consoleread` runs from taking `cons.lock` to its release, by return or by `sleep`;
`consoleintr` runs under the lock from its first character to its last. Its
characters are bytes, as those of `kbdgetc` and `uartgetc` are. What is echoed is
left out. -/
namespace Aso.Xv6.Console
open Aso.Ring (slot)

def inputBuf : Nat := 128

/-- `C(x)`, Control-x. -/
def ctrl (x : Char) : UInt8 := UInt8.ofNat (x.toNat - '@'.toNat)

def newline : UInt8 := 10
def carriageReturn : UInt8 := 13
def delete : UInt8 := 0x7f

/-- The global `input`. -/
structure Input where
  buf : Nat → UInt8
  r : BitVec 32
  w : BitVec 32
  e : BitVec 32

/-- The loop for `C('U')`; it takes at most `e - w` rounds. -/
def killLine : Nat → Input → Input
  | 0, i => i
  | rounds + 1, i =>
    if i.e ≠ i.w ∧
      i.buf (slot inputBuf (i.e - 1)) ≠ newline then killLine rounds { i with e := i.e - 1 } else i

/-- One round of the loop of `consoleintr`, and whether it wakes the readers. -/
def Input.key (c : UInt8) (i : Input) : Input × Bool :=
  if c = ctrl 'P' then (i, false)
  else if c = ctrl 'U' then (killLine (i.e - i.w).toNat i, false)
  else if c = ctrl 'H' ∨ c = delete then (if i.e ≠ i.w then { i with e := i.e - 1 } else i, false)
  else if c ≠ 0 ∧ i.e - i.r < BitVec.ofNat 32 inputBuf then
    let c := if c = carriageReturn then newline else c
    let i := { i with buf := Function.update i.buf (slot inputBuf i.e) c, e := i.e + 1 }
    if c = newline ∨ c = ctrl 'D' ∨
      i.e = i.r + BitVec.ofNat 32 inputBuf then ({ i with w := i.e }, true)
    else (i, false)
  else (i, false)

/-- A call of `consoleread`: one that has returned, with the bytes it copied, or one
asleep, with `n` bytes to go. -/
inductive Call where
  | returned (value : Int) (got : List UInt8)
  | reading (target n : Nat) (got : List UInt8) (awake : Bool)
  deriving DecidableEq

/-- What stands behind the calls: how it takes a character, and what a section of a
reader does to it. -/
structure Driver (T : Type) where
  key : UInt8 → T → T × Bool
  read : Bool → Nat → Nat → List UInt8 → T → T × Call

/-- The loop of `consoleintr`. -/
def Driver.intr {T : Type} (d : Driver T) : List UInt8 → T → T × Bool
  | [], t => (t, false)
  | c :: rest, t =>
    let (t, woken) := d.key c t
    let (t, later) := d.intr rest t
    (t, woken || later)

structure State (T : Type) where
  tty : T
  call : Nat → Call
  killed : Nat → Bool

inductive Action where
  | consoleintr (typed : List UInt8)
  | consoleread (p : Nat) (n : Int)
  /-- A process that was woken takes the lock again. -/
  | resume (p : Nat)
  | kill (p : Nat)

def Call.wake : Call → Call
  | .returned value got => .returned value got
  | .reading target n got _ => .reading target n got true

/-- Process `p` runs a section of `consoleread`. -/
def State.after {T : Type} (s : State T) (p : Nat) (done : T × Call) : State T :=
  { s with tty := done.1, call := Function.update s.call p done.2 }

/-- A request for no bytes or for a negative number of them returns at once. -/
def step {T : Type} (d : Driver T) (s : State T) : Action → Option (State T)
  | .consoleintr typed =>
    let (tty, woken) := d.intr typed s.tty
    some { s with tty := tty, call := if woken then fun p => (s.call p).wake else s.call }
  | .consoleread p n =>
    match s.call p with
    | .returned .. => some (s.after p (d.read (s.killed p) n.toNat n.toNat [] s.tty))
    | .reading .. => none
  | .resume p =>
    match s.call p with
    | .reading target n got true => some (s.after p (d.read (s.killed p) target n got s.tty))
    | _ => none
  | .kill p =>
    some { s with
      killed := Function.update s.killed p true
      call := Function.update s.call p (s.call p).wake }

def boot {T : Type} (tty : T) : State T where
  tty := tty
  call _ := .returned 0 []
  killed _ := false

/-- The input together with the bytes copied out to readers so far. -/
structure Tty where
  input : Input
  copied : List UInt8

/-- The loop of `consoleread` with `n` bytes to go. -/
def consoleread (killed : Bool) (target : Nat) : Nat → List UInt8 → Tty → Tty × Call
  | 0, got, t => (t, .returned target got)
  | n + 1, got, t =>
    if t.input.r = t.input.w then
      if killed then (t, .returned (-1) got) else (t, .reading target (n + 1) got false)
    else
      let c := t.input.buf (slot inputBuf t.input.r)
      let t := { t with input := { t.input with r := t.input.r + 1 } }
      if c = ctrl 'D' then
        if n + 1 < target then
          ({ t with input := { t.input with r := t.input.r - 1 } },
            .returned (target - (n + 1 : Nat)) got)
        else (t, .returned (target - (n + 1 : Nat)) got)
      else
        let t := { t with copied := t.copied ++ [c] }
        if c = newline then (t, .returned (target - n) (got ++ [c]))
        else consoleread killed target n (got ++ [c]) t

def console : Driver Tty where
  key c t := (⟨(t.input.key c).1, t.copied⟩, (t.input.key c).2)
  read := consoleread

def tty₀ : Tty := ⟨⟨fun _ => 0, 0, 0, 0⟩, []⟩

/-- What the console is for: a line is edited until it is committed, and readers go
through the committed bytes from the first on. -/
structure Editor where
  committed : List UInt8
  /-- How many of the committed bytes readers are done with. -/
  next : Nat
  line : List UInt8

namespace Editor

def unread (a : Editor) : List UInt8 := a.committed.drop a.next

def key (c : UInt8) (a : Editor) : Editor × Bool :=
  if c = ctrl 'P' then (a, false)
  else if c = ctrl 'U' then ({ a with line := [] }, false)
  else if c = ctrl 'H' ∨ c = delete then ({ a with line := a.line.dropLast }, false)
  else if c ≠ 0 ∧ a.unread.length + a.line.length < inputBuf then
    let c := if c = carriageReturn then newline else c
    let line := a.line ++ [c]
    if c = newline ∨ c = ctrl 'D' ∨ a.unread.length + line.length = inputBuf then
      ({ a with committed := a.committed ++ line, line := [] }, true)
    else ({ a with line := line }, false)
  else (a, false)

/-- A reader stops at a newline, which it takes, and at an end-of-file mark, which it
leaves to the next call if it has taken a byte itself. -/
def read (killed : Bool) (target : Nat) : Nat → List UInt8 → Editor → Editor × Call
  | 0, got, a => (a, .returned target got)
  | n + 1, got, a =>
    match a.committed[a.next]? with
    | none => if killed then (a, .returned (-1) got) else (a, .reading target (n + 1) got false)
    | some c =>
      if c = ctrl 'D' then
        (if n + 1 < target then a else { a with next := a.next + 1 },
          .returned (target - (n + 1 : Nat)) got)
      else if c = newline then ({ a with next := a.next + 1 }, .returned (target - n) (got ++ [c]))
      else read killed target n (got ++ [c]) { a with next := a.next + 1 }

def driver : Driver Editor := ⟨key, read⟩

end Editor

/-! The indices. -/

/-- The bytes between the read index and the edit index. -/
def Input.ring (i : Input) : Ring UInt8 inputBuf 32 := ⟨i.buf, i.r, i.e⟩

/-- The bytes between the read index and the write index. -/
def Input.readable (i : Input) : Ring UInt8 inputBuf 32 := ⟨i.buf, i.r, i.w⟩

/-- The bytes between the write index and the edit index. -/
def Input.editable (i : Input) : Ring UInt8 inputBuf 32 := ⟨i.buf, i.w, i.e⟩

/-- The ring holds the unread committed bytes and then the line. -/
structure Represents (i : Input) (a : Editor) : Prop where
  contents : i.ring.contents = a.unread ++ a.line
  unread : i.readable.count = a.unread.length
  fits : a.unread.length + a.line.length ≤ inputBuf
  plain : newline ∉ a.line
  next : a.next ≤ a.committed.length

namespace Represents
variable {i : Input} {a : Editor} (rep : Represents i a)
include rep

theorem count : i.ring.count = a.unread.length + a.line.length := by
  rw [← Ring.length_contents, rep.contents, List.length_append]

theorem editable_count : i.editable.count = a.line.length := by
  have whole : (i.e - i.r).toNat = a.unread.length + a.line.length := rep.count
  have part : (i.w - i.r).toNat = a.unread.length := rep.unread
  have split : i.e - i.w = (i.e - i.r) - (i.w - i.r) := by bv_omega
  change (i.e - i.w).toNat = _
  rw [split, BitVec.toNat_sub_of_le (BitVec.le_def.mpr (by omega))]
  omega

theorem e_eq_w : i.e = i.w ↔ a.line = [] := by
  have empty := i.editable.isEmpty_iff
  rw [rep.editable_count, List.length_eq_zero_iff] at empty
  rw [← empty, Ring.isEmpty, beq_iff_eq]
  exact eq_comm

theorem r_eq_w : i.r = i.w ↔ a.unread = [] := by
  have empty := i.readable.isEmpty_iff
  rw [rep.unread, List.length_eq_zero_iff] at empty
  rw [← empty, Ring.isEmpty, beq_iff_eq]
  rfl

/-- `input.e--` takes the last byte off the line. -/
theorem retract (some : a.line ≠ []) :
    Represents { i with e := i.e - 1 } { a with line := a.line.dropLast } := by
  have positive : 0 < i.ring.count := by
    have := List.length_pos_iff.mpr some
    rw [rep.count]
    omega
  have back := Ring.contents_retract positive
  rw [rep.contents] at back
  have shorter : i.ring.retract.contents = a.unread ++ a.line.dropLast := by
    rw [← List.dropLast_append_of_ne_nil some, back, List.dropLast_concat]
  have fits := rep.fits
  refine ⟨shorter, rep.unread, ?_,
    fun member => rep.plain (List.mem_of_mem_dropLast member), rep.next⟩
  change a.unread.length + a.line.dropLast.length ≤ inputBuf
  rw [List.length_dropLast]
  omega

theorem back_ne_newline (some : a.line ≠ []) : i.buf (slot inputBuf (i.e - 1)) ≠ newline := by
  have positive : 0 < i.ring.count := by
    have := List.length_pos_iff.mpr some
    rw [rep.count]
    omega
  have back := Ring.contents_retract positive
  rw [rep.contents] at back
  have last : i.ring.back = a.line.getLast some := by
    rw [← List.getLast_append_of_ne_nil (l := a.unread) (by simp [some]) some]
    simp only [back, List.getLast_concat]
  intro same
  have newline_last : a.line.getLast some = newline := last.symm.trans same
  exact rep.plain (newline_last ▸ List.getLast_mem some)

theorem killLine {rounds : Nat} (enough : rounds = a.line.length) :
    Represents (killLine rounds i) { a with line := [] } := by
  induction rounds generalizing i a with
  | zero =>
    have empty := List.length_eq_zero_iff.mp enough.symm
    rw [← empty]
    exact rep
  | succ rounds ih =>
    have some : a.line ≠ [] := List.ne_nil_of_length_eq_add_one enough.symm
    rw [Console.killLine, if_pos ⟨mt rep.e_eq_w.mp some, rep.back_ne_newline some⟩]
    refine ih (a := { a with line := a.line.dropLast }) (rep.retract some) ?_
    change rounds = a.line.dropLast.length
    rw [List.length_dropLast, ← enough]
    rfl

theorem push {c : UInt8} (room : a.unread.length + a.line.length < inputBuf) (plain : c ≠ newline) :
    Represents { i with buf := Function.update i.buf (slot inputBuf i.e) c, e := i.e + 1 }
      { a with line := a.line ++ [c] } := by
  have room' : i.ring.count < inputBuf := by rwa [rep.count]
  have grown := Ring.contents_push (by decide) (by decide) room' c
  rw [rep.contents, List.append_assoc] at grown
  refine ⟨grown, rep.unread, ?_, ?_, rep.next⟩
  · change a.unread.length + (a.line ++ [c]).length ≤ inputBuf
    rw [List.length_append, List.length_singleton]
    exact room
  · change newline ∉ a.line ++ [c]
    simp [rep.plain, plain.symm]

/-- `input.w = input.e` after the byte that ends the line. -/
theorem commit {c : UInt8} (room : a.unread.length + a.line.length < inputBuf) :
    Represents
      { i with buf := Function.update i.buf (slot inputBuf i.e) c, e := i.e + 1, w := i.e + 1 }
      { a with committed := a.committed ++ (a.line ++ [c]), line := [] } := by
  have room' : i.ring.count < inputBuf := by rwa [rep.count]
  have grown := Ring.contents_push (by decide) (by decide) room' c
  have counted := Ring.count_push (by decide) room' c
  have unread : (a.committed ++ (a.line ++ [c])).drop a.next = a.unread ++ (a.line ++ [c]) :=
    List.drop_append_of_le_length rep.next
  have length : (a.unread ++ (a.line ++ [c])).length = a.unread.length + a.line.length + 1 := by
    simp [Nat.add_assoc]
  rw [rep.contents, List.append_assoc] at grown
  refine ⟨?_, ?_, ?_, List.not_mem_nil, ?_⟩
  · rw [List.append_nil]
    exact grown.trans unread.symm
  · refine (counted.trans ?_).trans (congrArg List.length unread.symm)
    rw [length, rep.count]
  · change ((a.committed ++ (a.line ++ [c])).drop a.next).length + 0 ≤ inputBuf
    rw [unread, length]
    exact room
  · change a.next ≤ (a.committed ++ (a.line ++ [c])).length
    rw [List.length_append]
    exact Nat.le_add_right_of_le rep.next

theorem key (c : UInt8) : Represents (i.key c).1 (a.key c).1 ∧ (i.key c).2 = (a.key c).2 := by
  have room :
      i.e - i.r < BitVec.ofNat 32 inputBuf ↔ a.unread.length + a.line.length < inputBuf := by
    rw [BitVec.lt_def, ← rep.count]
    rfl
  simp only [Input.key, Editor.key, room]
  by_cases list : c = ctrl 'P'
  · rw [if_pos list, if_pos list]
    exact ⟨rep, rfl⟩
  rw [if_neg list, if_neg list]
  by_cases kill : c = ctrl 'U'
  · rw [if_pos kill, if_pos kill]
    exact ⟨rep.killLine rep.editable_count, rfl⟩
  rw [if_neg kill, if_neg kill]
  by_cases erase : c = ctrl 'H' ∨ c = delete
  · rw [if_pos erase, if_pos erase]
    by_cases none : a.line = []
    · rw [if_neg (not_not.mpr (rep.e_eq_w.mpr none)), none, List.dropLast_nil, ← none]
      exact ⟨rep, rfl⟩
    · rw [if_pos (mt rep.e_eq_w.mp none)]
      exact ⟨rep.retract none, rfl⟩
  rw [if_neg erase, if_neg erase]
  by_cases typed : c ≠ 0 ∧ a.unread.length + a.line.length < inputBuf
  · rw [if_pos typed, if_pos typed]
    generalize (if c = carriageReturn then newline else c) = c
    have full : i.e + 1 = i.r + BitVec.ofNat 32 inputBuf ↔
        a.unread.length + (a.line ++ [c]).length = inputBuf := by
      have room' : i.ring.count < inputBuf := by rw [rep.count]; exact typed.2
      have iff := Ring.isFull_iff (by decide) (i.ring.push c)
      rw [Ring.count_push (by decide) room', Ring.isFull, beq_iff_eq, rep.count] at iff
      rw [List.length_append, List.length_singleton, ← Nat.add_assoc]
      exact iff
    simp only [full]
    by_cases ends : c = newline ∨ c = ctrl 'D' ∨ a.unread.length + (a.line ++ [c]).length = inputBuf
    · rw [if_pos ends, if_pos ends]
      exact ⟨rep.commit typed.2, rfl⟩
    · rw [if_neg ends, if_neg ends]
      exact ⟨rep.push typed.2 fun same => ends (.inl same), rfl⟩
  · rw [if_neg typed, if_neg typed]
    exact ⟨rep, rfl⟩

theorem getElem?_of_empty (empty : i.r = i.w) : a.committed[a.next]? = none := by
  rw [← List.head?_drop, List.head?_eq_none_iff]
  exact rep.r_eq_w.mp empty

/-- The byte at the read index is the next of the committed ones. -/
theorem take (present : i.r ≠ i.w) : a.committed[a.next]? = some (i.buf (slot inputBuf i.r)) ∧
    Represents { i with r := i.r + 1 } { a with next := a.next + 1 } := by
  obtain ⟨c, rest, unread⟩ := List.exists_cons_of_ne_nil (mt rep.r_eq_w.mpr present)
  have readable : 0 < i.readable.count := by
    rw [rep.unread, unread]
    exact Nat.succ_pos _
  have whole : 0 < i.ring.count := by
    rw [rep.count, unread, List.length_cons]
    omega
  have first := Ring.contents_pop whole
  rw [rep.contents, unread, List.cons_append, List.cons.injEq] at first
  have next : a.committed[a.next]? = some c := by
    rw [← List.head?_drop]
    exact congrArg List.head? unread
  have later : a.committed.drop (a.next + 1) = rest := by
    rw [← List.tail_drop]
    exact congrArg List.tail unread
  refine ⟨next.trans (congrArg some first.1), ?_, ?_, ?_, rep.plain, ?_⟩
  · exact (first.2.symm).trans (congrArg (· ++ a.line) later.symm)
  · have counted := Ring.count_pop readable
    rw [rep.unread, unread, List.length_cons] at counted
    exact (Nat.succ_injective counted).trans (congrArg List.length later.symm)
  · have fits := rep.fits
    rw [unread, List.length_cons] at fits
    change (a.committed.drop (a.next + 1)).length + a.line.length ≤ inputBuf
    rw [later]
    omega
  · exact (List.getElem?_eq_some_iff.mp next).1

end Represents

/-- The input stands for the editor, and readers were given the bytes the editor is done
with, end-of-file marks left out. -/
structure Tty.Follows (t : Tty) (a : Editor) : Prop where
  input : Represents t.input a
  copied : t.copied = (a.committed.take a.next).filter (· ≠ ctrl 'D')

namespace Tty.Follows
variable {t : Tty} {a : Editor}

theorem key (follows : t.Follows a) (c : UInt8) :
    (console.key c t).1.Follows (a.key c).1 ∧ (console.key c t).2 = (a.key c).2 := by
  obtain ⟨input, woken⟩ := follows.input.key c
  refine ⟨⟨input, ?_⟩, woken⟩
  -- what is committed now comes after what readers are done with
  have kept : (a.key c).1.committed.take (a.key c).1.next = a.committed.take a.next := by
    simp only [Editor.key]
    split_ifs <;> first | rfl | exact List.take_append_of_le_length follows.input.next
  rw [kept]
  exact follows.copied

theorem take (follows : t.Follows a) (present : t.input.r ≠ t.input.w) {c : UInt8}
    {more : List UInt8} (read : t.input.buf (slot inputBuf t.input.r) = c)
    (given : [c].filter (· ≠ ctrl 'D') = more) :
    Tty.Follows ⟨{ t.input with r := t.input.r + 1 }, t.copied ++ more⟩
      { a with next := a.next + 1 } := by
  obtain ⟨next, rep⟩ := follows.input.take present
  refine ⟨rep, ?_⟩
  change t.copied ++ more = (a.committed.take (a.next + 1)).filter (· ≠ ctrl 'D')
  rw [List.take_add_one, next, read, List.filter_append, ← follows.copied,
    Option.toList_some, given]

theorem read (follows : t.Follows a) (killed : Bool) (target n : Nat) (got : List UInt8) :
    (consoleread killed target n got t).1.Follows (a.read killed target n got).1 ∧
      (consoleread killed target n got t).2 = (a.read killed target n got).2 := by
  induction n generalizing t a got with
  | zero => exact ⟨follows, rfl⟩
  | succ n ih =>
    rw [consoleread, Editor.read]
    by_cases empty : t.input.r = t.input.w
    · rw [if_pos empty, follows.input.getElem?_of_empty empty]
      cases killed <;> exact ⟨follows, rfl⟩
    · rw [if_neg empty, (follows.input.take empty).1]
      generalize read : t.input.buf (slot inputBuf t.input.r) = c
      dsimp only
      by_cases mark : c = ctrl 'D'
      · have nothing : [c].filter (· ≠ ctrl 'D') = [] := by simp [mark]
        have after := follows.take empty read nothing
        rw [if_pos mark, if_pos mark]
        split_ifs
        · rw [add_sub_cancel_right]
          exact ⟨follows, rfl⟩
        · rw [List.append_nil] at after
          exact ⟨after, rfl⟩
      · have itself : [c].filter (· ≠ ctrl 'D') = [c] := by simp [mark]
        have after := follows.take empty read itself
        rw [if_neg mark, if_neg mark]
        split_ifs
        · exact ⟨after, rfl⟩
        · exact ih after _

end Tty.Follows

/-! Two drivers that behave alike behave alike under every schedule. -/

section Simulation
variable {T T' : Type} {d : Driver T} {d' : Driver T'} {R : T → T' → Prop}

structure State.Alike (R : T → T' → Prop) (s : State T) (s' : State T') : Prop where
  tty : R s.tty s'.tty
  call : s.call = s'.call
  killed : s.killed = s'.killed

theorem Driver.intr_alike
    (key : ∀ t t' c, R t t' → R (d.key c t).1 (d'.key c t').1 ∧ (d.key c t).2 = (d'.key c t').2)
    (typed : List UInt8) {t : T} {t' : T'} (related : R t t') :
    R (d.intr typed t).1 (d'.intr typed t').1 ∧ (d.intr typed t).2 = (d'.intr typed t').2 := by
  induction typed generalizing t t' with
  | nil => exact ⟨related, rfl⟩
  | cons c rest ih =>
    obtain ⟨next, woken⟩ := key t t' c related
    obtain ⟨last, later⟩ := ih next
    refine ⟨last, ?_⟩
    change ((d.key c t).2 || (d.intr rest _).2) = ((d'.key c t').2 || (d'.intr rest _).2)
    rw [woken, later]

variable (key : ∀ t t' c, R t t' →
  R (d.key c t).1 (d'.key c t').1 ∧ (d.key c t).2 = (d'.key c t').2)
  (read : ∀ t t' killed target n got, R t t' →
    R (d.read killed target n got t).1 (d'.read killed target n got t').1 ∧
      (d.read killed target n got t).2 = (d'.read killed target n got t').2)
include key read

theorem step_alike {s t : State T} {s' : State T'} {a : Action} (alike : s.Alike R s')
    (taken : step d s a = some t) : ∃ t', step d' s' a = some t' ∧ t.Alike R t' := by
  have section_alike (p killed target n got) :
      (s.after p (d.read killed target n got s.tty)).Alike R
      (s'.after p (d'.read killed target n got s'.tty)) := by
    obtain ⟨tty, result⟩ := read _ _ killed target n got alike.tty
    refine ⟨tty, ?_, alike.killed⟩
    rw [State.after, State.after, alike.call, result]
  cases a with
  | consoleintr typed =>
    cases taken
    obtain ⟨tty, woken⟩ := Driver.intr_alike key typed alike.tty
    refine ⟨_, rfl, tty, ?_, alike.killed⟩
    rw [woken, alike.call]
  | consoleread p n =>
    simp only [step] at taken ⊢
    rw [alike.call, alike.killed] at taken
    split at taken
    · cases taken
      exact ⟨_, rfl, section_alike ..⟩
    · cases taken
  | resume p =>
    simp only [step] at taken ⊢
    rw [alike.call, alike.killed] at taken
    split at taken
    · cases taken
      exact ⟨_, rfl, section_alike ..⟩
    · cases taken
  | kill p =>
    cases taken
    refine ⟨_, rfl, alike.tty, ?_, ?_⟩
    · rw [alike.call]
    · rw [alike.killed]

theorem run_alike {s t : State T} {s' : State T'} {schedule : List Action} (alike : s.Alike R s')
    (reached : Transition.run (step d) s schedule = some t) :
    ∃ t', Transition.run (step d') s' schedule = some t' ∧ t.Alike R t' := by
  induction schedule generalizing s s' with
  | nil =>
    cases Option.some.inj reached
    exact ⟨s', rfl, alike⟩
  | cons a rest ih =>
    obtain ⟨m, taken, reached⟩ := Transition.run_cons.mp reached
    obtain ⟨m', taken', alike'⟩ := step_alike key read alike taken
    obtain ⟨t', reached', last⟩ := ih alike' reached
    exact ⟨t', Transition.run_cons.mpr ⟨m', taken', reached'⟩, last⟩

end Simulation

/-- The committed bytes that readers have not taken, from the read index on. -/
def Input.unread (i : Input) : List UInt8 := i.readable.contents

/-- The line being edited, from the write index on. -/
def Input.line (i : Input) : List UInt8 := i.editable.contents

theorem Represents.unread_eq {i : Input} {a : Editor} (rep : Represents i a) :
    i.unread = a.unread := by
  have taken_eq : i.unread = i.ring.contents.take i.readable.count := by
    have le : i.readable.count ≤ i.ring.count := by
      rw [rep.unread, rep.count]
      exact Nat.le_add_right _ _
    change (List.range i.readable.count).map _ =
      ((List.range i.ring.count).map _).take i.readable.count
    rw [← List.map_take, List.take_range, min_eq_left le]
    rfl
  rw [taken_eq, rep.contents, rep.unread, List.take_left]

theorem Represents.line_eq {i : Input} {a : Editor} (rep : Represents i a) : i.line = a.line := by
  have rest_eq : i.line = i.ring.contents.drop i.readable.count := by
    have cells (k : Nat) :
        i.r + BitVec.ofNat 32 (i.readable.count + k) = i.w + BitVec.ofNat 32 k := by
      rw [BitVec.ofNat_add, ← BitVec.add_assoc]
      exact congrArg (· + BitVec.ofNat 32 k) i.readable.nwrite_eq.symm
    have split : i.ring.count = i.readable.count + i.editable.count := by
      rw [rep.count, rep.unread, rep.editable_count]
    change (List.range i.editable.count).map _ =
      ((List.range i.ring.count).map _).drop i.readable.count
    rw [← List.map_drop, split, List.range_add, List.drop_left' List.length_range, List.map_map]
    refine List.map_congr_left fun k _ => ?_
    change i.buf (slot inputBuf (i.w + _)) = i.buf (slot inputBuf (i.r + _))
    rw [cells]
  rw [rest_eq, rep.contents, rep.unread, List.drop_left]

/-- The keys that take bytes back. -/
def editing : List UInt8 := [ctrl 'U', ctrl 'H', delete]

theorem killLine_fields (rounds : Nat) (i : Input) :
    (killLine rounds i).buf = i.buf ∧ (killLine rounds i).r = i.r ∧
    (killLine rounds i).w = i.w := by
  induction rounds generalizing i with
  | zero => exact ⟨rfl, rfl, rfl⟩
  | succ rounds ih =>
    rw [killLine]
    split
    · exact ih _
    · exact ⟨rfl, rfl, rfl⟩

/-- An editing key moves nothing but the edit index. -/
theorem key_of_editing {c : UInt8} (edits : c ∈ editing) (i : Input) :
    (i.key c).1.buf = i.buf ∧ (i.key c).1.r = i.r ∧ (i.key c).1.w = i.w := by
  have cases : c = ctrl 'U' ∨ c = ctrl 'H' ∨ c = delete := by simpa [editing] using edits
  have list : c ≠ ctrl 'P' := by
    rcases cases with rfl | rfl | rfl <;> decide
  rw [Input.key, if_neg list]
  split
  · exact killLine_fields ..
  · rw [if_pos (cases.resolve_left ‹_›)]
    split <;> exact ⟨rfl, rfl, rfl⟩

theorem Editor.line_key_of_editing {c : UInt8} (edits : c ∈ editing) (a : Editor) :
    (a.key c).1.line <+: a.line := by
  have cases : c = ctrl 'U' ∨ c = ctrl 'H' ∨ c = delete := by simpa [editing] using edits
  rw [Editor.key]
  split
  · exact List.prefix_rfl
  split
  · exact List.nil_prefix
  · rw [if_pos (cases.resolve_left ‹_›)]
    exact List.dropLast_prefix _

/-- Under every schedule of typed characters and readers the indices are in order, the
editing keys leave the committed bytes alone, every call ends as over the editor, and the
bytes copied out are the committed ones up to the read index, end-of-file marks left out. -/
theorem console_follows_editor {schedule : List Action} {s : State Tty}
    (reached : Transition.run (step console) (boot tty₀) schedule = some s) :
    ∃ a : State Editor, Transition.run (step Editor.driver) (boot ⟨[], 0, []⟩) schedule = some a ∧
      s.call = a.call ∧
      (s.tty.input.w - s.tty.input.r).toNat ≤ (s.tty.input.e - s.tty.input.r).toNat ∧
      (s.tty.input.e - s.tty.input.r).toNat ≤ inputBuf ∧
      s.tty.copied = (a.tty.committed.take a.tty.next).filter (· ≠ ctrl 'D') ∧
      s.tty.input.unread = a.tty.committed.drop a.tty.next ∧ s.tty.input.line = a.tty.line ∧
      ∀ c ∈ editing, (s.tty.input.key c).1.r = s.tty.input.r ∧
      (s.tty.input.key c).1.w = s.tty.input.w ∧
        (s.tty.input.key c).1.unread = s.tty.input.unread ∧
        (s.tty.input.key c).1.line <+: s.tty.input.line := by
  have start : Represents tty₀.input ⟨[], 0, []⟩ :=
    ⟨rfl, rfl, Nat.zero_le _, List.not_mem_nil, le_rfl⟩
  have followed : ∃ a, Transition.run (step Editor.driver) (boot ⟨[], 0, []⟩) schedule = some a ∧
      s.Alike Tty.Follows a :=
    run_alike (fun t a c follows => follows.key c)
      (fun t a killed target n got follows => follows.read killed target n got)
      ⟨⟨start, rfl⟩, rfl, rfl⟩ reached
  obtain ⟨a, reached', alike⟩ := followed
  have rep := alike.tty.input
  have whole : (s.tty.input.e - s.tty.input.r).toNat = _ := rep.count
  have part : (s.tty.input.w - s.tty.input.r).toNat = _ := rep.unread
  refine ⟨a, reached', alike.call, ?_, ?_, alike.tty.copied, rep.unread_eq, rep.line_eq,
    fun c edits => ?_⟩
  · rw [whole, part]
    exact Nat.le_add_right _ _
  · rw [whole]
    exact rep.fits
  · obtain ⟨buf, r, w⟩ := key_of_editing edits s.tty.input
    refine ⟨r, w, ?_, ?_⟩
    · rw [Input.unread, Input.unread, Input.readable, Input.readable, buf, r, w]
    · rw [(rep.key c).1.line_eq, rep.line_eq]
      exact Editor.line_key_of_editing edits a.tty

/-- A line with a typing error, then an end-of-file mark: the first reader gets the
corrected line, and the second nothing. -/
theorem reader_gets_corrected_line :
    ∃ s, ∃ a : State Editor, Transition.run (step console) (boot tty₀)
        [.consoleread 1 9, .consoleintr [97, ctrl 'H', 98, newline, ctrl 'D'], .resume 1,
          .consoleread 2 9] = some s ∧
      s.call 1 = .returned 2 [98, newline] ∧ s.call 2 = .returned 0 [] ∧ s.call = a.call ∧
      s.tty.copied = (a.tty.committed.take a.tty.next).filter (· ≠ ctrl 'D') := by
  have runs : (Transition.run (step console) (boot tty₀)
      [.consoleread 1 9, .consoleintr [97, ctrl 'H', 98, newline, ctrl 'D'], .resume 1,
      .consoleread 2 9]).map
        (fun s => (s.call 1, s.call 2)) = some (.returned 2 [98, newline], .returned 0 []) := by
          decide
  obtain ⟨s, reached, seen⟩ := Option.map_eq_some_iff.mp runs
  obtain ⟨first, second⟩ := Prod.mk.inj seen
  obtain ⟨a, -, call, -, -, copied, -⟩ := console_follows_editor reached
  exact ⟨s, a, reached, first, second, call, copied⟩

end Aso.Xv6.Console
