import Mathlib.Algebra.GroupWithZero.Nat
import Mathlib.Data.List.Basic

/-! The reading and writing loops that split_files.c, mystrings.c and
merge_files.c share. A descriptor is the stream of bytes behind it; the system
decides how many bytes each `read` and `write` moves. -/
namespace Aso.Posix

/-- What the system answers. `count time limit` is the value of the call made at
that time which could move `limit` bytes, negative for an error. `stale fd` is what
`num_written`, declared without a value, holds in the call for `fd`, and `junk` what
memory holds when `malloc` returns it. -/
structure Sys where
  count : Nat → Nat → Int
  stale : Nat → Int
  junk : Nat → UInt8

/-- The value of a call that could move `limit` bytes. -/
def Sys.answer (sys : Sys) (time limit : Nat) : Int :=
  if sys.count time limit < 0 then -1 else min (sys.count time limit) limit

/-- `read` returns at least one byte until the end of the
file, `write` moves on, and neither fails. -/
def Sys.Progress (sys : Sys) : Prop :=
  ∀ time limit, 0 ≤ sys.count time limit ∧ (0 < limit → 0 < sys.count time limit)

theorem Sys.answer_le (sys : Sys) (time limit : Nat) : sys.answer time limit ≤ limit := by
  unfold answer
  split <;> omega

theorem Sys.Progress.answer_nonneg {sys : Sys} (progress : sys.Progress) (time limit : Nat) :
    0 ≤ sys.answer time limit := by
  have := (progress time limit).1
  unfold answer
  split <;> omega

theorem Sys.Progress.answer_pos {sys : Sys} (progress : sys.Progress) (time : Nat) {limit : Nat}
    (some : 0 < limit) : 0 < sys.answer time limit := by
  have := (progress time limit).2 some
  unfold answer
  split <;> omega

def stdin : Nat := 0

structure World where
  time : Nat
  input : Nat → List UInt8
  output : Nat → List UInt8

/-- How a program ends, with the state it leaves: by `return`,
by `exit`, or not in the steps it was given. -/
inductive Outcome (S : Type) where
  | returned (state : S)
  | exited (state : S)
  | running (state : S)

namespace Outcome
variable {S : Type}

def state : Outcome S → S
  | returned s | exited s | running s => s

def ended : Outcome S → Bool
  | returned _ | exited _ => true
  | running _ => false

end Outcome

namespace World
variable {sys : Sys} {fd fuel left size : Nat} {last : Int} {got rest : List UInt8}
  {mem : Nat → UInt8} {w u : World}

/-- `read(fd, buf, limit)`: its value and the bytes it put in the buffer. -/
def read (sys : Sys) (fd limit : Nat) (w : World) : Int × List UInt8 × World :=
  let moved := sys.answer w.time (min limit (w.input fd).length)
  (moved, (w.input fd).take moved.toNat,
    { w with
      time := w.time + 1
      input := Function.update w.input fd ((w.input fd).drop moved.toNat) })

/-- The loop of `read_buffers`, with `num_left` bytes to go and `num_written` the last value. -/
def readLoop (sys : Sys) (fd : Nat) :
    Nat → Nat → Int → List UInt8 → World → Int × List UInt8 × World
  | 0, _, last, got, w => (last, got, w)
  | fuel + 1, left, last, got, w =>
    if left = 0 then (last, got, w)
    else
      let (moved, bytes, w) := w.read sys fd left
      if 0 < moved then readLoop sys fd fuel (left - moved.toNat) moved (got ++ bytes) w
      else (moved, got, w)

/-- `read_buffers`: the bytes now in the buffer, whose number it returns. -/
def readBuffers (sys : Sys) (fd size : Nat) (w : World) : Except World (List UInt8 × World) :=
  let (last, got, w) := readLoop sys fd size size (sys.stale fd) [] w
  if last = -1 then .error w else .ok (got, w)

/-- `write(fd, mem + start, limit)`. -/
def write (sys : Sys) (fd : Nat) (mem : Nat → UInt8) (start limit : Nat) (w : World) :
    Int × World :=
  let moved := sys.answer w.time limit
  (moved, { w with
    time := w.time + 1
    output := Function.update w.output fd
      (w.output fd ++ (List.range moved.toNat).map fun j => mem (start + j)) })

/-- The loop of `buffer_to_fdout`, `buf_left` being `start` bytes into the buffer. -/
def writeLoop (sys : Sys) (fd : Nat) (mem : Nat → UInt8) :
    Nat → Nat → Nat → Int → World → Int × World
  | 0, _, _, last, w => (last, w)
  | fuel + 1, start, left, last, w =>
    if left = 0 then (last, w)
    else
      let (moved, w) := w.write sys fd mem start left
      if 0 < moved then writeLoop sys fd mem fuel (start + moved.toNat) (left - moved.toNat) moved w
      else (moved, w)

/-- `buffer_to_fdout`. With nothing to write it compares the stale `num_written`. -/
def bufferToFdout (sys : Sys) (mem : Nat → UInt8) (fd size : Nat) (w : World) :
    Except World World :=
  let (last, w) := writeLoop sys fd mem size 0 size (sys.stale fd) w
  if last = -1 then .error w else .ok w

/-- What a call of `read_buffers` leaves after taking `k` bytes. -/
structure Took (fd k : Nat) (w u : World) : Prop where
  input : u.input = Function.update w.input fd ((w.input fd).drop k)
  output : u.output = w.output

theorem Took.refl (fd : Nat) (w : World) : Took fd 0 w w :=
  ⟨(Function.update_eq_self fd w.input).symm, rfl⟩

theorem Took.trans {v : World} {k m : Nat} (first : Took fd k w u) (second : Took fd m u v) :
    Took fd (k + m) w v := by
  refine ⟨?_, second.output.trans first.output⟩
  rw [second.input, first.input, Function.update_self, Function.update_idem, List.drop_drop]

theorem read_eq (sys : Sys) (fd limit : Nat) (w : World) : ∃ moved u,
    w.read sys fd limit = (moved, (w.input fd).take moved.toNat, u) ∧ Took fd moved.toNat w u ∧
      moved = sys.answer w.time (min limit (w.input fd).length) ∧ moved ≤ limit :=
  ⟨_, _, rfl, ⟨rfl, rfl⟩, rfl,
    by have := sys.answer_le w.time (min limit (w.input fd).length); omega⟩

/-- However much the calls move, the buffer holds a piece of the stream that fits in it. -/
theorem readLoop_took (sys : Sys) (fd fuel left : Nat) (last : Int) (got : List UInt8) (w : World) :
    ∃ k l u, readLoop sys fd fuel left last got w = (l, got ++ (w.input fd).take k, u) ∧ k ≤ left ∧
      Took fd k w u := by
  induction fuel generalizing left last got w with
  | zero => exact ⟨0, last, w, by simp [readLoop], Nat.zero_le _, .refl fd w⟩
  | succ fuel ih =>
    unfold readLoop
    split
    · exact ⟨0, last, w, by simp, Nat.zero_le _, .refl fd w⟩
    · obtain ⟨moved, u, made, took, -, bound⟩ := read_eq sys fd left w
      simp only [made]
      split
      · obtain ⟨m, l, v, rest, fits, again⟩ :=
          ih (left - moved.toNat) moved (got ++ (w.input fd).take moved.toNat) u
        refine ⟨moved.toNat + m, l, v, ?_, by omega, took.trans again⟩
        rw [rest, took.input, Function.update_self, List.append_assoc, List.take_add]
      · next none =>
        have : moved.toNat = 0 := by omega
        exact ⟨0, moved, u, by simp, Nat.zero_le _, this ▸ took⟩

/-- With progress the loop fills the buffer or reaches the end of the file. -/
theorem readLoop_progress (progress : sys.Progress) (fd fuel left : Nat) (last : Int)
    (got : List UInt8) (w : World) (enough : left ≤ fuel) :
    ∃ l u, readLoop sys fd fuel left last got w = (l, got ++ (w.input fd).take left, u) ∧
      Took fd left w u ∧
      (0 ≤ last ∨ 0 < left → 0 ≤ l) := by
  induction fuel generalizing left last got w with
  | zero =>
    obtain rfl : left = 0 := by omega
    exact ⟨last, w, by simp [readLoop], .refl fd w, by omega⟩
  | succ fuel ih =>
    unfold readLoop
    split
    · next full => exact ⟨last, w, by simp [full], full ▸ .refl fd w, by omega⟩
    · obtain ⟨moved, u, made, took, answer, bound⟩ := read_eq sys fd left w
      have moves := progress.answer_nonneg w.time (min left (w.input fd).length)
      simp only [made]
      split
      · obtain ⟨l, v, rest, again, fine⟩ :=
          ih (left - moved.toNat) moved (got ++ (w.input fd).take moved.toNat) u (by omega)
        have total : moved.toNat + (left - moved.toNat) = left := by omega
        refine ⟨l, v, ?_, total ▸ took.trans again, fun _ => fine (by omega)⟩
        rw [rest, took.input, Function.update_self, List.append_assoc, ← List.take_add, total]
      · next none =>
        -- a call that moves nothing has found the end of the file
        have ended : w.input fd = [] := by
          by_contra more
          have := List.length_pos_iff.mpr more
          have := progress.answer_pos w.time (show 0 < min left (w.input fd).length by omega)
          omega
        have nothing : moved.toNat = 0 := by omega
        refine ⟨moved, u, by simp [ended], ⟨?_, took.output⟩, fun _ => by omega⟩
        rw [took.input, nothing, ended, List.drop_nil, List.drop_nil]

/-- What a call of `buffer_to_fdout` leaves. -/
structure Put (fd : Nat) (bytes : List UInt8) (w u : World) : Prop where
  input : u.input = w.input
  output : u.output = Function.update w.output fd (w.output fd ++ bytes)

theorem Put.trans {v : World} {first second : List UInt8} (before : Put fd first w u)
    (after : Put fd second u v) : Put fd (first ++ second) w v := by
  refine ⟨after.input.trans before.input, ?_⟩
  rw [after.output, before.output, Function.update_self, Function.update_idem, List.append_assoc]

theorem writeLoop_progress (progress : sys.Progress) (fd : Nat) (mem : Nat → UInt8)
    (fuel start left : Nat) (last : Int) (w : World) (enough : left ≤ fuel) :
    ∃ l u, writeLoop sys fd mem fuel start left last w = (l, u) ∧
      Put fd ((List.range left).map fun j => mem (start + j)) w u ∧
      (0 < left → 0 < l) ∧ (left = 0 → l = last) := by
  induction fuel generalizing start left last w with
  | zero =>
    obtain rfl : left = 0 := by omega
    exact ⟨last, w, rfl, ⟨rfl, by simp⟩, nofun, fun _ => rfl⟩
  | succ fuel ih =>
    unfold writeLoop
    split
    · next none => exact ⟨last, w, rfl, ⟨rfl, by simp [none]⟩, by omega, fun _ => rfl⟩
    · next more =>
      obtain ⟨moved, u, made, put, answer⟩ : ∃ moved u, w.write sys fd mem start left = (moved, u) ∧
          Put fd ((List.range moved.toNat).map fun j => mem (start + j)) w u ∧
          moved = sys.answer w.time left :=
        ⟨_, _, rfl, ⟨rfl, rfl⟩, rfl⟩
      have bound := sys.answer_le w.time left
      have moves := progress.answer_pos w.time (show 0 < left by omega)
      simp only [made]
      rw [if_pos (by omega)]
      obtain ⟨l, v, rest, again, fine, same⟩ :=
        ih (start + moved.toNat) (left - moved.toNat) moved u (by omega)
      refine ⟨l, v, rest, ?_, fun _ => ?_, by omega⟩
      · have total : List.range left =
            List.range moved.toNat ++ (List.range (left - moved.toNat)).map (moved.toNat + ·) := by
          rw [← List.range_add]
          congr 1
          omega
        rw [total, List.map_append, List.map_map]
        simpa only [Function.comp_def, Nat.add_assoc] using put.trans again
      · by_cases done : left - moved.toNat = 0
        · rw [same done]
          omega
        · exact fine (by omega)

/-- The bytes of a buffer below an index. -/
def filled (mem : Nat → UInt8) (size : Nat) : List UInt8 := (List.range size).map mem

theorem filled_succ (mem : Nat → UInt8) (size : Nat) :
    filled mem (size + 1) = filled mem size ++ [mem size] := by
  simp [filled, List.range_succ]

theorem filled_store {k : Nat} {b : UInt8} (bound : size ≤ k) :
    filled (Function.update mem k b) size = filled mem size :=
  List.map_congr_left
    fun j member => Function.update_of_ne (by have := List.mem_range.mp member; omega) ..

theorem readBuffers_took (done : readBuffers sys fd size w = .ok (got, u)) :
    ∃ k ≤ size, got = (w.input fd).take k ∧ Took fd k w u := by
  obtain ⟨k, l, v, loop, bound, took⟩ := readLoop_took sys fd size size (sys.stale fd) [] w
  unfold readBuffers at done
  simp only [loop, List.nil_append] at done
  split at done
  · cases done
  · cases done
    exact ⟨k, bound, rfl, took⟩

theorem readBuffers_progress (progress : sys.Progress) (size : Nat) (fd : Nat) (w : World)
    (room : 0 < size) :
    ∃ u, readBuffers sys fd size w = .ok ((w.input fd).take size, u) ∧ Took fd size w u := by
  obtain ⟨l, u, loop, took, fine⟩ := readLoop_progress progress fd size size (sys.stale fd)
    [] w (Nat.le_refl _)
  have := fine (.inr room)
  unfold readBuffers
  simp only [loop, List.nil_append]
  rw [if_neg (by omega)]
  exact ⟨u, rfl, took⟩

theorem bufferToFdout_progress (progress : sys.Progress) (mem : Nat → UInt8) (fd : Nat) (w : World)
    (some : 0 < size) :
    ∃ u, bufferToFdout sys mem fd size w = .ok u ∧ Put fd (filled mem size) w u := by
  obtain ⟨l, u, loop, put, fine, -⟩ :=
    writeLoop_progress progress fd mem size 0 size (sys.stale fd) w (Nat.le_refl _)
  have := fine some
  unfold bufferToFdout
  simp only [loop]
  rw [if_neg (by omega)]
  exact ⟨u, rfl, by simpa only [filled, Nat.zero_add] using put⟩

theorem writeLoop_input (sys : Sys) (fd : Nat) (mem : Nat → UInt8) (fuel start left : Nat)
    (last : Int) (w : World) : (writeLoop sys fd mem fuel start left last w).2.input = w.input := by
  induction fuel generalizing start left last w with
  | zero => rfl
  | succ fuel ih =>
    unfold writeLoop
    split
    · rfl
    · dsimp only
      split
      · exact (ih _ _ _ _).trans rfl
      · rfl

/-- Whatever the system answers, writing takes nothing from the inputs. -/
theorem bufferToFdout_input (sys : Sys) (mem : Nat → UInt8) (fd size : Nat) (w : World) :
    ∃ u, u.input = w.input ∧
      (bufferToFdout sys mem fd size w = .ok u ∨ bufferToFdout sys mem fd size w = .error u) := by
  refine ⟨_, writeLoop_input sys fd mem size 0 size (sys.stale fd) w, ?_⟩
  unfold bufferToFdout
  dsimp only
  split
  · exact .inr rfl
  · exact .inl rfl

theorem bufferToFdout_empty :
    bufferToFdout sys mem fd 0 w = if sys.stale fd = -1 then .error w else .ok w := rfl

section Answers
variable {fdin fdout : Nat}

/-- A call made on the way from `w` to `u` returned this value. -/
def Answered (sys : Sys) (w u : World) (value : Int) : Prop :=
  ∃ time limit, w.time ≤ time ∧ time < u.time ∧ value = sys.answer time limit

theorem Answered.earlier {v : World} {value : Int} (made : Answered sys u v value)
    (before : w.time ≤ u.time) : Answered sys w v value := by
  obtain ⟨time, limit, after, rest⟩ := made
  exact ⟨time, limit, Nat.le_trans before after, rest⟩

theorem readLoop_answered (some : 0 < left) (enough : left ≤ fuel) :
    Answered sys w (readLoop sys fd fuel left last got w).2.2
      (readLoop sys fd fuel left last got w).1 := by
  induction fuel generalizing left last got w with
  | zero => omega
  | succ fuel ih =>
    obtain ⟨moved, u, made, -, answer, bound⟩ := read_eq sys fd left w
    have later : u.time = w.time + 1 := by
      rw [show u = (w.read sys fd left).2.2 by rw [made]]
      rfl
    have here : Answered sys w u moved := ⟨w.time, _, Nat.le_refl _, by omega, answer⟩
    rw [readLoop, if_neg (by omega)]
    simp only [made]
    split
    · by_cases more : 0 < left - moved.toNat
      · exact (ih more (by omega)).earlier (by omega)
      · rw [show left - moved.toNat = 0 by omega]
        cases fuel with
        | zero => exact here
        | succ fuel => exact here
    · exact here

theorem writeLoop_answered {start : Nat} (some : 0 < left) (enough : left ≤ fuel) :
    Answered sys w (writeLoop sys fd mem fuel start left last w).2
      (writeLoop sys fd mem fuel start left last w).1 := by
  induction fuel generalizing start left last w with
  | zero => omega
  | succ fuel ih =>
    have bound := sys.answer_le w.time left
    have here : Answered sys w (w.write sys fd mem start left).2 (sys.answer w.time left) :=
      ⟨w.time, left, Nat.le_refl _, Nat.lt_succ_self _, rfl⟩
    rw [writeLoop, if_neg (by omega)]
    dsimp only [write]
    split
    · by_cases more : 0 < left - (sys.answer w.time left).toNat
      · exact (ih more (by omega)).earlier (Nat.le_succ _)
      · rw [show left - (sys.answer w.time left).toNat = 0 by omega]
        cases fuel with
        | zero => exact here
        | succ fuel => exact here
    · exact here

/-- What `read_buffers` returns: the bytes are counted in an `int`. -/
def total (got : List UInt8) : Int := (got.length : Int).bmod (2 ^ 32)

/-- The contract of `read_buffers` and `buffer_to_fdout` for one buffer, whatever the
system answers. As long as the calls make progress the buffer is filled as far as the
input goes and is sent as it is; and the value that is compared with -1 was returned by
a call. -/
def Transfers (mem : Nat → UInt8) (fdin fdout size : Nat) (w : World) : Prop :=
  ∀ sys : Sys,
    (sys.Progress →
    (∃ u, readBuffers sys fdin size w = .ok ((w.input fdin).take size, u) ∧ Took fdin size w u ∧
      total ((w.input fdin).take size) = (min size (w.input fdin).length : Nat)) ∧
      ∃ u, bufferToFdout sys mem fdout size w = .ok u ∧ Put fdout (filled mem size) w u) ∧
    (let (last, _, u) := readLoop sys fdin size size (sys.stale fdin) [] w
     Answered sys w u last) ∧
    (let (last, u) := writeLoop sys fdout mem size 0 size (sys.stale fdout) w
     Answered sys w u last)

theorem total_eq_iff : total got = got.length ↔ got.length < 2 ^ 31 := by
  constructor
  · intro same
    have small : total got < (2 ^ 32 + 1) / 2 := Int.bmod_lt (m := 2 ^ 32) (by decide)
    omega
  · intro int
    exact Int.bmod_eq_of_le (by omega) (by omega)

/-- A system that moves all it can. -/
def eager (stale : Int) : Sys := ⟨fun _ limit => limit, fun _ => stale, fun _ => 0⟩

theorem eager_progress (stale : Int) : (eager stale).Progress := fun _ limit => by
  dsimp only [eager]
  omega

/-- The two functions keep it exactly for a buffer that is not empty and a count that
is an `int`. -/
theorem transfers_iff :
    Transfers mem fdin fdout size w ↔ 0 < size ∧ min size (w.input fdin).length < 2 ^ 31 := by
  constructor
  · intro kept
    obtain ⟨moving, ⟨time, _, after, before, -⟩, -⟩ := kept (eager 0)
    obtain ⟨⟨u, -, -, count⟩, -⟩ := moving (eager_progress 0)
    refine ⟨Nat.pos_of_ne_zero fun empty => ?_, ?_⟩
    · subst empty
      exact absurd (Nat.lt_of_le_of_lt after before) (Nat.lt_irrefl _)
    · rw [← List.length_take, ← total_eq_iff, count, List.length_take]
  · rintro ⟨some, int⟩ sys
    refine ⟨fun progress => ⟨?_, bufferToFdout_progress progress mem fdout w some⟩,
      readLoop_answered some (Nat.le_refl _), writeLoop_answered some (Nat.le_refl _)⟩
    obtain ⟨u, done, took⟩ := readBuffers_progress progress size fdin w some
    refine ⟨u, done, took, ?_⟩
    rw [← List.length_take] at int
    rw [total_eq_iff.mpr int, List.length_take]

/-- An empty buffer: no call is made, and the program exits with an error when
`num_written` happens to hold -1. -/
theorem empty_buffer_exits :
    bufferToFdout (eager (-1)) (fun _ => 0) 1 0 ⟨0, fun _ => [], fun _ => []⟩ =
      .error ⟨0, fun _ => [], fun _ => []⟩ ∧
    ¬ Transfers (fun _ => 0) 0 1 0 ⟨0, fun _ => [], fun _ => []⟩ := by
  refine ⟨rfl, fun kept => ?_⟩
  obtain ⟨u, sent, -⟩ := ((kept (eager (-1))).1 (eager_progress _)).2
  cases sent

end Answers
end World
end Aso.Posix
