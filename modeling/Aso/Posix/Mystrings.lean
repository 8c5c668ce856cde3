import Aso.Posix.Io
import Aso.Runs

/-! mystrings.c: the printable runs of the standard input of at least `n` bytes.
The run being read is collected in `buf_out`, across chunks; it is written out when
it ends, and also whenever a chunk ends. -/
namespace Aso.Posix.Mystrings
open Function World

/-- The globals and the buffer of `main`. -/
structure State where
  world : World
  bufOut : Nat → UInt8
  offsetOut : Nat
  actualLength : Nat
  /-- The index of every store into `buf_out` so far. -/
  stores : List Nat

variable {sys : Sys} {t n fuel : Nat} {b : UInt8} {s u : State} {bufIn : List UInt8}

/-- `isprint` of the C locale, a newline, a tab or a space. -/
def printable (b : UInt8) : Bool := (32 ≤ b && b < 127) || b == 10 || b == 9 || b == 32

def stdout : Nat := 1

/-- `if (actual_length >= n) buffer_to_fdout(buf_out, STDOUT_FILENO, offset_out)`. -/
def flush (sys : Sys) (n : Nat) (s : State) : Except State State :=
  if n ≤ s.actualLength then
    match bufferToFdout sys s.bufOut stdout s.offsetOut s.world with
    | .error w => .error { s with world := w }
    | .ok w => .ok { s with world := w }
  else .ok s

/-- One turn of the loop of `tratar_cadena`. -/
def tratarByte (sys : Sys) (n : Nat) (b : UInt8) (s : State) : Except State State :=
  if printable b then
    .ok { s with
      actualLength := s.actualLength + 1
      bufOut := update s.bufOut s.offsetOut b
      offsetOut := s.offsetOut + 1
      stores := s.stores ++ [s.offsetOut] }
  else
    match flush sys n s with
    | .error s => .error s
    | .ok s => .ok { s with offsetOut := 0, actualLength := 0 }

def tratarFor (sys : Sys) (n : Nat) : List UInt8 → State → Except State State
  | [], s => .ok s
  | b :: rest, s =>
    match tratarByte sys n b s with
    | .error s => .error s
    | .ok s => tratarFor sys n rest s

def tratarCadena (sys : Sys) (n : Nat) (bufIn : List UInt8) (s : State) : Except State State :=
  match tratarFor sys n bufIn s with
  | .error s => .error s
  | .ok s => flush sys n s

/-- The `while` of `main` over the chunks. -/
def stringsLoop (sys : Sys) (t n : Nat) : Nat → State → Outcome State
  | 0, s => .running s
  | fuel + 1, s =>
    match readBuffers sys stdin t s.world with
    | .error w => .exited { s with world := w }
    | .ok (bufIn, w) =>
      if 0 < bufIn.length then
        match tratarCadena sys n bufIn { s with world := w } with
        | .error s => .exited s
        | .ok s => stringsLoop sys t n fuel s
      else .returned { s with world := w }

def start (sys : Sys) (w : World) : State where
  world := w
  bufOut := sys.junk
  offsetOut := 0
  actualLength := 0
  stores := []

/-- What `getopt` finds on the command line. -/
inductive Opt where
  | t (value : Int)
  | n (value : Int)
  | unknown

/-- The `while` over the options. A `-t` is compared with the length known so far. -/
def parse : List Opt → Int × Int × Bool → Int × Int × Bool
  | [], flags => flags
  | .t value :: rest, (_, n, error) => parse rest (value, n, error || value < n || 1048576 < value)
  | .n value :: rest, (t, _, error) => parse rest (t, value, error || value < 1 || 255 < value)
  | .unknown :: rest, (t, n, _) => parse rest (t, n, true)

/-- `main`. A chunk takes at least one byte, which bounds the turns of the loop. -/
def main (sys : Sys) (options : List Opt) (w : World) : Outcome State :=
  let (t, n, error) := parse options (1024, 4, false)
  if error then .returned (start sys w)
  else stringsLoop sys t.toNat n.toNat ((w.input stdin).length + 1) (start sys w)

open Runs

/-- After the bytes `seen`: the buffer holds the open run, and the stores were inside
the buffer as long as no run was longer than it. -/
structure Reading (t : Nat) (seen : List UInt8) (s : State) : Prop where
  buffer : filled s.bufOut s.offsetOut = openRun printable seen
  length : s.actualLength = s.offsetOut
  stored : (∀ k ∈ s.stores, k < t) ↔ ∀ r ∈ runs printable seen, r.length ≤ t

variable {seen : List UInt8}

theorem Reading.offset (reading : Reading t seen s) :
    s.offsetOut = (openRun printable seen).length := by
  rw [← reading.buffer, filled, List.length_map, List.length_range]

theorem Reading.load {w : World} (reading : Reading t seen s) :
    Reading t seen { s with world := w } :=
  ⟨reading.buffer, reading.length, reading.stored⟩

theorem start_reading {w : World} : Reading t [] (start sys w) :=
  ⟨rfl, rfl, by simp [start, runs]⟩

/-- Whatever the system answers, `flush` changes the world only. -/
theorem flush_world (sys : Sys) (n : Nat) (s : State) : ∃ w, w.input = s.world.input ∧
    (flush sys n s = .ok { s with world := w } ∨ flush sys n s = .error { s with world := w }) := by
  unfold flush
  split
  · obtain ⟨w, input, done | done⟩ := bufferToFdout_input sys s.bufOut stdout s.offsetOut s.world
    · exact ⟨w, input, .inl (by rw [done])⟩
    · exact ⟨w, input, .inr (by rw [done])⟩
  · exact ⟨s.world, rfl, .inl rfl⟩

theorem Reading.print (reading : Reading t seen s) (prints : printable b = true) :
    Reading t (seen ++ [b]) { s with
      actualLength := s.actualLength + 1
      bufOut := update s.bufOut s.offsetOut b
      offsetOut := s.offsetOut + 1
      stores := s.stores ++ [s.offsetOut] } := by
  refine ⟨?_, congrArg (· + 1) reading.length, ?_⟩
  · show filled (update s.bufOut s.offsetOut b) (s.offsetOut + 1) = _
    rw [filled_succ, filled_store (Nat.le_refl _), update_self, reading.buffer, openRun_concat,
      if_pos prints]
  · rw [List.forall_mem_append, List.forall_mem_singleton, runs_concat_le, reading.stored,
      reading.offset]
    simp [prints]

theorem Reading.close {w : World} (reading : Reading t seen s) (ends : printable b = false) :
    Reading t (seen ++ [b]) { s with world := w, offsetOut := 0, actualLength := 0 } := by
  refine ⟨?_, rfl, ?_⟩
  · rw [openRun_concat, ends]
    rfl
  · rw [runs_concat_le, ends]
    simpa using reading.stored

/-- A part of the program that reads `bytes` of its buffer, to the end or, if it
fails, to the point where it does. -/
def Reads (t : Nat) (seen bytes : List UInt8) (s : State) (r : Except State State) : Prop :=
  (∃ u, r = .ok u ∧ u.world.input = s.world.input ∧ Reading t (seen ++ bytes) u) ∨
    ∃ u done, r = .error u ∧ done <+: bytes ∧ Reading t (seen ++ done) u

theorem Reading.flush (reading : Reading t seen s) (sys : Sys) (n : Nat) :
    Reads t seen [] s (flush sys n s) := by
  obtain ⟨w, input, done | done⟩ := flush_world sys n s
  · exact .inl ⟨_, done, input, by simpa using reading.load⟩
  · exact .inr ⟨_, [], done, List.nil_prefix, by simpa using reading.load⟩

theorem Reading.byte (reading : Reading t seen s) (sys : Sys) (n : Nat) (b : UInt8) :
    Reads t seen [b] s (tratarByte sys n b s) := by
  unfold tratarByte
  split
  · next prints => exact .inl ⟨_, rfl, rfl, reading.print prints⟩
  · next ends =>
    obtain ⟨w, input, done | done⟩ := flush_world sys n s
    · rw [done]
      exact .inl ⟨_, rfl, input, reading.close (by simpa using ends)⟩
    · rw [done]
      exact .inr ⟨_, [], rfl, List.nil_prefix, by simpa using reading.load⟩

theorem Reading.bytes (reading : Reading t seen s) (sys : Sys) (n : Nat) (bytes : List UInt8) :
    Reads t seen bytes s (tratarFor sys n bytes s) := by
  induction bytes generalizing seen s with
  | nil => exact .inl ⟨s, rfl, rfl, by simpa using reading⟩
  | cons b rest ih =>
    unfold tratarFor
    obtain ⟨u, done, input, next⟩ | ⟨u, part, done, before, next⟩ := reading.byte sys n b
    · rw [done]
      obtain ⟨v, rest, same, last⟩ | ⟨v, part, rest, before, last⟩ := ih next
      · exact .inl ⟨v, rest, same.trans input, by simpa using last⟩
      · exact .inr ⟨v, b :: part, rest, by simpa using before, by simpa using last⟩
    · rw [done]
      exact .inr ⟨u, part, rfl, before.trans (List.prefix_append [b] rest), next⟩

theorem Reading.cadena (reading : Reading t seen s) (sys : Sys) (n : Nat) (bytes : List UInt8) :
    Reads t seen bytes s (tratarCadena sys n bytes s) := by
  unfold tratarCadena
  obtain ⟨u, done, input, next⟩ | ⟨u, part, done, before, next⟩ := reading.bytes sys n bytes
  · rw [done]
    obtain ⟨v, rest, same, last⟩ | ⟨v, part, rest, before, last⟩ := next.flush sys n
    · exact .inl ⟨v, rest, same.trans input, by simpa using last⟩
    · refine .inr ⟨v, bytes, rest, List.prefix_refl _, ?_⟩
      rwa [List.prefix_nil.mp before, List.append_nil] at last
  · rw [done]
    exact .inr ⟨u, part, rfl, before, next⟩

/-- Whatever the system answers, the stores are those for a first part of the input. -/
theorem stringsLoop_reading (sys : Sys) (n fuel : Nat) (reading : Reading t seen s) :
    ∃ part, part <+: s.world.input stdin ∧
      Reading t (seen ++ part) (stringsLoop sys t n fuel s).state := by
  induction fuel generalizing seen s with
  | zero => exact ⟨[], List.nil_prefix, by rw [List.append_nil]; exact reading⟩
  | succ fuel ih =>
    unfold stringsLoop
    split
    · exact ⟨[], List.nil_prefix, by rw [List.append_nil]; exact reading.load⟩
    · next bufIn w took =>
      obtain ⟨k, -, rfl, taken⟩ := readBuffers_took took
      split
      · obtain ⟨u, done, input, next⟩ | ⟨u, part, done, before, next⟩ :=
          (reading.load (w := w)).cadena sys n ((s.world.input stdin).take k)
        · rw [done]
          obtain ⟨part, before, last⟩ := ih next
          have rest : u.world.input stdin = (s.world.input stdin).drop k := by
            rw [input, taken.input, update_self]
          refine ⟨(s.world.input stdin).take k ++ part, ?_, by simpa using last⟩
          rw [rest] at before
          simpa only [List.take_append_drop]
            using (List.prefix_append_right_inj ((s.world.input stdin).take k)).mpr before
        · rw [done]
          exact ⟨part, before.trans (List.take_prefix _ _), next⟩
      · exact ⟨[], List.nil_prefix, by rw [List.append_nil]; exact reading.load⟩

/-- When the system makes progress, a part of the program that reads `bytes` ends, and
has written out the runs they close. -/
structure Closes (n : Nat) (seen bytes : List UInt8) (s u : State) : Prop where
  input : u.world.input = s.world.input
  output : ∃ new, u.world.output stdout = s.world.output stdout ++ new ∧
    closedLong printable n (seen ++ bytes) = closedLong printable n seen ++ new

theorem flush_writes (progress : sys.Progress) (positive : 0 < n) (reading : Reading t seen s) :
    ∃ w, flush sys n s = .ok { s with world := w } ∧ w.input = s.world.input ∧
      w.output stdout = s.world.output stdout ++ emit n (openRun printable seen) := by
  have same : s.actualLength = (openRun printable seen).length :=
    reading.length.trans reading.offset
  unfold flush emit
  by_cases enough : n ≤ (openRun printable seen).length
  · have some : 0 < s.offsetOut := by
      rw [reading.offset]
      omega
    obtain ⟨w, written, put⟩ := bufferToFdout_progress progress s.bufOut stdout s.world some
    rw [if_pos (same ▸ enough), if_pos enough, written]
    refine ⟨w, rfl, put.input, ?_⟩
    rw [put.output, update_self, reading.buffer]
  · rw [if_neg (same ▸ enough), if_neg enough]
    exact ⟨s.world, rfl, rfl, (List.append_nil _).symm⟩

theorem tratarByte_closes (progress : sys.Progress) (positive : 0 < n) (reading : Reading t seen s)
    (b : UInt8) : ∃ u, tratarByte sys n b s = .ok u ∧ Closes n seen [b] s u := by
  unfold tratarByte
  split
  · next prints =>
    refine ⟨_, rfl, rfl, [], (List.append_nil _).symm, ?_⟩
    rw [closedLong_concat, if_pos prints, List.append_nil]
  · next ends =>
    obtain ⟨w, done, input, output⟩ := flush_writes progress positive reading
    rw [done]
    refine ⟨_, rfl, input, _, output, ?_⟩
    rw [closedLong_concat, if_neg ends]

theorem tratarFor_closes (progress : sys.Progress) (positive : 0 < n) (reading : Reading t seen s)
    (bytes : List UInt8) :
    ∃ u, tratarFor sys n bytes s = .ok u ∧ Reading t (seen ++ bytes) u ∧
      Closes n seen bytes s u := by
  induction bytes generalizing seen s with
  | nil => exact ⟨s, rfl, by simpa using reading, rfl, [], by simp, by simp⟩
  | cons b rest ih =>
    obtain ⟨u, done, closes⟩ := tratarByte_closes progress positive reading b
    have next : Reading t (seen ++ [b]) u := by
      obtain ⟨v, same, -, next⟩ | ⟨v, part, same, -, -⟩ := reading.byte sys n b
      · cases same.symm.trans done
        exact next
      · cases same.symm.trans done
    obtain ⟨v, last, final, more⟩ := ih next
    obtain ⟨first, written, closed⟩ := closes.output
    obtain ⟨second, after, total⟩ := more.output
    rw [tratarFor, done]
    refine ⟨v, last, by simpa using final, more.input.trans closes.input, first ++ second, ?_, ?_⟩
    · rw [after, written, List.append_assoc]
    · rw [closed] at total
      simpa using total

/-- One chunk: the runs it closes, and then the open run if it is long enough. -/
theorem tratarCadena_writes (progress : sys.Progress) (positive : 0 < n)
    (reading : Reading t seen s) (bytes : List UInt8) :
    ∃ u new, tratarCadena sys n bytes s = .ok u ∧ Reading t (seen ++ bytes) u ∧
      u.world.input = s.world.input ∧
      u.world.output stdout =
      s.world.output stdout ++ new ++ emit n (openRun printable (seen ++ bytes)) ∧
      closedLong printable n (seen ++ bytes) = closedLong printable n seen ++ new := by
  obtain ⟨u, done, next, closes⟩ := tratarFor_closes progress positive reading bytes
  obtain ⟨w, flushed, input, output⟩ := flush_writes progress positive next
  obtain ⟨new, written, closed⟩ := closes.output
  refine ⟨_, new, ?_, next.load, input.trans closes.input, ?_, closed⟩
  · rw [tratarCadena, done]
    exact flushed
  · rw [← written]
    exact output

/-- At no chunk boundary inside the input is a run of `n` bytes open. -/
def Unbroken (t n : Nat) (seen rest : List UInt8) : Prop :=
  ∀ m, 0 < m → m * t < rest.length → (openRun printable (seen ++ rest.take (m * t))).length < n

theorem emit_eq_nil_iff {run : List UInt8} (positive : 0 < n) :
    emit n run = [] ↔ run.length < n := by
  unfold emit
  split
  · refine ⟨?_, fun _ => by omega⟩
    rintro rfl
    exact positive
  · exact ⟨fun _ => by omega, fun _ => rfl⟩

theorem unbroken_step (n : Nat) (seen : List UInt8) (full : t < bufIn.length) :
    Unbroken t n seen bufIn ↔
    (openRun printable (seen ++ bufIn.take t)).length < n ∧ Unbroken t n (seen ++ bufIn.take t)
    (bufIn.drop t) := by
  have shift (m : Nat) :
      seen ++ bufIn.take ((m + 1) * t) = seen ++ bufIn.take t ++ (bufIn.drop t).take (m * t) := by
    rw [Nat.succ_mul, Nat.add_comm, List.take_add, List.append_assoc]
  have place (m : Nat) : (m + 1) * t = m * t + t := Nat.succ_mul m t
  have left : (bufIn.drop t).length = bufIn.length - t := List.length_drop
  constructor
  · intro unbroken
    refine ⟨by simpa using unbroken 1 Nat.one_pos (by omega), fun m positive inside => ?_⟩
    rw [← shift]
    exact unbroken (m + 1) m.succ_pos (by rw [place]; omega)
  · rintro ⟨first, others⟩ m positive inside
    obtain ⟨k, rfl⟩ : ∃ k, m = k + 1 := ⟨m - 1, by omega⟩
    obtain rfl | later := Nat.eq_zero_or_pos k
    · simpa using first
    · rw [shift]
      exact others k later (by rw [place] at inside; omega)

theorem stringsLoop_end (progress : sys.Progress) (room : 0 < t) (none : s.world.input stdin = [])
    (n fuel : Nat) :
    ∃ w, stringsLoop sys t n (fuel + 1) s = .returned { s with world := w } ∧
      w.output = s.world.output := by
  obtain ⟨w, took, taken⟩ := readBuffers_progress progress t stdin s.world room
  refine ⟨w, ?_, taken.output⟩
  rw [stringsLoop, took, none, List.take_nil]
  rfl

/-- What the rest of the input makes the program write. Beyond the runs it
owes, an open run is written once more at each boundary. -/
theorem stringsLoop_writes (progress : sys.Progress) (positive : 0 < n) (room : 0 < t)
    (reading : Reading t seen s) (more : s.world.input stdin ≠ [])
    (enough : (s.world.input stdin).length < fuel) : (stringsLoop sys t n fuel s).ended = true ∧
    Reading t (seen ++ s.world.input stdin) (stringsLoop sys t n fuel s).state ∧
    ∃ new, long printable n (seen ++ s.world.input stdin) = closedLong printable n seen ++ new ∧
      (Unbroken t n seen (s.world.input stdin) →
        (stringsLoop sys t n fuel s).state.world.output stdout = s.world.output stdout ++ new) ∧
      (¬ Unbroken t n seen (s.world.input stdin) →
        (s.world.output stdout ++ new).length <
        ((stringsLoop sys t n fuel s).state.world.output stdout).length) := by
  induction fuel generalizing seen s with
  | zero => omega
  | succ fuel ih =>
    obtain ⟨w, took, taken⟩ := readBuffers_progress progress t stdin s.world room
    have loaded := reading.load (w := w)
    obtain ⟨u, new, done, next, input, output, closed⟩ :=
      tratarCadena_writes progress positive loaded ((s.world.input stdin).take t)
    have rest : u.world.input stdin = (s.world.input stdin).drop t := by
      rw [input, taken.input, update_self]
    have before : w.output stdout = s.world.output stdout := by rw [taken.output]
    have length := List.length_pos_iff.mpr more
    unfold stringsLoop
    rw [took]
    dsimp only
    rw [if_pos (by rw [List.length_take]; omega), done]
    dsimp only
    obtain last | again := Nat.lt_or_ge t (s.world.input stdin).length |>.symm
    · -- the last chunk: nothing is left to read
      have whole : (s.world.input stdin).take t = s.world.input stdin := List.take_of_length_le last
      obtain ⟨fuel, rfl⟩ : ∃ k, fuel = k + 1 := ⟨fuel - 1, by omega⟩
      obtain ⟨v, ended, same⟩ :=
        stringsLoop_end progress room (rest.trans (List.drop_eq_nil_of_le last)) n fuel
      rw [whole] at next output closed
      have unbroken : Unbroken t n seen (s.world.input stdin) := fun m positive inside => by
        have := Nat.le_mul_of_pos_left t positive
        omega
      rw [ended]
      refine ⟨rfl, next.load, new ++ emit n (openRun printable (seen ++ s.world.input stdin)), ?_,
        fun _ => ?_, fun broken => absurd unbroken broken⟩
      · rw [long_eq, closed, List.append_assoc]
      · show v.output stdout = _
        rw [same, output, before, List.append_assoc]
    · have left : u.world.input stdin ≠ [] := by
        rw [rest]
        exact List.length_pos_iff.mp (by rw [List.length_drop]; omega)
      obtain ⟨ended, final, owed, total, exact, excess⟩ :=
        ih next left (by rw [rest, List.length_drop]; omega)
      have all : seen ++ (s.world.input stdin).take t ++ u.world.input stdin =
          seen ++ s.world.input stdin := by
        rw [rest, List.append_assoc, List.take_append_drop]
      rw [all] at final total
      have step := unbroken_step n seen again
      rw [← rest, ← emit_eq_nil_iff positive] at step
      refine ⟨ended, final, new ++ owed, ?_, fun unbroken => ?_, fun broken => ?_⟩
      · rw [total, closed, List.append_assoc]
      · obtain ⟨none, others⟩ := step.mp unbroken
        rw [exact others, output, none, before, List.append_nil, List.append_assoc]
      · have grown := congrArg List.length output
        simp only [List.length_append, before] at grown excess ⊢
        by_cases others : Unbroken t n (seen ++ (s.world.input stdin).take t) (u.world.input stdin)
        · have twice : emit n (openRun printable (seen ++ (s.world.input stdin).take t)) ≠ [] :=
            fun none => broken (step.mpr ⟨none, others⟩)
          have := List.length_pos_iff.mpr twice
          rw [exact others, List.length_append]
          omega
        · have := excess others
          omega

theorem parse_accepts {options : List Opt} {t₀ n₀ t n : Int} {error : Bool}
    (start : error = false → 1 ≤ n₀ ∧ 1 ≤ t₀)
    (accepted : parse options (t₀, n₀, error) = (t, n, false)) : 1 ≤ n ∧ 1 ≤ t := by
  induction options generalizing t₀ n₀ error with
  | nil =>
    cases accepted
    exact start rfl
  | cons option rest ih =>
    cases option with
    | t value =>
      refine ih (fun fine => ?_) accepted
      simp only [Bool.or_eq_false_iff, decide_eq_false_iff_not] at fine
      have := start fine.1.1
      omega
    | n value =>
      refine ih (fun fine => ?_) accepted
      simp only [Bool.or_eq_false_iff, decide_eq_false_iff_not] at fine
      have := start fine.1.1
      omega
    | unknown =>
      refine ih (fun fine => ?_) accepted
      cases fine

theorem main_eq (sys : Sys) {options : List Opt}
    (accepted : parse options (1024, 4, false) = ((t : Int), (n : Int), false)) (w : World) :
    0 < n ∧ 0 < t ∧ main sys options w = stringsLoop sys t n ((w.input stdin).length + 1)
      (start sys w) := by
  have range := parse_accepts (fun _ => by decide) accepted
  refine ⟨by omega, by omega, ?_⟩
  rw [main, accepted]
  rfl

/-- What `main` leaves on standard output, and the stores it made. -/
theorem main_writes (progress : sys.Progress) {options : List Opt}
    (accepted : parse options (1024, 4, false) = ((t : Int), (n : Int), false)) (w : World) :
    (main sys options w).ended = true ∧ Reading t (w.input stdin) (main sys options w).state ∧
      ((main sys options w).state.world.output stdout =
        w.output stdout ++ long printable n (w.input stdin) ↔
        Unbroken t n [] (w.input stdin)) := by
  obtain ⟨positive, room, runs⟩ := main_eq sys accepted w
  rw [runs]
  obtain empty | more := eq_or_ne (w.input stdin) []
  · obtain ⟨v, ended, same⟩ :=
      stringsLoop_end (s := start sys w) progress room empty n (w.input stdin).length
    have none : long printable n ([] : List UInt8) = [] := by
      rw [long_eq]
      simp [closedLong, closedRuns, Runs.runs, openRun, emit]
    rw [ended, empty]
    refine ⟨rfl, start_reading.load, fun _ m _ inside => by simp at inside, fun _ => ?_⟩
    show v.output stdout = _
    rw [same, none, List.append_nil]
    rfl
  · obtain ⟨ended, reading, new, total, exact, excess⟩ :=
      stringsLoop_writes progress positive room (start_reading (w := w)) more (Nat.lt_succ_self _)
    have owed : long printable n (w.input stdin) = new := total
    refine ⟨ended, reading, fun written => ?_, fun unbroken => owed ▸ exact unbroken⟩
    by_contra broken
    rw [owed] at written
    exact (excess broken).ne (congrArg List.length written).symm

/-- Standard output gets each long enough run once, and every store is inside the
buffer, exactly when no run of `n` bytes is open where a chunk ends before the input
does, and no run is longer than the buffer. -/
theorem mystrings_iff (progress : sys.Progress) {options : List Opt}
    (accepted : parse options (1024, 4, false) = ((t : Int), (n : Int), false)) (w : World) :
    (main sys options w).ended = true ∧
      ((main sys options w).state.world.output stdout =
        w.output stdout ++ long printable n (w.input stdin) ∧
          (∀ k ∈ (main sys options w).state.stores, k < t) ↔
        (∀ m, 0 < m → m * t < (w.input stdin).length →
        (openRun printable ((w.input stdin).take (m * t))).length < n) ∧
          ∀ r ∈ runs printable (w.input stdin), r.length ≤ t) := by
  obtain ⟨ended, reading, output⟩ := main_writes progress accepted w
  exact ⟨ended, and_congr output reading.stored⟩

/-- The string ends inside the first chunk, and the second chunk opens one too short. -/
theorem one_string_written_once :
    let sys : Sys := ⟨fun _ limit => limit, fun _ => 0, fun _ => 0⟩
    let run := main sys [.t 8, .n 4] ⟨0, fun _ => [0, 97, 98, 99, 100, 0, 0, 0, 0, 97], fun _ => []⟩
    run.state.world.output stdout = [97, 98, 99, 100] ∧ ∀ k ∈ run.state.stores, k < 8 :=
  (mystrings_iff (t := 8) (n := 4)
    (fun time limit => ⟨Int.natCast_nonneg limit, fun some => Int.natCast_pos.mpr some⟩) (by decide)
    ⟨0, fun _ => [0, 97, 98, 99, 100, 0, 0, 0, 0, 97], fun _ => []⟩).2.mpr
    ⟨fun m positive inside => by
      obtain rfl : m = 1 := by simp at inside; omega
      decide, by decide⟩

/-- A byte before the boundary and its end after it: the run is written at both. -/
theorem string_written_twice :
    let sys : Sys := ⟨fun _ limit => limit, fun _ => 0, fun _ => 0⟩
    let run := main sys [.n 1, .t 1] ⟨0, fun _ => [97, 0], fun _ => []⟩
    run.ended = true ∧ run.state.world.output stdout = [97, 97] ∧ (∀ k ∈ run.state.stores, k < 1) ∧
      long printable 1 [97, 0] = [97] := by
  decide

/-- Every store is inside `buf_out` exactly when no run is longer than it. That this is
enough needs nothing from the system. -/
theorem buf_out_inside_iff (sys : Sys) {options : List Opt}
    (accepted : parse options (1024, 4, false) = ((t : Int), (n : Int), false)) (w : World) :
    ((∀ r ∈ runs printable (w.input stdin), r.length ≤ t) →
      ∀ k ∈ (main sys options w).state.stores, k < t) ∧
      (sys.Progress → ((∀ k ∈ (main sys options w).state.stores, k < t) ↔
        ∀ r ∈ runs printable (w.input stdin), r.length ≤ t)) := by
  refine ⟨fun short => ?_, fun progress => (main_writes progress accepted w).2.1.stored⟩
  rw [(main_eq sys accepted w).2.2]
  obtain ⟨part, ⟨rest, whole⟩, reading⟩ :=
    stringsLoop_reading sys n ((w.input stdin).length + 1) (start_reading (w := w))
  exact reading.stored.mpr (runs_le_of_append (whole.symm ▸ short))

/-- Runs of one byte in a buffer of one. -/
theorem single_bytes_inside :
    let sys : Sys := ⟨fun _ limit => limit, fun _ => 0, fun _ => 0⟩
    let run := main sys [.n 1, .t 1] ⟨0, fun _ => [97, 0, 98], fun _ => []⟩
    run.state.stores = [0, 0] ∧ ∀ k ∈ run.state.stores, k < 1 :=
  ⟨by decide, (buf_out_inside_iff (t := 1) (n := 1)
    ⟨fun _ limit => limit, fun _ => 0, fun _ => 0⟩ (by decide)
    ⟨0, fun _ => [97, 0, 98], fun _ => []⟩).1 (by decide)⟩

/-- A run of two bytes in a buffer of one: the second store is past its end. -/
theorem second_byte_outside :
    let sys : Sys := ⟨fun _ limit => limit, fun _ => 0, fun _ => 0⟩
    (main sys [.n 1, .t 1] ⟨0, fun _ => [97, 98], fun _ => []⟩).state.stores = [0, 1] := by
  decide

end Aso.Posix.Mystrings
