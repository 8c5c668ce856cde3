import Aso.Deal
import Aso.Posix.Io
import Mathlib.Data.List.GetD

/-! split_files.c: the bytes of the standard input dealt in turn to the output
files, through one buffer per file. A buffer is written out when a chunk leaves
it exactly full, or after a chunk shorter than the buffers. -/
namespace Aso.Posix.SplitFiles
open Function World

/-- The variables of `main`. -/
structure State where
  world : World
  buffOut : Nat → Nat → UInt8
  offsetOut : Nat → Nat
  offsetIn : Nat
  currentFile : Nat
  /-- The buffer and the index of every call of `write_in_buffer` so far. -/
  stores : List (Nat × Nat)

variable {sys : Sys} {t n fuel i : Nat} {b : UInt8} {s u : State} {bufIn : List UInt8}

def writeInBuffer (bufIn : List UInt8) (i : Nat) (s : State) : State :=
  { s with
    buffOut := update s.buffOut i (update (s.buffOut i) (s.offsetOut i) (bufIn.getD s.offsetIn 0))
    stores := s.stores ++ [(i, s.offsetOut i)] }

/-- One turn of the `for` that deals bytes. -/
def dealTurn (n : Nat) (bufIn : List UInt8) (s : State) (i : Nat) : State :=
  let s :=
    if s.currentFile = i then
      let s := writeInBuffer bufIn i s
      { s with
        offsetOut := update s.offsetOut i (s.offsetOut i + 1)
        offsetIn := s.offsetIn + 1
        currentFile := s.currentFile + 1 }
    else s
  if s.currentFile = n then { s with currentFile := 0 } else s

def dealFor (n : Nat) (bufIn : List UInt8) : List Nat → State → State
  | [], s => s
  | i :: rest, s =>
    if bufIn.length ≤ s.offsetIn then s else dealFor n bufIn rest (dealTurn n bufIn s i)

/-- The `while` over one chunk. -/
def dealWhile (n : Nat) (bufIn : List UInt8) : Nat → State → Option State
  | 0, s => if s.offsetIn < bufIn.length then none else some s
  | fuel + 1, s =>
    if s.offsetIn < bufIn.length then dealWhile n bufIn fuel (dealFor n bufIn (List.range n) s)
    else some s

/-- The `for` that writes buffers out, after a chunk of `numReaded` bytes. -/
def flushFor (sys : Sys) (t numReaded : Nat) : List Nat → State → Except State State
  | [], s => .ok s
  | i :: rest, s =>
    if s.offsetOut i = t ∨ numReaded < t then
      match bufferToFdout sys (s.buffOut i) i (s.offsetOut i) s.world with
      | .error w => .error { s with world := w }
      | .ok w =>
        flushFor sys t numReaded rest { s with world := w, offsetOut := update s.offsetOut i 0 }
    else flushFor sys t numReaded rest s

/-- The `while` over the chunks. -/
def splitLoop (sys : Sys) (t n : Nat) : Nat → State → Outcome State
  | 0, s => .running s
  | fuel + 1, s =>
    match readBuffers sys stdin t s.world with
    | .error w => .exited { s with world := w }
    | .ok (bufIn, w) =>
      if 0 < bufIn.length then
        match dealWhile n bufIn bufIn.length { s with world := w, offsetIn := 0 } with
        | none => .running s
        | some s =>
          match flushFor sys t bufIn.length (List.range n) s with
          | .error s => .exited s
          | .ok s => splitLoop sys t n fuel s
      else .returned { s with world := w }

/-- The state before the loop: every output file is open and empty. -/
def start (sys : Sys) (n : Nat) (w : World) : State where
  world := { w with output := fun i => if i < n then [] else w.output i }
  buffOut := fun _ => sys.junk
  offsetOut := fun _ => 0
  offsetIn := 0
  currentFile := 0
  stores := []

/-- What `getopt` finds on the command line. -/
inductive Opt where
  | t (value : Int)
  | unknown

/-- The `while` over the options: the buffer size and `error_flag`. -/
def parse : List Opt → Int × Bool → Int × Bool
  | [], flags => flags
  | .t value :: rest, (_, error) => parse rest (value, error || value < 1 || 1048576 < value)
  | .unknown :: rest, (t, _) => parse rest (t, true)

/-- `main` on `n` names of output files. A chunk takes at least
one byte, which bounds the turns of the loop. -/
def main (sys : Sys) (options : List Opt) (n : Nat) (w : World) : Outcome State :=
  let (t, error) := parse options (1024, false)
  if error || n < 1 || 16 < n then .returned { start sys n w with world := w }
  else splitLoop sys t.toNat n ((w.input stdin).length + 1) (start sys n w)

/-- What the two dealing loops come to: the next byte goes to the file whose turn it is. -/
def State.deal (n : Nat) (s : State) (b : UInt8) : State :=
  { s with
    buffOut := update s.buffOut s.currentFile
      (update (s.buffOut s.currentFile) (s.offsetOut s.currentFile) b)
    offsetOut := update s.offsetOut s.currentFile (s.offsetOut s.currentFile + 1)
    offsetIn := s.offsetIn + 1
    currentFile := if s.currentFile + 1 = n then 0 else s.currentFile + 1
    stores := s.stores ++ [(s.currentFile, s.offsetOut s.currentFile)] }

theorem dealTurn_here (more : s.offsetIn < bufIn.length) :
    dealTurn n bufIn s s.currentFile = s.deal n bufIn[s.offsetIn] := by
  unfold dealTurn writeInBuffer State.deal
  simp only [if_pos, List.getD_eq_getElem _ _ more]
  split <;> rfl

theorem dealTurn_skip (other : s.currentFile ≠ i) (below : s.currentFile < n) :
    dealTurn n bufIn s i = s := by
  unfold dealTurn
  simp only [if_neg other, if_neg below.ne]

theorem deal_currentFile_lt (below : s.currentFile < n) : (s.deal n b).currentFile < n := by
  show (if s.currentFile + 1 = n then 0 else s.currentFile + 1) < n
  split <;> omega

theorem foldl_deal_currentFile_lt (below : s.currentFile < n) (bytes : List UInt8) :
    (bytes.foldl (State.deal n) s).currentFile < n := by
  induction bytes generalizing s with
  | nil => exact below
  | cons b rest ih => exact ih (deal_currentFile_lt below)

theorem foldl_deal_offsetIn (bytes : List UInt8) :
    (bytes.foldl (State.deal n) s).offsetIn = s.offsetIn + bytes.length := by
  induction bytes generalizing s with
  | nil => rfl
  | cons b rest ih =>
    rw [List.foldl_cons, ih, List.length_cons]
    show s.offsetIn + 1 + rest.length = _
    omega

theorem foldl_deal_world (bytes : List UInt8) : (bytes.foldl (State.deal n) s).world = s.world := by
  induction bytes generalizing s with
  | nil => rfl
  | cons b rest ih => exact ih

/-- From the file whose turn it is, the `for` deals a byte to each file left. -/
theorem dealFor_from {k : Nat} (all : i + k = n) (turn : k = 0 ∨ s.currentFile = i) :
    dealFor n bufIn (List.range' i k) s =
      ((bufIn.drop s.offsetIn).take k).foldl (State.deal n) s := by
  induction k generalizing i s with
  | zero => rfl
  | succ k ih =>
    obtain rfl : s.currentFile = i := by omega
    rw [List.range'_succ, dealFor]
    split
    · next done => simp [List.drop_eq_nil_of_le done]
    · next more =>
      have more : s.offsetIn < bufIn.length := by omega
      rw [dealTurn_here more, ih (by omega), List.drop_eq_getElem_cons more, List.take_succ_cons,
        List.foldl_cons]
      · rfl
      · show k = 0 ∨ (if s.currentFile + 1 = n then 0 else s.currentFile + 1) = _
        split <;> omega

theorem dealFor_skip {k : Nat} (below : s.currentFile < n) (more : s.offsetIn < bufIn.length)
    (here : i + k = s.currentFile) :
    dealFor n bufIn (List.range' i (n - i)) s =
      dealFor n bufIn (List.range' s.currentFile (n - s.currentFile)) s := by
  induction k generalizing i with
  | zero => rw [← here, Nat.add_zero]
  | succ k ih =>
    have cut : n - i = n - (i + 1) + 1 := by omega
    rw [cut, List.range'_succ, dealFor, if_neg (by omega), dealTurn_skip (by omega) below,
      ih (by omega)]

theorem dealFor_range (below : s.currentFile < n) (more : s.offsetIn < bufIn.length) :
    dealFor n bufIn (List.range n) s =
      ((bufIn.drop s.offsetIn).take (n - s.currentFile)).foldl (State.deal n) s := by
  rw [List.range_eq_range', ← dealFor_from (by omega) (.inr rfl)]
  exact dealFor_skip (k := s.currentFile) below more (Nat.zero_add _)

theorem dealWhile_eq (below : s.currentFile < n) (enough : bufIn.length ≤ s.offsetIn + fuel) :
    dealWhile n bufIn fuel s = some ((bufIn.drop s.offsetIn).foldl (State.deal n) s) := by
  induction fuel generalizing s with
  | zero => rw [dealWhile, if_neg (by omega), List.drop_eq_nil_of_le (by omega), List.foldl_nil]
  | succ fuel ih =>
    unfold dealWhile
    split
    · next more =>
      have length : ((bufIn.drop s.offsetIn).take (n - s.currentFile)).length =
          min (n - s.currentFile) (bufIn.length - s.offsetIn) := by
        rw [List.length_take, List.length_drop]
      rw [dealFor_range below more, ih (foldl_deal_currentFile_lt below _)
        (by rw [foldl_deal_offsetIn]; omega), foldl_deal_offsetIn, ← List.foldl_append]
      congr 2
      rw [← List.drop_drop]
      exact List.prefix_iff_eq_append.mp (List.take_prefix _ _)
    · next done => rw [List.drop_eq_nil_of_le (by omega), List.foldl_nil]

/-- Between two turns of dealing, `N` bytes after the start: file `i`, `d i` turns
behind, has had `(N + d i) / n` bytes, of which whole buffers are written out. -/
structure Dealing (t n : Nat) (d base : Nat → Nat) (N : Nat) (s : State) : Prop where
  behind : ∀ i < n, d i < n
  turn : ∀ i < n, s.currentFile = (i + (N + d i + 1)) % n
  level : ∀ i < n, t * base i + s.offsetOut i = (N + d i) / n
  bounded : ∀ p ∈ s.stores, p.2 < t

variable {d base : Nat → Nat} {N : Nat}

theorem deal_offsetOut :
    (s.deal n b).offsetOut i = if s.currentFile = i then s.offsetOut i + 1 else s.offsetOut i := by
  show update s.offsetOut s.currentFile (s.offsetOut s.currentFile + 1) i = _
  split
  · next self => rw [self, update_self]
  · next other => exact update_of_ne (Ne.symm other) ..

theorem Dealing.deal (dealing : Dealing t n d base N s) (below : s.currentFile < n)
    (room : ∀ i < n, (N + 1 + d i) / n ≤ t * base i + t) :
    Dealing t n d base (N + 1) (s.deal n b) := by
  have turn {i : Nat} (inside : i < n) : s.currentFile = i ↔ n ∣ N + d i + 1 := by
    rw [dealing.turn i inside, Deal.turn_iff inside]
  have level (i : Nat) (inside : i < n) :
      t * base i + (s.deal n b).offsetOut i = (N + 1 + d i) / n := by
    rw [deal_offsetOut, Nat.add_right_comm N, Nat.succ_div, ← dealing.level i inside]
    simp only [turn inside]
    split <;> rfl
  refine ⟨dealing.behind, fun i inside => ?_, level, fun p stored => ?_⟩
  · show (if s.currentFile + 1 = n then 0 else s.currentFile + 1) = _
    have next : i + (N + 1 + d i + 1) = i + (N + d i + 1) + 1 := by omega
    rw [next, ← Nat.mod_add_mod, ← dealing.turn i inside]
    split
    · next last => rw [last, Nat.mod_self]
    · exact (Nat.mod_eq_of_lt (by omega)).symm
  · obtain old | new := List.mem_append.mp stored
    · exact dealing.bounded p old
    · obtain rfl := List.mem_singleton.mp new
      have after := level s.currentFile below
      have := room s.currentFile below
      rw [deal_offsetOut, if_pos rfl] at after
      show s.offsetOut s.currentFile < t
      omega

/-- Between two chunks: what is not written out is what is past the last whole buffer. -/
def Aligned (t n : Nat) (d : Nat → Nat) (N : Nat) (s : State) : Prop :=
  t ∣ N ∧ s.currentFile < n ∧ Dealing t n d (fun i => (N + d i) / n / t) N s

theorem Aligned.deal (aligned : Aligned t n d N s) (short : bufIn.length ≤ t) :
    Dealing t n d (fun i => (N + d i) / n / t) (N + bufIn.length) (bufIn.foldl (State.deal n) s) ∧
      (bufIn.foldl (State.deal n) s).currentFile < n := by
  obtain ⟨whole, below, dealing⟩ := aligned
  refine ⟨?_, foldl_deal_currentFile_lt below _⟩
  have room (r : Nat) (within : r ≤ t) (i : Nat) (inside : i < n) :
      (N + r + d i) / n ≤ t * ((N + d i) / n / t) + t :=
    Deal.share_le (dealing.behind i inside) whole within
  -- the induction is on the bytes already dealt
  induction bufIn using List.reverseRecOn with
  | nil => exact dealing
  | append_singleton bytes b ih =>
    rw [List.length_append, List.length_singleton] at short ⊢
    rw [List.foldl_append, ← Nat.add_assoc]
    exact (ih (by omega)).deal (foldl_deal_currentFile_lt below _) (room (bytes.length + 1) short)

theorem flushFor_error {numReaded : Nat} {files : List Nat}
    (done : flushFor sys t numReaded files s = .error u) : u.stores = s.stores := by
  induction files generalizing s with
  | nil => cases done
  | cons f rest ih =>
    unfold flushFor at done
    split at done
    · split at done
      · cases done
        rfl
      · exact (ih done).trans rfl
    · exact ih done

/-- The buffers due are empty now. -/
theorem flushFor_ok {numReaded : Nat} {files : List Nat}
    (done : flushFor sys t numReaded files s = .ok u) :
    u.stores = s.stores ∧ u.currentFile = s.currentFile ∧
      ∀ i, u.offsetOut i = if i ∈ files ∧ (s.offsetOut i = t ∨ numReaded < t) then 0
      else s.offsetOut i := by
  induction files generalizing s with
  | nil =>
    cases done
    exact ⟨rfl, rfl, fun i => by simp⟩
  | cons f rest ih =>
    unfold flushFor at done
    split at done
    · next due =>
      split at done
      · cases done
      · obtain ⟨stores, current, offsets⟩ := ih done
        refine ⟨stores, current, fun i => (offsets i).trans ?_⟩
        by_cases self : i = f
        · simp [self, due]
        · simp [self]
    · next due =>
      obtain ⟨stores, current, offsets⟩ := ih done
      refine ⟨stores, current, fun i => (offsets i).trans ?_⟩
      by_cases self : i = f
      · simp [self, due]
      · simp [self]

theorem flushFor_range_ok {numReaded : Nat}
    (done : flushFor sys t numReaded (List.range n) s = .ok u) (inside : i < n) :
    u.offsetOut i = if s.offsetOut i = t ∨ numReaded < t then 0 else s.offsetOut i := by
  rw [(flushFor_ok done).2.2 i]
  simp only [List.mem_range, inside, true_and]

/-- After a full chunk and its flush the same invariant holds one chunk later. -/
theorem Aligned.full (aligned : Aligned t n d N s) (length : bufIn.length = t)
    (done : flushFor sys t bufIn.length (List.range n) (bufIn.foldl (State.deal n) s) = .ok u) :
    Aligned t n d (N + t) u := by
  obtain ⟨dealing, below⟩ := aligned.deal length.le
  obtain ⟨stores, current, -⟩ := flushFor_ok done
  rw [length] at dealing
  refine ⟨Nat.dvd_add aligned.1 (Nat.dvd_refl t), current ▸ below, dealing.behind,
    fun i inside => ?_, fun i inside => ?_, ?_⟩
  · rw [current]
    exact dealing.turn i inside
  · rw [flushFor_range_ok done inside]
    have level := dealing.level i inside
    have most := Deal.share_le (dealing.behind i inside) aligned.1 (Nat.le_refl t)
    simp only [length, Nat.lt_irrefl, or_false]
    generalize (N + t + d i) / n = x at level most ⊢
    generalize (N + d i) / n / t = j at level most
    split
    · next complete =>
      rw [complete, ← Nat.mul_succ] at level
      exact Nat.mul_div_cancel' (Dvd.intro _ level)
    · next partway =>
      rw [← level, Nat.mul_add_div (by omega), Nat.div_eq_of_lt (by omega), Nat.add_zero]
  · rw [stores]
    exact dealing.bounded

/-- After a short chunk every buffer is empty, and the dealing goes on as if it began there. -/
theorem Aligned.short (aligned : Aligned t n d N s) (length : bufIn.length < t)
    (done : flushFor sys t bufIn.length (List.range n) (bufIn.foldl (State.deal n) s) = .ok u) :
    Aligned t n (fun i => (N + bufIn.length + d i) % n) 0 u := by
  obtain ⟨dealing, below⟩ := aligned.deal length.le
  obtain ⟨stores, current, -⟩ := flushFor_ok done
  refine ⟨Nat.dvd_zero t, current ▸ below, fun i inside => ?_, fun i inside => ?_,
    fun i inside => ?_, ?_⟩
  · exact Nat.mod_lt _ (by omega)
  · rw [current, dealing.turn i inside, Nat.zero_add]
    exact (((Nat.mod_modEq _ n).add_right 1).add_left i).symm
  · rw [flushFor_range_ok done inside, if_pos (.inr length)]
    have : (N + bufIn.length + d i) % n / n = 0 := Nat.div_eq_of_lt (Nat.mod_lt _ (by omega))
    simp only [Nat.zero_add, this, Nat.zero_div, Nat.mul_zero]
  · rw [stores]
    exact dealing.bounded

theorem Aligned.load {w : World} (aligned : Aligned t n d N s) :
    Aligned t n d N { s with world := w, offsetIn := 0 } :=
  ⟨aligned.1, aligned.2.1, aligned.2.2.behind, aligned.2.2.turn, aligned.2.2.level,
    aligned.2.2.bounded⟩

theorem start_aligned {w : World} (some : 0 < n) :
    Aligned t n (fun i => n - 1 - i) 0 (start sys n w) := by
  have zero (i : Nat) (inside : i < n) : (0 + (n - 1 - i)) / n = 0 := Nat.div_eq_of_lt (by omega)
  refine ⟨Nat.dvd_zero t, some,
    fun i inside => by omega, fun i inside => ?_, fun i inside => ?_, nofun⟩
  · have whole : i + (0 + (n - 1 - i) + 1) = n := by omega
    rw [whole, Nat.mod_self]
    rfl
  · simp only [zero i inside, Nat.zero_div]
    rfl

/-- The invariant over the chunks, however many bytes each call moves. -/
theorem splitLoop_bounded (aligned : Aligned t n d N s) :
    ∀ p ∈ (splitLoop sys t n fuel s).state.stores, p.2 < t := by
  induction fuel generalizing s d N with
  | zero => exact aligned.2.2.bounded
  | succ fuel ih =>
    unfold splitLoop
    split
    · exact aligned.2.2.bounded
    · next bufIn w took =>
      obtain ⟨k, bound, got, -⟩ := readBuffers_took took
      have short : bufIn.length ≤ t := by
        rw [got, List.length_take]
        omega
      have loaded := aligned.load (w := w)
      split
      · rw [dealWhile_eq loaded.2.1 (Nat.le_add_left _ _)]
        simp only [List.drop_zero]
        split
        · next flushed =>
          rw [Outcome.state, flushFor_error flushed]
          exact (loaded.deal short).1.bounded
        · next flushed =>
          obtain full | less := short.eq_or_lt
          · exact ih (loaded.full full flushed)
          · exact ih (loaded.short less flushed)
      · exact aligned.2.2.bounded

/-- No call of `write_in_buffer` stores past the end of its buffer. -/
theorem write_in_buffer_inside (sys : Sys) (t n fuel : Nat) (w : World) (some : 0 < n) :
    ∀ p ∈ (splitLoop sys t n fuel (start sys n w)).state.stores, p.2 < t :=
  splitLoop_bounded (start_aligned some)

/-- Five bytes in buffers of two: the first file is written
out between its second and its third byte. -/
theorem five_bytes_inside :
    let sys : Sys := ⟨fun _ limit => limit, fun _ => 0, fun _ => 0⟩
    let run := splitLoop sys 2 2 6 (start sys 2 ⟨0, fun _ => [1, 2, 3, 4, 5], fun _ => []⟩)
    run.state.stores = [(0, 0), (1, 0), (0, 1), (1, 1), (0, 0)] ∧ ∀ p ∈ run.state.stores, p.2 < 2 :=
  ⟨by decide, write_in_buffer_inside _ 2 2 6 _ (by decide)⟩

/-- The bytes file `i` has been dealt: those written out, then those in its buffer. -/
def State.held (s : State) (i : Nat) : List UInt8 :=
  s.world.output i ++ filled (s.buffOut i) (s.offsetOut i)

theorem deal_held :
    (s.deal n b).held i = if s.currentFile = i then s.held i ++ [b] else s.held i := by
  split
  · next self =>
    subst i
    simp only [State.held, State.deal, update_self, filled_succ, filled_store (Nat.le_refl _),
      List.append_assoc]
  · next other => simp only [State.held, State.deal, update_of_ne (Ne.symm other)]

/-- `consumed` has been dealt out. -/
structure Copied (n : Nat) (consumed : List UInt8) (s : State) : Prop where
  turn : s.currentFile = consumed.length % n
  held : ∀ i < n, s.held i = Deal.residue n i consumed

variable {consumed rest : List UInt8}

theorem Copied.deal (copied : Copied n consumed s) (some : 0 < n) :
    Copied n (consumed ++ [b]) (s.deal n b) := by
  have below := Nat.mod_lt consumed.length some
  refine ⟨?_, fun i inside => ?_⟩
  · rw [List.length_append, List.length_singleton, ← Nat.mod_add_mod, ← copied.turn]
    rw [← copied.turn] at below
    show (if s.currentFile + 1 = n then 0 else s.currentFile + 1) = _
    split
    · next last => rw [last, Nat.mod_self]
    · exact (Nat.mod_eq_of_lt (by omega)).symm
  · rw [deal_held, Deal.residue_concat, copied.turn, copied.held i inside]

theorem Copied.foldl (copied : Copied n consumed s) (some : 0 < n) (bytes : List UInt8) :
    Copied n (consumed ++ bytes) (bytes.foldl (State.deal n) s) := by
  induction bytes generalizing consumed s with
  | nil => simpa using copied
  | cons b rest ih => simpa using ih (copied.deal (b := b) some)

/-- Writing one buffer out, when the system takes it all. -/
theorem flush_one (progress : sys.Progress) (some : 0 < s.offsetOut i) :
    ∃ w, bufferToFdout sys (s.buffOut i) i (s.offsetOut i) s.world = .ok w ∧
      w.input = s.world.input ∧
      w.output i = s.held i ∧ ∀ j, j ≠ i → w.output j = s.world.output j := by
  obtain ⟨w, written, put⟩ := bufferToFdout_progress progress (s.buffOut i) i s.world some
  refine ⟨w, written, put.input, ?_, fun j other => ?_⟩
  · rw [put.output, update_self]
    rfl
  · rw [put.output, update_of_ne other]

/-- After a full chunk only full buffers are written, and no byte is lost. -/
theorem flushFor_full (progress : sys.Progress) (room : 0 < t) (files : List Nat) (s : State) :
    ∃ u, flushFor sys t t files s = .ok u ∧ u.world.input = s.world.input ∧
      ∀ i, u.held i = s.held i := by
  induction files generalizing s with
  | nil => exact ⟨s, rfl, rfl, fun _ => rfl⟩
  | cons f rest ih =>
    unfold flushFor
    simp only [Nat.lt_irrefl, or_false]
    split
    · next full =>
      obtain ⟨w, written, input, here, others⟩ := flush_one (s := s) (i := f) progress (by omega)
      rw [written]
      obtain ⟨u, done, same, held⟩ := ih { s with world := w, offsetOut := update s.offsetOut f 0 }
      refine ⟨u, done, same.trans input, fun i => (held i).trans ?_⟩
      by_cases self : i = f
      · subst i
        simp [State.held, here, filled]
      · simp [State.held, others i self, self]
    · exact ih s

/-- What a short chunk leaves in the files: everything, unless an empty buffer, for
which `num_written` happens to be -1, comes before one that is not empty. -/
structure Drained (sys : Sys) (files : List Nat) (s u : State) : Prop where
  input : u.world.input = s.world.input
  others : ∀ i, i ∉ files → u.world.output i = s.world.output i
  whole : (∀ i ∈ files, u.world.output i = s.held i) ↔
    files.Pairwise fun i j => s.offsetOut i = 0 → sys.stale i = -1 → s.offsetOut j = 0

theorem output_eq_held_iff : s.world.output i = s.held i ↔ s.offsetOut i = 0 := by
  rw [State.held, List.self_eq_append_right, filled, List.map_eq_nil_iff, List.range_eq_nil]

theorem Drained.cons {v : State} {f : Nat} {files : List Nat} (fresh : f ∉ files)
    (drained : Drained sys files v u) (input : v.world.input = s.world.input)
    (here : v.world.output f = s.held f) (others : ∀ i, i ≠ f → v.world.output i =
      s.world.output i ∧ v.buffOut i = s.buffOut i ∧ v.offsetOut i = s.offsetOut i)
    (fine : s.offsetOut f = 0 → sys.stale f ≠ -1) : Drained sys (f :: files) s u := by
  have apart {i : Nat} (member : i ∈ files) : i ≠ f := fun self => fresh (self ▸ member)
  refine ⟨drained.input.trans input, fun i outside => ?_, ?_⟩
  · rw [List.mem_cons, not_or] at outside
    rw [drained.others i outside.2, (others i outside.1).1]
  · rw [List.forall_mem_cons, List.pairwise_cons, drained.others f fresh, here]
    have held (i : Nat) (member : i ∈ files) : v.held i = s.held i := by
      obtain ⟨output, buffer, offset⟩ := others i (apart member)
      rw [State.held, State.held, output, buffer, offset]
    have rest := drained.whole
    constructor
    · rintro ⟨-, all⟩
      refine ⟨fun j _ empty stale => absurd stale (fine empty), ?_⟩
      have := rest.mp fun i member => (all i member).trans (held i member).symm
      exact this.imp_of_mem fun ha hb => by
        rw [(others _ (apart ha)).2.2, (others _ (apart hb)).2.2]; exact id
    · rintro ⟨-, pairs⟩
      refine ⟨rfl, fun i member => ((rest.mpr ?_) i member).trans (held i member)⟩
      exact pairs.imp_of_mem fun ha hb => by
        rw [(others _ (apart ha)).2.2, (others _ (apart hb)).2.2]; exact id

theorem flushFor_short {r : Nat} (progress : sys.Progress) (short : r < t) (files : List Nat)
    (once : files.Nodup) (s : State) :
    ∃ u, (flushFor sys t r files s = .ok u ∨ flushFor sys t r files s = .error u) ∧
      Drained sys files s u := by
  induction files generalizing s with
  | nil => exact ⟨s, .inl rfl, rfl, fun _ _ => rfl, by simp⟩
  | cons f rest ih =>
    obtain ⟨fresh, once⟩ := List.nodup_cons.mp once
    unfold flushFor
    simp only [short, or_true, if_true]
    by_cases empty : s.offsetOut f = 0
    · rw [empty, bufferToFdout_empty]
      by_cases stale : sys.stale f = -1
      · rw [if_pos stale]
        refine ⟨s, .inr rfl, rfl, fun _ _ => rfl, ?_⟩
        simp only [output_eq_held_iff, List.forall_mem_cons, List.pairwise_cons]
        refine ⟨fun all => ⟨fun j member _ _ => all.2 j member, ?_⟩,
          fun pairs => ⟨empty, fun j member => pairs.1 j member empty stale⟩⟩
        exact List.pairwise_of_forall_mem_list fun _ _ j member _ _ => all.2 j member
      · rw [if_neg stale]
        obtain ⟨u, done, drained⟩ := ih once { s with offsetOut := update s.offsetOut f 0 }
        refine ⟨u, done, drained.cons fresh rfl ?_
          (fun i other => ⟨rfl, rfl, update_of_ne other ..⟩) fun _ => stale⟩
        exact output_eq_held_iff.mpr empty
    · obtain ⟨w, written, input, here, others⟩ := flush_one (s := s) (i := f) progress (by omega)
      rw [written]
      obtain ⟨u, done, drained⟩ :=
        ih once { s with world := w, offsetOut := update s.offsetOut f 0 }
      exact ⟨u, done,
        drained.cons fresh input here (fun i other => ⟨others i other, rfl, update_of_ne other ..⟩)
        fun none => absurd none empty⟩

/-- How many of the first `length` bytes go to file `i` of `n`. -/
def share (n i length : Nat) : Nat := (length + (n - 1 - i)) / n

/-- How many of them are in its buffer when the last, short chunk has been dealt:
those past the last buffer filled in the whole chunks. -/
def pending (t n length i : Nat) : Nat := share n i length - t * (share n i (length / t * t) / t)

/-- Where every byte is written out. -/
def Drains (sys : Sys) (t n length : Nat) : Prop :=
  if t ∣ length then ∀ i < n, t ∣ share n i length
  else ∀ i j, i < j → j < n → pending t n length i = 0 → sys.stale i = -1 → pending t n length j = 0

/-- The end of the input after whole chunks: what is in the buffers stays there. -/
theorem Aligned.ended (aligned : Aligned t n (fun i => n - 1 - i) consumed.length s)
    (copied : Copied n consumed s) :
    (∀ i < n, s.world.output i = Deal.residue n i consumed) ↔ Drains sys t n consumed.length := by
  rw [Drains, if_pos aligned.1]
  refine forall₂_congr fun i inside => ?_
  rw [← copied.held i inside, output_eq_held_iff]
  have level := aligned.2.2.level i inside
  have parts := Nat.div_add_mod ((consumed.length + (n - 1 - i)) / n) t
  dsimp only at level
  rw [share, Nat.dvd_iff_mod_eq_zero]
  omega

/-- The end of the input after a short chunk. -/
theorem Drained.ended (drained : Drained sys (List.range n) (rest.foldl (State.deal n) s) u)
    (aligned : Aligned t n (fun i => n - 1 - i) consumed.length s) (copied : Copied n consumed s)
    (short : rest.length < t) (more : rest ≠ []) :
    (∀ i < n, u.world.output i = Deal.residue n i (consumed ++ rest)) ↔
      Drains sys t n (consumed ++ rest).length := by
  have some := List.length_pos_iff.mpr more
  obtain ⟨dealing, below⟩ := aligned.deal short.le
  obtain ⟨m, length⟩ := aligned.1
  have chunks : (consumed ++ rest).length / t * t = consumed.length := by
    rw [List.length_append, length, Nat.mul_add_div (by omega), Nat.div_eq_of_lt short,
      Nat.add_zero, Nat.mul_comm]
  have ragged : ¬ t ∣ (consumed ++ rest).length := by
    rw [List.length_append, (Nat.dvd_add_iff_right aligned.1).symm]
    exact Nat.not_dvd_of_pos_of_lt some short
  have offset (i : Nat) (inside : i < n) :
      (rest.foldl (State.deal n) s).offsetOut i = pending t n (consumed ++ rest).length i := by
    have level := dealing.level i inside
    rw [pending, chunks, share, share, List.length_append]
    omega
  rw [Drains, if_neg ragged]
  calc (∀ i < n, u.world.output i = Deal.residue n i (consumed ++ rest))
    _ ↔ ∀ i ∈ List.range n, u.world.output i = (rest.foldl (State.deal n) s).held i := by
      simp only [List.mem_range]
      exact forall₂_congr fun i inside => by rw [(copied.foldl (by omega) rest).held i inside]
    _ ↔ _ := drained.whole
    _ ↔ _ := by
      simp only [List.pairwise_iff_getElem, List.length_range, List.getElem_range]
      refine forall₂_congr
        fun i j => ⟨fun pairs before inside => ?_, fun pairs _ inside before => ?_⟩
      · rw [← offset i (by omega), ← offset j inside]
        exact pairs (by omega) inside before
      · rw [offset i (by omega), offset j inside]
        exact pairs before inside

theorem splitLoop_end (progress : sys.Progress) (room : 0 < t) (none : s.world.input stdin = [])
    (n fuel : Nat) :
    ∃ u, splitLoop sys t n (fuel + 1) s = .returned u ∧ u.world.output = s.world.output := by
  obtain ⟨w, took, taken⟩ := readBuffers_progress progress t stdin s.world room
  refine ⟨{ s with world := w }, ?_, taken.output⟩
  rw [splitLoop, took, none, List.take_nil]
  rfl

theorem splitLoop_splits (progress : sys.Progress) (some : 0 < n) (room : 0 < t)
    (aligned : Aligned t n (fun i => n - 1 - i) consumed.length s) (copied : Copied n consumed s)
    (left : s.world.input stdin = rest) (enough : rest.length < fuel) :
    (splitLoop sys t n fuel s).ended = true ∧
      ((∀ i < n, (splitLoop sys t n fuel s).state.world.output i =
        Deal.residue n i (consumed ++ rest)) ↔
        Drains sys t n (consumed ++ rest).length) := by
  induction fuel generalizing s consumed rest with
  | zero => omega
  | succ fuel ih =>
    obtain ⟨w, took, taken⟩ := readBuffers_progress progress t stdin s.world room
    unfold splitLoop
    rw [took, left]
    have loaded := aligned.load (w := w)
    have kept : Copied n consumed { s with world := w, offsetIn := 0 } :=
      ⟨copied.turn,
      fun i inside => by rw [← copied.held i inside, State.held, State.held, taken.output]⟩
    have after : w.input stdin = rest.drop t := by rw [taken.input, update_self, left]
    simp only [dealWhile_eq loaded.2.1 (Nat.le_add_left _ _), List.drop_zero]
    obtain rfl | more := eq_or_ne rest []
    · rw [if_neg (by simp)]
      refine ⟨rfl, ?_⟩
      rw [List.append_nil]
      exact loaded.ended kept
    · have positive := List.length_pos_iff.mpr more
      rw [if_pos (by rw [List.length_take]; omega)]
      obtain full | short := Nat.lt_or_ge rest.length t |>.symm
      · have length : (rest.take t).length = t := by rw [List.length_take]; omega
        rw [length]
        obtain ⟨u, done, input, held⟩ := flushFor_full progress room (List.range n)
          ((rest.take t).foldl (State.deal n) { s with world := w, offsetIn := 0 })
        rw [done]
        have next := loaded.full length (by rw [length]; exact done)
        have dealt := kept.foldl some (rest.take t)
        have again : Copied n (consumed ++ rest.take t) u :=
          ⟨(flushFor_ok done).2.1.trans dealt.turn,
          fun i inside => (held i).trans (dealt.held i inside)⟩
        have remaining : u.world.input stdin = rest.drop t := by
          rw [input, foldl_deal_world]
          exact after
        have whole : consumed ++ rest = consumed ++ rest.take t ++ rest.drop t := by
          rw [List.append_assoc, List.take_append_drop]
        rw [whole]
        refine ih ?_ again remaining (by rw [List.length_drop]; omega)
        rw [List.length_append, length]
        exact next
      · rw [List.take_of_length_le short.le]
        obtain ⟨u, done | done, drained⟩ :=
          flushFor_short progress short (List.range n) List.nodup_range
          (rest.foldl (State.deal n) { s with world := w, offsetIn := 0 })
        · rw [done]
          have empty : u.world.input stdin = [] := by
            rw [drained.input, foldl_deal_world]
            exact after.trans (List.drop_eq_nil_of_le short.le)
          obtain ⟨fuel, rfl⟩ : ∃ k, fuel = k + 1 := ⟨fuel - 1, by omega⟩
          obtain ⟨v, ended, output⟩ := splitLoop_end progress room empty n fuel
          simp only [ended, Outcome.state, output]
          exact ⟨rfl, drained.ended loaded kept short more⟩
        · rw [done]
          exact ⟨rfl, drained.ended loaded kept short more⟩

theorem share_last (n length : Nat) : share n (n - 1) length = length / n := by
  rw [share, Nat.sub_self, Nat.add_zero]

theorem share_first {length : Nat} (some : 0 < n) (uneven : ¬ n ∣ length) :
    share n 0 length = length / n + 1 := by
  have parts := Nat.div_add_mod length n
  have below := Nat.mod_lt length some
  have rest : length % n ≠ 0 := mt Nat.dvd_of_mod_eq_zero uneven
  rw [share]
  refine Nat.div_eq_of_lt_le ?_ ?_
  · rw [Nat.add_mul, Nat.mul_comm _ n]
    omega
  · rw [Nat.add_mul, Nat.add_mul, Nat.mul_comm _ n]
    omega

/-- After whole chunks nothing is left in the buffers when they are of one byte, or
every file has had the same number of whole buffers. -/
theorem all_share_iff {length : Nat} (some : 0 < n) :
    (∀ i < n, t ∣ share n i length) ↔ t = 1 ∨ n * t ∣ length := by
  constructor
  · intro all
    have last := share_last n length ▸ all (n - 1) (by omega)
    by_cases even : n ∣ length
    · right
      exact Nat.mul_dvd_of_dvd_div even last
    · left
      have first := share_first some even ▸ all 0 some
      exact Nat.dvd_one.mp ((Nat.dvd_add_iff_right last).mpr first)
  · rintro (rfl | ⟨k, rfl⟩) i inside
    · exact Nat.one_dvd _
    · rw [share, Nat.mul_assoc, Nat.mul_add_div some, Nat.div_eq_of_lt (by omega)]
      exact Nat.dvd_mul_right t k

theorem parse_accepts {options : List Opt} {t₀ : Int} {error : Bool} {t : Int}
    (accepted : parse options (t₀, error) = (t, false)) :
    error = false ∧ (t = t₀ ∨ 1 ≤ t ∧ t ≤ 1048576) := by
  induction options generalizing t₀ error with
  | nil =>
    cases accepted
    exact ⟨rfl, .inl rfl⟩
  | cons option rest ih =>
    cases option with
    | unknown => exact absurd (ih accepted).1 nofun
    | t value =>
      obtain ⟨fine, range⟩ := ih accepted
      simp only [Bool.or_eq_false_iff, decide_eq_false_iff_not] at fine
      refine ⟨fine.1.1, .inr ?_⟩
      obtain rfl | range := range
      · omega
      · exact range

/-- The files hold the bytes of their residues exactly when the last chunk leaves nothing behind. -/
theorem main_splits (progress : sys.Progress) {options : List Opt}
    (accepted : parse options (1024, false) = ((t : Int), false)) (atLeast : 1 ≤ n)
    (atMost : n ≤ 16) (w : World) : (main sys options n w).ended = true ∧
      ((∀ i < n, (main sys options n w).state.world.output i = Deal.residue n i (w.input stdin)) ↔
        Drains sys t n (w.input stdin).length) := by
  have room : 0 < t := by
    obtain same | range := (parse_accepts accepted).2 <;> omega
  have runs :
      main sys options n w = splitLoop sys t n ((w.input stdin).length + 1) (start sys n w) := by
    rw [main, accepted]
    simp only [Bool.false_or, Bool.or_eq_true, decide_eq_true_eq, Int.toNat_natCast]
    rw [if_neg (by omega)]
  have copied : Copied n [] (start sys n w) := by
    refine ⟨(Nat.zero_mod n).symm, fun i inside => ?_⟩
    simp [State.held, start, inside, filled]
  have splits := splitLoop_splits progress atLeast room (start_aligned atLeast) copied rfl
    (Nat.lt_succ_self (w.input stdin).length)
  rw [runs]
  exact splits

/-- The files hold the bytes of their residues exactly when the buffers hold one
byte, or the input is a whole number of periods, or it ends in a short chunk. In the
last case no empty buffer whose `num_written` happens to be -1 may come before one
with bytes in it. -/
theorem split_files_iff (progress : sys.Progress) {options : List Opt}
    (accepted : parse options (1024, false) = ((t : Int), false)) (atLeast : 1 ≤ n)
    (atMost : n ≤ 16) (w : World) : (main sys options n w).ended = true ∧
      ((∀ i < n, (main sys options n w).state.world.output i = Deal.residue n i (w.input stdin)) ↔
        t = 1 ∨ n * t ∣ (w.input stdin).length ∨ (¬ t ∣ (w.input stdin).length ∧
          ∀ i j, i < j → j < n → pending t n (w.input stdin).length i = 0 → sys.stale i = -1 →
            pending t n (w.input stdin).length j = 0)) := by
  obtain ⟨ended, splits⟩ := main_splits progress accepted atLeast atMost w
  refine ⟨ended, splits.trans ?_⟩
  rw [Drains]
  split
  · next chunks =>
    rw [all_share_iff atLeast]
    simp [chunks]
  · next ragged =>
    have : t ≠ 1 := fun one => ragged (one ▸ Nat.one_dvd _)
    have : ¬ n * t ∣ (w.input stdin).length :=
      fun periods => ragged (Nat.dvd_trans (Nat.dvd_mul_left t n) periods)
    simp [*]

/-- Three bytes in buffers of two end in a short chunk and are all written out. -/
theorem three_bytes_split :
    let sys : Sys := ⟨fun _ limit => limit, fun _ => 0, fun _ => 0⟩
    ∀ i < 2, (main sys [.t 2] 2 ⟨0, fun _ => [97, 98, 99], fun _ => []⟩).state.world.output i =
      Deal.residue 2 i [97, 98, 99] :=
  (split_files_iff (t := 2)
    (fun time limit => ⟨Int.natCast_nonneg limit, fun some => Int.natCast_pos.mpr some⟩) (by decide)
    (by decide) (by decide) ⟨0, fun _ => [97, 98, 99], fun _ => []⟩).2.mpr
    (.inr (.inr ⟨by decide, fun i j _ _ _ stale => absurd stale (show ¬ (0 : Int) = -1 by decide)⟩))

/-- Two bytes in buffers of two make a full chunk that fills neither buffer: the program
returns with both of them in memory. -/
theorem two_bytes_lost :
    let sys : Sys := ⟨fun _ limit => limit, fun _ => 0, fun _ => 0⟩
    let run := main sys [.t 2] 2 ⟨0, fun _ => [97, 98], fun _ => []⟩
    run.ended = true ∧ run.state.world.output 0 = [] ∧ run.state.world.output 1 = [] ∧
      Deal.residue 2 0 ([97, 98] : List UInt8) = [97] ∧
      Deal.residue 2 1 ([97, 98] : List UInt8) = [98] := by
  decide

end Aso.Posix.SplitFiles
