import Aso.Posix.Io
import Aso.RoundRobin
import Mathlib.Data.List.GetD

/-! merge_files.c: the bytes of the input files in turn. All input buffers are
refilled together; rounds of one byte per file go to an output buffer of `t` bytes,
which is written out after the round that brings it to `t` or more. -/
namespace Aso.Posix.MergeFiles
open Function World

/-- The variables of `main`. -/
structure State where
  world : World
  arrayBuff : Nat → List UInt8
  offset : Nat → Nat
  bytesBufferEntrada : Nat → Nat
  bufWrt : Nat → UInt8
  bufferOut : Nat
  /-- The index of every store of `write_buffer` so far. -/
  stores : List Nat

variable {sys : Sys} {t n fuel i : Nat} {s u : State}

def fdout : Nat := 1

/-- The `for` that refills the buffers of the listed files,
counting in `check` those that get nothing. -/
def readFor (sys : Sys) (t : Nat) : List Nat → Nat → State → Except State (Nat × State)
  | [], check, s => .ok (check, s)
  | i :: rest, check, s =>
    match readBuffers sys i t s.world with
    | .error w => .error { s with world := w }
    | .ok (bytes, w) =>
      readFor sys t rest (if bytes.length = 0 then check + 1 else check)
        { s with
          world := w
          arrayBuff := update s.arrayBuff i bytes
          bytesBufferEntrada := update s.bytesBufferEntrada i bytes.length }

/-- The `for` that sets the offsets of the buffers with bytes to 0. -/
def resetOffsets (n : Nat) (s : State) : State :=
  { s with offset := fun i => if i < n ∧ s.bytesBufferEntrada i ≠ 0 then 0 else s.offset i }

/-- A file with nothing left in its buffer. -/
def State.emptied (s : State) (i : Nat) : Bool :=
  s.offset i == s.bytesBufferEntrada i || s.bytesBufferEntrada i == 0

/-- `write_buffer`, which always stores one byte. -/
def writeBuffer (i : Nat) (s : State) : State :=
  { s with
    bufWrt := update s.bufWrt s.bufferOut ((s.arrayBuff i).getD (s.offset i) 0)
    stores := s.stores ++ [s.bufferOut] }

/-- One turn of the `for` of a round; the number is `check2`. -/
def mergeTurn : Nat × State → Nat → Nat × State
  | (check2, s), i =>
    if !s.emptied i then
      let s := writeBuffer i s
      (check2, { s with
        offset := update s.offset i (s.offset i + 1)
        bufferOut := s.bufferOut + 1 })
    else (check2 + 1, s)

/-- `while (buffer_out < t)`: rounds until the buffer has `t` bytes or all files are emptied. -/
def mergeWhile (t n : Nat) : Nat → State → Option State
  | 0, s => if s.bufferOut < t then none else some s
  | fuel + 1, s =>
    if s.bufferOut < t then
      let (check2, s) := (List.range n).foldl mergeTurn (0, s)
      if check2 = n then some s else mergeWhile t n fuel s
    else some s

/-- The `while` that empties the input buffers, one output buffer at a time. -/
def drainWhile (sys : Sys) (t n : Nat) : Nat → State → Outcome State
  | 0, s => .running s
  | fuel + 1, s =>
    let s := { s with bufWrt := sys.junk }
    if ((List.range n).filter s.emptied).length = n then .returned s
    else
      match mergeWhile t n t { s with bufferOut := 0 } with
      | none => .running s
      | some s =>
        match bufferToFdout sys s.bufWrt fdout s.bufferOut s.world with
        | .error w => .exited { s with world := w }
        | .ok w => drainWhile sys t n fuel { s with world := w }

/-- The outer `while`, one refill of the buffers a turn. -/
def mergeLoop (sys : Sys) (t n : Nat) : Nat → State → Outcome State
  | 0, s => .running s
  | fuel + 1, s =>
    match readFor sys t (List.range n) 0 s with
    | .error s => .exited s
    | .ok (check, s) =>
      if check = n then .returned s
      else
        match drainWhile sys t n (t + 1) (resetOffsets n s) with
        | .running s => .running s
        | .exited s => .exited s
        | .returned s => mergeLoop sys t n fuel s

def start (sys : Sys) (w : World) : State where
  world := w
  arrayBuff := fun _ => []
  offset := fun _ => 0
  bytesBufferEntrada := fun _ => 0
  bufWrt := sys.junk
  bufferOut := 0
  stores := []

/-- What `getopt` finds on the command line. -/
inductive Opt where
  | t (value : Int)
  | o
  | other

/-- The `while` over the options: the buffer size and
`error_flag`, or `exit` at an option that is neither. -/
def parse : List Opt → Int × Bool → Option (Int × Bool)
  | [], flags => some flags
  | .t value :: rest, (_, error) => parse rest (value, error || value < 1 || 134217728 < value)
  | .o :: rest, flags => parse rest flags
  | .other :: _, _ => none

/-- The files open, and `out` already sent to the output. -/
def opened (files : List (List UInt8)) (out : List UInt8) : World :=
  ⟨0, fun i => files.getD i [], fun _ => out⟩

/-- The merge of open files. A refill takes at least one
byte, which bounds the turns of the loop. -/
def merge (sys : Sys) (t : Nat) (files : List (List UInt8)) (out : List UInt8) : Outcome State :=
  mergeLoop sys t files.length (files.flatten.length + 1) (start sys (opened files out))

/-- `main` on the named files, `none` for a name that does not exist. -/
def main (sys : Sys) (options : List Opt) (names : List (Option (List UInt8))) (out : List UInt8) :
    Outcome State :=
  let files := names.filterMap id
  match parse options (1024, false) with
  | none => .exited (start sys (opened files out))
  | some (t, error) =>
    if error || options.length + names.length = 0 || 16 < names.length
      then .returned (start sys (opened files out))
    else merge sys t.toNat files out

open RoundRobin

/-- What is in the buffers of the first `n` files. -/
def State.buffers (s : State) (n : Nat) : List (List UInt8) := (List.range n).map s.arrayBuff

/-- Between two rounds of one refill: `r` bytes of each buffer, or all it has, are taken. -/
structure At (n r : Nat) (s : State) : Prop where
  bytes : ∀ i < n, s.bytesBufferEntrada i = (s.arrayBuff i).length
  offset : ∀ i < n, s.bytesBufferEntrada i ≠ 0 → s.offset i = min r (s.bytesBufferEntrada i)

variable {r : Nat}

theorem At.emptied_iff (at_ : At n r s) (inside : i < n) :
    s.emptied i = true ↔ (s.arrayBuff i).length ≤ r := by
  have length := at_.bytes i inside
  have offset := at_.offset i inside
  rw [State.emptied, Bool.or_eq_true, beq_iff_eq, beq_iff_eq]
  omega

/-- The round so far, after the turns of the first `j` files. -/
structure Turned (r j : Nat) (s : State) (check2 : Nat) (u : State) : Prop where
  world : u.world = s.world
  arrayBuff : u.arrayBuff = s.arrayBuff
  bytes : u.bytesBufferEntrada = s.bytesBufferEntrada
  offset : ∀ i, u.offset i = if i < j ∧ r < (s.arrayBuff i).length then s.offset i + 1
    else s.offset i
  taken : filled u.bufWrt u.bufferOut = filled s.bufWrt s.bufferOut ++ roundOf (s.buffers j) r
  bufferOut : u.bufferOut = s.bufferOut + (roundOf (s.buffers j) r).length
  stores : u.stores = s.stores ++ List.range' s.bufferOut (roundOf (s.buffers j) r).length
  check2 : check2 + (roundOf (s.buffers j) r).length = j

theorem round_buffers_succ (s : State) (j r : Nat) :
    roundOf (s.buffers (j + 1)) r = roundOf (s.buffers j) r ++ (s.arrayBuff j)[r]?.toList := by
  have split : s.buffers (j + 1) = s.buffers j ++ [s.arrayBuff j] := by
    rw [State.buffers, List.range_succ, List.map_append]
    rfl
  rw [split, roundOf, List.filterMap_append]
  cases got : (s.arrayBuff j)[r]? <;> simp [got, roundOf]

theorem mergeTurn_emptied {check2 : Nat} (done : s.emptied i = true) :
    mergeTurn (check2, s) i = (check2 + 1, s) := by
  simp [mergeTurn, done]

theorem mergeTurn_more {check2 : Nat} (more : s.emptied i = false) :
    mergeTurn (check2, s) i = (check2, { s with
      bufWrt := update s.bufWrt s.bufferOut ((s.arrayBuff i).getD (s.offset i) 0)
      stores := s.stores ++ [s.bufferOut]
      offset := update s.offset i (s.offset i + 1)
      bufferOut := s.bufferOut + 1 }) := by
  simp [mergeTurn, more, writeBuffer]

theorem Turned.skip {j check2 : Nat} (turned : Turned r j s check2 u)
    (short : (s.arrayBuff j).length ≤ r) : Turned r (j + 1) s (check2 + 1) u := by
  have still : roundOf (s.buffers (j + 1)) r = roundOf (s.buffers j) r := by
    rw [round_buffers_succ, List.getElem?_eq_none short]
    simp
  refine ⟨turned.world, turned.arrayBuff, turned.bytes, fun i => ?_, still ▸ turned.taken,
    still ▸ turned.bufferOut, still ▸ turned.stores, ?_⟩
  · rw [turned.offset]
    by_cases self : i = j
    · rw [self, if_neg (by omega), if_neg (by omega)]
    · simp only [Nat.lt_succ_iff_lt_or_eq, self, or_false]
  · have counted := turned.check2
    rw [still]
    omega

theorem Turned.move {j check2 : Nat} (turned : Turned r j s check2 u)
    (more : r < (s.arrayBuff j).length) (here : u.offset j = r) :
    Turned r (j + 1) s check2 { u with
      bufWrt := update u.bufWrt u.bufferOut ((u.arrayBuff j).getD (u.offset j) 0)
      stores := u.stores ++ [u.bufferOut]
      offset := update u.offset j (u.offset j + 1)
      bufferOut := u.bufferOut + 1 } := by
  have got : (s.arrayBuff j)[r]? = some (s.arrayBuff j)[r] := List.getElem?_eq_getElem more
  have grown : roundOf (s.buffers (j + 1)) r = roundOf (s.buffers j) r ++ [(s.arrayBuff j)[r]] := by
    rw [round_buffers_succ, got]
    rfl
  have length : (roundOf (s.buffers (j + 1)) r).length = (roundOf (s.buffers j) r).length + 1 := by
    rw [grown, List.length_append, List.length_singleton]
  refine ⟨turned.world, turned.arrayBuff, turned.bytes, fun i => ?_, ?_, ?_, ?_, ?_⟩
  · by_cases self : i = j
    · subst i
      show update u.offset j (u.offset j + 1) j = _
      rw [update_self, if_pos ⟨Nat.lt_succ_self j, more⟩, turned.offset, if_neg (by omega)]
    · show update u.offset j (u.offset j + 1) i = _
      rw [update_of_ne self, turned.offset]
      simp only [Nat.lt_succ_iff_lt_or_eq, self, or_false]
  · show filled (update u.bufWrt u.bufferOut ((u.arrayBuff j).getD (u.offset j) 0))
        (u.bufferOut + 1) = _
    rw [filled_succ, filled_store (Nat.le_refl _), update_self, turned.taken, grown,
      List.append_assoc, turned.arrayBuff, here, List.getD_eq_getElem _ _ more]
  · show u.bufferOut + 1 = _
    rw [length, turned.bufferOut, Nat.add_assoc]
  · show u.stores ++ [u.bufferOut] = _
    rw [length, turned.stores, turned.bufferOut, List.range'_concat, List.append_assoc, Nat.one_mul]
  · rw [length, ← Nat.add_assoc, turned.check2]

/-- One round, by induction on the files that have had their turn. -/
theorem At.turned (at_ : At n r s) {j : Nat} (bound : j ≤ n) :
    Turned r j s ((List.range j).foldl mergeTurn (0, s)).1
      ((List.range j).foldl mergeTurn (0, s)).2 := by
  induction j with
  | zero =>
    exact ⟨rfl, rfl, rfl, fun i => by simp, by simp [State.buffers,
      roundOf], rfl, by simp [State.buffers, roundOf], rfl⟩
  | succ j ih =>
    have before := ih (by omega)
    rw [List.range_succ, List.foldl_append, List.foldl_cons, List.foldl_nil]
    generalize (List.range j).foldl mergeTurn (0, s) = c at before
    obtain ⟨check2, u⟩ := c
    have offset : u.offset j = s.offset j := by rw [before.offset, if_neg (by omega)]
    have same : u.emptied j = s.emptied j := by
      rw [State.emptied, State.emptied, before.bytes, offset]
    have emptied := at_.emptied_iff (show j < n by omega)
    by_cases done : s.emptied j = true
    · rw [mergeTurn_emptied (same.trans done)]
      exact before.skip (emptied.mp done)
    · have more : r < (s.arrayBuff j).length := by
        by_contra less
        exact done (emptied.mpr (by omega))
      rw [mergeTurn_more (same.trans (Bool.not_eq_true _ ▸ done))]
      refine before.move more ?_
      have := at_.bytes j (by omega)
      rw [offset, at_.offset j (by omega) (by omega)]
      omega

theorem At.next {check2 : Nat} (at_ : At n r s) (turned : Turned r n s check2 u) :
    At n (r + 1) u := by
  refine ⟨fun i inside => ?_, fun i inside some => ?_⟩
  · rw [turned.bytes, turned.arrayBuff]
    exact at_.bytes i inside
  · rw [turned.bytes] at some ⊢
    have := at_.bytes i inside
    have := at_.offset i inside some
    rw [turned.offset]
    split <;> omega

/-- The stores of the first `r` rounds of a refill. -/
def storesOf (t : Nat) (bufs : List (List UInt8)) (r : Nat) : List Nat :=
  (List.range r).flatMap fun q => List.range' (fill t (active bufs) q) (active bufs q)

theorem storesOf_succ (t : Nat) (bufs : List (List UInt8)) (r : Nat) :
    storesOf t bufs (r + 1) = storesOf t bufs r ++ List.range' (fill t (active bufs) r)
      (active bufs r) := by
  simp [storesOf, List.range_succ]

/-- `r` rounds into a refill of the buffers with `bufs`, from a state with `before`
stored and `out` written. -/
structure Draining (t n : Nat) (before : State) (bufs : List (List UInt8)) (r : Nat)
    (s : State) : Prop where
  place : At n r s
  holds : s.buffers n = bufs
  input : s.world.input = before.world.input
  output : s.world.output fdout ++ filled s.bufWrt s.bufferOut =
    before.world.output fdout ++ merged bufs r
  stores : s.stores = before.stores ++ storesOf t bufs r
  /-- The buffer is as full as it should be, or full and about to be written out. -/
  level : s.bufferOut = fill t (active bufs) r ∨ t ≤ s.bufferOut ∧ fill t (active bufs) r = 0

variable {before : State} {bufs : List (List UInt8)}

theorem Draining.step {check2 : Nat} (draining : Draining t n before bufs r s)
    (open_ : s.bufferOut < t) (turned : Turned r n s check2 u) :
    Draining t n before bufs (r + 1) u := by
  have level : s.bufferOut = fill t (active bufs) r := by
    have := draining.level
    omega
  have taken := turned.taken
  have bufferOut := turned.bufferOut
  have stores := turned.stores
  rw [draining.holds] at taken bufferOut stores
  rw [length_round] at bufferOut stores
  refine ⟨draining.place.next turned, ?_, ?_, ?_, ?_, ?_⟩
  · rw [← draining.holds, State.buffers, State.buffers, turned.arrayBuff]
  · rw [turned.world]
    exact draining.input
  · rw [turned.world, taken, ← List.append_assoc, draining.output, merged_succ, List.append_assoc]
  · rw [stores, draining.stores, storesOf_succ, level, List.append_assoc]
  · rw [fill, ← level, ← bufferOut]
    split
    · exact .inr ⟨‹_›, rfl⟩
    · exact .inl rfl

/-- The rounds up to one output buffer. Unless nothing is left
there is a round, and it stores something. -/
theorem mergeWhile_draining (fuel : Nat) (draining : Draining t n before bufs r s)
    (enough : t ≤ s.bufferOut + fuel) :
    ∃ u q, mergeWhile t n fuel s = some u ∧ Draining t n before bufs q u ∧ r ≤ q ∧
      s.bufferOut ≤ u.bufferOut ∧
      (t ≤ u.bufferOut ∨ roundOf bufs q = []) ∧
      (s.bufferOut < t → roundOf bufs r ≠ [] → r < q ∧ s.bufferOut < u.bufferOut) := by
  induction fuel generalizing r s with
  | zero =>
    exact ⟨s, r, by rw [mergeWhile,
      if_neg (by omega)], draining, Nat.le_refl _, Nat.le_refl _, .inl (by omega), by omega⟩
  | succ fuel ih =>
    unfold mergeWhile
    split
    · next open_ =>
      have turned := draining.place.turned (Nat.le_refl n)
      have next := draining.step open_ turned
      generalize (List.range n).foldl mergeTurn (0, s) = c at turned next
      obtain ⟨check2, u⟩ := c
      have counted := turned.check2
      have grown := turned.bufferOut
      rw [draining.holds] at counted grown
      dsimp only at counted grown next ⊢
      split
      · next all =>
        have none : roundOf bufs r = [] := List.length_eq_zero_iff.mp (by omega)
        refine ⟨u, r + 1, rfl, next, by omega, by omega, .inr ?_, fun _ some => absurd none some⟩
        rw [round_eq_nil_iff] at none ⊢
        exact fun file member => Nat.le_succ_of_le (none file member)
      · next some =>
        obtain ⟨v, q, done, last, later, more, ends, -⟩ := ih next (by omega)
        exact ⟨v, q, done, last, by omega, by omega, ends, fun _ _ => by omega⟩
    · exact ⟨s, r, rfl, draining, Nat.le_refl _, Nat.le_refl _, .inl (by omega), by omega⟩

theorem At.all_emptied_iff (at_ : At n r s) :
    ((List.range n).filter s.emptied).length = n ↔ roundOf (s.buffers n) r = [] := by
  have full : ((List.range n).filter s.emptied).length = (List.range n).length ↔ _ :=
    List.length_filter_eq_length_iff
  rw [List.length_range] at full
  rw [full, round_eq_nil_iff, State.buffers, List.forall_mem_map]
  exact forall₂_congr fun i inside => at_.emptied_iff (List.mem_range.mp inside)

/-- The same with the output buffer written out. -/
structure Settled (t n : Nat) (before : State) (bufs : List (List UInt8)) (r : Nat)
    (s : State) : Prop where
  place : At n r s
  holds : s.buffers n = bufs
  input : s.world.input = before.world.input
  output : s.world.output fdout = before.world.output fdout ++ merged bufs r
  stores : s.stores = before.stores ++ storesOf t bufs r
  level : fill t (active bufs) r = 0 ∨ roundOf bufs r = []

theorem Settled.reopen (settled : Settled t n before bufs r s) (junk : Nat → UInt8)
    (more : roundOf bufs r ≠ []) :
    Draining t n before bufs r { s with bufWrt := junk, bufferOut := 0 } :=
  ⟨⟨settled.place.bytes, settled.place.offset⟩, settled.holds, settled.input,
    (List.append_nil _).trans settled.output, settled.stores,
    .inl (settled.level.resolve_right more).symm⟩

theorem Draining.settle {w : World} (draining : Draining t n before bufs r s)
    (input : w.input = s.world.input)
    (output : w.output fdout = s.world.output fdout ++ filled s.bufWrt s.bufferOut)
    (ends : t ≤ s.bufferOut ∨ roundOf bufs r = []) (room : 0 < t) :
    Settled t n before bufs r { s with world := w } := by
  refine ⟨⟨draining.place.bytes, draining.place.offset⟩, draining.holds, input.trans draining.input,
    output.trans draining.output, draining.stores, ?_⟩
  have := fill_lt room (active bufs) r
  obtain full | none := ends
  · have := draining.level
    exact .inl (by omega)
  · exact .inr none

theorem drainWhile_settled (fuel : Nat) (progress : sys.Progress) (room : 0 < t)
    (short : ∀ file ∈ bufs, file.length ≤ t) (settled : Settled t n before bufs r s)
    (enough : t < r + fuel) (some : 0 < fuel) :
    ∃ u q, drainWhile sys t n fuel s = .returned u ∧ Settled t n before bufs q u ∧
      roundOf bufs q = [] := by
  induction fuel generalizing r s with
  | zero => omega
  | succ fuel ih =>
    have emptied := settled.place.all_emptied_iff
    rw [settled.holds] at emptied
    unfold drainWhile
    dsimp only
    have same : (State.emptied { s with bufWrt := sys.junk }) = s.emptied := rfl
    rw [same]
    by_cases none : roundOf bufs r = []
    · rw [if_pos (emptied.mpr none)]
      exact ⟨_, r, rfl,
        ⟨⟨settled.place.bytes, settled.place.offset⟩, settled.holds, settled.input, settled.output,
        settled.stores, settled.level⟩, none⟩
    · rw [if_neg (mt emptied.mp none)]
      have inside : r < t := by
        by_contra past
        exact none (round_eq_nil_iff.mpr fun file member => Nat.le_trans (short file member)
          (Nat.le_of_not_lt past))
      obtain ⟨u, q, done, draining, -, -, ends, moved⟩ :=
        mergeWhile_draining t (settled.reopen sys.junk none) (by simp)
      obtain ⟨later, stored⟩ := moved room none
      obtain ⟨w, written, put⟩ :=
        bufferToFdout_progress progress u.bufWrt fdout u.world (Nat.zero_lt_of_lt stored)
      rw [done]
      dsimp only
      rw [written]
      refine ih (draining.settle put.input ?_ ends room) (by omega) (by omega)
      rw [put.output, update_self]

/-- The buffers of the listed files refilled. -/
structure Refilled (t : Nat) (files : List Nat) (s u : State) : Prop where
  arrayBuff : ∀ i ∈ files, u.arrayBuff i = (s.world.input i).take t
  bytes : ∀ i ∈ files, u.bytesBufferEntrada i = (u.arrayBuff i).length
  input : ∀ i ∈ files, u.world.input i = (s.world.input i).drop t
  others : ∀ i, i ∉ files →
    u.arrayBuff i = s.arrayBuff i ∧ u.bytesBufferEntrada i = s.bytesBufferEntrada i ∧
    u.world.input i = s.world.input i
  output : u.world.output = s.world.output
  stores : u.stores = s.stores

theorem readFor_refilled (progress : sys.Progress) (room : 0 < t) (files : List Nat)
    (once : files.Nodup) (check : Nat) (s : State) :
    ∃ u, readFor sys t files check s =
      .ok (check + (files.filter fun i => s.world.input i = []).length, u) ∧
      Refilled t files s u := by
  induction files generalizing check s with
  | nil => exact ⟨s, rfl, nofun, nofun, nofun, fun _ _ => ⟨rfl, rfl, rfl⟩, rfl, rfl⟩
  | cons f rest ih =>
    obtain ⟨fresh, once⟩ := List.nodup_cons.mp once
    obtain ⟨w, took, taken⟩ := readBuffers_progress progress t f s.world room
    have kept {i : Nat} (other : i ≠ f) :
        w.input i = s.world.input i := by rw [taken.input, update_of_ne other]
    have apart {i : Nat} (member : i ∈ rest) : i ≠ f := fun self => fresh (self ▸ member)
    unfold readFor
    rw [took]
    dsimp only
    obtain ⟨u, done, refilled⟩ :=
      ih once (if ((s.world.input f).take t).length = 0 then check + 1 else check)
      { s with
        world := w
        arrayBuff := update s.arrayBuff f ((s.world.input f).take t)
        bytesBufferEntrada := update s.bytesBufferEntrada f ((s.world.input f).take t).length }
    obtain ⟨hereBuff, hereBytes, hereInput⟩ := refilled.others f fresh
    dsimp only at hereBuff hereBytes hereInput
    rw [update_self] at hereBuff hereBytes
    refine ⟨u, ?_, List.forall_mem_cons.mpr ⟨hereBuff, fun i member => ?_⟩,
      List.forall_mem_cons.mpr ⟨?_, refilled.bytes⟩, List.forall_mem_cons.mpr ⟨?_,
      fun i member => ?_⟩, fun i outside => ?_, refilled.output.trans taken.output, refilled.stores⟩
    · rw [done]
      have empty : ((s.world.input f).take t).length = 0 ↔ s.world.input f = [] := by
        rw [List.length_eq_zero_iff, List.take_eq_nil_iff]
        exact or_iff_right (Nat.ne_of_gt room)
      have others :
          (rest.filter fun i => w.input i = []) = rest.filter fun i => s.world.input i = [] :=
        List.filter_congr fun i member => by rw [kept (apart member)]
      rw [others]
      by_cases nothing : s.world.input f = []
      · rw [if_pos (empty.mpr nothing), List.filter_cons_of_pos (by simpa using nothing),
          List.length_cons, Nat.add_assoc, Nat.add_comm 1]
      · rw [if_neg (mt empty.mp nothing), List.filter_cons_of_neg (by simpa using nothing)]
    · rw [refilled.arrayBuff i member, kept (apart member)]
    · rw [hereBytes, hereBuff]
    · rw [hereInput, taken.input, update_self]
    · rw [refilled.input i member, kept (apart member)]
    · rw [List.mem_cons, not_or] at outside
      obtain ⟨buff, bytes, input⟩ := refilled.others i outside.2
      refine ⟨buff.trans (update_of_ne outside.1 ..), bytes.trans (update_of_ne outside.1 ..),
        input.trans (kept outside.1)⟩

/-- The files as they stand: what is left of each. -/
def State.remaining (s : State) (n : Nat) : List (List UInt8) := (List.range n).map s.world.input

theorem Refilled.settled (refilled : Refilled t (List.range n) s u) :
    Settled t n u (s.remaining n |>.map (·.take t)) 0 (resetOffsets n u) := by
  refine ⟨⟨fun i inside => refilled.bytes i (List.mem_range.mpr inside), fun i inside some => ?_⟩,
    ?_, rfl, ?_, ?_, .inl rfl⟩
  · rw [Nat.zero_min]
    exact if_pos ⟨inside, some⟩
  · rw [State.remaining, List.map_map]
    exact List.map_congr_left fun i member => refilled.arrayBuff i member
  · exact (List.append_nil _).symm
  · exact (List.append_nil _).symm

theorem Refilled.remaining (refilled : Refilled t (List.range n) s u) :
    u.remaining n = (s.remaining n).map (·.drop t) := by
  rw [State.remaining, State.remaining, List.map_map]
  exact List.map_congr_left fun i member => refilled.input i member

/-- Whether each round of each refill fits in what is left of the output buffer. -/
def Fits (t : Nat) (files : List (List UInt8)) : Prop :=
  ∀ k q, fill t (active (files.map fun file => (file.drop (k * t)).take t)) q +
    active (files.map fun file => (file.drop (k * t)).take t) q ≤ t

theorem storesOf_lt_iff {q : Nat} (room : 0 < t) (done : roundOf bufs q = []) :
    (∀ k ∈ storesOf t bufs q, k < t) ↔ ∀ r, fill t (active bufs) r + active bufs r ≤ t := by
  have below := fill_lt room (active bufs)
  simp only [storesOf, List.mem_flatMap, List.mem_range, List.mem_range'_1]
  constructor
  · intro stores r
    by_cases early : r < q
    · by_contra past
      have := stores (fill t (active bufs) r + active bufs r - 1)
        ⟨r, early, by have := below r; omega⟩
      omega
    · have none : roundOf bufs r = [] :=
        round_eq_nil_iff.mpr
        fun file member => Nat.le_trans (round_eq_nil_iff.mp done file member) (by omega)
      have := below r
      rw [← length_round, none]
      exact Nat.le_of_lt this
  · rintro fits k ⟨r, -, stored⟩
    have := fits r
    omega

theorem fits_step (files : List (List UInt8)) : Fits t files ↔
    (∀ q, fill t (active (files.map (·.take t))) q + active (files.map (·.take t)) q ≤ t) ∧
      Fits t (files.map (·.drop t)) := by
  have first : (files.map fun file => (file.drop (0 * t)).take t) = files.map (·.take t) := by simp
  have later (k : Nat) : (files.map fun file => (file.drop ((k + 1) * t)).take t) =
      (files.map (·.drop t)).map fun file => (file.drop (k * t)).take t := by
    rw [List.map_map]
    refine List.map_congr_left fun file _ => ?_
    rw [Function.comp, List.drop_drop, Nat.succ_mul, Nat.add_comm]
  constructor
  · intro fits
    exact ⟨first ▸ fits 0, fun k => later k ▸ fits (k + 1)⟩
  · rintro ⟨here, rest⟩ (_ | k)
    · exact first ▸ here
    · exact later k ▸ rest k

theorem flatten_drop_lt {files : List (List UInt8)} (room : 0 < t)
    (some : ¬ ∀ file ∈ files, file.length ≤ 0) :
    (files.map (·.drop t)).flatten.length < files.flatten.length := by
  have least (files : List (List UInt8)) :
      (files.map (·.drop t)).flatten.length ≤ files.flatten.length := by
    induction files with
    | nil => exact Nat.le_refl _
    | cons file rest ih =>
      simp only [List.map_cons, List.flatten_cons, List.length_append, List.length_drop]
      omega
  induction files with
  | nil => exact absurd nofun some
  | cons file rest ih =>
    have := least rest
    simp only [List.map_cons, List.flatten_cons, List.length_append, List.length_drop]
    by_cases empty : file.length = 0
    · have := ih fun all => some (List.forall_mem_cons.mpr ⟨Nat.le_of_eq empty, all⟩)
      omega
    · omega

theorem mergeLoop_merges (n fuel : Nat) (s : State) (progress : sys.Progress) (room : 0 < t)
    (enough : (s.remaining n).flatten.length < fuel) : ∃ u, mergeLoop sys t n fuel s = .returned u ∧
      u.world.output fdout = s.world.output fdout ++ roundRobin (s.remaining n) ∧
      ((∀ k ∈ u.stores, k < t) ↔ (∀ k ∈ s.stores, k < t) ∧ Fits t (s.remaining n)) := by
  induction fuel generalizing s with
  | zero => omega
  | succ fuel ih =>
    obtain ⟨u, done, refilled⟩ := readFor_refilled progress room (List.range n) List.nodup_range 0 s
    unfold mergeLoop
    rw [done]
    dsimp only
    have ended : 0 + ((List.range n).filter fun i => s.world.input i = []).length = n ↔
        ∀ file ∈ s.remaining n, file.length ≤ 0 := by
      have full :
          ((List.range n).filter fun i => s.world.input i = []).length = (List.range n).length ↔
          _ :=
        List.length_filter_eq_length_iff
      rw [List.length_range] at full
      rw [Nat.zero_add, full, State.remaining, List.forall_mem_map]
      simp
    by_cases none : ∀ file ∈ s.remaining n, file.length ≤ 0
    · rw [if_pos (ended.mpr none)]
      have nothing : roundRobin (s.remaining n) = [] := (merged_eq none).symm
      refine ⟨u, rfl, by rw [refilled.output, nothing, List.append_nil], ?_⟩
      rw [refilled.stores, and_iff_left]
      intro k q
      have still : roundOf ((s.remaining n).map fun file => (file.drop (k * t)).take t) q = [] := by
        rw [round_eq_nil_iff, List.forall_mem_map]
        intro file member
        have := none file member
        rw [List.length_take, List.length_drop]
        omega
      rw [← length_round, still]
      exact Nat.le_of_lt (fill_lt room _ q)
    · rw [if_neg (mt ended.mp none)]
      have short : ∀ file ∈ (s.remaining n).map (·.take t), file.length ≤ t := by
        rw [List.forall_mem_map]
        intro file _
        rw [List.length_take]
        omega
      obtain ⟨v, q, drained, settled, finished⟩ :=
        drainWhile_settled (t + 1) progress room short refilled.settled (by omega) (by omega)
      have left : v.remaining n = (s.remaining n).map (·.drop t) := by
        rw [← refilled.remaining, State.remaining, State.remaining, settled.input]
      have fewer : (v.remaining n).flatten.length < fuel := by
        have := flatten_drop_lt room none
        rw [left]
        omega
      obtain ⟨last, returned, output, stores⟩ := ih v fewer
      rw [drained]
      refine ⟨last, returned, ?_, ?_⟩
      · rw [output, settled.output, left, merged_eq (round_eq_nil_iff.mp finished), refilled.output,
          List.append_assoc, ← roundRobin_take_drop]
      · rw [fits_step (s.remaining n), stores, settled.stores, List.forall_mem_append,
          storesOf_lt_iff room finished, left, refilled.stores, and_assoc]

theorem opened_remaining (sys : Sys) (files : List (List UInt8)) (out : List UInt8) :
    (start sys (opened files out)).remaining files.length = files := by
  refine List.ext_getElem (by simp [State.remaining]) fun i inside _ => ?_
  have bound : i < files.length := by simpa [State.remaining] using inside
  simp only [State.remaining, List.getElem_map, List.getElem_range]
  exact List.getD_eq_getElem _ _ bound

/-- What the merge sends to the output and where it stores, for any files and any buffer size. -/
theorem merge_returns (progress : sys.Progress) (room : 1 ≤ t) (files : List (List UInt8))
    (out : List UInt8) :
    ∃ u, merge sys t files out = .returned u ∧ u.world.output fdout = out ++ roundRobin files ∧
      ((∀ k ∈ u.stores, k < t) ↔ Fits t files) := by
  obtain ⟨u, done, output, stores⟩ := mergeLoop_merges files.length (files.flatten.length + 1)
    (start sys (opened files out)) progress room (by rw [opened_remaining]; omega)
  rw [opened_remaining] at output stores
  refine ⟨u, done, output, stores.trans ?_⟩
  simp [start]

theorem parse_accepts {options : List Opt} {t₀ t : Int} {error : Bool}
    (start : error = false → 1 ≤ t₀) (accepted : parse options (t₀, error) = some (t, false)) :
    1 ≤ t := by
  induction options generalizing t₀ error with
  | nil =>
    cases accepted
    exact start rfl
  | cons option rest ih =>
    cases option with
    | t value =>
      refine ih (fun fine => ?_) accepted
      simp only [Bool.or_eq_false_iff, decide_eq_false_iff_not] at fine
      omega
    | o => exact ih start accepted
    | other => cases accepted

/-- On an accepted command line `main` merges the files that exist. -/
theorem main_eq (sys : Sys) {options : List Opt} {names : List (Option (List UInt8))}
    (out : List UInt8) (accepted : parse options (1024, false) = some ((t : Int), false))
    (given : options.length + names.length ≠ 0) (few : names.length ≤ 16) :
    main sys options names out = merge sys t (names.filterMap id) out := by
  rw [main, accepted]
  dsimp only
  rw [if_neg (by simp only [Bool.false_or, Bool.or_eq_true, decide_eq_true_eq]; omega)]
  rfl

/-- The output is the round-robin merge of the files, whatever the buffer size. -/
theorem merge_files_merges (progress : sys.Progress) (room : 1 ≤ t) (files : List (List UInt8))
    (out : List UInt8) :
    (∃ u, merge sys t files out = .returned u ∧ u.world.output fdout = out ++ roundRobin files) ∧
      ∀ options, parse options (1024, false) = some ((t : Int), false) →
      options.length + files.length ≠ 0 →
        files.length ≤ 16 → main sys options (files.map some) out = merge sys t files out := by
  obtain ⟨u, done, output, -⟩ := merge_returns progress room files out
  refine ⟨⟨u, done, output⟩, fun options accepted given few => ?_⟩
  rw [main_eq sys out accepted (by rwa [List.length_map]) (by rwa [List.length_map])]
  simp

theorem two_files_merged :
    let sys : Sys := ⟨fun _ limit => limit, fun _ => 0, fun _ => 0⟩
    ∃ u, merge sys 2 [[1, 2, 3], [4]] [] = .returned u ∧
      u.world.output fdout = [] ++ roundRobin [[1, 2, 3], [4]] ∧
      roundRobin [[1, 2, 3], [4]] = ([1, 4, 2, 3] : List UInt8) := by
  intro sys
  have progress : sys.Progress :=
    fun time limit => ⟨Int.natCast_nonneg limit, fun some => Int.natCast_pos.mpr some⟩
  obtain ⟨⟨u, done, output⟩, -⟩ :=
    merge_files_merges (t := 2) progress (by decide) [[1, 2, 3], [4]] []
  exact ⟨u, done, output, by decide⟩

theorem active_piece (files : List (List UInt8)) (t k : Nat) {q : Nat} (inside : q < t) :
    active (files.map fun file => (file.drop (k * t)).take t) q = active files (k * t + q) := by
  rw [active, active, List.countP_map]
  refine List.countP_congr fun file _ => ?_
  simp only [Function.comp, List.length_take, List.length_drop, decide_eq_true_eq]
  omega

/-- Each round of a refill fits when what the rounds before it leave past the last full
buffer, and one byte of each file that is long enough, are at most a buffer. -/
theorem fits_iff (room : 1 ≤ t) (files : List (List UInt8)) : Fits t files ↔
    ∀ k q, q < t → ((List.range q).map fun p => active files (k * t + p)).sum % t + active files
      (k * t + q) ≤ t := by
  refine forall_congr' fun k => ?_
  have all : (∀ q, fill t (active (files.map fun file => (file.drop (k * t)).take t)) q +
      active (files.map fun file => (file.drop (k * t)).take t) q ≤ t) ↔
      ∀ q, ((List.range q).map (active (files.map fun file => (file.drop (k * t)).take t))).sum %
        t +
        active (files.map fun file => (file.drop (k * t)).take t) q ≤ t :=
    ⟨fun fits q => fill_inside_iff.mp (fun p _ => fits p) q (Nat.lt_succ_self q),
      fun fits q => fill_inside_iff.mpr (fun p _ => fits p) q (Nat.lt_succ_self q)⟩
  rw [all]
  refine forall_congr' fun q => ?_
  by_cases inside : q < t
  · have sums : (List.range q).map (active (files.map fun file => (file.drop (k * t)).take t)) =
        (List.range q).map fun p => active files (k * t + p) :=
      List.map_congr_left
        fun p member => active_piece files t k (by have := List.mem_range.mp member; omega)
    rw [sums, active_piece files t k inside]
    simp [inside]
  · have none : active (files.map fun file => (file.drop (k * t)).take t) q = 0 := by
      rw [← length_round, List.length_eq_zero_iff, round_eq_nil_iff, List.forall_mem_map]
      intro file _
      rw [List.length_take]
      omega
    rw [none]
    simp only [inside, false_implies, iff_true]
    exact Nat.le_of_lt (Nat.mod_lt _ room)

/-- Every store is inside the output buffer exactly when, in each refill, each round
fits in what the rounds before it leave of the buffer. -/
theorem write_buffer_inside_iff (progress : sys.Progress) {options : List Opt}
    (accepted : parse options (1024, false) = some ((t : Int), false)) (files : List (List UInt8))
    (atLeast : 1 ≤ files.length) (atMost : files.length ≤ 16) (out : List UInt8) :
    (∀ k ∈ (main sys options (files.map some) out).state.stores, k < t) ↔
      ∀ k q, q < t → ((List.range q).map fun p => active files (k * t + p)).sum % t + active files
      (k * t + q) ≤ t := by
  have room : 1 ≤ t := by exact_mod_cast parse_accepts (fun _ => by decide) accepted
  obtain ⟨u, done, -, stores⟩ := merge_returns progress room files out
  rw [main_eq sys out accepted (by rw [List.length_map]; omega)
    (by rwa [List.length_map]), ← fits_iff room]
  have same : (files.map some).filterMap id = files := by simp
  rw [same, done]
  exact stores

/-- Two files of one byte and a buffer of two. -/
theorem two_bytes_inside :
    let sys : Sys := ⟨fun _ limit => limit, fun _ => 0, fun _ => 0⟩
    let run := main sys [.t 2] [some [1], some [2]] []
    run.state.stores = [0, 1] ∧ ∀ k ∈ run.state.stores, k < 2 := by
  intro sys run
  have progress : sys.Progress :=
    fun time limit => ⟨Int.natCast_nonneg limit, fun some => Int.natCast_pos.mpr some⟩
  have later (r : Nat) (past : 1 ≤ r) : active ([[1], [2]] : List (List UInt8)) r = 0 := by
    simp only [active, List.countP_cons, List.countP_nil, List.length_singleton, decide_eq_true_eq]
    rw [if_neg (by omega)]
  refine ⟨by decide, (write_buffer_inside_iff (t := 2) progress (by decide) [[1], [2]] (by decide)
    (by decide) []).mpr ?_⟩
  rintro (_ | k) q inside
  · obtain rfl | rfl : q = 0 ∨ q = 1 := by omega
    · decide
    · decide
  · rw [later _ (by omega)]
    exact Nat.le_of_lt (Nat.mod_lt _ (by decide))

/-- The same files and a buffer of one: the second byte of the round is stored past its end. -/
theorem round_past_buffer :
    let sys : Sys := ⟨fun _ limit => limit, fun _ => 0, fun _ => 0⟩
    (main sys [.t 1] [some [1], some [2]] []).state.stores = [0, 1] := by
  decide

end Aso.Posix.MergeFiles
