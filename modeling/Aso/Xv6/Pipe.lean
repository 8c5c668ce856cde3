import Aso.Ring
import Aso.Transition

/-! The pipe of pipe.c under any number of readers and writers. A section of
`pipewrite` or `piperead` runs from taking the pipe's lock to its release, by
return or by `sleep`; calls of other processes come between sections only.
The model lets calls and closes come in any order while the page is the
pipe's: nothing about who holds which descriptor is needed. -/
namespace Aso.Xv6

def pipesize : Nat := 512

/-- `struct pipe`, its lock apart. -/
structure Pipe extends Ring UInt8 pipesize 32 where
  readopen : Bool
  writeopen : Bool

namespace Pipe

/-- A pipe together with the bytes stored in it and handed out by it so far. -/
structure Traffic where
  pipe : Pipe
  stored : List UInt8
  handed : List UInt8

/-- `p->data[p->nwrite++ % PIPESIZE] = b`. -/
def Traffic.store (t : Traffic) (b : UInt8) : Traffic :=
  { t with pipe := { t.pipe with toRing := t.pipe.push b }, stored := t.stored ++ [b] }

/-- `p->data[p->nread++ % PIPESIZE]` given to a reader. -/
def Traffic.take (t : Traffic) : Traffic :=
  { t with pipe := { t.pipe with toRing := t.pipe.pop }, handed := t.handed ++ [t.pipe.front] }

/-- The addresses processes sleep on. -/
inductive Chan where
  | nread
  | nwrite
  deriving DecidableEq

/-- What one process is doing with the pipe: a call that has returned, with the
bytes it read, or one asleep, `pipewrite` with the bytes still to store. -/
inductive Call where
  | returned (value : Int) (got : List UInt8)
  | writing (n : Int) (rest : List UInt8) (awake : Bool)
  | reading (n : Int) (awake : Bool)
deriving DecidableEq

/-- What a section leaves: the pipe, the call, and the channel it woke. -/
structure Section where
  traffic : Traffic
  call : Call
  woken : Option Chan

/-- `pipewrite` from the byte it has reached. -/
def pipewrite (killed : Bool) (n : Int) : List UInt8 → Traffic → Section
  | [], t => ⟨t, .returned n [], some .nread⟩
  | b :: rest, t =>
    if t.pipe.isFull then
      if !t.pipe.readopen || killed then ⟨t, .returned (-1) [], none⟩
      else ⟨t, .writing n (b :: rest) false, some .nread⟩
    else pipewrite killed n rest (t.store b)

/-- The copying loop of `piperead`, with at most `left` bytes to go. -/
def pipereadCopy : Nat → List UInt8 → Traffic → Section
  | 0, got, t => ⟨t, .returned got.length got, some .nwrite⟩
  | left + 1, got, t =>
    if t.pipe.isEmpty then ⟨t, .returned got.length got, some .nwrite⟩
    else pipereadCopy left (got ++ [t.pipe.front]) t.take

def piperead (killed : Bool) (n : Int) (t : Traffic) : Section :=
  if t.pipe.isEmpty && t.pipe.writeopen then
    if killed then ⟨t, .returned (-1) [], none⟩ else ⟨t, .reading n false, none⟩
  else pipereadCopy n.toNat [] t

structure State where
  traffic : Traffic
  call : Nat → Call
  killed : Nat → Bool
  freed : Bool

/-- A fresh pipe in a page that held `junk`. -/
def pipealloc (junk : Nat → UInt8) : State where
  traffic := ⟨⟨⟨junk, 0, 0⟩, true, true⟩, [], []⟩
  call := fun _ => .returned 0 []
  killed := fun _ => false
  freed := false

def Call.wake : Call → Call
  | .returned value got => .returned value got
  | .writing n rest _ => .writing n rest true
  | .reading n _ => .reading n true

/-- The effect of `wakeup` on one process. -/
def Call.wakeup (chan : Chan) : Call → Call
  | .writing n rest awake => .writing n rest (awake || chan == .nwrite)
  | .reading n awake => .reading n (awake || chan == .nread)
  | call => call

def wakeup (woken : Option Chan) (call : Nat → Call) : Nat → Call :=
  match woken with
  | none => call
  | some chan => fun p => (call p).wakeup chan

def State.after (s : State) (p : Nat) (done : Section) : State :=
  { s with traffic := done.traffic, call := Function.update (wakeup done.woken s.call) p done.call }

def pipeclose (writable : Bool) (s : State) : State :=
  let pipe := s.traffic.pipe
  let closed : Pipe :=
    if writable then { pipe with writeopen := false } else { pipe with readopen := false }
  { s with
    traffic := { s.traffic with pipe := closed }
    call := wakeup (some (if writable then .nread else .nwrite)) s.call
    freed := !closed.readopen && !closed.writeopen }

inductive Action where
  | pipewrite (p : Nat) (addr : Nat → UInt8) (n : Int)
  | piperead (p : Nat) (n : Int)
  /-- A process that was woken takes the lock again. -/
  | resume (p : Nat)
  | pipeclose (writable : Bool)
  | kill (p : Nat)

def step (s : State) : Action → Option State
  | .pipewrite p addr n =>
    match s.freed, s.call p with
    | false, .returned .. =>
      some (s.after p (Pipe.pipewrite (s.killed p) n ((List.range n.toNat).map addr) s.traffic))
    | _, _ => none
  | .piperead p n =>
    match s.freed, s.call p with
    | false, .returned .. => some (s.after p (Pipe.piperead (s.killed p) n s.traffic))
    | _, _ => none
  | .resume p =>
    match s.freed, s.call p with
    | false, .writing n rest true => some (s.after p (Pipe.pipewrite (s.killed p) n rest s.traffic))
    | false, .reading n true => some (s.after p (Pipe.piperead (s.killed p) n s.traffic))
    | _, _ => none
  | .pipeclose writable => if s.freed then none else some (Pipe.pipeclose writable s)
  | .kill p =>
    some { s with
      killed := Function.update s.killed p true
      call := Function.update s.call p (s.call p).wake }

/-- No byte is lost, duplicated or reordered, and the ring is not overrun. -/
structure Traffic.Conserved (t : Traffic) : Prop where
  bytes : t.handed ++ t.pipe.contents = t.stored
  fits : t.pipe.count ≤ pipesize

namespace Traffic.Conserved
variable {t : Traffic}

theorem store (conserved : t.Conserved) (room : t.pipe.isFull = false) (b : UInt8) :
    (t.store b).Conserved := by
  have partly : t.pipe.count ≠ pipesize := by
    intro all
    have full := (Ring.isFull_iff (by decide) t.pipe.toRing).mpr all
    exact absurd (room.symm.trans full) Bool.false_ne_true
  have room : t.pipe.count < pipesize := lt_of_le_of_ne conserved.fits partly
  constructor
  · have grown := Ring.contents_push (by decide) (by decide) room b
    calc t.handed ++ (t.pipe.push b).contents
        = (t.handed ++ t.pipe.contents) ++ [b] := by rw [grown, List.append_assoc]
      _ = t.stored ++ [b] := by rw [conserved.bytes]
  · have one := Ring.count_push (by decide) room b
    exact one.trans_le room

theorem take (conserved : t.Conserved) (some : t.pipe.isEmpty = false) : t.take.Conserved := by
  have some : 0 < t.pipe.count := Ring.count_pos some
  constructor
  · have first := Ring.contents_pop some
    calc (t.handed ++ [t.pipe.front]) ++ t.pipe.pop.contents
        = t.handed ++ t.pipe.contents := by rw [List.append_assoc, List.singleton_append, ← first]
      _ = t.stored := conserved.bytes
  · have one := Ring.count_pop some
    have fits := conserved.fits
    change t.pipe.pop.count ≤ pipesize
    omega

theorem pipewrite {rest : List UInt8} {killed : Bool} {n : Int} (conserved : t.Conserved) :
    (Pipe.pipewrite killed n rest t).traffic.Conserved := by
  induction rest generalizing t with
  | nil => exact conserved
  | cons b rest ih =>
    rw [Pipe.pipewrite]
    split
    · split
      · exact conserved
      · exact conserved
    · rename_i room
      exact ih (conserved.store (Bool.eq_false_iff.mpr room) b)

theorem pipereadCopy {left : Nat} {got : List UInt8} (conserved : t.Conserved) :
    (Pipe.pipereadCopy left got t).traffic.Conserved := by
  induction left generalizing t got with
  | zero => exact conserved
  | succ left ih =>
    rw [Pipe.pipereadCopy]
    split
    · exact conserved
    · rename_i some
      exact ih (conserved.take (Bool.eq_false_iff.mpr some))

theorem piperead {killed : Bool} {n : Int} (conserved : t.Conserved) :
    (Pipe.piperead killed n t).traffic.Conserved := by
  rw [Pipe.piperead]
  split
  · split
    · exact conserved
    · exact conserved
  · exact conserved.pipereadCopy

end Traffic.Conserved

theorem step_conserved {s t : State} {a : Action} (conserved : s.traffic.Conserved)
    (taken : step s a = some t) : t.traffic.Conserved := by
  cases a with
  | pipewrite p addr n =>
    simp only [step] at taken
    split at taken
    · cases taken
      exact conserved.pipewrite
    · cases taken
  | piperead p n =>
    simp only [step] at taken
    split at taken
    · cases taken
      exact conserved.piperead
    · cases taken
  | resume p =>
    simp only [step] at taken
    split at taken
    · cases taken
      exact conserved.pipewrite
    · cases taken
      exact conserved.piperead
    · cases taken
  | pipeclose writable =>
    simp only [step] at taken
    split at taken
    · cases taken
    · cases taken
      -- closing an end leaves the ring alone
      cases writable <;> exact ⟨conserved.bytes, conserved.fits⟩
  | kill p =>
    cases taken
    exact conserved

theorem pipealloc_conserved (junk : Nat → UInt8) : (pipealloc junk).traffic.Conserved := by
  constructor <;> simp [pipealloc, Ring.contents, Ring.count]

/-- A section of `piperead` for `n` bytes: what is handed out is what it leaves in its reader's
buffer, the first `n` bytes of the ring, and the value is their number; a call that fails or goes
to sleep is handed nothing. -/
def Reads (n : Int) (t u : Traffic) (call : Call) : Prop :=
  ∃ got, u.handed = t.handed ++ got ∧ u.stored = t.stored ∧
    (call = .returned got.length got ∧ got = t.pipe.contents.take n.toNat ∨
      got = [] ∧ (call = .returned (-1) [] ∨ call = .reading n false))

/-- A section of `pipewrite` with `bytes` of its writer's buffer to go: what is stored is a first
part of them, which is all of them when the value is `n`; a call that sleeps goes on with the
others. -/
def Writes (n : Int) (bytes : List UInt8) (t u : Traffic) (call : Call) : Prop :=
  ∃ moved rest, bytes = moved ++ rest ∧ u.stored = t.stored ++ moved ∧ u.handed = t.handed ∧
    (call = .returned n [] ∧ rest = [] ∨ call = .writing n rest false ∨ call = .returned (-1) [])

/-- What a step stores and hands out is what its call takes from or puts into its buffer. -/
def Accounts (s : State) (a : Action) (t : State) : Prop :=
  match a with
  | .pipewrite p addr n =>
    Writes n ((List.range n.toNat).map addr) s.traffic t.traffic (t.call p)
  | .piperead p n => Reads n s.traffic t.traffic (t.call p)
  | .resume p =>
    match s.call p with
    | .writing n rest _ => Writes n rest s.traffic t.traffic (t.call p)
    | .reading n _ => Reads n s.traffic t.traffic (t.call p)
    | .returned _ _ => False
  | .pipeclose _ | .kill _ =>
    t.traffic.handed = s.traffic.handed ∧ t.traffic.stored = s.traffic.stored

section Buffers
variable {t : Traffic}

theorem pipewrite_writes {killed : Bool} {n : Int} {bytes : List UInt8} :
    Writes n bytes t (pipewrite killed n bytes t).traffic (pipewrite killed n bytes t).call := by
  induction bytes generalizing t with
  | nil => exact ⟨[], [], rfl, (List.append_nil _).symm, rfl, .inl ⟨rfl, rfl⟩⟩
  | cons b rest ih =>
    rw [pipewrite]
    split
    · split
      · exact ⟨[], b :: rest, rfl, (List.append_nil _).symm, rfl, .inr (.inr rfl)⟩
      · exact ⟨[], b :: rest, rfl, (List.append_nil _).symm, rfl, .inr (.inl rfl)⟩
    · obtain ⟨moved, left, split, stored, handed, call⟩ := ih (t := t.store b)
      refine ⟨b :: moved, left, by rw [split]; rfl, ?_, handed, call⟩
      rw [stored]
      exact List.append_assoc t.stored [b] moved

/-- The loop with `got` in the buffer already. -/
theorem pipereadCopy_reads (left : Nat) (got : List UInt8) :
    ∃ more, more = t.pipe.contents.take left ∧
      (pipereadCopy left got t).traffic.handed = t.handed ++ more ∧
      (pipereadCopy left got t).traffic.stored = t.stored ∧
      (pipereadCopy left got t).call = .returned (got ++ more).length (got ++ more) := by
  induction left generalizing t got with
  | zero => exact ⟨[], rfl, (List.append_nil _).symm, rfl, by rw [List.append_nil]; rfl⟩
  | succ left ih =>
    rw [pipereadCopy]
    split
    · next empty =>
      have none : t.pipe.contents = [] := Ring.contents_empty empty
      rw [none]
      exact ⟨[], rfl, (List.append_nil _).symm, rfl, by rw [List.append_nil]⟩
    · next some =>
      have first : t.pipe.contents = t.pipe.front :: t.pipe.pop.contents :=
        Ring.contents_pop (Ring.count_pos (Bool.eq_false_iff.mpr some))
      obtain ⟨more, taken, handed, stored, call⟩ := ih (t := t.take) (got ++ [t.pipe.front])
      refine ⟨t.pipe.front :: more, ?_, ?_, stored, ?_⟩
      · rw [first, List.take_succ_cons, taken]
        rfl
      · rw [handed]
        exact List.append_assoc t.handed [t.pipe.front] more
      · rw [call, List.append_assoc]
        rfl

theorem piperead_reads {killed : Bool} {n : Int} :
    Reads n t (piperead killed n t).traffic (piperead killed n t).call := by
  rw [piperead]
  split
  · split
    · exact ⟨[], (List.append_nil _).symm, rfl, .inr ⟨rfl, .inl rfl⟩⟩
    · exact ⟨[], (List.append_nil _).symm, rfl, .inr ⟨rfl, .inr rfl⟩⟩
  · obtain ⟨got, taken, handed, stored, call⟩ :=
      pipereadCopy_reads (t := t) n.toNat []
    exact ⟨got, handed, stored, .inl ⟨call, taken⟩⟩

end Buffers

theorem State.after_call (s : State) (p : Nat) (done : Section) :
    (s.after p done).call p = done.call :=
  Function.update_self ..

theorem step_accounts {s t : State} {a : Action} (taken : step s a = some t) : Accounts s a t := by
  cases a with
  | pipewrite p addr n =>
    simp only [step] at taken
    split at taken
    · cases taken
      rw [Accounts, State.after_call]
      exact pipewrite_writes
    · cases taken
  | piperead p n =>
    simp only [step] at taken
    split at taken
    · cases taken
      rw [Accounts, State.after_call]
      exact piperead_reads
    · cases taken
  | resume p =>
    simp only [step] at taken
    split at taken
    · next asleep =>
      cases taken
      rw [Accounts, asleep, State.after_call]
      exact pipewrite_writes
    · next asleep =>
      cases taken
      rw [Accounts, asleep, State.after_call]
      exact piperead_reads
    · cases taken
  | pipeclose writable =>
    simp only [step] at taken
    split at taken
    · cases taken
    · cases taken
      exact ⟨rfl, rfl⟩
  | kill p =>
    cases taken
    exact ⟨rfl, rfl⟩

/-- The bytes in the buffer of a call that has returned. -/
def Call.got : Call → List UInt8
  | .returned _ got => got
  | _ => []

/-- The buffers that the sections of a run have filled, in the order of the sections. -/
def received (s : State) : List Action → List UInt8
  | [] => []
  | a :: rest =>
    match step s a with
    | none => []
    | some t =>
      (match a with
      | .pipewrite p _ _ | .piperead p _ | .resume p => (t.call p).got
      | .pipeclose _ | .kill _ => []) ++ received t rest

theorem Reads.handed {n : Int} {t u : Traffic} {call : Call} (reads : Reads n t u call) :
    u.handed = t.handed ++ call.got := by
  obtain ⟨got, handed, -, ⟨rfl, -⟩ | ⟨rfl, rfl | rfl⟩⟩ := reads
  · exact handed
  · exact handed
  · exact handed

theorem Writes.handed {n : Int} {bytes : List UInt8} {t u : Traffic} {call : Call}
    (writes : Writes n bytes t u call) : u.handed = t.handed ++ call.got := by
  obtain ⟨moved, rest, -, -, handed, ⟨rfl, -⟩ | rfl | rfl⟩ := writes
  all_goals exact handed.trans (List.append_nil _).symm

/-- The bytes handed out are those that readers have found in their buffers. -/
theorem handed_eq_received {s t : State} {schedule : List Action}
    (reached : Transition.run step s schedule = some t) :
    t.traffic.handed = s.traffic.handed ++ received s schedule := by
  induction schedule generalizing s with
  | nil =>
    cases reached
    exact (List.append_nil _).symm
  | cons a rest ih =>
    obtain ⟨m, taken, reached⟩ := Transition.run_cons.mp reached
    have accounts := step_accounts taken
    rw [ih reached, received, taken, ← List.append_assoc]
    congr 1
    cases a with
    | pipewrite p addr n => exact Writes.handed accounts
    | piperead p n => exact Reads.handed accounts
    | resume p =>
      rw [Accounts] at accounts
      split at accounts
      · exact accounts.handed
      · exact accounts.handed
      · cases accounts
    | pipeclose writable => exact accounts.1.trans (List.append_nil _).symm
    | kill p => exact accounts.1.trans (List.append_nil _).symm

/-- In every state of every run the bytes that readers have found in their buffers, section by
section, followed by what the ring holds from `nread` on, are the bytes stored, and the distance
of the counters modulo their range is at most the size of the ring. Every further section stores
bytes of its writer's buffer in order, or fills its reader's buffer with the bytes it takes out
and returns their number. -/
theorem handed_append_contents {junk : Nat → UInt8} {schedule : List Action} {s : State}
    (reached : Transition.run step (pipealloc junk) schedule = some s) :
    s.traffic.handed = received (pipealloc junk) schedule ∧
      s.traffic.handed ++ s.traffic.pipe.contents = s.traffic.stored ∧
      (s.traffic.pipe.nwrite - s.traffic.pipe.nread).toNat ≤ pipesize ∧
      ∀ a t, step s a = some t → Accounts s a t := by
  have preserves (s : State) (a : Action) (t : State) (conserved : s.traffic.Conserved)
      (taken : step s a = some t) : t.traffic.Conserved := step_conserved conserved taken
  have conserved := Transition.invariant preserves reached (pipealloc_conserved junk)
  exact ⟨handed_eq_received reached, conserved.bytes, conserved.fits, fun _ _ => step_accounts⟩

/-- A reader asleep on the empty pipe is woken by a writer, and takes two of its three bytes. -/
theorem woken_reader_takes_two :
    ∃ s, Transition.run step (pipealloc fun _ => 1)
        [.piperead 2 2, .pipewrite 1 (fun i => if i = 2 then 9 else 7) 3, .resume 2] = some s ∧
      s.call 2 = .returned 2 [7, 7] ∧ received (pipealloc fun _ => 1)
        [.piperead 2 2, .pipewrite 1 (fun i => if i = 2 then 9 else 7) 3, .resume 2] = [7, 7] ∧
      [7, 7] ++ s.traffic.pipe.contents = [7, 7, 9] ∧
      (s.traffic.pipe.nwrite - s.traffic.pipe.nread).toNat ≤ pipesize := by
  have runs : (Transition.run step (pipealloc fun _ => 1)
      [.piperead 2 2, .pipewrite 1 (fun i => if i = 2 then 9 else 7) 3, .resume 2]).map
        (fun s => (s.call 2, s.traffic.handed, s.traffic.stored)) =
      some (.returned 2 [7, 7], [7, 7], [7, 7, 9]) := by decide
  obtain ⟨s, reached, seen⟩ := Option.map_eq_some_iff.mp runs
  simp only [Prod.mk.injEq] at seen
  obtain ⟨call, handed, stored⟩ := seen
  obtain ⟨filled, conserved, fits, -⟩ := handed_append_contents reached
  rw [handed] at filled conserved
  rw [stored] at conserved
  exact ⟨s, reached, call, filled.symm, conserved, fits⟩

end Pipe
end Aso.Xv6
