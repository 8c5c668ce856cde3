import Aso.Tagged
import Aso.Xv6.Fs.Filewrite

/-! Writes through a shared open file. Any number of processes call `filewrite` on one entry
of the file table; each round of its loop reads and moves the offset of the entry under the
lock of the inode, and between rounds both the lock and the log are released. -/
namespace Aso.Xv6.Fs
namespace State
variable {s t u : State} {ip : Slot} {x : Ino} {off : Nat} {src : List UInt8}

theorem absent_mono {k m : Nat} (less : k ≤ m) : s.absent x off k ⊆ s.absent x off m := by
  refine Finset.filter_subset_filter _
    (Finset.biUnion_subset_biUnion_of_subset_left _ (Finset.image_subset_image ?_))
  exact Finset.image_subset_image (Finset.range_subset_range.mpr less)

/-- What a write that had the blocks it needed has done to its file. -/
structure Stored (s t : State) (ip : Slot) (off : Nat) (src : List UInt8) : Prop where
  sound : Sound t
  live : t.Live (.core ip)
  known : (t.icache ip).inum < t.sb.ninodes
  file : (t.icache ip).type ≠ tDev
  size : (t.icache ip).size = max (s.icache ip).size (off + src.length)
  bytes : ∀ i < maxfile * bsize, t.byteAt (.core ip) i = overwrite (s.byteAt (.core ip)) off src i
  room : ∀ m, (s.absent (.core ip) off (src.length + m)).card ≤ s.free →
    (t.absent (.core ip) (off + src.length) m).card ≤ t.free

theorem Ledger.room {wrote : Finset Node} {k m : Nat}
    (ledger : Ledger s t x (s.absent x off k) wrote)
    (enough : (s.absent x off (k + m)).card ≤ s.free) : (t.absent x (off + k) m).card ≤ t.free := by
  rw [absent_add m ledger, Finset.card_union_of_disjoint ledger.disjoint] at enough
  rw [ledger.free_eq]
  omega

theorem resize_absent {size m : Nat} (owned : Owned s) (live : s.Live (.core ip))
    (known : (s.icache ip).inum < s.sb.ninodes) :
    (s.resize ip size).absent (.core ip) off m = s.absent (.core ip) off m := by
  unfold absent
  simp only [resize_addr owned live known live]

theorem resize_free {size : Nat} (owned : Owned s) (known : (s.icache ip).inum < s.sb.ninodes) :
    (s.resize ip size).free = s.free :=
  free_congr resize_sb fun c _ => congrFun (resize_used owned known) c

/-- With the blocks that are absent, `writei` stores all of `src`. -/
theorem writei_stored (sound : Sound s) (live : s.Live (.core ip))
    (known : (s.icache ip).inum < s.sb.ninodes) (file : (s.icache ip).type ≠ tDev)
    (inside : off ≤ (s.icache ip).size) (bound : off + src.length ≤ maxfile * bsize)
    (enough : (s.absent (.core ip) off src.length).card ≤ s.free) :
    ∃ t, s.writei ip src off = some ((src.length : Int), t) ∧ Stored s t ip off src := by
  obtain ⟨u, loop⟩ := writeLoop_returns sound live bound enough
  have ledger := writeLoop_ledger src.length off src sound live le_rfl bound loop
  obtain ⟨frame, later, bytes⟩ := writeLoop_spec sound live le_rfl bound loop
  have there := (frame.live _).mpr live
  have kept : (u.icache ip).inum < u.sb.ninodes := by rwa [frame.inum, frame.sb]
  have type : (u.icache ip).type = (s.icache ip).type := frame.type live
  have size : (u.icache ip).size = (s.icache ip).size := frame.size live
  refine ⟨_, writei_eq file inside bound loop, ?_⟩
  split
  · rename_i longer
    constructor
    case sound => exact resize_sound later there kept
    case live => exact (resize_live there _).mpr there
    case known => rwa [resize_icache, resize_sb]
    case file =>
      rw [resize_icache, type]
      exact file
    case size =>
      rw [resize_icache]
      dsimp only
      rw [if_pos rfl]
      omega
    case bytes =>
      intro i range
      have longer : Overwrites s (u.resize ip (off + src.length)) (.core ip) off src :=
        resize_overwrites later.owned frame there kept bytes
      simpa using longer (.core ip) i live range
    case room =>
      intro m few
      rw [resize_absent later.owned there kept, resize_free later.owned kept]
      exact ledger.room few
  · constructor
    case sound => exact later
    case live => exact there
    case known => exact kept
    case file => rwa [type]
    case size => omega
    case bytes =>
      intro i range
      simpa using bytes (.core ip) i live range
    case room => exact fun m => ledger.room

namespace Stored
variable {more : List UInt8}

theorem refl (sound : Sound s) (live : s.Live (.core ip))
    (known : (s.icache ip).inum < s.sb.ninodes) (file : (s.icache ip).type ≠ tDev)
    (inside : off ≤ (s.icache ip).size) : Stored s s ip off [] where
  sound := sound
  live := live
  known := known
  file := file
  size := by simpa using inside
  bytes i _ := by rw [overwrite_nil]
  room m := by simp

theorem trans (first : Stored s t ip off src) (second : Stored t u ip (off + src.length) more) :
    Stored s u ip off (src ++ more) where
  sound := second.sound
  live := second.live
  known := second.known
  file := second.file
  size := by
    rw [second.size, first.size, List.length_append]
    omega
  bytes i range := by
    rw [second.bytes i range, overwrite_congr (first.bytes i range)]
    have cut := overwrite_take_drop (s.byteAt (.core ip)) off src.length (src ++ more) (by simp)
    rw [List.take_left' rfl, List.drop_left' rfl] at cut
    rw [cut]
  room m few := by
    rw [List.length_append, Nat.add_assoc] at few
    have := second.room m (first.room (more.length + m) few)
    rwa [List.length_append, ← Nat.add_assoc]

theorem of_unlogged (stored : Stored { s with logged := [] } t ip off src) :
    Stored s t ip off src :=
  ⟨stored.sound, stored.live, stored.known, stored.file, stored.size, stored.bytes, stored.room⟩

end Stored
end State

namespace Shared
open Tagged Transition
variable {P : Type} [DecidableEq P]

/-- Where a process is in `filewrite`. `call` numbers the calls in the order in which they were
made, `rest` is what was left to write at the start of the round, and `r` is what `writei`
returned. -/
inductive Pc where
  | idle
  | top (call : Nat) (rest : List UInt8)
  | begun (call : Nat) (rest : List UInt8)
  | locked (call : Nat) (rest : List UInt8)
  | written (call : Nat) (rest : List UInt8) (r : Int)
  | advanced (call : Nat) (rest : List UInt8) (r : Int)
  | unlocked (call : Nat) (rest : List UInt8) (r : Int)
  deriving DecidableEq

/-- The file system, the entry of the file table with its offset, the lock of the inode and the
processes, with the history of calls, of pieces stored and of values returned. -/
structure World (P : Type) where
  fs : State
  off : Nat
  lock : Option P
  pc : P → Pc
  calls : List (List UInt8)
  pieces : List (Nat × List UInt8)
  results : List (Nat × Int)

inductive Action (P : Type) where
  | write (p : P) (src : List UInt8)
  | go (p : P)

namespace World

def setPc (w : World P) (p : P) (pc : Pc) : World P := { w with pc := Function.update w.pc p pc }

def done (w : World P) (p : P) (call : Nat) (result : Int) : World P :=
  { w.setPc p .idle with results := w.results ++ [(call, result)] }

/-- The next step of a process in `filewrite`. -/
def advance (ip : Slot) (w : World P) (p : P) : Option (World P) :=
  match w.pc p with
  | .idle => none
  | .top call rest =>
    -- `i == n` after the loop, since no round broke out of it
    if rest = [] then some (w.done p call (w.calls.getD call []).length)
    else some (w.setPc p (.begun call rest))
  | .begun call rest =>
    if w.lock = none then some { w.setPc p (.locked call rest) with lock := some p } else none
  | .locked call rest =>
    match w.fs.transaction ip rest w.off with
    | none => none
    | some (r, fs) =>
      some { w.setPc p (.written call rest r) with
        fs := fs
        pieces := w.pieces ++ [(call, rest.take chunk)] }
  | .written call rest r =>
    some { w.setPc p (.advanced call rest r) with off := if r > 0 then w.off + r.toNat else w.off }
  | .advanced call rest r => some { w.setPc p (.unlocked call rest r) with lock := none }
  | .unlocked call rest r =>
    if r < 0 then some (w.done p call (-1))
    else if r ≠ (rest.take chunk).length then none
    else some (w.setPc p (.top call (rest.drop r.toNat)))

def step (ip : Slot) (w : World P) : Action P → Option (World P)
  | .write p src =>
    if w.pc p = .idle
      then some { w.setPc p (.top w.calls.length src) with calls := w.calls ++ [src] } else none
  | .go p => w.advance ip p

end World

/-- The call that a process is in, and what of it is not stored yet. -/
def Pc.task : Pc → Option (Nat × List UInt8)
  | .idle => none
  | .top call rest | .begun call rest | .locked call rest => some (call, rest)
  | .written call rest _ | .advanced call rest _ | .unlocked call rest _ =>
    some (call, rest.drop chunk)

/-- The pieces stored so far are those of the calls that are over and the first ones of the
calls that are not. -/
structure Accounts (task : P → Option (Nat × List UInt8)) (calls : List (List UInt8))
    (pieces : List (Nat × List UInt8)) (results : List (Nat × Int)) : Prop where
  ongoing : ∀ p c rest, task p = some (c, rest) →
    c < calls.length ∧ calls.getD c [] = part c pieces ++ rest
  apart : ∀ p q c rest rest', task p = some (c, rest) → task q = some (c, rest') → p = q
  finished : ∀ c < calls.length, (∃ p rest, task p = some (c, rest)) ∨
    (part c pieces = calls.getD c [] ∧ (c, ((calls.getD c []).length : Int)) ∈ results)
  sizes : ∀ piece ∈ pieces, piece.1 < calls.length ∧ 0 < piece.2.length ∧ piece.2.length ≤ chunk

namespace Accounts
variable {task : P → Option (Nat × List UInt8)} {calls : List (List UInt8)}
  {pieces : List (Nat × List UInt8)} {results : List (Nat × Int)} {p : P} {c : Nat}
  {rest : List UInt8}

/-- A new call. -/
theorem start (accounts : Accounts task calls pieces results) (free : task p = none)
    (src : List UInt8) :
    Accounts (Function.update task p (some (calls.length, src)))
      (calls ++ [src]) pieces results := by
  have old {c : Nat} (bound : c < calls.length) : (calls ++ [src]).getD c [] = calls.getD c [] := by
    simp [List.getD_eq_getElem?_getD, List.getElem?_append_left bound]
  have unused : part calls.length pieces = [] := by
    have none : pieces.filter (·.1 = calls.length) = [] := by
      rw [List.filter_eq_nil_iff]
      intro piece member same
      have := (accounts.sizes piece member).1
      simp at same
      omega
    rw [part, none]
    rfl
  constructor
  case ongoing =>
    intro q d rest there
    by_cases here : q = p
    · subst q
      rw [Function.update_self] at there
      cases there
      refine ⟨by simp, ?_⟩
      simp [unused, List.getD_eq_getElem?_getD]
    · rw [Function.update_of_ne here] at there
      obtain ⟨bound, whole⟩ := accounts.ongoing q d rest there
      exact ⟨by simp; omega, by rw [old bound, whole]⟩
  case apart =>
    intro q q' d rest rest' first second
    by_cases here : q = p <;> by_cases here' : q' = p
    · rw [here, here']
    · subst q
      rw [Function.update_self] at first
      rw [Function.update_of_ne here'] at second
      cases first
      have := (accounts.ongoing q' _ _ second).1
      omega
    · subst q'
      rw [Function.update_self] at second
      rw [Function.update_of_ne here] at first
      cases second
      have := (accounts.ongoing q _ _ first).1
      omega
    · rw [Function.update_of_ne here] at first
      rw [Function.update_of_ne here'] at second
      exact accounts.apart q q' d rest rest' first second
  case finished =>
    intro d bound
    rw [List.length_append, List.length_singleton] at bound
    obtain earlier | rfl := Nat.lt_succ_iff_lt_or_eq.mp bound
    · rw [old earlier]
      obtain ⟨q, rest, there⟩ | ended := accounts.finished d earlier
      · refine .inl ⟨q, rest, ?_⟩
        rw [Function.update_of_ne, there]
        rintro rfl
        rw [free] at there
        cases there
      · exact .inr ended
    · exact .inl ⟨p, src, Function.update_self ..⟩
  case sizes =>
    intro piece member
    obtain ⟨bound, sizes⟩ := accounts.sizes piece member
    exact ⟨by simp; omega, sizes⟩

/-- The next piece of a call is stored. -/
theorem store (accounts : Accounts task calls pieces results) (here : task p = some (c, rest))
    (left : rest ≠ []) :
    Accounts (Function.update task p (some (c, rest.drop chunk))) calls
      (pieces ++ [(c, rest.take chunk)]) results := by
  obtain ⟨bound, whole⟩ := accounts.ongoing p c rest here
  have other {q : P} {d : Nat} {rest' : List UInt8} (there : task q = some (d, rest'))
      (apart : q ≠ p) : c ≠ d := by
    rintro rfl
    exact apart (accounts.apart q p c rest' rest there here)
  constructor
  case ongoing =>
    intro q d rest' there
    by_cases same : q = p
    · subst q
      rw [Function.update_self] at there
      cases there
      refine ⟨bound, ?_⟩
      rw [part_append_same, List.append_assoc, List.take_append_drop, whole]
    · rw [Function.update_of_ne same] at there
      rw [part_append_other _ (other there same)]
      exact accounts.ongoing q d rest' there
  case apart =>
    intro q q' d first second one two
    have back {q : P} {rest' : List UInt8}
        (there : Function.update task p (some (c, rest.drop chunk)) q = some (d, rest')) :
        ∃ rest', task q = some (d, rest') := by
      by_cases same : q = p
      · subst q
        rw [Function.update_self] at there
        cases there
        exact ⟨rest, here⟩
      · rw [Function.update_of_ne same] at there
        exact ⟨rest', there⟩
    obtain ⟨first, one⟩ := back one
    obtain ⟨second, two⟩ := back two
    exact accounts.apart q q' d first second one two
  case finished =>
    intro d below
    obtain ⟨q, rest', there⟩ | ⟨ended, result⟩ := accounts.finished d below
    · by_cases same : q = p
      · subst q
        rw [here] at there
        cases there
        exact .inl ⟨p, _, Function.update_self ..⟩
      · exact .inl ⟨q, rest', by rw [Function.update_of_ne same, there]⟩
    · by_cases same : c = d
      · subst d
        exact .inl ⟨p, _, Function.update_self ..⟩
      · exact .inr ⟨by rw [part_append_other _ same, ended], result⟩
  case sizes =>
    intro piece member
    obtain earlier | rfl := List.mem_append.mp member |>.imp_right List.mem_singleton.mp
    · exact accounts.sizes piece earlier
    · have := List.length_pos_iff.mpr left
      have : 0 < chunk := by decide
      simp only [List.length_take]
      omega

/-- A call that has nothing left returns. -/
theorem finish (accounts : Accounts task calls pieces results) (here : task p = some (c, [])) :
    Accounts (Function.update task p none) calls pieces
      (results ++ [(c, ((calls.getD c []).length : Int))]) := by
  have back {q : P} {found : Nat × List UInt8}
      (there : Function.update task p none q = some found) : task q = some found := by
    by_cases same : q = p
    · subst q
      rw [Function.update_self] at there
      cases there
    · rwa [Function.update_of_ne same] at there
  constructor
  case ongoing => exact fun q d rest there => accounts.ongoing q d rest (back there)
  case apart =>
    exact fun q q' d first second one two => accounts.apart q q' d first second
      (back one) (back two)
  case finished =>
    intro d below
    obtain ⟨q, rest, there⟩ | ⟨ended, result⟩ := accounts.finished d below
    · by_cases same : q = p
      · subst q
        rw [here] at there
        cases there
        refine .inr ⟨?_, List.mem_append_right _ List.mem_cons_self⟩
        rw [(accounts.ongoing p c [] here).2, List.append_nil]
      · exact .inl ⟨q, rest, by rw [Function.update_of_ne same, there]⟩
    · exact .inr ⟨ended, List.mem_append_left _ result⟩
  case sizes => exact accounts.sizes

omit [DecidableEq P] in
/-- What is stored and what is left of one call is part of all the calls. -/
theorem length_le (accounts : Accounts task calls pieces results) (here : task p = some (c, rest)) :
    (joined pieces).length + rest.length ≤ calls.flatten.length := by
  obtain ⟨bound, whole⟩ := accounts.ongoing p c rest here
  refine length_joined_add_le bound (fun piece member => (accounts.sizes piece member).1) whole
    fun d below => ?_
  obtain ⟨q, rest', there⟩ | ⟨ended, -⟩ := accounts.finished d below
  · rw [(accounts.ongoing q d rest' there).2, List.length_append]
    omega
  · rw [ended]

omit [DecidableEq P] in
/-- Once no call is under way everything is stored. -/
theorem length_eq (accounts : Accounts task calls pieces results) (quiet : ∀ p, task p = none) :
    (joined pieces).length = calls.flatten.length := by
  rw [← sum_length_part fun piece member => (accounts.sizes piece member).1, ← sum_length_getD]
  refine Finset.sum_congr rfl fun c member => ?_
  obtain ⟨p, rest, there⟩ | ⟨ended, -⟩ := accounts.finished c (Finset.mem_range.mp member)
  · rw [quiet] at there
    cases there
  · rw [ended]

end Accounts

/-- The process holds the lock of the inode. -/
def Pc.holds : Pc → Bool
  | .locked _ _ | .written _ _ _ | .advanced _ _ _ => true
  | .idle | .top _ _ | .begun _ _ | .unlocked _ _ _ => false

/-- A round that was begun has bytes to write, and `writei` has taken all of them. -/
def Pc.Sane : Pc → Prop
  | .idle | .top _ _ => True
  | .begun _ rest | .locked _ rest => rest ≠ []
  | .written _ rest r | .advanced _ rest r | .unlocked _ rest r => r = (rest.take chunk).length

/-- How far the offset is behind what the process has stored. -/
def Pc.lag : Pc → Nat
  | .written _ rest _ => (rest.take chunk).length
  | _ => 0

/-- How far the offset is behind what is stored, through the process that holds the lock. -/
def World.lag (w : World P) : Nat := w.lock.elim 0 fun p => (w.pc p).lag

/-- The file is the old one with the pieces stored from `start` on, and the offset follows. -/
structure Kept (ip : Slot) (s : State) (start : Nat) (w : World P) : Prop where
  stored : State.Stored s w.fs ip start (joined w.pieces)
  offset : w.off + w.lag = start + (joined w.pieces).length
  lock : ∀ p, (w.pc p).holds = true ↔ w.lock = some p
  sane : ∀ p, (w.pc p).Sane
  accounts : Accounts (fun p => (w.pc p).task) w.calls w.pieces w.results

namespace Kept
variable {ip : Slot} {s : State} {start : Nat} {w v : World P} {p : P} {pc : Pc}

/-- What a step of `p` does to the lock, whether it takes it, keeps it, releases it or has
nothing to do with it. -/
theorem moves (kept : Kept ip s start w) (moved : v.pc = Function.update w.pc p pc)
    (lock : v.lock = if pc.holds then some p else if (w.pc p).holds then none else w.lock)
    (free : pc.holds = true → (w.pc p).holds = false → w.lock = none) :
    (∀ q, (v.pc q).holds = true ↔ v.lock = some q) ∧
      v.lag = if pc.holds = true ∨ (w.pc p).holds = true then pc.lag else w.lag := by
  have none (idle : pc.holds = false) : pc.lag = 0 := by cases pc <;> first | rfl | cases idle
  have other {q : P} (apart : q ≠ p) : v.pc q = w.pc q := by rw [moved, Function.update_of_ne apart]
  have here : v.pc p = pc := by rw [moved, Function.update_self]
  cases after : pc.holds with
  | true =>
    simp only [after, if_true] at lock
    refine ⟨fun q => ?_, by rw [World.lag, lock, Option.elim_some, here, if_pos (.inl rfl)]⟩
    rw [lock]
    by_cases same : q = p
    · subst q
      simp [here, after]
    · have apart : some p ≠ some q := fun eq => same (Option.some.inj eq).symm
      rw [other same, kept.lock q, iff_false_right apart]
      intro holder
      cases before : (w.pc p).holds with
      | true => exact apart ((kept.lock p).mp before ▸ holder)
      | false => rw [free after before] at holder; cases holder
  | false =>
    simp only [after, Bool.false_eq_true, if_false, false_or] at lock ⊢
    cases before : (w.pc p).holds with
    | true =>
      simp only [before, if_true] at lock ⊢
      refine ⟨fun q => ?_, by rw [World.lag, lock, none after]; rfl⟩
      rw [lock, iff_false_right (by simp)]
      by_cases same : q = p
      · subst q
        simp [here, after]
      · rw [other same, kept.lock q, (kept.lock p).mp before]
        exact fun eq => same (Option.some.inj eq).symm
    | false =>
      simp only [before, Bool.false_eq_true, if_false] at lock ⊢
      refine ⟨fun q => ?_, ?_⟩
      · rw [lock]
        by_cases same : q = p
        · subst q
          rw [here, after, ← kept.lock p, before]
        · rw [other same, kept.lock q]
      · rw [World.lag, World.lag, lock]
        cases holder : w.lock with
        | none => rfl
        | some q =>
          have apart : q ≠ p := by
            rintro rfl
            rw [(kept.lock q).mpr holder] at before
            cases before
          rw [Option.elim_some, Option.elim_some, other apart]

theorem sane_moves (kept : Kept ip s start w) (moved : v.pc = Function.update w.pc p pc)
    (sane : pc.Sane) (q : P) : (v.pc q).Sane := by
  rw [moved]
  by_cases same : q = p
  · subst q
    rwa [Function.update_self]
  · rw [Function.update_of_ne same]
    exact kept.sane q

theorem tasks_moves (moved : v.pc = Function.update w.pc p pc) :
    (fun q => (v.pc q).task) = Function.update (fun q => (w.pc q).task) p pc.task := by
  funext q
  rw [moved]
  by_cases same : q = p
  · subst q
    rw [Function.update_self, Function.update_self]
  · rw [Function.update_of_ne same, Function.update_of_ne same]

/-- A step that leaves the file, the calls and the pieces alone and goes on with the same task. -/
theorem passes (kept : Kept ip s start w) (moved : v.pc = Function.update w.pc p pc)
    (lock : v.lock = if pc.holds then some p else if (w.pc p).holds then none else w.lock)
    (free : pc.holds = true → (w.pc p).holds = false → w.lock = none) (sane : pc.Sane)
    (same : pc.task = (w.pc p).task) (fs : v.fs = w.fs) (calls : v.calls = w.calls)
    (pieces : v.pieces = w.pieces) (results : v.results = w.results)
    (offset : v.off + (if pc.holds = true ∨ (w.pc p).holds = true then pc.lag else w.lag) =
      w.off + w.lag) : Kept ip s start v := by
  obtain ⟨held, lag⟩ := kept.moves moved lock free
  have tasks : (fun q => (v.pc q).task) = fun q => (w.pc q).task := by
    rw [tasks_moves moved, same, Function.update_eq_self_iff]
  refine ⟨?_, ?_, held, kept.sane_moves moved sane, ?_⟩
  · rw [fs, pieces]
    exact kept.stored
  · rw [lag, pieces, offset]
    exact kept.offset
  · rw [tasks, calls, pieces, results]
    exact kept.accounts

/-- A call is made. -/
theorem write (kept : Kept ip s start w) (idle : w.pc p = .idle) (src : List UInt8) :
    Kept ip s start { w.setPc p (.top w.calls.length src) with calls := w.calls ++ [src] } := by
  have before : (w.pc p).holds = false := by rw [idle]; rfl
  have moved :
      ({ w.setPc p (.top w.calls.length src) with calls := w.calls ++ [src] } : World P).pc =
      Function.update w.pc p (.top w.calls.length src) := rfl
  obtain ⟨held, lag⟩ := kept.moves moved (by rw [before]; rfl) nofun
  refine ⟨kept.stored, ?_, held, kept.sane_moves moved trivial, ?_⟩
  · rw [lag, before, if_neg (by simp [Pc.holds])]
    exact kept.offset
  · rw [tasks_moves moved]
    exact kept.accounts.start (by rw [idle]; rfl) src

/-- A call that has written everything returns. -/
theorem returns (kept : Kept ip s start w) {c : Nat} (here : w.pc p = .top c []) :
    Kept ip s start (w.done p c (w.calls.getD c []).length) := by
  have before : (w.pc p).holds = false := by rw [here]; rfl
  have moved : (w.done p c (w.calls.getD c []).length).pc = Function.update w.pc p .idle := rfl
  obtain ⟨held, lag⟩ := kept.moves moved (by rw [before]; rfl) nofun
  refine ⟨kept.stored, ?_, held, kept.sane_moves moved trivial, ?_⟩
  · rw [lag, before, if_neg (by simp [Pc.holds])]
    exact kept.offset
  · rw [tasks_moves moved]
    exact kept.accounts.finish (by rw [here]; rfl)

/-- One `writei`, with the blocks for all the calls and within the largest file: it stores the
next piece of the call at the offset. -/
theorem stores (kept : Kept ip s start w) {c : Nat} {rest : List UInt8}
    (here : w.pc p = .locked c rest) (bound : start + w.calls.flatten.length ≤ maxfile * bsize)
    (enough : (s.absent (.core ip) start w.calls.flatten.length).card ≤ s.free) :
    ∃ t, w.fs.transaction ip rest w.off = some (((rest.take chunk).length : Int), t) ∧
      Kept ip s start { w.setPc p (.written c rest (rest.take chunk).length) with
        fs := t, pieces := w.pieces ++ [(c, rest.take chunk)] } := by
  have before : (w.pc p).holds = true := by rw [here]; rfl
  have holder := (kept.lock p).mp before
  have offset : w.off = start + (joined w.pieces).length := by
    rw [← kept.offset, World.lag, holder, Option.elim_some, here]
    rfl
  have left : rest ≠ [] := by
    have := kept.sane p
    rwa [here] at this
  have task : (w.pc p).task = some (c, rest) := by rw [here]; rfl
  have fits := kept.accounts.length_le task
  have short : (rest.take chunk).length ≤ rest.length := by
    rw [List.length_take]; exact Nat.min_le_right _ _
  have few : (w.fs.absent (.core ip) w.off (rest.take chunk).length).card ≤ w.fs.free := by
    obtain ⟨m, total⟩ := Nat.exists_eq_add_of_le fits
    rw [total, Nat.add_assoc] at enough
    have := kept.stored.room (rest.length + m) enough
    rw [offset]
    exact Nat.le_trans (Finset.card_le_card (State.absent_mono (by omega))) this
  have written : ∃ t, w.fs.transaction ip rest w.off = some (((rest.take chunk).length : Int), t) ∧
      State.Stored { w.fs with logged := [] } t ip w.off (rest.take chunk) :=
    State.writei_stored kept.stored.sound.unlogged kept.stored.live kept.stored.known
      kept.stored.file
      (by rw [offset, kept.stored.size]; exact Nat.le_max_right _ _) (by omega) few
  obtain ⟨t, done, stored⟩ := written
  have moved : ({ w.setPc p (.written c rest (rest.take chunk).length) with
      fs := t, pieces := w.pieces ++ [(c, rest.take chunk)] } : World P).pc =
        Function.update w.pc p (.written c rest (rest.take chunk).length) := rfl
  obtain ⟨held, lag⟩ := kept.moves moved holder fun _ free => by rw [before] at free; cases free
  refine ⟨t, done, ?_, ?_, held, kept.sane_moves moved rfl, ?_⟩
  · rw [offset] at stored
    simpa using kept.stored.trans stored.of_unlogged
  · rw [lag, if_pos (.inl rfl)]
    simp only [World.setPc, Pc.lag, joined_append, joined_singleton, List.length_append]
    omega
  · rw [tasks_moves moved]
    exact kept.accounts.store task left

end Kept

variable {ip : Slot} {s : State} {start : Nat} {w v : World P}

/-- The calls made so far stay within the largest file and have the blocks they need. -/
structure Room (ip : Slot) (s : State) (start : Nat) (calls : List (List UInt8)) : Prop where
  bound : start + calls.flatten.length ≤ maxfile * bsize
  enough : (s.absent (.core ip) start calls.flatten.length).card ≤ s.free

theorem Room.of_prefix {calls more : List (List UInt8)} (room : Room ip s start more)
    (earlier : calls <+: more) : Room ip s start calls := by
  obtain ⟨later, rfl⟩ := earlier
  have shorter : calls.flatten.length ≤ (calls ++ later).flatten.length := by simp
  have := room.bound
  exact ⟨by omega, Nat.le_trans (Finset.card_le_card (State.absent_mono shorter)) room.enough⟩

theorem kept_step (kept : Kept ip s start w) {a : Action P} (taken : w.step ip a = some v)
    (room : Room ip s start v.calls) : Kept ip s start v := by
  cases a with
  | write p src =>
    simp only [World.step, Option.ite_none_right_eq_some, Option.some.injEq] at taken
    obtain ⟨idle, rfl⟩ := taken
    exact kept.write idle src
  | go p =>
    simp only [World.step, World.advance] at taken
    have sane := kept.sane p
    split at taken <;> rename_i here <;> rw [here] at sane
    · cases taken
    · split at taken <;> rename_i empty <;> cases taken
      · subst empty
        exact kept.returns here
      · exact kept.passes rfl (by simp [here, Pc.holds, World.setPc]) nofun empty
          (by rw [here]; rfl) rfl rfl rfl rfl
          (by simp [here, Pc.holds, World.setPc])
    · simp only [Option.ite_none_right_eq_some, Option.some.injEq] at taken
      obtain ⟨free, rfl⟩ := taken
      exact kept.passes rfl rfl (fun _ _ => free) sane (by rw [here]; rfl) rfl rfl rfl rfl
        (by simp [World.lag, free, Pc.holds, Pc.lag, World.setPc])
    · rename_i c rest
      split at taken
      · cases taken
      · rename_i r fs done
        cases taken
        obtain ⟨t, result, stored⟩ := kept.stores here room.bound room.enough
        rw [done] at result
        cases result
        exact stored
    · rename_i c rest r
      cases taken
      have holder := (kept.lock p).mp (by rw [here]; rfl)
      have lag : w.lag = (rest.take chunk).length := by
        rw [World.lag, holder, Option.elim_some, here]; rfl
      refine kept.passes rfl holder (fun _ free => by rw [here] at free; cases free) sane
        (by rw [here]; rfl) rfl rfl rfl rfl ?_
      have sane : r = (rest.take chunk).length := sane
      simp only [Pc.holds, true_or, if_true, Pc.lag, lag, sane, Int.toNat_natCast]
      split <;> omega
    · cases taken
      have holder := (kept.lock p).mp (by rw [here]; rfl)
      exact kept.passes rfl (by simp [here, Pc.holds]) nofun sane
        (by rw [here]; rfl) rfl rfl rfl rfl
        (by simp [here, holder, World.lag, Pc.holds, Pc.lag, World.setPc])
    · rename_i c rest r
      have sane : r = (rest.take chunk).length := sane
      rw [if_neg (by omega), if_neg (by simpa using sane)] at taken
      cases taken
      have drop : rest.drop r.toNat = rest.drop chunk := by
        rw [sane, Int.toNat_natCast, List.length_take]
        obtain long | short := Nat.le_total chunk rest.length
        · rw [Nat.min_eq_left long]
        · rw [Nat.min_eq_right short, List.drop_length, List.drop_eq_nil_of_le short]
      exact kept.passes rfl (by simp [here, Pc.holds, World.setPc]) nofun trivial
        (by rw [here, drop]; rfl) rfl rfl rfl rfl
        (by simp [here, Pc.holds, World.setPc])

/-- Calls are only added. -/
theorem calls_step {a : Action P} (taken : w.step ip a = some v) : w.calls <+: v.calls := by
  cases a with
  | write p src =>
    simp only [World.step, Option.ite_none_right_eq_some, Option.some.injEq] at taken
    obtain ⟨-, rfl⟩ := taken
    exact List.prefix_append _ _
  | go p =>
    have same : v.calls = w.calls := by
      simp only [World.step, World.advance] at taken
      split at taken
      all_goals try (split at taken)
      all_goals try (split at taken)
      all_goals cases taken
      all_goals rfl
    rw [same]

theorem kept_run {acts : List (Action P)} (kept : Kept ip s start w)
    (reached : run (World.step ip) w acts = some v) (room : Room ip s start v.calls) :
    Kept ip s start v :=
  invariant (P := fun w => Room ip s start w.calls → Kept ip s start w)
    (fun _ _ _ kept taken room => kept_step (kept (room.of_prefix (calls_step taken))) taken room)
    reached
    (fun _ => kept) room

/-- While a call is under way some process can go on: the one that holds the lock, or any
other if nobody does. -/
theorem can_go (kept : Kept ip s start w) (room : Room ip s start w.calls) {p : P}
    (busy : w.pc p ≠ .idle) : ∃ q v, w.step ip (.go q) = some v := by
  have ready {q : P} (free : w.lock = none ∨ (w.pc q).holds = true) (busy : w.pc q ≠ .idle) :
      ∃ v, w.step ip (.go q) = some v := by
    have sane := kept.sane q
    simp only [World.step, World.advance]
    cases here : w.pc q with
    | idle => exact absurd here busy
    | top c rest => dsimp only; split <;> exact ⟨_, rfl⟩
    | begun c rest =>
      rw [here] at free
      obtain free | free := free
      · exact ⟨_, if_pos free⟩
      · cases free
    | locked c rest =>
      obtain ⟨t, done, -⟩ := kept.stores here room.bound room.enough
      dsimp only
      rw [done]
      exact ⟨_, rfl⟩
    | written c rest r | advanced c rest r => exact ⟨_, rfl⟩
    | unlocked c rest r =>
      rw [here] at sane
      have sane : r = (rest.take chunk).length := sane
      dsimp only
      rw [if_neg (by omega), if_neg (by simpa using sane)]
      exact ⟨_, rfl⟩
  cases holder : w.lock with
  | none => exact ⟨p, ready (.inl holder) busy⟩
  | some q =>
    have holds := (kept.lock q).mpr holder
    refine ⟨q, ready (.inr holds) ?_⟩
    intro idle
    rw [idle] at holds
    cases holds

/-- No process is in `filewrite`. -/
def World.opened (fs : State) (off : Nat) : World P := ⟨fs, off, none, fun _ => .idle, [], [], []⟩

/-- All calls have returned with everything written: their pieces, in some order that keeps
that of each call, lie one after another in the file, and the offset is behind them. -/
structure Merged (ip : Slot) (fs : State) (off : Nat) (w : World P) : Prop where
  calls : ∀ c < w.calls.length,
    part c w.pieces = w.calls.getD c [] ∧ (c, ((w.calls.getD c []).length : Int)) ∈ w.results
  sizes : ∀ piece ∈ w.pieces, piece.1 < w.calls.length ∧ 0 < piece.2.length ∧ piece.2.length ≤ chunk
  offset : w.off = off + w.calls.flatten.length
  length : (joined w.pieces).length = w.calls.flatten.length
  size : (w.fs.icache ip).size = max (fs.icache ip).size (off + w.calls.flatten.length)
  bytes : ∀ i < maxfile * bsize,
    w.fs.byteAt (.core ip) i = overwrite (fs.byteAt (.core ip)) off (joined w.pieces) i

omit [DecidableEq P] in
theorem Kept.merged (kept : Kept ip s start w) (quiet : ∀ p, w.pc p = .idle) :
    Merged ip s start w := by
  have idle (p : P) : (w.pc p).task = none := by rw [quiet]; rfl
  have length := kept.accounts.length_eq idle
  have free : w.lock = none := by
    by_contra held
    obtain ⟨p, holder⟩ := Option.ne_none_iff_exists'.mp held
    have := (kept.lock p).mpr holder
    rw [quiet] at this
    cases this
  constructor
  case calls =>
    intro c bound
    obtain ⟨p, rest, there⟩ | ended := kept.accounts.finished c bound
    · rw [idle] at there
      cases there
    · exact ended
  case sizes => exact kept.accounts.sizes
  case offset =>
    rw [← length, ← kept.offset, World.lag, free]
    rfl
  case length => exact length
  case size => rw [← length, kept.stored.size]
  case bytes => exact kept.stored.bytes

/-- Any processes writing through one open entry of a regular file, in any interleaving, with
blocks for all of it and within the largest file: as long as a call is under way some process
can go on, and when all have returned no piece is lost. -/
theorem shared_writes_merge {fs : State} {off : Nat} {acts : List (Action P)}
    (sound : State.Sound fs) (live : fs.Live (.core ip))
    (known : (fs.icache ip).inum < fs.sb.ninodes) (file : (fs.icache ip).type = tFile)
    (inside : off ≤ (fs.icache ip).size)
    (reached : run (World.step ip) (World.opened fs off) acts = some w)
    (room : Room ip fs off w.calls) :
    (∀ p, w.pc p ≠ .idle → ∃ q v, w.step ip (.go q) = some v) ∧
    ((∀ p, w.pc p = .idle) → Merged ip fs off w) := by
  have notDev : (fs.icache ip).type ≠ tDev := by
    rw [file]
    decide
  have initial : Kept ip fs off (World.opened fs off : World P) := by
    constructor
    case stored => exact .refl sound live known notDev inside
    case offset => rfl
    case lock => simp [World.opened, Pc.holds]
    case sane => exact fun _ => trivial
    case accounts =>
      exact ⟨by simp [World.opened, Pc.task], by simp [World.opened,
        Pc.task], by simp [World.opened], by simp [World.opened]⟩
  have kept := kept_run initial reached room
  exact ⟨fun p => can_go kept room, kept.merged⟩

/-- Two processes write to an empty file, the second waiting for the lock of the first. -/
theorem two_writers_merge : ∃ w, run (World.step 0) (World.opened (State.smallFs 0x1f) 0)
    [.write true [7, 9], .write false [8], .go true, .go false, .go true, .go true, .go true,
      .go true, .go false, .go true, .go true, .go false, .go false, .go false, .go false,
      .go false] = some w ∧
    Merged 0 (State.smallFs 0x1f) 0 w := by
  have reserved : State.Reserved (State.smallFs 0x1f) := by unfold State.Reserved; decide
  have runs : (run (World.step 0) (World.opened (State.smallFs 0x1f) 0)
      [.write true [7, 9], .write false [8], .go true, .go false, .go true, .go true, .go true,
      .go true, .go false,
        .go true, .go true, .go false, .go false, .go false, .go false, .go false]).map
      (fun w => (w.pc true, w.pc false, w.calls)) = some (.idle, .idle, [[7, 9], [8]]) := by
    decide
  obtain ⟨w, reached, values⟩ := Option.map_eq_some_iff.mp runs
  simp only [Prod.mk.injEq] at values
  obtain ⟨first, second, calls⟩ := values
  have room : Room 0 (State.smallFs 0x1f) 0 w.calls := by
    rw [calls]
    exact ⟨by decide, by decide⟩
  refine ⟨w, reached, (shared_writes_merge ⟨State.owned_smallFs _, reserved⟩ ⟨by decide, rfl⟩
    (by decide) rfl (by decide) reached room).2 fun p => ?_⟩
  cases p
  · exact second
  · exact first

end Shared
end Aso.Xv6.Fs
