import Aso.Checked
import Aso.Xv6.Ftable.Machine

/-! Reference counts of the file table. Between two statements of a call the
count of an entry is the number of descriptors that name it and of variables
of the call that do; the rules below say how each primitive moves names, and a
call is a chain of them that ends with no variable left. -/
namespace Aso.Xv6.Ftable
open Refs

/-- `held` are the names in variables of the running call, `fresh` the entries
it has allocated and not yet made a pipe end or an inode. -/
structure Inv (held : Multiset Entry) (fresh : Finset Entry) (s : State) : Prop where
  counted : Counted s.ofile s.ref held
  closed : ∀ f, s.ref f = 0 → s.behind f = none
  unset : ∀ f ∈ fresh, s.behind f = none
  typed : ∀ f ∉ fresh, 0 < s.ref f → s.behind f ≠ none
  ledger : s.ledger.Sound s.behind
  empty : ∀ p fd, s.state p = .unused ∨ s.state p = .zombie → s.ofile (p, fd) = none

namespace State
variable {s : State} {f : Entry}

@[simp] theorem ref_setFile (s : State) (f : Entry) (file : File) :
    (s.setFile f file).ref = Function.update s.ref f file.ref := by
  funext g
  simp only [ref, setFile, Function.update_apply]
  split <;> rfl

@[simp] theorem behind_setFile (s : State) (f : Entry) (file : File) :
    (s.setFile f file).behind = Function.update s.behind f file.behind := by
  funext g
  simp only [behind, setFile, Function.update_apply]
  split <;> rfl

@[simp] theorem ref_setRef (s : State) (f : Entry) (n : Nat) :
    (s.setRef f n).ref = Function.update s.ref f n :=
  ref_setFile ..

@[simp] theorem behind_setRef (s : State) (f : Entry) (n : Nat) :
    (s.setRef f n).behind = s.behind := by
  rw [setRef, behind_setFile]
  exact Function.update_eq_self f s.behind

@[simp] theorem ref_attach (s : State) (f : Entry) (type : FdType) (readable writable : Bool) :
    (s.attach f type readable writable).ref = s.ref :=
  (ref_setFile ..).trans (Function.update_eq_self f s.ref)

theorem release_same (s : State) (event : Option (Nat × Resource)) :
    (s.release event).file = s.file ∧ (s.release event).ofile = s.ofile ∧
    (s.release event).state = s.state := by
  cases event <;> exact ⟨rfl, rfl, rfl⟩

theorem filedup_ok (used : 0 < s.ref f) : s.filedup f = .ok (s.setRef f (s.ref f + 1)) := by
  rw [filedup, if_neg (Nat.not_lt.mpr used)]

/-- `fileclose` looks at the entry only. -/
theorem fileclose_setFd (p : Slot) (fd : Fd) (v : Option Entry) :
    (s.setFd p fd v).fileclose f = (s.fileclose f).map fun t => t.setFd p fd v := by
  simp only [fileclose]
  change (if s.ref f < 1 then _ else if 0 < s.ref f - 1 then _ else _) = _
  split
  · rfl
  · split
    · rfl
    · change Except.ok (((s.setFd p fd v).setFile f _).release (s.file f).behind) = Except.ok _
      cases (s.file f).behind <;> rfl

end State

namespace Inv
variable {held : Multiset Entry} {fresh : Finset Entry} {s t : State} {f : Entry}
  {p : Slot} {fd : Fd}

/-- A change of one count, with the names that explain it. -/
theorem setRef {names : Multiset Entry} {n : Nat} (inv : Inv held fresh s)
    (counted : Counted s.ofile (Function.update s.ref f n) names) (used : 0 < s.ref f)
    (pos : 0 < n) : Inv names fresh (s.setRef f n) := by
  constructor
  · rwa [State.ref_setRef]
  · intro g zero
    rw [State.ref_setRef, Function.update_apply] at zero
    split at zero
    · omega
    · rw [State.behind_setRef]
      exact inv.closed g zero
  · rw [State.behind_setRef]
    exact inv.unset
  · intro g known positive
    rw [State.behind_setRef]
    rw [State.ref_setRef, Function.update_apply] at positive
    split at positive
    · next same => exact inv.typed g known (same ▸ used)
    · exact inv.typed g known positive
  · rw [State.behind_setRef]
    exact inv.ledger
  · exact inv.empty

theorem filedup (inv : Inv held fresh s) (used : 0 < s.ref f) :
    Inv (f ::ₘ held) fresh (s.setRef f (s.ref f + 1)) :=
  inv.setRef (inv.counted.dup f) used (Nat.succ_pos _)

/-- The last name goes away: what was behind the entry is released. -/
theorem closeLast (inv : Inv (f ::ₘ held) fresh s) (last : s.ref f - 1 = 0) (file : File)
    (count : file.ref = 0) (nothing : file.behind = none) :
    Inv held fresh ((s.setFile f file).release (s.behind f)) := by
  have dropped := inv.counted.drop
  rw [last] at dropped
  obtain ⟨files, slots, states⟩ := State.release_same (s.setFile f file) (s.behind f)
  have refs : ((s.setFile f file).release (s.behind f)).ref = Function.update s.ref f 0 := by
    funext g
    rw [State.ref, files, ← count, ← State.ref_setFile]
    rfl
  have rest :
      ((s.setFile f file).release (s.behind f)).behind = Function.update s.behind f none := by
    funext g
    rw [State.behind, files, ← nothing, ← State.behind_setFile]
    rfl
  constructor
  · rwa [refs, slots]
  · intro g zero
    rw [rest, Function.update_apply]
    rw [refs, Function.update_apply] at zero
    split
    · rfl
    · next other => exact inv.closed g (by rwa [if_neg other] at zero)
  · intro g unset
    rw [rest, Function.update_apply]
    split
    · rfl
    · exact inv.unset g unset
  · intro g known positive
    rw [refs, Function.update_apply] at positive
    rw [rest, Function.update_apply]
    split
    · next same =>
      rw [if_pos same] at positive
      exact absurd positive (lt_irrefl _)
    · next other => exact inv.typed g known (by rwa [if_neg other] at positive)
  · rw [rest]
    cases here : s.behind f with
    | none =>
      have same : Function.update s.behind f none = s.behind := by
        rw [← here, Function.update_eq_self]
      rw [same]
      exact inv.ledger
    | some event =>
      obtain ⟨t, r⟩ := event
      exact inv.ledger.detach here
  · rw [slots, states]
    exact inv.empty

theorem fileclose (inv : Inv (f ::ₘ held) fresh s) :
    ∃ t, s.fileclose f = .ok t ∧ Inv held fresh t ∧ t.ofile = s.ofile ∧ t.state = s.state ∧
      t.ref = Function.update s.ref f (s.ref f - 1) := by
  have positive := inv.counted.pos_of_held (Multiset.mem_cons_self f held)
  simp only [State.fileclose]
  rw [if_neg (by omega)]
  by_cases more : 0 < s.ref f - 1
  · rw [if_pos more]
    exact ⟨_, rfl, inv.setRef inv.counted.drop positive more, rfl, rfl, State.ref_setRef ..⟩
  · rw [if_neg more]
    have last : s.ref f - 1 = 0 := by omega
    obtain ⟨files, slots, states⟩ := State.release_same
      (s.setFile f { s.file f with ref := 0, type := .none }) (s.behind f)
    refine ⟨_, rfl, inv.closeLast last _ rfl rfl, slots, states, ?_⟩
    funext g
    rw [last]
    change ((State.release _ _).file g).ref = _
    rw [show (s.file f).behind = s.behind f from rfl, files]
    exact congrFun (State.ref_setFile s f { s.file f with ref := 0, type := .none }) g

theorem filealloc (inv : Inv held fresh s) (found : s.filealloc = some (f, t)) :
    Inv (f ::ₘ held) (insert f fresh) t ∧ s.ref f = 0 ∧ t.ref = Function.update s.ref f 1 ∧
      t.ofile = s.ofile ∧ t.state = s.state := by
  simp only [State.filealloc] at found
  split at found
  · cases found
  · next g first =>
    cases found
    have free : s.ref f = 0 := by simpa using List.find?_some first
    have counted := inv.counted.dup f
    rw [free] at counted
    refine ⟨⟨?_, ?_, ?_, ?_, ?_, inv.empty⟩, free, State.ref_setRef .., rfl, rfl⟩
    · rwa [State.ref_setRef]
    · intro h zero
      rw [State.ref_setRef, Function.update_apply] at zero
      rw [State.behind_setRef]
      split at zero
      · cases zero
      · exact inv.closed h zero
    · intro h unset
      rw [State.behind_setRef]
      rcases Finset.mem_insert.mp unset with rfl | unset
      · exact inv.closed h free
      · exact inv.unset h unset
    · intro h known positive
      rw [Finset.mem_insert, not_or] at known
      rw [State.ref_setRef, Function.update_of_ne known.1] at positive
      rw [State.behind_setRef]
      exact inv.typed h known.2 positive
    · rw [State.behind_setRef]
      exact inv.ledger

/-- An allocated entry that has been closed again needs nothing behind it. -/
theorem settle (inv : Inv held (insert f fresh) s) (zero : s.ref f = 0) : Inv held fresh s := by
  refine ⟨inv.counted, inv.closed, ?_, ?_, inv.ledger, inv.empty⟩
  · intro g unset
    exact inv.unset g (Finset.mem_insert_of_mem unset)
  · intro g known positive
    refine inv.typed g ?_ positive
    intro inside
    rcases Finset.mem_insert.mp inside with rfl | inside
    · omega
    · exact known inside

theorem attach (type : FdType) (readable writable : Bool) (inv : Inv held (insert f fresh) s)
    (new : f ∉ fresh) (used : 0 < s.ref f) (kind : type ≠ .none) :
    Inv held fresh (s.attach f type readable writable) := by
  have nothing := inv.unset f (Finset.mem_insert_self f fresh)
  let file : File := { s.file f with type, readable, writable, tag := s.ledger.acquired.length }
  obtain ⟨r, here⟩ : ∃ r, file.behind = some (s.ledger.acquired.length, r) := by
    cases type with
    | none => exact absurd rfl kind
    | pipe pipe => exact ⟨_, rfl⟩
    | inode ip => exact ⟨_, rfl⟩
  have rest : (s.attach f type readable writable).behind =
      Function.update s.behind f (some (s.ledger.acquired.length, r)) := by
    rw [← here, ← State.behind_setFile]
    rfl
  constructor
  · rw [State.ref_attach]
    exact inv.counted
  · intro g zero
    rw [State.ref_attach] at zero
    rw [rest, Function.update_of_ne]
    · exact inv.closed g zero
    · rintro rfl
      omega
  · intro g unset
    rw [rest, Function.update_of_ne]
    · exact inv.unset g (Finset.mem_insert_of_mem unset)
    · rintro rfl
      exact new unset
  · intro g known positive
    rw [State.ref_attach] at positive
    rw [rest, Function.update_apply]
    split
    · exact Option.some_ne_none _
    · next other =>
      exact inv.typed g (fun inside => (Finset.mem_insert.mp inside).elim other known) positive
  · rw [rest]
    have attached := inv.ledger.attach nothing r
    change Ledger.Sound
      ⟨s.ledger.acquired ++ (file.behind.map Prod.snd).toList, s.ledger.released⟩ _
    rw [here]
    exact attached
  · exact inv.empty

/-- A name moves from a variable of the call into an empty descriptor. -/
theorem put (inv : Inv (f ::ₘ held) fresh s) (free : s.ofile (p, fd) = none)
    (live : s.state p ≠ .unused ∧ s.state p ≠ .zombie) :
    Inv held fresh (s.setFd p fd (some f)) := by
  refine ⟨inv.counted.put free, inv.closed, inv.unset, inv.typed, inv.ledger, ?_⟩
  intro q e gone
  have other : (q, e) ≠ (p, fd) := by
    intro same
    cases same
    exact gone.elim live.1 live.2
  exact (Function.update_of_ne other _ _).trans (inv.empty q e gone)

/-- A name moves from a descriptor into a variable of the call. -/
theorem take (inv : Inv held fresh s) (named : s.ofile (p, fd) = some f) :
    Inv (f ::ₘ held) fresh (s.setFd p fd none) := by
  refine ⟨inv.counted.take named, inv.closed, inv.unset, inv.typed, inv.ledger, ?_⟩
  intro q e gone
  change Function.update s.ofile (p, fd) none (q, e) = none
  rw [Function.update_apply]
  split
  · rfl
  · exact inv.empty q e gone

theorem setState (life : Life) (inv : Inv held fresh s)
    (clear : life = .unused ∨ life = .zombie → ∀ fd, s.ofile (p, fd) = none) :
    Inv held fresh (s.setState p life) := by
  refine ⟨inv.counted, inv.closed, inv.unset, inv.typed, inv.ledger, ?_⟩
  intro q e gone
  change Function.update s.state p life q = .unused ∨
    Function.update s.state p life q = .zombie at gone
  rw [Function.update_apply] at gone
  split at gone
  · next same => exact same ▸ clear gone e
  · exact inv.empty q e gone

end Inv

section Calls
variable {s t : State} {p : Slot} {f : Entry}

theorem fdalloc_eq_some {fd : Fd} (found : s.fdalloc p f = some (fd, t)) :
    s.ofile (p, fd) = none ∧ t = s.setFd p fd (some f) := by
  simp only [State.fdalloc] at found
  split at found
  · cases found
  · next e first =>
    cases found
    exact ⟨by simpa using List.find?_some first, rfl⟩

theorem argfd_eq_some {fd : Int} {d : Fd} (valid : s.argfd p fd = some (d, f)) :
    State.fdOf fd = some d ∧ s.ofile (p, d) = some f := by
  simp only [State.argfd] at valid
  split at valid
  · cases valid
  · next e lies =>
    obtain ⟨g, named, same⟩ := Option.map_eq_some_iff.mp valid
    cases same
    exact ⟨lies, named⟩

theorem alive_ne (alive : s.state p = .alive) : s.state p ≠ .unused ∧ s.state p ≠ .zombie := by
  rw [alive]
  exact ⟨nofun, nofun⟩

theorem sysDup_inv (inv : Inv 0 ∅ s) (alive : s.state p = .alive) (fd : Int) :
    ∃ t v, s.sysDup p fd = .ok (t, v) ∧ Inv 0 ∅ t := by
  simp only [State.sysDup]
  split
  · exact ⟨s, -1, rfl, inv⟩
  · next d f valid =>
    split
    · exact ⟨s, -1, rfl, inv⟩
    · next e t found =>
      obtain ⟨free, rfl⟩ := fdalloc_eq_some found
      have used := inv.counted.pos_of_slot (argfd_eq_some valid).2
      refine ⟨(s.setRef f (s.ref f + 1)).setFd p e (some f), e, ?_,
        (inv.filedup used).put free (alive_ne alive)⟩
      -- the descriptor is written before the count, which does not depend on it
      rw [State.filedup_ok (s := s.setFd p e (some f)) used]
      rfl

/-- `fileclose` on the file of a descriptor that is about to be overwritten. -/
theorem closeNew_inv (inv : Inv 0 ∅ s) (new : Fd) :
    ∃ t, s.closeNew p new = .ok t ∧ Inv 0 ∅ (t.setFd p new none) ∧ t.ofile = s.ofile ∧
      t.state = s.state := by
  simp only [State.closeNew]
  split
  · next free =>
    have same : s.setFd p new none = s := by
      rw [State.setFd, ← free, Function.update_eq_self]
    exact ⟨s, rfl, same.symm ▸ inv, rfl, rfl⟩
  · next g named =>
    obtain ⟨u, closed, after, slots, states, -⟩ := (inv.take named).fileclose
    rw [State.fileclose_setFd] at closed
    cases result : s.fileclose g with
    | error e =>
      rw [result] at closed
      cases closed
    | ok t =>
      rw [result] at closed
      cases closed
      refine ⟨t, rfl, after, ?_, states⟩
      simp only [State.fileclose] at result
      split at result
      · cases result
      · split at result
        · cases result
          rfl
        · cases result
          exact (State.release_same _ _).2.1

theorem sysDup2_inv (inv : Inv 0 ∅ s) (alive : s.state p = .alive) (oldfd newfd : Int) :
    ∃ t v, s.sysDup2 p oldfd newfd = .ok (t, v) ∧ Inv 0 ∅ t := by
  simp only [State.sysDup2]
  split
  · exact ⟨s, -1, rfl, inv⟩
  · next old f valid =>
    split
    · exact ⟨s, -1, rfl, inv⟩
    · next new lies =>
      split
      · exact ⟨s, old, rfl, inv⟩
      · next apart =>
        obtain ⟨t, closed, after, slots, states⟩ := closeNew_inv (p := p) inv new
        have named : (t.setFd p new none).ofile (p, old) = some f := by
          change Function.update t.ofile (p, new) none (p, old) = some f
          rw [Function.update_of_ne (fun same => apart (Prod.mk.inj same).2), slots]
          exact (argfd_eq_some valid).2
        have used := after.counted.pos_of_slot named
        have free : (t.setFd p new none).ofile (p, new) = none := Function.update_self ..
        have live : t.state p ≠ .unused ∧ t.state p ≠ .zombie := states ▸ alive_ne alive
        have done := (after.filedup used).put free live
        refine ⟨(t.setRef f (t.ref f + 1)).setFd p new (some f), new, ?_, ?_⟩
        · rw [closed]
          change (t.filedup f >>= _) = _
          rw [State.filedup_ok (s := t) used]
          rfl
        · have same : ((t.setFd p new none).setRef f (t.ref f + 1)).setFd p new (some f) =
              (t.setRef f (t.ref f + 1)).setFd p new (some f) := by
            simp only [State.setFd, State.setRef, State.setFile, Function.update_idem]
          exact same ▸ done

theorem sysClose_inv (inv : Inv 0 ∅ s) (fd : Int) :
    ∃ t v, s.sysClose p fd = .ok (t, v) ∧ Inv 0 ∅ t := by
  simp only [State.sysClose]
  split
  · exact ⟨s, -1, rfl, inv⟩
  · next d f valid =>
    obtain ⟨t, closed, after, -⟩ := (inv.take (argfd_eq_some valid).2).fileclose
    exact ⟨t, 0, by rw [closed, Checked.ok_bind], after⟩

theorem sysOpen_inv (inv : Inv 0 ∅ s) (alive : s.state p = .alive) (found : Option (Nat × Bool))
    (omode : Nat) : ∃ t v, s.sysOpen p found omode = .ok (t, v) ∧ Inv 0 ∅ t := by
  simp only [State.sysOpen]
  split
  · exact ⟨s, -1, rfl, inv⟩
  · next ip isDir =>
    split
    · exact ⟨s, -1, rfl, inv⟩
    · split
      · exact ⟨s, -1, rfl, inv⟩
      · next f t allocated =>
        obtain ⟨fresh, -, refs, slots, states⟩ := inv.filealloc allocated
        have one : t.ref f = 1 := by rw [refs, Function.update_self]
        split
        · obtain ⟨u, closed, after, -, -, refs⟩ := fresh.fileclose
          refine ⟨u, -1, by rw [closed, Checked.ok_bind], after.settle ?_⟩
          rw [refs, Function.update_self, one]
        · next fd u found =>
          obtain ⟨free, rfl⟩ := fdalloc_eq_some found
          have placed := fresh.put free (states ▸ alive_ne alive)
          refine ⟨_, _, rfl, placed.attach _ _ _ (Finset.notMem_empty f) ?_ nofun⟩
          change 0 < t.ref f
          omega

/-- Two ends in the caller's variables, or nothing at all. -/
theorem pipealloc_inv (inv : Inv 0 ∅ s) (page : Option Nat) :
    ∃ t r, s.pipealloc page = .ok (t, r) ∧ t.state = s.state ∧
      ((r = none ∧ Inv 0 ∅ t) ∨ ∃ rf wf, r = some (rf, wf) ∧ Inv (rf ::ₘ wf ::ₘ 0) ∅ t) := by
  simp only [State.pipealloc]
  split
  · exact ⟨s, none, rfl, rfl, .inl ⟨rfl, inv⟩⟩
  · next f0 s1 allocated =>
    obtain ⟨first, -, refs1, -, states1⟩ := inv.filealloc allocated
    have one0 : s1.ref f0 = 1 := by rw [refs1, Function.update_self]
    split
    · obtain ⟨t, closed, after, -, states, refs⟩ := first.fileclose
      refine ⟨t, none,
        by rw [closed, Checked.ok_bind], states.trans states1, .inl ⟨rfl, after.settle ?_⟩⟩
      rw [refs, Function.update_self, one0]
    · next f1 s2 allocated =>
      obtain ⟨both, free1, refs2, -, states2⟩ := first.filealloc allocated
      have apart : f0 ≠ f1 := by
        rintro rfl
        omega
      have one0 : s2.ref f0 = 1 := by rw [refs2, Function.update_of_ne apart, one0]
      have one1 : s2.ref f1 = 1 := by rw [refs2, Function.update_self]
      rw [Multiset.cons_swap] at both
      split
      · obtain ⟨t, closed0, after0, -, states0, refs0⟩ := both.fileclose
        obtain ⟨u, closed1, after1, -, states1', refs1'⟩ := after0.fileclose
        refine ⟨u, none, by rw [closed0, Checked.ok_bind, closed1, Checked.ok_bind],
          states1'.trans (states0.trans (states2.trans states1)),
          .inl ⟨rfl, (after1.settle ?_).settle ?_⟩⟩
        · rw [refs1', Function.update_self, refs0, Function.update_of_ne apart.symm, one1]
        · rw [refs1', Function.update_of_ne apart, refs0, Function.update_self, one0]
      · next page =>
        rw [Finset.insert_comm] at both
        have new : f0 ∉ (insert f1 ∅ : Finset Entry) := by simpa using apart
        have reader := both.attach (.pipe page) true false new (by omega) nofun
        have used : 0 < (s2.attach f0 (.pipe page) true false).ref f1 := by
          rw [State.ref_attach]
          omega
        have writer := reader.attach (.pipe page) false true (Finset.notMem_empty f1) used nofun
        exact ⟨_, _, rfl, states2.trans states1, .inr ⟨f0, f1, rfl, writer⟩⟩

theorem sysPipe_inv (inv : Inv 0 ∅ s) (alive : s.state p = .alive) (argok : Bool)
    (page : Option Nat) : ∃ t v, s.sysPipe p argok page = .ok (t, v) ∧ Inv 0 ∅ t := by
  simp only [State.sysPipe]
  split
  · exact ⟨s, -1, rfl, inv⟩
  · obtain ⟨t, r, allocated, states, failed | ⟨rf, wf, rfl, both⟩⟩ := pipealloc_inv inv page
    · obtain ⟨rfl, after⟩ := failed
      exact ⟨t, -1, by rw [allocated, Checked.ok_bind], after⟩
    · rw [allocated, Checked.ok_bind]
      dsimp only
      have live : t.state p ≠ .unused ∧ t.state p ≠ .zombie := states ▸ alive_ne alive
      split
      · obtain ⟨u, closed0, after0, -⟩ := both.fileclose
        obtain ⟨w, closed1, after1, -⟩ := after0.fileclose
        exact ⟨w, -1, by rw [closed0, Checked.ok_bind, closed1, Checked.ok_bind], after1⟩
      · next fd0 u found =>
        obtain ⟨free0, rfl⟩ := fdalloc_eq_some found
        have placed := both.put free0 live
        split
        · -- no second descriptor: the first is taken back
          have named : (t.setFd p fd0 (some rf)).ofile (p, fd0) = some rf := Function.update_self ..
          obtain ⟨w, closed0, after0, -⟩ := (placed.take named).fileclose
          obtain ⟨x, closed1, after1, -⟩ := after0.fileclose
          exact ⟨x, -1, by rw [closed0, Checked.ok_bind, closed1, Checked.ok_bind], after1⟩
        · next fd1 w found =>
          obtain ⟨free1, rfl⟩ := fdalloc_eq_some found
          exact ⟨_, 0, rfl, placed.put free1 live⟩

theorem dupAll_inv {np : Slot} {fds : List Fd} (nodup : fds.Nodup) (inv : Inv 0 ∅ s)
    (embryo : s.state np = .embryo) (free : ∀ fd ∈ fds, s.ofile (np, fd) = none) :
    ∃ t, s.dupAll p np fds = .ok t ∧ Inv 0 ∅ t := by
  induction fds generalizing s with
  | nil => exact ⟨s, rfl, inv⟩
  | cons fd rest ih =>
    obtain ⟨first, nodup⟩ := List.nodup_cons.mp nodup
    have later (e : Fd) (inside : e ∈ rest) := free e (List.mem_cons_of_mem fd inside)
    rw [State.dupAll]
    split
    · exact ih nodup inv embryo later
    · next f named =>
      have used := inv.counted.pos_of_slot named
      have live : s.state np ≠ .unused ∧ s.state np ≠ .zombie := by
        rw [embryo]
        exact ⟨nofun, nofun⟩
      have placed := (inv.filedup used).put (free fd List.mem_cons_self) live
      rw [State.filedup_ok used]
      refine ih nodup placed embryo ?_
      intro e inside
      have other : (np, e) ≠ (np, fd) := by
        intro same
        cases same
        exact first inside
      exact (Function.update_of_ne other _ _).trans (later e inside)

theorem fork_inv (inv : Inv 0 ∅ s) (memory : Bool) :
    ∃ t v, s.fork p memory = .ok (t, v) ∧ Inv 0 ∅ t := by
  simp only [State.fork]
  split
  · exact ⟨s, -1, rfl, inv⟩
  · next np t allocated =>
    simp only [State.allocproc] at allocated
    split at allocated
    · cases allocated
    · next q first =>
      cases allocated
      have unused : s.state np = .unused := by simpa using List.find?_some first
      have clear := fun fd => inv.empty np fd (.inl unused)
      have born : Inv 0 ∅ { s.setState np .embryo with nextpid := s.nextpid + 1 } := by
        have next := inv.setState (p := np) .embryo (fun wrong => by cases wrong <;> contradiction)
        exact ⟨next.counted, next.closed, next.unset, next.typed, next.ledger, next.empty⟩
      split
      · exact ⟨_, -1, rfl, born.setState .unused fun _ => clear⟩
      · obtain ⟨t, copied, after⟩ := dupAll_inv (p := p) (List.nodup_finRange nofile) born
          (Function.update_self ..) (fun fd _ => clear fd)
        exact ⟨_, s.nextpid, by rw [copied,
          Checked.ok_bind], after.setState .alive fun wrong => by cases wrong <;> contradiction⟩

theorem closeAll_inv (fds : List Fd) (inv : Inv 0 ∅ s) :
    ∃ t, s.closeAll p fds = .ok t ∧ Inv 0 ∅ t ∧
      ∀ fd, fd ∈ fds ∨ s.ofile (p, fd) = none → t.ofile (p, fd) = none := by
  induction fds generalizing s with
  | nil =>
    refine ⟨s, rfl, inv, ?_⟩
    rintro fd (inside | free)
    · cases inside
    · exact free
  | cons fd rest ih =>
    rw [State.closeAll]
    split
    · next free =>
      obtain ⟨t, closed, after, clear⟩ := ih inv
      refine ⟨t, closed, after, ?_⟩
      rintro e (inside | gone)
      · rcases List.mem_cons.mp inside with rfl | inside
        · exact clear e (.inr free)
        · exact clear e (.inl inside)
      · exact clear e (.inr gone)
    · next f named =>
      obtain ⟨u, closed, after, slots, -⟩ := closeNew_inv (p := p) inv fd
      simp only [State.closeNew, named] at closed
      obtain ⟨t, rest, after, clear⟩ := ih after
      refine ⟨t, by rw [closed, Checked.ok_bind, rest], after, ?_⟩
      intro e emptied
      apply clear e
      change _ ∨ Function.update u.ofile (p, fd) none (p, e) = none
      rw [Function.update_apply, slots]
      split
      · exact .inr rfl
      · next other =>
        rcases emptied with inside | gone
        · rcases List.mem_cons.mp inside with rfl | inside
          · exact absurd rfl other
          · exact .inl inside
        · exact .inr gone

theorem exit_inv (inv : Inv 0 ∅ s) :
    s.exit p = .error .initExiting ∨ ∃ t, s.exit p = .ok t ∧ Inv 0 ∅ t := by
  simp only [State.exit]
  split
  · exact .inl rfl
  · obtain ⟨t, closed, after, clear⟩ := closeAll_inv (p := p) (List.finRange nofile) inv
    refine .inr ⟨_, by rw [closed,
      Checked.ok_bind], after.setState .zombie fun _ fd => clear fd (.inl (List.mem_finRange fd))⟩

theorem call_inv (inv : Inv 0 ∅ s) (alive : s.state p = .alive) (call : Call) :
    ∃ t v, s.call p call = .ok (t, v) ∧ Inv 0 ∅ t := by
  cases call with
  | «open» found omode => exact sysOpen_inv inv alive found omode
  | pipe argok page => exact sysPipe_inv inv alive argok page
  | dup fd => exact sysDup_inv inv alive fd
  | dup2 oldfd newfd => exact sysDup2_inv inv alive oldfd newfd
  | close fd => exact sysClose_inv inv fd
  | fork memory => exact fork_inv inv memory

/-- The only way to stop the kernel is that init exits. -/
theorem act_inv {a : Action} {r : Except Panic State} (inv : Inv 0 ∅ s) (made : s.act a = some r) :
    r = .error .initExiting ∨ ∃ t, r = .ok t ∧ Inv 0 ∅ t := by
  cases a with
  | call p call =>
    simp only [State.act] at made
    split at made
    · next alive =>
      obtain ⟨t, v, result, after⟩ := call_inv inv alive call
      rw [result] at made
      cases made
      exact .inr ⟨t, rfl, after⟩
    · cases made
  | exit p =>
    simp only [State.act] at made
    split at made
    · cases made
      exact exit_inv inv
    · cases made
  | reap p =>
    simp only [State.act] at made
    split at made
    · next zombie =>
      cases made
      exact .inr ⟨_, rfl, inv.setState .unused fun _ fd => inv.empty p fd (.inr zombie)⟩
    · cases made

theorem step_inv {a : Action} (inv : Inv 0 ∅ s) (taken : s.step a = some t) : Inv 0 ∅ t := by
  obtain ⟨r, made, result⟩ := Option.bind_eq_some_iff.mp taken
  rcases act_inv inv made with rfl | ⟨u, rfl, after⟩
  · cases result
  · cases result
    exact after

theorem userinit_inv : Inv 0 ∅ userinit := by
  constructor
  · exact Counted.empty
  · exact fun _ _ => rfl
  · exact fun _ _ => rfl
  · exact fun _ _ wrong => absurd wrong (lt_irrefl 0)
  · exact ⟨nofun, nofun, List.nodup_nil, nofun, nofun⟩
  · exact fun _ _ _ => rfl

/-- What was acquired is not released exactly as long as a descriptor names its entry. -/
theorem Inv.open_iff (inv : Inv 0 ∅ s) {t : Nat} (bound : t < s.ledger.acquired.length) :
    t ∈ s.ledger.released.map Prod.fst ↔
      ¬ ∃ i f r, s.ofile i = some f ∧ s.behind f = some (t, r) := by
  rw [← not_iff_not, not_not, inv.ledger.open_iff t bound]
  constructor
  · rintro ⟨f, r, here⟩
    have used : 0 < refs s.ofile f := by
      rw [← inv.counted.eq_refs f, Nat.pos_iff_ne_zero]
      intro zero
      exact nomatch (inv.closed f zero).symm.trans here
    obtain ⟨i, named⟩ := refs_pos_iff.mp used
    exact ⟨i, f, r, named, here⟩
  · rintro ⟨i, f, r, -, here⟩
    exact ⟨f, r, here⟩

theorem fdOf_val {fd : Int} {d : Fd} (lies : State.fdOf fd = some d) : (d : Int) = fd := by
  simp only [State.fdOf] at lies
  split at lies
  · next range =>
    cases lies
    exact Int.toNat_of_nonneg range.1
  · cases lies

theorem closeNew_ofile {new : Fd} (closed : s.closeNew p new = .ok t) : t.ofile = s.ofile := by
  simp only [State.closeNew] at closed
  split at closed
  · cases closed
    rfl
  · simp only [State.fileclose] at closed
    split at closed
    · cases closed
    · split at closed
      · cases closed
        rfl
      · cases closed
        exact (State.release_same _ _).2.1

/-- `sys_dup2` gives `newfd` the file of `oldfd` and touches
no other descriptor, or it changes nothing. -/
theorem sysDup2_ofile {oldfd newfd v : Int} (done : s.sysDup2 p oldfd newfd = .ok (t, v)) :
    (v = -1 ∧ t = s) ∨ ∃ old new, State.fdOf oldfd = some old ∧
      State.fdOf newfd = some new ∧ v = newfd ∧
      s.ofile (p, old) ≠ none ∧ t.ofile = Function.update s.ofile (p, new) (s.ofile (p, old)) := by
  simp only [State.sysDup2] at done
  split at done
  · cases done
    exact .inl ⟨rfl, rfl⟩
  · next old f valid =>
    obtain ⟨lies, named⟩ := argfd_eq_some valid
    split at done
    · cases done
      exact .inl ⟨rfl, rfl⟩
    · next new inside =>
      refine .inr ⟨old, new, lies, inside, ?_⟩
      rw [named]
      split at done
      · next same =>
        cases done
        subst same
        exact ⟨fdOf_val inside, nofun, by rw [← named, Function.update_eq_self]⟩
      · obtain ⟨u, closed, done⟩ := Checked.bind_ok.mp done
        obtain ⟨w, counted, done⟩ := Checked.bind_ok.mp done
        cases done
        have slots : w.ofile = s.ofile := by
          simp only [State.filedup] at counted
          split at counted
          · cases counted
          · cases counted
            exact (closeNew_ofile closed : u.ofile = s.ofile)
        refine ⟨fdOf_val inside, nofun, ?_⟩
        rw [← slots]
        rfl

end Calls

/-- Between calls every count is the number of descriptors that name the
entry, so no call can reach the panics of `filedup` and `fileclose`; what is
behind an entry is given back once, and has been as soon as no descriptor
names it; and `dup2` replaces one descriptor or changes nothing. -/
theorem refs_exact {schedule : List Action} {s : State}
    (reached : Transition.run State.step userinit schedule = some s) :
    (∀ f, (s.file f).ref = refs s.ofile f) ∧
      (∀ a r, s.act a = some r → r ≠ .error .filedup ∧ r ≠ .error .fileclose) ∧
      ((s.ledger.released.map Prod.fst).Nodup ∧
        (∀ t r, (t, r) ∈ s.ledger.released → s.ledger.acquired[t]? = some r) ∧
        ∀ t < s.ledger.acquired.length,
          t ∈ s.ledger.released.map Prod.fst ↔
          ¬ ∃ i f r, s.ofile i = some f ∧ s.behind f = some (t, r)) ∧
      ∀ p oldfd newfd t v, s.sysDup2 p oldfd newfd = .ok (t, v) →
        (v = -1 ∧ t = s) ∨ ∃ old new, State.fdOf oldfd = some old ∧
        State.fdOf newfd = some new ∧ v = newfd ∧
          s.ofile (p, old) ≠ none ∧ t.ofile = Function.update s.ofile (p, new)
          (s.ofile (p, old)) := by
  have preserves (s : State) (a : Action) (t : State) (inv : Inv 0 ∅ s)
    (taken : s.step a = some t) : Inv 0 ∅ t :=
    step_inv inv taken
  have inv := Transition.invariant preserves reached userinit_inv
  refine ⟨inv.counted.eq_refs, ?_,
    ⟨inv.ledger.once, inv.ledger.faithful, fun t bound => inv.open_iff bound⟩, ?_⟩
  · intro a r made
    rcases act_inv inv made with rfl | ⟨t, rfl, -⟩
    · exact ⟨nofun, nofun⟩
    · exact ⟨nofun, nofun⟩
  · intro p oldfd newfd t v done
    exact sysDup2_ofile done

/-- An inode shared by two processes, once through `dup2`, is
given back when the second of them lets go. -/
theorem refs_exact_shared_inode :
    ∃ s, Transition.run State.step userinit
        [.call 0 (.open (some (7, false)) State.oRdwr), .call 0 (.fork true), .call 1 (.dup2 0 5),
          .call 0 (.close 0), .exit 1] =
          some s ∧
      s.ledger.released = [(0, .inode 7)] ∧ ∀ f, (s.file f).ref = refs s.ofile f := by
  have runs : (Transition.run State.step userinit
      [.call 0 (.open (some (7, false)) State.oRdwr), .call 0 (.fork true), .call 1 (.dup2 0 5),
      .call 0 (.close 0), .exit 1]).map
        (fun s => s.ledger.released) = some [(0, .inode 7)] := by decide
  obtain ⟨s, reached, released⟩ := Option.map_eq_some_iff.mp runs
  exact ⟨s, reached, released, (refs_exact reached).1⟩

end Aso.Xv6.Ftable
