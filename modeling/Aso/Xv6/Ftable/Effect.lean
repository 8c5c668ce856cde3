import Aso.Xv6.Ftable.Counts

/-! What a call can do to the table: it writes the descriptors of one process, puts
new things behind entries that were free and lets go of old ones, and the ledger
grows by what it acquired and released. -/
namespace Aso.Xv6.Ftable
open Checked

/-- From `s` to `t` only the descriptors of `p` were written, `new` was acquired, and
only a `fresh` entry has something else behind it than before. -/
structure Moves (p : Slot) (new : List Resource) (fresh : Entry → Prop) (s t : State) : Prop where
  others : ∀ q fd, q ≠ p → t.ofile (q, fd) = s.ofile (q, fd)
  behind : ∀ f, fresh f ∨ t.behind f = s.behind f ∨ t.behind f = none
  acquired : t.ledger.acquired = s.ledger.acquired ++ new
  released : s.ledger.released <+: t.ledger.released
  state : t.state = s.state

variable {p : Slot} {new : List Resource} {fresh : Entry → Prop} {s t u : State} {f : Entry}

namespace Moves

theorem refl (s : State) : Moves p [] fresh s s :=
  ⟨fun _ _ _ => rfl, fun _ => .inr (.inl rfl), (List.append_nil _).symm, List.prefix_refl _, rfl⟩

theorem trans {later : List Resource} (first : Moves p new fresh s t)
    (second : Moves p later fresh t u) : Moves p (new ++ later) fresh s u := by
  constructor
  · intro q fd other
    rw [second.others q fd other, first.others q fd other]
  · intro f
    rcases second.behind f with known | same | gone
    · exact .inl known
    · rw [same]
      exact first.behind f
    · exact .inr (.inr gone)
  · rw [second.acquired, first.acquired, List.append_assoc]
  · exact first.released.trans second.released
  · exact second.state.trans first.state

theorem quiet (first : Moves p new fresh s t) (second : Moves p [] fresh t u) :
    Moves p new fresh s u := by
  have both := first.trans second
  rwa [List.append_nil] at both

theorem setFd (s : State) (p : Slot) (fd : Fd) (v : Option Entry) :
    Moves p [] fresh s (s.setFd p fd v) := by
  refine ⟨fun q e other => ?_, fun _ => .inr (.inl rfl), (List.append_nil _).symm,
    List.prefix_refl _, rfl⟩
  exact Function.update_of_ne (fun same => other (Prod.mk.inj same).1) _ _

theorem setRef (s : State) (f : Entry) (n : Nat) : Moves p [] fresh s (s.setRef f n) := by
  refine ⟨fun _ _ _ => rfl, fun g => .inr (.inl ?_), (List.append_nil _).symm,
    List.prefix_refl _, rfl⟩
  rw [State.behind_setRef]

theorem filedup (done : s.filedup f = .ok t) : Moves p [] fresh s t := by
  simp only [State.filedup] at done
  split at done
  · cases done
  · cases done
    exact setRef s f _

theorem fileclose (done : s.fileclose f = .ok t) : Moves p [] fresh s t := by
  simp only [State.fileclose] at done
  split at done
  · cases done
  split at done
  · cases done
    exact setRef s f _
  · cases done
    obtain ⟨files, slots, states⟩ := State.release_same
      (s.setFile f { s.file f with ref := 0, type := .none }) (s.behind f)
    refine ⟨fun q fd _ => ?_, fun g => .inr ?_, ?_, ?_, states⟩
    · exact congrFun slots (q, fd)
    · have rest :
          ((s.setFile f { s.file f with ref := 0, type := .none }).release (s.behind f)).behind =
          Function.update s.behind f none := by
        funext h
        rw [State.behind, files]
        exact congrFun (State.behind_setFile s f { s.file f with ref := 0, type := .none }) h
      change (State.release _ (s.behind f)).behind g = _ ∨
        (State.release _ (s.behind f)).behind g = _
      rw [rest, Function.update_apply]
      split
      · exact .inr rfl
      · exact .inl rfl
    · change (State.release _ (s.behind f)).ledger.acquired = _
      cases s.behind f <;> exact (List.append_nil _).symm
    · change _ <+: (State.release _ (s.behind f)).ledger.released
      cases s.behind f with
      | none => exact List.prefix_refl _
      | some event => exact List.prefix_append _ _

theorem fdalloc {fd : Fd} (found : s.fdalloc p f = some (fd, t)) : Moves p [] fresh s t := by
  obtain ⟨-, rfl⟩ := fdalloc_eq_some found
  exact setFd s p fd _

theorem attach {r : Resource} {type : FdType} {readable writable : Bool} (known : fresh f)
    (kind : File.behind
      { s.file f with type, readable, writable, tag := s.ledger.acquired.length } = some
      (s.ledger.acquired.length, r)) : Moves p [r] fresh s (s.attach f type readable writable) := by
  refine ⟨fun _ _ _ => rfl, fun g => ?_, ?_, List.prefix_refl _, rfl⟩
  · obtain rfl | other := eq_or_ne g f
    · exact .inl known
    · refine .inr (.inl ?_)
      exact (congrFun (State.behind_setFile s f _) g).trans (Function.update_of_ne other _ _)
  · simp only [State.attach, kind]
    rfl

end Moves

theorem filealloc_eq_some (found : s.filealloc = some (f, t)) : s.ref f = 0 ∧ t = s.setRef f 1 := by
  simp only [State.filealloc] at found
  split at found
  · cases found
  · next g first =>
    cases found
    exact ⟨by simpa using List.find?_some first, rfl⟩

theorem sysDup_moves {fd v : Int} (done : s.sysDup p fd = .ok (t, v)) : Moves p [] fresh s t := by
  simp only [State.sysDup] at done
  split at done
  · cases done
    exact .refl s
  split at done
  · cases done
    exact .refl s
  · next found =>
    obtain ⟨u, counted, rest⟩ := bind_ok.mp done
    cases rest
    exact (Moves.fdalloc found).quiet (.filedup counted)

theorem sysDup2_moves {oldfd newfd v : Int} (done : s.sysDup2 p oldfd newfd = .ok (t, v)) :
    Moves p [] fresh s t := by
  simp only [State.sysDup2] at done
  split at done
  · cases done
    exact .refl s
  split at done
  · cases done
    exact .refl s
  split at done
  · cases done
    exact .refl s
  · next old f _ _ new _ _ =>
    obtain ⟨u, closed, rest⟩ := bind_ok.mp done
    obtain ⟨w, counted, rest⟩ := bind_ok.mp rest
    cases rest
    have first : Moves p [] fresh s u := by
      simp only [State.closeNew] at closed
      split at closed
      · cases closed
        exact .refl s
      · exact .fileclose closed
    exact (first.quiet (.filedup counted)).quiet (.setFd w p new _)

theorem sysClose_moves {fd v : Int} (done : s.sysClose p fd = .ok (t, v)) :
    Moves p [] fresh s t := by
  simp only [State.sysClose] at done
  split at done
  · cases done
    exact .refl s
  · next d f _ =>
    obtain ⟨u, closed, rest⟩ := bind_ok.mp done
    cases rest
    exact (Moves.setFd s p d none).quiet (.fileclose closed)

/-- An `open` acquires at most the inode it was given, behind an entry that was free. -/
theorem sysOpen_moves {found : Option (Nat × Bool)} {omode : Nat} {v : Int}
    (done : s.sysOpen p found omode = .ok (t, v)) :
    ∃ new, Moves p new (s.ref · = 0) s t ∧ ∀ r ∈ new, ∃ ip, r = .inode ip := by
  simp only [State.sysOpen] at done
  split at done
  · cases done
    exact ⟨[], .refl s, List.forall_mem_nil _⟩
  split at done
  · cases done
    exact ⟨[], .refl s, List.forall_mem_nil _⟩
  split at done
  · cases done
    exact ⟨[], .refl s, List.forall_mem_nil _⟩
  · next ip _ _ _ f u allocated =>
    obtain ⟨free, rfl⟩ := filealloc_eq_some allocated
    have first : Moves p [] (s.ref · = 0) s (s.setRef f 1) := .setRef s f 1
    split at done
    · obtain ⟨u, closed, rest⟩ := bind_ok.mp done
      cases rest
      exact ⟨[], first.quiet (.fileclose closed), List.forall_mem_nil _⟩
    · next fd u found =>
      cases done
      refine ⟨[.inode ip], (first.quiet (.fdalloc found)).trans (.attach free rfl), ?_⟩
      intro r member
      exact ⟨ip, List.mem_singleton.mp member⟩

/-- `pipealloc` makes both ends of a pipe in the page it was given, or acquires nothing. -/
theorem pipealloc_moves {page : Option Nat} {ends : Option (Entry × Entry)}
    (done : s.pipealloc page = .ok (t, ends)) :
    ∃ new, Moves p new (s.ref · = 0) s t ∧
      (new = [] ∨ ∃ g, page = some g ∧ new = [.pipeEnd g false, .pipeEnd g true]) := by
  simp only [State.pipealloc] at done
  split at done
  · cases done
    exact ⟨[], .refl s, .inl rfl⟩
  · next f0 s1 allocated =>
    obtain ⟨free0, rfl⟩ := filealloc_eq_some allocated
    have first : Moves p [] (s.ref · = 0) s (s.setRef f0 1) := .setRef s f0 1
    split at done
    · obtain ⟨u, closed, rest⟩ := bind_ok.mp done
      cases rest
      exact ⟨[], first.quiet (.fileclose closed), .inl rfl⟩
    · next f1 s2 allocated =>
      obtain ⟨free1, rfl⟩ := filealloc_eq_some allocated
      have second := first.quiet (.setRef (s.setRef f0 1) f1 1)
      split at done
      · obtain ⟨u, closed0, rest⟩ := bind_ok.mp done
        obtain ⟨w, closed1, rest⟩ := bind_ok.mp rest
        cases rest
        exact ⟨[], (second.quiet (.fileclose closed0)).quiet (.fileclose closed1), .inl rfl⟩
      · next g =>
        cases done
        -- the entry taken second was free before the first was taken
        have apart : f1 ≠ f0 := by
          rintro rfl
          rw [State.ref_setRef, Function.update_self] at free1
          cases free1
        rw [State.ref_setRef, Function.update_of_ne apart] at free1
        exact ⟨[.pipeEnd g false, .pipeEnd g true], (second.trans (.attach free0 rfl)).trans
          (.attach free1 rfl), .inr ⟨g, rfl, rfl⟩⟩

theorem sysPipe_moves {argok : Bool} {page : Option Nat} {v : Int}
    (done : s.sysPipe p argok page = .ok (t, v)) : ∃ new, Moves p new (s.ref · = 0) s t ∧
      (new = [] ∨ ∃ g, page = some g ∧ new = [.pipeEnd g false, .pipeEnd g true]) := by
  simp only [State.sysPipe] at done
  split at done
  · cases done
    exact ⟨[], .refl s, .inl rfl⟩
  · obtain ⟨⟨u, ends⟩, allocated, rest⟩ := bind_ok.mp done
    obtain ⟨new, first, kind⟩ := pipealloc_moves (p := p) allocated
    refine ⟨new, ?_, kind⟩
    cases ends with
    | none =>
      cases rest
      exact first
    | some ends =>
      obtain ⟨rf, wf⟩ := ends
      dsimp only at rest
      split at rest
      · obtain ⟨w, closed0, rest⟩ := bind_ok.mp rest
        obtain ⟨x, closed1, rest⟩ := bind_ok.mp rest
        cases rest
        exact (first.quiet (.fileclose closed0)).quiet (.fileclose closed1)
      · next fd0 w found =>
        have placed := first.quiet (.fdalloc found)
        split at rest
        · obtain ⟨x, closed0, rest⟩ := bind_ok.mp rest
          obtain ⟨y, closed1, rest⟩ := bind_ok.mp rest
          cases rest
          exact ((placed.quiet (.setFd w p fd0 none)).quiet (.fileclose closed0)).quiet
            (.fileclose closed1)
        · next found =>
          cases rest
          exact placed.quiet (.fdalloc found)

theorem dupAll_moves {np : Slot} {fds : List Fd} (done : s.dupAll p np fds = .ok t) :
    Moves np [] fresh s t := by
  induction fds generalizing s with
  | nil =>
    cases done
    exact .refl _
  | cons fd rest ih =>
    rw [State.dupAll] at done
    split at done
    · exact ih done
    · next f _ =>
      obtain ⟨u, counted, rest⟩ := bind_ok.mp done
      exact ((Moves.filedup counted).quiet (.setFd u np fd _)).quiet (ih rest)

/-- A `fork` leaves the table alone, or the child's slot gets the descriptors. -/
theorem fork_moves {memory : Bool} {v : Int} (done : s.fork p memory = .ok (t, v)) :
    ((List.finRange nproc).find? (fun q => s.state q = .unused) = none ∧ t = s) ∨
      ∃ np, (List.finRange nproc).find? (fun q => s.state q = .unused) = some np ∧
        Moves np [] fresh (if memory then s.setState np .alive else s) t := by
  simp only [State.fork, State.allocproc] at done
  split at done
  · next full =>
    split at full
    · next none =>
      cases done
      exact .inl ⟨none, rfl⟩
    · cases full
  · next np u allocated =>
    split at allocated
    · cases allocated
    · next q first =>
      cases allocated
      refine .inr ⟨np, first, ?_⟩
      have unused : s.state np = .unused := by simpa using List.find?_some first
      cases memory with
      | false =>
        cases done
        refine ⟨fun _ _ _ => rfl, fun _ => .inr (.inl rfl), (List.append_nil _).symm,
          List.prefix_refl _, ?_⟩
        change Function.update (Function.update s.state np .embryo) np .unused = s.state
        rw [Function.update_idem, ← unused, Function.update_eq_self]
      | true =>
        obtain ⟨w, copied, rest⟩ := bind_ok.mp done
        cases rest
        have moved : Moves np [] fresh _ w := dupAll_moves copied
        refine ⟨moved.others, moved.behind, moved.acquired, moved.released, ?_⟩
        change Function.update w.state np .alive = Function.update s.state np .alive
        rw [moved.state]
        exact Function.update_idem ..

theorem closeAll_moves {fds : List Fd} (done : s.closeAll p fds = .ok t) :
    Moves p [] fresh s t := by
  induction fds generalizing s with
  | nil =>
    cases done
    exact .refl _
  | cons fd rest ih =>
    rw [State.closeAll] at done
    split at done
    · exact ih done
    · obtain ⟨u, closed, rest⟩ := bind_ok.mp done
      exact ((Moves.fileclose closed).quiet (.setFd u p fd none)).quiet (ih rest)

theorem exit_moves (done : s.exit p = .ok t) : Moves p [] fresh (s.setState p .zombie) t := by
  simp only [State.exit] at done
  split at done
  · cases done
  · obtain ⟨u, closed, rest⟩ := bind_ok.mp done
    cases rest
    have moved : Moves p [] fresh s u := closeAll_moves closed
    refine ⟨moved.others, moved.behind, moved.acquired, moved.released, ?_⟩
    change Function.update u.state p .zombie = Function.update s.state p .zombie
    rw [moved.state]

end Aso.Xv6.Ftable
