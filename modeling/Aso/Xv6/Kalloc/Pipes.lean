import Aso.Xv6.Ftable.Effect
import Aso.Xv6.Kalloc.Machine
import Aso.Xv6.Vm.Owned

/-! Pipes and their pages. An end of a pipe is open exactly as long as the file table
holds it; the page goes back to the free list with the second end. -/
namespace Aso.Xv6.Kalloc
open Checked
open Ftable (Resource Moves)
open Vm (Kernel Mem Panic pgsize phystop kalloc_freelist kfree_freelist)

def Ends.isOpen (e : Ends) (writable : Bool) : Bool := if writable then e.writeopen else e.readopen

/-- The page is in use as a pipe. -/
def Ends.used (e : Ends) : Bool := e.readopen || e.writeopen

/-- Of what was acquired, all but the places in `done` are still held; an end that is
open is held once, and an end that is closed is not held. -/
structure Tracks (acquired : List Resource) (done : List Nat) (pipe : Nat → Ends) : Prop where
  open_iff : ∀ g w, (pipe g).isOpen w = true ↔ ∃ t, t ∉ done ∧ acquired[t]? = some (.pipeEnd g w)
  once : ∀ g w t t', t ∉ done → t' ∉ done → acquired[t]? = some (.pipeEnd g w) →
    acquired[t']? = some (.pipeEnd g w) → t = t'

theorem Ends.isOpen_close (e : Ends) (w v : Bool) :
    (e.close w).isOpen v = (e.isOpen v && v != w) := by
  cases w <;> cases v <;> simp [isOpen, close]

theorem Ends.used_iff {e : Ends} : e.used = true ↔ ∃ w, e.isOpen w = true := by
  simp [used, isOpen]

namespace Tracks
variable {acquired : List Resource} {done : List Nat} {pipe : Nat → Ends} {t g : Nat}

theorem empty : Tracks [] [] fun _ => ⟨false, false⟩ := by
  refine ⟨fun g w => ?_, nofun⟩
  simp [Ends.isOpen]

theorem release_inode {ip : Nat} (tracks : Tracks acquired done pipe)
    (known : acquired[t]? = some (.inode ip)) : Tracks acquired (done ++ [t]) pipe := by
  have other {g u : Nat} {w : Bool} (here : acquired[u]? = some (.pipeEnd g w)) : u ≠ t := by
    rintro rfl
    exact nomatch known.symm.trans here
  refine ⟨fun g w => ?_, fun g w u u' left left' => ?_⟩
  · rw [tracks.open_iff]
    refine exists_congr fun u => and_congr_left fun here => ?_
    rw [List.mem_append, List.mem_singleton, or_iff_left (other here)]
  · exact tracks.once g w u u' (fun old => left (List.mem_append_left _ old))
      fun old => left' (List.mem_append_left _ old)

theorem release_end {w : Bool} (tracks : Tracks acquired done pipe) (held : t ∉ done)
    (known : acquired[t]? = some (.pipeEnd g w)) :
    Tracks acquired (done ++ [t]) (Function.update pipe g ((pipe g).close w)) := by
  refine ⟨fun h v => ?_, fun h v u u' left left' => ?_⟩
  · have before := tracks.open_iff h v
    by_cases same : h = g ∧ v = w
    · obtain ⟨rfl, rfl⟩ := same
      -- this was the only place that held the end
      rw [Function.update_self, Ends.isOpen_close, bne_self_eq_false, Bool.and_false]
      refine iff_of_false nofun ?_
      rintro ⟨u, left, here⟩
      rw [List.mem_append, List.mem_singleton, not_or] at left
      exact left.2 (tracks.once h v u t left.1 held here known)
    · have unchanged :
          (Function.update pipe g ((pipe g).close w) h).isOpen v = (pipe h).isOpen v := by
        obtain rfl | other := eq_or_ne h g
        · have other : v ≠ w := fun equal => same ⟨rfl, equal⟩
          rw [Function.update_self, Ends.isOpen_close, bne_iff_ne.mpr other, Bool.and_true]
        · rw [Function.update_of_ne other]
      rw [unchanged, before]
      refine exists_congr fun u => and_congr_left fun here => ?_
      rw [List.mem_append, List.mem_singleton, or_iff_left]
      rintro rfl
      cases known.symm.trans here
      exact same ⟨rfl, rfl⟩
  · exact tracks.once h v u u' (fun old => left (List.mem_append_left _ old))
      fun old => left' (List.mem_append_left _ old)

/-- What is found at a place of a list that has grown. -/
theorem getElem?_grown {new : List Resource} {r : Resource}
    (here : (acquired ++ new)[t]? = some r) :
    acquired[t]? = some r ∨ acquired.length ≤ t ∧ new[t - acquired.length]? = some r := by
  rcases lt_or_ge t acquired.length with old | fresh
  · rw [List.getElem?_append_left old] at here
    exact .inl here
  · rw [List.getElem?_append_right fresh] at here
    exact .inr ⟨fresh, here⟩

theorem getElem?_old {new : List Resource} {r : Resource} (here : acquired[t]? = some r) :
    (acquired ++ new)[t]? = some r := by
  rw [List.getElem?_append_left (List.getElem?_eq_some_iff.mp here).1, here]

theorem acquire_inodes {new : List Resource} (tracks : Tracks acquired done pipe)
    (inodes : ∀ r ∈ new, ∃ ip, r = .inode ip) : Tracks (acquired ++ new) done pipe := by
  have old {g u : Nat} {w : Bool} (here : (acquired ++ new)[u]? = some (.pipeEnd g w)) :
      acquired[u]? = some (.pipeEnd g w) := by
    rcases getElem?_grown here with old | ⟨-, fresh⟩
    · exact old
    · obtain ⟨ip, wrong⟩ := inodes _ (List.mem_of_getElem? fresh)
      cases wrong
  refine ⟨fun g w => ?_, fun g w u u' left left' here here' => tracks.once g w u u' left left'
    (old here) (old here')⟩
  rw [tracks.open_iff]
  exact exists_congr fun u => and_congr_right fun _ => ⟨getElem?_old, old⟩

theorem acquire_pipe (tracks : Tracks acquired done pipe) (unused : (pipe g).used = false)
    (bound : ∀ t ∈ done, t < acquired.length) :
    Tracks (acquired ++ [.pipeEnd g false, .pipeEnd g true]) done
      (Function.update pipe g ⟨true, true⟩) := by
  have closed (u : Nat) (w : Bool) (left : u ∉ done) : acquired[u]? ≠ some (.pipeEnd g w) := by
    intro here
    have opened := (tracks.open_iff g w).mpr ⟨u, left, here⟩
    exact Bool.false_ne_true (unused.symm.trans (Ends.used_iff.mpr ⟨w, opened⟩))
  -- the place of each end of the new pipe
  have place {h u : Nat} {w : Bool} (left : u ∉ done)
      (here : (acquired ++ [.pipeEnd g false, .pipeEnd g true])[u]? = some (.pipeEnd h w)) :
      (h ≠ g ∧ acquired[u]? = some (.pipeEnd h w)) ∨ (h = g ∧ u = acquired.length + w.toNat) := by
    rcases getElem?_grown here with old | ⟨later, fresh⟩
    · refine .inl ⟨?_, old⟩
      rintro rfl
      exact closed u w left old
    · refine .inr ?_
      obtain ⟨i, rfl⟩ := Nat.exists_eq_add_of_le later
      rw [Nat.add_sub_cancel_left] at fresh
      match i, fresh with
      | 0, fresh =>
        cases fresh
        exact ⟨rfl, rfl⟩
      | 1, fresh =>
        cases fresh
        exact ⟨rfl, rfl⟩
  refine ⟨fun h w => ?_, fun h w u u' left left' here here' => ?_⟩
  · obtain rfl | other := eq_or_ne h g
    · rw [Function.update_self]
      refine iff_of_true (by cases w <;> rfl) ⟨acquired.length + w.toNat, ?_, ?_⟩
      · intro old
        have := bound _ old
        omega
      · rw [List.getElem?_append_right (Nat.le_add_right _ _), Nat.add_sub_cancel_left]
        cases w <;> rfl
    · rw [Function.update_of_ne other, tracks.open_iff]
      refine exists_congr fun u => and_congr_right fun left => ⟨getElem?_old, fun here => ?_⟩
      rcases place left here with ⟨-, old⟩ | ⟨same, -⟩
      · exact old
      · exact absurd same other
  · rcases place left here with ⟨other, old⟩ | ⟨same, first⟩
    · rcases place left' here' with ⟨-, old'⟩ | ⟨same, -⟩
      · exact tracks.once h w u u' left left' old old'
      · exact absurd same other
    · rcases place left' here' with ⟨other, -⟩ | ⟨-, second⟩
      · exact absurd same other
      · rw [first, second]

end Tracks

/-- The pages in use as pipes. -/
def State.pipes (s : State) : Multiset Nat :=
  (Multiset.range (phystop / pgsize)).filter fun g => (s.pipe g).used

/-- All pages that are free, owned by a process or in use as a pipe. -/
def State.pages (s : State) : Multiset Nat := s.vm.total + s.pipes

variable {k : Kernel} {s t : State} {g : Nat} {w : Bool}

theorem State.count_pipes (s : State) (f : Nat) :
    s.pipes.count f = if f < phystop / pgsize ∧ (s.pipe f).used then 1 else 0 := by
  rw [State.pipes, Multiset.count_filter, Multiset.count_eq_of_nodup (Multiset.nodup_range _)]
  by_cases inside : f < phystop / pgsize <;> simp [inside]

/-- The page of a pipe moves between the free list and the pipes. -/
theorem State.pages_setPipe {m : Mem} {ends : Ends} (bound : g < phystop / pgsize)
    (moved : (m.freelist : Multiset Nat) + (if ends.used then {g} else 0) =
      s.vm.mem.freelist + if (s.pipe g).used then {g} else 0) :
    ((s.setPipe g ends).setMem m).pages = s.pages := by
  ext f
  have here := congrArg (Multiset.count f) moved
  simp only [State.pages, Vm.State.total, Multiset.count_add, State.count_pipes, State.setPipe,
    State.setMem] at here ⊢
  obtain rfl | other := eq_or_ne f g
  · simp only [Function.update_self, bound, true_and, apply_ite (Multiset.count f),
      Multiset.count_singleton_self, Multiset.count_zero] at here ⊢
    omega
  · simp only [Function.update_of_ne other, apply_ite (Multiset.count f), Multiset.count_singleton,
      if_neg other, Multiset.count_zero, ite_self] at here ⊢
    omega

theorem State.pipes_setPipe {ends : Ends} (same : ends.used = (s.pipe g).used) :
    (s.setPipe g ends).pipes = s.pipes := by
  refine Multiset.filter_congr fun f _ => ?_
  simp only [State.setPipe, Function.update_apply]
  split
  · next here => rw [same, here]
  · rfl

/-- Only the pipes and the free list changed. -/
def Aside (s t : State) : Prop := ∃ m pipe, t = { s.setMem m with pipe := pipe }

theorem Aside.trans {u : State} (first : Aside s t) (second : Aside t u) : Aside s u := by
  obtain ⟨m, pipe, rfl⟩ := first
  obtain ⟨m', pipe', rfl⟩ := second
  exact ⟨m', pipe', rfl⟩

theorem pipeclose_ok (opened : (s.pipe g).isOpen w = true) (done : s.pipeclose k g w = .ok t) :
    Aside s t ∧ t.pipe = Function.update s.pipe g ((s.pipe g).close w) ∧ t.pages = s.pages := by
  have used : (s.pipe g).used = true := Ends.used_iff.mpr ⟨w, opened⟩
  simp only [State.pipeclose] at done
  split at done
  · next both =>
    obtain ⟨m, freed, rest⟩ := bind_ok.mp done
    cases rest
    have unused : ((s.pipe g).close w).used = false := by
      rw [Bool.and_eq_true, Bool.not_eq_true', Bool.not_eq_true'] at both
      rw [Ends.used, both.1, both.2]
      rfl
    refine ⟨⟨m, _, rfl⟩, rfl, State.pages_setPipe ?_ ?_⟩
    · unfold Mem.kfree at freed
      split at freed
      · cases freed
      · next valid =>
        rw [not_or, not_le] at valid
        exact valid.2
    · rw [kfree_freelist freed, unused, used, if_neg Bool.false_ne_true, if_pos rfl,
        add_zero, ← Multiset.cons_coe, ← Multiset.singleton_add]
      exact add_comm _ _
  · next half =>
    cases done
    have still : ((s.pipe g).close w).used = (s.pipe g).used := by
      rw [used, Ends.used]
      revert half
      cases ((s.pipe g).close w).readopen <;> cases ((s.pipe g).close w).writeopen <;> decide
    exact ⟨⟨s.vm.mem, _, rfl⟩, rfl, congrArg (s.vm.total + ·) (State.pipes_setPipe still)⟩

/-- The releases of a call close ends that were open, each once. -/
theorem release_ok {acquired : List Resource} {done : List Nat} {events : List (Nat × Resource)}
    (tracks : Tracks acquired done s.pipe) (held : ∀ e ∈ events, e.1 ∉ done)
    (apart : (events.map Prod.fst).Nodup) (known : ∀ e ∈ events, acquired[e.1]? = some e.2)
    (released : s.release k events = .ok t) :
    Aside s t ∧ Tracks acquired (done ++ events.map Prod.fst) t.pipe ∧ t.pages = s.pages := by
  induction events generalizing s done with
  | nil =>
    cases released
    exact ⟨⟨_, _, rfl⟩, by rwa [List.map_nil, List.append_nil], rfl⟩
  | cons e rest ih =>
    obtain ⟨i, r⟩ := e
    rw [List.map_cons, List.nodup_cons] at apart
    have first := held _ List.mem_cons_self
    have here := known _ List.mem_cons_self
    have later : ∀ e ∈ rest, e.1 ∉ done ++ [i] := by
      intro e member
      rw [List.mem_append, List.mem_singleton, not_or]
      refine ⟨held e (List.mem_cons_of_mem _ member), ?_⟩
      rintro rfl
      exact apart.1 (List.mem_map.mpr ⟨e, member, rfl⟩)
    have places : done ++ ((i, r) :: rest).map Prod.fst = done ++ [i] ++ rest.map Prod.fst := by
      simp
    have others := fun e member => known e (List.mem_cons_of_mem _ member)
    rw [places]
    cases r with
    | inode ip => exact ih (tracks.release_inode here) later apart.2 others released
    | pipeEnd g w =>
      obtain ⟨u, closed, rest⟩ := bind_ok.mp released
      obtain ⟨aside, pipes, kept⟩ :=
        pipeclose_ok ((tracks.open_iff g w).mpr ⟨i, first, here⟩) closed
      obtain ⟨aside', tracks', kept'⟩ :=
        ih (pipes ▸ tracks.release_end first here) later apart.2 others rest
      exact ⟨aside.trans aside', tracks', kept'.trans kept⟩

/-- A call on the file table, with what it acquired already accounted for. -/
theorem setFiles_ok {files : Ftable.State} {p : Vm.Slot} {new : List Resource}
    {fresh : Ftable.Entry → Prop} {before : Ftable.State} (inv : Ftable.Inv 0 ∅ files)
    (moved : Moves p new fresh before files) (same : before.ledger = s.files.ledger)
    (tracks : Tracks files.ledger.acquired (s.files.ledger.released.map Prod.fst) s.pipe)
    (done : s.setFiles k files = .ok t) :
    Aside { s with files := files } t ∧
      Tracks files.ledger.acquired (files.ledger.released.map Prod.fst) t.pipe ∧
      t.pages = s.pages := by
  obtain ⟨events, grown⟩ := moved.released
  rw [same] at grown
  have once := inv.ledger.once
  rw [← grown, List.map_append, List.nodup_append] at once
  unfold State.setFiles at done
  rw [← grown, List.drop_left] at done
  have held : ∀ e ∈ events, e.1 ∉ s.files.ledger.released.map Prod.fst := by
    intro e member old
    exact once.2.2 _ old _ (List.mem_map_of_mem member) rfl
  have known : ∀ e ∈ events, files.ledger.acquired[e.1]? = some e.2 := by
    intro e member
    exact inv.ledger.faithful e.1 e.2 (grown ▸ List.mem_append_right _ member)
  obtain ⟨aside, tracks, kept⟩ :=
    release_ok (s := { s with files := files }) tracks held once.2.1 known done
  rw [← grown, List.map_append]
  exact ⟨aside, tracks, kept⟩

end Aso.Xv6.Kalloc
