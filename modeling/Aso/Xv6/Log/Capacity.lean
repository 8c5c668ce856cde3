import Aso.Xv6.Log.Grouping
import Mathlib.Data.Finset.Card
import Mathlib.Algebra.Order.BigOperators.Group.List
import Mathlib.Algebra.Order.Group.Nat

/-! How many blocks a transaction can hold. `begin_op` reserves `maxOpBlocks`
blocks of `logSize` for each operation, but mkfs gives the log `logSize` blocks
with the header among them, and `log_write` also refuses the last of these. -/
namespace Aso.Xv6.Log
open Transition

/-- Every operation passes at most `maxOpBlocks` distinct blocks to `log_write`. -/
def WithinLimit (s : State) : Action → Prop
  | .logWrite p b => (s.logged p ++ [b]).toFinset.card ≤ maxOpBlocks
  | _ => True

instance : ∀ s a, Decidable (WithinLimit s a)
  | _, .beginOp _ | _, .endOp _ | _, .go _ => isTrue trivial
  | s, .logWrite p b =>
    inferInstanceAs (Decidable ((s.logged p ++ [b]).toFinset.card ≤ maxOpBlocks))

/-- What is left of the reservation of the operation that logged `blocks`. -/
def reserve (blocks : List Nat) : Nat := maxOpBlocks - blocks.toFinset.card

/-- The reservations of the operations in progress fit in what the header
array still has free. -/
structure Reserved (s : State) : Prop where
  bound : s.lh.length ≤ logSize
  budget : s.committing = false → ∀ ps : List Nat, ps.Nodup → (∀ q ∈ ps, (s.pc q).inOp = true) →
    s.lh.length + (ps.map fun q => reserve (s.logged q)).sum ≤ logSize
  limit : ∀ q b, s.pc q = .sized b ∨ s.pc q = .tested b →
    (s.logged q ++ [b]).toFinset.card ≤ maxOpBlocks
  stored : s.panic ≠ some .overflow

theorem reserved_initlog (size : Nat) : Reserved (initlog size) where
  bound := by simp [initlog]
  budget := fun _ ps _ inside => by
    cases ps with
    | nil => simp [initlog]
    | cons q rest => simpa [initlog, Pc.inOp] using inside q List.mem_cons_self
  limit := by simp [initlog]
  stored := by simp [initlog]

theorem reserve_append_of_notMem {blocks : List Nat} {b : Nat} (absent : b ∉ blocks)
    (limit : (blocks ++ [b]).toFinset.card ≤ maxOpBlocks) :
    reserve blocks = reserve (blocks ++ [b]) + 1 := by
  have card : (blocks ++ [b]).toFinset.card = blocks.toFinset.card + 1 := by
    rw [List.toFinset_append, List.toFinset_cons, List.toFinset_nil, Finset.union_insert,
      Finset.union_empty, Finset.card_insert_of_notMem (by simpa using absent)]
  unfold reserve
  omega

theorem reserve_append_le (blocks : List Nat) (b : Nat) :
    reserve (blocks ++ [b]) ≤ reserve blocks := by
  have : blocks.toFinset.card ≤ (blocks ++ [b]).toFinset.card :=
    Finset.card_le_card (by rw [List.toFinset_append]; exact Finset.subset_union_left)
  unfold reserve
  omega

namespace Reserved
variable {s t : State} {p b : Nat}

/-- Steps that change neither the header nor the histories, and let nobody
into an operation or `log_write`. -/
theorem relabel (res : Reserved s) {pc : Nat → Pc}
    (op : ∀ q, (pc q).inOp = true → (s.pc q).inOp = true)
    (writing : ∀ q b, pc q = .sized b ∨ pc q = .tested b → s.pc q = .sized b ∨ s.pc q = .tested b) :
    Reserved { s with pc := pc } :=
  { res with
    budget := fun idle ps distinct inside => res.budget idle ps distinct
      fun q member => op q (inside q member)
    limit := fun q b here => res.limit q b (writing q b here) }

theorem move (res : Reserved s) {c : Pc} (op : c.inOp = true → (s.pc p).inOp = true)
    (writing : ∀ b, c = .sized b ∨ c = .tested b → s.pc p = .sized b ∨ s.pc p = .tested b) :
    Reserved (s.setPc p c) := by
  apply res.relabel
  · intro q inside
    by_cases same : q = p
    · subst q
      exact op (by simpa using inside)
    · simpa [same] using inside
  · intro q b here
    by_cases same : q = p
    · subst q
      exact writing b (by simpa using here)
    · simpa [same] using here

theorem wakeup (res : Reserved s) : Reserved s.wakeup := by
  apply res.relabel
  · intro q inside
    by_cases asleep : s.pc q = .sleeping
    · simp [asleep, Pc.inOp] at inside
    · simpa [asleep] using inside
  · intro q b here
    by_cases asleep : s.pc q = .sleeping
    · simp [asleep] at here
    · simpa [asleep] using here

theorem sum_reserve_le (logged : Nat → List Nat) (ps : List Nat) :
    (ps.map fun q => reserve (logged q)).sum ≤ ps.length * maxOpBlocks := by
  have sum := List.sum_le_card_nsmul (ps.map fun q => reserve (logged q)) maxOpBlocks (by
    intro r member
    obtain ⟨q, -, rfl⟩ := List.mem_map.mp member
    exact Nat.sub_le _ _)
  simpa using sum

/-- The test in `begin_op` is exactly the budget with one more full reservation. -/
theorem enter (res : Reserved s) (inv : Inv s) (p : Nat) : Reserved (s.enter p) := by
  have asleep : Reserved (s.setPc p .sleeping) := res.move (by simp [Pc.inOp]) (by simp)
  unfold State.enter
  split
  · exact asleep
  · split
    · exact asleep
    · rename_i room
      exact { res with
        budget := fun _ ps distinct inside => by
          obtain ⟨active, -, members, count⟩ := inv.active
          have sub : (ps.erase p).length ≤ active.length := by
            apply (List.subperm_of_subset (distinct.erase p) _).length_le
            intro q member
            obtain ⟨other, member⟩ := distinct.mem_erase_iff.mp member
            exact (members q).mpr (by simpa [State.setPc, other] using inside q member)
          have total : ps.length ≤ (ps.erase p).length + 1 := by
            by_cases member : p ∈ ps
            · rw [List.length_erase_of_mem member]
              omega
            · rw [List.erase_of_not_mem member]
              omega
          have sum := sum_reserve_le s.logged ps
          simp only [State.setPc] at *
          simp only [maxOpBlocks, logSize] at *
          omega
        limit := fun q b writing => by
          by_cases same : q = p
          · simp [State.setPc, same] at writing
          · exact res.limit q b (by simpa [State.setPc, same] using writing) }

theorem map_reserve_update {logged : Nat → List Nat} {new : List Nat} {ps : List Nat}
    (absent : p ∉ ps) :
    (ps.map fun q => reserve (Function.update logged p new q)) = ps.map fun q =>
      reserve (logged q) := by
  apply List.map_congr_left
  intro q member
  have other : q ≠ p := fun same => absent (same ▸ member)
  rw [Function.update_of_ne other]

/-- The reservation of `p` split off from those of any processes inside an operation. -/
theorem budget_split (res : Reserved s) (idle : s.committing = false)
    (inside : (s.pc p).inOp = true) {ps : List Nat} (distinct : ps.Nodup)
    (others : ∀ q ∈ ps, q ≠ p → (s.pc q).inOp = true) :
    s.lh.length + (reserve (s.logged p) + ((ps.erase p).map fun q => reserve (s.logged q)).sum) ≤
      logSize := by
  have budget := res.budget idle (p :: ps.erase p)
    (List.nodup_cons.mpr ⟨distinct.not_mem_erase, distinct.erase p⟩) (by
    intro q member
    rcases List.mem_cons.mp member with rfl | member
    · exact inside
    · obtain ⟨other, member⟩ := distinct.mem_erase_iff.mp member
      exact others q member other)
  simpa using budget

theorem sum_reserve_update (logged : Nat → List Nat) (new : List Nat) {ps : List Nat}
    (distinct : ps.Nodup) : (ps.map fun q => reserve (Function.update logged p new q)).sum ≤
      reserve new + ((ps.erase p).map fun q => reserve (logged q)).sum := by
  by_cases member : p ∈ ps
  · rw [((List.perm_cons_erase member).map _).sum_eq, List.map_cons, List.sum_cons,
      map_reserve_update distinct.not_mem_erase, Function.update_self]
  · rw [List.erase_of_not_mem member, map_reserve_update member]
    exact Nat.le_add_left _ _

/-- Once `p` is out of `log_write`, only others are bound by a block in hand. -/
theorem limit_setPc (res : Reserved s) {c : Pc} {new : List Nat}
    (outside : ∀ b, c ≠ .sized b ∧ c ≠ .tested b) (q b : Nat)
    (writing : (s.setPc p c).pc q = .sized b ∨ (s.setPc p c).pc q = .tested b) :
    (Function.update s.logged p new q ++ [b]).toFinset.card ≤ maxOpBlocks := by
  by_cases same : q = p
  · simp [State.setPc, same, outside b] at writing
  · rw [Function.update_of_ne same]
    exact res.limit q b (by simpa [State.setPc, same] using writing)

/-- A block new to the header costs its operation one block of reservation. -/
theorem absorb (res : Reserved s) (inv : Inv s) (here : s.pc p = .tested b) :
    Reserved (s.absorb p b) := by
  have mine : (s.pc p).inOp = true := by simp [here, Pc.inOp]
  obtain ⟨idle, -⟩ := inv.running_excludes mine
  have spread (ps : List Nat) (distinct : ps.Nodup)
      (inside : ∀ q ∈ ps, ((s.setPc p .running).pc q).inOp = true) :=
    res.budget_split idle mine distinct fun q member other => by
      simpa [State.setPc, other] using inside q member
  unfold State.absorb
  split
  · exact { res with
      budget := fun _ ps distinct inside => by
        have budget := spread ps distinct inside
        have sum := sum_reserve_update (p := p) s.logged (s.logged p ++ [b]) distinct
        have := reserve_append_le (s.logged p) b
        simp only [State.setPc]
        omega
      limit := res.limit_setPc (by simp) }
  · rename_i absent
    have fresh : b ∉ s.logged p := fun member => absent ((inv.blocks idle b).mpr (.inr ⟨p, member⟩))
    have cost := reserve_append_of_notMem fresh (res.limit p b (.inr here))
    have room := spread [p] (List.nodup_singleton p) (by simp [State.setPc, Pc.inOp])
    split
    · omega
    · exact { res with
        bound := by simpa using (by omega : s.lh.length + 1 ≤ logSize)
        budget := fun _ ps distinct inside => by
          have budget := spread ps distinct inside
          have sum := sum_reserve_update (p := p) s.logged (s.logged p ++ [b]) distinct
          simp only [List.length_append, List.length_singleton]
          omega
        limit := res.limit_setPc (by simp) }

theorem leave (res : Reserved s) : Reserved (s.leave p) := by
  simp only [State.leave]
  split
  · exact { res with stored := by simp [State.panics] }
  · split
    · exact { res with
        budget := by simp
        limit := res.limit_setPc (by simp) }
    · have opened : Reserved { s.setPc p .idle with
          outstanding := s.outstanding - 1
          logged := Function.update s.logged p []
          ended := s.ended ++ [s.logged p], history := s.history ++ [s.logged p] } := { res with
        budget := fun idle ps distinct inside => by
          have absent : p ∉ ps := fun member => by
            simpa [State.setPc, Pc.inOp] using inside p member
          simpa only [map_reserve_update absent, State.setPc_lh] using
            (res.budget idle ps distinct fun q member => by
              have other : q ≠ p := fun same => absent (same ▸ member)
              simpa [State.setPc, other] using inside q member)
        limit := res.limit_setPc (by simp) }
      exact opened.wakeup

theorem commitStep (res : Reserved s) (inv : Inv s) {c : Pc} (here : s.pc p = c)
    (stepped : s.commitStep p c = some t) : Reserved t := by
  cases c with
  | idle | entering | sleeping | running | sized | tested => simp [State.commitStep] at stepped
  | commit =>
    cases Option.some.inj stepped
    split <;> exact res.move (by simp [Pc.inOp]) (by simp)
  | writeLog tail =>
    simp only [State.commitStep] at stepped
    split at stepped <;> cases Option.some.inj stepped
    · exact { res.move (c := .writeLog (tail + 1)) (by simp [Pc.inOp]) (by simp) with }
    · exact res.move (by simp [Pc.inOp]) (by simp)
  | writeHead =>
    cases Option.some.inj stepped
    exact { res.move (c := .install 0) (by simp [Pc.inOp]) (by simp) with }
  | install tail =>
    have committing := inv.committer p (by simp [here, Pc.inCommit])
    simp only [State.commitStep] at stepped
    split at stepped <;> cases Option.some.inj stepped
    · exact { res.move (c := .install (tail + 1)) (by simp [Pc.inOp]) (by simp) with }
    · exact { res.move (c := .clearHead) (by simp [Pc.inOp]) (by simp) with
        bound := by simp
        budget := fun idle => by simp [State.setPc, committing] at idle }
  | clearHead =>
    cases Option.some.inj stepped
    exact res.move (by simp [Pc.inOp]) (by simp)
  | finish =>
    have committing := inv.committer p (by simp [here, Pc.inCommit])
    have outside := inv.committing_excludes committing
    cases Option.some.inj stepped
    have closed : Reserved { s.setPc p .idle with
        committing := false, current := .start [], commits := s.commits ++ [s.current] } :=
      { res.move (c := .idle) (by simp [Pc.inOp]) (by simp) with
        budget := fun _ ps _ inside => by
          cases ps with
          | nil => exact res.bound
          | cons q rest =>
            have := inside q List.mem_cons_self
            by_cases same : q = p
            · simp [State.setPc, same, Pc.inOp] at this
            · simp [State.setPc, same, outside q] at this }
    exact closed.wakeup

/-- The block passed to `log_write` is within the limit of its operation. -/
theorem testSize (res : Reserved s) (here : s.pc p = .running)
    (within : (s.logged p ++ [b]).toFinset.card ≤ maxOpBlocks) : Reserved (s.testSize p b) := by
  unfold State.testSize
  split
  · exact { res with stored := by simp [State.panics] }
  · exact { res with
      budget := fun idle ps distinct inside => res.budget idle ps distinct fun q member => by
        have := inside q member
        by_cases same : q = p
        · simp [same, here, Pc.inOp]
        · simpa [State.setPc, same] using this
      limit := fun q c writing => by
        by_cases same : q = p
        · subst q
          have : b = c := by simpa [State.setPc] using writing
          exact this ▸ within
        · exact res.limit q c (by simpa [State.setPc, same] using writing) }

theorem testOutstanding (res : Reserved s) (here : s.pc p = .sized b) :
    Reserved (s.testOutstanding p b) := by
  unfold State.testOutstanding
  split
  · exact { res with stored := by simp [State.panics] }
  · exact res.move (by simp [here, Pc.inOp]) (by simp [here])

theorem step (res : Reserved s) (inv : Inv s) {a : Action} (within : WithinLimit s a)
    (taken : s.step a = some t) : Reserved t := by
  cases State.stepped taken with
  | beginOp => exact res.move (by simp [Pc.inOp]) (by simp)
  | logWrite here => exact res.testSize here within
  | endOp => exact res.leave
  | enter => exact res.enter inv _
  | sized here => exact res.testOutstanding here
  | tested here => exact res.absorb inv here
  | commit stepped => exact res.commitStep inv rfl stepped

end Reserved

/-- Fewer than `nlog - 1` distinct blocks have been logged since the last
commit whenever `log_write` is called, and whenever it appends a new one. -/
def RoomLeft (s : State) : Action → Prop
  | .logWrite _ _ => s.since.toFinset.card < nlog - 1
  | .go p => ∀ b, s.pc p = .tested b → b ∉ s.since → s.since.toFinset.card < nlog - 1
  | _ => True

instance : ∀ s a, Decidable (RoomLeft s a)
  | _, .beginOp _ | _, .endOp _ => isTrue trivial
  | s, .logWrite _ _ => inferInstanceAs (Decidable (s.since.toFinset.card < nlog - 1))
  | s, .go p => match here : s.pc p with
    | .tested b =>
      decidable_of_iff (b ∉ s.since → s.since.toFinset.card < nlog - 1) (by simp [RoomLeft, here])
    | .idle | .entering | .sleeping | .running | .sized _ | .commit | .writeLog _ | .writeHead
    | .install _ | .clearHead | .finish => isTrue (by simp [RoomLeft, here])

/-- No panic for a too big transaction, and no more logged blocks than the log
has data blocks on disk. -/
def Fits (s : State) : Prop := s.panic ≠ some .tooBig ∧ s.lh.length ≤ nlog - 1

section
variable {s t : State} {p b : Nat} {a : Action}

theorem Inv.length_lh (inv : Inv s) (idle : s.committing = false) :
    s.lh.length = s.since.toFinset.card := by
  rw [← List.toFinset_card_of_nodup inv.distinct]
  congr 1
  ext b
  simpa using inv.since idle b

theorem commitStep_fits (fits : Fits s) {c : Pc} (stepped : s.commitStep p c = some t) :
    Fits t := by
  unfold State.commitStep at stepped
  split at stepped
  · cases Option.some.inj stepped
    exact fits
  · split at stepped <;> cases Option.some.inj stepped <;> exact fits
  · cases Option.some.inj stepped
    exact fits
  · split at stepped <;> cases Option.some.inj stepped
    · exact fits
    · exact ⟨fits.1, by simp⟩
  · cases Option.some.inj stepped
    exact fits
  · cases Option.some.inj stepped
    exact fits
  · cases stepped

theorem commitStep_size {c : Pc} (stepped : s.commitStep p c = some t) : t.size = s.size := by
  unfold State.commitStep at stepped
  split at stepped <;> (try split at stepped) <;> cases stepped <;> rfl

theorem step_size (taken : s.step a = some t) : t.size = s.size := by
  cases State.stepped taken with
  | beginOp => rfl
  | logWrite =>
    rw [State.testSize]
    split <;> rfl
  | endOp =>
    simp only [State.leave]
    split
    · rfl
    · split <;> rfl
  | enter =>
    rw [State.enter]
    split
    · rfl
    · split <;> rfl
  | sized =>
    rw [State.testOutstanding]
    split <;> rfl
  | tested =>
    rw [State.absorb]
    split
    · rfl
    · split <;> rfl
  | commit stepped => exact commitStep_size stepped

/-- The test of `log_write` passes exactly with room left. -/
theorem testSize_fits_iff (inv : Inv s) (size : s.size = nlog) (fits : Fits s)
    (here : s.pc p = .running) : Fits (s.testSize p b) ↔ RoomLeft s (.logWrite p b) := by
  have count := inv.length_lh (inv.running_excludes (p := p) (by simp [here, Pc.inOp])).1
  simp only [RoomLeft, ← count, State.testSize, size]
  split
  · next full =>
    refine iff_of_false (fun fits => fits.1 rfl) ?_
    simp only [nlog] at full ⊢
    omega
  · next room =>
    refine iff_of_true fits ?_
    simp only [nlog] at room ⊢
    omega

/-- An absorbed block costs nothing; a new one fits exactly with room left. -/
theorem absorb_fits_iff (inv : Inv s) (fits : Fits s) (here : s.pc p = .tested b) :
    Fits (s.absorb p b) ↔ RoomLeft s (.go p) := by
  have idle := (inv.running_excludes (p := p) (by simp [here, Pc.inOp])).1
  have count := inv.length_lh idle
  have short := fits.2
  rw [State.absorb]
  split
  · next present =>
    have known : b ∈ s.since := (inv.since idle b).mp present
    exact iff_of_true fits (by simp [RoomLeft, here, known])
  · next absent =>
    have unknown : b ∉ s.since := fun member => absent ((inv.since idle b).mpr member)
    have room : RoomLeft s (.go p) ↔ s.lh.length < nlog - 1 := by
      simp [RoomLeft, here, unknown, count]
    rw [room]
    split
    · simp only [nlog, logSize, maxOpBlocks] at *
      omega
    · simp only [Fits, List.length_append, List.length_singleton]
      exact ⟨fun fits => fits.2, fun room => ⟨fits.1, room⟩⟩

/-- One step keeps the transaction within the log exactly when the step is
taken with room left. -/
theorem step_fits_iff (inv : Inv s) (size : s.size = nlog) (fits : Fits s)
    (taken : s.step a = some t) : Fits t ↔ RoomLeft s a := by
  cases State.stepped taken with
  | beginOp => exact iff_of_true fits trivial
  | logWrite here => exact testSize_fits_iff inv size fits here
  | @endOp p here =>
    have idle := (inv.running_excludes (p := p) (by simp [here, Pc.inOp])).1
    simp only [State.leave, idle, Bool.false_eq_true, if_false]
    split <;> exact iff_of_true fits trivial
  | @enter p here =>
    have room : RoomLeft s (.go p) := by simp [RoomLeft, here]
    rw [State.enter]
    split
    · exact iff_of_true fits room
    · split <;> exact iff_of_true fits room
  | @sized p b here =>
    have := (inv.running_excludes (p := p) (by simp [here, Pc.inOp])).2
    rw [State.testOutstanding, if_neg (by omega)]
    exact iff_of_true fits (by simp [RoomLeft, here])
  | tested here => exact absorb_fits_iff inv fits here
  | commit stepped =>
    refine iff_of_true (commitStep_fits fits stepped) fun b here => ?_
    rw [here] at stepped
    cases stepped

end

theorem reserved_reached {size : Nat} {schedule : List Action} {s : State}
    (reached : run State.step (initlog size) schedule = some s)
    (within : Along State.step WithinLimit (initlog size) schedule) : Reserved s := by
  have both : Inv s ∧ Reserved s := invariant_along (P := fun s => Inv s ∧ Reserved s)
    (fun _ a _ both within stepped => ⟨both.1.step a stepped, both.2.step both.1 within stepped⟩)
    within reached ⟨inv_initlog size, reserved_initlog size⟩
  exact both.2

/-- On the log that mkfs lays out, with every operation within its limit: the
header array is never overrun, and `log_write` never panics and the log's data
blocks always suffice exactly for the schedules that leave room at every call. -/
theorem log_fits_iff_room_left {schedule : List Action} {s : State}
    (reached : run State.step (initlog nlog) schedule = some s)
    (within : Along State.step WithinLimit (initlog nlog) schedule) :
    s.lh.length ≤ logSize ∧ s.panic ≠ some .overflow ∧
      (Visits State.step Fits (initlog nlog) schedule ↔
        Along State.step RoomLeft (initlog nlog) schedule) := by
  have res := reserved_reached reached within
  refine ⟨res.bound, res.stored, ?_⟩
  exact visits_iff_along (I := fun s => Inv s ∧ s.size = nlog)
    (fun _ a _ kept _ taken => ⟨kept.1.step a taken, (step_size taken).trans kept.2⟩)
    (fun _ _ _ kept fits taken => step_fits_iff kept.1 kept.2 fits taken) reached
    ⟨inv_initlog nlog, rfl⟩ ⟨by simp [initlog], by simp [initlog]⟩

/-- `log_write` of each block in turn, with nobody in between. -/
def logAll (p : Nat) (blocks : List Nat) : List Action :=
  blocks.flatMap fun b => [.logWrite p b, .go p, .go p]

theorem log_fits_absorbed_block :
    Visits State.step Fits (initlog nlog)
      ([.beginOp 0, .go 0] ++ logAll 0 [50, 51, 50] ++ [.endOp 0]) :=
  (log_fits_iff_room_left rfl (by decide)).2.2.mpr (by decide)

/-- Three operations admitted together, each logging ten blocks of its own. -/
def threeFullOperations : List Action :=
  [.beginOp 0, .go 0, .beginOp 1, .go 1, .beginOp 2, .go 2] ++ logAll 0 (List.range 10) ++
    logAll 1 ((List.range 10).map (10 + ·)) ++ logAll 2 ((List.range 9).map (20 + ·)) ++
    [.logWrite 2 29]

theorem three_full_operations_panic :
    Along State.step WithinLimit (initlog nlog) threeFullOperations ∧
      (run State.step (initlog nlog) threeFullOperations).map State.panic =
      some (some .tooBig) := by
  decide +kernel

end Aso.Xv6.Log
