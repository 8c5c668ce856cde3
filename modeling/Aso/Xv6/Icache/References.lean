import Aso.Xv6.Icache.Machine
import Mathlib.Algebra.Order.BigOperators.Group.Finset

/-! What the inode cache keeps for its users: one entry for an inode, a count of the references
given, and an inode that lives as long as somebody has it. The last does not hold on every
schedule, since `iput` gives up `icache.lock` between its test and the release of the inode. -/
namespace Aso.Xv6.Icache
open Transition

namespace Pc

/-- The entry whose lock the call has. -/
def locks : Pc → Option Slot
  | loading ip | testing ip | truncating ip | clearing ip | discarding ip | releasing ip => some ip
  | _ => none

/-- The entry whose reference the call is to drop. -/
def puts : Pc → Option Slot
  | iput ip | testing ip | truncating ip | clearing ip | discarding ip | releasing ip | dropping
    ip => some ip
  | _ => none

/-- The entry that `iput` has found to be the last reference of an inode without links, until
its type is cleared. -/
def frees : Pc → Option Slot
  | truncating ip | clearing ip => some ip
  | _ => none

theorem locks_of_frees {pc : Pc} {ip : Slot} (frees : pc.frees = some ip) : pc.locks = some ip := by
  cases pc <;> first | exact frees | cases frees

theorem puts_of_frees {pc : Pc} {ip : Slot} (frees : pc.frees = some ip) : pc.puts = some ip := by
  cases pc <;> first | exact frees | cases frees

end Pc

variable {K : Nat} {s t : State K} {p q : Fin K} {ip b : Slot} {key : Key} {pc : Pc} {a : Action K}

/-- The references given for an entry and not dropped. -/
def State.refs (s : State K) (ip : Slot) : Nat := ∑ p, (s.held p).count ip

/-- Entries in use keep everything but their count, which does not fall. -/
def Spares (s t : State K) : Prop :=
  ∀ b, 0 < (s.entry b).ref → ∃ ref ≥ (s.entry b).ref, t.entry b = { s.entry b with ref := ref }

/-- The inode is free on disk after the step and was not before. -/
def Clears (s t : State K) (key : Key) : Prop := (s.disk key).type ≠ 0 ∧ (t.disk key).type = 0

/-- An `iput` that goes on to free its inode has the only reference. -/
def Alone (s : State K) : Prop := ∀ p ip, (s.pc p).frees = some ip → (s.entry ip).ref = 1

structure Lawful (s : State K) : Prop where
  unique : ∀ a b, 0 < (s.entry a).ref → 0 < (s.entry b).ref →
    (s.entry a).key = (s.entry b).key → a = b
  counted : ∀ ip, (s.entry ip).ref = s.refs ip
  spares : ∀ key ip t, s.iget key = some (ip, t) → Spares s t
  /-- Only `iput` frees an inode, without links and by its only reference. -/
  cleared : ∀ a t key, step s a = some t → Clears s t key →
    ∃ p ip, a = .go p ∧ s.pc p = .clearing ip ∧
    (s.entry ip).key = key ∧ (s.entry ip).copy.nlink = 0 ∧ ip ∈ s.held p ∧ s.refs ip = 1
  alone : Alone s

/-- No `iput` is between its test and the clearing of the type for this inode. -/
def Quiet (s : State K) (key : Key) : Prop :=
  ∀ q, ∀ ip ∈ (s.pc q).frees, (s.entry ip).key ≠ key

/-- The inode that a step takes with `iget`. -/
def gets (s : State K) : Action K → Option Key
  | .iget _ key => some key
  | .go p =>
    match s.pc p with
    | .marked key => some key
    | _ => none
  | _ => none

def Undisturbed (s : State K) (a : Action K) : Prop := ∀ key ∈ gets s a, Quiet s key

instance (s : State K) (key : Key) : Decidable (Quiet s key) :=
  inferInstanceAs (Decidable (∀ q, ∀ ip ∈ (s.pc q).frees, (s.entry ip).key ≠ key))

instance (s : State K) (a : Action K) : Decidable (Undisturbed s a) :=
  inferInstanceAs (Decidable (∀ key ∈ gets s a, Quiet s key))

/-- What holds in every state of the cache. -/
structure Inv (s : State K) : Prop where
  unique : ∀ a b, 0 < (s.entry a).ref → 0 < (s.entry b).ref →
    (s.entry a).key = (s.entry b).key → a = b
  counted : ∀ ip, (s.entry ip).ref = s.refs ip
  putting : ∀ p ip, (s.pc p).puts = some ip → ip ∈ s.held p
  locked : ∀ p ip, (s.pc p).locks = some ip → s.lock ip = some p
  unlinked : ∀ p ip, (s.pc p).frees = some ip → (s.entry ip).valid ∧ (s.entry ip).copy.nlink = 0
  /-- A current copy of a free inode is about to be discarded. -/
  typed : ∀ ip, (s.entry ip).valid → (s.entry ip).copy.type = 0 → ∃ p, s.pc p = .discarding ip

namespace State

@[simp] theorem setPc_self (s : State K) (p : Fin K) (pc : Pc) : (s.setPc p pc).pc p = pc :=
  Function.update_self ..

theorem setPc_other (s : State K) (pc : Pc) (other : q ≠ p) : (s.setPc p pc).pc q = s.pc q :=
  Function.update_of_ne other ..

@[simp] theorem setEntry_self (s : State K) (ip : Slot) (new : Inode) :
    (s.setEntry ip new).entry ip = new :=
  Function.update_self ..

theorem setEntry_other (s : State K) (new : Inode) (other : b ≠ ip) :
    (s.setEntry ip new).entry b = s.entry b :=
  Function.update_of_ne other ..

theorem refs_pos (mine : ip ∈ s.held p) : 0 < s.refs ip := by
  have one : (s.held p).count ip ≤ s.refs ip :=
    Finset.single_le_sum (f := fun p => (s.held p).count ip) (fun _ _ => Nat.zero_le _)
    (Finset.mem_univ p)
  exact (Multiset.count_pos.mpr mine).trans_le one

theorem two_le_refs (mine : ip ∈ s.held p) (other : ip ∈ s.held q) (apart : p ≠ q) :
    2 ≤ s.refs ip := by
  have pair : ∑ r ∈ {p, q}, (s.held r).count ip ≤ s.refs ip :=
    Finset.sum_le_sum_of_subset (Finset.subset_univ _)
  rw [Finset.sum_pair apart] at pair
  have := Multiset.count_pos.mpr mine
  have := Multiset.count_pos.mpr other
  omega

theorem refs_hold (s : State K) (p : Fin K) (ip b : Slot) :
    (s.hold p ip).refs b = s.refs b + if b = ip then 1 else 0 := by
  have total := sum_update (Multiset.count b) s.held p (ip ::ₘ s.held p)
  rw [Multiset.count_cons] at total
  simp only [refs, hold, setHeld]
  omega

theorem refs_lose (mine : ip ∈ s.held p) (b : Slot) :
    (s.lose p ip).refs b + (if b = ip then 1 else 0) = s.refs b := by
  have total := sum_update (Multiset.count b) s.held p ((s.held p).erase ip)
  have before : (s.held p).count b = ((s.held p).erase ip).count b + if b = ip then 1 else 0 := by
    conv_lhs => rw [← Multiset.cons_erase mine, Multiset.count_cons]
  simp only [refs, lose, setHeld]
  omega

end State

/-- `iget` finds the entry in use, or fills one that is not. -/
theorem iget_cases (got : s.iget key = some (ip, t)) :
    (0 < (s.entry ip).ref ∧ (s.entry ip).key = key ∧ t = s.idup ip) ∨
    ((∀ b, 0 < (s.entry b).ref → (s.entry b).key ≠ key) ∧ (s.entry ip).ref = 0 ∧
      t = s.setEntry ip { s.entry ip with key := key, ref := 1, valid := false }) := by
  simp only [State.iget] at got
  split at got
  · next found =>
    cases got
    have here := List.find?_some found
    simp only [decide_eq_true_eq] at here
    exact .inl ⟨here.1, here.2, rfl⟩
  · next absent =>
    have no (b : Slot) (used : 0 < (s.entry b).ref) (same : (s.entry b).key = key) : False := by
      have := List.find?_eq_none.mp absent b (List.mem_finRange b)
      exact this (decide_eq_true ⟨used, same⟩)
    split at got
    · next found =>
      cases got
      have here := List.find?_some found
      simp only [decide_eq_true_eq] at here
      exact .inr ⟨no, here, rfl⟩
    · cases got

theorem acquiresleep_eq (taken : s.acquiresleep p ip = some t) :
    s.lock ip = none ∧ t = s.setLock ip (some p) := by
  simp only [State.acquiresleep, Option.ite_none_right_eq_some, Option.some.injEq] at taken
  exact ⟨taken.1, taken.2.symm⟩

theorem iget_spares (got : s.iget key = some (ip, t)) : Spares s t := by
  intro b used
  obtain ⟨-, -, rfl⟩ | ⟨-, unused, rfl⟩ := iget_cases got
  · obtain rfl | other := eq_or_ne b ip
    · exact ⟨_, Nat.le_succ _, Function.update_self ..⟩
    · exact ⟨_, le_rfl, Function.update_of_ne other ..⟩
  · have other : b ≠ ip := by
      rintro rfl
      exact used.ne' unused
    exact ⟨_, le_rfl, Function.update_of_ne other ..⟩

namespace Inv

theorem used (inv : Inv s) (puts : (s.pc p).puts = some ip) : 0 < (s.entry ip).ref := by
  rw [inv.counted]
  exact State.refs_pos (inv.putting p ip puts)

/-- A process goes on in its call; the entries stay. -/
theorem setPc (inv : Inv s) (putting : ∀ ip, pc.puts = some ip → ip ∈ s.held p)
    (locked : ∀ ip, pc.locks = some ip → s.lock ip = some p)
    (unlinked : ∀ ip, pc.frees = some ip → (s.entry ip).valid ∧ (s.entry ip).copy.nlink = 0)
    (typed : ∀ ip, s.pc p = .discarding ip → (s.entry ip).valid = false) : Inv (s.setPc p pc) := by
  refine ⟨inv.unique, inv.counted, ?_, ?_, ?_, ?_⟩
  · intro q ip
    simp only [State.setPc, Function.update_apply]
    split
    · next same => exact same ▸ putting ip
    · exact inv.putting q ip
  · intro q ip
    simp only [State.setPc, Function.update_apply]
    split
    · next same => exact same ▸ locked ip
    · exact inv.locked q ip
  · intro q ip
    simp only [State.setPc, Function.update_apply]
    split
    · exact unlinked ip
    · exact inv.unlinked q ip
  · intro ip valid free
    obtain ⟨q, discards⟩ := inv.typed ip valid free
    have other : q ≠ p := by
      rintro rfl
      exact absurd valid (by rw [State.setPc, typed ip discards]; nofun)
    exact ⟨q, (s.setPc_other pc other).trans discards⟩

/-- One entry changes, and the references held with its count. -/
theorem entry {new : Inode} {held : Fin K → Multiset Slot} (inv : Inv s)
    (apart : 0 < new.ref → ∀ b, b ≠ ip → 0 < (s.entry b).ref → (s.entry b).key ≠ new.key)
    (count : new.ref = State.refs { s with held := held } ip)
    (counts : ∀ b, b ≠ ip → State.refs { s with held := held } b = s.refs b)
    (putting : ∀ q b, (s.pc q).puts = some b → b ∈ held q)
    (unlinked : ∀ q, (s.pc q).frees = some ip → new.valid ∧ new.copy.nlink = 0)
    (typed : new.valid → new.copy.type = 0 → ∃ p, s.pc p = .discarding ip) :
    Inv { s.setEntry ip new with held := held } := by
  have here := s.setEntry_self ip new
  have there (b : Slot) (other : b ≠ ip) := s.setEntry_other new other
  refine ⟨fun a b => ?_, fun b => ?_, putting, inv.locked, fun q b => ?_, fun b => ?_⟩
  · show 0 < ((s.setEntry ip new).entry a).ref → 0 < ((s.setEntry ip new).entry b).ref →
      ((s.setEntry ip new).entry a).key = ((s.setEntry ip new).entry b).key → a = b
    by_cases first : a = ip <;> by_cases second : b = ip
    · exact fun _ _ _ => first.trans second.symm
    · rw [first, here, there b second]
      exact fun used used' same => absurd same.symm (apart used b second used')
    · rw [second, here, there a first]
      exact fun used used' same => absurd same (apart used' a first used)
    · rw [there a first, there b second]
      exact inv.unique a b
  · show ((s.setEntry ip new).entry b).ref = _
    by_cases same : b = ip
    · rw [same, here]
      exact count
    · rw [there b same, inv.counted]
      exact (counts b same).symm
  · show (s.pc q).frees = some b →
        ((s.setEntry ip new).entry b).valid ∧ ((s.setEntry ip new).entry b).copy.nlink = 0
    by_cases same : b = ip
    · rw [same, here]
      exact unlinked q
    · rw [there b same]
      exact inv.unlinked q b
  · show ((s.setEntry ip new).entry b).valid → ((s.setEntry ip new).entry b).copy.type = 0 →
        ∃ p, s.pc p = .discarding b
    by_cases same : b = ip
    · rw [same, here]
      exact typed
    · rw [there b same]
      exact inv.typed b

/-- The fields of an entry change, but not the inode it is for. -/
theorem setEntry {new : Inode} (inv : Inv s) (key : new.key = (s.entry ip).key)
    (ref : new.ref = (s.entry ip).ref)
    (unlinked : ∀ q, (s.pc q).frees = some ip → new.valid ∧ new.copy.nlink = 0)
    (typed : new.valid → new.copy.type = 0 → ∃ p, s.pc p = .discarding ip) :
    Inv (s.setEntry ip new) := by
  have apart : 0 < new.ref → ∀ b, b ≠ ip → 0 < (s.entry b).ref → (s.entry b).key ≠ new.key := by
    rw [key, ref]
    exact fun used b other used' same => other (inv.unique b ip used' used same)
  have kept : Inv { s.setEntry ip new with held := s.held } :=
    inv.entry apart (ref.trans (inv.counted ip)) (fun _ _ => rfl) inv.putting unlinked typed
  exact kept

theorem disk {disk : Key → Fs.Dinode} (inv : Inv s) : Inv { s with disk := disk } :=
  ⟨inv.unique, inv.counted, inv.putting, inv.locked, inv.unlinked, inv.typed⟩

theorem setLock {holder : Option (Fin K)} (inv : Inv s) (nobody : ∀ q, (s.pc q).locks ≠ some ip) :
    Inv (s.setLock ip holder) := by
  refine ⟨inv.unique, inv.counted, inv.putting, fun q b holds => ?_, inv.unlinked, inv.typed⟩
  have other : b ≠ ip := by
    rintro rfl
    exact nobody q holds
  exact (Function.update_of_ne other ..).trans (inv.locked q b holds)

theorem acquiresleep (inv : Inv s) (taken : s.acquiresleep p ip = some t) :
    Inv t ∧ t = s.setLock ip (some p) := by
  obtain ⟨free, rfl⟩ := acquiresleep_eq taken
  refine ⟨inv.setLock fun q holds => ?_, rfl⟩
  exact nomatch free.symm.trans (inv.locked q ip holds)

/-- One more reference, to an entry that is the only one for its inode. -/
theorem take {new : Inode} (inv : Inv s) (ref : new.ref = (s.entry ip).ref + 1)
    (apart : ∀ b, b ≠ ip → 0 < (s.entry b).ref → (s.entry b).key ≠ new.key)
    (unlinked : ∀ q, (s.pc q).frees = some ip → new.valid ∧ new.copy.nlink = 0)
    (typed : new.valid → new.copy.type = 0 → ∃ p, s.pc p = .discarding ip) :
    Inv ((s.setEntry ip new).hold p ip) := by
  refine inv.entry (fun _ => apart) ?_ (fun b other => ?_) (fun q b puts => ?_) unlinked typed
  · rw [ref, inv.counted]
    exact (s.refs_hold p ip ip).symm ▸ (if_pos rfl).symm ▸ rfl
  · exact (s.refs_hold p ip b).trans (by rw [if_neg other, Nat.add_zero])
  · have member := inv.putting q b puts
    rw [Function.update_apply]
    split
    · next same => exact Multiset.mem_cons_of_mem (same ▸ member)
    · exact member

theorem idup (inv : Inv s) (used : 0 < (s.entry ip).ref) : Inv ((s.idup ip).hold p ip) :=
  inv.take rfl (fun b other used' same => other (inv.unique b ip used' used same))
    (fun q => inv.unlinked q ip) (inv.typed ip)

theorem iget (inv : Inv s) (got : s.iget key = some (ip, t)) : Inv (t.hold p ip) := by
  obtain ⟨used, -, rfl⟩ | ⟨absent, unused, rfl⟩ := iget_cases got
  · exact inv.idup used
  · refine inv.take (by rw [unused]) (fun b _ => absent b) (fun q frees => ?_) nofun
    exact absurd unused (inv.used (Pc.puts_of_frees frees)).ne'

/-- A process that is in no `iput` drops a reference. -/
theorem drop (inv : Inv s) (mine : ip ∈ s.held p) (idle : (s.pc p).puts = none) :
    Inv ((s.setEntry ip { s.entry ip with ref := (s.entry ip).ref - 1 }).lose p ip) := by
  have counts := State.refs_lose mine
  have used : 0 < (s.entry ip).ref := by
    rw [inv.counted]
    exact State.refs_pos mine
  refine inv.entry ?_ ?_ (fun b other => ?_) (fun q b puts => ?_) (fun q => inv.unlinked q ip)
    (inv.typed ip)
  · exact fun _ b other used' same => other (inv.unique b ip used' used same)
  · have := counts ip
    rw [if_pos rfl, ← inv.counted ip] at this
    exact Nat.sub_eq_of_eq_add this.symm
  · have := counts b
    rw [if_neg other] at this
    exact this
  · have member := inv.putting q b puts
    rw [Function.update_apply]
    split
    · next same =>
      rw [same, idle] at puts
      cases puts
    · exact member

theorem lose (inv : Inv s) (idle : s.pc p = .idle) (mine : ip ∈ s.held p) :
    Inv ((s.lose p ip).hold q ip) := by
  have counts (b : Slot) : ((s.lose p ip).hold q ip).refs b = s.refs b :=
    (State.refs_hold _ q ip b).trans (State.refs_lose mine b)
  refine ⟨inv.unique, fun b => (inv.counted b).trans (counts b).symm, fun r b puts => ?_,
    inv.locked, inv.unlinked, inv.typed⟩
  have member := inv.putting r b puts
  have kept : b ∈ (s.lose p ip).held r := by
    have other : r ≠ p := by
      rintro rfl
      exact nomatch (congrArg Pc.puts idle).symm.trans puts
    show b ∈ Function.update s.held p _ r
    rwa [Function.update_of_ne other]
  show b ∈ Function.update (s.lose p ip).held q (ip ::ₘ (s.lose p ip).held q) r
  rw [Function.update_apply]
  split
  · next same => exact Multiset.mem_cons_of_mem (same ▸ kept)
  · exact kept

/-- The lock of an inode keeps others from freeing it. -/
theorem not_freed (inv : Inv s) (holds : s.lock ip = some p) (frees : (s.pc p).frees = none) :
    ∀ q, (s.pc q).frees ≠ some ip := by
  intro q other
  cases Option.some.inj (holds.symm.trans (inv.locked q ip (Pc.locks_of_frees other)))
  exact nomatch frees.symm.trans other

theorem load (inv : Inv s) (holds : s.lock ip = some p) (frees : (s.pc p).frees = none)
    (loaded : s.load ip = some t) : Inv t ∧ t.pc = s.pc := by
  simp only [State.load] at loaded
  split at loaded
  · cases loaded
    exact ⟨inv, rfl⟩
  · split at loaded
    · cases loaded
    · next typed =>
      cases loaded
      have alone := inv.not_freed holds frees
      exact ⟨inv.setEntry rfl rfl (fun q other => absurd other (alone q))
        (fun _ free => absurd free typed), rfl⟩

/-- A process that is in no call that locks, uses or frees an inode. -/
theorem rest (inv : Inv s) (kept : ∀ ip, s.pc p ≠ .discarding ip) (puts : pc.puts = none)
    (locks : pc.locks = none) (frees : pc.frees = none) : Inv (s.setPc p pc) := by
  refine inv.setPc (fun ip here => ?_) (fun ip here => ?_) (fun ip here => ?_)
    (fun ip here => absurd here (kept ip))
  · exact nomatch puts.symm.trans here
  · exact nomatch locks.symm.trans here
  · exact nomatch frees.symm.trans here

/-- An `iput` goes on to a point where it has the same lock and the same reference. -/
theorem onward (inv : Inv s) (puts : pc.puts = (s.pc p).puts) (locks : pc.locks = (s.pc p).locks)
    (unlinked : ∀ ip, pc.frees = some ip → (s.entry ip).valid ∧ (s.entry ip).copy.nlink = 0)
    (typed : ∀ ip, s.pc p = .discarding ip → (s.entry ip).valid = false) : Inv (s.setPc p pc) :=
  inv.setPc (fun ip here => inv.putting p ip (puts.symm.trans here))
    (fun ip here => inv.locked p ip (locks.symm.trans here)) unlinked typed

theorem iupdate {copy : Fs.Dinode} (inv : Inv s)
    (unlinked : ∀ q, (s.pc q).frees = some ip → (s.entry ip).valid ∧ copy.nlink = 0)
    (typed : (s.entry ip).valid → copy.type = 0 → ∃ p, s.pc p = .discarding ip) :
    Inv (s.iupdate ip copy) := by
  have kept : Inv (s.setEntry ip { s.entry ip with copy := copy }) :=
    inv.setEntry rfl rfl unlinked typed
  exact kept.disk

theorem go (inv : Inv s) (taken : s.go p = some t) : Inv t := by
  simp only [State.go] at taken
  split at taken
  · cases taken
  · next ip now =>
    obtain ⟨m, acquired, rfl⟩ := Option.map_eq_some_iff.mp taken
    obtain ⟨inv', rfl⟩ := inv.acquiresleep acquired
    refine inv'.setPc nofun ?_ nofun (fun b here => nomatch now.symm.trans here)
    rintro _ ⟨⟩
    exact Function.update_self ..
  · next ip now =>
    obtain ⟨m, loaded, rfl⟩ := Option.map_eq_some_iff.mp taken
    obtain ⟨inv', same⟩ := inv.load (inv.locked p ip (by rw [now]; rfl)) (by rw [now]; rfl) loaded
    refine inv'.rest (fun b here => ?_) rfl rfl rfl
    rw [same, now] at here
    cases here
  · next ip now =>
    obtain ⟨m, acquired, rfl⟩ := Option.map_eq_some_iff.mp taken
    obtain ⟨inv', rfl⟩ := inv.acquiresleep acquired
    refine inv'.setPc ?_ ?_ nofun (fun b here => nomatch now.symm.trans here)
    · rintro _ ⟨⟩
      exact inv.putting p ip (by rw [now]; rfl)
    · rintro _ ⟨⟩
      exact Function.update_self ..
  · next ip now =>
    cases taken
    have typed (b : Slot) (here : s.pc p = .discarding b) : (s.entry b).valid = false :=
      nomatch now.symm.trans here
    split
    · next last =>
      simp only [State.last, Bool.and_eq_true, decide_eq_true_eq] at last
      refine inv.onward (by rw [now]; rfl) (by rw [now]; rfl) ?_ typed
      rintro _ ⟨⟩
      exact last.1
    · exact inv.onward (by rw [now]; rfl) (by rw [now]; rfl) nofun typed
  · next ip now =>
    cases taken
    have unlinked := inv.unlinked p ip (by rw [now]; rfl)
    have inv' : Inv (s.setPc p (.clearing ip)) := by
      refine inv.onward (by rw [now]; rfl) (by rw [now]; rfl) ?_
        (fun b here => nomatch now.symm.trans here)
      rintro _ ⟨⟩
      exact unlinked
    exact inv'.iupdate (fun _ _ => unlinked) (inv'.typed ip)
  · next ip now =>
    cases taken
    have inv' : Inv (s.setPc p (.discarding ip)) :=
      inv.onward (by rw [now]; rfl) (by rw [now]; rfl) nofun
      (fun b here => nomatch now.symm.trans here)
    have unlinked := inv.unlinked p ip (by rw [now]; rfl)
    exact inv'.iupdate (fun _ _ => unlinked) (fun _ _ => ⟨p, s.setPc_self ..⟩)
  · next ip now =>
    cases taken
    have alone := inv.not_freed (inv.locked p ip (by rw [now]; rfl)) (by rw [now]; rfl)
    have inv' : Inv (s.setEntry ip { s.entry ip with valid := false }) :=
      inv.setEntry rfl rfl (fun q frees => absurd frees (alone q)) nofun
    refine inv'.onward (by show _ = (s.pc p).puts; rw [now]; rfl)
      (by show _ = (s.pc p).locks; rw [now]; rfl) nofun ?_
    intro b here
    cases now.symm.trans here
    rw [State.setEntry_self]
  · next ip now =>
    cases taken
    have inv' : Inv (s.setPc p (.dropping ip)) := by
      refine inv.setPc (fun b here => inv.putting p b ?_) nofun nofun
        (fun b here => nomatch now.symm.trans here)
      rw [now]
      exact here
    refine inv'.setLock fun q holds => ?_
    cases Option.some.inj ((inv.locked p ip (by rw [now]; rfl)).symm.trans (inv'.locked q ip holds))
    rw [State.setPc_self] at holds
    cases holds
  · next ip now =>
    cases taken
    have inv' : Inv (s.setPc p .idle) :=
      inv.rest (fun b here => nomatch now.symm.trans here) rfl rfl rfl
    refine inv'.drop (inv.putting p ip (by rw [now]; rfl)) ?_
    rw [State.setPc_self]
    rfl
  · next dev inum type now =>
    split at taken
    · split at taken
      · cases taken
        exact inv.disk.rest (fun b here => nomatch now.symm.trans here) rfl rfl rfl
      · cases taken
        exact inv.rest (fun b here => nomatch now.symm.trans here) rfl rfl rfl
    · cases taken
  · next key now =>
    obtain ⟨⟨ip, m⟩, got, rfl⟩ := Option.map_eq_some_iff.mp taken
    refine (inv.iget got).rest (fun b here => ?_) rfl rfl rfl
    have same : m.pc = s.pc := by
      obtain ⟨-, -, rfl⟩ | ⟨-, -, rfl⟩ := iget_cases got <;> rfl
    exact nomatch now.symm.trans ((congrFun same p).symm.trans here)

theorem step (inv : Inv s) (taken : step s a = some t) : Inv t := by
  have quiet {p : Fin K} (idle : s.pc p = .idle) (b : Slot) : s.pc p ≠ .discarding b := by
    rw [idle]
    nofun
  cases a with
  | go p => exact inv.go taken
  | iget p key =>
    simp only [Icache.step, Option.ite_none_right_eq_some] at taken
    obtain ⟨-, taken⟩ := taken
    obtain ⟨⟨ip, m⟩, got, rfl⟩ := Option.map_eq_some_iff.mp taken
    exact inv.iget got
  | idup p ip =>
    simp only [Icache.step, Option.ite_none_right_eq_some, Option.some.injEq] at taken
    obtain ⟨⟨-, mine⟩, rfl⟩ := taken
    refine inv.idup ?_
    rw [inv.counted]
    exact State.refs_pos mine
  | ilock p ip =>
    simp only [Icache.step, Option.ite_none_right_eq_some, Option.some.injEq] at taken
    obtain ⟨⟨idle, -⟩, rfl⟩ := taken
    exact inv.rest (quiet idle) rfl rfl rfl
  | iunlock p ip =>
    simp only [Icache.step, Option.ite_none_right_eq_some, Option.some.injEq] at taken
    obtain ⟨⟨idle, holds, -⟩, rfl⟩ := taken
    refine inv.setLock fun q other => ?_
    cases Option.some.inj (holds.symm.trans (inv.locked q ip other))
    rw [idle] at other
    cases other
  | iput p ip =>
    simp only [Icache.step, Option.ite_none_right_eq_some, Option.some.injEq] at taken
    obtain ⟨⟨idle, mine⟩, rfl⟩ := taken
    refine inv.setPc ?_ nofun nofun (fun b here => absurd here (quiet idle b))
    rintro _ ⟨⟩
    exact mine
  | ialloc p dev type =>
    simp only [Icache.step, Option.ite_none_right_eq_some, Option.some.injEq] at taken
    obtain ⟨idle, rfl⟩ := taken
    exact inv.rest (quiet idle) rfl rfl rfl
  | iupdate p ip copy =>
    simp only [Icache.step, Option.ite_none_right_eq_some, Option.some.injEq] at taken
    obtain ⟨⟨idle, holds, valid, type⟩, rfl⟩ := taken
    have alone := inv.not_freed holds (by rw [idle]; rfl)
    refine inv.iupdate (fun q frees => absurd frees (alone q)) (fun valid free => ?_)
    exact inv.typed ip valid (type ▸ free)
  | hand p q ip =>
    simp only [Icache.step, Option.ite_none_right_eq_some, Option.some.injEq] at taken
    obtain ⟨⟨idle, mine⟩, rfl⟩ := taken
    exact inv.lose idle mine

theorem boot (ninodes : Nat) (disk : Key → Fs.Dinode) : Inv (boot ninodes disk : State K) := by
  refine ⟨nofun, fun ip => ?_, nofun, nofun, nofun, nofun⟩
  exact (Finset.sum_eq_zero fun p _ => Multiset.count_zero ip).symm

/-- The current copy of a locked inode has a type, unless its holder has just cleared it. -/
theorem type_ne_zero (inv : Inv s) (holds : s.lock ip = some p) (valid : (s.entry ip).valid)
    (now : s.pc p ≠ .discarding ip) : (s.entry ip).copy.type ≠ 0 := by
  intro free
  obtain ⟨q, discards⟩ := inv.typed ip valid free
  have locked := inv.locked q ip (by rw [discards]; rfl)
  cases Option.some.inj (holds.symm.trans locked)
  exact now discards

end Inv

theorem iget_pc (got : s.iget key = some (ip, t)) : t.pc = s.pc ∧ t.disk = s.disk := by
  obtain ⟨-, -, rfl⟩ | ⟨-, -, rfl⟩ := iget_cases got <;> exact ⟨rfl, rfl⟩

theorem load_cases (loaded : s.load ip = some t) :
    t = s ∨
      t = s.setEntry ip { s.entry ip with copy := s.disk (s.entry ip).key, valid := true } := by
  simp only [State.load] at loaded
  split at loaded
  · cases loaded
    exact .inl rfl
  · split at loaded
    · cases loaded
    · cases loaded
      exact .inr rfl

namespace Alone

theorem setPc (alone : Alone s) (last : ∀ b, pc.frees = some b → (s.entry b).ref = 1) :
    Alone (s.setPc p pc) := by
  intro q b frees
  by_cases same : q = p
  · rw [same, State.setPc_self] at frees
    exact last b frees
  · rw [State.setPc_other s pc same] at frees
    exact alone q b frees

theorem setPc_iff (before : (s.pc p).frees = none) (after : pc.frees = none) :
    Alone (s.setPc p pc) ↔ Alone s := by
  refine ⟨fun alone q b frees => alone q b ?_,
    fun alone => alone.setPc fun b frees => nomatch after.symm.trans frees⟩
  have other : q ≠ p := by
    rintro rfl
    exact nomatch before.symm.trans frees
  rwa [State.setPc_other s pc other]

theorem setEntry {new : Inode} (alone : Alone s) (same : new.ref = (s.entry ip).ref) :
    Alone (s.setEntry ip new) := by
  intro q b frees
  by_cases here : b = ip
  · rw [here, State.setEntry_self, same, ← here]
    exact alone q b frees
  · rw [State.setEntry_other s new here]
    exact alone q b frees

/-- What is done with a reference of another process is no concern of the only reference. -/
theorem recount (alone : Alone s) (inv : Inv s) (mine : ip ∈ s.held p)
    (frees : (s.pc p).frees = none) (new : Inode) : Alone (s.setEntry ip new) := by
  intro q b freeing
  have other : b ≠ ip := by
    rintro rfl
    have apart : p ≠ q := by
      rintro rfl
      exact nomatch frees.symm.trans freeing
    have two := State.two_le_refs mine (inv.putting q b (Pc.puts_of_frees freeing)) apart
    rw [← inv.counted, alone q b freeing] at two
    omega
  rw [State.setEntry_other s new other]
  exact alone q b freeing

/-- A new reference leaves the others alone exactly if its inode is not about to be freed. -/
theorem iget_iff (alone : Alone s) (inv : Inv s) (got : s.iget key = some (ip, t)) :
    Alone t ↔ Quiet s key := by
  have used {q : Fin K} {b : Slot} (frees : (s.pc q).frees = some b) :=
    inv.used (Pc.puts_of_frees frees)
  obtain ⟨inUse, here, rfl⟩ | ⟨absent, unused, rfl⟩ := iget_cases got
  · constructor
    · intro alone' q b frees same
      obtain rfl := inv.unique b ip (used frees) inUse (same.trans here.symm)
      have one := alone' q b frees
      rw [State.idup, State.setEntry_self] at one
      exact absurd (Nat.succ.inj one) inUse.ne'
    · intro quiet q b frees
      have other : b ≠ ip := by
        rintro rfl
        exact quiet q b frees here
      rw [State.idup, State.setEntry_other s _ other]
      exact alone q b frees
  · refine iff_of_true (fun q b frees => ?_) (fun q b frees => absent b (used frees))
    have other : b ≠ ip := by
      rintro rfl
      exact (used frees).ne' unused
    rw [State.setEntry_other s _ other]
    exact alone q b frees

theorem go (alone : Alone s) (inv : Inv s) (taken : s.go p = some t)
    (other : gets s (.go p) = none) : Alone t := by
  simp only [State.go] at taken
  split at taken
  · cases taken
  · obtain ⟨m, acquired, rfl⟩ := Option.map_eq_some_iff.mp taken
    obtain ⟨-, rfl⟩ := acquiresleep_eq acquired
    exact Alone.setPc (s := s.setLock _ _) alone nofun
  · obtain ⟨m, loaded, rfl⟩ := Option.map_eq_some_iff.mp taken
    obtain rfl | rfl := load_cases loaded
    · exact alone.setPc nofun
    · refine Alone.setPc (alone.setEntry ?_) nofun
      rfl
  · obtain ⟨m, acquired, rfl⟩ := Option.map_eq_some_iff.mp taken
    obtain ⟨-, rfl⟩ := acquiresleep_eq acquired
    exact Alone.setPc (s := s.setLock _ _) alone nofun
  · next ip now =>
    cases taken
    refine alone.setPc ?_
    split
    · next last =>
      rintro _ ⟨⟩
      simp only [State.last, Bool.and_eq_true, decide_eq_true_eq] at last
      exact last.2
    · nofun
  · next ip now =>
    cases taken
    have one := alone p ip (by rw [now]; rfl)
    have alone' : Alone (s.setPc p (.clearing ip)) := by
      refine alone.setPc ?_
      rintro _ ⟨⟩
      exact one
    exact alone'.setEntry rfl
  · next ip now =>
    cases taken
    have alone' : Alone (s.setPc p (.discarding ip)) := alone.setPc nofun
    exact alone'.setEntry rfl
  · cases taken
    refine Alone.setPc (alone.setEntry ?_) nofun
    rfl
  · cases taken
    exact alone.setPc nofun
  · next ip now =>
    cases taken
    have counted := alone.recount inv (inv.putting p ip (by rw [now]; rfl)) (by rw [now]; rfl)
    exact (counted _).setPc nofun
  · split at taken
    · split at taken
      · cases taken
        exact alone.setPc nofun
      · cases taken
        exact alone.setPc nofun
    · cases taken
  · next key now =>
    rw [gets, now] at other
    cases other

/-- One step of the cache keeps the last references alone exactly if it is admitted. -/
theorem step_iff (alone : Alone s) (inv : Inv s) (taken : step s a = some t) :
    Alone t ↔ Undisturbed s a := by
  have other (none : gets s a = none) (alone : Alone t) : Alone t ↔ Undisturbed s a := by
    refine iff_of_true alone fun key here => ?_
    exact nomatch none.symm.trans here
  cases a with
  | go p =>
    by_cases allocated : ∃ key, s.pc p = .marked key
    · obtain ⟨key, now⟩ := allocated
      simp only [Icache.step, State.go, now] at taken
      obtain ⟨⟨ip, m⟩, got, rfl⟩ := Option.map_eq_some_iff.mp taken
      have before : (m.pc p).frees = none := by
        rw [(iget_pc got).1, now]
        rfl
      simp only [Undisturbed, gets, now, Option.mem_some, forall_eq']
      have found : Alone m ↔ Quiet s key := alone.iget_iff inv got
      exact Iff.trans (setPc_iff (s := m.hold p ip) before rfl) found
    · have none : gets s (.go p) = none := by
        simp only [gets]
        split
        · next key now => exact absurd ⟨key, now⟩ allocated
        · rfl
      exact other none (alone.go inv taken none)
  | iget p key =>
    simp only [Icache.step, Option.ite_none_right_eq_some] at taken
    obtain ⟨-, taken⟩ := taken
    obtain ⟨⟨ip, m⟩, got, rfl⟩ := Option.map_eq_some_iff.mp taken
    simp only [Undisturbed, gets, Option.mem_some, forall_eq']
    show Alone m ↔ _
    exact alone.iget_iff inv got
  | idup p ip =>
    simp only [Icache.step, Option.ite_none_right_eq_some, Option.some.injEq] at taken
    obtain ⟨⟨idle, mine⟩, rfl⟩ := taken
    exact other rfl (alone.recount inv mine (by rw [idle]; rfl) _)
  | iupdate p ip copy =>
    simp only [Icache.step, Option.ite_none_right_eq_some, Option.some.injEq] at taken
    obtain ⟨-, rfl⟩ := taken
    exact other rfl (alone.setEntry rfl)
  | ilock p ip =>
    simp only [Icache.step, Option.ite_none_right_eq_some, Option.some.injEq] at taken
    obtain ⟨-, rfl⟩ := taken
    exact other rfl (alone.setPc nofun)
  | iput p ip =>
    simp only [Icache.step, Option.ite_none_right_eq_some, Option.some.injEq] at taken
    obtain ⟨-, rfl⟩ := taken
    exact other rfl (alone.setPc nofun)
  | ialloc p dev type =>
    simp only [Icache.step, Option.ite_none_right_eq_some, Option.some.injEq] at taken
    obtain ⟨-, rfl⟩ := taken
    exact other rfl (alone.setPc nofun)
  | iunlock p ip =>
    simp only [Icache.step, Option.ite_none_right_eq_some, Option.some.injEq] at taken
    obtain ⟨-, rfl⟩ := taken
    exact other rfl alone
  | hand p q ip =>
    simp only [Icache.step, Option.ite_none_right_eq_some, Option.some.injEq] at taken
    obtain ⟨-, rfl⟩ := taken
    exact other rfl alone

end Alone

theorem clears_iupdate (ip : Slot) {copy : Fs.Dinode} (clears : Clears s (s.iupdate ip copy) key) :
    (s.entry ip).key = key ∧ copy.type = 0 := by
  obtain ⟨before, after⟩ := clears
  simp only [State.iupdate, Function.update_apply] at after
  split at after
  · next same => exact ⟨same.symm, after⟩
  · exact absurd after before

/-- The type on disk goes to zero in `iput` only. -/
theorem clears_cases (inv : Inv s) (taken : step s a = some t) (clears : Clears s t key) :
    ∃ p ip, a = .go p ∧ s.pc p = .clearing ip ∧ (s.entry ip).key = key := by
  cases a with
  | go p =>
    simp only [step, State.go] at taken
    split at taken
    · cases taken
    · obtain ⟨m, acquired, rfl⟩ := Option.map_eq_some_iff.mp taken
      obtain ⟨-, rfl⟩ := acquiresleep_eq acquired
      exact absurd clears.2 clears.1
    · obtain ⟨m, loaded, rfl⟩ := Option.map_eq_some_iff.mp taken
      obtain rfl | rfl := load_cases loaded
      · exact absurd clears.2 clears.1
      · exact absurd clears.2 clears.1
    · obtain ⟨m, acquired, rfl⟩ := Option.map_eq_some_iff.mp taken
      obtain ⟨-, rfl⟩ := acquiresleep_eq acquired
      exact absurd clears.2 clears.1
    · cases taken
      exact absurd clears.2 clears.1
    · next ip now =>
      cases taken
      have locked := inv.locked p ip (by rw [now]; rfl)
      have unlinked := inv.unlinked p ip (by rw [now]; rfl)
      have typed := inv.type_ne_zero locked unlinked.1 (by rw [now]; nofun)
      exact absurd (clears_iupdate ip clears).2 typed
    · next ip now =>
      cases taken
      exact ⟨p, ip, rfl, now, (clears_iupdate ip clears).1⟩
    · cases taken
      exact absurd clears.2 clears.1
    · cases taken
      exact absurd clears.2 clears.1
    · cases taken
      exact absurd clears.2 clears.1
    · split at taken
      · split at taken
        · next free =>
          cases taken
          have other : key ≠ _ := fun same => clears.1 (same ▸ free)
          exact absurd ((congrArg Fs.Dinode.type (Function.update_of_ne other ..)).symm.trans
            clears.2) clears.1
        · cases taken
          exact absurd clears.2 clears.1
      · cases taken
    · obtain ⟨⟨ip, m⟩, got, rfl⟩ := Option.map_eq_some_iff.mp taken
      have same : m.disk = s.disk := (iget_pc got).2
      exact absurd ((congrArg (fun disk => (disk key).type) same).symm.trans clears.2) clears.1
  | iupdate p ip copy =>
    simp only [step, Option.ite_none_right_eq_some, Option.some.injEq] at taken
    obtain ⟨⟨idle, holds, valid, type⟩, rfl⟩ := taken
    have typed := inv.type_ne_zero holds valid (by rw [idle]; nofun)
    exact absurd (type.symm.trans (clears_iupdate ip clears).2) typed
  | iget p k =>
    simp only [step, Option.ite_none_right_eq_some] at taken
    obtain ⟨-, taken⟩ := taken
    obtain ⟨⟨ip, m⟩, got, rfl⟩ := Option.map_eq_some_iff.mp taken
    have same : m.disk = s.disk := (iget_pc got).2
    exact absurd ((congrArg (fun disk => (disk key).type) same).symm.trans clears.2) clears.1
  | idup | ilock | iunlock | iput | ialloc | hand =>
    simp only [step, Option.ite_none_right_eq_some, Option.some.injEq] at taken
    obtain ⟨-, rfl⟩ := taken
    exact absurd clears.2 clears.1

theorem lawful_iff (inv : Inv s) : Lawful s ↔ Alone s := by
  refine ⟨Lawful.alone, fun alone => ⟨inv.unique, inv.counted, fun _ _ _ => iget_spares, ?_, alone⟩⟩
  intro a t key taken clears
  obtain ⟨p, ip, rfl, now, same⟩ := clears_cases inv taken clears
  have freeing : (s.pc p).frees = some ip := by
    rw [now]
    rfl
  refine ⟨p, ip, rfl, now, same, (inv.unlinked p ip freeing).2,
    inv.putting p ip (Pc.puts_of_frees freeing), ?_⟩
  rw [← inv.counted]
  exact alone p ip freeing

/-- The cache keeps its law in every state of a schedule exactly if nobody takes a reference to an
inode between the test of an `iput` that is to free it and the clearing of its type. -/
theorem icache_lawful_iff {ninodes : Nat} {disk : Key → Fs.Dinode} {schedule : List (Action K)}
    {s : State K} (reached : run step (boot ninodes disk) schedule = some s) :
    Visits step Lawful (boot ninodes disk) schedule ↔
      Along step Undisturbed (boot ninodes disk) schedule := by
  have start := Inv.boot (K := K) ninodes disk
  refine visits_iff_along (fun _ _ _ inv _ taken => inv.step taken) ?_ reached start
    ((lawful_iff start).mpr nofun)
  intro s a t inv law taken
  rw [lawful_iff (inv.step taken)]
  exact law.alone.step_iff inv taken

/-- A file with one link. -/
def file : Key := ⟨1, 5⟩

def linked (key : Key) : Fs.Dinode :=
  if key = file then ⟨Fs.tFile, 0, 0, 1, 0, fun _ => 0⟩ else State.fresh 0

/-- The last link of the file goes away, and `iput` finds nobody else to have it. -/
def unlinked : List (Action 2) :=
  [.iget 0 file, .ilock 0 0, .go 0, .go 0, .iupdate 0 0 (State.fresh Fs.tFile), .iunlock 0 0,
    .iput 0 0, .go 0, .go 0]

theorem unlinked_file_is_freed :
    ∃ s, run step (boot 10 linked) (unlinked ++ List.replicate 5 (.go 0)) = some s ∧
      (s.disk file).type = 0 ∧
      Visits step Lawful (boot 10 linked) (unlinked ++ List.replicate 5 (.go 0)) := by
  have runs : (run step (boot 10 linked) (unlinked ++ List.replicate 5 (.go 0))).map
      (fun s => (s.disk file).type) =
      some 0 := by
    decide
  obtain ⟨s, reached, free⟩ := Option.map_eq_some_iff.mp runs
  exact ⟨s, reached, free, (icache_lawful_iff reached).mpr (by decide)⟩

/-- Another process gets a reference while `iput` is truncating the inode, which is then freed. -/
theorem iput_frees_referenced_inode :
    ∃ s t, run step (boot 10 linked) (unlinked ++ [.iget 1 file, .go 0]) = some s ∧
      step s (.go 0) = some t ∧
      Clears s t file ∧ 0 ∈ s.held 1 ∧ s.refs 0 = 2 := by
  have runs : ((run step (boot 10 linked) (unlinked ++ [.iget 1 file, .go 0])).bind
      fun s => (step s (.go 0)).map fun t =>
      decide (((s.disk file).type ≠ 0 ∧ (t.disk file).type = 0) ∧ 0 ∈ s.held 1 ∧ s.refs 0 = 2)) =
      some true := by
    decide
  obtain ⟨s, reached, next⟩ := Option.bind_eq_some_iff.mp runs
  obtain ⟨t, taken, holds⟩ := Option.map_eq_some_iff.mp next
  obtain ⟨clears, rest⟩ := of_decide_eq_true holds
  exact ⟨s, t, reached, taken, clears, rest⟩

end Aso.Xv6.Icache
