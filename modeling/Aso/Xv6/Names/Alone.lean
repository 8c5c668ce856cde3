import Aso.Sequential
import Aso.Xv6.Names.Tree

/-! Calls run one after another. Between two operations of the running call the
references are those that processes keep and those the call has taken, and
nobody else has a lock. -/
namespace Aso.Xv6.Names
open Interleave Aso.Sequential Aso.Sequential.Rules

/-- `ilock` reads an inode that has a type. -/
def Typed : Op → Shared → Prop
  | .load i, s => (s.inode i).valid = true ∨ (s.inode i).ty ≠ .free
  | _, _ => True

/-- A directory that loses its name is referenced by the call that takes it away alone, and
link counts stay in their range. -/
def Spares : Op → Shared → Prop
  | .erase d off, s =>
    ∀ e, (s.inode d).entries[off]? = some e → (s.inode e.inum).ty = .dir → (s.inode e.inum).ref = 1
  | .nlink i change, s => (s.inode i).nlink + change < 2 ^ 15
  | _, _ => True

instance (o : Op) (s : Shared) : Decidable (Spares o s) :=
  match o with
  | .erase d off => inferInstanceAs (Decidable (∀ e : Dirent, (s.inode d).entries[off]? = some e →
      (s.inode e.inum).ty = .dir → (s.inode e.inum).ref = 1))
  | .nlink _ _ => inferInstanceAs (Decidable (_ < _))
  | .iget _ | .acquire _ _ | .load _ | .release _ | .type _ | .last _ | .free _ | .unref
      _ | .dirlookup _ _ | .insert _ _ _
  | .isdirempty _ | .linked _ | .ialloc _ | .init _ | .writei _ | .choose | .panic => isTrue trivial

def rules : Rules Slot Op Shared where
  safe _ := Typed
  admits _ := Spares

instance (p : Slot) (o : Op) (s : Shared) : Decidable (rules.admits p o s) :=
  inferInstanceAs (Decidable (Spares o s))

/-- The state in a call of `p` that has taken the references `extra` and the locks `locked`;
the processes keep the references `base`. -/
structure Holds (p : Slot) (base : Nat → Nat) (N : Nat) (extra : Multiset Nat) (locked : List Nat)
    (disk : Nat → Dnode) (s : Shared) : Prop where
  size : s.ninodes ≤ N
  same : ∀ i, s.disk i = disk i
  ref : ∀ i, (s.inode i).ref = base i + extra.count i
  lock : ∀ i, (s.inode i).lock = if i ∈ locked then some p else none
  typed : ∀ i, (s.inode i).valid = true → (disk i).ty ≠ .free
  loaded : ∀ i, base i ≠ 0 ∧ i ≠ rootino ∨ i ∈ locked → (s.inode i).valid = true
  kept : ∀ i ∈ locked, base i + extra.count i ≠ 0

section
variable {p : Slot} {base : Nat → Nat} {N i : Nat} {extra extra' : Multiset Nat}
  {locked locked' : List Nat} {disk disk' : Nat → Dnode} {s t : Shared}

theorem Holds.ty (here : Holds p base N extra locked disk s) (i : Nat) :
    (s.inode i).ty = (disk i).ty :=
  congrArg Dnode.ty (here.same i)

theorem Holds.nlink (here : Holds p base N extra locked disk s) (i : Nat) :
    (s.inode i).nlink = (disk i).nlink :=
  congrArg Dnode.nlink (here.same i)

theorem Holds.entries (here : Holds p base N extra locked disk s) (i : Nat) :
    (s.inode i).entries = (disk i).entries :=
  congrArg Dnode.entries (here.same i)

/-- A step on inode `i`. -/
theorem Holds.update (here : Holds p base N extra locked disk s) (size : t.ninodes = s.ninodes)
    (outside : ∀ j, j ≠ i → t.inode j = s.inode j) (disks : ∀ j, j ≠ i → disk' j = disk j)
    (counts : ∀ j, j ≠ i → extra'.count j = extra.count j)
    (locks : ∀ j, j ≠ i → (j ∈ locked' ↔ j ∈ locked)) (dnode : (t.inode i).dnode = disk' i)
    (ref : (t.inode i).ref = base i + extra'.count i)
    (lock : (t.inode i).lock = if i ∈ locked' then some p else none)
    (typed : (t.inode i).valid = true → (disk' i).ty ≠ .free)
    (loaded : base i ≠ 0 ∧ i ≠ rootino ∨ i ∈ locked' → (t.inode i).valid = true)
    (kept : i ∈ locked' → base i + extra'.count i ≠ 0) : Holds p base N extra' locked' disk' t := by
  refine ⟨size.trans_le here.size, ?_, ?_, ?_, ?_, ?_, ?_⟩
  all_goals
    intro j
    obtain rfl | apart := eq_or_ne j i
    · assumption
  · rw [disks j apart, ← here.same j, Shared.disk, outside j apart]
    rfl
  · rw [outside j apart, counts j apart]
    exact here.ref j
  · rw [outside j apart, here.lock j]
    simp only [locks j apart]
  · rw [outside j apart, disks j apart]
    exact here.typed j
  · rw [outside j apart, locks j apart]
    exact here.loaded j
  · rw [counts j apart, locks j apart]
    exact here.kept j

theorem hold_reads {o : Op} {post : Res o → Shared → Prop} (safe : Typed o s)
    (reads : ∀ x r t, exec p o x s = some (r, t) → t = s ∧ post r s) :
    rules.wp exec p (perform o) post s := by
  refine ⟨safe, fun _ x r t result => ?_⟩
  obtain ⟨rfl, done⟩ := reads x r t result
  exact done

theorem hold_type {post : Ty → Shared → Prop} (here : Holds p base N extra locked disk s)
    (next : post (disk i).ty s) : rules.wp exec p (perform (.type i)) post s := by
  refine hold_reads trivial fun x r t result => ?_
  cases result
  exact ⟨rfl, here.ty i ▸ next⟩

theorem hold_choose {post : Bool → Shared → Prop} (next : ∀ b, post b s) :
    rules.wp exec p (perform .choose) post s := by
  refine hold_reads trivial fun x r t result => ?_
  cases result
  exact ⟨rfl, next _⟩

theorem hold_linked {post : Unit → Shared → Prop} (here : Holds p base N extra locked disk s)
    (next : 1 ≤ (disk i).nlink → post () s) : rules.wp exec p (perform (.linked i)) post s := by
  refine hold_reads trivial fun x r t result => ?_
  simp only [exec] at result
  split at result
  · cases result
  · next linked =>
    cases result
    rw [here.nlink] at linked
    exact ⟨rfl, next (by omega)⟩

theorem hold_isdirempty {post : Bool → Shared → Prop} (here : Holds p base N extra locked disk s)
    (next : post (((disk i).entries.drop 2).all (·.inum = 0)) s) :
    rules.wp exec p (perform (.isdirempty i)) post s := by
  refine hold_reads trivial fun x r t result => ?_
  cases result
  rw [here.entries]
  exact ⟨rfl, next⟩

theorem Holds.iget (here : Holds p base N extra locked disk s) (i : Nat) :
    Holds p base N (i ::ₘ extra) locked disk (s.iget p i) := by
  have now : (s.iget p i).inode i = (s.inode i).addRef := modify_inode_same
  refine here.update (i := i) rfl (fun j apart => modify_inode_other apart) (fun _ _ => rfl)
    (fun j apart => Multiset.count_cons_of_ne apart _) (fun _ _ => Iff.rfl) ?_ ?_ ?_ ?_ ?_ ?_
  · rw [now]
    exact here.same i
  · rw [now, Multiset.count_cons_self, ← Nat.add_assoc, ← here.ref i]
    rfl
  · rw [now]
    exact here.lock i
  · rw [now]
    intro valid
    exact here.typed i (Bool.and_eq_true_iff.mp valid).1
  · rw [now]
    intro use
    have positive : (s.inode i).ref ≠ 0 := by
      rw [here.ref i]
      rcases use with kept | mine
      · omega
      · exact here.kept i mine
    exact Bool.and_eq_true_iff.mpr ⟨here.loaded i use, decide_eq_true positive⟩
  · intro mine
    rw [Multiset.count_cons_self]
    omega

theorem hold_iget {post : Unit → Shared → Prop} (here : Holds p base N extra locked disk s)
    (next : ∀ t, Holds p base N (i ::ₘ extra) locked disk t → post () t) :
    rules.wp exec p (perform (.iget i)) post s := by
  refine ⟨trivial, fun _ x r t result => ?_⟩
  cases result
  exact next _ (here.iget i)

/-- An operation on the disk part of an inode. -/
theorem Holds.write (here : Holds p base N extra locked disk s) {f : Inode → Inode} {n : Dnode}
    (dnode : (f (s.inode i)).dnode = n) (ref : (f (s.inode i)).ref = (s.inode i).ref)
    (lock : (f (s.inode i)).lock = (s.inode i).lock)
    (valid : (f (s.inode i)).valid = (s.inode i).valid)
    (typed : (s.inode i).valid = true → n.ty ≠ .free) (size : t.ninodes = s.ninodes)
    (inode : t.inode = (s.modify i f).inode) :
    Holds p base N extra locked (Function.update disk i n) t := by
  have now : t.inode i = f (s.inode i) := by rw [inode, modify_inode_same]
  refine here.update (i := i) size (fun j apart => ?_)
    (fun j apart => Function.update_of_ne apart ..)
    (fun _ _ => rfl) (fun _ _ => Iff.rfl) ?_ ?_ ?_ ?_ ?_ (here.kept i)
  · rw [inode, modify_inode_other apart]
  · rw [now, dnode, Function.update_self]
  · rw [now, ref]
    exact here.ref i
  · rw [now, lock]
    exact here.lock i
  · rw [now, valid, Function.update_self]
    exact typed
  · rw [now, valid]
    exact here.loaded i

theorem hold_insert {d k : Nat} {name : Name} {post : Unit → Shared → Prop}
    (here : Holds p base N extra locked disk s) (next : ∀ t, Holds p base N extra locked
      (Function.update disk d { disk d with entries := addEntry (disk d).entries ⟨name, k⟩ }) t →
      post () t) : rules.wp exec p (perform (.insert d name k)) post s := by
  refine ⟨trivial, fun _ x r t result => ?_⟩
  cases result
  refine next _ (here.write ?_ rfl rfl rfl (here.typed d) rfl rfl)
  rw [← here.same d]
  rfl

theorem hold_erase {d off : Nat} {post : Unit → Shared → Prop}
    (here : Holds p base N extra locked disk s) (next : ∀ t, (∀ e, (disk d).entries[off]? = some e →
      (disk e.inum).ty = .dir → base e.inum + extra.count e.inum = 1) →
      Holds p base N extra locked
        (Function.update disk d { disk d with entries := (disk d).entries.set off ⟨[], 0⟩ }) t →
        post () t) : rules.wp exec p (perform (.erase d off)) post s := by
  refine ⟨trivial, fun spared x r t result => ?_⟩
  cases result
  refine next _ (fun e found dir => ?_) (here.write ?_ rfl rfl rfl (here.typed d) rfl rfl)
  · rw [← here.ref]
    exact spared e (here.entries d ▸ found) ((here.ty _).trans dir)
  · rw [← here.same d]
    rfl

theorem hold_nlink {change : Int} {post : Unit → Shared → Prop}
    (here : Holds p base N extra locked disk s)
    (next : ∀ t, (disk i).nlink + change < 2 ^ 15 → Holds p base N extra locked
      (Function.update disk i { disk i with nlink := short ((disk i).nlink + change) }) t →
      post () t) : rules.wp exec p (perform (.nlink i change)) post s := by
  refine ⟨trivial, fun spared x r t result => ?_⟩
  cases result
  refine next _ (here.nlink i ▸ spared) (here.write ?_ rfl rfl rfl (here.typed i) rfl rfl)
  rw [← here.same i]
  rfl

theorem hold_init {post : Unit → Shared → Prop} (here : Holds p base N extra locked disk s)
    (next : ∀ t, Holds p base N extra locked (Function.update disk i { disk i with nlink := 1 }) t →
      post () t) : rules.wp exec p (perform (.init i)) post s := by
  refine ⟨trivial, fun _ x r t result => ?_⟩
  cases result
  refine next _ (here.write ?_ rfl rfl rfl (here.typed i) rfl rfl)
  rw [← here.same i]
  rfl

/-- A free inode is taken. -/
theorem hold_ialloc {ty : Ty} {post : Nat → Shared → Prop}
    (here : Holds p base N extra locked disk s) (next : ∀ k t, 0 < k → k < N → (disk k).ty = .free →
      Holds p base N extra locked (Function.update disk k ⟨ty, 0, []⟩) t → post k t) :
    rules.wp exec p (perform (.ialloc ty)) post s := by
  refine ⟨trivial, fun _ x r t result => ?_⟩
  simp only [exec] at result
  split at result
  · next found =>
    cases result
    obtain ⟨positive, bound, free⟩ := found
    rw [here.ty] at free
    refine next _ _ positive (bound.trans_le here.size) free (here.write rfl rfl rfl rfl ?_ rfl rfl)
    exact fun valid => absurd free (here.typed _ valid)
  · cases result

theorem hold_dirlookup {d : Nat} {name : Name} {post : Option (Nat × Nat) → Shared → Prop}
    (here : Holds p base N extra locked disk s)
    (absent : (disk d).ty = .dir → findEntry (disk d).entries name = none → post none s)
    (found : ∀ k off t, (disk d).ty = .dir → findEntry (disk d).entries name = some (k, off) →
      Holds p base N (k ::ₘ extra) locked disk t → post (some (k, off)) t) :
    rules.wp exec p (perform (.dirlookup d name)) post s := by
  refine ⟨trivial, fun _ x r t result => ?_⟩
  simp only [exec, here.ty, here.entries] at result
  split at result
  · next dir =>
    split at result
    · next none =>
      cases result
      exact absent dir none
    · next k off some =>
      cases result
      exact found k off _ dir some (here.iget k)
  · cases result

/-- `ilock` of an allocated inode; the process did not have the lock. -/
theorem hold_ilock {post : Unit → Shared → Prop} (here : Holds p base N extra locked disk s)
    (typed : (disk i).ty ≠ .free)
    (next : ∀ t, i ∉ locked → Holds p base N extra (i :: locked) disk t → post () t) :
    rules.wp exec p (ilock i) post s := by
  refine wp_bind ⟨trivial, fun _ x r t result => ?_⟩
  simp only [exec] at result
  split at result
  · next free =>
    cases result
    obtain ⟨free, used⟩ := free
    have unheld : i ∉ locked := by
      intro mine
      rw [here.lock i, if_pos mine] at free
      cases free
    have used : (s.inode i).ref ≠ 0 := used.resolve_left fun other => other rfl
    have now : (s.modify i fun n => { n with lock := some p }).inode i =
        { s.inode i with lock := some p } :=
      modify_inode_same
    refine ⟨.inr ?_, fun _ x r t result => ?_⟩
    · rw [now]
      exact here.ty i ▸ typed
    · simp only [exec, now] at result
      rw [if_pos (.inr (here.ty i ▸ typed))] at result
      cases result
      refine next _ unheld
        (here.update (i := i) rfl (fun j apart => ?_) (fun _ _ => rfl) (fun _ _ => rfl)
        (fun j apart => ?_) ?_ ?_ ?_ (fun _ => typed) (fun _ => ?_) fun _ => here.ref i ▸ used)
      · exact (modify_inode_other apart).trans (modify_inode_other apart)
      · rw [List.mem_cons, or_iff_right apart]
      all_goals simp only [Shared.load, Shared.setPin, modify_inode_same, Inode.loaded]
      · exact here.same i
      · exact here.ref i
      · exact (if_pos List.mem_cons_self).symm
  · cases result

theorem hold_iunlock (rest : List Nat) {post : Unit → Shared → Prop}
    (here : Holds p base N extra locked disk s) (without : ∀ j, j ∈ rest ↔ j ∈ locked ∧ j ≠ i)
    (next : ∀ t, (t.inode i).valid = (s.inode i).valid → Holds p base N extra rest disk t →
      post () t) : rules.wp exec p (iunlock i) post s := by
  refine ⟨trivial, fun _ x r t result => ?_⟩
  simp only [exec] at result
  split at result
  · cases result
    have gone : i ∉ rest := fun mine => ((without i).mp mine).2 rfl
    refine next _ ?_
      (here.update (i := i) rfl (fun j apart => modify_inode_other apart) (fun _ _ => rfl)
      (fun _ _ => rfl) (fun j apart => ?_) ?_ ?_ ?_ ?_ ?_ fun mine => absurd mine gone)
    · simp only [modify_inode_same]
    · rw [without j, and_iff_left apart]
    all_goals simp only [modify_inode_same]
    · exact here.same i
    · exact here.ref i
    · exact (if_neg gone).symm
    · exact here.typed i
    · exact fun use => here.loaded i (.inl (use.resolve_right gone))
  · cases result

/-- `iput` drops a reference, and frees the inode if that was the last one and it has no links. -/
theorem hold_iput {caller : Caller} {post : Unit → Shared → Prop}
    (here : Holds p base N extra locked disk s) (mine : i ∈ extra)
    (kept : ∀ t, ¬((s.inode i).valid = true ∧ (disk i).nlink = 0 ∧ base i + extra.count i = 1) →
      Holds p base N (extra.erase i) locked disk t → post () t)
    (freed : ∀ t, (disk i).nlink = 0 → base i + extra.count i = 1 →
      Holds p base N (extra.erase i) locked (Function.update disk i ⟨.free, (disk i).nlink, []⟩) t →
      post () t) : rules.wp exec p (iputFrom caller i) post s := by
  have own := Multiset.count_pos.mpr mine
  have less (j : Nat) (apart : j ≠ i) : (extra.erase i).count j = extra.count j :=
    Multiset.count_erase_of_ne apart _
  have here_less : (extra.erase i).count i = extra.count i - 1 := Multiset.count_erase_self _ _
  refine wp_bind ⟨trivial, fun _ x r t result => ?_⟩
  simp only [exec] at result
  split at result
  · next free =>
    cases result
    have unheld : i ∉ locked := by
      intro mine
      have lock := here.lock i
      rw [if_pos mine, free.1] at lock
      cases lock
    refine wp_bind ⟨trivial, fun _ x last t result => ?_⟩
    cases result
    simp only [modify_inode_same, here.nlink, here.ref]
    by_cases last : (s.inode i).valid = true ∧ (disk i).nlink = 0 ∧ base i + extra.count i = 1
    · rw [decide_eq_true last]
      refine wp_bind ⟨trivial, fun _ x r t result => ?_⟩
      cases result
      refine wp_bind ⟨trivial, fun _ x r t result => ?_⟩
      simp only [exec] at result
      split at result
      · cases result
        refine ⟨trivial, fun _ x r t result => ?_⟩
        cases result
        refine freed _ last.2.1 last.2.2 (here.update (i := i) rfl (fun j apart => ?_)
          (fun j apart => Function.update_of_ne apart ..) less (fun _ _ => Iff.rfl) ?_ ?_ ?_ ?_ ?_
          fun mine => absurd mine unheld)
        all_goals simp only [Shared.unref, Shared.setPin, Shared.free, modify_inode_same,
          Inode.freed, Inode.dropRef]
        · simp only [modify_inode_other apart]
        · rw [Function.update_self, ← here.nlink]
          rfl
        · rw [here.ref, here_less]
          omega
        · exact (if_neg unheld).symm
        · rintro ⟨⟩
        · intro use
          have unused := (use.resolve_right unheld).1
          omega
      · cases result
    · rw [decide_eq_false last]
      refine wp_bind (wp_bind ⟨trivial, fun _ x r t result => ?_⟩)
      simp only [exec] at result
      split at result
      · cases result
        refine ⟨trivial, fun _ x r t result => ?_⟩
        cases result
        refine kept _ last
          (here.update (i := i) rfl (fun j apart => ?_) (fun _ _ => rfl) less
          (fun _ _ => Iff.rfl) ?_ ?_ ?_ ?_ ?_ fun mine => absurd mine unheld)
        all_goals simp only [Shared.unref, Shared.setPin, modify_inode_same, Inode.dropRef]
        · simp only [modify_inode_other apart]
        · exact here.same i
        · rw [here.ref, here_less]
          omega
        · exact (if_neg unheld).symm
        · exact here.typed i
        · exact here.loaded i
      · cases result
  · cases result

end
end Aso.Xv6.Names
