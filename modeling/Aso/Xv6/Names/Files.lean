import Aso.Xv6.Names.Tidy

/-! The calls that change what a process keeps: its open files and its current
directory. The references to an inode are those of all processes together. -/
namespace Aso.Xv6.Names
open Interleave Aso.Sequential Aso.Sequential.Rules

/-- The references of a process; one that has exited keeps none. -/
def held : Option Data → Multiset Nat
  | none => 0
  | some c => c.refs

/-- The references to an inode between calls. -/
def keeps (data : Slot → Option Data) (i : Nat) : Nat := ∑ q, (held (data q)).count i

/-- The current directories. -/
def homes (data : Slot → Option Data) (i : Nat) : Prop := ∃ q c, data q = some c ∧ c.cwd = i

/-- No call is in progress. -/
def Settled (N : Nat) (data : Slot → Option Data) (s : Shared) : Prop :=
  ∀ p, Kept p (keeps data) N (homes data) s

section
variable {p : Slot} {N : Nat} {data : Slot → Option Data} {c : Data} {s : Shared}

theorem keeps_update (data : Slot → Option Data) (p : Slot) (a : Option Data) (i : Nat) :
    keeps (Function.update data p a) i + (held (data p)).count i =
      keeps data i + (held a).count i := by
  simp only [keeps]
  exact sum_update (fun d => (held d).count i) data p a

theorem count_le_keeps (data : Slot → Option Data) (p : Slot) (i : Nat) :
    (held (data p)).count i ≤ keeps data i :=
  Finset.single_le_sum (f := fun q => (held (data q)).count i) (fun _ _ => Nat.zero_le _)
    (Finset.mem_univ p)

theorem keeps_of_home {i : Nat} (home : homes data i) : keeps data i ≠ 0 := by
  obtain ⟨q, c, kept, rfl⟩ := home
  have part := count_le_keeps data q c.cwd
  rw [kept, held, Data.refs, Multiset.count_cons_self] at part
  omega

theorem home_of (here : data p = some c) : homes data c.cwd := ⟨p, c, here, rfl⟩

/-- Without locks it does not matter whose call it was. -/
theorem Kept.settled {base : Nat → Nat} {homes : Nat → Prop} (kept : Kept p base N homes s)
    (q : Slot) : Kept q base N homes s := by
  obtain ⟨disk, tidy, here⟩ := kept
  exact ⟨disk, tidy, here.size, here.same, here.ref, here.lock, here.typed, here.loaded, here.kept⟩

/-- A call that changes nothing the process keeps. -/
theorem Settled.same (here : data p = some c) {t : Shared}
    (kept : Kept p (keeps data) N (homes data) t) :
    Settled N (Function.update data p (some c)) t := by
  rw [← here, Function.update_eq_self]
  exact kept.settled

/-- References move between what the processes keep and what the call has taken. -/
theorem Holds.move {base base' : Nat → Nat} {extra extra' : Multiset Nat} {locked : List Nat}
    {disk : Nat → Dnode} (here : Holds p base N extra locked disk s)
    (same : ∀ i, base' i + extra'.count i = base i + extra.count i)
    (loaded : ∀ i, base' i ≠ 0 → base i ≠ 0 ∨ i ∈ locked) :
    Holds p base' N extra' locked disk s := by
  refine ⟨here.size, here.same, fun i => ?_, here.lock, here.typed, fun i used => ?_,
    fun i mine => ?_⟩
  · rw [here.ref, same]
  · rcases used with ⟨kept, other⟩ | mine
    · exact here.loaded i ((loaded i kept).imp_left fun before => ⟨before, other⟩)
    · exact here.loaded i (.inr mine)
  · rw [same]
    exact here.kept i mine

/-- The disk stays tidy if the process keeps on referring to every inode that is no directory. -/
theorem Tidy.swap {disk : Nat → Dnode} {a : Option Data}
    (tidy : Tidy N (homes data) (keeps data) disk) (home : ∀ c, a = some c → (disk c.cwd).ty = .dir)
    (still : ∀ i ∈ held (data p), (disk i).ty ≠ .dir → i ∈ held a) :
    Tidy N (homes (Function.update data p a)) (keeps (Function.update data p a)) disk := by
  refine ⟨tidy.linked, fun i there => ?_, fun i allocated zero => ?_⟩
  · obtain ⟨q, c, kept, rfl⟩ := there
    obtain rfl | other := eq_or_ne q p
    · rw [Function.update_self] at kept
      exact home c kept
    · rw [Function.update_of_ne other] at kept
      exact tidy.home _ (home_of kept)
  · have leaf : (disk i).ty ≠ .dir := fun dir => tidy.linked.links_pos dir zero
    have before := tidy.unnamed i allocated zero
    have moved := keeps_update data p a i
    by_cases mine : i ∈ held (data p)
    · have part := count_le_keeps (Function.update data p a) p i
      have positive := Multiset.count_pos.mpr (still i mine leaf)
      rw [Function.update_self] at part
      omega
    · rw [Multiset.count_eq_zero.mpr mine] at moved
      omega

/-- What is kept when process `p` comes to keep `a`, and has `extra` in its hands. -/
theorem Holds.swap {extra extra' : Multiset Nat} {locked : List Nat} {disk : Nat → Dnode}
    {a : Option Data} (here : Holds p (keeps data) N extra locked disk s)
    (same : held a + extra' = held (data p) + extra)
    (loaded : ∀ i ∈ held a, i ∈ held (data p) ∨ i ∈ locked) :
    Holds p (keeps (Function.update data p a)) N extra' locked disk s := by
  have moved (i : Nat) := keeps_update data p a i
  have counts (i : Nat) := congrArg (Multiset.count i) same
  simp only [Multiset.count_add] at counts
  refine here.move (fun i => ?_) fun i used => ?_
  · have now := moved i
    have before := counts i
    omega
  · by_cases mine : i ∈ held a
    · refine (loaded i mine).imp_left fun before => ?_
      have part := count_le_keeps data p i
      have positive := Multiset.count_pos.mpr before
      omega
    · have now := moved i
      rw [Multiset.count_eq_zero.mpr mine] at now
      exact .inl (by omega)

theorem hold_openInode (path : Path) (omode : Nat) {cwd : Nat} {base : Nat → Nat}
    {homes : Nat → Prop} {extra : Multiset Nat} {disk : Nat → Dnode}
    {post : Option Nat → Shared → Prop} (here : Holds p base N extra [] disk s)
    (tidy : Tidy N homes base disk) (home : homes cwd)
    (failed : ∀ t, Holds p base N extra [] disk t → post none t) (opened : ∀ ip disk' t,
      Tidy N homes base disk' → (disk' ip).Alive → Holds p base N (ip ::ₘ extra) [ip] disk' t →
      post (some ip) t) : rules.wp exec p (openInode path omode cwd) post s := by
  unfold openInode
  split
  · exact hold_create path (show Ty.file ≠ .free from nofun) here tidy home failed opened
  · have walkable := tidy.linked.walkable (tidy.home cwd home)
    refine wp_bind (hold_namei path here walkable failed fun ip t₁ alive here₁ => ?_)
    refine wp_bind (hold_ilock here₁ alive.1 fun t₂ _ here₂ => ?_)
    refine wp_bind (hold_type here₂ ?_)
    split
    · exact wp_bind (hold_unlockput [] here₂ nothing_left alive failed)
    · exact opened ip disk t₂ tidy alive here₂

theorem hold_sysOpen (path : Path) (omode : Nat) (settled : Settled N data s)
    (mine : data p = some c) :
    rules.wp exec p (sysOpen path omode c)
      (fun a t => Settled N (Function.update data p (some a)) t) s := by
  obtain ⟨disk, tidy, here⟩ := settled p
  have same (disk : Nat → Dnode) (tidy : Tidy N (homes data) (keeps data) disk) (t : Shared)
      (here : Holds p (keeps data) N 0 [] disk t) : Settled N (Function.update data p (some c)) t :=
    Settled.same mine ⟨disk, tidy, here⟩
  refine wp_bind (hold_openInode path omode here tidy (home_of mine) (same disk tidy)
    fun ip disk' t₁ tidy' alive here₁ => ?_)
  refine wp_bind (hold_choose fun room => ?_)
  split
  · exact wp_bind (hold_unlockput [] here₁ nothing_left alive (same disk' tidy'))
  · next fd found =>
    have free : c.ofile fd = none := by
      cases room with
      | true => exact fdalloc_free found
      | false => cases found
    obtain ⟨f, named⟩ :
        ∃ f : File, f = ⟨ip, !omode.testBit 0, omode.testBit 0 || omode.testBit 1⟩ := ⟨_, rfl⟩
    have target : f.ip = ip := by rw [named]
    have here₂ : Holds p (keeps (Function.update data p (some (c.setFile fd (some f))))) N 0
        [ip] disk' t₁ := by
      refine here₁.swap ?_ fun i member => ?_
      · rw [mine, held, held, refs_open free, target, add_zero, Multiset.add_cons, add_zero]
      · rw [held, refs_open free, target] at member
        rw [mine]
        rcases Multiset.mem_cons.mp member with rfl | before
        · exact .inr (List.mem_singleton_self _)
        · exact .inl before
    refine wp_bind (hold_iunlock [] here₂ nothing_left fun t₂ _ here₃ => ?_)
    have tidy₃ : Tidy N (homes (Function.update data p (some (c.setFile fd (some f)))))
        (keeps (Function.update data p (some (c.setFile fd (some f))))) disk' := by
      refine tidy'.swap (fun c' same => ?_) fun i member _ => ?_
      · obtain rfl := Option.some.inj same
        have home := tidy'.home _ (home_of mine)
        exact home
      · rw [mine] at member
        rw [held, refs_open free]
        exact Multiset.mem_cons_of_mem member
    have kept : Kept p _ N _ t₂ := ⟨disk', tidy₃, here₃⟩
    rw [named] at kept
    exact kept.settled

theorem hold_sysCreate (path : Path) {ty : Ty} (kind : ty ≠ .free) (settled : Settled N data s)
    (mine : data p = some c) :
    rules.wp exec p (sysCreate path ty c)
      (fun a t => Settled N (Function.update data p (some a)) t) s := by
  obtain ⟨disk, tidy, here⟩ := settled p
  refine wp_bind (hold_create path kind here tidy (home_of mine)
    (fun t here => Settled.same mine ⟨disk, tidy, here⟩) fun ip disk' t₁ tidy' alive here₁ => ?_)
  exact wp_bind (hold_unlockput [] here₁ nothing_left alive
    fun t here => Settled.same mine ⟨disk', tidy', here⟩)

theorem hold_sysChdir (path : Path) (settled : Settled N data s) (mine : data p = some c) :
    rules.wp exec p (sysChdir path c)
      (fun a t => Settled N (Function.update data p (some a)) t) s := by
  obtain ⟨disk, tidy, here⟩ := settled p
  have same (t : Shared) (here : Holds p (keeps data) N 0 [] disk t) :
      Settled N (Function.update data p (some c)) t :=
    Settled.same mine ⟨disk, tidy, here⟩
  have walkable := tidy.linked.walkable (tidy.home _ (home_of mine))
  refine wp_bind (hold_namei path here walkable same fun ip t₁ alive here₁ => ?_)
  refine wp_bind (hold_ilock here₁ alive.1 fun t₂ _ here₂ => ?_)
  refine wp_bind (hold_type here₂ ?_)
  split
  · exact wp_bind (hold_unlockput [] here₂ nothing_left alive same)
  · next dir =>
    have dir : (disk ip).ty = .dir := not_not.mp dir
    have here₃ : Holds p (keeps (Function.update data p (some { c with cwd := ip }))) N
        (c.cwd ::ₘ 0) [ip] disk t₂ := by
      refine here₂.swap ?_ fun i member => ?_
      · rw [mine]
        simp only [held, Data.refs]
        rw [Multiset.cons_add, Multiset.cons_add, Multiset.add_cons, Multiset.add_cons,
          Multiset.cons_swap]
      · rw [mine]
        rcases Multiset.mem_cons.mp member with rfl | file
        · exact .inr (List.mem_singleton_self _)
        · exact .inl (Multiset.mem_cons_of_mem file)
    refine wp_bind (hold_iunlock [] here₃ nothing_left fun t₃ _ here₄ => ?_)
    refine wp_bind (hold_put here₄ walkable.cwd fun t₄ here₅ => ?_)
    have tidy' : Tidy N (homes (Function.update data p (some { c with cwd := ip })))
        (keeps (Function.update data p (some { c with cwd := ip }))) disk := by
      refine tidy.swap (fun c' same => ?_) fun i member leaf => ?_
      · obtain rfl := Option.some.inj same
        exact dir
      · rw [mine] at member
        rcases Multiset.mem_cons.mp member with rfl | file
        · exact absurd (tidy.home _ (home_of mine)) leaf
        · exact Multiset.mem_cons_of_mem file
    have kept : Kept p _ N _ t₄ := ⟨disk, tidy', here₅⟩
    exact kept.settled

theorem hold_sysClose (fd : Fin nofile) (settled : Settled N data s) (mine : data p = some c) :
    rules.wp exec p (sysClose fd c)
      (fun a t => a = c.setFile fd none ∧ Settled N (Function.update data p (some a)) t) s := by
  obtain ⟨disk, tidy, here⟩ := settled p
  unfold sysClose
  split
  · next closed =>
    have same : c = c.setFile fd none := by
      rw [Data.setFile, ← closed, Function.update_eq_self]
    exact ⟨same, Settled.same mine ⟨disk, tidy, here⟩⟩
  · next f opened =>
    have refs := refs_close opened
    have here' : Holds p (keeps (Function.update data p (some (c.setFile fd none)))) N (f.ip ::ₘ 0)
        [] disk s := by
      refine here.swap ?_ fun i member => ?_
      · rw [mine, held, held, refs, Multiset.add_cons, add_zero, add_zero]
      · rw [mine, held, refs]
        exact .inl (Multiset.mem_cons_of_mem member)
    have used : keeps data f.ip ≠ 0 := by
      have part := count_le_keeps data p f.ip
      rw [mine, held, refs, Multiset.count_cons_self] at part
      omega
    have total : (fun i => keeps (Function.update data p (some (c.setFile fd none))) i +
        (f.ip ::ₘ 0).count i) = keeps data := by
      funext i
      rw [← here'.ref, here.ref, Multiset.count_zero, add_zero]
    rw [← total] at tidy
    refine wp_bind (hold_drop here' (fun unlinked => ?_) tidy fun disk' t tidy' here'' => ⟨rfl, ?_⟩)
    · refine here.loaded f.ip (.inl ⟨used, ?_⟩)
      rintro root
      rw [root] at unlinked
      exact (tidy.linked.alive (mem_dirs.mp tidy.linked.tree.root_mem).2).2 unlinked
    · simp only [Multiset.count_zero, add_zero] at tidy'
      have kept : Kept p (keeps (Function.update data p (some (c.setFile fd none)))) N
          (homes (Function.update data p (some (c.setFile fd none)))) t := by
        refine ⟨disk', ⟨tidy'.linked, fun i there => ?_, fun i allocated zero => ?_⟩, here''⟩
        · obtain ⟨q, c', kept, rfl⟩ := there
          obtain rfl | other := eq_or_ne q p
          · rw [Function.update_self] at kept
            obtain rfl := Option.some.inj kept
            have home := tidy'.home _ (home_of mine)
            exact home
          · rw [Function.update_of_ne other] at kept
            exact tidy'.home _ (home_of kept)
        · exact tidy'.unnamed i allocated zero
      exact kept.settled

/-- The loop of `exit` over the open files. -/
def closeAll : List (Fin nofile) → Data → Code Data
  | [], c => pure c
  | fd :: rest, c => do
    let c ← sysClose fd c
    closeAll rest c

/-- The part of `exit` that deals with inodes. -/
def sysExit (c : Data) : Code (Option Data) := do
  let c ← closeAll (List.finRange nofile) c
  iput c.cwd
  pure none

theorem hold_closeAll (fds : List (Fin nofile)) (settled : Settled N data s)
    (mine : data p = some c) : rules.wp exec p (closeAll fds c)
      (fun a t => a.cwd = c.cwd ∧ (∀ fd, fd ∈ fds ∨ c.ofile fd = none → a.ofile fd = none) ∧
        Settled N (Function.update data p (some a)) t) s := by
  induction fds generalizing c data s with
  | nil =>
    refine ⟨rfl, fun fd closed => closed.resolve_left List.not_mem_nil, ?_⟩
    rw [← mine, Function.update_eq_self]
    exact settled
  | cons fd rest ih =>
    refine wp_bind (wp_mono (hold_sysClose fd settled mine) ?_)
    rintro _ t ⟨rfl, settled⟩
    refine wp_mono (ih settled (Function.update_self ..)) ?_
    rintro a u ⟨same, closed, settled⟩
    refine ⟨same, fun other before => closed other ?_, ?_⟩
    · simp only [Data.setFile]
      obtain rfl | apart := eq_or_ne other fd
      · exact .inr (Function.update_self ..)
      · rw [Function.update_of_ne apart]
        exact before.imp_left fun member => (List.mem_cons.mp member).resolve_left apart
    · rw [Function.update_idem] at settled
      exact settled

theorem hold_sysExit (settled : Settled N data s) (mine : data p = some c) :
    rules.wp exec p (sysExit c) (fun a t => Settled N (Function.update data p a) t) s := by
  refine wp_bind (wp_mono (hold_closeAll _ settled mine) ?_)
  rintro c' t ⟨-, closed, settled⟩
  obtain ⟨data', define⟩ : ∃ data', data' = Function.update data p (some c') := ⟨_, rfl⟩
  have mine' : data' p = some c' := by rw [define, Function.update_self]
  rw [← define] at settled
  have after (a : Option Data) : Function.update data p a = Function.update data' p a := by
    rw [define, Function.update_idem]
  have alone : held (data' p) = c'.cwd ::ₘ 0 := by
    rw [mine', held, Data.refs]
    congr 1
    apply Finset.sum_eq_zero
    intro fd _
    rw [closed fd (.inl (List.mem_finRange fd)), fileRef]
  obtain ⟨disk, tidy, here⟩ := settled p
  have dir := tidy.home _ (home_of mine')
  have here' : Holds p (keeps (Function.update data' p none)) N (c'.cwd ::ₘ 0) [] disk t := by
    refine here.swap ?_ fun i member => absurd member (Multiset.notMem_zero i)
    rw [alone, held, add_zero, zero_add]
  refine wp_bind (hold_put here' (tidy.linked.alive dir) fun u here'' => ?_)
  have kept :
      Kept p (keeps (Function.update data' p none)) N (homes (Function.update data' p none)) u := by
    refine ⟨disk, tidy.swap (by rintro _ ⟨⟩) fun i member leaf => ?_, here''⟩
    rw [alone, Multiset.mem_cons] at member
    obtain rfl := member.resolve_right (Multiset.notMem_zero i)
    exact absurd dir leaf
  change Settled N (Function.update data p none) u
  rw [after]
  exact kept.settled

end
end Aso.Xv6.Names
