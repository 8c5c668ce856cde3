import Aso.Checked
import Aso.Xv6.Fs.Tree
import Mathlib.Algebra.Order.BigOperators.Group.Finset

/-! `bfree` and `itrunc`. While a buffer is held, `bread` of the same block never
returns; a call that does not return, by that or by a panic, is `none`. -/
namespace Aso.Xv6.Fs
namespace State

/-- `bfree` by a caller that holds the buffers of the blocks `held`. It reads the superblock
again before it looks for the bitmap block. -/
def bfree (held : List Nat) (b : Nat) (s : State) : Option State :=
  if superblockNo ∈ held then none
  else
    let s := { s with sb := readsb (s.block superblockNo) }
    let bp := s.sb.bblock b
    if bp ∈ held then none
    else if (s.block bp).bit (b % bpb) then some (s.logWrite bp ((s.block bp).clearBit (b % bpb)))
    else none

/-- The loop of `itrunc` over direct blocks. -/
def freeDirect (ip : Slot) : List (Fin (ndirect + 2)) → State → Option State
  | [], s => some s
  | i :: rest, s =>
    if (s.icache ip).addrs i = 0 then freeDirect ip rest s
    else do
      let s ← s.bfree [] ((s.icache ip).addrs i)
      freeDirect ip rest (s.setAddr ip i 0)

/-- A loop over the words of the buffer of block `d` that frees the blocks they name. -/
def freeWords (held : List Nat) (d : Nat) : List Nat → State → Option State
  | [], s => some s
  | j :: rest, s =>
    if (s.block d).word j = 0 then freeWords held d rest s
    else do
      let s ← s.bfree held ((s.block d).word j)
      freeWords held d rest s

/-- The loop over the words of the double-indirect block `d`. The buffer of the
level-1 block is read, but `b` points to the data of `bp`, so the inner loop runs
over the double-indirect block once more. -/
def freeLevel1 (d : Nat) : List Nat → State → Option State
  | [], s => some s
  | j :: rest, s =>
    let a := (s.block d).word j
    if a = 0 then freeLevel1 d rest s
    else if a = d then none
    else do
      let s ← s.freeWords [d, a] d (List.range nindirect)
      let s ← s.bfree [d] a
      freeLevel1 d rest { s with block := Function.update s.block d ((s.block d).setWord j 0) }

/-- The part of `itrunc` for one of the two roots of pointer blocks. -/
def freeRoot (ip : Slot) (i : Fin (ndirect + 2)) (loop : Nat → State → Option State) (s : State) :
    Option State :=
  let d := (s.icache ip).addrs i
  if d = 0 then some s
  else do
    let s ← loop d s
    let s ← s.bfree [] d
    some (s.setAddr ip i 0)

def directs : List (Fin (ndirect + 2)) :=
  (List.finRange (ndirect + 2)).filter fun i => i.val < ndirect

def itrunc (ip : Slot) (s : State) : Option State := do
  let s ← s.freeDirect ip directs
  let s ← s.freeRoot ip indirect fun d => freeWords [d] d (List.range nindirect)
  let s ← s.freeRoot ip double fun d => freeLevel1 d (List.range nindirect)
  some ((s.setInode ip { s.icache ip with size := 0 }).iupdate ip)

variable {s t u : State} {ip : Slot} {held bs cs : List Nat} {a b c d : Nat}

/-- The superblock in memory is the one on disk, ahead of the bitmap. -/
structure SuperblockRead (s : State) : Prop where
  loaded : readsb (s.block superblockNo) = s.sb
  ahead : superblockNo < s.sb.bmapstart

/-- Then reading it again changes nothing. -/
theorem bfree_eq (read : SuperblockRead s) (held : List Nat) (b : Nat) : s.bfree held b =
    if superblockNo ∈ held ∨ s.sb.bblock b ∈ held then none
    else if s.used b then some
      (s.logWrite (s.sb.bblock b) ((s.block (s.sb.bblock b)).clearBit (b % bpb)))
    else none := by
  have same : { s with sb := readsb (s.block superblockNo) } = s := by rw [read.loaded]
  rw [bfree, same]
  by_cases super : superblockNo ∈ held
  · rw [if_pos super, if_pos (.inl super)]
  · rw [if_neg super]
    simp only [super, false_or]
    rfl

/-- From `s` to `t` the blocks `bs` were freed: each was marked, and what else is in
their bitmap blocks stays. -/
structure Freed (bs : List Nat) (s t : State) : Prop where
  sb : t.sb = s.sb
  used : ∀ c, t.used c = (s.used c && decide (c ∉ bs))
  once : bs.Nodup
  marked : ∀ b ∈ bs, s.used b = true
  kept : ∀ x, (∀ b ∈ bs, s.sb.bblock b ≠ x) → t.block x = s.block x
  word_le : ∀ x k, (t.block x).word k ≤ (s.block x).word k
  word_lt : ∀ b ∈ bs,
    ∃ k < nindirect, (t.block (s.sb.bblock b)).word k < (s.block (s.sb.bblock b)).word k

namespace Freed

theorem refl (s : State) : Freed [] s s := by
  refine ⟨rfl, fun c => ?_, List.nodup_nil, nofun, fun _ _ => rfl, fun _ _ => le_rfl, nofun⟩
  simp

theorem trans (first : Freed bs s t) (second : Freed cs t u) : Freed (bs ++ cs) s u := by
  have later (c : Nat) (member : c ∈ cs) : s.used c = true ∧ c ∉ bs := by
    have marked := second.marked c member
    rw [first.used, Bool.and_eq_true, decide_eq_true_eq] at marked
    exact marked
  constructor
  · exact second.sb.trans first.sb
  · intro c
    rw [second.used, first.used, Bool.and_assoc, ← Bool.decide_and]
    simp only [List.mem_append, not_or]
  · refine List.nodup_append.mpr ⟨first.once, second.once, ?_⟩
    rintro b member _ member' rfl
    exact (later b member').2 member
  · intro b member
    rcases List.mem_append.mp member with early | late
    · exact first.marked b early
    · exact (later b late).1
  · intro x apart
    rw [second.kept x fun b member => ?_,
      first.kept x fun b member => apart b (List.mem_append_left _ member)]
    rw [first.sb]
    exact apart b (List.mem_append_right _ member)
  · intro x k
    exact (second.word_le x k).trans (first.word_le x k)
  · intro b member
    rcases List.mem_append.mp member with early | late
    · obtain ⟨k, bound, less⟩ := first.word_lt b early
      exact ⟨k, bound, (second.word_le _ k).trans_lt less⟩
    · obtain ⟨k, bound, less⟩ := second.word_lt b late
      rw [first.sb] at less
      exact ⟨k, bound, less.trans_le (first.word_le _ k)⟩

/-- The superblock is ahead of every bitmap block. -/
theorem read (freed : Freed bs s t) (read : SuperblockRead s) : SuperblockRead t := by
  have same : t.block superblockNo = s.block superblockNo := by
    refine freed.kept _ fun b _ => Nat.ne_of_gt (read.ahead.trans_le ?_)
    exact Nat.le_add_left _ _
  exact ⟨by rw [same, read.loaded, freed.sb], freed.sb ▸ read.ahead⟩

/-- The cache of inodes does not matter. -/
theorem setInode (freed : Freed bs s t) (i j : Inode) :
    Freed bs (s.setInode ip i) (t.setInode ip j) :=
  ⟨freed.sb, freed.used, freed.once, freed.marked, freed.kept, freed.word_le, freed.word_lt⟩

theorem of_setInode {i : Inode} (freed : Freed bs (s.setInode ip i) t) : Freed bs s t :=
  ⟨freed.sb, freed.used, freed.once, freed.marked, freed.kept, freed.word_le, freed.word_lt⟩

end Freed

theorem SuperblockRead.setInode (read : SuperblockRead s) (i : Inode) :
    SuperblockRead (s.setInode ip i) :=
  ⟨read.loaded, read.ahead⟩

theorem bfree_freed (read : SuperblockRead s) (done : s.bfree held b = some t) :
    Freed [b] s t ∧ t.icache = s.icache ∧ superblockNo ∉ held ∧ s.sb.bblock b ∉ held := by
  rw [bfree_eq read] at done
  split at done
  · cases done
  next free =>
  split at done
  · next set =>
    cases done
    refine ⟨⟨rfl, fun c => ?_, List.nodup_singleton b, ?_, ?_, ?_, ?_⟩, rfl, not_or.mp free⟩
    · obtain same | other := eq_or_ne (s.sb.bblock c) (s.sb.bblock b)
      · have quotient : c / bpb = b / bpb := by simpa [Superblock.bblock] using same
        have index : b % bpb = c % bpb ↔ c = b := by
          constructor
          · intro rest
            rw [← Nat.div_add_mod b bpb, ← Nat.div_add_mod c bpb, quotient, rest]
          · exact fun eq => by rw [eq]
        simp only [used, logWrite_sb, same, logWrite_block_same, Bytes.bit_clearBit, ne_eq, index,
          List.mem_singleton]
      · have different : c ≠ b := fun eq => other (by rw [eq])
        simp [used, logWrite_block_other s _ other, different]
    · intro c member
      rw [List.mem_singleton.mp member]
      exact set
    · intro x apart
      exact logWrite_block_other s _ (apart b (List.mem_singleton_self b)).symm
    · intro x k
      obtain rfl | other := eq_or_ne x (s.sb.bblock b)
      · rw [logWrite_block_same]
        exact Bytes.word_clearBit_le _ _ _
      · rw [logWrite_block_other s _ other]
    · intro c member
      rw [List.mem_singleton.mp member, logWrite_block_same]
      refine ⟨b % bpb / 32, ?_, Bytes.word_clearBit_lt _ set⟩
      have small : b % bpb < 32 * nindirect := Nat.mod_lt _ (by decide)
      omega
  · cases done

theorem bfree_isSome (read : SuperblockRead s) (super : superblockNo ∉ held)
    (bitmap : s.sb.bblock b ∉ held) (marked : s.used b = true) :
    (s.bfree held b).isSome = true := by
  rw [bfree_eq read, if_neg (not_or.mpr ⟨super, bitmap⟩), if_pos marked]
  rfl

/-- Free a list of blocks. -/
def bfreeAll (held : List Nat) : List Nat → State → Option State
  | [], s => some s
  | b :: rest, s => do
    let s ← s.bfree held b
    bfreeAll held rest s

theorem bfreeAll_freed (read : SuperblockRead s) (done : s.bfreeAll held bs = some t) :
    Freed bs s t ∧ t.icache = s.icache ∧
      (∀ b ∈ bs, superblockNo ∉ held ∧ s.sb.bblock b ∉ held) := by
  induction bs generalizing s with
  | nil =>
    cases done
    exact ⟨.refl _, rfl, nofun⟩
  | cons b rest ih =>
    obtain ⟨u, first, later⟩ := Option.bind_eq_some_iff.mp done
    obtain ⟨freed, icache, super, bitmap⟩ := bfree_freed read first
    obtain ⟨freed', icache', others⟩ := ih (freed.read read) later
    refine ⟨freed.trans freed', icache'.trans icache, fun c member => ?_⟩
    rcases List.mem_cons.mp member with rfl | member
    · exact ⟨super, bitmap⟩
    · rw [← freed.sb]
      exact others c member

theorem bfreeAll_isSome (read : SuperblockRead s) (once : bs.Nodup)
    (marked : ∀ b ∈ bs, s.used b = true)
    (apart : ∀ b ∈ bs, superblockNo ∉ held ∧ s.sb.bblock b ∉ held) :
    (s.bfreeAll held bs).isSome = true := by
  induction bs generalizing s with
  | nil => rfl
  | cons b rest ih =>
    obtain ⟨fresh, once⟩ := List.nodup_cons.mp once
    obtain ⟨super, bitmap⟩ := apart b List.mem_cons_self
    obtain ⟨u, first⟩ :=
      Option.isSome_iff_exists.mp (bfree_isSome read super bitmap (marked b List.mem_cons_self))
    obtain ⟨freed, -, -⟩ := bfree_freed read first
    have rest : (u.bfreeAll held rest).isSome = true := by
      refine ih (freed.read read) once (fun c member => ?_) fun c member => ?_
      · have other : c ∉ [b] := fun here => fresh (List.mem_singleton.mp here ▸ member)
        rw [freed.used, marked c (List.mem_cons_of_mem b member), decide_eq_true other]
        rfl
      · rw [freed.sb]
        exact apart c (List.mem_cons_of_mem b member)
    simp only [bfreeAll, first]
    exact rest

/-- The buffer that the loop runs over is held, so it does not change meanwhile. -/
theorem freeWords_eq {js : List Nat} (read : SuperblockRead s) (inside : d ∈ held) :
    s.freeWords held d js = s.bfreeAll held ((js.map (s.block d).word).filter (· ≠ 0)) := by
  induction js generalizing s with
  | nil => rfl
  | cons j rest ih =>
    unfold freeWords
    rw [List.map_cons]
    split
    · next zero =>
      rw [zero, List.filter_cons_of_neg (by simp)]
      exact ih read
    · next nonzero =>
      rw [List.filter_cons_of_pos (by simpa using nonzero)]
      cases first : s.bfree held ((s.block d).word j) with
      | none => simp [bfreeAll, first]
      | some t =>
        obtain ⟨freed, -, -, bitmap⟩ := bfree_freed read first
        have same : t.block d = s.block d := by
          refine freed.kept d fun b member same => bitmap ?_
          rw [List.mem_singleton.mp member] at same
          rwa [same]
        simp only [bfreeAll, first]
        change t.freeWords held d rest = _
        rw [ih (freed.read read), same]
        rfl

theorem bfree_setInode (i : Inode) :
    (s.setInode ip i).bfree held b = (s.bfree held b).map (·.setInode ip i) := by
  simp only [bfree, apply_ite (Option.map fun t : State => t.setInode ip i)]
  rfl

/-- The inode with some of its block numbers cleared. -/
def cleared (i : Inode) (is : List (Fin (ndirect + 2))) : Inode :=
  { i with addrs := fun j => if j ∈ is then 0 else i.addrs j }

theorem cleared_other {i : Inode} {is : List (Fin (ndirect + 2))} {j : Fin (ndirect + 2)}
    (outside : j ∉ is) : (cleared i is).addrs j = i.addrs j := if_neg outside

theorem setInode_setInode (s : State) (ip : Slot) (i j : Inode) :
    (s.setInode ip i).setInode ip j = s.setInode ip j := by
  simp only [setInode, Function.update_idem]

theorem setInode_icache (s : State) (ip : Slot) (i : Inode) : (s.setInode ip i).icache ip = i :=
  Function.update_self ..

theorem bfreeAll_setInode (i : Inode) :
    (s.setInode ip i).bfreeAll held bs = (s.bfreeAll held bs).map (·.setInode ip i) := by
  induction bs generalizing s with
  | nil => rfl
  | cons b rest ih =>
    simp only [bfreeAll, bfree_setInode]
    cases s.bfree held b with
    | none => rfl
    | some t => exact ih

/-- The loop over direct blocks frees those that are there and clears their numbers. -/
theorem freeDirect_eq {is : List (Fin (ndirect + 2))} (read : SuperblockRead s) (once : is.Nodup) :
    s.freeDirect ip is =
    (s.bfreeAll [] ((is.map (s.icache ip).addrs).filter (· ≠ 0))).map
    (·.setInode ip (cleared (s.icache ip) is)) := by
  induction is generalizing s with
  | nil =>
    have same : s.setInode ip (cleared (s.icache ip) []) = s := by
      simp only [setInode, cleared, List.not_mem_nil, if_false]
      rw [Function.update_eq_self]
    exact (congrArg some same).symm
  | cons i rest ih =>
    obtain ⟨fresh, once⟩ := List.nodup_cons.mp once
    -- the numbers of the other blocks are not touched
    have others :
        rest.map (Function.update (s.icache ip).addrs i 0) = rest.map (s.icache ip).addrs := by
      refine List.map_congr_left fun j member => ?_
      have other : j ≠ i := fun same => fresh (same ▸ member)
      rw [Function.update_of_ne other]
    have twice :
        cleared { s.icache ip with addrs := Function.update (s.icache ip).addrs i 0 } rest =
        cleared (s.icache ip) (i :: rest) := by
      simp only [cleared, List.mem_cons, Function.update_apply]
      congr 2
      funext j
      by_cases here : j = i <;> by_cases there : j ∈ rest <;> simp [here, there]
    unfold freeDirect
    rw [List.map_cons]
    split
    · next zero =>
      have same : Function.update (s.icache ip).addrs i 0 = (s.icache ip).addrs := by
        rw [← zero, Function.update_eq_self]
      rw [same] at twice
      rw [zero, List.filter_cons_of_neg (by simp), ih read once, ← twice]
    · next nonzero =>
      rw [List.filter_cons_of_pos (by simpa using nonzero)]
      cases first : s.bfree [] ((s.icache ip).addrs i) with
      | none => simp [bfreeAll, first]
      | some t =>
        obtain ⟨freed, icache, -⟩ := bfree_freed read first
        simp only [bfreeAll, first]
        change (t.setAddr ip i 0).freeDirect ip rest = _
        rw [setAddr, ih ((freed.read read).setInode _) once, icache, setInode_icache, twice, others,
          bfreeAll_setInode, Option.map_map]
        change Option.map _ _ = Option.map _ (t.bfreeAll [] _)
        refine congrFun (congrArg Option.map (funext fun u => ?_)) _
        exact setInode_setInode ..

/-- One entry of the double-indirect block is enough to stop the loop: the inner loop
frees the level-1 block, and then it is freed again. -/
theorem freeLevel1_some {js : List Nat} (read : SuperblockRead s) (inside : ∀ j ∈ js, j < nindirect)
    (done : s.freeLevel1 d js = some t) : (∀ j ∈ js, (s.block d).word j = 0) ∧ t = s := by
  induction js generalizing s with
  | nil =>
    cases done
    exact ⟨nofun, rfl⟩
  | cons j rest ih =>
    simp only [freeLevel1] at done
    split at done
    · next zero =>
      obtain ⟨others, same⟩ :=
        ih read (fun k member => inside k (List.mem_cons_of_mem j member)) done
      refine ⟨fun k member => ?_, same⟩
      rcases List.mem_cons.mp member with rfl | member
      · exact zero
      · exact others k member
    · next nonzero =>
      split at done
      · cases done
      · obtain ⟨u, inner, later⟩ := Option.bind_eq_some_iff.mp done
        obtain ⟨v, again, -⟩ := Option.bind_eq_some_iff.mp later
        rw [freeWords_eq read List.mem_cons_self] at inner
        have freed := (bfreeAll_freed read inner).1
        have marked := (bfree_freed (freed.read read) again).1.marked _ (List.mem_singleton_self _)
        have listed :
            (s.block d).word j ∈ ((List.range nindirect).map (s.block d).word).filter (· ≠ 0) := by
          refine List.mem_filter.mpr
            ⟨List.mem_map_of_mem (List.mem_range.mpr (inside j List.mem_cons_self)), ?_⟩
          simpa using nonzero
        rw [freed.used, decide_eq_false (not_not.mpr listed), Bool.and_false] at marked
        cases marked

theorem freeLevel1_zero {js : List Nat} (zero : ∀ j ∈ js, (s.block d).word j = 0) :
    s.freeLevel1 d js = some s := by
  induction js with
  | nil => rfl
  | cons j rest ih =>
    simp only [freeLevel1]
    rw [if_pos (zero j List.mem_cons_self)]
    exact ih fun k member => zero k (List.mem_cons_of_mem j member)

theorem freeRoot_some {i : Fin (ndirect + 2)} {loop : Nat → State → Option State}
    (done : s.freeRoot ip i loop = some t) :
    ((s.icache ip).addrs i = 0 ∧ t = s) ∨
    ((s.icache ip).addrs i ≠ 0 ∧ ∃ u v, loop ((s.icache ip).addrs i) s = some u ∧
      u.bfree [] ((s.icache ip).addrs i) = some v ∧ t = v.setAddr ip i 0) := by
  simp only [freeRoot] at done
  split at done
  · next absent =>
    cases done
    exact .inl ⟨absent, rfl⟩
  · next present =>
    obtain ⟨u, looped, rest⟩ := Option.bind_eq_some_iff.mp done
    obtain ⟨v, freed, rest⟩ := Option.bind_eq_some_iff.mp rest
    cases rest
    exact .inr ⟨present, u, v, looped, freed, rfl⟩

/-- The blocks that `itrunc` frees when `read` are the words it finds in the indirect block. -/
def freedBy (i : Inode) (read : Nat → Nat) : List Nat :=
  (directs.map i.addrs).filter (· ≠ 0) ++
    ((if i.addrs indirect = 0 then []
    else ((List.range nindirect).map read).filter (· ≠ 0) ++ [i.addrs indirect]) ++
      if i.addrs double = 0 then [] else [i.addrs double])

/-- A run of `itrunc` that returns. -/
structure Returns (s t : State) (ip : Slot) (read : Nat → Nat) : Prop where
  freed : ∃ u, Freed (freedBy (s.icache ip) read) s u ∧
    t = (u.setInode ip { s.icache ip with addrs := fun _ => 0, size := 0 }).iupdate ip
  read_le : ∀ k, read k ≤ (s.block ((s.icache ip).addrs indirect)).word k
  read_lt : ∀ b ∈ (directs.map (s.icache ip).addrs).filter (· ≠ 0),
    s.sb.bblock b = (s.icache ip).addrs indirect →
    ∃ k < nindirect, read k < (s.block ((s.icache ip).addrs indirect)).word k
  read_eq : (∀ b ∈ (directs.map (s.icache ip).addrs).filter (· ≠ 0),
    s.sb.bblock b ≠ (s.icache ip).addrs indirect) →
    ∀ k, read k = (s.block ((s.icache ip).addrs indirect)).word k
  avoids : (s.icache ip).addrs indirect ≠ 0 → ∀ k < nindirect, read k ≠ 0 →
    (s.icache ip).addrs indirect ≠ superblockNo ∧
    s.sb.bblock (read k) ≠ (s.icache ip).addrs indirect

theorem cleared_all (i : Inode) :
    cleared (cleared (cleared i directs) [indirect]) [double] = { i with addrs := fun _ => 0 } := by
  have all (j : Fin (ndirect + 2)) : j ∈ directs ∨ j = indirect ∨ j = double := by decide +revert
  simp only [cleared, List.mem_singleton]
  congr 2
  funext j
  rcases all j with here | here | here <;> simp [here]

theorem setAddr_eq (s : State) (ip : Slot) (i : Fin (ndirect + 2)) :
    s.setAddr ip i 0 = s.setInode ip (cleared (s.icache ip) [i]) := by
  have same : Function.update (s.icache ip).addrs i 0 = fun j => if j = i then 0
      else (s.icache ip).addrs j :=
    funext fun j => Function.update_apply ..
  rw [setAddr, same]
  simp only [cleared, List.mem_singleton]

/-- Nothing is freed, and nothing is cleared, where there is no block. -/
theorem cleared_zero {i : Inode} {j : Fin (ndirect + 2)} (zero : i.addrs j = 0) :
    cleared i [j] = i := by
  have same : (fun k => if k ∈ [j] then 0 else i.addrs k) = i.addrs := by
    funext k
    split
    · next here => rw [List.mem_singleton.mp here, zero]
    · rfl
  rw [cleared, same]

theorem itrunc_returns (loaded : SuperblockRead s) (done : s.itrunc ip = some t) :
    ∃ read, Returns s t ip read := by
  obtain ⟨s₁, direct, rest⟩ := Option.bind_eq_some_iff.mp done
  obtain ⟨s₂, single, rest⟩ := Option.bind_eq_some_iff.mp rest
  obtain ⟨s₃, twice, rest⟩ := Option.bind_eq_some_iff.mp rest
  cases rest
  rw [freeDirect_eq loaded (by decide)] at direct
  obtain ⟨u₁, blocks, rfl⟩ := Option.map_eq_some_iff.mp direct
  have freed₁ := (bfreeAll_freed loaded blocks).1
  have loaded₁ := freed₁.read loaded
  generalize first : cleared (s.icache ip) directs = i₁ at single
  have kept₁ : i₁.addrs indirect = (s.icache ip).addrs indirect ∧
      i₁.addrs double = (s.icache ip).addrs double := by
    rw [← first]
    exact ⟨cleared_other (by decide), cleared_other (by decide)⟩
  have part₂ : ∃ v, Freed (if (s.icache ip).addrs indirect = 0 then [] else
      ((List.range nindirect).map (u₁.block ((s.icache ip).addrs indirect)).word).filter (· ≠ 0) ++
        [(s.icache ip).addrs indirect]) u₁ v ∧ s₂ = v.setInode ip (cleared i₁ [indirect]) ∧
      ((s.icache ip).addrs indirect ≠ 0 →
        ∀ k < nindirect, (u₁.block ((s.icache ip).addrs indirect)).word k ≠ 0 →
        (s.icache ip).addrs indirect ≠ superblockNo ∧
          s.sb.bblock ((u₁.block ((s.icache ip).addrs indirect)).word k) ≠
          (s.icache ip).addrs indirect) := by
    rw [← kept₁.1]
    rcases freeRoot_some single with ⟨absent, rfl⟩ | ⟨present, u, v, looped, freed, rfl⟩
    · rw [setInode_icache] at absent
      refine ⟨u₁, ?_, by rw [cleared_zero absent], fun present => absurd absent present⟩
      rw [if_pos absent]
      exact .refl u₁
    · rw [setInode_icache] at present looped freed
      rw [freeWords_eq (loaded₁.setInode _) (List.mem_singleton_self _)] at looped
      obtain ⟨words, icache, avoids⟩ := bfreeAll_freed (loaded₁.setInode _) looped
      obtain ⟨root, icache', -, -⟩ := bfree_freed (words.read (loaded₁.setInode _)) freed
      refine ⟨v, ?_, ?_, fun _ k bound nonzero => ?_⟩
      · rw [if_neg present]
        exact (words.trans root).of_setInode
      · rw [setAddr_eq, icache', icache, setInode_icache]
      · have listed := avoids ((u₁.block (i₁.addrs indirect)).word k)
          (List.mem_filter.mpr
          ⟨List.mem_map_of_mem (List.mem_range.mpr bound), decide_eq_true nonzero⟩)
        rw [List.mem_singleton, List.mem_singleton] at listed
        refine ⟨fun same => listed.1 same.symm, fun same => listed.2 ?_⟩
        rw [← freed₁.sb] at same
        exact same
  obtain ⟨v₂, freed₂, rfl, avoids⟩ := part₂
  have loaded₂ := freed₂.read loaded₁
  have kept₂ : (cleared i₁ [indirect]).addrs double = (s.icache ip).addrs double := by
    rw [← kept₁.2]
    exact cleared_other (by decide)
  have part₃ : ∃ v,
      Freed (if (s.icache ip).addrs double = 0 then [] else [(s.icache ip).addrs double]) v₂ v ∧
      s₃ = v.setInode ip (cleared (cleared i₁ [indirect]) [double]) := by
    rw [← kept₂]
    rcases freeRoot_some twice with ⟨absent, rfl⟩ | ⟨present, u, v, looped, freed, rfl⟩
    · rw [setInode_icache] at absent
      refine ⟨v₂, ?_, by rw [cleared_zero absent]⟩
      rw [if_pos absent]
      exact .refl v₂
    · rw [setInode_icache] at present looped freed
      obtain ⟨-, rfl⟩ := freeLevel1_some (loaded₂.setInode _)
        (fun j member => List.mem_range.mp member) looped
      obtain ⟨root, icache, -, -⟩ := bfree_freed (loaded₂.setInode _) freed
      refine ⟨v, ?_, ?_⟩
      · rw [if_neg present]
        exact root.of_setInode
      · rw [setAddr_eq, icache, setInode_icache]
  obtain ⟨v₃, freed₃, rfl⟩ := part₃
  refine ⟨(u₁.block ((s.icache ip).addrs indirect)).word,
    ⟨v₃, freed₁.trans (freed₂.trans freed₃), ?_⟩, ?_, ?_, ?_, avoids⟩
  · rw [setInode_icache, setInode_setInode, ← first, cleared_all]
  · exact freed₁.word_le _
  · intro b member same
    have less := freed₁.word_lt b member
    rwa [same] at less
  · intro apart k
    rw [freed₁.kept _ apart]

theorem mem_nonzero {α : Type} {l : List α} {f : α → Nat} :
    b ∈ (l.map f).filter (· ≠ 0) ↔ b ≠ 0 ∧ ∃ x ∈ l, f x = b := by
  rw [List.mem_filter, List.mem_map, decide_eq_true_eq, and_comm]

theorem nodup_nonzero {α : Type} {l : List α} {f : α → Nat} (once : l.Nodup)
    (apart : ∀ x y, f x ≠ 0 → f x = f y → x = y) : ((l.map f).filter (· ≠ 0)).Nodup := by
  rw [List.filter_map]
  refine List.Nodup.map_on (fun x inside y _ same => apart x y ?_ same) (once.filter _)
  simpa using (List.mem_filter.mp inside).2

/-- Numbers that only got smaller and still include all the old ones are the old ones. -/
theorem eq_of_covers {n : Nat} {old new : Nat → Nat} (le : ∀ k, new k ≤ old k)
    (apart : ∀ j < n, ∀ k < n, old j ≠ 0 → old j = old k → j = k)
    (covers : ∀ k < n, old k ≠ 0 → ∃ j < n, new j = old k) :
    ∀ k < n, old k ≠ 0 → new k = old k := by
  let places := (Finset.range n).filter fun k => old k ≠ 0
  have distinct : Set.InjOn old places := by
    intro j first k second same
    rw [Finset.mem_coe, Finset.mem_filter, Finset.mem_range] at first second
    exact apart j first.1 k second.1 first.2 same
  have included : places.image old ⊆ places.image new := by
    intro v member
    obtain ⟨k, inside, rfl⟩ := Finset.mem_image.mp member
    rw [Finset.mem_filter, Finset.mem_range] at inside
    obtain ⟨j, bound, same⟩ := covers k inside.1 inside.2
    refine Finset.mem_image.mpr
      ⟨j, Finset.mem_filter.mpr ⟨Finset.mem_range.mpr bound, fun zero => inside.2 ?_⟩, same⟩
    have := le j
    omega
  have few : (places.image new).card ≤ (places.image old).card := by
    rw [Finset.card_image_of_injOn distinct]
    exact Finset.card_image_le
  have same : places.image old = places.image new := Finset.eq_of_subset_of_card_le included few
  have distinct' : Set.InjOn new places := by
    refine Finset.card_image_iff.mp ?_
    rw [← same, Finset.card_image_of_injOn distinct]
  have sums : ∑ k ∈ places, new k = ∑ k ∈ places, old k := by
    rw [← Finset.sum_image (f := fun v => v) distinct', ← Finset.sum_image
      (f := fun v => v) distinct, same]
  intro k bound nonzero
  refine (Finset.sum_eq_sum_iff_of_le fun k _ => le k).mp sums k ?_
  exact Finset.mem_filter.mpr ⟨Finset.mem_range.mpr bound, nonzero⟩

/-- The number of the block at a place of the tree of an inode in memory. -/
def tree (s : State) (ip : Slot) (n : Node) : Nat := s.addr (.core ip) n

theorem tree_root (i : Fin (ndirect + 2)) : s.tree ip (.root i) = (s.icache ip).addrs i := rfl

theorem tree_single (present : (s.icache ip).addrs indirect ≠ 0) (k : Fin nindirect) :
    s.tree ip (.single k) = (s.block ((s.icache ip).addrs indirect)).word k := if_neg present

theorem tree_level1 (present : (s.icache ip).addrs double ≠ 0) (k : Fin nindirect) :
    s.tree ip (.level1 k) = (s.block ((s.icache ip).addrs double)).word k := if_neg present

/-- When `itrunc` does its job: there is no level-1 block, and the indirect block is
not one that `bfree` has to read or change before the loop over it has ended. -/
structure Truncatable (s : State) (ip : Slot) : Prop where
  flat : ∀ j, s.tree ip (.level1 j) = 0
  direct : ∀ i ∈ directs, s.tree ip (.root i) ≠ 0 → s.tree ip (.root indirect) ≠ 0 →
    s.sb.bblock (s.tree ip (.root i)) ≠ s.tree ip (.root indirect)
  single : ∀ k, s.tree ip (.single k) ≠ 0 → s.tree ip (.root indirect) ≠ superblockNo ∧
    s.sb.bblock (s.tree ip (.single k)) ≠ s.tree ip (.root indirect)

end State
end Aso.Xv6.Fs
