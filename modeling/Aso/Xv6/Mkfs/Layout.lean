import Aso.Xv6.Mkfs.Machine

/-! Where mkfs puts blocks. Block numbers are handed out in ascending order, so
a new block is zero and differs from every block attached before; the trees of
the inodes cover exactly the blocks handed out. -/
namespace Aso.Xv6.Mkfs
open Fs

/-- The block number at a place of the tree of inode `d`. -/
def place (disk : Nat → Block) (d : Dinode) : Node → Nat
  | .root i => d.addrs i
  | .single j => if d.addrs indirect = 0 then 0 else (disk (d.addrs indirect)).word j
  | .level1 j => if d.addrs double = 0 then 0 else (disk (d.addrs double)).word j
  | .leaf j k =>
    let b := if d.addrs double = 0 then 0 else (disk (d.addrs double)).word j
    if b = 0 then 0 else (disk b).word k

theorem addr_eq_place (s : State) (x : Ino) (n : Node) :
    s.addr x n = place s.block (s.inode x) n := by
  cases n <;> rfl

/-- Blocks that mkfs can reach without a double-indirect block. -/
def maxAppend : Nat := ndirect + nindirect

section Places
variable {disk disk' : Nat → Block} {d : Dinode} {n : Node}

/-- Without a double-indirect block the tree is in `addrs` and in one index block. -/
theorem place_congr (single : d.addrs double = 0)
    (same : d.addrs indirect ≠ 0 → disk' (d.addrs indirect) = disk (d.addrs indirect)) :
    place disk' d n = place disk d n := by
  cases n with
  | root i => rfl
  | single j =>
    simp only [place]
    split
    · rfl
    · next present => rw [same present]
  | level1 j => simp only [place, single, if_true]
  | leaf j k => simp only [place, single, if_true]

theorem place_setAddr_direct {i : Fin (ndirect + 2)} (direct : i.val < ndirect) (a : Nat) :
    place disk { d with addrs := Function.update d.addrs i a } n = if n = .root i then a
      else place disk d n := by
  have index : indirect ≠ i := by
    rintro rfl
    exact absurd direct (by decide)
  have other : double ≠ i := by
    rintro rfl
    exact absurd direct (by decide)
  cases n with
  | root k =>
    simp only [place, Function.update_apply, Node.root.injEq]
  | single j => simp only [place, Function.update_of_ne index, reduceCtorEq, if_false]
  | level1 j => simp only [place, Function.update_of_ne other, reduceCtorEq, if_false]
  | leaf j k => simp only [place, Function.update_of_ne other, reduceCtorEq, if_false]

/-- A new index block has no entries. -/
theorem place_setAddr_index {a : Nat} (empty : d.addrs indirect = 0) (zero : disk a = .zero) :
    place disk { d with addrs := Function.update d.addrs indirect a } n =
      if n = .root indirect then a else place disk d n := by
  have other : double ≠ indirect := by decide
  cases n with
  | root k => simp only [place, Function.update_apply, Node.root.injEq]
  | single j =>
    simp only [place, Function.update_self, zero, Bytes.word_zero, ite_self, reduceCtorEq, if_false,
      empty, if_true]
  | level1 j => simp only [place, Function.update_of_ne other, reduceCtorEq, if_false]
  | leaf j k => simp only [place, Function.update_of_ne other, reduceCtorEq, if_false]

theorem place_setWord {j : Fin nindirect} {a : Nat} (single : d.addrs double = 0)
    (present : d.addrs indirect ≠ 0) (fits : a < 2 ^ 32) :
    place (Function.update disk (d.addrs indirect) ((disk (d.addrs indirect)).setWord j a)) d n =
      if n = .single j then a else place disk d n := by
  have inside : 4 * j.val + 4 ≤ bsize := by
    have := j.isLt
    simp only [nindirect, bsize] at this ⊢
    omega
  cases n with
  | root k => simp only [place, reduceCtorEq, if_false]
  | single k =>
    simp only [place, if_neg present, Function.update_self, Node.single.injEq]
    split
    · next same =>
      subst same
      exact Bytes.word_setWord_same _ inside fits
    · next other => exact Bytes.word_setWord_other _ (fun same => other (Fin.ext same).symm)
  | level1 k => simp only [place, single, if_true, reduceCtorEq, if_false]
  | leaf k l => simp only [place, single, if_true, reduceCtorEq, if_false]

theorem ofBn_direct {bn : Nat} (direct : bn < ndirect) :
    Node.ofBn bn = .root ⟨bn, direct_lt direct⟩ := by
  rw [Node.ofBn, dif_pos direct]

theorem ofBn_single {bn : Nat} (past : ¬ bn < ndirect) (single : bn - ndirect < nindirect) :
    Node.ofBn bn = .single ⟨bn - ndirect, single⟩ := by
  rw [Node.ofBn, dif_neg past]
  exact dif_pos single

theorem ofBn_ne_index (bn : Nat) : Node.ofBn bn ≠ .root indirect := by
  intro same
  have data := Node.ofBn_isData bn
  rw [same] at data
  exact absurd data (by decide)

end Places

/-- The inodes numbered below `count` own the blocks from
the metadata up to `top`, each one once. -/
structure Trees (disk : Nat → Block) (top count : Nat) (inode : Nat → Dinode) : Prop where
  start : nmeta ≤ top
  fresh : ∀ b, top ≤ b → disk b = .zero
  data : ∀ y n, y < count → place disk (inode y) n ≠ 0 →
    nmeta ≤ place disk (inode y) n ∧ place disk (inode y) n < top
  once : ∀ x y m n, x < count → y < count → place disk (inode x) m ≠ 0 →
    place disk (inode x) m = place disk (inode y) n → x = y ∧ m = n
  onto : ∀ b, nmeta ≤ b → b < top → ∃ y n, y < count ∧ place disk (inode y) n = b
  single : ∀ y, y < count → (inode y).addrs double = 0

/-- The next block is attached at the empty place `n` of the tree
of `x`; otherwise only index blocks change. -/
structure Attach (disk disk' : Nat → Block) (top count : Nat) (inode inode' : Nat → Dinode)
    (x : Nat) (n : Node) : Prop where
  target : x < count
  empty : place disk (inode x) n = 0
  addr : ∀ y m, y < count → place disk' (inode' y) m = if y = x ∧ m = n then top
    else place disk (inode y) m
  sectors : ∀ b, disk' b = disk b ∨ ∃ y < count, (inode y).addrs indirect ≠ 0 ∧
    b = (inode y).addrs indirect
  single : ∀ y, y < count → (inode' y).addrs double = 0

section Attaching
variable {disk disk' : Nat → Block} {top count : Nat} {inode inode' : Nat → Dinode}
  {x : Nat} {n : Node}

theorem Trees.addr_ne_zero (trees : Trees disk top count inode) : top ≠ 0 := by
  have positive : 0 < nmeta := by decide
  exact (positive.trans_le trees.start).ne'

theorem Attach.trees (attach : Attach disk disk' top count inode inode' x n)
    (trees : Trees disk top count inode) : Trees disk' (top + 1) count inode' := by
  obtain ⟨target, empty, addr, sectors, single⟩ := attach
  have old (y : Nat) (m : Node) (live : y < count) : place disk (inode y) m ≠ top := by
    intro same
    have bound := (trees.data y m live (same ▸ trees.addr_ne_zero)).2
    omega
  constructor
  · exact trees.start.trans (Nat.le_succ top)
  · intro b above
    rcases sectors b with same | ⟨y, live, present, rfl⟩
    · exact same.trans (trees.fresh b (by omega))
    · have bound := (trees.data y (.root indirect) live present).2
      change (inode y).addrs indirect < top at bound
      omega
  · intro y m live present
    rw [addr y m live] at present ⊢
    split at present
    · next here =>
      rw [if_pos here]
      exact ⟨trees.start, Nat.lt_succ_self top⟩
    · next other =>
      rw [if_neg other]
      have bounds := trees.data y m live present
      exact ⟨bounds.1, bounds.2.trans (Nat.lt_succ_self top)⟩
  · intro y z m k live live' present same
    rw [addr y m live] at present same
    rw [addr z k live'] at same
    split at same
    · next here =>
      split at same
      · next there => exact ⟨here.1.trans there.1.symm, here.2.trans there.2.symm⟩
      · exact absurd same.symm (old z k live')
    · next other =>
      rw [if_neg other] at present
      split at same
      · exact absurd same (old y m live)
      · exact trees.once y z m k live live' present same
  · intro b low high
    obtain older | rfl := Nat.lt_succ_iff_lt_or_eq.mp high
    · obtain ⟨y, m, live, there⟩ := trees.onto b low older
      refine ⟨y, m, live, ?_⟩
      rw [addr y m live, if_neg]
      · exact there
      · rintro ⟨rfl, rfl⟩
        have positive : 0 < nmeta := by decide
        omega
    · exact ⟨x, n, target, by rw [addr x n target, if_pos ⟨rfl, rfl⟩]⟩
  · exact single

theorem attach_direct (trees : Trees disk top count inode) (live : x < count)
    {i : Fin (ndirect + 2)} (direct : i.val < ndirect) (empty : (inode x).addrs i = 0) :
    Attach disk disk top count inode
      (Function.update inode x { inode x with addrs := Function.update (inode x).addrs i top }) x
      (.root i) where
  target := live
  empty := empty
  addr y m here := by
    obtain rfl | other := eq_or_ne y x
    · rw [Function.update_self, place_setAddr_direct direct]
      simp only [true_and]
    · rw [Function.update_of_ne other, if_neg fun same => other same.1]
  sectors _ := .inl rfl
  single y here := by
    obtain rfl | other := eq_or_ne y x
    · have apart : double ≠ i := by
        rintro rfl
        exact absurd direct (by decide)
      rw [Function.update_self]
      exact (Function.update_of_ne apart _ _).trans (trees.single y here)
    · rw [Function.update_of_ne other]
      exact trees.single y here

theorem attach_index (trees : Trees disk top count inode) (live : x < count)
    (empty : (inode x).addrs indirect = 0) : Attach disk disk top count inode
      (Function.update inode x
        { inode x with addrs := Function.update (inode x).addrs indirect top }) x
      (.root indirect) where
  target := live
  empty := empty
  addr y m here := by
    obtain rfl | other := eq_or_ne y x
    · rw [Function.update_self, place_setAddr_index empty (trees.fresh top le_rfl)]
      simp only [true_and]
    · rw [Function.update_of_ne other, if_neg fun same => other same.1]
  sectors _ := .inl rfl
  single y here := by
    obtain rfl | other := eq_or_ne y x
    · have apart : double ≠ indirect := by decide
      rw [Function.update_self]
      exact (Function.update_of_ne apart top (inode y).addrs).trans (trees.single y here)
    · rw [Function.update_of_ne other]
      exact trees.single y here

theorem attach_entry (trees : Trees disk top count inode) (live : x < count)
    (present : (inode x).addrs indirect ≠ 0) {j : Fin nindirect}
    (empty : (disk ((inode x).addrs indirect)).word j = 0) (fits : top < 2 ^ 32) :
    Attach disk (Function.update disk ((inode x).addrs indirect)
      ((disk ((inode x).addrs indirect)).setWord j top))
      top count inode inode x (.single j) where
  target := live
  empty := by simp only [place, if_neg present, empty]
  addr y m here := by
    obtain rfl | other := eq_or_ne y x
    · rw [place_setWord (trees.single y here) present fits]
      simp only [true_and]
    · rw [if_neg fun same => other same.1]
      apply place_congr (trees.single y here)
      intro there
      refine Function.update_of_ne ?_ _ _
      intro same
      exact other (trees.once y x (.root indirect) (.root indirect) here live there same).1
  sectors b := by
    obtain rfl | other := eq_or_ne b ((inode x).addrs indirect)
    · exact .inr ⟨x, live, present, rfl⟩
    · exact .inl (Function.update_of_ne other _ _)
  single := trees.single

theorem Attach.addr_kept (attach : Attach disk disk' top count inode inode' x n)
    {y : Nat} {m : Node} (live : y < count) (there : place disk (inode y) m ≠ 0) :
    place disk' (inode' y) m = place disk (inode y) m := by
  rw [attach.addr y m live, if_neg]
  rintro ⟨rfl, rfl⟩
  exact there attach.empty

/-- Blocks of file data are not index blocks. -/
theorem Attach.content (attach : Attach disk disk' top count inode inode' x n)
    (trees : Trees disk top count inode) {y : Nat} {m : Node} (live : y < count)
    (data : m.isData = true) (present : place disk (inode y) m ≠ 0) :
    disk' (place disk (inode y) m) = disk (place disk (inode y) m) := by
  rcases attach.sectors (place disk (inode y) m) with same | ⟨z, live', -, same⟩
  · exact same
  · obtain ⟨-, rfl⟩ := trees.once y z m (.root indirect) live live' present same
    exact absurd data (by decide)

end Attaching

/-- Blocks attached one after another at the places of a list, in the tree of `x`. -/
inductive Grows (count x : Nat) :
    (Nat → Block) → Nat → (Nat → Dinode) → (Nat → Block) → Nat → (Nat → Dinode) →
    List Node → Prop where
  | refl (disk : Nat → Block) (top : Nat) (inode : Nat → Dinode) :
      Grows count x disk top inode disk top inode []
  | step {disk mid disk' : Nat → Block} {top top' : Nat}
      {inode between inode' : Nat → Dinode} {n : Node}
      {places : List Node} (attach : Attach disk mid top count inode between x n)
      (rest : Grows count x mid (top + 1) between disk' top' inode' places) :
      Grows count x disk top inode disk' top' inode' (n :: places)

namespace Grows
variable {disk disk' : Nat → Block} {top top' count x y b : Nat}
  {inode inode' : Nat → Dinode} {m : Node} {places : List Node}

theorem trees (grows : Grows count x disk top inode disk' top' inode' places)
    (trees : Trees disk top count inode) : Trees disk' top' count inode' := by
  induction grows with
  | refl => exact trees
  | step attach _ ih => exact ih (attach.trees trees)

theorem top_eq (grows : Grows count x disk top inode disk' top' inode' places) :
    top' = top + places.length := by
  induction grows with
  | refl => rfl
  | step _ _ ih =>
    rw [ih, List.length_cons]
    omega

theorem addr_other (grows : Grows count x disk top inode disk' top' inode' places)
    (live : y < count) (other : ¬(y = x ∧ m ∈ places)) :
    place disk' (inode' y) m = place disk (inode y) m := by
  induction grows with
  | refl => rfl
  | step attach _ ih =>
    simp only [List.mem_cons, and_or_left, not_or] at other
    rw [ih other.2, attach.addr y m live, if_neg other.1]

theorem addr_kept (grows : Grows count x disk top inode disk' top' inode' places) (live : y < count)
    (there : place disk (inode y) m ≠ 0) : place disk' (inode' y) m = place disk (inode y) m := by
  induction grows with
  | refl => rfl
  | step attach _ ih =>
    have same := attach.addr_kept live there
    rw [ih (same.trans_ne there), same]

theorem addr_present (grows : Grows count x disk top inode disk' top' inode' places)
    (live : x < count) (trees : Trees disk top count inode) (member : m ∈ places) :
    place disk' (inode' x) m ≠ 0 := by
  induction grows with
  | refl => cases member
  | @step disk mid disk' top top' inode between inode' n places attach rest ih =>
    obtain rfl | later := List.mem_cons.mp member
    · have here : place mid (between x) m = top := by rw [attach.addr x m live, if_pos ⟨rfl, rfl⟩]
      have present := here.trans_ne trees.addr_ne_zero
      rw [rest.addr_kept live present]
      exact present
    · exact ih (attach.trees trees) later

theorem content (grows : Grows count x disk top inode disk' top' inode' places)
    (trees : Trees disk top count inode) (live : y < count) (data : m.isData = true)
    (there : place disk (inode y) m ≠ 0) :
    disk' (place disk (inode y) m) = disk (place disk (inode y) m) := by
  induction grows with
  | refl => rfl
  | @step disk mid disk' top top' inode between inode' n places attach rest ih =>
    have same := attach.addr_kept live there
    have later := ih (attach.trees trees) (same.trans_ne there)
    rw [same] at later
    rw [later]
    exact attach.content trees live data there

theorem trans {mid : Nat → Block} {between : Nat → Dinode} {top₁ : Nat} {more : List Node}
    (first : Grows count x disk top inode mid top₁ between places)
    (second : Grows count x mid top₁ between disk' top' inode' more) :
    Grows count x disk top inode disk' top' inode' (places ++ more) := by
  induction first with
  | refl => exact second
  | step attach _ ih => exact .step attach (ih second)

/-- Index blocks come after the metadata. -/
theorem low (grows : Grows count x disk top inode disk' top' inode' places)
    (trees : Trees disk top count inode) (before : b < nmeta) : disk' b = disk b := by
  induction grows with
  | refl => rfl
  | @step disk mid disk' top top' inode between inode' n places attach rest ih =>
    rw [ih (attach.trees trees)]
    rcases attach.sectors b with same | ⟨z, live, present, rfl⟩
    · exact same
    · have after : nmeta ≤ (inode z).addrs indirect :=
        (trees.data z (.root indirect) live present).1
      omega

end Grows

/-- The empty places on the way to block `fbn` of a file. -/
def wanted (disk : Nat → Block) (d : Dinode) (fbn : Nat) : List Node :=
  (if ndirect ≤ fbn ∧ d.addrs indirect = 0 then [.root indirect] else []) ++
    if place disk d (.ofBn fbn) = 0 then [.ofBn fbn] else []

theorem length_wanted_le (disk : Nat → Block) (d : Dinode) (fbn : Nat) :
    (wanted disk d fbn).length ≤ 2 := by
  rw [wanted, List.length_append]
  split <;> split <;> simp

/-- The blocks of a file of this length, with its index block. -/
def blocksFor (length : Nat) : Nat :=
  (length + (bsize - 1)) / bsize + if ndirect * bsize < length then 1 else 0

/-- The trees hold these contents, and no block beyond their ends. -/
structure Laid (disk : Nat → Block) (top count : Nat) (inode : Nat → Dinode)
    (content : Nat → List UInt8) : Prop
    extends Trees disk top count inode where
  fits : top ≤ fsSize
  short : ∀ y, y < count → (content y).length ≤ maxAppend * bsize
  mapped : ∀ y bn, y < count → bn < maxAppend →
    (place disk (inode y) (.ofBn bn) ≠ 0 ↔ bn * bsize < (content y).length)
  index : ∀ y, y < count → ((inode y).addrs indirect ≠ 0 ↔ ndirect * bsize < (content y).length)
  bytes : ∀ y i, y < count → i < (content y).length →
    (content y)[i]? = some ((disk (place disk (inode y) (.ofBn (i / bsize)))).get (i % bsize))

section Content
variable {disk disk' : Nat → Block} {top top' count x : Nat} {inode inode' : Nat → Dinode}
  {content : Nat → List UInt8}

/-- Writing into a data block changes no tree. -/
theorem Trees.place_write (trees : Trees disk top count inode) {n m : Node} {y : Nat} {data : Block}
    (live : x < count) (bytes : n.isData = true) (present : place disk (inode x) n ≠ 0)
    (here : y < count) :
    place (Function.update disk (place disk (inode x) n) data)
      (inode y) m = place disk (inode y) m := by
  apply place_congr (trees.single y here)
  intro there
  refine Function.update_of_ne ?_ _ _
  intro same
  obtain ⟨-, rfl⟩ := trees.once x y n (.root indirect) live here present same.symm
  exact absurd bytes (by decide)

theorem Trees.write (trees : Trees disk top count inode) {n : Node} {data : Block}
    (live : x < count) (bytes : n.isData = true) (present : place disk (inode x) n ≠ 0) :
    Trees (Function.update disk (place disk (inode x) n) data) top count inode := by
  have same (y : Nat) (m : Node) (here : y < count) :
      place (Function.update disk (place disk (inode x) n) data) (inode y) m =
      place disk (inode y) m :=
    trees.place_write live bytes present here
  constructor
  · exact trees.start
  · intro b above
    rw [Function.update_of_ne]
    · exact trees.fresh b above
    · rintro rfl
      have := (trees.data x n live present).2
      omega
  · intro y m here there
    rw [same y m here] at there ⊢
    exact trees.data y m here there
  · intro y z m k here here' there equal
    rw [same y m here] at there equal
    rw [same z k here'] at equal
    exact trees.once y z m k here here' there equal
  · intro b low high
    obtain ⟨y, m, here, there⟩ := trees.onto b low high
    exact ⟨y, m, here, (same y m here).trans there⟩
  · exact trees.single

/-- The block that holds byte `i` of a content is mapped. -/
theorem Laid.present (laid : Laid disk top count inode content) {y i : Nat} (live : y < count)
    (inside : i < (content y).length) : place disk (inode y) (.ofBn (i / bsize)) ≠ 0 := by
  have short := laid.short y live
  refine (laid.mapped y (i / bsize) live ?_).mpr ?_
  · exact Nat.div_lt_of_lt_mul (by rw [Nat.mul_comm]; omega)
  · exact (Nat.div_mul_le_self i bsize).trans_lt inside

theorem blocksFor_step {len more : Nat} (positive : 0 < more) (room : len % bsize + more ≤ bsize) :
    ((if ndirect ≤ len / bsize ∧ ¬ ndirect * bsize < len then 1 else 0) +
      if len / bsize * bsize < len then 0 else 1) + blocksFor len = blocksFor (len + more) := by
  change len % 512 + more ≤ 512 at room
  change ((if 11 ≤ len / 512 ∧ ¬ 11 * 512 < len then 1 else 0) + if len / 512 * 512 <
    len then 0 else 1) +
      ((len + 511) / 512 + if 11 * 512 < len then 1 else 0) =
    (len + more + 511) / 512 + if 11 * 512 < len + more then 1 else 0
  split_ifs <;> omega

theorem length_wanted (laid : Laid disk top count inode content) (live : x < count) {p : List UInt8}
    (some : p ≠ []) (room : (content x).length % bsize + p.length ≤ bsize)
    (inside : (content x).length / bsize < maxAppend) :
    (wanted disk (inode x) ((content x).length / bsize)).length + blocksFor (content x).length =
      blocksFor ((content x).length + p.length) := by
  have positive := List.length_pos_iff.mpr some
  have mapped := laid.mapped x _ live inside
  have index := laid.index x live
  rw [wanted, List.length_append]
  generalize (content x).length = len at *
  generalize p.length = more at *
  have tail : (if place disk (inode x) (.ofBn (len / bsize)) = 0 then [Node.ofBn (len / bsize)]
      else []).length =
      if len / bsize * bsize < len then 0 else 1 := by
    split
    · next empty => rw [if_neg fun less => mapped.mpr less empty, List.length_singleton]
    · next present => rw [if_pos (mapped.mp present), List.length_nil]
  have head : (if ndirect ≤ len / bsize ∧ (inode x).addrs indirect = 0 then [Node.root indirect]
      else []).length =
      if ndirect ≤ len / bsize ∧ ¬ ndirect * bsize < len then 1 else 0 := by
    simp only [← index, not_not]
    split <;> rfl
  rw [tail, head]
  exact blocksFor_step positive room

theorem mem_wanted_iff {d : Dinode} {fbn bn : Nat} :
    Node.ofBn bn ∈ wanted disk d fbn ↔ place disk d (.ofBn fbn) = 0 ∧ Node.ofBn bn = .ofBn fbn := by
  rw [wanted, List.mem_append]
  constructor
  · rintro (early | late)
    · split at early
      · exact absurd (List.mem_singleton.mp early) (ofBn_ne_index bn)
      · cases early
    · split at late
      · next empty => exact ⟨empty, List.mem_singleton.mp late⟩
      · cases late
  · rintro ⟨empty, same⟩
    right
    rw [if_pos empty, same]
    exact List.mem_singleton_self _

theorem index_mem_wanted_iff {d : Dinode} {fbn : Nat} :
    Node.root indirect ∈ wanted disk d fbn ↔ ndirect ≤ fbn ∧ d.addrs indirect = 0 := by
  rw [wanted, List.mem_append]
  constructor
  · rintro (early | late)
    · split at early
      · next index => exact index
      · cases early
    · split at late
      · exact absurd (List.mem_singleton.mp late).symm (ofBn_ne_index fbn)
      · cases late
  · intro index
    left
    rw [if_pos index]
    exact List.mem_singleton_self _

theorem ofBn_eq_iff {a b : Nat} (ha : a < maxAppend) (hb : b < maxAppend) :
    Node.ofBn a = .ofBn b ↔ a = b := by
  have whole : maxAppend ≤ maxfile := by decide
  exact ⟨Node.ofBn_injective (ha.trans_le whole) (hb.trans_le whole), congrArg _⟩

/-- Then the block is there. -/
theorem Grows.wanted_present {fbn : Nat}
    (grows : Grows count x disk top inode disk' top' inode' (wanted disk (inode x) fbn))
    (trees : Trees disk top count inode) (live : x < count) :
    place disk' (inode' x) (.ofBn fbn) ≠ 0 := by
  by_cases empty : place disk (inode x) (.ofBn fbn) = 0
  · exact grows.addr_present live trees (mem_wanted_iff.mpr ⟨empty, rfl⟩)
  · rw [grows.addr_kept live empty]
    exact empty

section Append
variable {fbn : Nat} {p : List UInt8} {len : Nat}

theorem Laid.mapped_append (laid : Laid disk top count inode content)
    (grows : Grows count x disk top inode disk' top' inode' (wanted disk (inode x) fbn))
    (live : x < count) (inside : fbn < maxAppend) (here : (content x).length / bsize = fbn)
    (some : p ≠ []) (room : (content x).length % bsize + p.length ≤ bsize) {y bn : Nat}
    (there : y < count) (bound : bn < maxAppend) : place disk' (inode' y) (.ofBn bn) ≠ 0 ↔
      bn * bsize < (Function.update content x (content x ++ p) y).length := by
  have positive := List.length_pos_iff.mpr some
  have old := laid.mapped y bn there bound
  obtain rfl | other := eq_or_ne y x
  · rw [Function.update_self, List.length_append]
    obtain rfl | apart := eq_or_ne bn fbn
    · have inBlock : bn * bsize ≤ (content y).length := here ▸ Nat.div_mul_le_self _ _
      exact iff_of_true (grows.wanted_present laid.toTrees there) (by omega)
    · have unchanged : ¬(y = y ∧ Node.ofBn bn ∈ wanted disk (inode y) fbn) := by
        rintro ⟨-, member⟩
        exact apart ((ofBn_eq_iff bound inside).mp (mem_wanted_iff.mp member).2)
      rw [grows.addr_other there unchanged, old]
      simp only [bsize] at here room ⊢
      omega
  · rw [Function.update_of_ne other, grows.addr_other there fun same => other same.1, old]

theorem Laid.index_append (laid : Laid disk top count inode content)
    (grows : Grows count x disk top inode disk' top' inode' (wanted disk (inode x) fbn))
    (here : (content x).length / bsize = fbn) (some : p ≠ [])
    (room : (content x).length % bsize + p.length ≤ bsize) {y : Nat} (there : y < count) :
    (inode' y).addrs indirect ≠ 0 ↔
      ndirect * bsize < (Function.update content x (content x ++ p) y).length := by
  have positive := List.length_pos_iff.mpr some
  have old := laid.index y there
  change place disk' (inode' y) (.root indirect) ≠ 0 ↔ _
  obtain rfl | other := eq_or_ne y x
  · rw [Function.update_self, List.length_append]
    by_cases member : Node.root indirect ∈ wanted disk (inode y) fbn
    · have past := (index_mem_wanted_iff.mp member).1
      refine iff_of_true (grows.addr_present there laid.toTrees member) ?_
      simp only [bsize, ndirect] at here past ⊢
      omega
    · rw [grows.addr_other there fun same => member same.2]
      refine old.trans ?_
      rw [index_mem_wanted_iff, not_and_or] at member
      rcases member with early | present
      · simp only [bsize, ndirect] at here room early ⊢
        omega
      · have past := old.mp present
        exact iff_of_true past (by omega)
  · rw [Function.update_of_ne other, grows.addr_other there fun same => other same.1]
    exact old

theorem Laid.bytes_append (laid : Laid disk top count inode content)
    (grows : Grows count x disk top inode disk' top' inode' (wanted disk (inode x) fbn))
    (live : x < count) (inside : fbn < maxAppend) (here : (content x).length / bsize = fbn)
    (room : (content x).length % bsize + p.length ≤ bsize)
    {y i : Nat} (there : y < count)
    (bound : i < (Function.update content x (content x ++ p) y).length) :
    (Function.update content x (content x ++ p) y)[i]? =
      some ((Function.update disk' (place disk' (inode' x) (.ofBn fbn))
        ((disk' (place disk' (inode' x) (.ofBn fbn))).write ((content x).length % bsize) p)
        (place disk' (inode' y) (.ofBn (i / bsize)))).get (i % bsize)) := by
  have data := Node.ofBn_isData fbn
  by_cases mine : y = x ∧ i / bsize = fbn
  · -- The block written: its bytes before the end of the file stay.
    obtain ⟨rfl, block⟩ := mine
    rw [Function.update_self, List.length_append] at bound
    rw [block, Function.update_self, Function.update_self]
    by_cases old : i < (content y).length
    · have mapped := laid.present there old
      rw [block] at mapped
      rw [List.getElem?_append_left old, laid.bytes y i there old, block, Bytes.get_write_outside,
        grows.addr_kept there mapped, grows.content laid.toTrees there data mapped]
      simp only [bsize] at here block ⊢
      omega
    · have position : i % bsize = (content y).length % bsize + (i - (content y).length) := by
        simp only [bsize] at here block ⊢
        omega
      have later : i - (content y).length < p.length := by omega
      rw [List.getElem?_append_right (Nat.le_of_not_lt old), position,
        Bytes.get_write_inside _ room later, List.getElem?_eq_getElem later]
      rfl
  · have old : i < (content y).length ∧
        Function.update content x (content x ++ p) y = content y ++ if y = x then p else [] := by
      obtain rfl | other := eq_or_ne y x
      · rw [Function.update_self, List.length_append] at bound
        rw [Function.update_self, if_pos rfl]
        have apart : i / bsize ≠ fbn := fun same => mine ⟨rfl, same⟩
        refine ⟨?_, rfl⟩
        simp only [bsize] at here room apart
        omega
      · rw [Function.update_of_ne other] at bound ⊢
        rw [if_neg other, List.append_nil]
        exact ⟨bound, rfl⟩
    have mapped := laid.present there old.1
    have kept := grows.addr_kept there mapped
    have apart :
        place disk' (inode' y) (.ofBn (i / bsize)) ≠ place disk' (inode' x) (.ofBn fbn) := by
      intro same
      obtain ⟨rfl, node⟩ := (grows.trees laid.toTrees).once y x _ _ there live
        (kept.trans_ne mapped) same
      have short := laid.short y there
      have bound : i / bsize < maxAppend := Nat.div_lt_of_lt_mul (by rw [Nat.mul_comm]; omega)
      exact mine ⟨rfl, (ofBn_eq_iff bound inside).mp node⟩
    rw [old.2, List.getElem?_append_left old.1, laid.bytes y i there old.1,
      Function.update_of_ne apart, kept, grows.content laid.toTrees there
      (Node.ofBn_isData _) mapped]

/-- One round of the loop of `iappend`: the part of the chunk that fits in the
last block is written there. -/
theorem Laid.append (laid : Laid disk top count inode content)
    (grows : Grows count x disk top inode disk' top' inode' (wanted disk (inode x) fbn))
    (live : x < count) (inside : fbn < maxAppend) (here : (content x).length / bsize = fbn)
    (some : p ≠ []) (room : (content x).length % bsize + p.length ≤ bsize) (fits : top' ≤ fsSize) :
    Laid (Function.update disk' (place disk' (inode' x) (.ofBn fbn))
        ((disk' (place disk' (inode' x) (.ofBn fbn))).write ((content x).length % bsize) p))
      top' count inode' (Function.update content x (content x ++ p)) := by
  have trees := grows.trees laid.toTrees
  have present : place disk' (inode' x) (.ofBn fbn) ≠ 0 := grows.wanted_present laid.toTrees live
  have data := Node.ofBn_isData fbn
  have same (y : Nat) (m : Node) (there : y < count) :
      place (Function.update disk' (place disk' (inode' x) (.ofBn fbn))
        ((disk' (place disk' (inode' x) (.ofBn fbn))).write ((content x).length % bsize) p))
        (inode' y) m =
      place disk' (inode' y) m :=
    trees.place_write live data present there
  refine ⟨trees.write live data present, fits, ?_, ?_, ?_, ?_⟩
  · intro y there
    obtain rfl | other := eq_or_ne y x
    · rw [Function.update_self, List.length_append]
      simp only [bsize, maxAppend] at inside here room ⊢
      omega
    · rw [Function.update_of_ne other]
      exact laid.short y there
  · intro y bn there bound
    rw [same y _ there]
    exact laid.mapped_append grows live inside here some room there bound
  · intro y there
    exact laid.index_append grows here some room there
  · intro y i there bound
    rw [same y _ there]
    exact laid.bytes_append grows live inside here room there bound

end Append

theorem place_addrs {d d' : Dinode} (same : d'.addrs = d.addrs) (n : Node) :
    place disk d' n = place disk d n := by
  cases n <;> simp only [place, same]

/-- The trees and contents are in `addrs` and in the sectors after the metadata. -/
theorem Laid.relabel (laid : Laid disk top count inode content)
    (high : ∀ b, nmeta ≤ b → disk' b = disk b)
    (addrs : ∀ y, y < count → (inode' y).addrs = (inode y).addrs) :
    Laid disk' top count inode' content := by
  have same (y : Nat) (n : Node) (live : y < count) :
      place disk' (inode' y) n = place disk (inode y) n := by
    rw [place_addrs (addrs y live)]
    apply place_congr (laid.single y live)
    intro present
    exact high _ (laid.data y (.root indirect) live present).1
  refine ⟨⟨laid.start, ?_, ?_, ?_, ?_, ?_⟩, laid.fits, laid.short, ?_, ?_, ?_⟩
  · intro b above
    exact (high b (laid.start.trans above)).trans (laid.fresh b above)
  · intro y n live present
    rw [same y n live] at present ⊢
    exact laid.data y n live present
  · intro y z m n live live' present equal
    rw [same y m live] at present equal
    rw [same z n live'] at equal
    exact laid.once y z m n live live' present equal
  · intro b low above
    obtain ⟨y, n, live, there⟩ := laid.onto b low above
    exact ⟨y, n, live, (same y n live).trans there⟩
  · intro y live
    rw [addrs y live]
    exact laid.single y live
  · intro y bn live bound
    rw [same y _ live]
    exact laid.mapped y bn live bound
  · intro y live
    rw [addrs y live]
    exact laid.index y live
  · intro y i live inside
    rw [same y _ live, high _ (laid.data y _ live (laid.present live inside)).1]
    exact laid.bytes y i live inside

theorem place_blank {d : Dinode} (blank : ∀ i, d.addrs i = 0) (n : Node) : place disk d n = 0 := by
  cases n <;> simp only [place, blank, if_true]

/-- An inode without blocks is added. -/
theorem Laid.alloc (laid : Laid disk top count inode content)
    (blank : ∀ i, (inode count).addrs i = 0) (empty : content count = []) :
    Laid disk top (count + 1) inode content := by
  have older {y : Nat} (live : y < count + 1) : y < count ∨ y = count :=
    Nat.lt_succ_iff_lt_or_eq.mp live
  have owner {y : Nat} {n : Node} (live : y < count + 1) (present : place disk (inode y) n ≠ 0) :
      y < count := by
    obtain old | rfl := older live
    · exact old
    · exact absurd (place_blank blank n) present
  refine ⟨⟨laid.start, laid.fresh, ?_, ?_, ?_, ?_⟩, laid.fits, ?_, ?_, ?_, ?_⟩
  · intro y n live present
    exact laid.data y n (owner live present) present
  · intro y z m n live live' present equal
    exact laid.once y z m n (owner live present) (owner live' (equal ▸ present)) present equal
  · intro b low above
    obtain ⟨y, n, live, there⟩ := laid.onto b low above
    exact ⟨y, n, live.trans (Nat.lt_succ_self count), there⟩
  · intro y live
    obtain old | rfl := older live
    · exact laid.single y old
    · exact blank double
  · intro y live
    obtain old | rfl := older live
    · exact laid.short y old
    · rw [empty]
      exact Nat.zero_le _
  · intro y bn live bound
    obtain old | rfl := older live
    · exact laid.mapped y bn old bound
    · rw [place_blank blank, empty]
      exact iff_of_false (fun differ => differ rfl) (Nat.not_lt_zero _)
  · intro y live
    obtain old | rfl := older live
    · exact laid.index y old
    · rw [blank, empty]
      exact iff_of_false (fun differ => differ rfl) (Nat.not_lt_zero _)
  · intro y i live inside
    obtain old | rfl := older live
    · exact laid.bytes y i old inside
    · rw [empty] at inside
      exact absurd inside (Nat.not_lt_zero i)

end Content
end Aso.Xv6.Mkfs
