import Aso.Xv6.Fs.Content
import Mathlib.Algebra.Order.BigOperators.Group.Finset
import Mathlib.Data.Finset.Option

/-! Which blocks a write passes to `log_write`: the blocks of the file it writes to, the
blocks it adds to the tree with the blocks that hold their numbers, and the bitmap blocks
of what it allocates. `balloc` hands out the lowest free blocks in their order. -/
namespace Aso.Xv6.Fs

/-- Taking the first element that passes a test away from a range. -/
theorem filter_range_cons {p q : Nat → Bool} {a n : Nat} (bound : a < n) (here : p a = true)
    (before : ∀ c < a, p c = false) (rest : ∀ c < n, q c = (p c && decide (a ≠ c))) :
    (List.range n).filter p = a :: (List.range n).filter q := by
  obtain ⟨m, rfl⟩ := Nat.exists_eq_add_of_lt bound
  have low {r : Nat → Bool} (none : ∀ c < a, r c = false) : (List.range a).filter r = [] := by
    rw [List.filter_eq_nil_iff]
    intro c member
    rw [none c (List.mem_range.mp member)]
    exact Bool.false_ne_true
  have split : List.range (a + m + 1) = List.range a ++ a :: (List.range m).map (a + 1 + ·) := by
    rw [Nat.add_assoc, List.range_add, List.range_succ_eq_map, List.map_cons, List.map_map,
      Nat.add_zero]
    congr 2
    refine List.map_congr_left fun c _ => ?_
    simp only [Function.comp_apply]
    omega
  have later :
      ((List.range m).map (a + 1 + ·)).filter p = ((List.range m).map (a + 1 + ·)).filter q := by
    refine List.filter_congr fun c member => ?_
    obtain ⟨i, inside, rfl⟩ := List.mem_map.mp member
    have := List.mem_range.mp inside
    rw [rest _ (by omega), decide_eq_true (by omega), Bool.and_true]
  have removed : q a = false := by
    rw [rest a bound, decide_eq_false (by simp), Bool.and_false]
  have first : ∀ c < a, q c = false := by
    intro c less
    rw [rest c (by omega), before c less, Bool.false_and]
  rw [split, List.filter_append, List.filter_append, low before, low first,
    List.filter_cons_of_pos here, List.filter_cons_of_neg
    (by rw [removed]; exact Bool.false_ne_true), later, List.nil_append, List.nil_append]

/-- A place with the places above it. -/
def Node.path : Node → Finset Node
  | .root i => {.root i}
  | .single j => {.single j, .root indirect}
  | .level1 j => {.level1 j, .root double}
  | .leaf j k => {.leaf j k, .level1 j, .root double}

theorem Node.path_child {n p : Node} (child : n.parent = some p) : n.path = insert n p.path := by
  cases n <;> cases child <;> rfl

theorem Node.not_mem_path {n p : Node} (child : n.parent = some p) : n ∉ p.path := by
  cases n <;> cases child <;> simp [path, indirect, double]

/-- The places written to: those of the blocks written or added, and those above the added ones. -/
def noted (new wrote : Finset Node) : Finset Node :=
  wrote ∪ new ∪ new.biUnion fun n => n.parent.toFinset

theorem mem_noted {new wrote : Finset Node} {n : Node} :
    n ∈ noted new wrote ↔ n ∈ wrote ∨ n ∈ new ∨ ∃ c ∈ new, c.parent = some n := by
  simp only [noted, Finset.mem_union, Finset.mem_biUnion, Option.mem_toFinset,
    Option.mem_def, or_assoc]

theorem mem_noted_union {new new' wrote wrote' : Finset Node} {n : Node} :
    n ∈ noted (new ∪ new') (wrote ∪ wrote') ↔ n ∈ noted new wrote ∨ n ∈ noted new' wrote' := by
  simp only [mem_noted, Finset.mem_union, or_and_right, exists_or]
  rw [or_or_or_comm (a := n ∈ new), or_or_or_comm]

namespace State
variable {s t u : State} {ip : Slot} {x : Ino} {n p : Node} {a bn off : Nat}
  {new wrote : Finset Node}

/-- The blocks that `balloc` can hand out, in the order in which it does. -/
def freeBlocks (s : State) : List Nat := (List.range s.sb.size).filter fun b => !s.used b

theorem freeBlocks_congr (sb : t.sb = s.sb) (used : ∀ c < s.sb.size, t.used c = s.used c) :
    t.freeBlocks = s.freeBlocks := by
  unfold freeBlocks
  rw [sb]
  refine List.filter_congr fun c member => ?_
  rw [used c (List.mem_range.mp member)]

theorem freeBlocks_logWrite {b : Nat} (data : Block) (outside : s.sb.dataStart ≤ b) :
    (s.logWrite b data).freeBlocks = s.freeBlocks :=
  freeBlocks_congr rfl fun _ bound => used_logWrite outside bound

@[simp] theorem logWrite_logged {b : Nat} {data : Block} :
    (s.logWrite b data).logged = b :: s.logged := rfl

theorem take_logged : (s.take a).logged = a :: s.sb.bblock a :: s.logged := rfl

theorem balloc_first (reserved : Reserved s) (found : s.balloc = some (a, t)) :
    t = s.take a ∧ s.sb.IsData a ∧ s.used a = false ∧
      s.freeBlocks = a :: (s.take a).freeBlocks := by
  obtain ⟨b, bound, clear, before, result⟩ | ⟨none, -⟩ := s.balloc_spec
  · rw [found] at result
    cases result
    have data : s.sb.IsData a := by
      refine ⟨?_, bound⟩
      by_contra low
      simp [reserved a bound (by omega)] at clear
    refine ⟨rfl, data, clear, filter_range_cons bound (by rw [clear]; rfl)
      (fun c less => by rw [before c less]; rfl) ?_⟩
    intro c inside
    rw [used_take data inside, Bool.not_or, decide_not]
  · rw [found] at none
    cases none

/-- How the log grew from `s` to `t`: blocks were added at the places `new` of the tree of
`x` and file data was stored at the places `wrote`. -/
structure Ledger (s t : State) (x : Ino) (new wrote : Finset Node) : Prop where
  frame : Frame s t
  sound : Sound t
  kept : ∀ m ∉ new, t.addr x m = s.addr x m
  fresh : ∀ m ∈ new, s.addr x m = 0 ∧ t.addr x m ≠ 0
  there : ∀ m ∈ wrote, t.addr x m ≠ 0
  free : t.freeBlocks = s.freeBlocks.drop new.card
  logged : ∀ b, b ∈ t.logged ↔ b ∈ s.logged ∨ (∃ m ∈ noted new wrote, t.addr x m = b) ∨
    ∃ c ∈ s.freeBlocks.take new.card, s.sb.bblock c = b

theorem addr_parent (child : n.parent = some p) (present : s.addr x n ≠ 0) : s.addr x p ≠ 0 := by
  intro absent
  rw [addr_child child, absent, follow_zero] at present
  exact present rfl

namespace Ledger

theorem refl (sound : Sound s) : Ledger s s x ∅ ∅ where
  frame := .refl s
  sound := sound
  kept _ _ := rfl
  fresh := by simp
  there := by simp
  free := rfl
  logged := by simp [noted]

theorem noted_there (ledger : Ledger s t x new wrote) : ∀ m ∈ noted new wrote, t.addr x m ≠ 0 := by
  intro m member
  obtain written | added | ⟨c, added, child⟩ := mem_noted.mp member
  · exact ledger.there m written
  · exact (ledger.fresh m added).2
  · exact addr_parent child (ledger.fresh c added).2

theorem trans {new' wrote' : Finset Node} (first : Ledger s t x new wrote)
    (second : Ledger t u x new' wrote') : Ledger s u x (new ∪ new') (wrote ∪ wrote') := by
  have absent (m : Node) (there : t.addr x m ≠ 0) : m ∉ new' :=
    fun added => there (second.fresh m added).1
  have same (m : Node) (there : t.addr x m ≠ 0) : u.addr x m = t.addr x m :=
    second.kept m (absent m there)
  have card : (new ∪ new').card = new.card + new'.card :=
    Finset.card_union_of_disjoint
    (Finset.disjoint_left.mpr fun m added => absent m (first.fresh m added).2)
  constructor
  case frame => exact first.frame.trans second.frame
  case sound => exact second.sound
  case kept =>
    intro m outside
    rw [Finset.mem_union, not_or] at outside
    rw [second.kept m outside.2, first.kept m outside.1]
  case fresh =>
    intro m member
    obtain earlier | later := Finset.mem_union.mp member
    · have there := (first.fresh m earlier).2
      exact ⟨(first.fresh m earlier).1, same m there ▸ there⟩
    · have untouched : m ∉ new := fun added => (first.fresh m added).2 (second.fresh m later).1
      exact ⟨first.kept m untouched ▸ (second.fresh m later).1, (second.fresh m later).2⟩
  case there =>
    intro m member
    obtain earlier | later := Finset.mem_union.mp member
    · have there := first.there m earlier
      exact same m there ▸ there
    · exact second.there m later
  case free => rw [second.free, first.free, List.drop_drop, card]
  case logged =>
    intro b
    have places : (∃ m ∈ noted (new ∪ new') (wrote ∪ wrote'), u.addr x m = b) ↔
        (∃ m ∈ noted new wrote, t.addr x m = b) ∨ ∃ m ∈ noted new' wrote', u.addr x m = b := by
      simp only [mem_noted_union, or_and_right, exists_or]
      refine or_congr_left (exists_congr fun m => and_congr_right fun member => ?_)
      rw [same m (first.noted_there m member)]
    have bitmaps : (∃ c ∈ s.freeBlocks.take (new ∪ new').card, s.sb.bblock c = b) ↔
        (∃ c ∈ s.freeBlocks.take new.card, s.sb.bblock c = b) ∨
          ∃ c ∈ t.freeBlocks.take new'.card, t.sb.bblock c = b := by
      rw [card, List.take_add, first.free, first.frame.sb]
      simp only [List.mem_append, or_and_right, exists_or]
    rw [second.logged, first.logged, places, bitmaps, or_assoc, or_or_or_comm]

end Ledger

/-- A fresh block at `n` is logged with its bitmap block and the block that holds its number. -/
theorem Attach.ledger (attach : Attach s t x n a) (sound : Sound s)
    (first : s.freeBlocks = a :: t.freeBlocks) (logged : ∀ b, b ∈ t.logged ↔
      b ∈ s.logged ∨ (b = a ∨ ∃ p, n.parent = some p ∧ s.addr x p = b) ∨ s.sb.bblock a = b) :
    Ledger s t x {n} ∅ ∧ t.addr x n = a := by
  have here : t.addr x n = a := by rw [attach.addr x n attach.target, if_pos ⟨rfl, rfl⟩]
  have other (m : Node) (apart : m ≠ n) : t.addr x m = s.addr x m := by
    rw [attach.addr x m attach.target, if_neg (by simp [apart])]
  refine ⟨?_, here⟩
  constructor
  case frame => exact ⟨attach.sb, attach.devsw, attach.inum, attach.live, attach.kept⟩
  case sound => exact ⟨attach.owned sound.owned, attach.reserved sound.reserved⟩
  case kept =>
    intro m outside
    exact other m (by simpa using outside)
  case fresh =>
    intro m member
    cases Finset.mem_singleton.mp member
    exact ⟨attach.empty, here ▸ attach.data.ne_zero⟩
  case there => simp
  case free => rw [first, Finset.card_singleton, List.drop_one, List.tail_cons]
  case logged =>
    intro b
    have places :
        (∃ m ∈ noted {n} ∅, t.addr x m = b) ↔ b = a ∨ ∃ p, n.parent = some p ∧ s.addr x p = b := by
      simp only [mem_noted, Finset.notMem_empty, false_or, Finset.mem_singleton, exists_eq_left,
        or_and_right, exists_or, here, eq_comm (a := a)]
      refine or_congr_right (exists_congr fun p => and_congr_right fun child => ?_)
      have apart : p ≠ n := by
        rintro rfl
        have := Node.parent_depth child
        omega
      rw [other p apart]
    rw [logged, places, first, Finset.card_singleton]
    simp

theorem mapRoot_ledger {i : Fin (ndirect + 2)} (sound : Sound s) (live : s.Live (.core ip))
    (found : s.mapRoot ip i = some (a, t)) :
    Ledger s t (.core ip) (Finset.filter (s.addr (.core ip) · = 0) {.root i}) ∅ ∧ t.addr (.core ip)
      (.root i) = a ∧
      a ≠ 0 := by
  rw [Finset.filter_singleton]
  unfold mapRoot at found
  split at found
  · rename_i empty
    split at found
    · cases found
    · rename_i b u taken
      obtain ⟨rfl, data, clear, first⟩ := balloc_first sound.reserved taken
      cases found
      have empty : s.addr (.core ip) (.root i) = 0 := empty
      have attach := attach_root (i := i) sound.owned live data clear empty
      rw [if_pos empty]
      have logged : ((s.take a).setAddr ip i a).logged = a :: s.sb.bblock a :: s.logged := rfl
      obtain ⟨ledger, there⟩ := attach.ledger sound first fun b => by
        simp only [logged, List.mem_cons, Node.parent, reduceCtorEq, false_and,
          exists_false, or_false]
        grind
      exact ⟨ledger, there, data.ne_zero⟩
  · rename_i present
    cases found
    have present : s.addr (.core ip) (.root i) ≠ 0 := present
    rw [if_neg present]
    exact ⟨.refl sound, rfl, present⟩

theorem mapEntry_ledger (sound : Sound s) (live : s.Live x) (child : n.parent = some p)
    (above : s.addr x p ≠ 0) (found : s.mapEntry (s.addr x p) n.index = some (a, t)) :
    Ledger s t x (Finset.filter (s.addr x · = 0) {n}) ∅ ∧ t.addr x n = a ∧ a ≠ 0 := by
  have word : (s.block (s.addr x p)).word n.index = s.addr x n := by
    rw [addr_child child, follow_of_ne above]
  rw [Finset.filter_singleton]
  unfold mapEntry at found
  rw [word] at found
  split at found
  · rename_i empty
    split at found
    · cases found
    · rename_i b u taken
      obtain ⟨rfl, data, clear, first⟩ := balloc_first sound.reserved taken
      cases found
      have attach := attach_entry sound.owned live child above data clear empty
      have holder := sound.owned.data x p live above
      rw [if_pos empty]
      have left := freeBlocks_logWrite (s := s.take a)
        (((s.take a).block (s.addr x p)).setWord n.index a) holder.1
      obtain ⟨ledger, there⟩ := attach.ledger sound (left.symm ▸ first) fun b => by
        simp only [logWrite_logged, take_logged, List.mem_cons, child, Option.some.injEq,
          exists_eq_left']
        grind
      exact ⟨ledger, there, data.ne_zero⟩
  · rename_i present
    cases found
    rw [if_neg present]
    exact ⟨.refl sound, rfl, present⟩

/-- A lookup that succeeds has added what was missing on the way to `n`. -/
def Descends (s : State) (x : Ino) (n : Node) (result : Option (Nat × State)) : Prop :=
  ∀ a t, result = some (a, t) →
    Ledger s t x (n.path.filter (s.addr x · = 0)) ∅ ∧ t.addr x n = a ∧ a ≠ 0

theorem descends_mapEntry (live : s.Live x) (child : n.parent = some p)
    {result : Option (Nat × State)} (descends : Descends s x p result) :
    Descends s x n (result.bind fun (b, t) => t.mapEntry b n.index) := by
  intro a u found
  obtain ⟨⟨b, t⟩, rfl, entry⟩ := Option.bind_eq_some_iff.mp found
  obtain ⟨first, rfl, above⟩ := descends b t rfl
  obtain ⟨second, there, nonzero⟩ :=
    mapEntry_ledger first.sound ((first.frame.live x).mpr live) child above entry
  refine ⟨?_, there, nonzero⟩
  have same : t.addr x n = s.addr x n :=
    first.kept n fun member => Node.not_mem_path child (Finset.mem_filter.mp member).1
  have places : n.path.filter (s.addr x · = 0) =
      p.path.filter (s.addr x · = 0) ∪ Finset.filter (t.addr x · = 0) {n} := by
    rw [Node.path_child child, Finset.insert_eq, Finset.filter_union, Finset.union_comm,
      Finset.filter_singleton, Finset.filter_singleton, same]
  rw [places]
  exact first.trans second

theorem bmap_ledger (sound : Sound s) (live : s.Live (.core ip)) (bound : bn < maxfile) :
    Descends s (.core ip) (.ofBn bn) (s.bmap ip bn) :=
  bmap_descent (fun _ _ _ => mapRoot_ledger sound live)
    (fun _ _ _ child => descends_mapEntry live child) bound

/-- Storing file data logs the block it is stored in. -/
theorem logWrite_ledger {d : Block} (sound : Sound s) (live : s.Live x) (bytes : n.isData = true)
    (there : s.addr x n ≠ 0) : Ledger s (s.logWrite (s.addr x n) d) x ∅ {n} := by
  have same (m : Node) : (s.logWrite (s.addr x n) d).addr x m = s.addr x m :=
    logWrite_addr sound.owned live bytes there live m
  constructor
  case frame => exact logWrite_frame sound.owned live there
  case sound => exact logWrite_sound sound live bytes there
  case kept => exact fun m _ => same m
  case fresh => simp
  case there =>
    intro m member
    cases Finset.mem_singleton.mp member
    rw [same]
    exact there
  case free =>
    rw [freeBlocks_logWrite d (sound.owned.data x n live there).1, Finset.card_empty,
      List.drop_zero]
  case logged =>
    intro b
    simp [noted, same, eq_comm, or_comm]

/-- One round of `writei`. -/
theorem round_ledger (d : Block) (sound : Sound s) (live : s.Live (.core ip))
    (inside : bn < maxfile) (mapped : s.bmap ip bn = some (a, t)) :
    Ledger s (t.logWrite a d) (.core ip) ((Node.ofBn bn).path.filter (s.addr (.core ip) · = 0))
      {.ofBn bn} := by
  obtain ⟨first, rfl, there⟩ := bmap_ledger sound live inside a t mapped
  have second := first.trans (logWrite_ledger (d := d) first.sound ((first.frame.live _).mpr live)
    (Node.ofBn_isData bn) there)
  rwa [Finset.union_empty, Finset.empty_union] at second

/-- The places of the blocks that the bytes `[off, off + n)` of a file lie in. -/
def places (off n : Nat) : Finset Node := (touched off n).image .ofBn

/-- The places on the way to these blocks at which nothing is attached yet. -/
def absent (s : State) (x : Ino) (off n : Nat) : Finset Node :=
  ((places off n).biUnion Node.path).filter (s.addr x · = 0)

/-- What is absent of two groups of places, the first of them filled in between. -/
theorem filter_absent_union {first rest : Finset Node}
    (ledger : Ledger s t x (first.filter (s.addr x · = 0)) wrote) :
    (first ∪ rest).filter (s.addr x · = 0) =
      first.filter (s.addr x · = 0) ∪ rest.filter (t.addr x · = 0) := by
  rw [Finset.filter_union]
  ext m
  simp only [Finset.mem_union, Finset.mem_filter]
  by_cases added : m ∈ first.filter (s.addr x · = 0)
  · simp only [Finset.mem_filter.mp added, and_self, true_or]
  · rw [ledger.kept m added]

/-- What the first block of a range adds to the rest of it. -/
theorem absent_step {k : Nat} (some : 0 < k)
    (first : Ledger s t x ((Node.ofBn (off / bsize)).path.filter (s.addr x · = 0)) wrote) :
    s.absent x off k = (Node.ofBn (off / bsize)).path.filter (s.addr x · = 0) ∪
      t.absent x (off + round off k) (k - round off k) := by
  rw [absent, places, touched_step off some, Finset.image_insert, Finset.biUnion_insert]
  exact filter_absent_union first

/-- What one range adds to the next. -/
theorem absent_add {k : Nat} (m : Nat) (first : Ledger s t x (s.absent x off k) wrote) :
    s.absent x off (k + m) = s.absent x off k ∪ t.absent x (off + k) m := by
  have split : touched off (k + m) = touched off k ∪ touched (off + k) m := by
    ext bn
    simp only [Finset.mem_union, mem_touched]
    constructor
    · rintro ⟨i, inside, rfl⟩
      obtain low | high := Nat.lt_or_ge i k
      · exact .inl ⟨i, low, rfl⟩
      · exact .inr ⟨i - k, by omega, by rw [Nat.add_assoc, Nat.add_sub_cancel' high]⟩
    · rintro (⟨i, inside, rfl⟩ | ⟨i, inside, rfl⟩)
      · exact ⟨i, by omega, rfl⟩
      · exact ⟨k + i, by omega, by rw [Nat.add_assoc]⟩
  rw [absent, places, split, Finset.image_union, Finset.union_biUnion]
  exact filter_absent_union first

/-- What the loop of `writei` passes to the log. -/
theorem writeLoop_ledger (left : Nat) (off : Nat) (src : List UInt8) (sound : Sound s)
    (live : s.Live (.core ip)) (rounds : src.length ≤ left)
    (bound : off + src.length ≤ maxfile * bsize) (done : s.writeLoop ip left off src = some t) :
    Ledger s t (.core ip) (s.absent (.core ip) off src.length) (places off src.length) := by
  induction left generalizing s off src with
  | zero =>
    cases List.length_eq_zero_iff.mp (Nat.le_zero.mp rounds)
    cases done
    exact .refl sound
  | succ left ih =>
    unfold writeLoop at done
    split at done
    · rename_i nothing
      cases nothing
      cases done
      exact .refl sound
    · rename_i something
      have some : 0 < src.length := List.length_pos_iff.mpr something
      have cut : min src.length (bsize - off % bsize) = round off src.length := rfl
      simp only [cut, Option.bind_eq_bind] at done
      obtain ⟨⟨a, u⟩, mapped, rest⟩ := Option.bind_eq_some_iff.mp done
      have stored :=
        round_ledger ((u.block a).write (off % bsize) (src.take (round off src.length))) sound live
        (div_lt_maxfile (by omega)) mapped
      have positive := round_pos off some
      have shorter : round off src.length ≤ src.length := Nat.min_le_left _ _
      have later := ih (off + round off src.length) (src.drop (round off src.length)) stored.sound
        ((stored.frame.live _).mpr live) (by rw [List.length_drop]; omega)
        (by rw [List.length_drop]; omega) rest
      rw [List.length_drop] at later
      have wrote : places off src.length =
          {Node.ofBn (off / bsize)} ∪ places (off + round off src.length)
          (src.length - round off src.length) := by
        rw [places, touched_step off some, Finset.image_insert, Finset.insert_eq, places]
      rw [absent_step some stored, wrote]
      exact stored.trans later

theorem length_freeBlocks : s.freeBlocks.length = s.free := by
  have same : s.freeBlocks = (List.range s.sb.size).filter fun b => decide (s.used b = false) :=
    List.filter_congr fun b _ => by cases s.used b <;> rfl
  rw [same]
  rfl

theorem Ledger.free_eq (ledger : Ledger s t x new wrote) : t.free = s.free - new.card := by
  rw [← length_freeBlocks, ledger.free, List.length_drop, length_freeBlocks]

theorem Ledger.disjoint {k : Nat} (ledger : Ledger s t x new wrote) :
    Disjoint new (t.absent x off k) :=
  Finset.disjoint_left.mpr fun m added member => (ledger.fresh m added).2
    (Finset.mem_filter.mp member).2

/-- A lookup fails only when fewer blocks are free than are missing on the way to `n`. -/
def Starves (s : State) (x : Ino) (n : Node) (result : Option (Nat × State)) : Prop :=
  result = none → s.free < (n.path.filter (s.addr x · = 0)).card

theorem starves_mapRoot {i : Fin (ndirect + 2)} (sound : Sound s) (live : s.Live (.core ip)) :
    Starves s (.core ip) (.root i) (s.mapRoot ip i) := by
  intro failed
  have resolved := mapRoot_resolved (i := i) sound.owned sound.reserved live
  rw [failed] at resolved
  cases resolved with
  | full spent empty =>
    rw [spent, Node.path, Finset.filter_singleton, if_pos empty, Finset.card_singleton]; decide

theorem starves_mapEntry (live : s.Live x) (child : n.parent = some p)
    {result : Option (Nat × State)} (descends : Descends s x p result)
    (starves : Starves s x p result) :
    Starves s x n (result.bind fun (b, t) => t.mapEntry b n.index) := by
  intro failed
  have new := Node.not_mem_path child
  cases result with
  | none =>
    refine Nat.lt_of_lt_of_le (starves rfl) (Finset.card_le_card (Finset.filter_subset_filter _ ?_))
    rw [Node.path_child child]
    exact Finset.subset_insert _ _
  | some found =>
    obtain ⟨b, t⟩ := found
    obtain ⟨first, rfl, above⟩ := descends b t rfl
    have resolved := mapEntry_resolved first.sound.owned first.sound.reserved
      ((first.frame.live x).mpr live) child above
    simp only [Option.bind_some] at failed
    rw [failed] at resolved
    cases resolved with
    | full spent empty =>
      have absent : s.addr x n = 0 := by
        rw [← empty]
        exact (first.kept n fun member => new (Finset.mem_filter.mp member).1).symm
      rw [Node.path_child child, Finset.filter_insert, if_pos absent,
        Finset.card_insert_of_notMem fun member => new (Finset.mem_filter.mp member).1]
      have := first.free_eq
      omega

theorem bmap_starves (sound : Sound s) (live : s.Live (.core ip)) (bound : bn < maxfile) :
    Starves s (.core ip) (.ofBn bn) (s.bmap ip bn) := by
  have both : Descends s (.core ip) (.ofBn bn) (s.bmap ip bn) ∧
      Starves s (.core ip) (.ofBn bn) (s.bmap ip bn) :=
    bmap_descent
      (P := fun n result => Descends s (.core ip) n result ∧ Starves s (.core ip) n result)
      (fun _ => ⟨fun _ _ => mapRoot_ledger sound live, starves_mapRoot sound live⟩)
      (fun _ _ _ child above =>
        ⟨descends_mapEntry live child above.1, starves_mapEntry live child above.1 above.2⟩)
      bound
  exact both.2

/-- What the first block of a range lacks is absent of the range. -/
theorem starves_first {n : Nat} (some : 0 < n)
    (few : s.free < ((Node.ofBn (off / bsize)).path.filter (s.addr x · = 0)).card) :
    s.free < (s.absent x off n).card := by
  refine few.trans_le (Finset.card_le_card ?_)
  refine Finset.filter_subset_filter _ fun m member => Finset.mem_biUnion.mpr ⟨_, ?_, member⟩
  exact Finset.mem_image_of_mem _ (mem_touched.mpr ⟨0, some, rfl⟩)

/-- The loop of `writei` fails only when fewer blocks are free than are absent. -/
theorem writeLoop_starves (left : Nat) (off : Nat) (src : List UInt8) (sound : Sound s)
    (live : s.Live (.core ip)) (rounds : src.length ≤ left)
    (bound : off + src.length ≤ maxfile * bsize) (failed : s.writeLoop ip left off src = none) :
    s.free < (s.absent (.core ip) off src.length).card := by
  induction left generalizing s off src with
  | zero => cases failed
  | succ left ih =>
    unfold writeLoop at failed
    split at failed
    · cases failed
    · rename_i something
      have some : 0 < src.length := List.length_pos_iff.mpr something
      have cut : min src.length (bsize - off % bsize) = round off src.length := rfl
      have inside : off / bsize < maxfile := div_lt_maxfile (by omega)
      simp only [cut, Option.bind_eq_bind] at failed
      cases mapped : s.bmap ip (off / bsize) with
      | none => exact starves_first some (bmap_starves sound live inside mapped)
      | some found =>
        obtain ⟨a, u⟩ := found
        rw [mapped, Option.bind_some] at failed
        have stored := round_ledger
          ((u.block a).write (off % bsize) (src.take (round off src.length))) sound live inside
          mapped
        have positive := round_pos off some
        have later := ih (off + round off src.length) (src.drop (round off src.length)) stored.sound
          ((stored.frame.live _).mpr live) (by rw [List.length_drop]; omega)
          (by rw [List.length_drop]; omega) failed
        rw [List.length_drop, stored.free_eq] at later
        rw [absent_step some stored, Finset.card_union_of_disjoint stored.disjoint]
        omega

/-- The loop of `readi` allocates blocks for holes, and fails only when fewer are free than are
absent. -/
theorem readLoop_starves (left off n : Nat) (sound : Sound s) (live : s.Live (.core ip))
    (rounds : n ≤ left) (bound : off + n ≤ maxfile * bsize)
    (failed : s.readLoop ip left off n = none) : s.free < (s.absent (.core ip) off n).card := by
  induction left generalizing s off n with
  | zero =>
    obtain rfl : n = 0 := by omega
    cases failed
  | succ left ih =>
    unfold readLoop at failed
    split at failed
    · cases failed
    · rename_i something
      have some : 0 < n := Nat.pos_of_ne_zero something
      have cut : min n (bsize - off % bsize) = round off n := rfl
      have inside : off / bsize < maxfile := div_lt_maxfile (by omega)
      simp only [cut, Option.bind_eq_bind] at failed
      cases mapped : s.bmap ip (off / bsize) with
      | none => exact starves_first some (bmap_starves sound live inside mapped)
      | some found =>
        obtain ⟨a, u⟩ := found
        rw [mapped, Option.bind_some] at failed
        have stored := (bmap_ledger sound live inside a u mapped).1
        have positive := round_pos off some
        have loop : u.readLoop ip left (off + round off n) (n - round off n) = none := by
          cases rest : u.readLoop ip left (off + round off n) (n - round off n) with
          | none => rfl
          | some found =>
            rw [rest] at failed
            cases failed
        have later := ih (off + round off n) (n - round off n) stored.sound
          ((stored.frame.live _).mpr live) (by omega) (by omega) loop
        rw [stored.free_eq] at later
        rw [absent_step some stored, Finset.card_union_of_disjoint stored.disjoint]
        omega

/-- A block index needs three blocks at most. -/
theorem card_absent_le (s : State) (x : Ino) (off n : Nat) :
    (s.absent x off n).card ≤ 3 * (touched off n).card := by
  have path (m : Node) : m.path.card ≤ 3 := by
    cases m with
    | root i => simp [Node.path]
    | single j => exact Finset.card_le_two.trans (by decide)
    | level1 j => exact Finset.card_le_two.trans (by decide)
    | leaf j k => exact Finset.card_le_three
  calc (s.absent x off n).card
      ≤ ((places off n).biUnion Node.path).card := Finset.card_filter_le _ _
    _ ≤ (places off n).card * 3 := Finset.card_biUnion_le_card_mul _ _ _ fun m _ => path m
    _ ≤ 3 * (touched off n).card := by
      rw [Nat.mul_comm]
      exact Nat.mul_le_mul_left 3 Finset.card_image_le

end State
end Aso.Xv6.Fs
