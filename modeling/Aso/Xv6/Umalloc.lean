import Aso.Circular
import Aso.Xv6.Vm.Machine

/-! umalloc.c, the allocator of the user programs. Memory is read in headers, which are
named by their addresses; pointers and sizes are 32-bit words. -/
namespace Aso.Xv6.Umalloc
open Function Transition

structure Header where
  ptr : Nat
  size : Nat

/-- The memory of the process, `freep`, and the process size in the kernel. -/
structure Heap where
  header : Nat → Header
  freep : Nat
  brk : Nat

namespace Heap

def next (s : Heap) (a : Nat) : Nat := (s.header a).ptr
def size (s : Heap) (a : Nat) : Nat := (s.header a).size
def set (s : Heap) (a ptr size : Nat) : Heap := { s with header := update s.header a ⟨ptr, size⟩ }

/-- `p + n` for a pointer to a header. -/
def plus (p n : Nat) : Nat := (p + 8 * n) % 2 ^ 32

/-- More rounds than a scan of the free list takes. -/
def rounds : Nat := 2 ^ 35

/-- The loop of `free`: the block after which `bp` belongs. -/
def freeLoop (s : Heap) (bp : Nat) : Nat → Nat → Option Nat
  | 0, _ => none
  | fuel + 1, p =>
    if bp > p ∧ bp < s.next p then some p
    else if p ≥ s.next p ∧ (bp > p ∨ bp < s.next p) then some p
    else freeLoop s bp fuel (s.next p)

/-- `bp` is linked to what comes after `p`, or takes it in. -/
def joinUpper (s : Heap) (bp p : Nat) : Heap :=
  if plus bp (s.size bp) = s.next p then
    s.set bp (s.next (s.next p)) ((s.size bp + s.size (s.next p)) % 2 ^ 32)
  else s.set bp (s.next p) (s.size bp)

/-- `p` is linked to `bp`, or takes it in. -/
def joinLower (s : Heap) (bp p : Nat) : Heap :=
  if plus p (s.size p) = bp then s.set p (s.next bp) ((s.size p + s.size bp) % 2 ^ 32)
  else s.set p bp (s.size p)

def free (s : Heap) (ap : Nat) : Option Heap :=
  let bp := (ap + (2 ^ 32 - 8)) % 2 ^ 32
  (freeLoop s bp rounds s.freep).map fun p => { (s.joinUpper bp p).joinLower bp p with freep := p }

/-- `sbrk` for a size that is not negative; the kernel may refuse. -/
def sbrk (refused : Bool) (s : Heap) (n : Nat) : Nat × Heap :=
  if refused then (2 ^ 32 - 1, s) else (s.brk, { s with brk := (s.brk + n) % 2 ^ 32 })

def morecore (refused : Bool) (s : Heap) (nu : Nat) : Option (Nat × Heap) :=
  let nu := if nu < 4096 then 4096 else nu
  let (p, s) := s.sbrk refused (nu * 8 % 2 ^ 32)
  if p = 2 ^ 32 - 1 then some (0, s)
  else do
    let s ← (s.set p (s.next p) nu).free (plus p 1)
    some (s.freep, s)

/-- The block after `prevp` is large enough: it is taken out of the list, or its end is. -/
def take (s : Heap) (prevp nunits : Nat) : Nat × Heap :=
  let p := s.next prevp
  if s.size p =
    nunits then (plus p 1, { s.set prevp (s.next p) (s.size prevp) with freep := prevp })
  else
    let s := s.set p (s.next p) (s.size p - nunits)
    let p := plus p (s.size p)
    (plus p 1, { s.set p (s.next p) nunits with freep := prevp })

def mallocLoop (refused : Bool) (nunits : Nat) : Nat → Heap → Nat → Option (Nat × Heap)
  | 0, _, _ => none
  | fuel + 1, s, prevp =>
    let p := s.next prevp
    if s.size p ≥ nunits then some (s.take prevp nunits)
    else if p = s.freep then do
      let (p, s) ← s.morecore refused nunits
      if p = 0 then some (0, s) else mallocLoop refused nunits fuel s p
    else mallocLoop refused nunits fuel s p

/-- `malloc`; `base` is the address of the header that the list starts with. -/
def malloc (base : Nat) (refused : Bool) (s : Heap) (nbytes : Nat) : Option (Nat × Heap) :=
  let nunits := (nbytes + 8 - 1) % 2 ^ 32 / 8 + 1
  let s := if s.freep = 0 then { s.set base base 0 with freep := base } else s
  mallocLoop refused nunits rounds s s.freep

section Fields
variable (s : Heap) (a p z : Nat)

@[simp] theorem next_set : (s.set a p z).next = update s.next a p := by
  funext c
  by_cases here : c = a
  · subst here
    simp [next, set]
  · simp [next, set, here]

@[simp] theorem size_set : (s.set a p z).size = update s.size a z := by
  funext c
  by_cases here : c = a
  · subst here
    simp [size, set]
  · simp [size, set, here]

@[simp] theorem brk_set : (s.set a p z).brk = s.brk := rfl
@[simp] theorem freep_set : (s.set a p z).freep = s.freep := rfl

end Fields

/-- Lengths in bytes. -/
theorem length_update (f : Nat → Nat) (a z c : Nat) :
    8 * update f a z c = update (fun c => 8 * f c) a (8 * z) c :=
  apply_update (fun _ z => 8 * z) f a z c

/-- The heap holds the blocks `B`, of which those in `A` are in the free list behind `base`.
They fill the region obtained from `start` on, and free neighbours have been joined
but for those in `E`. -/
structure Kept (base start : Nat) (s : Heap) (B A E : Finset Nat) : Prop where
  low : 0 < base ∧ base + 8 ≤ start
  word : s.brk < 2 ^ 32
  tiling : Tiling start s.brk (fun a => 8 * s.size a) B
  empty : s.size base = 0
  ring : Circular base s.next A
  sub : A ⊆ insert base B
  separate : ∀ a ∈ A, a ∉ E → a < s.next a → a + 8 * s.size a ≠ s.next a

namespace Kept
variable {base start : Nat} {s : Heap} {B A E : Finset Nat} {a b p bp n fuel : Nat}

theorem start_le (kept : Kept base start s B A E) : start ≤ s.brk :=
  kept.tiling.total ▸ Nat.le_add_right ..

theorem base_notMem (kept : Kept base start s B A E) : base ∉ B := fun member => by
  have := kept.tiling.inside base member
  have := kept.low
  omega

theorem mem (kept : Kept base start s B A E) (member : a ∈ A) (other : a ≠ base) : a ∈ B :=
  (Finset.mem_insert.mp (kept.sub member)).resolve_left other

/-- All blocks end inside the region, and so does the header the list starts with. -/
theorem ends (kept : Kept base start s B A E) (member : a ∈ insert base B) :
    a < s.brk ∧ a + 8 * s.size a ≤ s.brk := by
  have := kept.start_le
  have := kept.low
  obtain rfl | inside := Finset.mem_insert.mp member
  · have := kept.empty
    omega
  · have := kept.tiling.inside a inside
    omega

theorem rove (kept : Kept base start s B A E) (p : Nat) :
    Kept base start { s with freep := p } B A E :=
  ⟨kept.low, kept.word, kept.tiling, kept.empty, kept.ring, kept.sub, kept.separate⟩

theorem congr {s' : Heap} (kept : Kept base start s B A E) (brk : s'.brk = s.brk)
    (same : ∀ c ∈ insert base B, s'.next c = s.next c ∧ s'.size c = s.size c) :
    Kept base start s' B A E := by
  refine ⟨kept.low, brk ▸ kept.word, ?_, ?_,
    kept.ring.congr fun a member => (same a (kept.sub member)).1, kept.sub,
    fun a member closed => ?_⟩
  · rw [brk]
    exact kept.tiling.congr
      fun a member => congrArg (8 * ·) (same a (Finset.mem_insert_of_mem member)).2
  · rw [(same base (Finset.mem_insert_self ..)).2]
    exact kept.empty
  · rw [(same a (kept.sub member)).1, (same a (kept.sub member)).2]
    exact kept.separate a member closed

/-- What has no unjoined neighbour needs no exception. -/
theorem close (kept : Kept base start s B A E) (apart : a + 8 * s.size a ≠ s.next a) :
    Kept base start s B A (E.erase a) := by
  refine { kept with separate := fun c member closed above => ?_ }
  by_cases here : c = a
  · rw [here]
    exact apart
  · exact kept.separate c member
      (fun unjoined => closed (Finset.mem_erase.mpr ⟨here, unjoined⟩)) above

/-- A block is put into the list at its place. -/
theorem link (kept : Kept base start s B A E) (member : p ∈ A) (block : bp ∈ B)
    (place : Circular.Place s.next p bp) :
    Kept base start ((s.set bp (s.next p) (s.size bp)).set p bp (s.size p)) B (insert bp A)
      (insert p (insert bp E)) := by
  have sizes : ((s.set bp (s.next p) (s.size bp)).set p bp (s.size p)).size = s.size := by
    simp
  refine ⟨kept.low, kept.word, ?_, ?_, ?_, ?_, fun c inside closed above => ?_⟩
  · rw [sizes]
    exact kept.tiling
  · rw [sizes]
    exact kept.empty
  · simpa using kept.ring.insert member place
  · exact Finset.insert_subset (Finset.mem_insert_of_mem block) kept.sub
  · simp only [Finset.mem_insert, not_or] at closed
    rw [sizes]
    simp only [next_set, update_of_ne closed.1, update_of_ne closed.2.1] at above ⊢
    exact kept.separate c (Finset.mem_of_mem_insert_of_ne inside closed.2.1) closed.2.2 above

/-- A free block takes in the one right after it. -/
theorem join (kept : Kept base start s B A E) (member : a ∈ A) (after : s.next a = b)
    (adjacent : a + 8 * s.size a = b) (above : a < b) (closed : b ∉ E) :
    Kept base start (s.set a (s.next b) (s.size a + s.size b)) (B.erase b) (A.erase b)
      (E.erase a) := by
  have low := kept.ring.least a member
  have second : b ∈ A := after ▸ kept.ring.mem member
  have inner : a ≠ base := fun here => by
    have := kept.empty
    rw [← here] at this
    omega
  have inner' : b ≠ base := by omega
  have lengths : (fun c => 8 * (s.set a (s.next b) (s.size a + s.size b)).size c) =
      update (fun c => 8 * s.size c) a (8 * s.size a + 8 * s.size b) := by
    funext c
    rw [size_set, length_update, Nat.mul_add]
  refine ⟨kept.low, kept.word, ?_, ?_, ?_, ?_, fun c inside open' higher => ?_⟩
  · rw [lengths]
    exact kept.tiling.merge (kept.mem member inner) (kept.mem second inner') adjacent
  · rw [size_set, update_of_ne inner.symm]
    exact kept.empty
  · simpa [after] using kept.ring.erase member (after ▸ inner')
  · intro c inside
    obtain ⟨other, inside⟩ := Finset.mem_erase.mp inside
    exact (Finset.mem_insert.mp (kept.sub inside)).elim (· ▸ Finset.mem_insert_self ..)
      fun block => Finset.mem_insert_of_mem (Finset.mem_erase.mpr ⟨other, block⟩)
  · obtain ⟨other, inside⟩ := Finset.mem_erase.mp inside
    rw [next_set] at higher ⊢
    rw [size_set]
    by_cases here : c = a
    · subst here
      rw [update_self] at higher ⊢
      rw [update_self]
      obtain ⟨-, order, -⟩ := kept.ring.follows b second
      have := kept.separate b second closed (by omega)
      omega
    · rw [update_of_ne here] at higher ⊢
      rw [update_of_ne here]
      exact kept.separate c inside
        (fun unjoined => open' (Finset.mem_erase.mpr ⟨here, unjoined⟩)) higher

/-- A free block takes in the one right after it if that is free. -/
def joined (s : Heap) (a : Nat) : Heap :=
  if a + 8 * s.size a = s.next a then s.set a (s.next (s.next a)) (s.size a + s.size (s.next a))
  else s

theorem joined_of_ne {c : Nat} (other : c ≠ a) :
    (joined s a).next c = s.next c ∧ (joined s a).size c = s.size c := by
  unfold joined
  split
  · simp [other]
  · exact ⟨rfl, rfl⟩

@[simp] theorem brk_joined : (joined s a).brk = s.brk := by
  unfold joined
  split <;> rfl

theorem joined_kept (kept : Kept base start s B A E) (member : a ∈ A)
    (fine : a + 8 * s.size a = s.next a → a < s.next a ∧ s.next a ∉ E) :
    ∃ B' A', Kept base start (joined s a) B' A' (E.erase a) ∧ B' \ A' = B \ A ∧ A' ⊆ A ∧
      (∀ c ∈ A, c ≤ a → c ∈ A') ∧
      ∀ c ∈ A, ∃ f ∈ A', s.size c ≤ (joined s a).size f := by
  unfold joined
  split
  · next adjacent =>
    obtain ⟨above, closed⟩ := fine adjacent
    have kept' := kept.join member rfl adjacent above closed
    have stays {c : Nat} (inside : c ∈ A) (low : c ≤ a) : c ∈ A.erase (s.next a) :=
      Finset.mem_erase.mpr ⟨by omega, inside⟩
    refine ⟨_, _, kept', ?_, Finset.erase_subset .., fun c => stays, fun c inside => ?_⟩
    · ext c
      have := kept.ring.mem member
      simp only [Finset.mem_sdiff, Finset.mem_erase]
      constructor
      · rintro ⟨⟨other, block⟩, used⟩
        exact ⟨block, fun free => used ⟨other, free⟩⟩
      · rintro ⟨block, used⟩
        exact ⟨⟨fun same => used (same ▸ this), block⟩, fun free => used free.2⟩
    · by_cases taken : c = s.next a ∨ c = a
      · refine ⟨a, stays member le_rfl, ?_⟩
        rw [size_set, update_self]
        obtain rfl | rfl := taken
        all_goals omega
      · rw [not_or] at taken
        refine ⟨c, Finset.mem_erase.mpr ⟨taken.1, inside⟩, ?_⟩
        rw [size_set, update_of_ne taken.2]
  · next apart =>
      exact ⟨B, A, kept.close apart, rfl, subset_rfl, fun _ inside _ => inside,
        fun c inside => ⟨c, inside, le_rfl⟩⟩

/-- The loop of `free` finds the place. -/
theorem freeLoop_place (kept : Kept base start s B A E) (block : bp ∈ B) (used : bp ∉ A)
    (member : p ∈ A) (enough : Circular.gap s.brk bp p < fuel) :
    ∃ q ∈ A, freeLoop s bp fuel p = some q ∧ Circular.Place s.next q bp := by
  have low := kept.low
  have inside := kept.tiling.inside bp block
  induction fuel generalizing p with
  | zero => omega
  | succ fuel ih =>
    obtain ⟨-, order, -⟩ := kept.ring.follows p member
    rw [freeLoop]
    split
    · next here => exact ⟨p, member, rfl, here.1, .inl here.2⟩
    · split
      · next here => exact ⟨p, member, rfl, by omega, .inr here.1⟩
      · have nearer := kept.ring.gap_next (fun c free => (kept.ends (kept.sub free)).1) member
          (by omega : base ≤ bp) (by omega)
          (ne_of_mem_of_not_mem (kept.ring.mem member) used)
        exact ih (kept.ring.mem member) (by omega)

theorem set_comm {c p' z z' : Nat} (other : a ≠ c) :
    (s.set a p z).set c p' z' = (s.set c p' z').set a p z := by
  simp only [set, update_comm other]

theorem set_idem {p' z z' : Nat} : (s.set a p z).set a p' z' = s.set a p' z' := by
  simp only [set, update_idem]

theorem joinUpper_eq (kept : Kept base start s B A E) (block : bp ∈ B) (member : p ∈ A)
    (place : Circular.Place s.next p bp) :
    (s.joinUpper bp p).set p bp (s.size p) =
      joined ((s.set bp (s.next p) (s.size bp)).set p bp (s.size p)) bp := by
  have word := kept.word
  have other : bp ≠ p := place.1.ne'
  have inside := kept.tiling.inside bp block
  have ends := kept.ends (kept.sub (kept.ring.mem member))
  have plus_bp : plus bp (s.size bp) = bp + 8 * s.size bp := Nat.mod_eq_of_lt (by omega)
  unfold joinUpper joined
  simp only [plus_bp, next_set, size_set, update_of_ne other, update_self]
  by_cases up : bp + 8 * s.size bp = s.next p
  · have beyond : s.next p ≠ p := by
      have := place.1
      omega
    have beyond' : s.next p ≠ bp := by omega
    rw [if_pos up, if_pos up, Nat.mod_eq_of_lt (by omega), update_of_ne beyond,
      update_of_ne beyond', update_of_ne beyond, update_of_ne beyond', set_comm other,
      set_comm other, set_idem]
  · rw [if_neg up, if_neg up]

theorem joinUpper_size {c : Nat} (other : c ≠ bp) : (s.joinUpper bp p).size c = s.size c := by
  unfold joinUpper
  split <;> simp [other]

theorem joinLower_eq (other : bp ≠ p) (word : p + 8 * s.size p < 2 ^ 32)
    (word' : bp + 8 * s.size bp < 2 ^ 32) :
    s.joinLower bp p = joined (s.set p bp (s.size p)) p := by
  have plus_p : plus p (s.size p) = p + 8 * s.size p := Nat.mod_eq_of_lt word
  unfold joinLower joined
  simp only [plus_p, next_set, size_set, update_of_ne other, update_self]
  by_cases down : p + 8 * s.size p = bp
  · rw [if_pos down, if_pos down, Nat.mod_eq_of_lt (by omega), set_idem]
  · rw [if_neg down, if_neg down]

/-- `free` puts the block into the list and joins it with its neighbours. -/
theorem free_kept (kept : Kept base start s B A ∅) (roving : s.freep ∈ A) (block : bp ∈ B)
    (used : bp ∉ A) :
    ∃ s' B' A', s.free (bp + 8) = some s' ∧ Kept base start s' B' A' ∅ ∧ s'.freep ∈ A' ∧
      s'.brk = s.brk ∧
      B' \ A' = (B \ A).erase bp ∧ (∀ c ∈ B \ A, c ≠ bp → s'.size c = s.size c) ∧
      ∃ f ∈ A', s.size bp ≤ s'.size f := by
  have word := kept.word
  have ends := kept.ends (Finset.mem_insert_of_mem block)
  have far : Circular.gap s.brk bp s.freep < rounds := by
    have := Circular.gap_le (x := s.freep) ends.1.le
    simp only [rounds]
    omega
  obtain ⟨p, member, found, place⟩ := kept.freeLoop_place block used roving far
  have other : bp ≠ p := place.1.ne'
  have inside := kept.tiling.inside bp block
  have linked := kept.link member block place
  have upper := kept.joinUpper_eq block member place
  set s₁ := (s.set bp (s.next p) (s.size bp)).set p bp (s.size p) with made
  have sizes : s₁.size = s.size := by simp [made]
  have next_p : s₁.next p = bp := by simp [made]
  have next_bp : s₁.next bp = s.next p := by simp [made, other]
  obtain ⟨B₂, A₂, kept₂, live₂, sub₂, stays₂, more₂⟩ :=
    linked.joined_kept (Finset.mem_insert_self bp A) fun adjacent => by
    rw [sizes, next_bp] at adjacent
    rw [next_bp]
    have := place.1
    exact ⟨by omega, by simp; omega⟩
  have still : (joined s₁ bp).next p = bp := (joined_of_ne other.symm).1.trans next_p
  have member₂ : p ∈ A₂ := stays₂ p (Finset.mem_insert_of_mem member) place.1.le
  obtain ⟨B₃, A₃, kept₃, live₃, sub₃, stays₃, more₃⟩ := kept₂.joined_kept member₂ fun _ => by
    rw [still]
    exact ⟨place.1, Finset.notMem_erase bp _⟩
  have none : ((insert p (insert bp ∅) : Finset Nat).erase bp).erase p = ∅ := by
    ext c
    simp only [Finset.mem_erase, Finset.mem_insert, Finset.notMem_empty]
    tauto
  rw [none] at kept₃
  refine ⟨{ joined (joined s₁ bp) p with freep := p }, B₃, A₃, ?_, kept₃.rove p,
    stays₃ p member₂ le_rfl, ?_, ?_, ?_, ?_⟩
  · have back : (bp + 8 + (2 ^ 32 - 8)) % 2 ^ 32 = bp := by omega
    have same : (s.joinUpper bp p).size p = s.size p := joinUpper_size other.symm
    have grown : (s.joinUpper bp p).size bp = (joined s₁ bp).size bp := by
      rw [← upper, size_set, update_of_ne other]
    have ends' := kept.ends (kept.sub member)
    have ends'' := kept₂.ends (kept₂.sub (stays₂ bp (Finset.mem_insert_self bp A) le_rfl))
    have kept_brk : (joined s₁ bp).brk = s.brk := brk_joined
    rw [free, back, found, Option.map_some, joinLower_eq other (by omega) (by omega), same, upper]
  · simp [made]
  · rw [live₃, live₂, Finset.sdiff_insert]
  · intro c live different
    have outside : c ≠ p := fun same => (Finset.mem_sdiff.mp live).2 (same ▸ member)
    calc (joined (joined s₁ bp) p).size c = (joined s₁ bp).size c := (joined_of_ne outside).2
      _ = s₁.size c := (joined_of_ne different).2
      _ = s.size c := congrFun sizes c
  · obtain ⟨f, free, large⟩ := more₂ bp (Finset.mem_insert_self bp A)
    obtain ⟨g, free', larger⟩ := more₃ f free
    exact ⟨g, free', by rw [sizes] at large; exact large.trans larger⟩

/-- Blocks do not reach into the ones above them. -/
theorem apart (kept : Kept base start s B A E) (member : a ∈ insert base B) (other : b ∈ B)
    (above : a < b) : a + 8 * s.size a ≤ b := by
  obtain rfl | inside := Finset.mem_insert.mp member
  · have := kept.empty
    omega
  · exact kept.tiling.apart a inside b other above

/-- A call of `malloc` has returned a new block of `n` units,
and the blocks in `live` are as they were. -/
def Took (base start : Nat) (s : Heap) (live : Finset Nat) (n : Nat) (r : Nat × Heap) : Prop :=
  ∃ b B A, r.1 = b + 8 ∧ Kept base start r.2 B A ∅ ∧ r.2.freep ∈ A ∧ b ∉ live ∧
    B \ A = insert b live ∧
    r.2.size b = n ∧ ∀ c ∈ live, r.2.size c = s.size c

/-- The block is taken out of the list. -/
theorem take_whole (kept : Kept base start s B A ∅) (member : p ∈ A) (inner : s.next p ≠ base) :
    Kept base start (s.set p (s.next (s.next p)) (s.size p)) B (A.erase (s.next p)) ∅ := by
  have sizes : (s.set p (s.next (s.next p)) (s.size p)).size = s.size := by simp
  have second := kept.ring.mem member
  refine ⟨kept.low, kept.word, ?_, ?_, ?_, (Finset.erase_subset ..).trans kept.sub,
    fun c inside _ higher => ?_⟩
  · rw [sizes]
    exact kept.tiling
  · rw [sizes]
    exact kept.empty
  · simpa using kept.ring.erase member inner
  · have free := Finset.mem_of_mem_erase inside
    rw [sizes]
    rw [next_set] at higher ⊢
    by_cases here : c = p
    · subst here
      rw [update_self] at higher ⊢
      obtain ⟨-, order, -⟩ := kept.ring.follows c free
      obtain ⟨-, order', -⟩ := kept.ring.follows _ second
      have := kept.ring.least c free
      have := kept.apart (kept.sub free) (kept.mem second inner) (order.resolve_right inner)
      omega
    · rw [update_of_ne here] at higher ⊢
      exact kept.separate c free (Finset.notMem_empty c) higher

/-- The end of a block in the list becomes a block of its own. -/
theorem take_part (kept : Kept base start s B A ∅) (member : a ∈ A) (some : 0 < n)
    (part : n < s.size a) : a + 8 * (s.size a - n) ∉ B ∧ a + 8 * (s.size a - n) ∉ A ∧
      Kept base start ((s.set a (s.next a) (s.size a - n)).set (a + 8 * (s.size a - n))
        (s.next (a + 8 * (s.size a - n))) n)
        (insert (a + 8 * (s.size a - n)) B) A ∅ := by
  have inner : a ≠ base := fun here => by
    have := kept.empty
    rw [← here] at this
    omega
  have low := kept.ring.least a member
  obtain ⟨new, cut⟩ := kept.tiling.split (kept.mem member inner) (n := 8 * n) (by omega) (by omega)
  have address : a + (8 * s.size a - 8 * n) = a + 8 * (s.size a - n) := by omega
  rw [address] at new cut
  generalize place : a + 8 * (s.size a - n) = b at *
  have nexts : ((s.set a (s.next a) (s.size a - n)).set b (s.next b) n).next = s.next := by simp
  have unlisted {c : Nat} (inside : c ∈ A) : c ≠ b := fun same => by
    subst same
    exact new (kept.mem inside (by omega))
  refine ⟨new, fun listed => unlisted listed rfl, kept.low, kept.word, cut.congr fun c _ => ?_, ?_,
    ?_, ?_, fun c inside _ higher => ?_⟩
  · simp only [size_set, length_update, Nat.mul_sub]
  · rw [size_set, size_set, update_of_ne (unlisted kept.ring.first), update_of_ne inner.symm]
    exact kept.empty
  · rw [nexts]
    exact kept.ring
  · exact kept.sub.trans (Finset.insert_subset_insert _ (Finset.subset_insert ..))
  · rw [nexts] at higher ⊢
    rw [size_set, size_set, update_of_ne (unlisted inside)]
    have := kept.separate c inside (Finset.notMem_empty c) higher
    by_cases here : c = a
    · subst here
      rw [update_self]
      have := kept.apart (kept.sub inside) (kept.mem (kept.ring.mem inside) (by omega)) higher
      omega
    · rwa [update_of_ne here]

theorem take_kept (kept : Kept base start s B A ∅) (member : p ∈ A) (some : 0 < n)
    (fits : n ≤ s.size (s.next p)) : Took base start s (B \ A) n (s.take p n) := by
  have second := kept.ring.mem member
  have inner : s.next p ≠ base := fun here => by
    have := kept.empty
    rw [here] at fits
    omega
  have below := (kept.ring.follows p member).2.1.resolve_right inner
  have ends := kept.ends (kept.sub second)
  have word := kept.word
  have block := kept.mem second inner
  rw [take]
  dsimp only
  by_cases whole : s.size (s.next p) = n
  · have header : plus (s.next p) 1 = s.next p + 8 := Nat.mod_eq_of_lt (by omega)
    have sizes : (s.set p (s.next (s.next p)) (s.size p)).size = s.size := by simp
    rw [if_pos whole, header]
    exact ⟨s.next p, B, A.erase (s.next p), rfl, (kept.take_whole member inner).rove p,
      Finset.mem_erase.mpr ⟨below.ne, member⟩, fun used => (Finset.mem_sdiff.mp used).2 second,
      Finset.sdiff_erase block, (congrFun sizes _).trans whole, fun c _ => congrFun sizes c⟩
  · obtain ⟨new, unlisted, cut⟩ := kept.take_part second some (by omega)
    have rest : (s.set (s.next p) (s.next (s.next p)) (s.size (s.next p) - n)).size (s.next p) =
        s.size (s.next p) - n := by
      simp
    have middle :
        plus (s.next p) (s.size (s.next p) - n) = s.next p + 8 * (s.size (s.next p) - n) :=
      Nat.mod_eq_of_lt (by omega)
    have header : plus (s.next p + 8 * (s.size (s.next p) - n)) 1 =
        s.next p + 8 * (s.size (s.next p) - n) + 8 :=
      Nat.mod_eq_of_lt (by omega)
    rw [if_neg whole, rest, middle, header, next_set, update_eq_self]
    refine ⟨_, _, A, rfl, cut.rove p, member, fun used => new (Finset.mem_sdiff.mp used).1,
      Finset.insert_sdiff_of_notMem B unlisted, congrFun (size_set ..) _ |>.trans (update_self ..),
      fun c live => ?_⟩
    obtain ⟨old, used⟩ := Finset.mem_sdiff.mp live
    refine (congrFun (size_set ..) c).trans ?_
    rw [update_of_ne (ne_of_mem_of_not_mem old new), size_set,
      update_of_ne (ne_of_mem_of_not_mem second used).symm]

/-- Once there is a block that is large enough, the loop of `malloc` finds it or another one. -/
theorem mallocLoop_found {refused : Bool} {f : Nat} (kept : Kept base start s B A ∅)
    (roving : s.freep ∈ A) (units : 0 < n) (large : f ∈ A ∧ n ≤ s.size f) (member : p ∈ A)
    (ahead : Circular.Ahead s.freep p f) (enough : Circular.gap s.brk s.freep p < fuel) :
    ∃ r, mallocLoop refused n fuel s p = some r ∧ Took base start s (B \ A) n r := by
  induction fuel generalizing p with
  | zero => omega
  | succ fuel ih =>
    rw [mallocLoop]
    dsimp only
    split
    · next fits => exact ⟨_, rfl, kept.take_kept member units fits⟩
    · next small =>
      obtain ⟨other, ahead⟩ :=
        kept.ring.ahead_next ahead member roving large.1 fun same => small (same ▸ large.2)
      have nearer := kept.ring.gap_next_mem (fun c free => (kept.ends (kept.sub free)).1) member
        roving other
      rw [if_neg other]
      exact ih (kept.ring.mem member) ahead (by omega)

/-- More memory from the kernel, as a block that is in use for now. -/
theorem grow_kept (kept : Kept base start s B A ∅) (units : 0 < n) (room : s.brk + 8 * n < 2 ^ 32) :
    s.brk ∉ B ∧ s.brk ∉ A ∧
      Kept base start (Heap.set { s with brk := s.brk + 8 * n } s.brk (s.next s.brk) n)
      (insert s.brk B) A ∅ := by
  obtain ⟨new, grown⟩ := kept.tiling.grow (n := 8 * n) (by omega)
  have below {c : Nat} (member : c ∈ insert base B) : c ≠ s.brk := (kept.ends member).1.ne
  have sizes : (Heap.set { s with brk := s.brk + 8 * n } s.brk (s.next s.brk) n).size =
      update s.size s.brk n := size_set ..
  have nexts : (Heap.set { s with brk := s.brk + 8 * n } s.brk (s.next s.brk) n).next = s.next :=
    (next_set ..).trans (update_eq_self ..)
  refine ⟨new, fun listed => below (kept.sub listed) rfl, kept.low, room,
    grown.congr fun c _ => ?_, ?_, ?_, ?_, fun c inside _ higher => ?_⟩
  · rw [sizes, length_update]
  · rw [sizes, update_of_ne (below (Finset.mem_insert_self ..))]
    exact kept.empty
  · rw [nexts]
    exact kept.ring
  · exact kept.sub.trans (Finset.insert_subset_insert _ (Finset.subset_insert ..))
  · rw [nexts] at higher ⊢
    rw [sizes, update_of_ne (below (kept.sub inside))]
    exact kept.separate c inside (Finset.notMem_empty c) higher

theorem morecore_kept (kept : Kept base start s B A ∅) (roving : s.freep ∈ A)
    (room : s.brk + 8 * max n 4096 < 2 ^ 32) :
    ∃ s' B' A', s.morecore false n = some (s'.freep, s') ∧ Kept base start s' B' A' ∅ ∧
      s'.freep ∈ A' ∧ B' \ A' = B \ A ∧
      (∀ c ∈ B \ A, s'.size c = s.size c) ∧ ∃ f ∈ A', n ≤ s'.size f := by
  have word := kept.word
  have amount : (if n < 4096 then 4096 else n) = max n 4096 := by
    split <;> omega
  have fits : (s.brk + max n 4096 * 8 % 2 ^ 32) % 2 ^ 32 = s.brk + 8 * max n 4096 := by omega
  have fresh : s.brk ≠ 2 ^ 32 - 1 := by omega
  have header : plus s.brk 1 = s.brk + 8 := Nat.mod_eq_of_lt (by omega)
  obtain ⟨new, unlisted, grown⟩ := kept.grow_kept (n := max n 4096) (by omega) room
  obtain ⟨s', B', A', freed, kept', roving', -, live, sizes, f, member, large⟩ :=
    grown.free_kept roving (Finset.mem_insert_self ..) unlisted
  have apart {c : Nat} (used : c ∈ B \ A) : c ≠ s.brk :=
    ne_of_mem_of_not_mem (Finset.mem_sdiff.mp used).1 new
  refine ⟨s', B', A', ?_, kept', roving', ?_, fun c used => ?_, f, member, ?_⟩
  · rw [morecore]
    simp only [amount, sbrk, Bool.false_eq_true, if_false, fits, if_neg fresh, header]
    have same : Heap.next { s with brk := s.brk + 8 * max n 4096 } s.brk = s.next s.brk := rfl
    rw [same, freed]
    rfl
  · rw [live, Finset.insert_sdiff_of_notMem B unlisted,
      Finset.erase_insert fun used => apart used rfl]
  · rw [sizes c (Finset.sdiff_subset_sdiff (Finset.subset_insert ..) subset_rfl used) (apart used)]
    exact (congrFun (size_set ..) c).trans (update_of_ne (apart used) ..)
  · have whole : (Heap.set { s with brk := s.brk + 8 * max n 4096 } s.brk (s.next s.brk)
        (max n 4096)).size s.brk = max n 4096 :=
      (congrFun (size_set ..) _).trans (update_self ..)
    omega

/-- The loop of `malloc` comes to an end: it takes a block, if need be from more memory. -/
theorem mallocLoop_returns (refused : Bool) (kept : Kept base start s B A ∅) (roving : s.freep ∈ A)
    (units : 0 < n) (room : s.brk + 8 * max n 4096 < 2 ^ 32) (member : p ∈ A)
    (enough : Circular.gap s.brk s.freep p + 2 ^ 33 < fuel) :
    ∃ r, mallocLoop refused n fuel s p = some r ∧
      (Took base start s (B \ A) n r ∨ refused ∧ r = (0, s)) := by
  induction fuel generalizing p with
  | zero => omega
  | succ fuel ih =>
    rw [mallocLoop]
    dsimp only
    split
    · next fits => exact ⟨_, rfl, .inl (kept.take_kept member units fits)⟩
    · by_cases last : s.next p = s.freep
      · rw [if_pos last]
        cases refused with
        | true => exact ⟨(0, s), rfl, .inr ⟨rfl, rfl⟩⟩
        | false =>
          obtain ⟨s', B₁, A₁, more, kept', roving', live, sizes, f, large⟩ :=
            kept.morecore_kept roving room
          have nonzero : s'.freep ≠ 0 := by
            have := kept'.ring.least _ roving'
            have := kept.low
            omega
          have far := Circular.gap_le (x := s'.freep) (kept'.ends (kept'.sub roving')).1.le
          have := kept'.word
          obtain ⟨r, done, took⟩ : ∃ r, mallocLoop false n fuel s' s'.freep = some r ∧
              Took base start s' (B₁ \ A₁) n r :=
            kept'.mallocLoop_found roving' units large roving' (Circular.ahead_self ..) (by omega)
          refine ⟨r, ?_, .inl ?_⟩
          · rw [more]
            exact (if_neg nonzero).trans done
          · obtain ⟨b, B₂, A₂, pointer, kept₂, roving₂, new, used, size, others⟩ := took
            rw [live] at new used others
            exact ⟨b, B₂, A₂, pointer, kept₂, roving₂, new, used, size,
              fun c old => (others c old).trans (sizes c old)⟩
      · have nearer := kept.ring.gap_next_mem (fun c free => (kept.ends (kept.sub free)).1)
          member roving last
        rw [if_neg last]
        exact ih (kept.ring.mem member) (by omega)

end Kept

/-- The heap is in order, the blocks in use being those in `live`. -/
def Ready (base start : Nat) (s : Heap) (live : Finset Nat) : Prop :=
  ∃ B A, Kept base start s B A ∅ ∧ s.freep ∈ A ∧ B \ A = live

variable {base start n : Nat} {s : Heap} {live : Finset Nat}

theorem Ready.freep_ne (ready : Ready base start s live) : s.freep ≠ 0 := by
  obtain ⟨B, A, kept, roving, -⟩ := ready
  have := kept.ring.least _ roving
  have := kept.low
  omega

/-- The first call of `malloc` sets up the list. -/
theorem ready_first (low : 0 < base ∧ base + 8 ≤ start) (word : start < 2 ^ 32)
    (fresh : s.brk = start) : Ready base start { s.set base base 0 with freep := base } ∅ := by
  have sizes : (s.set base base 0).size base = 0 := by simp
  refine ⟨∅, {base},
    Kept.rove ⟨low, fresh ▸ word, ?_, sizes, ⟨Finset.mem_singleton_self base, ?_, ?_⟩, ?_, ?_⟩ base,
    Finset.mem_singleton_self base, rfl⟩
  · rw [brk_set, fresh]
    exact .empty
  · simp
  · simp [Follows]
  · simp
  · simp

theorem malloc_returns (refused : Bool)
    (ready : s.freep ≠ 0 ∧ Ready base start s live ∨ s.freep = 0 ∧ live = ∅ ∧ s.brk = start)
    (low : 0 < base ∧ base + 8 ≤ start) (user : s.brk ≤ Vm.kernbase) (small : n < 2 ^ 30) :
    ∃ r, s.malloc base refused n = some r ∧
      (Kept.Took base start s live ((n + 8 - 1) % 2 ^ 32 / 8 + 1) r ∨
      refused ∧ r.1 = 0 ∧ Ready base start r.2 live ∧ ∀ c ∈ live, r.2.size c = s.size c) := by
  obtain ⟨t, begun, ready', same, sizes⟩ :
      ∃ t, (if s.freep = 0 then { s.set base base 0 with freep := base } else s) = t ∧
      Ready base start t live ∧ t.brk = s.brk ∧ ∀ c ∈ live, t.size c = s.size c := by
    obtain ⟨begun, ready⟩ | ⟨fresh, rfl, whole⟩ := ready
    · exact ⟨s, if_neg begun, ready, rfl, fun _ _ => rfl⟩
    · refine ⟨_, if_pos fresh, ready_first low ?_ whole, rfl, nofun⟩
      simp only [Vm.kernbase] at user
      omega
  obtain ⟨B, A, kept, roving, rfl⟩ := ready'
  have room : t.brk + 8 * max ((n + 8 - 1) % 2 ^ 32 / 8 + 1) 4096 < 2 ^ 32 := by
    simp only [Vm.kernbase] at user
    omega
  have far : Circular.gap t.brk t.freep t.freep + 2 ^ 33 < rounds := by
    have := Circular.gap_le (x := t.freep) (kept.ends (kept.sub roving)).1.le
    have := kept.word
    simp only [rounds]
    omega
  obtain ⟨r, done, result⟩ :=
    kept.mallocLoop_returns refused roving (Nat.succ_pos _) room roving far
  refine ⟨r, ?_, ?_⟩
  · rw [malloc, begun]
    exact done
  · obtain ⟨b, B', A', pointer, kept', roving', new, used, size, others⟩ | ⟨failed, rfl⟩ := result
    · exact .inl ⟨b, B', A', pointer, kept', roving', new, used, size,
        fun c old => (others c old).trans (sizes c old)⟩
    · exact .inr ⟨failed, rfl, ⟨B, A, kept, roving, rfl⟩, sizes⟩

end Heap

/-- A process and what it has asked for: the blocks it uses, by the addresses of their
headers, and the number of bytes it wanted in each. -/
structure Process where
  heap : Heap
  live : Finset Nat
  asked : Nat → Nat

/-- A store is one into a block in use. -/
inductive Call where
  | malloc (n : Nat) (refused : Bool)
  | free (b : Nat)
  | store (a : Nat) (value : Header)

/-- What the process has after `malloc` has returned. The heap stays below the kernel. -/
def Process.got (p : Process) (n : Nat) : Nat × Heap → Option Process
  | (ap, heap) =>
    if heap.brk > Vm.kernbase then none
    else if ap = 0 then some { p with heap := heap }
    else some ⟨heap, insert (ap - 8) p.live, update p.asked (ap - 8) n⟩

def step (base : Nat) (p : Process) : Call → Option Process
  | .malloc n refused => if n < 2 ^ 30 then (p.heap.malloc base refused n).bind (p.got n) else none
  | .free b =>
    if b ∈ p.live then (p.heap.free (b + 8)).map fun heap =>
      ⟨heap, p.live.erase b, p.asked⟩ else none
  | .store a value =>
    if ∃ b ∈ p.live, b + 8 ≤ a ∧
      a + 8 ≤ b + 8 * p.heap.size b then some { p with heap := p.heap.set a value.ptr value.size }
    else none

section Runs
variable {base start : Nat} {p q : Process}

/-- What holds between calls. -/
def Sound (base start : Nat) (p : Process) : Prop :=
  p.heap.brk ≤ Vm.kernbase ∧ (∀ b ∈ p.live, p.asked b + 8 ≤ 8 * p.heap.size b) ∧
    (p.heap.freep ≠ 0 ∧ p.heap.Ready base start p.live ∨ p.heap.freep = 0 ∧ p.live = ∅ ∧
    p.heap.brk = start)

theorem Sound.ready (sound : Sound base start p) {b : Nat} (used : b ∈ p.live) :
    p.heap.Ready base start p.live := by
  obtain ⟨-, ready⟩ | ⟨-, none, -⟩ := sound.2.2
  · exact ready
  · rw [none] at used
    cases used

theorem step_malloc {n : Nat} {refused : Bool} (low : 0 < base ∧ base + 8 ≤ start)
    (sound : Sound base start p) (taken : step base p (.malloc n refused) = some q) :
    Sound base start q := by
  obtain ⟨small, called⟩ := Option.ite_none_right_eq_some.mp taken
  obtain ⟨user, room, ready⟩ := sound
  obtain ⟨⟨ap, heap⟩, done, result⟩ := Heap.malloc_returns refused ready low user small
  rw [done, Option.bind_some] at called
  obtain ⟨below, rest⟩ := Option.ite_none_left_eq_some.mp called
  obtain ⟨b, B, A, pointer, kept, roving, new, used, size, others⟩ | ⟨-, zero, ready, sizes⟩ :=
    result
  · dsimp only at pointer kept roving size others
    rw [if_neg (by omega)] at rest
    obtain rfl : ap - 8 = b := by omega
    cases rest
    have ready : heap.Ready base start (insert (ap - 8) p.live) := ⟨B, A, kept, roving, used⟩
    refine ⟨not_lt.mp below, fun c member => ?_, .inl ⟨ready.freep_ne, ready⟩⟩
    obtain rfl | old := Finset.mem_insert.mp member
    · dsimp only
      rw [update_self, size]
      omega
    · dsimp only
      rw [update_of_ne (ne_of_mem_of_not_mem old new), others c old]
      exact room c old
  · dsimp only at zero ready sizes
    rw [if_pos zero] at rest
    cases rest
    exact ⟨not_lt.mp below, fun b member => sizes b member ▸ room b member,
      .inl ⟨ready.freep_ne, ready⟩⟩

theorem step_free {b : Nat} (sound : Sound base start p) (taken : step base p (.free b) = some q) :
    Sound base start q := by
  obtain ⟨used, called⟩ := Option.ite_none_right_eq_some.mp taken
  obtain ⟨heap, freed, rfl⟩ := Option.map_eq_some_iff.mp called
  obtain ⟨B, A, kept, roving, live⟩ := sound.ready used
  obtain ⟨block, unlisted⟩ := Finset.mem_sdiff.mp (live ▸ used)
  obtain ⟨s', B', A', done, kept', roving', brk, live', sizes, -⟩ :=
    kept.free_kept roving block unlisted
  cases freed.symm.trans done
  have ready : heap.Ready base start (p.live.erase b) :=
    ⟨B', A', kept', roving', by rw [live', live]⟩
  refine ⟨brk ▸ sound.1, fun c member => ?_, .inl ⟨ready.freep_ne, ready⟩⟩
  obtain ⟨other, old⟩ := Finset.mem_erase.mp member
  rw [sizes c (live ▸ old) other]
  exact sound.2.1 c old

theorem step_store {a : Nat} {value : Header} (sound : Sound base start p)
    (taken : step base p (.store a value) = some q) : Sound base start q := by
  obtain ⟨⟨b, used, lower, upper⟩, called⟩ := Option.ite_none_right_eq_some.mp taken
  cases called
  have ready := sound.ready used
  obtain ⟨B, A, kept, roving, live⟩ := ready
  obtain ⟨block, -⟩ := Finset.mem_sdiff.mp (live ▸ used)
  have inside := kept.tiling.inside b block
  have fresh {c : Nat} (member : c ∈ insert base B) : c ≠ a := fun same => by
    subst same
    have := kept.low
    have := kept.apart (Finset.mem_insert_of_mem block)
      ((Finset.mem_insert.mp member).resolve_left (by omega)) (by omega)
    omega
  have same (c : Nat) (member : c ∈ insert base B) :
      (p.heap.set a value.ptr value.size).next c = p.heap.next c ∧
      (p.heap.set a value.ptr value.size).size c = p.heap.size c := by
    rw [Heap.next_set, Heap.size_set, update_of_ne (fresh member), update_of_ne (fresh member)]
    exact ⟨rfl, rfl⟩
  have ready : (p.heap.set a value.ptr value.size).Ready base start p.live :=
    ⟨B, A, kept.congr rfl same, roving, live⟩
  refine ⟨sound.1, fun c member => ?_, .inl ⟨ready.freep_ne, ready⟩⟩
  rw [(same c (Finset.mem_insert_of_mem (Finset.mem_sdiff.mp (live ▸ member)).1)).2]
  exact sound.2.1 c member

theorem step_sound (low : 0 < base ∧ base + 8 ≤ start) {call : Call} (sound : Sound base start p)
    (taken : step base p call = some q) : Sound base start q := by
  cases call with
  | malloc n refused => exact step_malloc low sound taken
  | free b => exact step_free sound taken
  | store a value => exact step_store sound taken

/-- The blocks in `free` form a circular list in address order from `base` on, in which no
two are adjacent. They and the blocks in use are apart from each other and lie in the
memory obtained, of which they take up all, and a block in use has room for what was
asked. -/
structure Arena (base start : Nat) (p : Process) (free : Finset Nat) : Prop where
  roving : p.heap.freep ∈ free
  circular : Circular base p.heap.next free
  disjoint : Disjoint free p.live
  apart : ∀ a ∈ free ∪ p.live, ∀ b ∈ free ∪ p.live, a < b → a + 8 * p.heap.size a ≤ b
  separate : ∀ a ∈ free, ∀ b ∈ free, a < b → a + 8 * p.heap.size a < b
  obtained : ∀ a ∈ free ∪ p.live, a ≠ base → start ≤ a ∧ a + 8 * p.heap.size a ≤ p.heap.brk
  room : ∀ b ∈ p.live, p.asked b + 8 ≤ 8 * p.heap.size b
  units : start + 8 * (∑ a ∈ free, p.heap.size a + ∑ b ∈ p.live, p.heap.size b) = p.heap.brk

theorem Sound.arena (sound : Sound base start p) (ready : p.heap.Ready base start p.live) :
    ∃ free, Arena base start p free := by
  obtain ⟨B, A, kept, roving, live⟩ := ready
  have inside {a : Nat} (member : a ∈ A ∪ p.live) : a ∈ insert base B := by
    obtain free | used := Finset.mem_union.mp member
    · exact kept.sub free
    · rw [← live] at used
      exact Finset.mem_insert_of_mem (Finset.mem_sdiff.mp used).1
  have block {a : Nat} (member : a ∈ A ∪ p.live) (other : a ≠ base) : a ∈ B :=
    (Finset.mem_insert.mp (inside member)).resolve_left other
  have least {a : Nat} (member : a ∈ insert base B) : base ≤ a := by
    obtain rfl | member := Finset.mem_insert.mp member
    · exact le_rfl
    · have := kept.tiling.inside a member
      have := kept.low
      omega
  refine ⟨A, roving, kept.ring, live ▸ Finset.disjoint_sdiff, fun a member b other above => ?_,
    fun a member b other above => ?_, fun a member other => ?_, sound.2.1, ?_⟩
  · have := least (inside member)
    exact kept.apart (inside member) (block other (by omega)) above
  · have := kept.ring.least a member
    obtain ⟨after, -, between⟩ := kept.ring.follows a member
    have := between b other
    have := kept.apart (kept.sub member) (kept.mem after (by omega)) (by omega)
    have := kept.separate a member (Finset.notMem_empty a) (by omega)
    omega
  · have := kept.tiling.inside a (block member other)
    omega
  · have total := kept.tiling.total
    rw [← Finset.mul_sum] at total
    have part : A.erase base ⊆ B :=
      fun a member => kept.mem (Finset.mem_of_mem_erase member) (Finset.ne_of_mem_erase member)
    have rest : B \ A.erase base = p.live := by
      rw [← live]
      ext a
      have (member : a ∈ B) : a ≠ base := ne_of_mem_of_not_mem member kept.base_notMem
      simp only [Finset.mem_sdiff, Finset.mem_erase]
      tauto
    have split := Finset.sum_sdiff (f := p.heap.size) part
    have first := Finset.add_sum_erase A p.heap.size kept.ring.first
    rw [rest] at split
    rw [kept.empty] at first
    omega

/-- A process that has just been started, with the break at `start`. -/
def started (header : Nat → Header) (start : Nat) : Process := ⟨⟨header, 0, start⟩, ∅, fun _ => 0⟩

/-- Whatever calls a process makes, the heap is in order after each of them, and every
further call returns: `free`, and `malloc`, which fails only if the kernel refuses more
memory, and whose blocks are new ones. -/
theorem heap_kept {header : Nat → Header} {calls : List Call} (low : 0 < base ∧ base + 8 ≤ start)
    (user : start ≤ Vm.kernbase) (reached : run (step base) (started header start) calls = some p) :
    (p.heap.freep = 0 ∧ p.live = ∅ ∧ p.heap.brk = start ∨ ∃ free, Arena base start p free) ∧
    (∀ n < 2 ^ 30, ∀ refused, ∃ ap heap, p.heap.malloc base refused n = some (ap, heap) ∧
      (refused ∧ ap = 0 ∨ 8 ≤ ap ∧ ap - 8 ∉ p.live)) ∧
    ∀ b ∈ p.live, ∃ heap, p.heap.free (b + 8) = some heap := by
  have sound : Sound base start p :=
    invariant (fun _ _ _ => step_sound low) reached ⟨user, nofun, .inr ⟨rfl, rfl, rfl⟩⟩
  refine ⟨?_, fun n small refused => ?_, fun b used => ?_⟩
  · obtain ⟨-, ready⟩ | fresh := sound.2.2
    · exact .inr (sound.arena ready)
    · exact .inl fresh
  · obtain ⟨⟨ap, heap⟩, done, ⟨b, _, _, pointer, _, _, new, _⟩ | ⟨failed, zero, _⟩⟩ :=
      Heap.malloc_returns refused sound.2.2 low sound.1 small
    · dsimp only at pointer
      exact ⟨ap, heap, done, .inr ⟨by omega, by rwa [pointer, Nat.add_sub_cancel]⟩⟩
    · exact ⟨ap, heap, done, .inl ⟨failed, zero⟩⟩
  · obtain ⟨B, A, kept, roving, live⟩ := sound.ready used
    obtain ⟨block, unlisted⟩ := Finset.mem_sdiff.mp (live ▸ used)
    obtain ⟨heap, _, _, done, _⟩ := kept.free_kept roving block unlisted
    exact ⟨heap, done⟩

/-- Two blocks are taken and the first of them is given back. -/
theorem first_of_two_freed : ∃ p, run (step 100) (started (fun _ => ⟨0, 0⟩) 16384)
    [.malloc 10 false, .malloc 20 false, .free 49128] = some p ∧
    p.live = {49096} ∧ ∃ free, Arena 100 16384 p free := by
  have lives : (run (step 100) (started (fun _ => ⟨0, 0⟩) 16384)
      [.malloc 10 false, .malloc 20 false, .free 49128]).map Process.live =
      some {49096} := by decide +kernel
  obtain ⟨p, reached, live⟩ := Option.map_eq_some_iff.mp lives
  refine ⟨p, reached, live, ?_⟩
  obtain ⟨-, none, -⟩ | arena := (heap_kept (by decide) (by decide) reached).1
  · exact absurd (none.symm.trans live) (by decide)
  · exact arena

/-- The kernel's `sbrk`. -/
theorem sbrk_eq (k : Vm.Kernel) (m : Vm.Mem) (i : Vm.Image) (header : Nat → Header)
    (freep n : Nat) : Vm.sysSbrk k m i n = .ok (int32 (Heap.sbrk false ⟨header, freep, i.sz⟩ n).1,
      { i with sz := (Heap.sbrk false ⟨header, freep, i.sz⟩ n).2.brk }, m) := by
  have wraps : ((i.sz + n : Int) % 2 ^ 32).toNat = (i.sz + n) % 2 ^ 32 := by omega
  rw [Vm.sysSbrk, if_neg (by omega), wraps]
  rfl

end Runs
end Aso.Xv6.Umalloc
