import Mathlib.Algebra.BigOperators.Ring.Finset

/-! Circular lists in address order, and blocks that tile a region. Nodes and blocks
are named by their addresses. -/
namespace Aso
open Function

/-- In the circular list of the nodes in `A` the node after `a` is `b`: the next one above
it, or `base` if there is none above it. -/
def Follows (base : Nat) (A : Finset Nat) (a b : Nat) : Prop :=
  b ∈ A ∧ (a < b ∨ b = base) ∧ ∀ c ∈ A, c ≤ a ∨ a < b ∧ b ≤ c

/-- The pointers link the nodes of `A` in address order, the last one back to the first. -/
structure Circular (base : Nat) (next : Nat → Nat) (A : Finset Nat) : Prop where
  first : base ∈ A
  least : ∀ a ∈ A, base ≤ a
  follows : ∀ a ∈ A, Follows base A a (next a)

namespace Circular
variable {base : Nat} {next : Nat → Nat} {A : Finset Nat} {a b f p x t N : Nat}

theorem mem (ring : Circular base next A) (member : a ∈ A) : next a ∈ A := (ring.follows a member).1

theorem congr {next' : Nat → Nat} (ring : Circular base next A) (same : ∀ a ∈ A, next' a = next a) :
    Circular base next' A :=
  ⟨ring.first, ring.least, fun a member => same a member ▸ ring.follows a member⟩

/-- Where `x` belongs: after `p`, which is below it, and before the node after `p` if that
is above `p`. -/
def Place (next : Nat → Nat) (p x : Nat) : Prop := p < x ∧ (x < next p ∨ next p ≤ p)

theorem insert (ring : Circular base next A) (member : p ∈ A) (place : Place next p x) :
    Circular base (update (update next x (next p)) p x) (insert x A) := by
  obtain ⟨above, below⟩ := place
  have low := ring.least p member
  obtain ⟨after, order, gap⟩ := ring.follows p member
  refine ⟨Finset.mem_insert_of_mem ring.first, fun a inside => ?_, fun a inside => ?_⟩
  · obtain rfl | inside := Finset.mem_insert.mp inside
    · omega
    · exact ring.least a inside
  by_cases here : a = p
  · subst here
    rw [update_self]
    refine ⟨Finset.mem_insert_self x A, .inl above, fun c other => ?_⟩
    obtain rfl | other := Finset.mem_insert.mp other
    · exact .inr ⟨above, le_rfl⟩
    · have := gap c other
      omega
  rw [update_of_ne here]
  by_cases new : a = x
  · subst new
    rw [update_self]
    refine ⟨Finset.mem_insert_of_mem after, by omega, fun c other => ?_⟩
    obtain rfl | other := Finset.mem_insert.mp other
    · exact .inl le_rfl
    · have := gap c other
      omega
  rw [update_of_ne new]
  have old := Finset.mem_of_mem_insert_of_ne inside new
  obtain ⟨after, order, others⟩ := ring.follows a old
  refine ⟨Finset.mem_insert_of_mem after, order, fun c other => ?_⟩
  obtain rfl | other := Finset.mem_insert.mp other
  · have := gap a old
    have := others p member
    omega
  · exact others c other

/-- The node after `p` is taken out. -/
theorem erase (ring : Circular base next A) (member : p ∈ A) (inner : next p ≠ base) :
    Circular base (update next p (next (next p))) (A.erase (next p)) := by
  obtain ⟨after, order, gap⟩ := ring.follows p member
  obtain ⟨second, order', gap'⟩ := ring.follows (next p) after
  refine ⟨Finset.mem_erase.mpr ⟨inner.symm, ring.first⟩,
    fun a inside => ring.least a (Finset.mem_of_mem_erase inside), fun a inside => ?_⟩
  obtain ⟨other, inside⟩ := Finset.mem_erase.mp inside
  by_cases here : a = p
  · subst here
    rw [update_self]
    refine ⟨Finset.mem_erase.mpr ⟨by omega, second⟩, by omega, fun c kept => ?_⟩
    obtain ⟨different, kept⟩ := Finset.mem_erase.mp kept
    have := gap c kept
    have := gap' c kept
    omega
  · rw [update_of_ne here]
    obtain ⟨next', order'', others⟩ := ring.follows a inside
    refine ⟨Finset.mem_erase.mpr ⟨fun same => ?_, next'⟩, order'',
      fun c kept => others c (Finset.mem_of_mem_erase kept)⟩
    have := others p member
    have := gap a inside
    omega

/-- How far it is from `x` up to `t`, past the end at `N`
and from 0 again if `t` is not above `x`. -/
def gap (N t x : Nat) : Nat := if x < t then t - x else N - x + t

theorem gap_le (below : t ≤ N) : gap N t x ≤ 2 * N := by
  unfold gap
  split <;> omega

/-- As long as a walk has not come to `t` it gets nearer to it. -/
theorem gap_next (ring : Circular base next A) (bound : ∀ a ∈ A, a < N) (member : a ∈ A)
    (low : base ≤ t) (outside : ¬ (a < t ∧ (t < next a ∨ next a ≤ a))) (other : next a ≠ t) :
    gap N t (next a) < gap N t a := by
  have below := bound a member
  have := bound _ (ring.mem member)
  obtain ⟨-, order, -⟩ := ring.follows a member
  unfold gap
  split <;> split <;> omega

theorem gap_next_mem (ring : Circular base next A) (bound : ∀ a ∈ A, a < N) (member : a ∈ A)
    (target : t ∈ A) (other : next a ≠ t) : gap N t (next a) < gap N t a := by
  refine ring.gap_next bound member (ring.least t target) (fun here => ?_) other
  have := (ring.follows a member).2.2 t target
  omega

/-- The node `f` comes after `a` and not after `t` on the way around. -/
def Ahead (t a f : Nat) : Prop := if a < t then a < f ∧ f ≤ t else a < f ∨ f ≤ t

theorem ahead_self (t f : Nat) : Ahead t t f := by
  unfold Ahead
  split <;> omega

theorem ahead_next (ring : Circular base next A) (ahead : Ahead t a f) (member : a ∈ A)
    (target : t ∈ A) (found : f ∈ A) (other : next a ≠ f) : next a ≠ t ∧ Ahead t (next a) f := by
  obtain ⟨-, order, others⟩ := ring.follows a member
  have := others t target
  have := others f found
  have := ring.least f found
  have := ring.least t target
  unfold Ahead at *
  split at ahead <;> split <;> omega

end Circular

/-- Blocks, each with its length, that fill the region from `start` to `stop`. -/
structure Tiling (start stop : Nat) (len : Nat → Nat) (B : Finset Nat) : Prop where
  inside : ∀ a ∈ B, start ≤ a ∧ 0 < len a ∧ a + len a ≤ stop
  apart : ∀ a ∈ B, ∀ b ∈ B, a < b → a + len a ≤ b
  total : start + ∑ a ∈ B, len a = stop

namespace Tiling
variable {start stop : Nat} {len len' : Nat → Nat} {B : Finset Nat} {a b n : Nat}

theorem empty : Tiling start start len ∅ := ⟨by simp, by simp, rfl⟩

theorem congr (tiling : Tiling start stop len B) (same : ∀ a ∈ B, len' a = len a) :
    Tiling start stop len' B := by
  refine ⟨fun a member => ?_, fun a member b other => ?_, ?_⟩
  · rw [same a member]
    exact tiling.inside a member
  · rw [same a member]
    exact tiling.apart a member b other
  · rw [Finset.sum_congr rfl same]
    exact tiling.total

/-- A block and the one right after it become one. -/
theorem merge (tiling : Tiling start stop len B) (first : a ∈ B) (second : b ∈ B)
    (adjacent : a + len a = b) : Tiling start stop (update len a (len a + len b)) (B.erase b) := by
  have here := tiling.inside a first
  have there := tiling.inside b second
  refine ⟨fun c kept => ?_, fun c kept d other order => ?_, ?_⟩
  · have member := Finset.mem_of_mem_erase kept
    by_cases grown : c = a
    · subst grown
      rw [update_self]
      omega
    · rw [update_of_ne grown]
      exact tiling.inside c member
  · have member := Finset.mem_of_mem_erase kept
    obtain ⟨different, other⟩ := Finset.mem_erase.mp other
    have := tiling.apart c member d other order
    by_cases grown : c = a
    · subst grown
      rw [update_self]
      have := tiling.apart b second d other (by omega)
      omega
    · rwa [update_of_ne grown]
  · have kept : a ∈ B.erase b := Finset.mem_erase.mpr ⟨by omega, first⟩
    have := tiling.total
    have := Finset.add_sum_erase B len second
    have := Finset.add_sum_erase (B.erase b) len kept
    rw [Finset.sum_update_of_mem kept, Finset.sdiff_singleton_eq_erase]
    omega

/-- The end of a block becomes a block of its own. -/
theorem split (tiling : Tiling start stop len B) (member : a ∈ B) (some : 0 < n)
    (part : n < len a) : a + (len a - n) ∉ B ∧
      Tiling start stop (update (update len a (len a - n)) (a + (len a - n)) n)
      (insert (a + (len a - n)) B) := by
  have here := tiling.inside a member
  have new : a + (len a - n) ∉ B := fun old => by
    have := tiling.apart a member _ old (by omega)
    omega
  have other : a + (len a - n) ≠ a := by omega
  refine ⟨new, fun c inside => ?_, fun c inside d inside' order => ?_, ?_⟩
  · obtain rfl | old := Finset.mem_insert.mp inside
    · rw [update_self]
      omega
    · rw [update_of_ne (ne_of_mem_of_not_mem old new)]
      have := tiling.inside c old
      by_cases cut : c = a
      · subst cut
        rw [update_self]
        omega
      · rwa [update_of_ne cut]
  · obtain rfl | old := Finset.mem_insert.mp inside
    · obtain rfl | old' := Finset.mem_insert.mp inside'
      · omega
      · have := tiling.apart a member d old' (by omega)
        rw [update_self]
        omega
    · rw [update_of_ne (ne_of_mem_of_not_mem old new)]
      have shorter : update len a (len a - n) c ≤ len c :=
        update_le_iff.mpr ⟨by omega, fun _ _ => le_rfl⟩ c
      obtain rfl | old' := Finset.mem_insert.mp inside'
      · by_cases cut : c = a
        · subst cut
          rw [update_self]
        · have : c < a := by
            by_contra above
            have := tiling.apart a member c old (by omega)
            omega
          have := tiling.apart c old a member this
          omega
      · have := tiling.apart c old d old' order
        omega
  · have := tiling.total
    have := Finset.add_sum_erase B len member
    rw [Finset.sum_insert new, update_self, Finset.sum_update_of_notMem new,
      Finset.sum_update_of_mem member, Finset.sdiff_singleton_eq_erase]
    omega

/-- The region grows by a block. -/
theorem grow (tiling : Tiling start stop len B) (some : 0 < n) :
    stop ∉ B ∧ Tiling start (stop + n) (update len stop n) (insert stop B) := by
  have low : start ≤ stop := tiling.total ▸ Nat.le_add_right ..
  have below {a : Nat} (member : a ∈ B) : a < stop := by
    have := tiling.inside a member
    omega
  have new : stop ∉ B := fun member => lt_irrefl _ (below member)
  refine ⟨new, fun a inside => ?_, fun a inside b inside' order => ?_, ?_⟩
  · obtain rfl | old := Finset.mem_insert.mp inside
    · rw [update_self]
      omega
    · have := tiling.inside a old
      rw [update_of_ne (below old).ne]
      omega
  · obtain rfl | old := Finset.mem_insert.mp inside
    · obtain rfl | old' := Finset.mem_insert.mp inside'
      · omega
      · have := below old'
        omega
    · rw [update_of_ne (below old).ne]
      obtain rfl | old' := Finset.mem_insert.mp inside'
      · exact (tiling.inside a old).2.2
      · exact tiling.apart a old b old' order
  · rw [Finset.sum_insert new, update_self, Finset.sum_update_of_notMem new]
    have := tiling.total
    omega

end Tiling
end Aso
