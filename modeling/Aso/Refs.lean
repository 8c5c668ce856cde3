import Mathlib.Data.Fintype.BigOperators

/-! Reference counts. A finite family of slots names entries of a table; a
program that moves names between slots holds some of them in its own variables
meanwhile. What an entry stands for is acquired once, when it is attached, and
released once, when the entry lets go of it. -/
namespace Aso

/-- A total over part of a table of which one entry changes. -/
theorem sum_update_mem {ι β M : Type} [DecidableEq ι] [AddCommMonoid M] {s : Finset ι}
    (f : ι → β → M) (g : ι → β) {a : ι} (inside : a ∈ s) (new : β) :
    ∑ x ∈ s, f x (Function.update g a new x) + f a (g a) = ∑ x ∈ s, f x (g x) + f a new := by
  have others : ∑ x ∈ s.erase a, f x (Function.update g a new x) = ∑ x ∈ s.erase a, f x (g x) := by
    refine Finset.sum_congr rfl fun x member => ?_
    rw [Function.update_of_ne (Finset.ne_of_mem_erase member)]
  rw [← Finset.add_sum_erase s _ inside, ← Finset.add_sum_erase s
    (fun x => f x (g x)) inside, others, Function.update_self, add_assoc, add_comm,
    add_comm (∑ x ∈ _, _)]

/-- A total over a table of which one entry changes. -/
theorem sum_update {ι β M : Type} [Fintype ι] [DecidableEq ι] [AddCommMonoid M] (f : β → M)
    (g : ι → β) (a : ι) (new : β) :
    ∑ x, f (Function.update g a new x) + f (g a) = ∑ x, f (g x) + f new :=
  sum_update_mem (fun _ => f) g (Finset.mem_univ a) new

namespace Refs
variable {ι F : Type} [Fintype ι] [DecidableEq F]

/-- The number of slots that name an entry. -/
def refs (slot : ι → Option F) (f : F) : Nat := (Finset.univ.filter fun i => slot i = some f).card

theorem refs_eq_sum (slot : ι → Option F) (f : F) :
    refs slot f = ∑ i, if slot i = some f then 1 else 0 := by
  rw [refs, Finset.card_filter]

theorem refs_update [DecidableEq ι] (slot : ι → Option F) (i : ι) (v : Option F) (f : F) :
    refs (Function.update slot i v) f + (if slot i = some f then 1 else 0) =
      refs slot f + if v = some f then 1 else 0 := by
  rw [refs_eq_sum, refs_eq_sum]
  exact sum_update (fun name => if name = some f then 1 else 0) slot i v

theorem refs_pos_iff {slot : ι → Option F} {f : F} : 0 < refs slot f ↔ ∃ i, slot i = some f := by
  rw [refs, Finset.card_pos]
  constructor
  · rintro ⟨i, member⟩
    exact ⟨i, (Finset.mem_filter.mp member).2⟩
  · rintro ⟨i, named⟩
    exact ⟨i, Finset.mem_filter.mpr ⟨Finset.mem_univ i, named⟩⟩

/-- Every entry counts the slots and the variables that name it. -/
def Counted (slot : ι → Option F) (ref : F → Nat) (held : Multiset F) : Prop :=
  ∀ f, ref f = refs slot f + held.count f

namespace Counted
variable {slot : ι → Option F} {ref : F → Nat} {held : Multiset F} {f : F} {i : ι}

theorem empty : Counted (fun _ : ι => none) (fun _ : F => 0) 0 := by
  intro f
  rw [Multiset.count_zero, Nat.add_zero, eq_comm]
  refine Nat.eq_zero_of_not_pos fun some => ?_
  obtain ⟨i, wrong⟩ := refs_pos_iff.mp some
  cases wrong

theorem eq_refs (counted : Counted slot ref 0) (f : F) : ref f = refs slot f := by
  rw [counted f, Multiset.count_zero, Nat.add_zero]

theorem pos_of_slot (counted : Counted slot ref held) (named : slot i = some f) : 0 < ref f := by
  rw [counted f]
  exact Nat.add_pos_left (refs_pos_iff.mpr ⟨i, named⟩) _

theorem pos_of_held (counted : Counted slot ref held) (mine : f ∈ held) : 0 < ref f := by
  rw [counted f]
  exact Nat.add_pos_right _ (Multiset.count_pos.mpr mine)

theorem dup (counted : Counted slot ref held) (f : F) :
    Counted slot (Function.update ref f (ref f + 1)) (f ::ₘ held) := by
  intro g
  rw [Function.update_apply, Multiset.count_cons, counted g]
  split
  · next same =>
    rw [← same, counted g]
    omega
  · rfl

theorem drop (counted : Counted slot ref (f ::ₘ held)) :
    Counted slot (Function.update ref f (ref f - 1)) held := by
  intro g
  have before := counted g
  rw [Multiset.count_cons] at before
  rw [Function.update_apply]
  split
  · next same =>
    rw [if_pos same] at before
    rw [← same, before]
    omega
  · next other =>
    rw [if_neg other] at before
    exact before

/-- A variable's name moves into an empty slot. -/
theorem put [DecidableEq ι] (counted : Counted slot ref (f ::ₘ held)) (empty : slot i = none) :
    Counted (Function.update slot i (some f)) ref held := by
  intro g
  have moved := refs_update slot i (some f) g
  have before := counted g
  rw [Multiset.count_cons] at before
  simp only [empty, Option.some.injEq, reduceCtorEq, if_false, Nat.add_zero] at moved
  simp only [eq_comm (a := g)] at before
  omega

/-- A slot's name moves into a variable. -/
theorem take [DecidableEq ι] (counted : Counted slot ref held) (named : slot i = some f) :
    Counted (Function.update slot i none) ref (f ::ₘ held) := by
  intro g
  have moved := refs_update slot i none g
  have before := counted g
  rw [Multiset.count_cons]
  simp only [named, Option.some.injEq, reduceCtorEq, if_false, Nat.add_zero] at moved
  simp only [eq_comm (a := g)]
  omega

end Counted

/-- What was attached to entries, in order, and what was released, each
release with its place in that order. -/
structure Ledger (R : Type) where
  acquired : List R
  released : List (Nat × R)

/-- What is acquired and not released is behind exactly one entry. -/
structure Ledger.Sound {R : Type} (l : Ledger R) (behind : F → Option (Nat × R)) : Prop where
  attached : ∀ f t r, behind f = some (t, r) → l.acquired[t]? = some r
  apart : ∀ f g t q r, behind f = some (t, q) → behind g = some (t, r) → f = g
  once : (l.released.map Prod.fst).Nodup
  faithful : ∀ t r, (t, r) ∈ l.released → l.acquired[t]? = some r
  open_iff : ∀ t < l.acquired.length, t ∉ l.released.map Prod.fst ↔ ∃ f r, behind f = some (t, r)

namespace Ledger.Sound
variable {R : Type} {l : Ledger R} {behind : F → Option (Nat × R)} {f : F}

theorem attach (sound : l.Sound behind) (nothing : behind f = none) (r : R) :
    Ledger.Sound ⟨l.acquired ++ [r], l.released⟩
      (Function.update behind f (some (l.acquired.length, r))) := by
  have old {g : F} {t : Nat} {q : R} (here : behind g = some (t, q)) : t < l.acquired.length :=
    (List.getElem?_eq_some_iff.mp (sound.attached g t q here)).1
  have other {g : F} {t : Nat} {q : R} (here : behind g = some (t, q)) : g ≠ f := by
    rintro rfl
    exact nomatch nothing.symm.trans here
  constructor
  · intro g t q here
    rw [Function.update_apply] at here
    split at here
    · cases here
      exact List.getElem?_concat_length
    · rw [List.getElem?_append_left (old here)]
      exact sound.attached g t q here
  · intro g h t q q' first second
    rw [Function.update_apply] at first second
    split at first
    · next same =>
      cases first
      split at second
      · next same' => exact same.trans same'.symm
      · exact absurd (old second) (lt_irrefl _)
    · split at second
      · cases second
        exact absurd (old first) (lt_irrefl _)
      · exact sound.apart g h t q q' first second
  · exact sound.once
  · intro t q done
    have known := sound.faithful t q done
    rw [List.getElem?_append_left (List.getElem?_eq_some_iff.mp known).1]
    exact known
  · intro t bound
    rw [List.length_append, List.length_singleton, Nat.lt_succ_iff_lt_or_eq] at bound
    rcases bound with before | rfl
    · rw [sound.open_iff t before]
      constructor
      · rintro ⟨g, q, here⟩
        exact ⟨g, q, by rw [Function.update_of_ne (other here), here]⟩
      · rintro ⟨g, q, here⟩
        rw [Function.update_apply] at here
        split at here
        · cases here
          exact absurd before (lt_irrefl _)
        · exact ⟨g, q, here⟩
    · refine iff_of_true ?_ ⟨f, r, Function.update_self ..⟩
      intro done
      obtain ⟨⟨t, q⟩, done, rfl⟩ := List.mem_map.mp done
      exact absurd (List.getElem?_eq_some_iff.mp (sound.faithful _ q done)).1 (lt_irrefl _)

theorem detach {t : Nat} {r : R} (sound : l.Sound behind) (here : behind f = some (t, r)) :
    Ledger.Sound ⟨l.acquired, l.released ++ [(t, r)]⟩ (Function.update behind f none) := by
  have known := sound.attached f t r here
  have kept {g : F} {t' : Nat} {q : R} (there : Function.update behind f none g = some (t', q)) :
      g ≠ f ∧ behind g = some (t', q) := by
    rw [Function.update_apply] at there
    split at there
    · cases there
    · exact ⟨‹_›, there⟩
  constructor
  · intro g t' q there
    exact sound.attached g t' q (kept there).2
  · intro g h t' q q' first second
    exact sound.apart g h t' q q' (kept first).2 (kept second).2
  · rw [List.map_append, List.nodup_append]
    refine ⟨sound.once, List.nodup_singleton _, ?_⟩
    rintro t' done _ last rfl
    cases List.mem_singleton.mp last
    exact (sound.open_iff t (List.getElem?_eq_some_iff.mp known).1).mpr ⟨f, r, here⟩ done
  · intro t' q done
    rcases List.mem_append.mp done with before | last
    · exact sound.faithful t' q before
    · cases List.mem_singleton.mp last
      exact known
  · intro t' bound
    have before := sound.open_iff t' bound
    simp only [List.map_append, List.mem_append, not_or, before, List.map_cons, List.map_nil,
      List.mem_singleton]
    constructor
    · rintro ⟨⟨g, q, there⟩, apart⟩
      refine ⟨g, q, ?_⟩
      rw [Function.update_of_ne _, there]
      rintro rfl
      exact apart (Prod.mk.inj (Option.some.inj (there.symm.trans here))).1
    · rintro ⟨g, q, there⟩
      obtain ⟨other, there⟩ := kept there
      refine ⟨⟨g, q, there⟩, ?_⟩
      rintro rfl
      exact other (sound.apart g f t' q r there here)

end Ledger.Sound
end Refs
end Aso
