import Aso.Transition
import Mathlib.Order.Lattice

/-! A table of reusable slots. A worker reserves a free slot and fills it with a
new tenant; a tenant that leaves stores a last word in its slot and ends; a
worker that collects an ended tenant frees the slot first and reads the word
afterwards, when a later tenant may already hold the slot. Tenants are numbered
as they come, and `left` and `heard` record what each left and what was read. -/
namespace Aso.Slots
variable {ι ν ε σ : Type}

inductive Kind where
  | free | reserved | held | ended
  deriving DecidableEq

inductive Role (ι ν : Type) where
  | absent
  | working
  | filling (slot : ι)
  | leaving
  | gone
  | reading (slot : ι) (name : ν) (tenant : Nat)
  deriving DecidableEq

structure Heard (ν σ : Type) where
  tenant : Nat
  name : ν
  word : σ

structure State (ι ν ε σ : Type) where
  kind : ι → Kind
  role : ι → Role ι ν
  name : ι → ν
  word : ι → σ
  tenant : ι → Nat
  fresh : Nat
  left : Nat → Option ε
  heard : List (Heard ν σ)

inductive Event (ι ν ε : Type) where
  | reserve (p slot : ι) (name : ν)
  | abandon (p slot : ι)
  | fill (p slot : ι)
  | leave (p : ι) (record : ε)
  | finish (p : ι)
  | collect (p slot : ι) (name : ν)
  | read (p slot : ι) (name : ν) (tenant : Nat)

variable [DecidableEq ι] [DecidableEq ν]

/-- `word` is the part of a record that the slot can hold and `label` the name it was left under. -/
def step (word : ε → σ) (label : ε → ν) (s : State ι ν ε σ) : Event ι ν ε → Option (State ι ν ε σ)
  | .reserve p slot name =>
    if s.role p = .working ∧ s.kind slot = .free then
      some { s with
        kind := Function.update s.kind slot .reserved
        name := Function.update s.name slot name
        role := Function.update s.role p (.filling slot)
        tenant := Function.update s.tenant slot s.fresh
        fresh := s.fresh + 1 }
    else none
  | .abandon p slot =>
    if s.role p = .filling slot then
      some { s with
        kind := Function.update s.kind slot .free
        role := Function.update s.role p .working }
    else none
  | .fill p slot =>
    if s.role p = .filling slot then
      some { s with
        kind := Function.update s.kind slot .held
        role := Function.update (Function.update s.role slot .working) p .working }
    else none
  | .leave p record =>
    if s.role p = .working ∧ label record = s.name p then
      some { s with
        word := Function.update s.word p (word record)
        role := Function.update s.role p .leaving
        left := Function.update s.left (s.tenant p) (some record) }
    else none
  | .finish p =>
    if s.role p = .leaving then
      some { s with
        kind := Function.update s.kind p .ended
        role := Function.update s.role p .gone }
    else none
  | .collect p slot name =>
    if s.role p = .working ∧ s.kind slot = .ended then
      some { s with
        kind := Function.update s.kind slot .free
        name := Function.update s.name slot name
        role := Function.update (Function.update s.role slot .absent) p
          (.reading slot (s.name slot) (s.tenant slot)) }
    else none
  | .read p slot name tenant =>
    if s.role p = .reading slot name tenant then
      some { s with
        role := Function.update s.role p .working
        heard := s.heard ++ [⟨tenant, name, s.word slot⟩] }
    else none

/-- A tenant leaves another word than the one in its slot only while nobody is reading the slot. -/
def Undisturbed (word : ε → σ) (s : State ι ν ε σ) : Event ι ν ε → Prop
  | .leave p record => ∀ w name tenant, s.role w = .reading p name tenant → word record = s.word p
  | _ => True

/-- The tenant of the slot is at work and has not left anything. -/
def Role.present : Role ι ν → Bool
  | .working | .filling _ | .reading _ _ _ => true
  | _ => false

structure Inv (word : ε → σ) (label : ε → ν) (s : State ι ν ε σ) : Prop where
  distinct : Function.Injective s.tenant
  numbered : ∀ p, s.tenant p < s.fresh
  future : ∀ u, s.fresh ≤ u → s.left u = none
  empty : ∀ p, s.kind p = .free ∨ s.kind p = .reserved → s.role p = .absent
  ended : ∀ p, s.kind p = .ended → s.role p = .gone
  filled : ∀ p slot, s.role p = .filling slot →
    s.kind slot = .reserved ∧ s.left (s.tenant slot) = none
  sole : ∀ p q slot, s.role p = .filling slot → s.role q = .filling slot → p = q
  silent : ∀ p, (s.role p).present = true → s.left (s.tenant p) = none
  last : ∀ p, s.role p = .leaving ∨ s.role p = .gone →
    ∃ e, s.left (s.tenant p) = some e ∧ s.word p = word e ∧ s.name p = label e
  reads : ∀ w slot name u, s.role w = .reading slot name u →
    ∃ e, s.left u = some e ∧ s.word slot = word e ∧ name = label e
  told : ∀ r ∈ s.heard, ∃ e, s.left r.tenant = some e ∧ r.word = word e ∧ r.name = label e

variable {word : ε → σ} {label : ε → ν} {s t : State ι ν ε σ} {e : Event ι ν ε}

namespace Inv
variable {p slot : ι} {name : ν} {u : Nat} {record : ε}

theorem reserve (inv : Inv word label s) (working : s.role p = .working)
    (free : s.kind slot = .free) (moved : step word label s (.reserve p slot name) = some t) :
    Inv word label t := by
  simp only [step, working, free, and_self, if_true, Option.some.injEq] at moved
  subst t
  have vacant := inv.empty slot (.inl free)
  obtain ⟨distinct, numbered, future, empty, ended, filled, sole, silent, last, reads, told⟩ := inv
  constructor
  case distinct =>
    intro a b same
    simp only [Function.update_apply] at same
    grind -ring -linarith -order
  case told => exact told
  all_goals grind -ring -linarith -order [Function.update_apply, Role.present]

theorem abandon (inv : Inv word label s) (filling : s.role p = .filling slot)
    (moved : step word label s (.abandon p slot) = some t) : Inv word label t := by
  simp only [step, filling, if_true, Option.some.injEq] at moved
  subst t
  obtain ⟨reserved, -⟩ := inv.filled p slot filling
  have vacant := inv.empty slot (.inr reserved)
  obtain ⟨distinct, numbered, future, empty, ended, filled, sole, silent, last, reads, told⟩ := inv
  constructor
  case distinct => exact distinct
  case told => exact told
  all_goals grind -ring -linarith -order [Function.update_apply, Role.present]

theorem fill (inv : Inv word label s) (filling : s.role p = .filling slot)
    (moved : step word label s (.fill p slot) = some t) : Inv word label t := by
  simp only [step, filling, if_true, Option.some.injEq] at moved
  subst t
  obtain ⟨reserved, nothing⟩ := inv.filled p slot filling
  have vacant := inv.empty slot (.inr reserved)
  obtain ⟨distinct, numbered, future, empty, ended, filled, sole, silent, last, reads, told⟩ := inv
  constructor
  case distinct => exact distinct
  case told => exact told
  all_goals grind -ring -linarith -order [Function.update_apply, Role.present]

/-- The tenant that leaves had left nothing before, so no record is lost. -/
theorem leave (inv : Inv word label s) (working : s.role p = .working)
    (named : label record = s.name p) (quiet : Undisturbed word s (.leave p record))
    (moved : step word label s (.leave p record) = some t) : Inv word label t := by
  simp only [step, working, named, and_self, if_true, Option.some.injEq] at moved
  subst t
  have nothing := inv.silent p (by simp [working, Role.present])
  obtain ⟨distinct, numbered, future, empty, ended, filled, sole, silent, last, reads, told⟩ := inv
  have other (q : ι) (ne : q ≠ p) : s.tenant q ≠ s.tenant p := fun same => ne (distinct same)
  have old (v : Nat) (e : ε) (known : s.left v = some e) : v ≠ s.tenant p := by
    rintro rfl
    simp [nothing] at known
  simp only [Undisturbed] at quiet
  constructor
  case distinct => exact distinct
  all_goals grind -ring -linarith -order [Function.update_apply, Role.present]

theorem finish (inv : Inv word label s) (leaving : s.role p = .leaving)
    (moved : step word label s (.finish p) = some t) : Inv word label t := by
  simp only [step, leaving, if_true, Option.some.injEq] at moved
  subst t
  obtain ⟨distinct, numbered, future, empty, ended, filled, sole, silent, last, reads, told⟩ := inv
  constructor
  case distinct => exact distinct
  case told => exact told
  all_goals grind -ring -linarith -order [Function.update_apply, Role.present]

theorem collect (inv : Inv word label s) (working : s.role p = .working)
    (finished : s.kind slot = .ended) (moved : step word label s (.collect p slot name) = some t) :
    Inv word label t := by
  simp only [step, working, finished, and_self, if_true, Option.some.injEq] at moved
  subst t
  have dead := inv.ended slot finished
  obtain ⟨distinct, numbered, future, empty, ended, filled, sole, silent, last, reads, told⟩ := inv
  constructor
  case distinct => exact distinct
  case told => exact told
  all_goals grind -ring -linarith -order [Function.update_apply, Role.present]

theorem read (inv : Inv word label s) (reading : s.role p = .reading slot name u)
    (moved : step word label s (.read p slot name u) = some t) : Inv word label t := by
  simp only [step, reading, if_true, Option.some.injEq] at moved
  subst t
  obtain ⟨e, known, kept, labelled⟩ := inv.reads p slot name u reading
  obtain ⟨distinct, numbered, future, empty, ended, filled, sole, silent, last, reads, told⟩ := inv
  constructor
  case distinct => exact distinct
  case told =>
    intro r member
    obtain earlier | rfl := by simpa using member
    · exact told r earlier
    · exact ⟨e, known, kept, labelled⟩
  all_goals grind -ring -linarith -order [Function.update_apply, Role.present]

end Inv

theorem inv_step (inv : Inv word label s) (quiet : Undisturbed word s e)
    (moved : step word label s e = some t) : Inv word label t := by
  have taken := moved
  cases e with
  | reserve p slot name =>
    simp only [step, Option.ite_none_right_eq_some] at taken
    exact inv.reserve taken.1.1 taken.1.2 moved
  | abandon p slot =>
    simp only [step, Option.ite_none_right_eq_some] at taken
    exact inv.abandon taken.1 moved
  | fill p slot =>
    simp only [step, Option.ite_none_right_eq_some] at taken
    exact inv.fill taken.1 moved
  | leave p record =>
    simp only [step, Option.ite_none_right_eq_some] at taken
    exact inv.leave taken.1.1 taken.1.2 quiet moved
  | finish p =>
    simp only [step, Option.ite_none_right_eq_some] at taken
    exact inv.finish taken.1 moved
  | collect p slot name =>
    simp only [step, Option.ite_none_right_eq_some] at taken
    exact inv.collect taken.1.1 taken.1.2 moved
  | read p slot name tenant =>
    simp only [step, Option.ite_none_right_eq_some] at taken
    exact inv.read taken.1 moved

/-- What was read of a tenant is what this tenant left. -/
theorem heard_left {events : List (Event ι ν ε)} (initial : Inv word label s)
    (quiet : Transition.Along (step word label) (Undisturbed word) s events)
    (reached : Transition.run (step word label) s events = some t) {r : Heard ν σ}
    (told : r ∈ t.heard) : ∃ e, t.left r.tenant = some e ∧ r.word = word e ∧ r.name = label e :=
  (Transition.invariant_along (fun _ _ _ => inv_step) quiet reached initial).told r told

/-- The same table seen through a function of the words. -/
def State.mapWord {τ : Type} (f : σ → τ) (s : State ι ν ε σ) : State ι ν ε τ where
  kind := s.kind
  role := s.role
  name := s.name
  word := f ∘ s.word
  tenant := s.tenant
  fresh := s.fresh
  left := s.left
  heard := s.heard.map fun r => ⟨r.tenant, r.name, f r.word⟩

theorem step_mapWord {τ : Type} (f : σ → τ) (moved : step word label s e = some t) :
    step (f ∘ word) label (s.mapWord f) e = some (t.mapWord f) := by
  cases e <;> simp only [step, Option.ite_none_right_eq_some, Option.some.injEq] at moved <;>
    obtain ⟨enabled, rfl⟩ := moved <;> simp only [step, State.mapWord, enabled, and_self, if_true]
  case leave p record => rw [Function.comp_update, Function.comp_apply]
  case read p slot name tenant => simp

omit [DecidableEq ι] [DecidableEq ν] in
theorem Inv.mapWord {τ : Type} (f : σ → τ) (inv : Inv word label s) :
    Inv (f ∘ word) label (s.mapWord f) := by
  obtain ⟨distinct, numbered, future, empty, ended, filled, sole, silent, last, reads, told⟩ := inv
  refine ⟨distinct, numbered, future, empty, ended, filled, sole, silent, ?_, ?_, ?_⟩
  · intro p settled
    obtain ⟨e, left, stored, named⟩ := last p settled
    exact ⟨e, left, congrArg f stored, named⟩
  · intro w slot name u reading
    obtain ⟨e, left, stored, named⟩ := reads w slot name u reading
    exact ⟨e, left, congrArg f stored, named⟩
  · intro _ mapped
    obtain ⟨r, member, rfl⟩ := List.mem_map.mp mapped
    obtain ⟨e, left, stored, named⟩ := told r member
    exact ⟨e, left, congrArg f stored, named⟩

/-- A tenant that has left is in one place: still in its slot, being read by
one worker, or read once. -/
structure Once (s : State ι ν ε σ) : Prop where
  somewhere :
    ∀ u, s.left u ≠ none → (∃ p, s.tenant p = u ∧ (s.role p = .leaving ∨ s.role p = .gone)) ∨
    (∃ w slot name, s.role w = .reading slot name u) ∨ u ∈ s.heard.map Heard.tenant
  waits : ∀ p, s.role p = .leaving ∨ s.role p = .gone →
    s.tenant p ∉ s.heard.map Heard.tenant ∧
    ∀ w slot name, s.role w ≠ .reading slot name (s.tenant p)
  reader : ∀ w w' slot slot' name name' u,
    s.role w = .reading slot name u → s.role w' = .reading slot' name' u → w = w'
  unread : ∀ w slot name u, s.role w = .reading slot name u → u ∉ s.heard.map Heard.tenant
  once : (s.heard.map Heard.tenant).Nodup
  ended : ∀ p, s.role p = .gone → s.kind p = .ended

omit [DecidableEq ι] [DecidableEq ν] in
theorem Inv.once_of_fresh (inv : Inv word label s) (nobody : ∀ u, s.left u = none) : Once s := by
  have unheard : s.heard = [] := by
    apply List.eq_nil_iff_forall_not_mem.mpr
    intro r told
    obtain ⟨e, left, -⟩ := inv.told r told
    exact nomatch (nobody _).symm.trans left
  have unread {w slot : ι} {name : ν} {u : Nat}
      (reading : s.role w = .reading slot name u) : False := by
    obtain ⟨e, left, -⟩ := inv.reads w slot name u reading
    exact nomatch (nobody u).symm.trans left
  rw [List.eq_nil_iff_forall_not_mem] at unheard
  constructor
  · intro u gone
    exact absurd (nobody u) gone
  · intro p settled
    obtain ⟨e, left, -⟩ := inv.last p settled
    exact nomatch (nobody _).symm.trans left
  · intro w w' slot slot' name name' u reading
    exact (unread reading).elim
  · intro w slot name u reading
    exact (unread reading).elim
  · rw [List.eq_nil_iff_forall_not_mem.mpr unheard]
    exact List.Pairwise.nil
  · intro p gone
    obtain ⟨e, left, -⟩ := inv.last p (.inr gone)
    exact nomatch (nobody _).symm.trans left

/-- A tenant with this role has left. -/
def Role.settled : Role ι ν → Bool
  | .leaving | .gone | .reading _ _ _ => true
  | _ => false

namespace Once
variable {p slot : ι} {name : ν} {u : Nat}

omit [DecidableEq ι] [DecidableEq ν] in
/-- Only the tenants that have left, and where they are, matter. -/
theorem of_settled (once : Once s) (left : t.left = s.left) (heard : t.heard = s.heard)
    (same : ∀ p, (s.role p).settled = true ∨ (t.role p).settled = true →
      t.role p = s.role p ∧ t.tenant p = s.tenant p)
    (kind : ∀ p, s.role p = .gone → t.kind p = s.kind p) : Once t := by
  have was {p : ι} (now : (t.role p).settled = true) := same p (.inr now)
  constructor
  · intro u gone
    rw [left] at gone
    rw [heard]
    rcases once.somewhere u gone with ⟨p, rfl, role⟩ | ⟨w, slot, name, reading⟩ | told
    · obtain ⟨roles, tenants⟩ :=
        same p (.inl (by rcases role with role | role <;> rw [role] <;> rfl))
      exact .inl ⟨p, tenants, roles ▸ role⟩
    · obtain ⟨roles, -⟩ := same w (.inl (by rw [reading]; rfl))
      exact .inr (.inl ⟨w, slot, name, roles ▸ reading⟩)
    · exact .inr (.inr told)
  · intro p role
    obtain ⟨roles, tenants⟩ := was (p := p) (by rcases role with role | role <;> rw [role] <;> rfl)
    obtain ⟨unheard, unread⟩ := once.waits p (roles ▸ role)
    rw [heard, tenants]
    refine ⟨unheard, fun w slot name reading => ?_⟩
    exact unread w slot name ((was (by rw [reading]; rfl)).1 ▸ reading)
  · intro w w' slot slot' name name' u first second
    exact once.reader w w' slot slot' name name' u ((was (by rw [first]; rfl)).1 ▸ first)
      ((was (by rw [second]; rfl)).1 ▸ second)
  · intro w slot name u reading
    rw [heard]
    exact once.unread w slot name u ((was (by rw [reading]; rfl)).1 ▸ reading)
  · rw [heard]
    exact once.once
  · intro p gone
    have before := (was (by rw [gone]; rfl)).1 ▸ gone
    rw [kind p before]
    exact once.ended p before

omit [DecidableEq ν] in
/-- A tenant that leaves was not read before: what was read has been left. -/
theorem leave {record : ε} (inv : Inv word label s) (once : Once s)
    (working : s.role p = .working) : Once { s with
      word := Function.update s.word p (word record)
      role := Function.update s.role p .leaving
      left := Function.update s.left (s.tenant p) (some record) } := by
  have nothing := inv.silent p (by simp [working, Role.present])
  have unheard : s.tenant p ∉ s.heard.map Heard.tenant := by
    intro told
    obtain ⟨r, told, same⟩ := List.mem_map.mp told
    obtain ⟨e, left, -⟩ := inv.told r told
    rw [same, nothing] at left
    cases left
  have unread (w slot : ι) (name : ν) : s.role w ≠ .reading slot name (s.tenant p) := by
    intro reading
    obtain ⟨e, left, -⟩ := inv.reads w slot name _ reading
    exact nomatch nothing.symm.trans left
  obtain ⟨somewhere, waits, reader, unread', nodup, ended⟩ := once
  refine ⟨?_, ?_, ?_, ?_, nodup, ?_⟩
  · intro u gone
    dsimp only at gone ⊢
    by_cases mine : u = s.tenant p
    · exact .inl ⟨p, mine.symm, .inl (Function.update_self ..)⟩
    · rw [Function.update_of_ne mine] at gone
      rcases somewhere u gone with ⟨q, rfl, role⟩ | ⟨w, slot, name, reading⟩ | told
      · have other : q ≠ p := fun same => mine (same ▸ rfl)
        exact .inl ⟨q, rfl, by rwa [Function.update_of_ne other]⟩
      · have other : w ≠ p := by
          rintro rfl
          exact nomatch working.symm.trans reading
        exact .inr (.inl ⟨w, slot, name, by rwa [Function.update_of_ne other]⟩)
      · exact .inr (.inr told)
  all_goals grind -ring -linarith -order [Function.update_apply]

omit [DecidableEq ν] in
theorem finish (once : Once s) (leaving : s.role p = .leaving) :
    Once { s with
      kind := Function.update s.kind p .ended
      role := Function.update s.role p .gone } := by
  obtain ⟨somewhere, waits, reader, unread, nodup, ended⟩ := once
  refine ⟨?_, ?_, ?_, ?_, nodup, ?_⟩
  · intro u gone
    dsimp only
    rcases somewhere u gone with ⟨q, rfl, role⟩ | ⟨w, slot, name, reading⟩ | told
    · refine .inl ⟨q, rfl, ?_⟩
      rw [Function.update_apply]
      split
      · exact .inr rfl
      · exact role
    · have other : w ≠ p := by
        rintro rfl
        exact nomatch leaving.symm.trans reading
      exact .inr (.inl ⟨w, slot, name, by rwa [Function.update_of_ne other]⟩)
    · exact .inr (.inr told)
  all_goals grind -ring -linarith -order [Function.update_apply]

omit [DecidableEq ν] in
/-- Who reads after a tenant has been collected. -/
theorem reading_collect {q there : ι} {n : ν} {v : Nat}
    (now : Function.update (Function.update s.role slot .absent) p
      (.reading slot (s.name slot) (s.tenant slot)) q = .reading there n v) :
    (q = p ∧ there = slot ∧ n = s.name slot ∧ v = s.tenant slot) ∨
      s.role q = .reading there n v := by
  rw [Function.update_apply] at now
  split at now
  · next mine =>
    cases now
    exact .inl ⟨mine, rfl, rfl, rfl⟩
  · rw [Function.update_apply] at now
    split at now
    · cases now
    · exact .inr now

omit [DecidableEq ν] in
theorem collect (inv : Inv word label s) (once : Once s) (working : s.role p = .working)
    (finished : s.kind slot = .ended) :
    Once { s with
      kind := Function.update s.kind slot .free
      name := Function.update s.name slot name
      role := Function.update (Function.update s.role slot .absent) p
        (.reading slot (s.name slot) (s.tenant slot)) } := by
  have dead := inv.ended slot finished
  obtain ⟨somewhere, waits, reader, unread, nodup, ended⟩ := once
  have mine := waits slot (.inr dead)
  refine ⟨?_, ?_, ?_, ?_, nodup, ?_⟩
  · intro u gone
    dsimp only
    rcases somewhere u gone with ⟨q, rfl, role⟩ | ⟨w, there, name, reading⟩ | told
    · have other : q ≠ p := by
        rintro rfl
        rcases role with role | role <;> exact nomatch working.symm.trans role
      by_cases here : q = slot
      · subst here
        exact .inr (.inl ⟨p, q, s.name q, Function.update_self ..⟩)
      · refine .inl ⟨q, rfl, ?_⟩
        rwa [Function.update_of_ne other, Function.update_of_ne here]
    · have other : w ≠ p := by
        rintro rfl
        exact nomatch working.symm.trans reading
      have apart : w ≠ slot := by
        rintro rfl
        exact nomatch dead.symm.trans reading
      exact .inr
        (.inl ⟨w, there, name, by rwa [Function.update_of_ne other, Function.update_of_ne apart]⟩)
    · exact .inr (.inr told)
  · intro q role
    dsimp only at role
    have kept : q ≠ slot ∧ (s.role q = .leaving ∨ s.role q = .gone) := by
      grind -ring -linarith -order [Function.update_apply]
    obtain ⟨unheard, unread⟩ := waits q kept.2
    refine ⟨unheard, fun w there n now => ?_⟩
    rcases reading_collect now with ⟨-, -, -, same⟩ | before
    · exact kept.1 (inv.distinct same)
    · exact unread w there n before
  · intro w w' there there' n n' v first second
    rcases reading_collect first with ⟨rfl, -, -, rfl⟩ | before <;>
      rcases reading_collect second with ⟨rfl, -, -, same⟩ | before'
    · rfl
    · exact absurd before' (mine.2 w' there' n')
    · exact absurd (same ▸ before) (mine.2 w there n)
    · exact reader w w' there there' n n' v before before'
  · intro w there n v now
    rcases reading_collect now with ⟨-, -, -, rfl⟩ | before
    · exact mine.1
    · exact unread w there n v before
  · grind -ring -linarith -order [Function.update_apply]

omit [DecidableEq ν] in
theorem read {w : σ} (once : Once s) (reading : s.role p = .reading slot name u) :
    Once { s with
      role := Function.update s.role p .working
      heard := s.heard ++ [⟨u, name, w⟩] } := by
  have new := once.unread p slot name u reading
  obtain ⟨somewhere, waits, reader, unread, nodup, ended⟩ := once
  constructor <;> simp only [List.map_append, List.map_cons, List.map_nil, List.mem_append,
    List.mem_singleton]
  · intro v gone
    rcases somewhere v gone with ⟨q, rfl, role⟩ | ⟨w, there, name, there'⟩ | told
    · have other : q ≠ p := by
        rintro rfl
        rcases role with role | role <;> exact nomatch reading.symm.trans role
      exact .inl ⟨q, rfl, by rwa [Function.update_of_ne other]⟩
    · by_cases mine : w = p
      · subst mine
        cases reading.symm.trans there'
        exact .inr (.inr (.inr rfl))
      · exact .inr (.inl ⟨w, there, name, by rwa [Function.update_of_ne mine]⟩)
    · exact .inr (.inr (.inl told))
  · grind -ring -linarith -order [Function.update_apply]
  · grind -ring -linarith -order [Function.update_apply]
  · grind -ring -linarith -order [Function.update_apply]
  · rw [List.nodup_append]
    refine ⟨nodup, by simp, ?_⟩
    rintro v told _ last rfl
    exact new (List.mem_singleton.mp last ▸ told)
  · grind -ring -linarith -order [Function.update_apply]

end Once

theorem once_step (inv : Inv word label s) (once : Once s) (moved : step word label s e = some t) :
    Once t := by
  cases e <;> simp only [step, Option.ite_none_right_eq_some, Option.some.injEq] at moved <;>
    obtain ⟨enabled, rfl⟩ := moved
  case reserve p slot name =>
    have vacant := inv.empty slot (.inl enabled.2)
    exact once.of_settled rfl rfl (by grind -ring -linarith -order [Function.update_apply,
      Role.settled]) (by grind [Function.update_apply])
  case abandon p slot =>
    have vacant := inv.empty slot (.inr (inv.filled p slot enabled).1)
    exact once.of_settled rfl rfl (by grind -ring -linarith -order [Function.update_apply,
      Role.settled]) (by grind [Function.update_apply])
  case fill p slot =>
    have vacant := inv.empty slot (.inr (inv.filled p slot enabled).1)
    exact once.of_settled rfl rfl (by grind -ring -linarith -order [Function.update_apply,
      Role.settled]) (by grind [Function.update_apply])
  case leave p record => exact once.leave inv enabled.1
  case finish p => exact once.finish enabled
  case collect p slot name => exact once.collect inv enabled.1 enabled.2
  case read p slot name tenant => exact once.read enabled

/-- A worker starts to read a tenant only by collecting it. -/
theorem reading_step {w slot : ι} {name : ν} {u : Nat} (moved : step word label s e = some t)
    (reading : t.role w = .reading slot name u) :
    s.role w = .reading slot name u ∨ ∃ n, e = .collect w slot n ∧ s.name slot = name ∧
      s.tenant slot = u := by
  cases e <;> simp only [step, Option.ite_none_right_eq_some, Option.some.injEq] at moved <;>
    obtain ⟨enabled, rfl⟩ := moved
  case collect p there n =>
    rcases Once.reading_collect reading with ⟨rfl, rfl, rfl, rfl⟩ | before
    · exact .inr ⟨n, rfl, rfl, rfl⟩
    · exact .inl before
  all_goals grind -ring -linarith -order [Function.update_apply]

end Aso.Slots
