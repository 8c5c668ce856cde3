import Aso.Slots

/-! A tree over reusable slots. A worker names itself the parent of a slot it
has reserved before the tenant moves in; the children of a tenant that ends go
to the root, which never ends. So no parent is ever gone. -/
namespace Aso.Lineage
open Slots (Kind)
variable {ι : Type} [DecidableEq ι]

/-- `starting p` is the slot whose parent `p` has made itself and that nobody lives in yet. -/
structure Tree (ι : Type) where
  kind : ι → Kind
  parent : ι → Option ι
  starting : ι → Option ι
  root : ι

structure Inv (t : Tree ι) : Prop where
  orphan : ∀ q, t.kind q = .free → t.parent q = none
  embryo : ∀ q p, t.kind q = .reserved → t.parent q = some p → t.starting p = some q
  named : ∀ p q, t.starting p = some q → t.kind q = .reserved ∧ t.parent q = some p
  child : ∀ q, t.kind q = .held ∨ t.kind q = .ended → q ≠ t.root → t.parent q ≠ none
  lives : ∀ q p, t.parent q = some p → t.kind p = .held
  apart : ∀ q, t.parent q ≠ some q
  root : t.kind t.root = .held ∧ t.parent t.root = none

namespace Inv
variable {t : Tree ι} {p slot : ι}

theorem reserve (inv : Inv t) (free : t.kind slot = .free) :
    Inv { t with kind := Function.update t.kind slot .reserved } := by
  have alone := inv.orphan slot free
  obtain ⟨orphan, embryo, named, child, lives, apart, root⟩ := inv
  constructor <;> grind -ring -linarith -order [Function.update_apply]

theorem abandon (inv : Inv t) (reserved : t.kind slot = .reserved) (alone : t.parent slot = none) :
    Inv { t with kind := Function.update t.kind slot .free } := by
  obtain ⟨orphan, embryo, named, child, lives, apart, root⟩ := inv
  constructor <;> grind -ring -linarith -order [Function.update_apply]

theorem adopt (inv : Inv t) (held : t.kind p = .held) (idle : t.starting p = none)
    (reserved : t.kind slot = .reserved) (alone : t.parent slot = none) :
    Inv { t with
      parent := Function.update t.parent slot (some p)
      starting := Function.update t.starting p (some slot) } := by
  obtain ⟨orphan, embryo, named, child, lives, apart, root⟩ := inv
  constructor <;> grind -ring -linarith -order [Function.update_apply]

theorem fill (inv : Inv t) (ready : t.starting p = some slot) :
    Inv { t with
      kind := Function.update t.kind slot .held
      starting := Function.update t.starting p none } := by
  obtain ⟨orphan, embryo, named, child, lives, apart, root⟩ := inv
  constructor <;> grind -ring -linarith -order [Function.update_apply]

/-- The children of a tenant that ends are passed to the root. -/
theorem finish (inv : Inv t) (held : t.kind p = .held) (idle : t.starting p = none)
    (other : p ≠ t.root) : Inv { t with
      kind := Function.update t.kind p .ended
      parent := fun q => if t.parent q = some p then some t.root else t.parent q } := by
  obtain ⟨orphan, embryo, named, child, lives, apart, root⟩ := inv
  constructor <;> grind -ring -linarith -order [Function.update_apply]

theorem collect (inv : Inv t) (ended : t.kind slot = .ended) :
    Inv { t with
      kind := Function.update t.kind slot .free
      parent := Function.update t.parent slot none } := by
  obtain ⟨orphan, embryo, named, child, lives, apart, root⟩ := inv
  constructor <;> grind -ring -linarith -order [Function.update_apply]

end Inv
end Aso.Lineage
