import Mathlib.Data.List.Basic

/-! Layers laid one after another over a base. A layer covers some points; what shows at a
point is the last layer that covers it. -/
namespace Aso
variable {α β : Type*} {base : α → β} {layer : α → Option β} {a : α}

def layered (base : α → β) (layers : List (α → Option β)) : α → β :=
  layers.foldl (fun below layer a => (layer a).getD (below a)) base

theorem layered_cons (base : α → β) (layer : α → Option β) (layers : List (α → Option β)) :
    layered base (layer :: layers) = layered (fun a => (layer a).getD (base a)) layers := rfl

end Aso
