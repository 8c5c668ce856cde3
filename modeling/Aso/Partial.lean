import Mathlib.Logic.Function.Basic

/-! Programs that pass a state on and may stop without a result. -/
namespace Aso.Partial
variable {S α β : Type} {m : StateT S Option α} {f : α → StateT S Option β} {s : S}

/-- A program after one that has a result. -/
theorem bind_run {a : α} {t : S} (first : m s = some (a, t)) : (m >>= f) s = f a t := by
  show (m s >>= fun p => f p.1 p.2) = f a t
  rw [first]
  rfl

theorem bind_none (first : m s = none) : (m >>= f) s = none := by
  show (m s >>= fun p => f p.1 p.2) = none
  rw [first]
  rfl

end Aso.Partial
