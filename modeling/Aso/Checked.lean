/-! Computations that may stop with an error, taken apart one step at a time. -/
namespace Aso.Checked
variable {ε α β : Type}

theorem ok_bind (a : α) (f : α → Except ε β) : Except.ok a >>= f = f a := rfl

theorem bind_ok {x : Except ε α} {f : α → Except ε β} {b : β} :
    x >>= f = .ok b ↔ ∃ a, x = .ok a ∧ f a = .ok b := by
  cases x with
  | error e => exact ⟨nofun, fun ⟨_, wrong, _⟩ => nomatch wrong⟩
  | ok a =>
    constructor
    · intro result
      exact ⟨a, rfl, result⟩
    · rintro ⟨_, same, result⟩
      cases same
      exact result

theorem toOption_eq_some {x : Except ε α} {a : α} : x.toOption = some a ↔ x = .ok a := by
  cases x with
  | error e => exact ⟨nofun, nofun⟩
  | ok b =>
    exact ⟨fun same => congrArg _ (Option.some.inj same),
      fun same => congrArg _ (Except.ok.inj same)⟩

end Aso.Checked
