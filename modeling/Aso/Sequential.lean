import Aso.Interleave
import Mathlib.Data.Fintype.Defs

/-! Threads whose calls come one after another: a call starts when no other is in
progress. What holds between calls is then kept by each program run alone, and an
operation is safe if every program performs it only where it may. -/
namespace Aso.Sequential
open Interleave

variable {Op Thread Call Choice S D : Type} {Res : Op → Type}

/-- What has to hold when an operation is about to be
performed, and which operations a run may perform. -/
structure Rules (Thread Op S : Type) where
  safe : Thread → Op → S → Prop
  admits : Thread → Op → S → Prop

namespace Rules
variable (R : Rules Thread Op S) (exec : Thread → (o : Op) → Choice → S → Option (Res o × S))

/-- The program run alone is safe, and if it ends it ends in a state with `post`. -/
def wp {α : Type} (p : Thread) : Prog Res α → (α → S → Prop) → S → Prop
  | .done a, post, s => post a s
  | .op o next, post, s => R.safe p o s ∧
      (R.admits p o s → ∀ x r t, exec p o x s = some (r, t) → wp p (next r) post t)

variable {R exec} {α β : Type} {p : Thread}

theorem wp_bind {prog : Prog Res α} {f : α → Prog Res β} {post : β → S → Prop} {s : S}
    (proved : R.wp exec p prog (fun a t => R.wp exec p (f a) post t) s) :
    R.wp exec p (prog >>= f) post s := by
  induction prog generalizing s with
  | done a => exact proved
  | op o next ih =>
    obtain ⟨safe, later⟩ := proved
    refine ⟨safe, fun admitted x r t result => ?_⟩
    exact ih r (later admitted x r t result)

theorem wp_mono {prog : Prog Res α} {post post' : α → S → Prop} {s : S}
    (proved : R.wp exec p prog post s) (weaker : ∀ a t, post a t → post' a t) :
    R.wp exec p prog post' s := by
  induction prog generalizing s with
  | done a => exact weaker a s proved
  | op o next ih =>
    obtain ⟨safe, later⟩ := proved
    exact ⟨safe, fun admitted x r t result => ih r (later admitted x r t result)⟩

end Rules

/-- A step performs only operations that the run may
perform, and no call starts while another runs. -/
def Admitted (R : Rules Thread Op S) (s : State Res Thread S D) : Action Thread Call Choice → Prop
  | .call _ _ => ∀ q, s.code q = none
  | .step p _ => ∀ o next, s.code p = some (.op o next) → R.admits p o s.shared

instance decidableAdmitted [Fintype Thread] (R : Rules Thread Op S)
    [∀ p o s, Decidable (R.admits p o s)] (s : State Res Thread S D) :
    ∀ a : Action Thread Call Choice, Decidable (Admitted R s a)
  | .call _ _ =>
    decidable_of_iff (∀ q, (s.code q).isNone) (forall_congr' fun _ => Option.isNone_iff_eq_none)
  | .step p _ =>
    match code : s.code p with
    | none => isTrue fun _ _ here => nomatch code.symm.trans here
    | some (.done _) => isTrue fun _ _ here => nomatch code.symm.trans here
    | some (.op o next) => decidable_of_iff (R.admits p o s.shared)
        ⟨fun admits _ _ here => by cases code.symm.trans here; exact admits,
          fun admits => admits o next code⟩

/-- Between calls the invariant holds; the rest of a running program leads back to it. -/
inductive Sound (R : Rules Thread Op S) (exec : Thread → (o : Op) → Choice → S → Option (Res o × S))
    [DecidableEq Thread] (inv : (Thread → D) → S → Prop) (s : State Res Thread S D) : Prop where
  | idle (none : ∀ p, s.code p = none) (holds : inv s.data s.shared) : Sound R exec inv s
  | busy (p : Thread) (prog : Prog Res D) (code : s.code p = some prog)
      (others : ∀ q, q ≠ p → s.code q = none)
      (proved : R.wp exec p prog (fun a t => inv (Function.update s.data p a) t) s.shared) :
        Sound R exec inv s

section
variable {R : Rules Thread Op S} {exec : Thread → (o : Op) → Choice → S → Option (Res o × S)}
  [DecidableEq Thread] {calls : Call → D → Prog Res D} {inv : (Thread → D) → S → Prop}
  {s t : State Res Thread S D}

theorem Sound.safe (sound : Sound R exec inv s) {p : Thread} {o : Op} {next : Res o → Prog Res D}
    (here : s.code p = some (.op o next)) : R.safe p o s.shared := by
  cases sound with
  | idle none => rw [none p] at here; cases here
  | busy q prog code others proved =>
    obtain rfl | other := eq_or_ne p q
    · rw [code] at here
      cases here
      exact proved.1
    · rw [others p other] at here
      cases here

theorem Sound.between (sound : Sound R exec inv s) (none : ∀ p, s.code p = none) :
    inv s.data s.shared := by
  cases sound with
  | idle _ holds => exact holds
  | busy p prog code => rw [none p] at code; cases code

theorem sound_step (proved : ∀ p c data s, inv data s →
      R.wp exec p (calls c (data p)) (fun a t => inv (Function.update data p a) t) s)
    {a : Action Thread Call Choice} (sound : Sound R exec inv s) (admitted : Admitted R s a)
    (taken : step exec calls s a = some t) : Sound R exec inv t := by
  cases a with
  | call p c =>
    have none := admitted
    simp only [step, none p, Option.some.injEq] at taken
    subst taken
    refine .busy p (calls c (s.data p)) (Function.update_self ..) (fun q other => ?_) ?_
    · exact (Function.update_of_ne other ..).trans (none q)
    · exact proved p c s.data s.shared (sound.between none)
  | step p x =>
    cases sound with
    | idle none => simp [step, none p] at taken
    | busy q prog code others run =>
      obtain rfl | other := eq_or_ne p q
      · cases prog with
        | done a =>
          simp only [step, code, Option.some.injEq] at taken
          subst taken
          refine .idle (fun q => ?_) run
          obtain rfl | other := eq_or_ne q p
          · exact Function.update_self ..
          · exact (Function.update_of_ne other ..).trans (others q other)
        | op o next =>
          simp only [step, code] at taken
          obtain ⟨⟨r, u⟩, result, rfl⟩ := Option.map_eq_some_iff.mp taken
          refine .busy p (next r) (Function.update_self ..) (fun q other => ?_) ?_
          · exact (Function.update_of_ne other ..).trans (others q other)
          · exact run.2 (admitted o next code) x r u result
      · simp [step, others p other] at taken

end
end Aso.Sequential
