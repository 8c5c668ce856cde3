import Aso.Transition

/-! Threads that share a state and run programs of atomic operations, interleaved one
operation at a time, with a logic of interference: a thread relies on what every step of
the others keeps, and each of its own steps has to keep what the others rely on. -/
namespace Aso.Interleave

/-- A program over operations `Op` with results `Res`. -/
inductive Prog {Op : Type} (Res : Op → Type) (α : Type) where
  | done (a : α)
  | op (o : Op) (next : Res o → Prog Res α)

namespace Prog
variable {Op : Type} {Res : Op → Type} {α β : Type}

def bind : Prog Res α → (α → Prog Res β) → Prog Res β
  | done a, f => f a
  | op o next, f => op o fun r => (next r).bind f

instance : Monad (Prog Res) where
  pure := done
  bind := bind

/-- One operation. -/
def run (o : Op) : Prog Res (Res o) := op o done

theorem bind_assoc {γ : Type} (prog : Prog Res α) (f : α → Prog Res β) (g : β → Prog Res γ) :
    (prog >>= f) >>= g = prog >>= fun a => f a >>= g := by
  induction prog with
  | done a => rfl
  | op o next ih => exact congrArg (op o) (funext ih)

end Prog

variable {Op Thread Call Choice S D : Type} {Res : Op → Type}

/-- A thread without code is between two calls; `data` is what it keeps from call to call. -/
structure State (Res : Op → Type) (Thread S D : Type) where
  shared : S
  data : Thread → D
  code : Thread → Option (Prog Res D)

inductive Action (Thread Call Choice : Type) where
  | call (p : Thread) (c : Call)
  | step (p : Thread) (x : Choice)

section Machine
variable [DecidableEq Thread]

/-- An operation that has no result now blocks its thread; one that will never have a
result has stopped the system. -/
def step (exec : Thread → (o : Op) → Choice → S → Option (Res o × S))
    (calls : Call → D → Prog Res D) (s : State Res Thread S D) :
    Action Thread Call Choice → Option (State Res Thread S D)
  | .call p c =>
    match s.code p with
    | none => some { s with code := Function.update s.code p (some (calls c (s.data p))) }
    | some _ => none
  | .step p x =>
    match s.code p with
    | none => none
    | some (.done a) =>
      some { s with data := Function.update s.data p a, code := Function.update s.code p none }
    | some (.op o next) =>
      (exec p o x s.shared).map fun (r, t) =>
        { s with shared := t, code := Function.update s.code p (some (next r)) }

end Machine

/-- What a thread relies on, what holds at every moment, what has to hold when a thread is
about to perform an operation, and which operations a run may perform. -/
structure Logic (Thread Op S : Type) where
  rely : Thread → S → S → Prop
  inv : S → Prop
  pre : Thread → Op → S → Prop
  admits : Thread → Op → S → Prop
  refl : ∀ p s, rely p s s
  trans : ∀ p s t u, rely p s t → rely p t u → rely p s u

namespace Logic
variable (L : Logic Thread Op S) (exec : Thread → (o : Op) → Choice → S → Option (Res o × S))

/-- Whatever the others do in between, the program performs its operations where their
preconditions hold, disturbs nobody, and ends in a state with `post`. -/
def wp {α : Type} (p : Thread) : Prog Res α → (α → S → Prop) → S → Prop
  | .done a, post, s => post a s
  | .op o next, post, s => ∀ s', L.rely p s s' → L.inv s' → L.pre p o s' ∧
      (L.admits p o s' → ∀ x r t, exec p o x s' = some (r, t) →
        L.inv t ∧ (∀ q, q ≠ p → L.rely q s' t) ∧ wp p (next r) post t)

variable {L exec} {α β : Type} {p : Thread}

theorem wp_bind {prog : Prog Res α} {f : α → Prog Res β} {post : β → S → Prop} {s : S}
    (proved : L.wp exec p prog (fun a t => L.wp exec p (f a) post t) s) :
    L.wp exec p (prog >>= f) post s := by
  induction prog generalizing s with
  | done a => exact proved
  | op o next ih =>
    intro s' relied inv
    obtain ⟨pre, later⟩ := proved s' relied inv
    refine ⟨pre, fun admitted x r t result => ?_⟩
    obtain ⟨inv, kept, rest⟩ := later admitted x r t result
    exact ⟨inv, kept, ih r rest⟩

/-- What is proved of a program survives interference. -/
theorem wp_stable {prog : Prog Res α} {post : α → S → Prop} {s t : S}
    (stable : ∀ a s t, post a s → L.rely p s t → post a t) (proved : L.wp exec p prog post s)
    (relied : L.rely p s t) : L.wp exec p prog post t := by
  cases prog with
  | done a => exact stable a s t proved relied
  | op o next => exact fun s' later inv => proved s' (L.trans p s t s' relied later) inv

end Logic

section Soundness
variable {L : Logic Thread Op S} {exec : Thread → (o : Op) → Choice → S → Option (Res o × S)}
  {calls : Call → D → Prog Res D} {idle : Thread → D → S → Prop}

/-- The invariant holds, and every thread is idle or has a proved rest of its program. -/
structure Sound (L : Logic Thread Op S) (exec : Thread → (o : Op) → Choice → S → Option (Res o × S))
    (idle : Thread → D → S → Prop) (s : State Res Thread S D) : Prop where
  inv : L.inv s.shared
  rest : ∀ p, s.code p = none → idle p (s.data p) s.shared
  runs : ∀ p prog, s.code p = some prog → L.wp exec p prog (idle p) s.shared

/-- A step performs only operations that the run may perform. -/
def Admitted (L : Logic Thread Op S) (s : State Res Thread S D) : Action Thread Call Choice → Prop
  | .call _ _ => True
  | .step p _ => ∀ o next, s.code p = some (.op o next) → L.admits p o s.shared

theorem Sound.pre {s : State Res Thread S D} (sound : Sound L exec idle s) {p : Thread} {o : Op}
    {next : Res o → Prog Res D} (at_op : s.code p = some (.op o next)) : L.pre p o s.shared :=
  (sound.runs p _ at_op s.shared (L.refl p _) sound.inv).1

/-- A step of one thread keeps what every other relies on. -/
theorem Sound.rely [DecidableEq Thread] {s t : State Res Thread S D} {p : Thread} {x : Choice}
    (sound : Sound L exec idle s) (admitted : Admitted L s (.step p x : Action Thread Call Choice))
    (taken : step exec calls s (.step p x) = some t) {q : Thread} (other : q ≠ p) :
    L.rely q s.shared t.shared := by
  cases code : s.code p with
  | none => simp [step, code] at taken
  | some prog =>
    cases prog with
    | done a =>
      simp only [step, code, Option.some.injEq] at taken
      subst taken
      exact L.refl q _
    | op o next =>
      simp only [step, code] at taken
      obtain ⟨⟨r, u⟩, result, rfl⟩ := Option.map_eq_some_iff.mp taken
      obtain ⟨_, later⟩ := sound.runs p _ code s.shared (L.refl p _) sound.inv
      exact (later (admitted o next code) x r u result).2.1 q other

theorem sound_step [DecidableEq Thread] {s t : State Res Thread S D} {a : Action Thread Call Choice}
    (stable : ∀ p a s t, idle p a s → L.rely p s t → idle p a t)
    (proved : ∀ p c, a = .call p c →
      ∀ d s, L.inv s → idle p d s → L.wp exec p (calls c d) (idle p) s)
    (sound : Sound L exec idle s) (admitted : Admitted L s a)
    (taken : step exec calls s a = some t) : Sound L exec idle t := by
  cases a with
  | call p c =>
    cases code : s.code p with
    | some _ => simp [step, code] at taken
    | none =>
      simp only [step, code, Option.some.injEq] at taken
      subst taken
      refine ⟨sound.inv, fun q none => ?_, fun q prog some => ?_⟩
      · obtain rfl | other := eq_or_ne q p
        · simp at none
        · exact sound.rest q (by simpa [other] using none)
      · obtain rfl | other := eq_or_ne q p
        · obtain rfl : calls c (s.data q) = prog := by simpa using some
          exact proved q c rfl (s.data q) s.shared sound.inv (sound.rest q code)
        · exact sound.runs q prog (by simpa [other] using some)
  | step p x =>
    have kept := fun {q : Thread} => sound.rely (q := q) admitted taken
    cases code : s.code p with
    | none => simp [step, code] at taken
    | some prog =>
      cases prog with
      | done a =>
        simp only [step, code, Option.some.injEq] at taken
        subst taken
        refine ⟨sound.inv, fun q none => ?_, fun q prog some => ?_⟩
        · obtain rfl | other := eq_or_ne q p
          · simpa [Logic.wp] using sound.runs q _ code
          · simpa [other] using sound.rest q (by simpa [other] using none)
        · obtain rfl | other := eq_or_ne q p
          · simp at some
          · exact sound.runs q prog (by simpa [other] using some)
      | op o next =>
        simp only [step, code] at taken
        obtain ⟨⟨r, u⟩, result, rfl⟩ := Option.map_eq_some_iff.mp taken
        obtain ⟨_, later⟩ := sound.runs p _ code s.shared (L.refl p _) sound.inv
        obtain ⟨inv, -, rest⟩ := later (admitted o next code) x r u result
        refine ⟨inv, fun q none => ?_, fun q prog some => ?_⟩
        · obtain rfl | other := eq_or_ne q p
          · simp at none
          · exact stable q _ _ _ (sound.rest q (by simpa [other] using none)) (kept other)
        · obtain rfl | other := eq_or_ne q p
          · obtain rfl : next r = prog := by simpa using some
            exact rest
          · exact Logic.wp_stable (stable q) (sound.runs q prog (by simpa [other] using some))
              (kept other)

end Soundness

end Aso.Interleave
