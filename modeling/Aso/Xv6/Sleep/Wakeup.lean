import Aso.Xv6.Sleep.Locks

/-! No wakeup is lost. A call of `sleep` is followed by its number: once a waker has had
the lock after the call began, the call is past releasing it, and once the waker has
`ptable.lock`, the process is off its CPU with its channel stored. -/
namespace Aso.Xv6.Sleep
namespace State
variable {s t : State} {a : Action} {c : Cpu} {p : Slot} {n r chan : Nat} {lk : Lock}

/-- Process `p` sleeps, and that from its call `n`. -/
def Asleep (s : State) (p : Slot) (n : Nat) : Prop :=
  s.state p = .sleeping ∧ ∃ pc chan lk rest, s.code (.proc p) = .sleep pc chan lk n :: rest

/-- Call `n` of `p` has been made, and if it is still in progress, it is a call
`sleep(chan, lk)` that has come as far as `r`. -/
structure Reached (s : State) (p : Slot) (n chan : Nat) (lk : Lock) (r : Nat) : Prop where
  made : n < s.calls p
  frames : ∀ pc chan' lk', .sleep pc chan' lk' n ∈ s.code (.proc p) →
    chan' = chan ∧ lk' = lk ∧ r ≤ pc.rank

namespace Reached

theorem step (reached : Reached s p n chan lk r) (taken : Sleep.step s a = some t) :
    Reached t p n chan lk r := by
  obtain ⟨c, m, op, frames, turn, effect⟩ := step_turn taken
  have calls : t.calls p = if s.thread c = .proc p then m else s.calls p := congrFun effect.calls p
  by_cases self : s.thread c = .proc p
  · have count := count_proc self
    constructor
    · rw [calls, if_pos self]
      exact reached.made.trans_le (count ▸ turn.le)
    · intro pc chan' lk' member
      rw [← self, Inv.code_self effect] at member
      rcases turn.sleep member with ⟨new, -⟩ | ⟨pc', before, le⟩
      · exact absurd (new.trans count) reached.made.ne
      · obtain ⟨rfl, rfl, far⟩ := reached.frames pc' chan' lk' (self ▸ before)
        exact ⟨rfl, rfl, far.trans le⟩
  · constructor
    · rw [calls, if_neg self]
      exact reached.made
    · intro pc chan' lk' member
      rw [Inv.code_other effect (Ne.symm self)] at member
      exact reached.frames pc chan' lk' member

theorem run {schedule : List Action} (reached : Reached s p n chan lk r)
    (runs : Transition.run Sleep.step s schedule = some t) : Reached t p n chan lk r :=
  Transition.invariant (P := fun s => Reached s p n chan lk r)
    (fun _ _ _ reached taken => reached.step taken) runs reached

end Reached

/-- Until `sched` has switched away, a call of `sleep` is the one on top of the thread that
its CPU runs, and that CPU has the locks it needs. -/
theorem Inv.holder (inv : Inv s) {pc : SleepPc}
    (member : .sleep pc chan lk n ∈ s.code (.proc p)) (early : pc.rank < 5) :
    ∃ c, (s.code (s.thread c)).head? = some (.sleep pc chan lk n) ∧
      ∀ l ∈ (Frame.sleep pc chan lk n).needs, l ∈ s.held c := by
  cases code : s.code (.proc p) with
  | nil =>
    rw [code] at member
    cases member
  | cons f rest =>
    rw [code] at member
    rcases List.mem_cons.mp member with rfl | below
    · have top : (s.code (.proc p)).head? = some (.sleep pc chan lk n) := by rw [code]; rfl
      rcases inv.parked _ _ top with ⟨c, runs⟩ | parked
      · rw [← runs] at top
        exact ⟨c, top, inv.holds c _ top⟩
      · cases pc <;> simp_all [Frame.parked, SleepPc.rank]
    · have none := inv.tail (.proc p) _ (by rw [code]; exact below)
      exact absurd none (Frame.needs_sleep (by omega))

/-- A call of `sleep` that still has its lock runs on the CPU that holds it, so a thread
between two calls that holds the lock finds the call past releasing it. -/
theorem Inv.late (inv : Inv s) {pc : SleepPc} (member : .sleep pc chan lk n ∈ s.code (.proc p))
    (client : isClient (s.code (s.thread c)) = true) (held : lk ∈ s.held c)
    (early : pc.rank < 5) : lk ∉ (Frame.sleep pc chan lk n).needs := by
  intro need
  obtain ⟨c', top, holds⟩ := inv.holder member early
  obtain rfl := inv.mutex lk c' c (holds lk need) held
  cases code : s.code (s.thread c') with
  | nil =>
    rw [code] at top
    cases top
  | cons f rest =>
    rw [code] at top client
    cases top
    cases client

/-- Where a thread between two calls holds `lk`, the call is past releasing it. -/
theorem Reached.released (reached : Reached s p n chan lk r) (inv : Inv s)
    (client : isClient (s.code (s.thread c)) = true) (held : lk ∈ s.held c) :
    Reached s p n chan lk 2 := by
  refine ⟨reached.made, fun pc chan' lk' member => ?_⟩
  obtain ⟨rfl, rfl, -⟩ := reached.frames pc chan' lk' member
  refine ⟨rfl, rfl, ?_⟩
  by_contra early
  refine inv.late member client held (by omega) ?_
  cases pc <;> simp_all [Frame.needs, SleepPc.rank]

/-- If the lock is `ptable.lock`, the process is off its CPU. -/
theorem Reached.released_ptable (reached : Reached s p n chan .ptable r) (inv : Inv s)
    (client : isClient (s.code (s.thread c)) = true) (held : .ptable ∈ s.held c) :
    Reached s p n chan .ptable 5 := by
  refine ⟨reached.made, fun pc chan' lk' member => ?_⟩
  obtain ⟨rfl, rfl, -⟩ := reached.frames pc chan' lk' member
  refine ⟨rfl, rfl, ?_⟩
  by_contra early
  refine inv.late member client held (by omega) ?_
  cases pc <;> simp_all [Frame.needs, SleepPc.rank]

/-- Where `ptable.lock` is free, a call past releasing `lk` has left its CPU. -/
theorem Reached.free_ptable (reached : Reached s p n chan lk 2) (inv : Inv s)
    (free : s.free .ptable) : Reached s p n chan lk 5 := by
  refine ⟨reached.made, fun pc chan' lk' member => ?_⟩
  obtain ⟨rfl, rfl, far⟩ := reached.frames pc chan' lk' member
  refine ⟨rfl, rfl, ?_⟩
  by_contra early
  obtain ⟨c, -, holds⟩ := inv.holder member (by omega)
  refine free c (holds .ptable ?_)
  cases pc <;> simp_all [Frame.needs, SleepPc.rank]

/-- A process that runs is not asleep, unless it is about to switch away. -/
theorem Inv.not_sleeping (inv : Inv s) (runs : s.thread c = .proc p) {f : Frame}
    (top : (s.code (.proc p)).head? = some f) (other : ¬ f.atSched) : s.state p ≠ .sleeping := by
  rcases inv.running c p runs with running | ⟨g, top', sched⟩
  · rw [running]
    nofun
  · cases top.symm.trans top'
    exact absurd sched other

/-- The call is past `sched` and the process does not sleep from it any more. -/
structure Awake (s : State) (p : Slot) (n chan : Nat) (lk : Lock) : Prop where
  reached : Reached s p n chan lk 5
  awake : ¬ s.Asleep p n

theorem Awake.step (awake : Awake s p n chan lk) (inv : Inv s) (taken : Sleep.step s a = some t) :
    Awake t p n chan lk := by
  have reached := awake.reached.step taken
  refine ⟨reached, ?_⟩
  rintro ⟨sleeping, pc, chan', lk', rest, code⟩
  obtain ⟨c, m, op, frames, turn, effect⟩ := step_turn taken
  have far := (reached.frames pc chan' lk' (by rw [code]; exact List.mem_cons_self)).2.2
  by_cases self : s.thread c = .proc p
  · rw [← self, Inv.code_self effect] at code
    -- the process itself would have to leave `sched`, which call `n` has behind it
    have still : s.state p = .sleeping := by
      rcases effect.state p with same | ⟨-, state, rfl⟩ | ⟨-, now⟩ | ⟨-, now⟩
      · exact same.symm.trans sleeping
      · obtain ⟨g, top, sched⟩ := turn.setState
        rw [code] at top
        cases top
        cases pc <;> simp_all [Frame.atSched, SleepPc.rank]
      · cases now.symm.trans sleeping
      · cases now.symm.trans sleeping
    rcases inv.running c p self with running | ⟨f, top, sched⟩
    · cases running.symm.trans still
    · rw [← self] at top
      rcases turn.atSched top sched with rfl | rfl
      · subst code
        have before := (awake.reached.frames _ _ _ (self ▸ turn.sched)).2.2
        cases Nat.lt_irrefl _ before
      · have none := inv.quiet (effect.quiet rfl) f (List.mem_of_mem_head? top)
        rw [Frame.needs_of_atSched sched] at none
        cases none
  · rw [Inv.code_other effect (Ne.symm self)] at code
    rcases effect.state p with same | ⟨own, -⟩ | ⟨-, now⟩ | ⟨-, now⟩
    · exact awake.awake ⟨same.symm.trans sleeping, pc, chan', lk', rest, code⟩
    · exact self own
    · cases now.symm.trans sleeping
    · cases now.symm.trans sleeping

theorem Awake.run {schedule : List Action} (awake : Awake s p n chan lk) (inv : Inv s)
    (runs : Transition.run Sleep.step s schedule = some t) : Awake t p n chan lk := by
  have preserves (s : State) (a : Action) (t : State) (both : Inv s ∧ Awake s p n chan lk)
      (taken : Sleep.step s a = some t) :
      Inv t ∧ Awake t p n chan lk := ⟨both.1.step taken, both.2.step both.1 taken⟩
  exact (Transition.invariant preserves runs ⟨inv, awake⟩).2

/-- No process in a slot below `i` sleeps on the channel. -/
def Scanned (s : State) (chan i : Nat) : Prop :=
  ∀ j : Slot, j.val < i → ¬ (s.state j = .sleeping ∧ s.chan j = chan)

/-- After the whole scan the process does not sleep from its call. -/
theorem Reached.awake (reached : Reached s p n chan lk 5) (inv : Inv s)
    (scanned : s.Scanned chan nproc) : Awake s p n chan lk := by
  refine ⟨reached, ?_⟩
  rintro ⟨sleeping, pc, chan', lk', rest, code⟩
  obtain ⟨rfl, rfl, far⟩ := reached.frames pc chan' lk' (by rw [code]; exact List.mem_cons_self)
  have top : (s.code (.proc p)).head? = some (.sleep pc chan' lk' n) := by rw [code]; rfl
  by_cases tidy : pc = .tidy
  · exact scanned p p.isLt ⟨sleeping, inv.chan p pc chan' lk' n rest code (by rw [tidy]; trivial)⟩
  · rcases inv.parked _ _ top with ⟨c, runs⟩ | parked
    · refine inv.not_sleeping runs top ?_ sleeping
      cases pc <;> simp_all [Frame.atSched, SleepPc.rank]
    · cases pc <;> simp_all [Frame.parked]

/-- Where the waker `self` is in the call it has made on top of `base`. -/
inductive Waking (s : State) (self : Thread) (base : List Frame) (p : Slot) (n chan : Nat)
    (lk : Lock) : Prop where
  | enter (code : s.code self = .wakeup .enter chan :: base) (reached : Reached s p n chan lk 2)
  | scan {i : Nat} (code : s.code self = .wakeup (.scan i) chan :: base)
      (reached : Reached s p n chan lk 5)
      (scanned : s.Scanned chan i)
  | scan1 {i : Nat} (code : s.code self = .wakeup1 i chan :: base)
      (reached : Reached s p n chan lk 5)
      (scanned : s.Scanned chan i)
  | leave (code : s.code self = .wakeup .leave chan :: base) (reached : Reached s p n chan lk 5)
      (scanned : s.Scanned chan nproc)
  | returned (awake : Awake s p n chan lk)

/-- An access that stores neither a state nor a channel puts no process to sleep. -/
theorem Scanned.effect {frames : List Frame} {m i : Nat} {op : Op} (scanned : s.Scanned chan i)
    (effect : (s.moved c frames m).Effect c op t) (quiet : ∀ state, op ≠ .setState state)
    (quiet' : ∀ v, op ≠ .setChan v) : t.Scanned chan i := by
  rintro j below ⟨sleeping, on⟩
  refine scanned j below ⟨?_, (effect.chan j (.inr quiet')).symm.trans on⟩
  rcases effect.state j with still | ⟨-, state, stores⟩ | ⟨-, now⟩ | ⟨-, now⟩
  · exact still.symm.trans sleeping
  · exact absurd stores (quiet state)
  · cases now.symm.trans sleeping
  · cases now.symm.trans sleeping

/-- The body of the loop deals with one more slot. -/
theorem Scanned.wake {frames : List Frame} {m i : Nat} {bound : i < nproc}
    (scanned : s.Scanned chan i)
    (effect : (s.moved c frames m).Effect c (.wake ⟨i, bound⟩ chan) t) :
    t.Scanned chan (i + 1) := by
  intro j below
  obtain before | rfl := Nat.lt_succ_iff_lt_or_eq.mp below
  · exact scanned.effect effect nofun nofun j before
  · exact effect.woken j chan rfl

theorem Scanned.all {i : Nat} (scanned : s.Scanned chan i) (last : ¬ i < nproc) :
    s.Scanned chan nproc :=
  fun j below => scanned j (below.trans_le (Nat.le_of_not_lt last))

theorem Waking.step {self : Thread} {base : List Frame} (waking : Waking s self base p n chan lk)
    (inv : Inv s) (runs : s.thread c = self) (held : lk ∈ s.held c)
    (taken : Sleep.step s a = some t) : Waking t self base p n chan lk := by
  subst runs
  obtain ⟨c', m, op, frames, turn, effect⟩ := step_turn taken
  by_cases here : c' = c
  · subst here
    have busy : op ≠ .interruptible := by
      intro interrupted
      have none : s.held c' = [] := effect.quiet interrupted
      rw [none] at held
      cases held
    have code := Inv.code_self effect
    cases waking with
    | enter top reached =>
      rw [top] at turn
      obtain ⟨frames, next, rfl⟩ := turn.goes nofun busy
      cases next
      exact .scan code ((reached.free_ptable inv (effect.free _ rfl)).step taken)
        fun j below => absurd below (Nat.not_lt_zero _)
    | scan top reached scanned =>
      rw [top] at turn
      obtain ⟨frames, next, rfl⟩ := turn.goes nofun busy
      rw [Frame.next] at next
      split at next
      · cases next
        exact .scan code (reached.step taken) (scanned.wake effect)
      · next last =>
        cases next
        exact .leave code (reached.step taken) ((scanned.all last).effect effect nofun nofun)
    | scan1 top reached scanned =>
      rw [top] at turn
      obtain ⟨frames, next, rfl⟩ := turn.goes nofun busy
      rw [Frame.next] at next
      split at next
      · cases next
        exact .scan1 code (reached.step taken) (scanned.wake effect)
      · next last => exact .returned ((reached.awake inv (scanned.all last)).step inv taken)
    | leave top reached scanned =>
      rw [top] at turn
      obtain ⟨frames, next, rfl⟩ := turn.goes nofun busy
      cases next
      exact .returned ((reached.awake inv scanned).step inv taken)
    | returned awake => exact .returned (awake.step inv taken)
  · have code := Inv.code_other effect (fun same => here (inv.unique c' c same.symm))
    have quiet (ptable : .ptable ∈ s.held c) {i : Nat} (scanned : s.Scanned chan i) :
        t.Scanned chan i := by
      have idle : ¬ op.touches :=
        fun touches => here (inv.mutex _ _ _ (inv.touches turn touches) ptable)
      obtain ⟨state, chan⟩ := effect.untouched idle
      intro j below
      rw [state, chan]
      exact scanned j below
    have ptable {f : Frame} (top : s.code (s.thread c) = f :: base) (need : .ptable ∈ f.needs) :
        .ptable ∈ s.held c :=
      inv.holds c f (by rw [top]; rfl) _ need
    cases waking with
    | enter top reached => exact .enter (code.trans top) (reached.step taken)
    | scan top reached scanned =>
      exact .scan (code.trans top) (reached.step taken)
        (quiet (ptable top (by simp [Frame.needs])) scanned)
    | scan1 top reached scanned =>
      exact .scan1 (code.trans top) (reached.step taken)
        (quiet (ptable top (by simp [Frame.needs])) scanned)
    | leave top reached scanned =>
      exact .leave (code.trans top) (reached.step taken)
        (quiet (ptable top (by simp [Frame.needs])) scanned)
    | returned awake => exact .returned (awake.step inv taken)

theorem Waking.run {self : Thread} {base : List Frame} {schedule : List Action}
    (waking : Waking s self base p n chan lk) (inv : Inv s)
    (runs : Transition.run Sleep.step s schedule = some t)
    (keeps : Transition.Visits Sleep.step (fun s => s.thread c = self ∧ lk ∈ s.held c) s schedule) :
    Waking t self base p n chan lk := by
  induction schedule generalizing s with
  | nil =>
    cases Option.some.inj runs
    exact waking
  | cons a rest ih =>
    obtain ⟨m, taken, runs⟩ := Transition.run_cons.mp runs
    exact ih (waking.step inv keeps.1.1 keeps.1.2 taken) (inv.step taken) runs (keeps.2 m taken)

theorem Reached.call (inv : Inv s) (self : s.thread c = .proc p)
    (sleeps : Sleep.step s (.call c (.sleep chan lk)) = some t) :
    Reached t p (s.calls p) chan lk 0 := by
  obtain ⟨-, effect⟩ := call_effect sleeps
  have calls : t.calls p = if s.thread c = .proc p then s.count (s.thread c) + 1 else s.calls p :=
    congrFun effect.calls p
  rw [if_pos self, count_proc self] at calls
  refine ⟨calls ▸ Nat.lt_succ_self _, fun pc chan' lk' member => ?_⟩
  rw [← self, Inv.code_self effect] at member
  rcases List.mem_cons.mp member with new | old
  · injection new with _ chan lk
    exact ⟨chan, lk, Nat.zero_le _⟩
  · rw [self] at old
    exact absurd (inv.number p pc chan' lk' _ old) (Nat.lt_irrefl _)

end State

open State in
/-- Let `p` call `sleep(chan, lk)`, which it can do only with `lk` held. Let a thread on CPU `c`
have `lk` at any later moment, however it came to hold it, call `wakeup(chan)` then, or
`wakeup1(chan)` if `lk` is `ptable.lock`, and return from it with `lk` held all the time. From
then on `p` does not sleep from that call. -/
theorem no_lost_wakeup {ready : Slot → Bool} {past a₁ a₂ a₃ : List Action}
    {s₀ s₁ s₂ s₃ s₄ s₅ : State} {c₀ c : Cpu} {p : Slot} {chan : Nat} {lk : Lock}
    (reached : Transition.run step (boot ready) past = some s₀) (self : s₀.thread c₀ = .proc p)
    (sleeps : step s₀ (.call c₀ (.sleep chan lk)) = some s₁)
    (run₁ : Transition.run step s₁ a₁ = some s₂) (holds : lk ∈ s₂.held c)
    (wakes : step s₂ (.call c (if lk = .ptable then .wakeup1 chan else .wakeup chan)) = some s₃)
    (run₂ : Transition.run step s₃ a₂ = some s₄)
    (returned : s₄.code (s₂.thread c) = s₂.code (s₂.thread c))
    (keeps : Transition.Visits step (fun s => s.thread c = s₂.thread c ∧ lk ∈ s.held c) s₃ a₂)
    (run₃ : Transition.run step s₄ a₃ = some s₅) : ¬ s₅.Asleep p (s₀.calls p) := by
  have run {s t : State} {schedule : List Action} (inv : Inv s)
      (runs : Transition.run step s schedule = some t) : Inv t :=
    Transition.invariant (fun _ _ _ inv taken => inv.step taken) runs inv
  have inv₀ := run (.boot ready) reached
  have inv₂ := run (inv₀.step sleeps) run₁
  have inv₃ := inv₂.step wakes
  have begun : Reached s₂ p (s₀.calls p) chan lk 0 := (Reached.call inv₀ self sleeps).run run₁
  have client : isClient (s₂.code (s₂.thread c)) = true := (call_effect wakes).1
  have waking : Waking s₃ (s₂.thread c) (s₂.code (s₂.thread c)) p (s₀.calls p) chan lk := by
    have code := Inv.code_self (call_effect wakes).2
    by_cases same : lk = .ptable
    · subst same
      rw [if_pos rfl] at code wakes
      exact .scan1 code ((begun.released_ptable inv₂ client holds).step wakes)
        fun j below => absurd below (Nat.not_lt_zero _)
    · rw [if_neg same] at code wakes
      exact .enter code ((begun.released inv₂ client holds).step wakes)
  have returns {f : Frame} (code : s₄.code (s₂.thread c) = f :: s₂.code (s₂.thread c)) : False := by
    have longer := congrArg List.length (returned.symm.trans code)
    simp at longer
  have awake : Awake s₄ p (s₀.calls p) chan lk := by
    cases waking.run inv₃ run₂ keeps with
    | enter code => exact (returns code).elim
    | scan code => exact (returns code).elim
    | scan1 code => exact (returns code).elim
    | leave code => exact (returns code).elim
    | returned awake => exact awake
  exact (awake.run (run inv₃ run₂) run₃).awake

/-- Process 0 sleeps with the lock until process 1 wakes it; process 1 then sleeps with the same
lock. Process 0 gets the lock back inside its own call of `sleep`, and wakes process 1. -/
def handedOver : List Action :=
  .replicate 3 (.go 0) ++ .call 0 (.acquire (.other 0)) :: .call 0 (.sleep 8 (.other 0)) ::
    .replicate 7 (.go 0) ++ .call 0 (.acquire (.other 0)) :: .call 0 (.wakeup 8) ::
    .replicate 67 (.go 0)

theorem sleeper_is_woken :
    ∃ s₀ s₂ s₄, Transition.run step (boot fun p => p.val < 2) handedOver = some s₀ ∧
      Transition.run step s₀ (.call 0 (.sleep 7 (.other 0)) :: .replicate 74 (.go 0)) = some s₂ ∧
      s₂.state 1 = .sleeping ∧ s₂.thread 0 = .proc 0 ∧
      Transition.run step s₂ (.call 0 (.wakeup 7) :: .replicate 67 (.go 0)) = some s₄ ∧
      ¬ s₄.Asleep 1 (s₀.calls 1) := by
  have seen : (Transition.run step (boot fun p => p.val < 2) handedOver).bind (fun s₀ =>
      (step s₀ (.call 0 (.sleep 7 (.other 0)))).bind fun s₁ =>
        (Transition.run step s₁ (.replicate 74 (.go 0))).bind fun s₂ =>
          (step s₂ (.call 0 (.wakeup 7))).bind fun s₃ =>
            (Transition.run step s₃ (.replicate 67 (.go 0))).map fun s₄ =>
              decide (s₀.thread 0 = .proc 1 ∧ s₂.state 1 = .sleeping ∧ s₂.thread 0 = .proc 0 ∧
                .other 0 ∈ s₂.held 0 ∧ s₄.code (.proc 0) = s₂.code (.proc 0) ∧
                Transition.Visits step (fun s => s.thread 0 = .proc 0 ∧ .other 0 ∈ s.held 0) s₃
                  (.replicate 67 (.go 0)))) = some true := by decide +kernel
  obtain ⟨s₀, reached, seen⟩ := Option.bind_eq_some_iff.mp seen
  obtain ⟨s₁, sleeps, seen⟩ := Option.bind_eq_some_iff.mp seen
  obtain ⟨s₂, run₁, seen⟩ := Option.bind_eq_some_iff.mp seen
  obtain ⟨s₃, wakes, seen⟩ := Option.bind_eq_some_iff.mp seen
  obtain ⟨s₄, run₂, seen⟩ := Option.map_eq_some_iff.mp seen
  obtain ⟨self, sleeping, waker, holds, returned, keeps⟩ := of_decide_eq_true seen
  refine ⟨s₀, s₂, s₄, reached, Transition.run_cons.mpr ⟨s₁, sleeps, run₁⟩, sleeping, waker,
    Transition.run_cons.mpr ⟨s₃, wakes, run₂⟩, ?_⟩
  rw [← waker] at returned keeps
  exact no_lost_wakeup reached self sleeps run₁ holds wakes run₂ returned keeps
    (show Transition.run step s₄ [] = some s₄ from rfl)

end Aso.Xv6.Sleep
