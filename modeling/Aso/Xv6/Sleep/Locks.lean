import Aso.Xv6.Sleep.Machine

/-! What the locks protect: a call that is past taking a lock and before releasing it
runs on a CPU that holds the lock, a process runs on one CPU at most, and the process
table changes only under `ptable.lock`. -/
namespace Aso.Xv6.Sleep

/-- The locks that the CPU of a call holds. -/
def Frame.needs : Frame → List Lock
  | .sleep .enter _ lk _ => [lk]
  | .sleep .drop _ lk _ => [lk, .ptable]
  | .sleep .reacquire _ _ _ => []
  | .sleep _ _ _ _ => [.ptable]
  | .wakeup .enter _ => []
  | .wakeup _ _ => [.ptable]
  | .wakeup1 _ _ => [.ptable]
  | .yield .enter => []
  | .yield _ => [.ptable]
  | .scheduler .enter => []
  | .scheduler _ => [.ptable]
  | .forkret => [.ptable]
  | .handler => []

/-- The parts of `sleep` for a lock other than `ptable.lock`. -/
def Frame.wf : Frame → Prop
  | .sleep pc _ lk _ => pc = .enter ∨ pc = .drop ∨ pc = .leave ∨ pc = .reacquire → lk ≠ .ptable
  | _ => True

/-- Where a thread is while another one runs on its CPU. -/
def Frame.parked : Frame → Prop
  | .sleep .tidy _ _ _ | .yield .leave | .forkret | .scheduler (.scan _) => True
  | _ => False

def Frame.atSched : Frame → Prop
  | .sleep .sched _ _ _ | .yield .sched => True
  | _ => False

/-- The channel has been stored. -/
def SleepPc.stored : SleepPc → Prop
  | .setState | .sched | .tidy => True
  | _ => False

/-- How far a call of `sleep` has come. -/
def SleepPc.rank : SleepPc → Nat
  | .enter => 0
  | .drop => 1
  | .setChan => 2
  | .setState => 3
  | .sched => 4
  | .tidy => 5
  | .leave => 6
  | .reacquire => 7

/-- An access to the process table or a switch. -/
def Op.touches : Op → Prop
  | .setChan _ | .setState _ | .wake _ _ | .sched | .dispatch _ => True
  | _ => False

/-- What one step does to the calls in progress of the thread that takes it, where
`n` is the number of calls it has made before and `m` the number after. -/
inductive Turn (n : Nat) : Nat → List Frame → Op → List Frame → Prop where
  | go {f : Frame} {op : Op} {frames : List Frame} (rest : List Frame)
      (next : f.next = some (op, frames)) :
      Turn n n (f :: rest) op (frames ++ rest)
  | call {old : List Frame} (client : isClient old = true) (call : Call) :
      Turn n (n + 1) old (call.enter n).1 ((call.enter n).2 ++ old)
  | interrupt (old : List Frame) : Turn n n old .interruptible (.handler :: old)
  | iret (rest : List Frame) : Turn n n (.handler :: rest) .interruptible rest

/-! The table of accesses. -/

namespace Frame
variable {f g : Frame} {op : Op} {frames : List Frame}

/-- A call keeps its locks until it releases them. -/
theorem next_needs (wf : f.wf) (next : f.next = some (op, frames)) (member : g ∈ frames) {l : Lock}
    (need : l ∈ g.needs) : (l ∈ f.needs ∧ op ≠ .unlock l) ∨ op = .lock l := by
  revert next
  fun_cases Frame.next f <;> rintro ⟨⟩
  all_goals try split at member
  all_goals simp only [List.mem_singleton, List.not_mem_nil] at member
  all_goals subst member
  all_goals simp [needs, Frame.wf] at need wf ⊢
  all_goals grind

theorem next_wf (wf : f.wf) (next : f.next = some (op, frames)) (member : g ∈ frames) : g.wf := by
  revert next
  fun_cases Frame.next f <;> rintro ⟨⟩
  all_goals try split at member
  all_goals simp_all [Frame.wf]

theorem next_touches (next : f.next = some (op, frames)) (touches : op.touches) :
    .ptable ∈ f.needs := by
  revert next
  fun_cases Frame.next f <;> rintro ⟨⟩
  all_goals simp_all [needs, Op.touches]

/-- A switch leaves the thread where it goes on with `ptable.lock` held. -/
theorem next_parked (next : f.next = some (op, frames))
    (switch : op = .sched ∨ ∃ i, op = .dispatch i) : ∃ g, frames = [g] ∧ g.parked := by
  revert next
  fun_cases Frame.next f <;> rintro ⟨⟩
  all_goals simp_all [parked]

theorem next_atSched (next : f.next = some (op, frames)) : f.atSched ↔ op = .sched := by
  revert next
  fun_cases Frame.next f <;> rintro ⟨⟩
  all_goals simp [atSched]

theorem next_setState {state : Procstate} (next : f.next = some (.setState state, frames)) :
    ∃ g, frames = [g] ∧ g.atSched := by
  revert next
  fun_cases Frame.next f <;> rintro ⟨⟩
  all_goals simp [atSched]

/-- A call of `sleep` goes on, with the channel and the lock it was made for. -/
theorem next_sleep {pc : SleepPc} {chan n : Nat} {lk : Lock} (next : f.next = some (op, frames))
    (member : .sleep pc chan lk n ∈ frames) : ∃ pc', f = .sleep pc' chan lk n ∧ pc'.rank ≤ pc.rank ∧
      (pc.stored → (pc'.stored ∧ ∀ v, op ≠ .setChan v) ∨ op = .setChan chan) := by
  revert next
  fun_cases Frame.next f <;> rintro ⟨⟩
  all_goals try split at member
  all_goals simp only [List.mem_singleton, List.not_mem_nil, reduceCtorEq] at member
  all_goals cases member
  all_goals simp [SleepPc.rank, SleepPc.stored]

theorem next_sched {pc : SleepPc} {chan n : Nat} {lk : Lock} (next : f.next = some (.sched, frames))
    (member : .sleep pc chan lk n ∈ frames) : f = .sleep .sched chan lk n := by
  revert next
  fun_cases Frame.next f <;> rintro ⟨⟩
  all_goals simp_all

theorem needs_of_parked (parked : f.parked) : f.needs = [.ptable] := by
  unfold Frame.parked at parked
  split at parked <;> first | rfl | cases parked

theorem needs_of_atSched (sched : f.atSched) : f.needs = [.ptable] := by
  unfold Frame.atSched at sched
  split at sched <;> first | rfl | cases sched

theorem needs_sleep {pc : SleepPc} {chan n : Nat} {lk : Lock} (early : pc.rank < 7) :
    (Frame.sleep pc chan lk n).needs ≠ [] := by
  cases pc <;> simp_all [needs, SleepPc.rank]

end Frame

theorem top_of_isClient {old rest : List Frame} {f : Frame} (client : isClient old = true)
    (top : old = f :: rest) : f = .handler := by
  subst top
  cases f with
  | handler => rfl
  | _ => cases client

namespace Turn
variable {n m : Nat} {old new : List Frame} {op : Op}

theorem le (turn : Turn n m old op new) : n ≤ m := by
  cases turn <;> simp

theorem wf (turn : Turn n m old op new) (wf : ∀ f ∈ old, f.wf) : ∀ f ∈ new, f.wf := by
  cases turn with
  | go rest next =>
    intro f member
    rcases List.mem_append.mp member with member | member
    · exact Frame.next_wf (wf _ List.mem_cons_self) next member
    · exact wf f (List.mem_cons_of_mem _ member)
  | call client call =>
    intro f member
    rcases List.mem_append.mp member with member | member
    · cases call <;> simp_all [Call.enter, Frame.wf]
      split <;> simp_all
    · exact wf f member
  | interrupt => exact List.forall_mem_cons.mpr ⟨trivial, wf⟩
  | iret rest => exact fun f member => wf f (List.mem_cons_of_mem _ member)

/-- Only the call on top holds locks. -/
theorem tail (turn : Turn n m old op new) (tail : ∀ f ∈ old.tail, f.needs = [])
    (quiet : op = .interruptible → ∀ f ∈ old, f.needs = []) : ∀ f ∈ new.tail, f.needs = [] := by
  cases turn with
  | @go f op frames rest next =>
    have short := Frame.next_length next
    match frames, short with
    | [], _ => exact fun g member => tail g (List.mem_of_mem_tail member)
    | [_], _ => exact tail
  | call client call =>
    have all : ∀ f ∈ old, f.needs = [] := by
      cases old with
      | nil => simp
      | cons f rest =>
        cases top_of_isClient client rfl
        exact List.forall_mem_cons.mpr ⟨rfl, tail⟩
    intro f member
    refine all f ?_
    cases call <;> first | exact List.mem_of_mem_tail member | exact member
  | interrupt => exact quiet rfl
  | iret rest => exact fun f member => tail f (List.mem_of_mem_tail member)

theorem needs (turn : Turn n m old op new) (wf : ∀ f ∈ old, f.wf)
    (tail : ∀ f ∈ old.tail, f.needs = []) {f : Frame} {rest : List Frame} (top : new = f :: rest)
    {l : Lock} (need : l ∈ f.needs) :
    (∃ g, old.head? = some g ∧ l ∈ g.needs ∧ op ≠ .unlock l) ∨ op = .lock l ∨ op = .holding l := by
  cases turn with
  | @go g op frames below next =>
    cases frames with
    | nil =>
      rw [List.nil_append] at top
      subst top
      rw [tail f List.mem_cons_self] at need
      cases need
    | cons h frames =>
      cases top
      rcases Frame.next_needs (wf g List.mem_cons_self) next List.mem_cons_self need
        with ⟨kept, other⟩ | locks
      · exact .inl ⟨g, rfl, kept, other⟩
      · exact .inr (.inl locks)
  | call client call =>
    have below (same : old = f :: rest) : l ∈ ([] : List Lock) := by
      cases top_of_isClient client same
      exact need
    cases call with
    | acquire | release => exact absurd (below top) List.not_mem_nil
    | sleep chan lk =>
      cases top
      refine .inr (.inr ?_)
      split at need <;> simp_all [Frame.needs, Call.enter]
    | wakeup | yield =>
      cases top
      cases need
    | wakeup1 =>
      cases top
      refine .inr (.inr ?_)
      simp_all [Frame.needs, Call.enter]
  | interrupt =>
    cases top
    cases need
  | iret =>
    subst top
    rw [tail f List.mem_cons_self] at need
    cases need

/-- A call that the thread is in, and that cannot be interrupted, goes on. -/
theorem goes {f : Frame} {base : List Frame} (turn : Turn n m (f :: base) op new)
    (call : f ≠ .handler) (busy : op ≠ .interruptible) :
    ∃ frames, f.next = some (op, frames) ∧ new = frames ++ base := by
  generalize stack : f :: base = old at turn
  cases turn with
  | go rest next =>
    cases stack
    exact ⟨_, next, rfl⟩
  | call client _ => exact absurd (top_of_isClient client stack.symm) call
  | interrupt => exact absurd rfl busy
  | iret => exact absurd rfl busy

theorem touches (turn : Turn n m old op new) (touches : op.touches) :
    ∃ f, old.head? = some f ∧ .ptable ∈ f.needs := by
  cases turn with
  | go rest next => exact ⟨_, rfl, Frame.next_touches next touches⟩
  | call client call => cases call <;> cases touches
  | interrupt | iret => cases touches

theorem parked (turn : Turn n m old op new) (switch : op = .sched ∨ ∃ i, op = .dispatch i) :
    ∃ g, new.head? = some g ∧ g.parked := by
  cases turn with
  | go rest next =>
    obtain ⟨g, rfl, parked⟩ := Frame.next_parked next switch
    exact ⟨g, rfl, parked⟩
  | call client call => cases call <;> simp [Call.enter] at switch
  | interrupt | iret => simp at switch

/-- A thread in `sched` does nothing else. -/
theorem atSched (turn : Turn n m old op new) {f : Frame} (top : old.head? = some f)
    (sched : f.atSched) : op = .sched ∨ op = .interruptible := by
  cases turn with
  | go rest next =>
    cases top
    exact .inl ((Frame.next_atSched next).mp sched)
  | call client call =>
    cases old with
    | nil => cases top
    | cons g rest =>
      cases top
      cases top_of_isClient client rfl
      cases sched
  | interrupt | iret => exact .inr rfl

theorem setState {state : Procstate} (turn : Turn n m old (.setState state) new) :
    ∃ g, new.head? = some g ∧ g.atSched := by
  generalize kind : Op.setState state = op at turn
  cases turn with
  | go rest next =>
    subst kind
    obtain ⟨g, rfl, sched⟩ := Frame.next_setState next
    exact ⟨g, rfl, sched⟩
  | call client call => cases call <;> cases kind
  | interrupt | iret => cases kind

/-- A call of `sleep` in progress is new, or was there before and has not gone back. -/
theorem sleep (turn : Turn n m old op new) {pc : SleepPc} {chan k : Nat} {lk : Lock}
    (member : .sleep pc chan lk k ∈ new) :
    (k = n ∧ m = n + 1) ∨ ∃ pc', .sleep pc' chan lk k ∈ old ∧ pc'.rank ≤ pc.rank := by
  cases turn with
  | go rest next =>
    rcases List.mem_append.mp member with member | member
    · obtain ⟨pc', rfl, before, -⟩ := Frame.next_sleep next member
      exact .inr ⟨pc', List.mem_cons_self, before⟩
    · exact .inr ⟨pc, List.mem_cons_of_mem _ member, le_rfl⟩
  | call client call =>
    rcases List.mem_append.mp member with member | member
    · cases call <;> simp_all [Call.enter]
    · exact .inr ⟨pc, member, le_rfl⟩
  | interrupt => exact .inr ⟨pc, (List.mem_cons.mp member).resolve_left nofun, le_rfl⟩
  | iret => exact .inr ⟨pc, List.mem_cons_of_mem _ member, le_rfl⟩

/-- A call of `sleep` that has switched away was in `sched`. -/
theorem sched {pc : SleepPc} {chan k : Nat} {lk : Lock} {rest : List Frame}
    (turn : Turn n m old .sched (.sleep pc chan lk k :: rest)) : .sleep .sched chan lk k ∈ old := by
  generalize kind : Op.sched = op, result : Frame.sleep pc chan lk k :: rest = new at turn
  cases turn with
  | go below next =>
    subst kind
    obtain ⟨g, rfl, -⟩ := Frame.next_parked next (.inl rfl)
    cases result
    cases Frame.next_sched next (List.mem_singleton_self _)
    exact List.mem_cons_self
  | call client call => cases call <;> cases kind
  | interrupt | iret => cases kind

/-- A call of `sleep` on top that has stored its channel has just done so, or had done so before. -/
theorem stored (turn : Turn n m old op new) (tail : ∀ f ∈ old.tail, f.needs = []) {pc : SleepPc}
    {chan k : Nat} {lk : Lock} {rest : List Frame} (top : new = .sleep pc chan lk k :: rest)
    (stored : pc.stored) :
    op = .setChan chan ∨
      ((∀ v, op ≠ .setChan v) ∧ ∃ pc' below, old = .sleep pc' chan lk k :: below ∧ pc'.stored) := by
  have busy : (Frame.sleep pc chan lk k).needs ≠ [] := by
    cases pc <;> simp_all [Frame.needs, SleepPc.stored]
  cases turn with
  | @go f op frames below next =>
    cases frames with
    | nil =>
      rw [List.nil_append] at top
      subst top
      exact absurd (tail _ List.mem_cons_self) busy
    | cons g frames =>
      cases top
      obtain ⟨pc', rfl, -, before⟩ := Frame.next_sleep next List.mem_cons_self
      rcases before stored with ⟨before, other⟩ | now
      · exact .inr ⟨other, pc', below, rfl, before⟩
      · exact .inl now
  | call client call =>
    cases call with
    | acquire | release => cases top_of_isClient client top
    | sleep chan lk =>
      cases top
      split at stored <;> cases stored
    | wakeup | yield | wakeup1 => cases top
  | interrupt => cases top
  | iret =>
    subst top
    exact absurd (tail _ List.mem_cons_self) busy

end Turn

namespace State
variable {s t : State} {a : Action} {c c' : Cpu} {op : Op}

/-- What an access by the thread on `c` does. -/
structure Effect (s : State) (c : Cpu) (op : Op) (t : State) : Prop where
  code : t.code = s.code
  calls : t.calls = s.calls
  other : ∀ c', c' ≠ c → t.held c' = s.held c' ∧ t.thread c' = s.thread c'
  locked : ∀ l ∈ t.held c, l ∈ s.held c ∨ s.free l
  kept : ∀ l ∈ s.held c, op ≠ .unlock l → l ∈ t.held c
  gained : ∀ l, op = .lock l ∨ op = .holding l → l ∈ t.held c
  free : ∀ l, op = .lock l → s.free l
  quiet : op = .interruptible → s.held c = []
  thread : (t.thread c = s.thread c ∧ op ≠ .sched) ∨
    (op = .sched ∧ s.held c = [.ptable] ∧ (∃ p, s.thread c = .proc p) ∧ t.thread c = .scheduler c) ∨
    ∃ i, op = .dispatch i ∧ s.state i = .runnable ∧ t.state i = .running ∧ t.thread c = .proc i
  untouched : ¬ op.touches → t.state = s.state ∧ t.chan = s.chan
  chan : ∀ p, s.thread c ≠ .proc p ∨ (∀ v, op ≠ .setChan v) → t.chan p = s.chan p
  setChan : ∀ p v, s.thread c = .proc p → op = .setChan v → t.chan p = v
  woken : ∀ i chan, op = .wake i chan → ¬ (t.state i = .sleeping ∧ t.chan i = chan)
  state : ∀ p, t.state p = s.state p ∨ (s.thread c = .proc p ∧ ∃ state, op = .setState state) ∨
    (s.state p = .sleeping ∧ t.state p = .runnable) ∨ (s.state p = .runnable ∧ t.state p = .running)

theorem exec_effect (done : s.exec c op = some t) : s.Effect c op t := by
  cases op with
  | nop =>
    cases done
    constructor <;> simp_all [Op.touches]
  | lock l =>
    simp only [exec] at done
    split at done
    · cases done
      constructor <;> simp_all [Op.touches, setHeld]
    · cases done
  | unlock l =>
    simp only [exec] at done
    split at done
    · cases done
      constructor <;> simp_all [Op.touches, setHeld]
      · exact fun l member => .inl (List.mem_of_mem_erase member)
      · exact fun l member other => (List.mem_erase_of_ne (Ne.symm other)).mpr member
    · cases done
  | holding l =>
    simp only [exec] at done
    split at done
    · cases done
      constructor <;> simp_all [Op.touches]
    · cases done
  | interruptible =>
    simp only [exec] at done
    split at done
    · cases done
      constructor <;> simp_all [Op.touches]
    · cases done
  | setChan v =>
    simp only [exec] at done
    split at done
    · cases done
      constructor <;> simp_all [Op.touches]
      exact fun p other => Function.update_of_ne (Ne.symm other) ..
    · cases done
  | setState state =>
    simp only [exec] at done
    split at done
    · next p self =>
      cases done
      constructor <;> simp_all [Op.touches, State.setState]
      intro q
      obtain rfl | other := eq_or_ne q p <;> simp_all
    · cases done
  | wake i v =>
    simp only [exec] at done
    cases done
    split
    · constructor <;> simp_all [Op.touches, State.setState]
      intro q
      obtain rfl | other := eq_or_ne q i <;> simp_all
    · constructor <;> simp_all [Op.touches]
  | sched =>
    simp only [exec] at done
    split at done
    · split at done
      · cases done
        constructor <;> simp_all [Op.touches]
      · cases done
    · cases done
  | dispatch i =>
    simp only [exec] at done
    cases done
    split
    · constructor <;> simp_all [Op.touches, State.setState]
      intro q
      obtain rfl | other := eq_or_ne q i <;> simp_all
    · constructor <;> simp_all [Op.touches]

/-- The thread on `c` goes on with `frames` and has made `m` calls. -/
def moved (s : State) (c : Cpu) (frames : List Frame) (m : Nat) : State :=
  { s with
    code := Function.update s.code (s.thread c) frames
    calls := fun p => if s.thread c = .proc p then m else s.calls p }

theorem count_proc {p : Slot} (self : s.thread c = .proc p) : s.count (s.thread c) = s.calls p := by
  rw [self]
  rfl

theorem perform_effect {frames : List Frame} (done : s.perform c op frames = some t) :
    (s.moved c frames (s.count (s.thread c))).Effect c op t := by
  have same : s.moved c frames (s.count (s.thread c)) =
      { s with code := Function.update s.code (s.thread c) frames } := by
    rw [moved]
    congr
    funext p
    split
    · exact count_proc ‹_›
    · rfl
  rw [same]
  exact exec_effect done

theorem call_effect {call : Call} (taken : step s (.call c call) = some t) :
    isClient (s.code (s.thread c)) = true ∧
      (s.moved c ((call.enter (s.count (s.thread c))).2 ++ s.code (s.thread c))
        (s.count (s.thread c) + 1)).Effect c
        (call.enter (s.count (s.thread c))).1 t := by
  simp only [step] at taken
  split at taken
  · next client =>
    refine ⟨client.1, ?_⟩
    have same (frames : List Frame) : s.moved c frames (s.count (s.thread c) + 1) =
        { s.counted (s.thread c) with code := Function.update s.code (s.thread c) frames } := by
      rw [moved, counted]
      congr
      funext p
      dsimp only
      split
      · rw [count_proc ‹_›]
      · rfl
    rw [same]
    exact exec_effect taken
  · cases taken

theorem step_turn (taken : step s a = some t) : ∃ c m op frames,
    Turn (s.count (s.thread c)) m (s.code (s.thread c)) op frames ∧
      (s.moved c frames m).Effect c op t := by
  cases a with
  | go c =>
    simp only [step] at taken
    split at taken
    · cases taken
    · next f rest code =>
      obtain ⟨⟨op, frames⟩, next, done⟩ := Option.bind_eq_some_iff.mp taken
      exact ⟨c, _, op, _, code ▸ .go rest next, perform_effect done⟩
  | call c call =>
    obtain ⟨client, effect⟩ := call_effect taken
    exact ⟨c, _, _, _, .call client call, effect⟩
  | interrupt c => exact ⟨c, _, _, _, .interrupt _, perform_effect taken⟩
  | iret c =>
    simp only [step] at taken
    split at taken
    · next rest code => exact ⟨c, _, _, _, code ▸ .iret rest, perform_effect taken⟩
    · cases taken

/-- What the locks give, in every state. -/
structure Inv (s : State) : Prop where
  mutex : ∀ l c c', l ∈ s.held c → l ∈ s.held c' → c = c'
  unique : ∀ c c', s.thread c = s.thread c' → c = c'
  scheduler : ∀ c c', s.thread c = .scheduler c' → c = c'
  wf : ∀ self, ∀ f ∈ s.code self, f.wf
  tail : ∀ self, ∀ f ∈ (s.code self).tail, f.needs = []
  holds : ∀ c f, (s.code (s.thread c)).head? = some f → ∀ l ∈ f.needs, l ∈ s.held c
  parked : ∀ self f, (s.code self).head? = some f → (∃ c, s.thread c = self) ∨ f.parked
  running : ∀ c p, s.thread c = .proc p →
    s.state p = .running ∨ ∃ f, (s.code (.proc p)).head? = some f ∧ f.atSched
  chan : ∀ p pc chan lk n rest, s.code (.proc p) = .sleep pc chan lk n :: rest → pc.stored →
    s.chan p = chan
  number : ∀ p pc chan lk n, .sleep pc chan lk n ∈ s.code (.proc p) → n < s.calls p

namespace Inv

theorem boot (ready : Slot → Bool) : Inv (Sleep.boot ready) := by
  have code (self : Thread) :
      (∃ c, self = .scheduler c ∧ (Sleep.boot ready).code self = [.scheduler .enter]) ∨
      (Sleep.boot ready).code self = [.forkret] ∨ (Sleep.boot ready).code self = [] := by
    cases self with
    | scheduler c => exact .inl ⟨c, rfl, rfl⟩
    | proc p => by_cases first : ready p = true <;> simp [Sleep.boot, first]
  constructor
  · exact fun l c c' member => absurd member List.not_mem_nil
  · exact fun c c' same => Thread.scheduler.inj same
  · exact fun c c' same => Thread.scheduler.inj same
  · intro self f member
    obtain ⟨_, _, same⟩ | same | same := code self <;> simp_all [Frame.wf]
  · intro self f member
    obtain ⟨_, _, same⟩ | same | same := code self <;> simp_all
  · intro c f top l need
    cases top
    cases need
  · intro self f top
    obtain ⟨c, rfl, -⟩ | same | same := code self
    · exact .inl ⟨c, rfl⟩
    · rw [same] at top
      cases top
      exact .inr trivial
    · rw [same] at top
      cases top
  · exact fun c p same => by cases same
  · intro p pc chan lk n rest top
    obtain ⟨_, _, same⟩ | same | same := code (.proc p) <;> simp_all
  · intro p pc chan lk n member
    obtain ⟨_, _, same⟩ | same | same := code (.proc p) <;> simp_all

variable {frames : List Frame} {m : Nat}

/-- A switch or an access to the process table is made on the CPU that holds `ptable.lock`. -/
theorem touches (inv : Inv s) (turn : Turn (s.count (s.thread c)) m (s.code (s.thread c)) op frames)
    (touches : op.touches) : .ptable ∈ s.held c := by
  obtain ⟨f, top, need⟩ := turn.touches touches
  exact inv.holds c f top _ need

/-- A process that a scheduler finds runnable runs nowhere. -/
theorem not_running (inv : Inv s) {i : Slot}
    (turn : Turn (s.count (s.thread c)) m (s.code (s.thread c)) (.dispatch i) frames)
    (runnable : s.state i = .runnable) (c' : Cpu) : s.thread c' ≠ .proc i := by
  intro runs
  rcases inv.running c' i runs with running | ⟨f, top, sched⟩
  · cases runnable.symm.trans running
  · rw [← runs] at top
    have held := inv.holds c' f top .ptable (by simp [Frame.needs_of_atSched sched])
    cases inv.mutex _ _ _ (inv.touches turn trivial) held
    rcases turn.atSched top sched with other | other <;> cases other

/-- Nothing on the stack of a CPU that can be interrupted holds a lock. -/
theorem quiet (inv : Inv s) (none : s.held c = []) : ∀ f ∈ s.code (s.thread c), f.needs = [] := by
  intro f member
  cases code : s.code (s.thread c) with
  | nil =>
    rw [code] at member
    cases member
  | cons g rest =>
    rw [code] at member
    rcases List.mem_cons.mp member with rfl | below
    · refine List.eq_nil_iff_forall_not_mem.mpr fun l need => ?_
      have held := inv.holds c f (by rw [code]; rfl) l need
      rw [none] at held
      cases held
    · exact inv.tail (s.thread c) f (by rw [code]; exact below)

section Step
variable (inv : Inv s) (turn : Turn (s.count (s.thread c)) m (s.code (s.thread c)) op frames)
  (effect : (s.moved c frames m).Effect c op t)

include effect in
theorem code_self : t.code (s.thread c) = frames := by
  rw [effect.code]
  exact Function.update_self ..

include effect in
theorem code_other {self : Thread} (other : self ≠ s.thread c) : t.code self = s.code self := by
  rw [effect.code]
  exact Function.update_of_ne other ..

include inv turn effect

theorem mutex_step : ∀ l c₁ c₂, l ∈ t.held c₁ → l ∈ t.held c₂ → c₁ = c₂ := by
  have mixed {l : Lock} {c' : Cpu} (other : c' ≠ c) (here : l ∈ t.held c)
      (there : l ∈ t.held c') : False := by
    rw [(effect.other c' other).1] at there
    rcases effect.locked l here with before | free
    · exact other (inv.mutex l c' c there before)
    · exact free c' there
  intro l c₁ c₂ first second
  obtain rfl | other₁ := eq_or_ne c₁ c
  · obtain rfl | other₂ := eq_or_ne c₂ c₁
    · rfl
    · exact (mixed other₂ first second).elim
  · obtain rfl | other₂ := eq_or_ne c₂ c
    · exact (mixed other₁ second first).elim
    · rw [(effect.other _ other₁).1] at first
      rw [(effect.other _ other₂).1] at second
      exact inv.mutex l c₁ c₂ first second

theorem unique_step : ∀ c₁ c₂, t.thread c₁ = t.thread c₂ → c₁ = c₂ := by
  have mixed {c' : Cpu} (other : c' ≠ c) (same : t.thread c = t.thread c') : False := by
    rw [(effect.other c' other).2] at same
    rcases effect.thread with ⟨stays, -⟩ | ⟨-, -, -, out⟩ | ⟨i, rfl, runnable, -, into⟩
    · exact other (inv.unique _ _ (same.symm.trans stays))
    · exact other (inv.scheduler _ _ (same.symm.trans out))
    · exact inv.not_running turn runnable c' (same.symm.trans into)
  intro c₁ c₂ same
  obtain rfl | other₁ := eq_or_ne c₁ c
  · obtain rfl | other₂ := eq_or_ne c₂ c₁
    · rfl
    · exact (mixed other₂ same).elim
  · obtain rfl | other₂ := eq_or_ne c₂ c
    · exact (mixed other₁ same.symm).elim
    · rw [(effect.other _ other₁).2, (effect.other _ other₂).2] at same
      exact inv.unique c₁ c₂ same

theorem scheduler_step : ∀ c₁ c₂, t.thread c₁ = .scheduler c₂ → c₁ = c₂ := by
  intro c₁ c₂ same
  obtain rfl | other := eq_or_ne c₁ c
  · rcases effect.thread with ⟨stays, -⟩ | ⟨-, -, -, out⟩ | ⟨i, -, -, -, into⟩
    · exact inv.scheduler _ _ (stays.symm.trans same)
    · exact Thread.scheduler.inj (out.symm.trans same)
    · cases into.symm.trans same
  · exact inv.scheduler _ _ ((effect.other _ other).2.symm.trans same)

theorem wf_step : ∀ self, ∀ f ∈ t.code self, f.wf := by
  intro self
  obtain rfl | other := eq_or_ne self (s.thread c)
  · rw [code_self effect]
    exact turn.wf (inv.wf _)
  · rw [code_other effect other]
    exact inv.wf self

theorem tail_step : ∀ self, ∀ f ∈ (t.code self).tail, f.needs = [] := by
  intro self
  obtain rfl | other := eq_or_ne self (s.thread c)
  · rw [code_self effect]
    exact turn.tail (inv.tail _) fun interrupted => inv.quiet (effect.quiet interrupted)
  · rw [code_other effect other]
    exact inv.tail self

theorem holds_step :
    ∀ c' f, (t.code (t.thread c')).head? = some f → ∀ l ∈ f.needs, l ∈ t.held c' := by
  intro c' f top l need
  obtain rfl | other := eq_or_ne c' c
  · rcases effect.thread with ⟨stays, -⟩ | ⟨rfl, held, ⟨p, self⟩, out⟩ | ⟨i, rfl, runnable, -, into⟩
    · rw [show t.thread c' = s.thread c' from stays, code_self effect] at top
      obtain ⟨rest, code⟩ := List.head?_eq_some_iff.mp top
      rcases turn.needs (inv.wf _) (inv.tail _) code need with ⟨g, before, needed, kept⟩ | gained
      · exact effect.kept l (inv.holds _ g before l needed) kept
      · exact effect.gained l gained
    · change s.thread c' = .proc p at self
      rw [out, code_other effect (by rw [self]; nofun)] at top
      have parked : f.parked := by
        rcases inv.parked _ f top with ⟨c₁, runs⟩ | parked
        · cases inv.scheduler _ _ runs
          cases self.symm.trans runs
        · exact parked
      rw [Frame.needs_of_parked parked, List.mem_singleton] at need
      subst need
      exact effect.kept _
        (by rw [show (s.moved _ _ _).held _ = _ from held]; exact List.mem_singleton_self _) nofun
    · rw [into, code_other effect (inv.not_running turn runnable _).symm] at top
      have parked : f.parked := by
        rcases inv.parked _ f top with ⟨c₁, runs⟩ | parked
        · exact absurd runs (inv.not_running turn runnable c₁)
        · exact parked
      rw [Frame.needs_of_parked parked, List.mem_singleton] at need
      subst need
      exact effect.kept _ (inv.touches turn trivial) nofun
  · obtain ⟨held, thread⟩ := effect.other _ other
    change t.thread c' = s.thread c' at thread
    rw [thread, code_other effect (fun same => other (inv.unique c' c same))] at top
    rw [held]
    exact inv.holds c' f top l need

theorem parked_step :
    ∀ self f, (t.code self).head? = some f → (∃ c', t.thread c' = self) ∨ f.parked := by
  intro self f top
  obtain rfl | other := eq_or_ne self (s.thread c)
  · rw [code_self effect] at top
    have switched (switch : op = .sched ∨ ∃ i, op = .dispatch i) : f.parked := by
      obtain ⟨g, first, parked⟩ := turn.parked switch
      cases top.symm.trans first
      exact parked
    rcases effect.thread with ⟨stays, -⟩ | ⟨rfl, -⟩ | ⟨i, rfl, -⟩
    · exact .inl ⟨c, stays⟩
    · exact .inr (switched (.inl rfl))
    · exact .inr (switched (.inr ⟨i, rfl⟩))
  · rw [code_other effect other] at top
    rcases inv.parked self f top with ⟨c', runs⟩ | parked
    · refine .inl ⟨c', ?_⟩
      rw [(effect.other c' fun same => other (runs.symm.trans (congrArg s.thread same))).2]
      exact runs
    · exact .inr parked

theorem running_step : ∀ c' p, t.thread c' = .proc p →
    t.state p = .running ∨ ∃ f, (t.code (.proc p)).head? = some f ∧ f.atSched := by
  intro c' p runs
  obtain rfl | other := eq_or_ne c' c
  · rcases effect.thread with ⟨stays, stay⟩ | ⟨-, -, -, out⟩ | ⟨i, -, -, running, into⟩
    · have self : s.thread c' = .proc p := stays.symm.trans runs
      rcases inv.running _ p self with running | ⟨f, top, sched⟩
      · rcases effect.state p with same | ⟨-, state, rfl⟩ | ⟨sleeping, -⟩ | ⟨runnable, -⟩
        · exact .inl (same.trans running)
        · rw [← self, code_self effect]
          exact .inr turn.setState
        · cases running.symm.trans sleeping
        · cases running.symm.trans runnable
      · rw [← self] at top
        rcases turn.atSched top sched with rfl | rfl
        · exact absurd rfl stay
        · have none := inv.quiet (effect.quiet rfl) f (List.mem_of_mem_head? top)
          rw [Frame.needs_of_atSched sched] at none
          cases none
    · cases out.symm.trans runs
    · cases Thread.proc.inj (into.symm.trans runs)
      exact .inl running
  · have runs' : s.thread c' = .proc p := (effect.other c' other).2.symm.trans runs
    have self : Thread.proc p ≠ s.thread c := fun same => other (inv.unique c' c (runs'.trans same))
    rw [code_other effect self]
    rcases inv.running c' p runs' with running | sched
    · refine .inl ?_
      rcases effect.state p with same | ⟨same, -⟩ | ⟨sleeping, -⟩ | ⟨runnable, -⟩
      · exact same.trans running
      · exact absurd same.symm self
      · cases running.symm.trans sleeping
      · cases running.symm.trans runnable
    · exact .inr sched

theorem chan_step : ∀ p pc chan lk n rest, t.code (.proc p) = .sleep pc chan lk n :: rest →
    pc.stored → t.chan p = chan := by
  intro p pc chan lk n rest top stored
  by_cases self : s.thread c = .proc p
  · rw [← self, code_self effect] at top
    rcases turn.stored (inv.tail _) top stored with rfl | ⟨kept, pc', below, before, stored'⟩
    · exact effect.setChan p chan self rfl
    · rw [effect.chan p (.inr kept)]
      exact inv.chan p pc' chan lk n below (self ▸ before) stored'
  · rw [code_other effect (Ne.symm self)] at top
    rw [effect.chan p (.inl self)]
    exact inv.chan p pc chan lk n rest top stored

theorem number_step : ∀ p pc chan lk n, .sleep pc chan lk n ∈ t.code (.proc p) → n < t.calls p := by
  intro p pc chan lk n member
  have calls : t.calls p = if s.thread c = .proc p then m else s.calls p := congrFun effect.calls p
  by_cases self : s.thread c = .proc p
  · rw [← self, code_self effect] at member
    rw [calls, if_pos self]
    rcases turn.sleep member with ⟨rfl, rfl⟩ | ⟨pc', before, -⟩
    · exact Nat.lt_succ_self _
    · rw [self] at before
      exact (inv.number p pc' chan lk n before).trans_le (count_proc self ▸ turn.le)
  · rw [code_other effect (Ne.symm self)] at member
    rw [calls, if_neg self]
    exact inv.number p pc chan lk n member

end Step

theorem step (inv : Inv s) (taken : Sleep.step s a = some t) : Inv t := by
  obtain ⟨c, m, op, frames, turn, effect⟩ := step_turn taken
  exact ⟨mutex_step inv turn effect, unique_step inv turn effect, scheduler_step inv turn effect,
    wf_step inv turn effect, tail_step inv turn effect, holds_step inv turn effect,
    parked_step inv turn effect, running_step inv turn effect, chan_step inv turn effect,
    number_step inv turn effect⟩

end Inv
end State

open State in
/-- In every run a spinlock has one holder, a process is on one CPU, and there it is
RUNNING, unless the CPU holds `ptable.lock` as on the way into `sched`. -/
theorem one_cpu_each {ready : Slot → Bool} {schedule : List Action} {s : State}
    (reached : Transition.run step (boot ready) schedule = some s) :
    (∀ l c c', l ∈ s.held c → l ∈ s.held c' → c = c') ∧
      (∀ p c c', s.thread c = .proc p → s.thread c' = .proc p → c = c') ∧
      ∀ c p, s.thread c = .proc p → s.state p = .running ∨ .ptable ∈ s.held c := by
  have inv : Inv s :=
    Transition.invariant (fun _ _ _ inv taken => inv.step taken) reached (.boot ready)
  refine ⟨inv.mutex, fun p c c' here there => inv.unique c c' (here.trans there.symm),
    fun c p here => ?_⟩
  obtain running | ⟨f, top, sched⟩ := inv.running c p here
  · exact .inl running
  · exact .inr (inv.holds c f (here ▸ top) .ptable (by simp [Frame.needs_of_atSched sched]))

/-- The first process yields, the second takes its CPU, and another CPU goes on with the first. -/
def exchange : List Action :=
  [.go 0, .go 0, .go 0, .call 0 .yield, .go 0, .go 0, .go 0, .go 0, .go 0, .go 1, .go 1]

theorem dispatched_on_one_cpu : ∃ s, Transition.run step (boot (· ≤ 1)) exchange = some s ∧
    (s.thread 0 = .proc 1 ∧ ∀ c, s.thread c = .proc 1 → c = 0) ∧
    (s.thread 1 = .proc 0 ∧ ∀ c, s.thread c = .proc 0 → c = 1) ∧
    .ptable ∈ s.held 1 ∧ ∀ c, .ptable ∈ s.held c → c = 1 := by
  have reached : Transition.run step (boot (· ≤ 1)) exchange = some _ := rfl
  obtain ⟨mutex, unique, -⟩ := one_cpu_each reached
  have second : Lock.ptable ∈ [Lock.ptable] := List.mem_singleton_self _
  exact ⟨_, reached, ⟨rfl, fun c there => unique 1 c 0 there rfl⟩,
    ⟨rfl, fun c there => unique 0 c 1 there rfl⟩, second,
    fun c there => mutex .ptable c 1 there second⟩

end Aso.Xv6.Sleep
