import Aso.Xv6.Ptable.Effect
import Aso.Xv6.Vm.Machine

/-! What `sys_wait` does to the memory of its caller. The call sees the process
table once for every scan under the lock, and once more after the release, when
the status is read; between those moments other processes do as they like. The
status is stored through the pointer whatever its value, and address 0 is an
address like any other: the first instructions of the program are there. -/
namespace Aso.Xv6.Ptable
open Vm (argptr)

/-- Memory as the process sees it: `byte` is what the processor finds once the
faults are served. -/
structure User where
  sz : Nat
  esp : Nat
  byte : Nat → UInt8

namespace User

/-- The argument that `sys_wait` accepts. -/
def pointer (u : User) : Option Nat := argptr u.sz u.byte u.esp 0 4

/-- The store of an `int`. -/
def store (u : User) (a value : Nat) : User := { u with byte := overwrite u.byte a (toLe 4 value) }

/-- The `int` at an address is this one already. -/
def Holds (u : User) (a value : Nat) : Prop := ∀ i < 4, u.byte (a + i) = (toLe 4 value).getD i 0

theorem overwrite_int (u : User) (a value : Nat) {i : Nat} (inside : i < 4) :
    overwrite u.byte a (toLe 4 value) (a + i) = (toLe 4 value).getD i 0 := by
  rw [overwrite, if_pos (Nat.le_add_right a i), Nat.add_sub_cancel_left, List.getD_eq_getElem?_getD,
    List.getElem?_eq_getElem (by rwa [length_toLe])]
  rfl

theorem store_outside (u : User) {a b : Nat} (value : Nat) (outside : b < a ∨ a + 4 ≤ b) :
    (u.store a value).byte b = u.byte b :=
  overwrite_outside u.byte (by rwa [length_toLe])

theorem store_eq_iff (u : User) (a value : Nat) :
    (u.store a value).byte = u.byte ↔ u.Holds a value := by
  constructor
  · intro same i inside
    have there := congrFun same (a + i)
    rw [← there]
    exact u.overwrite_int a value inside
  · intro holds
    funext b
    by_cases inside : a ≤ b ∧ b < a + 4
    · obtain ⟨i, rfl⟩ := Nat.exists_eq_add_of_le inside.1
      have small : i < 4 := by omega
      rw [holds i small]
      exact u.overwrite_int a value small
    · exact u.store_outside value (by omega)

end User

/-- How one scan of `wait` ends. -/
inductive Scan where
  | reap (q : Slot)
  | fail
  | sleep

namespace State

def scan (s : State) (p : Slot) : Scan :=
  match s.zombieChild p with
  | some q => .reap q
  | none =>
    match first fun q => (s.proc q).parent = some p with
    | none => .fail
    | some _ => if (s.proc p).killed then .fail else .sleep

/-- The section of `wait` under the lock, by how its scan ends. -/
theorem waitScan_eq (s : State) (p : Slot) :
    s.waitScan p = match s.scan p with
      | .reap q =>
        ((s.setProc q (s.proc q).reaped).setPc q .absent).setPc p
          (.waitRead q (s.proc q).pid (s.uid q))
      | .fail => s.setPc p .sysReturn
      | .sleep => s.setProc p { s.proc p with chan := some (.proc p), state := .sleeping } := by
  simp only [waitScan, scan]
  cases s.zombieChild p with
  | some q => rfl
  | none =>
    cases first fun q => (s.proc q).parent = some p with
    | none => rfl
    | some q => cases (s.proc p).killed <;> rfl

end State

/-- `wait(status)`: the result, `none` while the caller sleeps, and its memory. -/
def wait (p : Slot) (status : Nat) (u : User) : List State → Option Int × User
  | [] => (none, u)
  | s :: seen =>
    match s.scan p with
    | .reap q =>
      match seen with
      | [] => (none, u)
      -- the lock is released before `p->status` is read
      | t :: _ => (some (s.proc q).pid, u.store status (t.proc q).status)
    | .fail => (some (-1), u)
    | .sleep => wait p status u seen

def sysWait (p : Slot) (u : User) (seen : List State) : Option Int × User :=
  match u.pointer with
  | none => (some (-1), u)
  | some status => wait p status u seen

/-- The call goes as the machine does: where a scan leaves the process decides what the call
does with the states it sees next. -/
theorem wait_step {s t : State} {p : Slot} {ok : Bool} (scans : s.pc p = .sysBody .wait)
    (taken : s.step (.go p ok) = some t) (status : Nat) (u : User) (seen : List State) :
    wait p status u (s :: seen) = match t.pc p, seen with
      | .waitRead _ _ _, [] => (none, u)
      | .waitRead q pid _, v :: _ => (some pid, u.store status (v.proc q).status)
      | .sysReturn, _ => (some (-1), u)
      | _, _ => wait p status u seen := by
  simp only [State.step, Option.ite_none_right_eq_some] at taken
  obtain ⟨-, taken⟩ := taken
  rw [scans] at taken
  cases taken
  rw [wait, State.waitScan_eq]
  cases s.scan p with
  | reap q => cases seen <;> simp [State.setPc]
  | fail => simp [State.setPc]
  | sleep => simp [State.setProc, scans]

/-- What the machine reports is what the call returns and stores. -/
theorem wait_reported {s s' t t' : State} {p q : Slot} {ok ok' : Bool} {pid : Int} {child : Nat}
    (scans : s.pc p = .sysBody .wait) (found : s.step (.go p ok) = some s')
    (reading : s'.pc p = .waitRead q pid child) (still : t.pc p = .waitRead q pid child)
    (taken : t.step (.go p ok') = some t') (status : Nat) (u : User) :
    ∃ r : Report, t'.reports = t.reports ++ [r] ∧
      wait p status u [s, t] = (some r.pid, u.store status r.st) := by
  simp only [State.step, Option.ite_none_right_eq_some] at taken
  obtain ⟨-, taken⟩ := taken
  rw [still] at taken
  cases taken
  exact ⟨_, rfl, by rw [wait_step scans found, reading]⟩

/-- After scans that find nothing the caller reaps the child in slot `q`, whose
status field then holds `status`. -/
def Reaps (p : Slot) (seen : List State) (q : Slot) (status : Nat) : Prop :=
  ∃ before s t rest, seen = before ++ s :: t :: rest ∧ (∀ r ∈ before, r.scan p matches .sleep) ∧
    s.scan p = .reap q ∧ (t.proc q).status = status

variable {p q : Slot} {seen : List State} {u : User} {status value : Nat}

theorem Reaps.skip {s : State} (asleep : s.scan p = .sleep) :
    Reaps p (s :: seen) q value ↔ Reaps p seen q value := by
  constructor
  · rintro ⟨before, s', t, rest, whole, sleeps, found, read⟩
    cases before with
    | nil =>
      obtain ⟨rfl, -⟩ := List.cons_eq_cons.mp whole
      rw [asleep] at found
      cases found
    | cons r before =>
      obtain ⟨-, whole⟩ := List.cons_eq_cons.mp whole
      exact ⟨before, s', t, rest, whole, fun r' later => sleeps r' (List.mem_cons_of_mem _ later),
        found, read⟩
  · rintro ⟨before, s', t, rest, rfl, sleeps, found, read⟩
    refine ⟨s :: before, s', t, rest, rfl, fun r earlier => ?_, found, read⟩
    obtain rfl | earlier := List.mem_cons.mp earlier
    · rw [asleep]
    · exact sleeps r earlier

/-- A scan that does not sleep is the last. -/
theorem Reaps.stop {s : State} (awake : s.scan p ≠ .sleep) :
    Reaps p (s :: seen) q value ↔ s.scan p = .reap q ∧ ∃ t rest, seen = t :: rest ∧
      (t.proc q).status = value := by
  constructor
  · rintro ⟨before, s', t, rest, whole, sleeps, found, read⟩
    cases before with
    | nil =>
      obtain ⟨rfl, rfl⟩ := List.cons_eq_cons.mp whole
      exact ⟨found, t, rest, rfl, read⟩
    | cons r before =>
      obtain ⟨rfl, -⟩ := List.cons_eq_cons.mp whole
      have asleep := sleeps s List.mem_cons_self
      cases h : s.scan p <;> simp_all
  · rintro ⟨found, t, rest, rfl, read⟩
    exact ⟨[], s, t, rest, rfl, fun r none => absurd none List.not_mem_nil, found, read⟩

/-- The memory after `wait`: as before, or with the status of the child it reaped. -/
theorem wait_memory (p : Slot) (status : Nat) (u : User) (seen : List State) :
    ((wait p status u seen).2 = u ∧ ∀ q value, ¬ Reaps p seen q value) ∨
      ∃ q value, (wait p status u seen).2 = u.store status value ∧
        ∀ r other, Reaps p seen r other ↔ r = q ∧ other = value := by
  induction seen with
  | nil =>
    refine .inl ⟨rfl, fun q value => ?_⟩
    rintro ⟨before, s, t, rest, whole, -⟩
    exact List.append_ne_nil_of_right_ne_nil before (List.cons_ne_nil _ _) whole.symm
  | cons s seen ih =>
    cases ended : s.scan p with
    | sleep =>
      have same : wait p status u (s :: seen) = wait p status u seen := by rw [wait, ended]
      simp only [same, Reaps.skip ended]
      exact ih
    | fail =>
      have awake : s.scan p ≠ .sleep := by rw [ended]; exact Scan.noConfusion
      refine .inl ⟨by rw [wait, ended], fun q value reaps => ?_⟩
      rw [Reaps.stop awake, ended] at reaps
      cases reaps.1
    | reap q =>
      have awake : s.scan p ≠ .sleep := by rw [ended]; exact Scan.noConfusion
      simp only [Reaps.stop awake]
      cases seen with
      | nil =>
        refine .inl ⟨by rw [wait, ended], fun r value reaps => ?_⟩
        obtain ⟨-, t, rest, whole, -⟩ := reaps
        cases whole
      | cons t rest =>
        refine .inr ⟨q, (t.proc q).status, by rw [wait, ended], fun r other => ?_⟩
        simp only [ended, Scan.reap.injEq, List.cons.injEq]
        constructor
        · rintro ⟨rfl, t', rest', ⟨rfl, -⟩, read⟩
          exact ⟨rfl, read.symm⟩
        · rintro ⟨rfl, rfl⟩
          exact ⟨rfl, t, rest, ⟨rfl, rfl⟩, rfl⟩

/-- What a call of `wait` may do to the memory of its caller. -/
structure Frames (p : Slot) (seen : List State) (u v : User) : Prop where
  inside : ∀ a, v.byte a ≠ u.byte a → ∃ status, u.pointer = some status ∧ status ≤ a ∧
    a < status + 4
  reaping : v.byte ≠ u.byte → ∃ q value, Reaps p seen q value
  null : u.pointer = some 0 → v.byte = u.byte

/-- A call of `wait` keeps to its frame exactly when, if the pointer is null, the
status of the child it reaps is stored at address 0 already. -/
theorem sysWait_frames_iff (p : Slot) (u : User) (seen : List State) :
    Frames p seen u (sysWait p u seen).2 ↔
      (u.pointer = some 0 → ∀ q value, Reaps p seen q value → u.Holds 0 value) := by
  cases accepted : u.pointer with
  | none =>
    have same : (sysWait p u seen).2 = u := by rw [sysWait, accepted]
    rw [same]
    exact ⟨fun _ null => (by cases null),
      fun _ => ⟨fun a changed => absurd rfl changed, fun changed => absurd rfl changed,
      fun _ => rfl⟩⟩
  | some status =>
    have called : (sysWait p u seen).2 = (wait p status u seen).2 := by rw [sysWait, accepted]
    rw [called]
    obtain ⟨same, none⟩ | ⟨q, value, stored, only⟩ := wait_memory p status u seen
    · rw [same]
      exact ⟨fun _ _ q value reaps => absurd reaps (none q value),
        fun _ => ⟨fun a changed => absurd rfl changed, fun changed => absurd rfl changed,
        fun _ => rfl⟩⟩
    · rw [stored]
      have reaps : Reaps p seen q value := (only q value).mpr ⟨rfl, rfl⟩
      constructor
      · rintro frames null r other reaped
        obtain ⟨rfl, rfl⟩ := (only r other).mp reaped
        obtain rfl : status = 0 := Option.some.inj null
        exact (u.store_eq_iff 0 other).mp (frames.null accepted)
      · intro holds
        refine ⟨fun a changed => ⟨status, accepted, ?_⟩, fun _ => ⟨q, value, reaps⟩, fun null => ?_⟩
        · by_contra outside
          exact changed (u.store_outside value (by omega))
        · obtain rfl : status = 0 := Option.some.inj (accepted.symm.trans null)
          exact (u.store_eq_iff 0 value).mpr (holds rfl q value reaps)

/-- The first process waits for a zombie in slot 1 that called `exit(1)`. -/
def oneZombie : State :=
  { userinit with proc := Function.update userinit.proc 1 ⟨.zombie, 2, some 0, none, false, 256⟩ }

/-- One page of memory that starts with a `ret`, and the argument 0 on the stack. -/
def nullCaller : User := ⟨4096, 4000, fun a => if a = 0 then 0xc3 else 0⟩

/-- `wait(0)` overwrites the first instruction of the program. -/
theorem null_wait_overwrites :
    nullCaller.pointer = some 0 ∧ (sysWait 0 nullCaller [oneZombie, oneZombie]).1 = some 2 ∧
      nullCaller.byte 0 = 0xc3 ∧ (sysWait 0 nullCaller [oneZombie, oneZombie]).2.byte 0 = 0 := by
  decide

end Aso.Xv6.Ptable
