import Aso.Xv6.Vm.Shows
import Mathlib.Data.List.GetD

/-! The stack that `exec` builds. The strings are pushed without a bound, each below the
one before; what keeps them in the stack is the guard page under it and the absence of
pages above it, since `copyout` fails on a range that has a page of either kind. -/
namespace Aso.Xv6.Vm
open Checked

/-- Users may access the pages below `sz`, the guard page at `g` apart. -/
def Open (d : Pgdir) (g sz : Nat) : Prop :=
  ∀ a < 2 ^ 32, (d.place a).isSome ↔ a < sz ∧ ¬ (g ≤ a ∧ a < g + pgsize)

/-- No two addresses share a byte of memory. -/
def Injective (d : Pgdir) : Prop :=
  ∀ a < 2 ^ 32, ∀ b < 2 ^ 32, ∀ q, d.place a = some q → d.place b = some q → a = b

/-- The bytes at the user addresses from `a` on. -/
def Holds (m : Mem) (d : Pgdir) (a : Nat) (bytes : List UInt8) : Prop :=
  ∀ i < bytes.length, ∃ q, d.place (a + i) = some q ∧ m.byte q = bytes.getD i 0

/-- Only the bytes at the user addresses from `a` up to `b` have changed. -/
def Within (m : Mem) (d : Pgdir) (a b : Nat) (m' : Mem) : Prop :=
  ∀ q, (∀ x, a ≤ x → x < b → d.place x ≠ some q) → m'.byte q = m.byte q

section Copies
variable {m m' m₁ : Mem} {d : Pgdir} {a b c x : Nat} {bytes more : List UInt8}

theorem Within.refl (m : Mem) (d : Pgdir) (a b : Nat) : Within m d a b m := fun _ _ => rfl

theorem Within.trans (first : Within m d a b m₁) (second : Within m₁ d a b m') :
    Within m d a b m' :=
  fun q outside => (second q outside).trans (first q outside)

theorem Within.mono (within : Within m d a b m') (low : x ≤ a) (high : b ≤ c) : Within m d x c m' :=
  fun q outside => within q fun y above below => outside y (by omega) (by omega)

/-- What lies elsewhere is kept. -/
theorem Holds.within (holds : Holds m d a bytes) (injective : Injective d)
    (within : Within m d x b m') (word : a + bytes.length ≤ 2 ^ 32) (word' : b ≤ 2 ^ 32)
    (elsewhere : a + bytes.length ≤ x ∨ b ≤ a) : Holds m' d a bytes := by
  intro i inside
  obtain ⟨q, found, byte⟩ := holds i inside
  refine ⟨q, found, (within q fun y above below there => ?_).trans byte⟩
  have same := injective y (by omega) (a + i) (by omega) q there found
  omega

theorem holds_append :
    Holds m d a (bytes ++ more) ↔ Holds m d a bytes ∧ Holds m d (a + bytes.length) more := by
  constructor
  · intro holds
    constructor
    · intro i inside
      obtain ⟨q, found, byte⟩ := holds i (by rw [List.length_append]; omega)
      rw [List.getD_append _ _ _ _ inside] at byte
      exact ⟨q, found, byte⟩
    · intro i inside
      obtain ⟨q, found, byte⟩ := holds (bytes.length + i) (by rw [List.length_append]; omega)
      rw [List.getD_append_right _ _ _ _ (Nat.le_add_right _ _), Nat.add_sub_cancel_left] at byte
      exact ⟨q, Nat.add_assoc .. ▸ found, byte⟩
  · rintro ⟨first, second⟩ i inside
    rw [List.length_append] at inside
    obtain early | late := Nat.lt_or_ge i bytes.length
    · obtain ⟨q, found, byte⟩ := first i early
      exact ⟨q, found, by rw [List.getD_append _ _ _ _ early, byte]⟩
    · obtain ⟨q, found, byte⟩ := second (i - bytes.length) (by omega)
      refine ⟨q, ?_, by rw [List.getD_append_right _ _ _ _ late, byte]⟩
      rwa [Nat.add_assoc, Nat.add_sub_cancel' late] at found

theorem copyout_accessible (word : a < 2 ^ 32) (copied : copyout m d a bytes = .ok (true, m')) :
    ∀ i < bytes.length, (d.place (a + i)).isSome := by
  have result := copyout_copied m d bytes word
  rw [copied] at result
  cases result with
  | all accessible stores => exact accessible

/-- A copy that succeeds stores its bytes and nothing else. -/
theorem copyout_holds (injective : Injective d) (word : a < 2 ^ 32)
    (fits : a + bytes.length ≤ 2 ^ 32) (copied : copyout m d a bytes = .ok (true, m')) :
    Holds m' d a bytes ∧ Within m d a (a + bytes.length) m' := by
  have result := copyout_copied m d bytes word
  rw [copied] at result
  cases result with
  | all accessible stores =>
    refine ⟨fun i inside => ?_,
      fun q outside => stores.other q fun i inside => outside _ (by omega) (by omega)⟩
    obtain ⟨q, found⟩ := Option.isSome_iff_exists.mp (accessible i inside)
    obtain ⟨j, bound, there, byte⟩ := stores.hit i inside q found
    have same := injective (a + i) (by omega) (a + j) (by omega) q found there
    exact ⟨q, found, by rw [byte, show i = j by omega]⟩

end Copies

section Pushing
variable {m m' : Mem} {d : Pgdir} {g sz top sp n : Nat} {argv : List (List UInt8)}
  {addrs : List Nat}

/-- Where `exec` puts `n` bytes below `top`. -/
def lowered (top n : Nat) : Nat := (top + 2 ^ 32 - n % 2 ^ 32) % 2 ^ 32 / 4 * 4

/-- `n` bytes that users may access, put below `top`, are in the stack. -/
theorem Open.lowered (accessible : Open d g sz) (user : sz ≤ kernbase) (aligned : top % 4 = 0)
    (above : g + pgsize ≤ top) (most : top ≤ sz) (positive : 0 < n) (small : n < 2 ^ 32)
    (all : ∀ i < n, (d.place (lowered top n + i)).isSome) :
    g + pgsize ≤ lowered top n ∧ lowered top n + n ≤ top := by
  have reach {a : Nat} (word : a < 2 ^ 32) (low : Vm.lowered top n ≤ a)
      (high : a < Vm.lowered top n + n) :
      a < sz ∧ ¬ (g ≤ a ∧ a < g + pgsize) := by
    have there := all (a - Vm.lowered top n) (by omega)
    rw [Nat.add_sub_cancel' low] at there
    exact (accessible a word).mp there
  by_cases wraps : n ≤ top
  · have place : Vm.lowered top n = (top - n) / 4 * 4 := by
      simp only [Vm.lowered, kernbase] at *
      omega
    refine ⟨?_, by omega⟩
    by_contra low
    obtain under | inside := Nat.lt_or_ge (Vm.lowered top n) g
    · -- the range has the whole guard page
      have hit := reach (a := g) (by simp only [kernbase, pgsize] at *; omega) under.le
        (by simp only [pgsize] at *; omega)
      simp only [pgsize] at hit
      omega
    · have hit := reach (a := Vm.lowered top n)
        (by simp only [kernbase] at *; omega) le_rfl (by omega)
      omega
  · -- the address has wrapped around, and the range ends behind the last page
    have place : Vm.lowered top n = (top + 2 ^ 32 - n) / 4 * 4 := by
      simp only [Vm.lowered, kernbase] at *
      omega
    exfalso
    obtain under | beyond := Nat.lt_or_ge (Vm.lowered top n) sz
    · have hit := reach (a := sz) (by simp only [kernbase] at *; omega) under.le
        (by simp only [kernbase] at *; omega)
      omega
    · have hit := reach (a := Vm.lowered top n) (by omega) le_rfl (by omega)
      omega

theorem lowered_lt (top n : Nat) : lowered top n < 2 ^ 32 := by
  unfold lowered
  omega

theorem lowered_mod (top n : Nat) : lowered top n % 4 = 0 := Nat.mul_mod_left _ _

/-- A copy below `top` that succeeds is one into the stack. -/
theorem copyout_lowered {bytes : List UInt8} (injective : Injective d) (accessible : Open d g sz)
    (user : sz ≤ kernbase) (aligned : top % 4 = 0) (above : g + pgsize ≤ top) (most : top ≤ sz)
    (positive : bytes ≠ []) (small : bytes.length < 2 ^ 32)
    (copied : copyout m d (lowered top bytes.length) bytes = .ok (true, m')) :
    g + pgsize ≤ lowered top bytes.length ∧ lowered top bytes.length + bytes.length ≤ top ∧
      Holds m' d (lowered top bytes.length) bytes ∧
      Within m d (lowered top bytes.length) top m' := by
  have word := lowered_lt top bytes.length
  obtain ⟨low, high⟩ := accessible.lowered user aligned above most
    (List.length_pos_iff.mpr positive) small
    (copyout_accessible word copied)
  have fits : lowered top bytes.length + bytes.length ≤ 2 ^ 32 := by
    simp only [kernbase] at user
    omega
  obtain ⟨holds, within⟩ := copyout_holds injective word fits copied
  exact ⟨low, high, holds, within.mono le_rfl high⟩

/-- The strings are on the stack between `top` and `sp`, each below the one before. -/
structure Pushed (m : Mem) (d : Pgdir) (g sp : Nat) (argv : List (List UInt8)) (top : Nat)
    (addrs : List Nat) (m' : Mem) : Prop where
  length : addrs.length = argv.length
  low : g + pgsize ≤ top
  le : top ≤ sp
  aligned : top % 4 = 0
  within : Within m d top sp m'
  held : ∀ s ∈ argv.zip addrs, Holds m' d s.2 (s.1 ++ [0]) ∧ top ≤ s.2 ∧ s.2 + s.1.length + 1 ≤ sp
  descending : (argv.zip addrs).Pairwise fun s t => t.2 + t.1.length + 1 ≤ s.2

theorem pushArgs_pushed {argc : Nat} (injective : Injective d) (accessible : Open d g sz)
    (user : sz ≤ kernbase) (aligned : sp % 4 = 0) (above : g + pgsize ≤ sp) (most : sp ≤ sz)
    (short : ∀ arg ∈ argv, arg.length + 1 < 2 ^ 32)
    (pushed : pushArgs d argc argv m sp = .ok (some (top, addrs), m')) :
    Pushed m d g sp argv top addrs m' := by
  induction argv generalizing m argc sp addrs with
  | nil =>
    cases pushed
    exact ⟨rfl, above, le_rfl, aligned, .refl _ _ _ _, nofun, .nil⟩
  | cons arg rest ih =>
    unfold pushArgs at pushed
    split at pushed
    · cases pushed
    obtain ⟨⟨copied, m₁⟩, copy, pushed⟩ := bind_ok.mp pushed
    cases copied with
    | false => cases pushed
    | true =>
      obtain ⟨⟨later, m₂⟩, others, pushed⟩ := bind_ok.mp pushed
      cases later with
      | none => cases pushed
      | some result =>
        obtain ⟨top', addrs'⟩ := result
        cases pushed
        have length : (arg ++ [0]).length = arg.length + 1 := List.length_append
        have small := short arg (.head _)
        change copyout m d (lowered sp (arg.length + 1)) (arg ++ [0]) = _ at copy
        change pushArgs d (argc + 1) rest m₁ (lowered sp (arg.length + 1)) = _ at others
        have place : (sp + 2 ^ 32 - (arg.length + 1) % 2 ^ 32) % 2 ^ 32 / 4 * 4 =
            lowered sp (arg ++ [0]).length := by
          rw [length]
          rfl
        rw [← length] at copy others small
        rw [place]
        obtain ⟨low, high, holds, first⟩ :=
          copyout_lowered injective accessible user aligned above most
          (List.append_ne_nil_of_right_ne_nil _ (List.cons_ne_nil _ _)) small copy
        have below := ih (lowered_mod _ _) low (by omega)
          (fun a inside => short a (.tail _ inside)) others
        have word : sp ≤ 2 ^ 32 := most.trans (user.trans (by decide))
        have kept := holds.within injective below.within (by omega) (by omega) (.inr le_rfl)
        have next := below.le
        refine ⟨by simp [below.length], below.low, by omega, below.aligned, ?_, ?_, ?_⟩
        · exact (first.mono below.le le_rfl).trans (below.within.mono le_rfl (by omega))
        · intro s member
          obtain rfl | later := List.mem_cons.mp member
          · exact ⟨kept, below.le, by dsimp only; omega⟩
          · obtain ⟨there, inside, under⟩ := below.held s later
            exact ⟨there, inside, by omega⟩
        · exact .cons (fun s later => (below.held s later).2.2) below.descending

theorem pushArgs_count {argc : Nat} (few : argc ≤ maxArg)
    (pushed : pushArgs d argc argv m sp = .ok (some (top, addrs), m')) :
    argc + argv.length ≤ maxArg := by
  induction argv generalizing m argc sp addrs with
  | nil => exact few
  | cons arg rest ih =>
    unfold pushArgs at pushed
    split at pushed
    · cases pushed
    next fewer =>
    obtain ⟨⟨copied, m₁⟩, copy, pushed⟩ := bind_ok.mp pushed
    cases copied with
    | false => cases pushed
    | true =>
      obtain ⟨⟨later, m₂⟩, others, pushed⟩ := bind_ok.mp pushed
      cases later with
      | none => cases pushed
      | some result =>
        cases pushed
        have count := ih (by omega) others
        rw [List.length_cons]
        omega

/-- The stack of a new image, from `esp` up to `sz`: the fake return address, `argc` and the
pointer to `argv`; the pointers to the strings and a null; and the strings. -/
structure Stacked (m : Mem) (d : Pgdir) (g sz : Nat) (argv : List (List UInt8))
    (esp : Nat) : Prop where
  low : g + pgsize ≤ esp
  header : Holds m d esp ([0xffffffff, argv.length, esp + 12].flatMap (toLe 4))
  strings : ∃ addrs : List Nat, addrs.length = argv.length ∧
    Holds m d (esp + 12) ((addrs ++ [0]).flatMap (toLe 4)) ∧
    (∀ s ∈ argv.zip addrs, Holds m d s.2 (s.1 ++ [0]) ∧ esp + 12 + 4 * (argv.length + 1) ≤ s.2 ∧
      s.2 + s.1.length + 1 ≤ sz) ∧
    (argv.zip addrs).Pairwise fun s t => t.2 + t.1.length + 1 ≤ s.2

theorem length_flatMap_toLe (words : List Nat) :
    (words.flatMap (toLe 4)).length = 4 * words.length := by
  induction words with
  | nil => rfl
  | cons word words ih =>
    rw [List.flatMap_cons, List.length_append, ih, length_toLe, List.length_cons]
    omega

/-- The words below the strings: the fake return address, `argc`, the pointer to `argv`, and
`argv` itself. -/
def ustack (top : Nat) (addrs : List Nat) : List Nat :=
  [0xffffffff, addrs.length, (top + 2 ^ 32 - (addrs.length + 1) * 4) % 2 ^ 32] ++ addrs ++ [0]

theorem ustack_length (top : Nat) (addrs : List Nat) :
    ((ustack top addrs).flatMap (toLe 4)).length = 4 * (addrs.length + 4) := by
  rw [length_flatMap_toLe]
  simp [ustack]

theorem ustack_place (aligned : top % 4 = 0) (few : addrs.length ≤ maxArg) (word : top ≤ 2 ^ 32) :
    (top + 2 ^ 32 - (3 + addrs.length + 1) * 4) % 2 ^ 32 =
      lowered top ((ustack top addrs).flatMap (toLe 4)).length := by
  rw [ustack_length]
  simp only [lowered, maxArg] at *
  omega

/-- The stack that `exec` builds, with nothing written below it. -/
theorem buildStack_stacked {esp : Nat} (injective : Injective d) (accessible : Open d g sz)
    (user : sz ≤ kernbase) (aligned : sz % 4 = 0) (above : g + pgsize ≤ sz)
    (short : ∀ arg ∈ argv, arg.length + 1 < 2 ^ 32)
    (built : buildStack m d sz argv = .ok (some esp, m')) :
    Stacked m' d g sz argv esp ∧ Within m d (g + pgsize) sz m' := by
  obtain ⟨⟨pushed, m₁⟩, args, rest⟩ := bind_ok.mp built
  cases pushed with
  | none => cases rest
  | some result =>
    obtain ⟨top, addrs⟩ := result
    obtain ⟨⟨copied, m₂⟩, copy, rest⟩ := bind_ok.mp rest
    cases copied with
    | false => cases rest
    | true =>
      cases rest
      have strings := pushArgs_pushed injective accessible user aligned above le_rfl short args
      have few := pushArgs_count (Nat.zero_le _) args
      have count := strings.length
      rw [Nat.zero_add, ← count] at few
      have word : top ≤ 2 ^ 32 := (strings.le.trans user).trans (by decide)
      have place := ustack_place strings.aligned few word
      have length := ustack_length top addrs
      change copyout m₁ d _ ((ustack top addrs).flatMap (toLe 4)) = _ at copy
      rw [place] at copy ⊢
      obtain ⟨low, high, holds, last⟩ :=
        copyout_lowered injective accessible user strings.aligned strings.low strings.le
        (List.ne_nil_of_length_pos (by omega)) (by simp only [maxArg] at *; omega) copy
      generalize lowered top ((ustack top addrs).flatMap (toLe 4)).length = esp at *
      have pointer : (top + 2 ^ 32 - (addrs.length + 1) * 4) % 2 ^ 32 = esp + 12 := by
        rw [← place]
        simp only [maxArg] at *
        omega
      rw [ustack, pointer, List.append_assoc, List.flatMap_append, holds_append,
        length_flatMap_toLe] at holds
      constructor
      · refine ⟨low, count ▸ holds.1, addrs, count, holds.2, fun s member => ?_, strings.descending⟩
        obtain ⟨there, inside, under⟩ := strings.held s member
        refine ⟨there.within injective last ?_ word (.inr inside), by omega, under⟩
        rw [List.length_append, List.length_singleton]
        simp only [kernbase] at user
        omega
      · exact (strings.within.mono strings.low le_rfl).trans (last.mono low strings.le)

/-- A copy to addresses that users may access succeeds. -/
theorem copyout_runs {a : Nat} {bytes : List UInt8} (word : a < 2 ^ 32)
    (all : ∀ i < bytes.length, (d.place (a + i)).isSome) :
    ∃ m', copyout m d a bytes = .ok (true, m') := by
  have result := copyout_copied m d bytes word
  generalize copyout m d a bytes = r at result
  cases result with
  | all => exact ⟨_, rfl⟩
  | blocked inside before closed table =>
    have there := all _ inside
    rw [closed] at there
    cases there
  | null inside before table =>
    obtain ⟨q, found⟩ := Option.isSome_iff_exists.mp (all _ inside)
    obtain ⟨e, present, -⟩ := place_eq_some.mp found
    have there := Pgdir.table_of_pte present
    rw [table] at there
    cases there

/-- The stack that the strings may take: each of them with its end, rounded up. -/
def stringRoom (argv : List (List UInt8)) : Nat := (argv.map fun arg => arg.length + 4).sum

theorem pushArgs_runs {argc : Nat} (accessible : Open d g sz) (user : sz ≤ kernbase)
    (most : sp ≤ sz) (few : argc + argv.length ≤ maxArg)
    (room : g + pgsize + stringRoom argv ≤ sp) :
    ∃ top addrs m', pushArgs d argc argv m sp = .ok (some (top, addrs), m') ∧
      addrs.length = argv.length ∧
      top ≤ sp ∧ sp ≤ top + stringRoom argv := by
  induction argv generalizing m argc sp with
  | nil => exact ⟨sp, [], m, rfl, rfl, le_rfl, Nat.le_add_right _ _⟩
  | cons arg rest ih =>
    have total : stringRoom (arg :: rest) = arg.length + 4 + stringRoom rest := List.sum_cons
    rw [List.length_cons] at few
    have place : lowered sp (arg.length + 1) + (arg.length + 1) ≤ sp ∧
        sp ≤ lowered sp (arg.length + 1) + (arg.length + 4) := by
      simp only [lowered, kernbase] at *
      omega
    have length : (arg ++ [0]).length = arg.length + 1 := List.length_append
    have all (i : Nat) (inside : i < (arg ++ [0]).length) :
        (d.place (lowered sp (arg.length + 1) + i)).isSome := by
      refine (accessible _ ?_).mpr ⟨by omega, by omega⟩
      simp only [kernbase] at user
      omega
    obtain ⟨m₁, copy⟩ := copyout_runs (m := m) (lowered_lt _ _) all
    have later : ∃ top addrs m', pushArgs d (argc + 1) rest m₁ (lowered sp (arg.length + 1)) =
        .ok (some (top, addrs), m') ∧
        addrs.length = rest.length ∧ top ≤ lowered sp (arg.length + 1) ∧
          lowered sp (arg.length + 1) ≤ top + stringRoom rest :=
      ih (by omega) (by omega) (by omega)
    obtain ⟨top, addrs, m', pushed, count, under, near⟩ := later
    refine ⟨top, lowered sp (arg.length + 1) :: addrs, m', ?_,
      by rw [List.length_cons, count, List.length_cons], by omega, by omega⟩
    rw [pushArgs, if_neg (by omega)]
    exact bind_ok.mpr ⟨_, copy, bind_ok.mpr ⟨_, pushed, rfl⟩⟩

theorem buildStack_runs (accessible : Open d g sz) (user : sz ≤ kernbase)
    (few : argv.length ≤ maxArg)
    (room : g + pgsize + stringRoom argv + 4 * (argv.length + 4) ≤ sz) :
    ∃ esp m', buildStack m d sz argv = .ok (some esp, m') := by
  have pushes : ∃ top addrs m', pushArgs d 0 argv m sz = .ok (some (top, addrs), m') ∧
      addrs.length = argv.length ∧
      top ≤ sz ∧ sz ≤ top + stringRoom argv :=
        pushArgs_runs accessible user le_rfl (by omega) (by omega)
  obtain ⟨top, addrs, m₁, pushed, count, under, near⟩ := pushes
  have length := ustack_length top addrs
  have all (i : Nat) (inside : i < ((ustack top addrs).flatMap (toLe 4)).length) :
      (d.place ((top + 2 ^ 32 - (3 + addrs.length + 1) * 4) % 2 ^ 32 + i)).isSome := by
    simp only [kernbase, maxArg] at user few
    exact (accessible _ (by omega)).mpr ⟨by omega, by omega⟩
  obtain ⟨m', copy⟩ := copyout_runs (m := m₁) (Nat.mod_lt _ (by decide)) all
  exact ⟨_, m', bind_ok.mpr ⟨_, pushed, bind_ok.mpr ⟨_, copy, rfl⟩⟩⟩

end Pushing
end Aso.Xv6.Vm
