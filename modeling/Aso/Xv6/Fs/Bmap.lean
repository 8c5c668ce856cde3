import Aso.Xv6.Fs.Tree

/-! `bmap` as a partial function on the trees: it returns the block number at the
place of a block index, after attaching what was missing on the way. -/
namespace Aso.Xv6.Fs
namespace State
open Transition
variable {s t : State} {ip : Slot} {x y : Ino} {n p : Node} {a b bn : Nat}

/-- A lookup that found or attached a block at `n`, or ran out of blocks. -/
def Finds (s : State) (x : Ino) (n : Node) (result : Option (Nat × State)) : Prop :=
  (∃ a t, result = some (a, t) ∧ Reaches s t x n a) ∨
    (result = none ∧ s.free < n.depth ∧ s.addr x n = 0)

theorem finds_mapRoot {i : Fin (ndirect + 2)} (owned : Owned s) (reserved : Reserved s)
    (live : s.Live (.core ip)) : Finds s (.core ip) (.root i) (s.mapRoot ip i) := by
  have resolved := mapRoot_resolved (i := i) owned reserved live
  cases result : s.mapRoot ip i with
  | none =>
    rw [result] at resolved
    cases resolved with
    | full spent empty => exact .inr ⟨rfl, by simp [spent, Node.depth], empty⟩
  | some found =>
    rw [result] at resolved
    exact .inl ⟨found.1, found.2, rfl, resolved.root⟩

theorem finds_mapEntry (owned : Owned s) (reserved : Reserved s) (live : s.Live x)
    (child : n.parent = some p) {result : Option (Nat × State)} (finds : Finds s x p result) :
    Finds s x n (result.bind fun (addr, t) => t.mapEntry addr n.index) := by
  have depth := Node.parent_depth child
  obtain ⟨b, t, rfl, reaches⟩ | ⟨rfl, few, absent⟩ := finds
  · obtain ⟨places, grows, -, -⟩ := reaches.path
    have resolved := mapEntry_resolved (grows.owned owned) (grows.reserved reserved)
      ((grows.live x).mpr live) child (reaches.there ▸ reaches.nonzero)
    rw [reaches.there] at resolved
    simp only [Option.bind_some]
    cases result : t.mapEntry b n.index with
    | none =>
      rw [result] at resolved
      cases resolved with
      | full spent empty => exact .inr ⟨rfl, reaches.full live child spent empty⟩
    | some found =>
      rw [result] at resolved
      exact .inl ⟨found.1, found.2, rfl, reaches.entry live child resolved⟩
  · refine .inr ⟨rfl, by omega, ?_⟩
    rw [addr_child child, absent, follow_zero]

/-- `bmap` looks up the root on the way to a block index and goes down from there, in each
of the three regimes. -/
theorem bmap_descent {P : Node → Option (Nat × State) → Prop}
    (root : ∀ i, P (.root i) (s.mapRoot ip i)) (entry : ∀ n p result, n.parent = some p →
      P p result → P n (result.bind fun (addr, t) => t.mapEntry addr n.index))
    (bound : bn < maxfile) : P (.ofBn bn) (s.bmap ip bn) := by
  unfold bmap Node.ofBn
  split
  · exact root _
  · dsimp only
    split
    · exact entry (.single _) _ _ rfl (root indirect)
    · rename_i direct single
      have range : bn - ndirect - nindirect < nbde := by
        unfold maxfile at bound
        omega
      have index : (bn - ndirect - nindirect) / nindirect % nindirect =
          (bn - ndirect - nindirect) / nindirect :=
        Nat.mod_eq_of_lt (Nat.div_lt_of_lt_mul range)
      rw [if_pos range]
      have level1 := entry
        (.level1 ⟨(bn - ndirect - nindirect) / nindirect % nindirect, Nat.mod_lt _ (by decide)⟩) _ _
        rfl (root double)
      have leaf := entry
        (.leaf _ ⟨(bn - ndirect - nindirect) % nindirect, Nat.mod_lt _ (by decide)⟩) _ _ rfl level1
      simp only [Node.index, index, Option.bind_assoc] at leaf ⊢
      exact leaf

theorem bmap_finds (owned : Owned s) (reserved : Reserved s) (live : s.Live (.core ip))
    (bound : bn < maxfile) : Finds s (.core ip) (.ofBn bn) (s.bmap ip bn) :=
  bmap_descent (fun _ => finds_mapRoot owned reserved live)
    (fun _ _ _ child => finds_mapEntry owned reserved live child) bound

/-- The block number that block index `bn` of `x` is mapped to, zero when it is not. -/
def lookup (s : State) (x : Ino) (bn : Nat) : Nat := s.addr x (.ofBn bn)

namespace Reaches

theorem owned (reaches : Reaches s t x n a) (start : Owned s) : Owned t :=
  let ⟨_, grows, _⟩ := reaches.path
  grows.owned start

theorem reserved (reaches : Reaches s t x n a) (start : Reserved s) : Reserved t :=
  let ⟨_, grows, _⟩ := reaches.path
  grows.reserved start

theorem live (reaches : Reaches s t x n a) (y : Ino) : t.Live y ↔ s.Live y :=
  let ⟨_, grows, _⟩ := reaches.path
  grows.live y

/-- No other block index of any inode is mapped anew or elsewhere. -/
theorem lookup_other (reaches : Reaches s t x (.ofBn bn) a) (bound : bn < maxfile)
    (live : s.Live y) {bn' : Nat} (bound' : bn' < maxfile) (other : ¬(y = x ∧ bn' = bn)) :
    t.lookup y bn' = s.lookup y bn' := by
  obtain ⟨places, grows, -, only⟩ := reaches.path
  apply grows.addr_other live
  rintro ⟨rfl, member⟩
  obtain same | ⟨pointer, -⟩ := only _ member
  · exact other ⟨rfl, Node.ofBn_injective bound' bound same⟩
  · rw [Node.ofBn_isData] at pointer
    cases pointer

theorem lookup_kept (reaches : Reaches s t x n a) (live : s.Live y) (there : s.lookup y bn ≠ 0) :
    t.lookup y bn = s.lookup y bn :=
  let ⟨_, grows, _⟩ := reaches.path
  grows.addr_kept live there

end Reaches

/-- A call of `bmap` on an inode in use. -/
def bmapStep (s : State) (call : Slot × Nat) : Option State :=
  if 0 < (s.icache call.1).ref ∧ (s.icache call.1).valid = true ∧ call.2 < maxfile then
    (s.bmap call.1 call.2).map Prod.snd
  else none

/-- The blocks before the data area are marked used and the trees are owned. -/
structure Sound (s : State) : Prop where
  owned : Owned s
  reserved : Reserved s

/-- A step that leaves the trees and the bitmap alone. -/
theorem Sound.of_same (sound : Sound s) (sb : t.sb = s.sb) (live : ∀ y, t.Live y ↔ s.Live y)
    (addr : ∀ y m, s.Live y → t.addr y m = s.addr y m)
    (used : ∀ c < s.sb.size, t.used c = s.used c) : Sound t where
  owned := {
    wf := sb ▸ sound.owned.wf
    data := by
      intro y m here present
      have here := (live y).mp here
      rw [addr y m here] at present ⊢
      rw [sb]
      exact sound.owned.data y m here present
    marked := by
      intro y m here present
      have here := (live y).mp here
      rw [addr y m here] at present ⊢
      rw [used _ (sound.owned.data y m here present).2]
      exact sound.owned.marked y m here present
    once := by
      intro y z m k first second present same
      have first := (live y).mp first
      have second := (live z).mp second
      rw [addr y m first] at present same
      rw [addr z k second] at same
      exact sound.owned.once y z m k first second present same }
  reserved := by
    intro b bound before
    rw [sb] at bound before
    rw [used b bound]
    exact sound.reserved b bound before

theorem bmapStep_reaches {call : Slot × Nat} (sound : Sound s) (taken : s.bmapStep call = some t) :
    ∃ a, s.Live (.core call.1) ∧ call.2 < maxfile ∧
      Reaches s t (.core call.1) (.ofBn call.2) a := by
  simp only [bmapStep, Option.ite_none_right_eq_some, Option.map_eq_some_iff] at taken
  obtain ⟨⟨ref, valid, bound⟩, found, mapped, rfl⟩ := taken
  have live : s.Live (.core call.1) := ⟨ref, valid⟩
  obtain ⟨a, u, result, reaches⟩ | ⟨full, -⟩ := bmap_finds sound.owned sound.reserved live bound
  · rw [mapped] at result
    cases result
    exact ⟨a, live, bound, reaches⟩
  · rw [mapped] at full
    cases full

theorem sound_bmapStep {call : Slot × Nat} (sound : Sound s) (taken : s.bmapStep call = some t) :
    Sound t := by
  obtain ⟨a, -, -, reaches⟩ := bmapStep_reaches sound taken
  exact ⟨reaches.owned sound.owned, reaches.reserved sound.reserved⟩

/-- A run of calls keeps the inodes of the file system and every mapping made so far. -/
theorem bmap_run_kept {calls : List (Slot × Nat)} (sound : Sound s)
    (reached : run bmapStep s calls = some t) : (∀ y, t.Live y ↔ s.Live y) ∧
      ∀ y bn, s.Live y → s.lookup y bn ≠ 0 → t.lookup y bn = s.lookup y bn := by
  induction calls generalizing s with
  | nil =>
    cases Option.some.inj reached
    exact ⟨fun _ => Iff.rfl, fun _ _ _ _ => rfl⟩
  | cons call rest ih =>
    obtain ⟨u, taken, reached⟩ := run_cons.mp reached
    obtain ⟨a, -, -, reaches⟩ := bmapStep_reaches sound taken
    obtain ⟨live, kept⟩ := ih (sound_bmapStep sound taken) reached
    refine ⟨fun y => (live y).trans (reaches.live y), fun y bn here there => ?_⟩
    have same := reaches.lookup_kept here there
    rw [kept y bn ((reaches.live y).mpr here) (same ▸ there), same]

/-- What one call of `bmap` returns and does, from a sound state. -/
structure BmapSpec (s : State) (ip : Slot) (bn : Nat) : Prop where
  returns : 3 ≤ s.free → (s.bmap ip bn).isSome = true
  mapped : ∀ a t, s.bmap ip bn = some (a, t) → a ≠ 0 ∧ t.lookup (.core ip) bn = a
  stable : ∀ a t, s.bmap ip bn = some (a, t) → s.lookup (.core ip) bn ≠ 0 →
    a = s.lookup (.core ip) bn ∧ t = s
  zeroed : ∀ a t, s.bmap ip bn = some (a, t) → s.lookup (.core ip) bn = 0 → t.block a = .zero
  apart : ∀ a t, s.bmap ip bn = some (a, t) → ∀ y bn', s.Live y → bn' < maxfile →
    ¬(y = .core ip ∧ bn' = bn) → t.lookup y bn' = s.lookup y bn'

theorem bmap_spec (sound : Sound s) (live : s.Live (.core ip)) (bound : bn < maxfile) :
    BmapSpec s ip bn := by
  have finds := bmap_finds sound.owned sound.reserved live bound
  have reaches {a : Nat} {t : State} (found : s.bmap ip bn = some (a, t)) :
      Reaches s t (.core ip) (.ofBn bn) a := by
    obtain ⟨b, u, result, reaches⟩ | ⟨none, -⟩ := finds
    · rw [found] at result
      cases result
      exact reaches
    · rw [found] at none
      cases none
  constructor
  case returns =>
    intro enough
    obtain ⟨b, u, result, -⟩ | ⟨-, few, -⟩ := finds
    · rw [result]
      rfl
    · have : (Node.ofBn bn).depth ≤ 3 := by cases Node.ofBn bn <;> simp [Node.depth]
      omega
  case mapped => exact fun a t found => ⟨(reaches found).nonzero, (reaches found).there⟩
  case stable =>
    intro a t found there
    have same := (reaches found).same there
    subst t
    exact ⟨(reaches found).there.symm, rfl⟩
  case zeroed => exact fun a t found => (reaches found).zero
  case apart =>
    exact fun a t found y bn' here bound' => (reaches found).lookup_other bound here bound'

/-- Any sequence of `bmap` calls from a sound state keeps the ownership of
blocks and every mapping made, maps distinct block indices to distinct blocks,
and every further call is as `BmapSpec` says. -/
theorem bmap_keeps_ownership (calls : List (Slot × Nat)) (sound : Sound s)
    (reached : run bmapStep s calls = some t) :
    Sound t ∧
    (∀ x y bn bn', t.Live x → t.Live y → bn < maxfile → bn' < maxfile → t.lookup x bn ≠ 0 →
      t.lookup x bn = t.lookup y bn' → x = y ∧ bn = bn') ∧
    (∀ y bn, s.Live y → s.lookup y bn ≠ 0 → t.lookup y bn = s.lookup y bn) ∧
    ∀ ip bn, t.Live (.core ip) → bn < maxfile → BmapSpec t ip bn := by
  have last : Sound t := invariant (fun _ _ _ => sound_bmapStep) reached sound
  refine ⟨last, ?_, (bmap_run_kept sound reached).2,
    fun ip bn live bound => bmap_spec last live bound⟩
  intro x y bn bn' live live' bound bound' there same
  obtain ⟨rfl, place⟩ := last.owned.once x y _ _ live live' there same
  exact ⟨rfl, Node.ofBn_injective bound bound' place⟩

/-- A file system of sixteen blocks, the first five of them before the data
area, with the given first byte of the bitmap and two empty files in memory. -/
def smallFs (bitmap : UInt8) : State where
  sb := ⟨16, 11, 8, 0, 2, 2, 4⟩
  block b := if b = 4 then Bytes.write .zero 0 [bitmap] else .zero
  icache ip := ⟨⟨tFile, 0, 0, 1, 0, fun _ => 0⟩, ip.val + 1, if ip.val < 2 then 1 else 0, true⟩
  devsw _ := ⟨none, none⟩
  logged := []

theorem owned_smallFs (bitmap : UInt8) : Owned (smallFs bitmap) := by
  have free (inum : Nat) (bound : inum < 8) : ((smallFs bitmap).dinode inum).type = 0 := by
    have block : (smallFs bitmap).block ((smallFs bitmap).sb.iblock inum) = .zero := by
      rw [Superblock.iblock, show inum / ipb = 0 from Nat.div_eq_of_lt bound]
      rfl
    rw [dinode, block]
    simp [Dinode.decode, toShort, leNat]
  have empty (x : Ino) (n : Node) (live : (smallFs bitmap).Live x) :
      (smallFs bitmap).addr x n = 0 := by
    cases x with
    | core ip => cases n <;> rfl
    | disk inum => exact absurd (free inum live.1) live.2.1
  constructor
  case wf =>
    have : (smallFs bitmap).sb = ⟨16, 11, 8, 0, 2, 2, 4⟩ := rfl
    rw [this]
    exact ⟨by decide, by decide⟩
  case data | marked => exact fun x n live there => absurd (empty x n live) there
  case once => exact fun x y m n live _ there => absurd (empty x m live) there

theorem bmap_keeps_small_fs :
    ∃ t, run bmapStep (smallFs 0x1f) [(0, 0), (1, 11), (0, 0)] = some t ∧ Sound t := by
  have reserved : Reserved (smallFs 0x1f) := by unfold Reserved; decide
  have runs : (run bmapStep (smallFs 0x1f) [(0, 0), (1, 11), (0, 0)]).isSome = true := by decide
  obtain ⟨t, reached⟩ := Option.isSome_iff_exists.mp runs
  exact ⟨t, reached, (bmap_keeps_ownership _ ⟨owned_smallFs _, reserved⟩ reached).1⟩

/-- With the bit of the superblock clear, `bmap` puts the superblock in the tree. -/
theorem bmap_takes_superblock :
    Owned (smallFs 0x01) ∧ ∃ t, run bmapStep (smallFs 0x01) [(0, 0)] = some t ∧ ¬ Owned t := by
  have runs : (run bmapStep (smallFs 0x01) [(0, 0)]).map
      (fun t => (t.sb, t.addr (.core 0) (.root 0), (t.icache 0).ref, (t.icache 0).valid)) =
        some ((smallFs 0x01).sb, 1, 1, true) := by
    decide
  obtain ⟨t, reached, values⟩ := Option.map_eq_some_iff.mp runs
  simp only [Prod.mk.injEq] at values
  obtain ⟨sb, addr, ref, valid⟩ := values
  refine ⟨owned_smallFs _, t, reached, fun owned => ?_⟩
  have data := owned.data (.core 0) (.root 0) ⟨by omega, valid⟩ (by rw [addr]; decide)
  rw [addr, sb] at data
  exact absurd data.1 (by decide)

end State
end Aso.Xv6.Fs
