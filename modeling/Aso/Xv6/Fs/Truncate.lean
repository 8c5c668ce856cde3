import Aso.Xv6.Fs.Itrunc

/-! When `itrunc` frees the tree of an inode: exactly when the tree has no level-1
block. -/
namespace Aso.Xv6.Fs
namespace State
variable {s t : State} {ip : Slot}

/-- The block numbers of a tree are those of marked blocks and occur once. -/
structure Planted (s : State) (ip : Slot) : Prop where
  marked : ∀ n, s.tree ip n ≠ 0 → s.used (s.tree ip n) = true
  once : ∀ m n, s.tree ip m ≠ 0 → s.tree ip m = s.tree ip n → m = n

namespace Planted

theorem directs_nodup (planted : Planted s ip) :
    ((directs.map (s.icache ip).addrs).filter (· ≠ 0)).Nodup := by
  refine nodup_nonzero (by decide) fun i j nonzero same => ?_
  cases planted.once (.root i) (.root j) nonzero same
  rfl

theorem words_nodup (planted : Planted s ip) (present : (s.icache ip).addrs indirect ≠ 0) :
    (((List.range nindirect).map (s.block ((s.icache ip).addrs indirect)).word).filter
      (· ≠ 0)).Nodup := by
  have words : (List.range nindirect).map (s.block ((s.icache ip).addrs indirect)).word =
      (List.finRange nindirect).map fun k => s.tree ip (.single k) := by
    rw [← List.map_coe_finRange_eq_range, List.map_map]
    exact List.map_congr_left fun k _ => (tree_single present k).symm
  rw [words]
  refine nodup_nonzero (List.nodup_finRange _) fun i j nonzero same => ?_
  cases planted.once (.single i) (.single j) nonzero same
  rfl

/-- A place that is neither a direct one nor the given root is not freed with them. -/
theorem notMem_directs (planted : Planted s ip) {n : Node} (nonzero : s.tree ip n ≠ 0)
    (other : ∀ i ∈ directs, n ≠ .root i) :
    s.tree ip n ∉ (directs.map (s.icache ip).addrs).filter (· ≠ 0) := by
  intro member
  obtain ⟨-, i, inside, same⟩ := mem_nonzero.mp member
  exact other i inside (planted.once n (.root i) nonzero same.symm)

theorem notMem_words (planted : Planted s ip)
    (present : (s.icache ip).addrs indirect ≠ 0) {n : Node} (nonzero : s.tree ip n ≠ 0)
    (other : ∀ k, n ≠ .single k) :
    s.tree ip n ∉ ((List.range nindirect).map (s.block ((s.icache ip).addrs indirect)).word).filter
      (· ≠ 0) := by
  intro member
  obtain ⟨-, k, inside, same⟩ := mem_nonzero.mp member
  have single := tree_single present ⟨k, List.mem_range.mp inside⟩
  exact other _
    (planted.once n (.single ⟨k, List.mem_range.mp inside⟩) nonzero (same.symm.trans single.symm))

end Planted

/-- Nothing stops `itrunc`. -/
theorem itrunc_isSome (loaded : SuperblockRead s) (planted : Planted s ip)
    (able : Truncatable s ip) : (s.itrunc ip).isSome = true := by
  have free₁ :
      (s.bfreeAll [] ((directs.map (s.icache ip).addrs).filter (· ≠ 0))).isSome = true := by
    refine bfreeAll_isSome loaded planted.directs_nodup (fun b member => ?_)
      fun _ _ => ⟨List.not_mem_nil, List.not_mem_nil⟩
    obtain ⟨nonzero, i, -, rfl⟩ := mem_nonzero.mp member
    exact planted.marked (.root i) nonzero
  obtain ⟨u₁, done₁⟩ := Option.isSome_iff_exists.mp free₁
  obtain ⟨freed₁, icache₁, -⟩ := bfreeAll_freed loaded done₁
  have loaded₁ := freed₁.read loaded
  have direct :
      s.freeDirect ip directs = some (u₁.setInode ip (cleared (s.icache ip) directs)) := by
    rw [freeDirect_eq loaded (by decide), done₁]
    rfl
  have left₁ {n : Node} (nonzero : s.tree ip n ≠ 0) (other : ∀ i ∈ directs, n ≠ .root i) :
      u₁.used (s.tree ip n) = true := by
    rw [freed₁.used, planted.marked n nonzero,
      decide_eq_true (planted.notMem_directs nonzero other)]
    rfl
  generalize first : cleared (s.icache ip) directs = i₁ at direct
  have kept₁ : i₁.addrs indirect = (s.icache ip).addrs indirect ∧
      i₁.addrs double = (s.icache ip).addrs double := by
    rw [← first]
    exact ⟨cleared_other (by decide), cleared_other (by decide)⟩
  -- the double-indirect block is not touched by the part for the indirect block
  have part₂ : ∃ bs s₂, (u₁.setInode ip i₁).freeRoot ip indirect
      (fun d => freeWords [d] d (List.range nindirect)) = some s₂ ∧
      Freed bs u₁ s₂ ∧ (s₂.icache ip).addrs double = (s.icache ip).addrs double ∧
      (s.tree ip (.root double) ≠ 0 → s.tree ip (.root double) ∉ bs) := by
    by_cases absent : (s.icache ip).addrs indirect = 0
    · refine ⟨[], u₁.setInode ip i₁, ?_, (Freed.setInode (.refl u₁) i₁ i₁).of_setInode, ?_,
        fun _ => List.not_mem_nil⟩
      · simp only [freeRoot, setInode_icache, kept₁.1, if_pos absent]
      · rw [setInode_icache, kept₁.2]
    · have same :
          u₁.block ((s.icache ip).addrs indirect) = s.block ((s.icache ip).addrs indirect) := by
        refine freed₁.kept _ fun b member => ?_
        obtain ⟨nonzero, i, inside, rfl⟩ := mem_nonzero.mp member
        exact able.direct i inside nonzero absent
      have free₂ : (u₁.bfreeAll [(s.icache ip).addrs indirect]
          (((List.range nindirect).map (s.block ((s.icache ip).addrs indirect)).word).filter
          (· ≠ 0))).isSome = true := by
        refine bfreeAll_isSome loaded₁ (planted.words_nodup absent) (fun b member => ?_)
          fun b member => ?_
        all_goals
          obtain ⟨nonzero, k, inside, word⟩ := mem_nonzero.mp member
          rw [← word, ← tree_single absent ⟨k, List.mem_range.mp inside⟩] at nonzero ⊢
        · exact left₁ nonzero (by rintro _ - ⟨⟩)
        · rw [List.mem_singleton, List.mem_singleton, freed₁.sb]
          obtain ⟨super, bitmap⟩ := able.single _ nonzero
          exact ⟨fun equal => super equal.symm, bitmap⟩
      obtain ⟨u, looped⟩ := Option.isSome_iff_exists.mp free₂
      obtain ⟨words, icache, -⟩ := bfreeAll_freed loaded₁ looped
      have looped₁ := words.read loaded₁
      have marked : u.used ((s.icache ip).addrs indirect) = true := by
        have left := left₁ (n := .root indirect) absent (by decide)
        have other := planted.notMem_words (n := .root indirect) absent absent (by rintro _ ⟨⟩)
        rw [tree_root] at left other
        rw [words.used, left, decide_eq_true other]
        rfl
      obtain ⟨v, freed⟩ :=
        Option.isSome_iff_exists.mp (bfree_isSome looped₁ List.not_mem_nil List.not_mem_nil marked)
      obtain ⟨root, icache', -, -⟩ := bfree_freed looped₁ freed
      refine ⟨((List.range nindirect).map (s.block ((s.icache ip).addrs indirect)).word).filter
        (· ≠ 0) ++ [(s.icache ip).addrs indirect], (v.setInode ip i₁).setAddr ip indirect 0, ?_, ?_,
        ?_, fun present => ?_⟩
      · simp only [freeRoot, setInode_icache, kept₁.1, if_neg absent]
        rw [freeWords_eq (loaded₁.setInode _) (List.mem_singleton_self _)]
        change (State.bfreeAll _ (((List.range nindirect).map
          (u₁.block ((s.icache ip).addrs indirect)).word).filter (· ≠ 0)) _ >>= _) = _
        rw [same, bfreeAll_setInode, looped]
        change ((u.setInode ip i₁).bfree [] _ >>= _) = _
        rw [bfree_setInode, freed]
        rfl
      · rw [setAddr_eq, setInode_icache, setInode_setInode]
        exact ((words.trans root).setInode i₁ _).of_setInode
      · rw [setAddr_eq, setInode_icache, setInode_icache, cleared_other (by decide), kept₁.2]
      · rw [List.mem_append, List.mem_singleton, not_or]
        refine ⟨planted.notMem_words absent present (by rintro _ ⟨⟩), fun equal => ?_⟩
        cases planted.once (.root double) (.root indirect) present equal
  obtain ⟨bs, s₂, single, freed₂, kept₂, apart⟩ := part₂
  have part₃ :
      ∃ s₃, s₂.freeRoot ip double (fun d => freeLevel1 d (List.range nindirect)) = some s₃ := by
    by_cases absent : (s.icache ip).addrs double = 0
    · exact ⟨s₂, by simp only [freeRoot, kept₂, if_pos absent]⟩
    · have zero :
          ∀ j ∈ List.range nindirect, (s₂.block ((s.icache ip).addrs double)).word j = 0 := by
        intro j inside
        have none := able.flat ⟨j, List.mem_range.mp inside⟩
        rw [tree_level1 absent] at none
        change (s.block ((s.icache ip).addrs double)).word j = 0 at none
        have later := freed₂.word_le ((s.icache ip).addrs double) j
        have early := freed₁.word_le ((s.icache ip).addrs double) j
        omega
      have marked : s₂.used ((s.icache ip).addrs double) = true := by
        rw [freed₂.used, ← tree_root, left₁ (n := .root double) absent (by decide),
          decide_eq_true (apart absent)]
        rfl
      obtain ⟨v, freed⟩ := Option.isSome_iff_exists.mp
        (bfree_isSome (freed₂.read loaded₁) List.not_mem_nil List.not_mem_nil marked)
      refine ⟨v.setAddr ip double 0, ?_⟩
      simp only [freeRoot, kept₂, if_neg absent, freeLevel1_zero zero]
      change (s₂.bfree [] _ >>= _) = _
      rw [freed]
      rfl
  obtain ⟨s₃, twice⟩ := part₃
  simp only [itrunc, direct, Option.bind_eq_bind, Option.bind_some, single, twice]
  rfl

/-- Writing the inode back leaves the bitmap alone. -/
theorem used_iupdate (wf : s.sb.Wf) (inum : (s.icache ip).inum < s.sb.ninodes) (c : Nat) :
    (s.iupdate ip).used c = s.used c := by
  have before := Superblock.iblock_lt_bmapstart wf inum
  have apart : s.sb.bblock c ≠ s.sb.iblock (s.icache ip).inum :=
    Nat.ne_of_gt (before.trans_le (Nat.le_add_left _ _))
  simp only [used, iupdate, logWrite_sb, logWrite_block_other s _ apart]

/-- What a run of `itrunc` that returns has done. -/
theorem Returns.spec {read : Nat → Nat} (wf : s.sb.Wf) (inum : (s.icache ip).inum < s.sb.ninodes)
    (returns : Returns s t ip read) :
    (∀ c, t.used c = (s.used c && decide (c ∉ freedBy (s.icache ip) read))) ∧
      (∀ i, (t.icache ip).addrs i = 0) ∧ (t.icache ip).size = 0 := by
  obtain ⟨u, freed, rfl⟩ := returns.freed
  have inode : (u.setInode ip { s.icache ip with addrs := fun _ => 0, size := 0 }).icache ip =
      { s.icache ip with addrs := fun _ => 0, size := 0 } := setInode_icache ..
  refine ⟨fun c => ?_, fun i => ?_, ?_⟩
  · rw [used_iupdate]
    · exact freed.used c
    · exact (congrArg Superblock.Wf freed.sb).mpr wf
    · rw [inode]
      exact lt_of_lt_of_eq inum (congrArg Superblock.ninodes freed.sb).symm
  · change ((u.setInode ip _).icache ip).addrs i = 0
    rw [inode]
  · change ((u.setInode ip _).icache ip).size = 0
    rw [inode]

theorem mem_freedBy {i : Inode} {read : Nat → Nat} {b : Nat} : b ∈ freedBy i read ↔
    (b ≠ 0 ∧ ∃ j ∈ directs, i.addrs j = b) ∨
      (i.addrs indirect ≠ 0 ∧ ((b ≠ 0 ∧ ∃ k < nindirect, read k = b) ∨ b = i.addrs indirect)) ∨
        (i.addrs double ≠ 0 ∧ b = i.addrs double) := by
  have part (c : Nat) (l : List Nat) : b ∈ (if c = 0 then [] else l) ↔ c ≠ 0 ∧ b ∈ l := by
    split <;> simp [*]
  rw [freedBy, List.mem_append, List.mem_append, part, part, List.mem_append, mem_nonzero,
    mem_nonzero, List.mem_singleton, List.mem_singleton]
  simp only [List.mem_range]

/-- The tree of an inode is what `itrunc` frees when the indirect block is read as it was. -/
theorem mem_freedBy_iff (able : Truncatable s ip) (b : Nat) :
    b ∈ freedBy (s.icache ip) (s.block ((s.icache ip).addrs indirect)).word ↔
      ∃ n, s.tree ip n ≠ 0 ∧ s.tree ip n = b := by
  rw [mem_freedBy]
  constructor
  · rintro (⟨nonzero, i, -, rfl⟩ | ⟨present, ⟨nonzero, k, bound, rfl⟩ | rfl⟩ | ⟨present, rfl⟩)
    · exact ⟨.root i, nonzero, rfl⟩
    · rw [← tree_single present ⟨k, bound⟩] at nonzero
      exact ⟨.single ⟨k, bound⟩, nonzero, tree_single present ⟨k, bound⟩⟩
    · exact ⟨.root indirect, present, rfl⟩
    · exact ⟨.root double, present, rfl⟩
  · rintro ⟨n, nonzero, rfl⟩
    have all (j : Fin (ndirect + 2)) : j ∈ directs ∨ j = indirect ∨ j = double := by decide +revert
    cases n with
    | root i =>
      rcases all i with direct | rfl | rfl
      · exact .inl ⟨nonzero, i, direct, rfl⟩
      · exact .inr (.inl ⟨nonzero, .inr rfl⟩)
      · exact .inr (.inr ⟨nonzero, rfl⟩)
    | single k =>
      have present : (s.icache ip).addrs indirect ≠ 0 := fun absent => nonzero (if_pos absent)
      exact .inr (.inl ⟨present, .inl ⟨nonzero, k, k.isLt, (tree_single present k).symm⟩⟩)
    | level1 j => exact absurd (able.flat j) nonzero
    | leaf j k =>
      have flat : s.follow ((s.inode (.core ip)).addrs double) j = 0 := able.flat j
      exact absurd (show s.follow (s.follow _ j) k = 0 by rw [flat]; rfl) nonzero

/-- If all blocks of the tree were freed, then the indirect block was read as it was
at the start, and there was no level-1 block. -/
theorem Returns.truncatable {read : Nat → Nat} (planted : Planted s ip)
    (returns : Returns s t ip read)
    (all : ∀ n, s.tree ip n ≠ 0 → s.tree ip n ∈ freedBy (s.icache ip) read) : Truncatable s ip := by
  -- a block below the indirect or the double-indirect one is freed only as a word that was read
  have found (n : Node) (nonzero : s.tree ip n ≠ 0) (other : ∀ i, n ≠ .root i) :
      (s.icache ip).addrs indirect ≠ 0 ∧ ∃ k < nindirect, read k = s.tree ip n := by
    rcases mem_freedBy.mp (all n nonzero)
      with ⟨-, i, -, same⟩ | ⟨present, ⟨-, k, bound, same⟩ | same⟩ | ⟨-, same⟩
    · exact absurd (planted.once n (.root i) nonzero same.symm) (other i)
    · exact ⟨present, k, bound, same⟩
    · exact absurd (planted.once n (.root indirect) nonzero same) (other indirect)
    · exact absurd (planted.once n (.root double) nonzero same) (other double)
  have same : (s.icache ip).addrs indirect ≠ 0 →
      ∀ k < nindirect, (s.block ((s.icache ip).addrs indirect)).word k ≠ 0 →
      read k = (s.block ((s.icache ip).addrs indirect)).word k := by
    intro present
    refine eq_of_covers returns.read_le (fun j first k second nonzero equal => ?_)
      fun k bound nonzero => ?_
    · have place := planted.once (.single ⟨j, first⟩) (.single ⟨k, second⟩)
        (by rwa [tree_single present])
        (by rw [tree_single present, tree_single present]; exact equal)
      cases place
      rfl
    · have word := tree_single present ⟨k, bound⟩
      obtain ⟨-, j, inside, equal⟩ := found (.single ⟨k, bound⟩) (by rwa [word]) nofun
      exact ⟨j, inside, equal.trans word⟩
  constructor
  · intro j
    by_contra nonzero
    obtain ⟨present, k, bound, equal⟩ := found (.level1 j) nonzero nofun
    have word : (s.block ((s.icache ip).addrs indirect)).word k ≠ 0 := by
      have := returns.read_le k
      omega
    rw [same present k bound word] at equal
    have place := planted.once (.level1 j)
      (.single ⟨k, bound⟩) nonzero (by rw [tree_single present]; exact equal.symm)
    cases place
  · intro i direct nonzero present bitmap
    obtain ⟨k, bound, less⟩ := returns.read_lt _ (mem_nonzero.mpr ⟨nonzero, i, direct, rfl⟩) bitmap
    have := same present k bound (Nat.ne_of_gt (Nat.zero_le _ |>.trans_lt less))
    omega
  · intro k nonzero
    have present : (s.icache ip).addrs indirect ≠ 0 := fun absent => nonzero (if_pos absent)
    rw [tree_single present] at nonzero ⊢
    have equal := same present k k.isLt nonzero
    rw [← equal] at nonzero ⊢
    exact returns.avoids present k k.isLt nonzero

/-- On a disk whose superblock is the one in memory, `itrunc` returns with exactly the bits of
the tree cleared and an empty inode if and only if the tree has no level-1 block, and its indirect
block is neither the superblock nor the bitmap block of a block that is freed before the loop over
it ends. -/
theorem itrunc_frees_tree_iff (loaded : readsb (s.block superblockNo) = s.sb)
    (ahead : superblockNo < s.sb.bmapstart) (wf : s.sb.Wf)
    (inum : (s.icache ip).inum < s.sb.ninodes)
    (marked : ∀ n, s.tree ip n ≠ 0 → s.used (s.tree ip n) = true)
    (once : ∀ m n, s.tree ip m ≠ 0 → s.tree ip m = s.tree ip n → m = n) :
    (∃ t, s.itrunc ip = some t ∧
      (∀ b, t.used b = true ↔ s.used b = true ∧ ¬ ∃ n, s.tree ip n ≠ 0 ∧ s.tree ip n = b) ∧
      (∀ i, (t.icache ip).addrs i = 0) ∧ (t.icache ip).size = 0) ↔ Truncatable s ip := by
  have planted : Planted s ip := ⟨marked, once⟩
  have loaded : SuperblockRead s := ⟨loaded, ahead⟩
  constructor
  · rintro ⟨t, done, bits, -⟩
    obtain ⟨read, returns⟩ := itrunc_returns loaded done
    refine returns.truncatable planted fun n nonzero => ?_
    have cleared : t.used (s.tree ip n) = false := by
      rw [← Bool.not_eq_true, bits]
      exact fun still => still.2 ⟨n, nonzero, rfl⟩
    rw [(returns.spec wf inum).1, marked n nonzero, Bool.true_and, decide_eq_false_iff_not, not_not]
      at cleared
    exact cleared
  · intro able
    obtain ⟨t, done⟩ := Option.isSome_iff_exists.mp (itrunc_isSome loaded planted able)
    obtain ⟨read, returns⟩ := itrunc_returns loaded done
    obtain ⟨used, addrs, size⟩ := returns.spec wf inum
    refine ⟨t, done, fun b => ?_, addrs, size⟩
    have words : (s.icache ip).addrs indirect = 0 ∨
        read = (s.block ((s.icache ip).addrs indirect)).word := by
      by_cases absent : (s.icache ip).addrs indirect = 0
      · exact .inl absent
      · refine .inr (funext (returns.read_eq fun b member => ?_))
        obtain ⟨nonzero, i, direct, rfl⟩ := mem_nonzero.mp member
        exact able.direct i direct nonzero absent
    have list : freedBy (s.icache ip) read =
        freedBy (s.icache ip) (s.block ((s.icache ip).addrs indirect)).word := by
      rcases words with absent | same
      · simp only [freedBy, if_pos absent]
      · rw [same]
    rw [used, Bool.and_eq_true, decide_eq_true_eq, list, mem_freedBy_iff able]

/-- A file with a double-indirect block, number 5. If it is `deep`, block 6 is its
first level-1 block and block 7 the first block below that. -/
def doubleFs (deep : Bool) : State where
  sb := ⟨16, 11, 8, 0, 2, 2, 4⟩
  block b :=
    if b = superblockNo then Bytes.write .zero 0 ([16, 11, 8, 0, 2, 2, 4].flatMap (toLe 4))
    else if b = 4 then Bytes.write .zero 0 [0xff]
    else if b = 5 then Bytes.zero.setWord 0 (if deep then 6 else 0)
    else if b = 6 then Bytes.zero.setWord 0 7
    else .zero
  icache ip :=
    ⟨⟨tFile, 0, 0, 1, 140 * bsize, fun i => if i = double then 5 else 0⟩, ip.val + 1, 1, true⟩
  devsw _ := ⟨none, none⟩
  logged := []

theorem word_setWord_zero (i : Fin nindirect) {v : Nat} (fits : v < 256) :
    ((Bytes.zero : Bytes bsize).setWord 0 v).word i = if i.val = 0 then v else 0 := by
  split
  next first => rw [first, Bytes.word_setWord_same _ (by decide) (by omega)]
  next other => rw [Bytes.word_setWord_other _ (Ne.symm other), Bytes.word_zero]

def firstWord : Fin nindirect := ⟨0, by decide⟩

theorem tree_doubleFs (deep : Bool) (n : Node) : (doubleFs deep).tree 0 n =
    if n = .root double then 5
    else if deep = true ∧ n = .level1 firstWord then 6
    else if deep = true ∧ n = .leaf firstWord firstWord then 7
    else 0 := by
  have level1 (j : Fin nindirect) :
      (doubleFs deep).tree 0 (.level1 j) = if deep = true ∧ j = firstWord then 6 else 0 := by
    refine (word_setWord_zero j (by cases deep <;> decide)).trans ?_
    cases deep <;> simp [firstWord, Fin.ext_iff]
  cases n with
  | root i => simp [tree, addr, inode, doubleFs]
  | single j => simp [tree, addr, inode, follow, doubleFs, indirect, double]
  | level1 j => simp [level1]
  | leaf j k =>
    change (doubleFs deep).follow ((doubleFs deep).tree 0 (.level1 j)) k = _
    rw [level1]
    by_cases first : deep = true ∧ j = firstWord
    · rw [if_pos first]
      refine (word_setWord_zero k (by decide)).trans ?_
      simp [first, firstWord, Fin.ext_iff]
    · rw [if_neg first]
      simp only [follow, reduceCtorEq, and_false, if_false, Node.leaf.injEq, ← and_assoc, first,
        false_and, if_true]

theorem doubleFs_read (deep : Bool) : SuperblockRead (doubleFs deep) :=
  ⟨by decide +revert, by decide +revert⟩

theorem doubleFs_planted (deep : Bool) :
    (doubleFs deep).sb.Wf ∧ ((doubleFs deep).icache 0).inum < (doubleFs deep).sb.ninodes ∧
      Planted (doubleFs deep) 0 := by
  refine ⟨⟨by decide +revert, by decide +revert⟩, by decide +revert, fun n => ?_, fun m n => ?_⟩
  · have used (b : Fin 8) : (doubleFs deep).used b = true := by decide +revert +kernel
    rw [tree_doubleFs]
    split_ifs
    · exact fun _ => used 5
    · exact fun _ => used 6
    · exact fun _ => used 7
    · exact fun zero => absurd rfl zero
  · rw [tree_doubleFs, tree_doubleFs]
    split_ifs <;> simp_all

theorem itrunc_frees_double_block :
    SuperblockRead (doubleFs false) ∧ (doubleFs false).Planted 0 ∧ Truncatable (doubleFs false) 0 ∧
      ∃ t, (doubleFs false).itrunc 0 = some t ∧
      (∀ b, t.used b = true ↔ (doubleFs false).used b = true ∧
        ¬ ∃ n, (doubleFs false).tree 0 n ≠ 0 ∧ (doubleFs false).tree 0 n = b) ∧
      (∀ i, (t.icache 0).addrs i = 0) ∧ (t.icache 0).size = 0 := by
  obtain ⟨wf, inum, planted⟩ := doubleFs_planted false
  have able : Truncatable (doubleFs false) 0 := by
    constructor
    · exact fun j => by simp [tree_doubleFs]
    · exact fun i _ _ there => absurd (by simp [tree_doubleFs, indirect, double]) there
    · exact fun k there => absurd (by simp [tree_doubleFs]) there
  have read := doubleFs_read false
  exact ⟨read, planted, able,
    (itrunc_frees_tree_iff read.loaded read.ahead wf inum planted.marked planted.once).mpr able⟩

/-- With one level-1 block the call does not return: block 6 is freed by the inner
loop, and the `bfree` after the loop finds it free. -/
theorem itrunc_frees_level1_twice :
    SuperblockRead (doubleFs true) ∧ (doubleFs true).sb.Wf ∧
      ((doubleFs true).icache 0).inum < (doubleFs true).sb.ninodes ∧
      (∀ n, (doubleFs true).tree 0 n ≠ 0 → (doubleFs true).used ((doubleFs true).tree 0 n) = true) ∧
      (∀ m n, (doubleFs true).tree 0 m ≠ 0 →
        (doubleFs true).tree 0 m = (doubleFs true).tree 0 n → m = n) ∧
      (doubleFs true).itrunc 0 = none := by
  obtain ⟨wf, inum, planted⟩ := doubleFs_planted true
  exact ⟨doubleFs_read true, wf, inum, planted.marked, planted.once, by decide⟩

end State
end Aso.Xv6.Fs
