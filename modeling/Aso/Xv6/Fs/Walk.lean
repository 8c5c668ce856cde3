import Aso.Xv6.Fs.Path
import Aso.Xv6.Fs.Steps

/-! Walks along a path in a tree of directories. A walk takes and drops references and locks as it
goes; at each of its exits it has none but the reference to the inode that it returns. -/
namespace Aso.Xv6.Fs
open Names (Path Name)

namespace State
variable {s : State} {ip : Slot} {d i inum : Nat} {name : List UInt8}

/-- The inode is allocated, and a reference to it can be dropped without freeing it. -/
structure Kept (s : State) (i : Nat) : Prop where
  allocated : s.Allocated i
  stays : (s.dinode i).nlink ≠ 0 ∨ ∃ ip, 0 < (s.icache ip).ref ∧ (s.icache ip).inum = i

/-- The directories are made of whole entries, which name inodes that have links. -/
structure Tree (s : State) : Prop where
  root : s.Kept rootino
  whole : ∀ d, s.Allocated d → (s.dinode d).type = tDir → direntSize ∣ (s.dinode d).size
  entry : ∀ d, s.Allocated d → (s.dinode d).type = tDir → ∀ i < (s.dinode d).size / direntSize,
    entryInum (s.byteAt (.disk d)) i ≠ 0 → s.Kept (entryInum (s.byteAt (.disk d)) i)

theorem Tree.child (tree : Tree s) (allocated : s.Allocated d) (dir : (s.dinode d).type = tDir)
    (found : s.child d name = some i) : s.Kept i := by
  obtain ⟨e, entry, rfl⟩ := Option.map_eq_some_iff.mp found
  have used := List.find?_some entry
  simp only [decide_eq_true_eq] at used
  exact tree.entry d allocated dir e (List.mem_range.mp (List.mem_of_find?_eq_some entry)) used.1

/-- The fields of an entry as `readi` returns it. -/
theorem dirent_fields (bytes : Nat → UInt8) (i : Nat) :
    direntInum ((List.range direntSize).map fun j => bytes (direntSize * i + j)) =
      entryInum bytes i ∧
    fieldText (direntName ((List.range direntSize).map fun j => bytes (direntSize * i + j))) =
      entryName bytes i :=
  ⟨rfl, rfl⟩

theorem namecmp_eq_zero_iff (de : List UInt8) :
    namecmp name (direntName de) = 0 ↔
      fieldText (direntName de) = fieldText (name.take dirsiz) := by
  have cut : (direntName de).take dirsiz = direntName de := by
    rw [direntName, List.take_take, Nat.min_self]
  rw [namecmp, strncmp_eq_zero_iff, cut, eq_comm]

theorem setInode_inum {new : Inode} (same : new.inum = (s.icache ip).inum) (j : Slot) :
    ((s.setInode ip new).icache j).inum = (s.icache j).inum := by
  obtain rfl | other := eq_or_ne j ip
  · rw [setInode_icache, same]
  · rw [setInode_other other]

/-- The number of references to an inode in memory changes. -/
theorem CacheOk.setRef (cache : CacheOk s) (held : 0 < (s.icache ip).ref) (ref : Nat) :
    CacheOk (s.setInode ip { s.icache ip with ref := ref }) := by
  refine cache.setInode (cache.known ip) (fun _ j other used same => ?_) fun used => ?_
  · exact other (cache.unique j ip used held same)
  · exact ⟨cache.typed ip ⟨held, used.2⟩, cache.through ip ⟨held, used.2⟩⟩

/-- `iget` finds the inode in the cache, or an unused slot, or panics. -/
theorem iget_cases (s : State) (inum : Nat) : (s.iget inum = none ∧ ∀ j, (s.icache j).ref ≠ 0) ∨
    ∃ ip new, s.iget inum = some (ip, s.setInode ip new) ∧ new.ref = (s.icache ip).ref + 1 ∧
      new.inum = inum ∧
      (0 < (s.icache ip).ref → (s.icache ip).inum = inum) := by
  unfold iget
  split
  · next ip found =>
    have cached := List.find?_some found
    simp only [decide_eq_true_eq] at cached
    exact .inr ⟨ip, _, rfl, rfl, cached.2, fun _ => cached.2⟩
  · split
    · next ip found =>
      have free := List.find?_some found
      simp only [decide_eq_true_eq] at free
      exact .inr ⟨ip, _, rfl, by rw [free], rfl, fun used => absurd free used.ne'⟩
    · next none =>
      refine .inl ⟨rfl, fun j unused => ?_⟩
      exact absurd (decide_eq_true unused) (List.find?_eq_none.mp none j (List.mem_finRange j))

end State

namespace Walk
open Kernel State Partial
variable {k m : Kernel} {extra held : List Slot} {ip : Slot} {d i inum : Nat} {name : List UInt8}

/-- Since `k`, the references `extra` and the locks `held` have been taken, and nothing else has
happened to the disk or to the inodes in use. -/
structure Walking (k : Kernel) (extra held : List Slot) (m : Kernel) : Prop where
  disk : m.fs = { k.fs with icache := m.fs.icache }
  cache : m.fs.CacheOk
  refs : ∀ j, (m.fs.icache j).ref = (k.fs.icache j).ref + extra.count j
  numbers : ∀ j, 0 < (k.fs.icache j).ref → (m.fs.icache j).inum = (k.fs.icache j).inum
  locks : ∀ j, m.locked j = true ↔ j ∈ held

namespace Walking

theorem diskOk (here : Walking k extra held m) (disk : k.fs.DiskOk) : m.fs.DiskOk := by
  apply disk.congr <;> rw [here.disk]

theorem sb (here : Walking k extra held m) : m.fs.sb = k.fs.sb := by
  rw [here.disk]

theorem dinode (here : Walking k extra held m) : m.fs.dinode i = k.fs.dinode i := by
  rw [here.disk]
  rfl

theorem byteAt (here : Walking k extra held m) : m.fs.byteAt (.disk i) = k.fs.byteAt (.disk i) := by
  rw [here.disk]
  rfl

theorem ref_pos (here : Walking k extra held m) (mine : ip ∈ extra) : 0 < (m.fs.icache ip).ref := by
  have := List.count_pos_iff.mpr mine
  rw [here.refs]
  omega

/-- One inode in memory changes. -/
theorem setInode {new : Inode} {extra' : List Slot} (here : Walking k extra held m)
    (cache : (m.fs.setInode ip new).CacheOk)
    (ref : new.ref = (k.fs.icache ip).ref + extra'.count ip)
    (others : ∀ j, j ≠ ip → extra'.count j = extra.count j)
    (number : 0 < (k.fs.icache ip).ref → new.inum = (m.fs.icache ip).inum) :
    Walking k extra' held { m with fs := m.fs.setInode ip new } := by
  refine ⟨?_, cache, fun j => ?_, fun j used => ?_, here.locks⟩
  · exact congrArg (fun s : State => s.setInode ip new) here.disk
  · obtain rfl | other := eq_or_ne j ip
    · exact (congrArg Inode.ref (m.fs.setInode_icache j new)).trans ref
    · rw [others j other, ← here.refs]
      exact congrArg Inode.ref (setInode_other other)
  · rw [← here.numbers j used]
    obtain rfl | other := eq_or_ne j ip
    · exact setInode_inum (number used) j
    · exact congrArg Inode.inum (setInode_other other)

end Walking

/-- Two slots of the cache are unused. -/
def Room (k : Kernel) : Prop := ∃ a b, a ≠ b ∧ (k.fs.icache a).ref = 0 ∧ (k.fs.icache b).ref = 0

/-- One entry of a directory. -/
theorem readEntry_eq (disk : m.fs.DiskOk) (cache : m.fs.CacheOk) (used : (m.fs.icache ip).inUse)
    (dir : (m.fs.icache ip).type = tDir) (inside : direntSize * (i + 1) ≤ (m.fs.icache ip).size) :
    readEntry ip (direntSize * i) m =
      some ((List.range direntSize).map fun j => m.fs.byteAt (.core ip) (direntSize * i + j),
        m) := by
  have file : (m.fs.icache ip).type ≠ tDev := by
    rw [dir]
    decide
  have filled : m.fs.Filled (.core ip) := disk.filled_live cache used file
  have small : (m.fs.icache ip).size ≤ maxfile * bsize := filled.size_le
  have size : direntSize = 16 := rfl
  have fits : maxfile * bsize + 16 < 2 ^ 32 := by decide
  rw [Nat.mul_succ] at inside
  have length : m.fs.readLen ip (direntSize * i) direntSize = direntSize := by
    unfold readLen
    omega
  have straight : direntSize * i ≤ (direntSize * i + direntSize) % 2 ^ 32 := by omega
  have read := readi_filled (disk.sound cache) used file filled (by omega) straight
  rw [length] at read
  have call : Kernel.readi ip (direntSize * i) direntSize m = some ((int32 direntSize,
      (List.range direntSize).map fun j => m.fs.byteAt (.core ip) (direntSize * i + j)), m) := by
    rw [Kernel.readi, onFs, read]
    rfl
  rw [readEntry, bind_run call]
  rfl

variable (m ip name) in
/-- The loop of `dirlookup` over the entries from `i` on. -/
theorem findEntry_eq (disk : m.fs.DiskOk) (cache : m.fs.CacheOk) (used : (m.fs.icache ip).inUse)
    (dir : (m.fs.icache ip).type = tDir) (left i : Nat)
    (inside : direntSize * (i + left) ≤ (m.fs.icache ip).size) :
    findEntry ip name left (direntSize * i) m =
      some (((List.range' i left).find? fun e => entryInum (m.fs.byteAt (.core ip)) e ≠ 0 ∧
        entryName (m.fs.byteAt (.core ip)) e = fieldText (name.take dirsiz)).map
          fun e => (entryInum (m.fs.byteAt (.core ip)) e, direntSize * e), m) := by
  induction left generalizing i with
  | zero => rfl
  | succ left ih =>
    have this : direntSize * (i + 1) ≤ (m.fs.icache ip).size :=
      (Nat.mul_le_mul_left _ (by omega)).trans inside
    obtain ⟨inum, text⟩ := dirent_fields (m.fs.byteAt (.core ip)) i
    have read := readEntry_eq disk cache used dir this
    generalize (List.range direntSize).map (fun j => m.fs.byteAt (.core ip) (direntSize * i + j)) =
      de at *
    have same : direntInum de ≠ 0 ∧ namecmp name (direntName de) = 0 ↔
        entryInum (m.fs.byteAt (.core ip)) i ≠ 0 ∧
        entryName (m.fs.byteAt (.core ip)) i = fieldText (name.take dirsiz) := by
      rw [namecmp_eq_zero_iff, inum, text]
    rw [findEntry, bind_run read, List.range'_succ, List.find?_cons]
    by_cases found : entryInum (m.fs.byteAt (.core ip)) i ≠ 0 ∧
        entryName (m.fs.byteAt (.core ip)) i = fieldText (name.take dirsiz)
    · rw [if_pos (same.mpr found), decide_eq_true found, inum]
      rfl
    · rw [if_neg (mt same.mp found), decide_eq_false found, ← Nat.mul_succ]
      exact ih (i + 1) (by rw [Nat.add_right_comm]; exact inside)

variable (name) in
/-- `dirlookup` of a directory in memory finds what is on disk. -/
theorem findEntry_child (here : Walking k extra held m) (disk : k.fs.DiskOk) (tree : k.fs.Tree)
    (used : (m.fs.icache ip).inUse) (dir : (k.fs.dinode (m.fs.icache ip).inum).type = tDir) :
    (m.fs.icache ip).type = tDir ∧
    ∃ found, findEntry ip name (entryCount (m.fs.icache ip).size) 0 m = some (found, m) ∧
      found.map Prod.fst = k.fs.child (m.fs.icache ip).inum (fieldText (name.take dirsiz)) := by
  have through := here.cache.through ip used
  have allocated : m.fs.Allocated (m.fs.icache ip).inum := here.cache.allocated (y := .core ip) used
  have known : k.fs.Allocated (m.fs.icache ip).inum :=
    ⟨here.sb ▸ allocated.1, here.dinode ▸ allocated.2⟩
  have bytes : m.fs.byteAt (.core ip) = k.fs.byteAt (.disk (m.fs.icache ip).inum) := by
    rw [← here.byteAt]
    exact byteAt_of_inode (here.cache.inode_eq (y := .core ip) used)
  rw [here.dinode] at through
  have type : (m.fs.icache ip).type = tDir := (congrArg Dinode.type through).trans dir
  have size : (m.fs.icache ip).size = (k.fs.dinode (m.fs.icache ip).inum).size :=
    congrArg Dinode.size through
  have whole := tree.whole _ known dir
  have count :
      entryCount (m.fs.icache ip).size = (k.fs.dinode (m.fs.icache ip).inum).size / direntSize := by
    obtain ⟨n, equal⟩ := whole
    rw [size, equal, entryCount, show direntSize = 16 from rfl]
    omega
  have loop := findEntry_eq m ip name (here.diskOk disk) here.cache used type
    (entryCount (m.fs.icache ip).size) 0
    (by rw [Nat.zero_add, count, Nat.mul_div_cancel' whole, size])
  refine ⟨type, _, loop, ?_⟩
  rw [Option.map_map, bytes, count, ← List.range_eq_range']
  rfl

namespace Walking

theorem iget (here : Walking k extra held m) (disk : k.fs.DiskOk) (known : inum < k.fs.sb.ninodes) :
    (Kernel.iget inum m = none ∧ ∀ j, (m.fs.icache j).ref ≠ 0) ∨
    ∃ ip m', Kernel.iget inum m = some (ip, m') ∧ Walking k (ip :: extra) held m' ∧
      (m'.fs.icache ip).inum = inum ∧
      Stays m.fs m'.fs := by
  obtain ⟨panics, full⟩ | ⟨ip, new, got, ref, number, before⟩ := m.fs.iget_cases inum
  · refine .inl ⟨?_, full⟩
    rw [Kernel.iget, onFs, panics]
    rfl
  obtain ⟨-, cache, stays⟩ := iget_ok (here.diskOk disk) here.cache (here.sb ▸ known) got
  have call : Kernel.iget inum m = some (ip, { m with fs := m.fs.setInode ip new }) := by
    rw [Kernel.iget, onFs, got]
    rfl
  refine .inr ⟨ip, _, call, here.setInode cache ?_ (fun j other => ?_) fun used => ?_, ?_, stays⟩
  · rw [ref, here.refs, List.count_cons_self, Nat.add_assoc]
  · exact List.count_cons_of_ne other.symm
  · rw [number, before]
    rw [here.refs]
    omega
  · exact (congrArg Inode.inum (m.fs.setInode_icache ip new)).trans number

theorem idup (here : Walking k extra held m) (used : 0 < (m.fs.icache ip).ref) :
    ∃ m', Kernel.idup ip m = some ((), m') ∧ Walking k (ip :: extra) held m' ∧
      (m'.fs.icache ip).inum = (m.fs.icache ip).inum := by
  have call : Kernel.idup ip m =
      some ((), { m with
        fs := m.fs.setInode ip { m.fs.icache ip with ref := (m.fs.icache ip).ref + 1 } }) := by
    rw [Kernel.idup, quiet, onFs, State.idup, if_neg (Nat.not_lt.mpr used)]
    rfl
  refine ⟨_, call, here.setInode (here.cache.setRef used _) ?_ (fun j other => ?_) fun _ => rfl, ?_⟩
  · rw [here.refs, List.count_cons_self, Nat.add_assoc]
  · exact List.count_cons_of_ne other.symm
  · exact setInode_inum (by rfl) ip

theorem lock (here : Walking k extra held m) (ip : Slot) :
    Walking k extra (ip :: held) { m with locked := Function.update m.locked ip true } := by
  refine ⟨here.disk, here.cache, here.refs, here.numbers, fun j => ?_⟩
  show Function.update m.locked ip true j = true ↔ _
  obtain rfl | other := eq_or_ne j ip
  · exact iff_of_true (Function.update_self ..) List.mem_cons_self
  · rw [Function.update_of_ne other, here.locks, List.mem_cons, or_iff_right other]

theorem ilock (here : Walking k extra held m) (disk : k.fs.DiskOk) (mine : ip ∈ extra)
    (free : ip ∉ held) (allocated : k.fs.Allocated (m.fs.icache ip).inum) :
    ∃ m', Kernel.ilock ip m = some ((), m') ∧ Walking k extra (ip :: held) m' ∧
      (m'.fs.icache ip).inUse ∧
      (m'.fs.icache ip).inum = (m.fs.icache ip).inum := by
  have used := here.ref_pos mine
  have unlocked : m.locked ip = false := by
    rw [← Bool.not_eq_true, here.locks]
    exact free
  by_cases valid : (m.fs.icache ip).valid = true
  · have call :
        Kernel.ilock ip m = some ((), { m with locked := Function.update m.locked ip true }) := by
      rw [Kernel.ilock, unlocked, State.ilock, if_neg (Nat.not_lt.mpr used), if_pos valid]
      rfl
    exact ⟨_, call, here.lock ip, ⟨used, valid⟩, rfl⟩
  · have loaded : m.fs.ilock ip = some (m.fs.setInode ip
        { m.fs.icache ip with toDinode := m.fs.dinode (m.fs.icache ip).inum, valid := true }) := by
      rw [State.ilock, if_neg (Nat.not_lt.mpr used), if_neg valid]
      dsimp only
      rw [if_neg]
      rw [setInode_icache, here.dinode]
      exact allocated.2
    obtain ⟨-, cache, inUse, -⟩ := ilock_ok (here.diskOk disk) here.cache loaded
    have call := Kernel.ilock.eq_1 ip m
    rw [unlocked, loaded, if_neg Bool.false_ne_true, Option.map_some] at call
    refine ⟨_, call, (here.setInode cache ?_ (fun _ _ => rfl) fun _ => rfl).lock ip, inUse, ?_⟩
    · exact here.refs ip
    · exact setInode_inum (by rfl) ip

theorem iunlock (here : Walking k extra (ip :: held) m) (mine : ip ∈ extra) (once : ip ∉ held) :
    ∃ m', Kernel.iunlock ip m = some ((), m') ∧ Walking k extra held m' ∧ m'.fs = m.fs := by
  have call :
      Kernel.iunlock ip m = some ((), { m with locked := Function.update m.locked ip false }) := by
    rw [Kernel.iunlock, if_pos ⟨(here.locks ip).mpr List.mem_cons_self, here.ref_pos mine⟩]
  refine ⟨_, call, ⟨here.disk, here.cache, here.refs, here.numbers, fun j => ?_⟩, rfl⟩
  show Function.update m.locked ip false j = true ↔ _
  obtain rfl | other := eq_or_ne j ip
  · exact iff_of_false (by rw [Function.update_self]; nofun) once
  · rw [Function.update_of_ne other, here.locks, List.mem_cons, or_iff_right other]

/-- A reference to an inode that stays is dropped. -/
theorem iput (here : Walking k (ip :: extra) held m) (free : ip ∉ held)
    (kept : k.fs.Kept (m.fs.icache ip).inum) :
    ∃ m', Kernel.iput ip m = some ((), m') ∧ Walking k extra held m' ∧
      ∀ j, (m'.fs.icache j).inum = (m.fs.icache j).inum := by
  have used := here.ref_pos List.mem_cons_self
  have refs := here.refs ip
  rw [List.count_cons_self] at refs
  have unlocked : m.locked ip = false := by
    rw [← Bool.not_eq_true, here.locks]
    exact free
  -- an inode without links is in use by somebody else
  have stays :
      ¬((m.fs.icache ip).valid = true ∧ (m.fs.icache ip).nlink = 0 ∧ (m.fs.icache ip).ref = 1) := by
    rintro ⟨valid, unlinked, last⟩
    have through := here.cache.through ip ⟨used, valid⟩
    rw [here.dinode] at through
    obtain linked | ⟨j, inUse, number⟩ := kept.stays
    · exact linked ((congrArg Dinode.nlink through).symm.trans unlinked)
    · have positive : 0 < (m.fs.icache j).ref := by
        rw [here.refs]
        omega
      obtain rfl := here.cache.unique j ip positive used ((here.numbers j inUse).trans number)
      omega
  have call : Kernel.iput ip m =
      some ((), { m with
        fs := m.fs.setInode ip { m.fs.icache ip with ref := (m.fs.icache ip).ref - 1 } }) := by
    rw [Kernel.iput, unlocked, if_neg Bool.false_ne_true, quiet, onFs, State.iput,
      if_neg (Nat.not_lt.mpr used), if_neg stays]
    rfl
  refine ⟨_, call, here.setInode (here.cache.setRef used _) ?_ (fun j other => ?_) fun _ => rfl,
    fun j => ?_⟩
  · show (m.fs.icache ip).ref - 1 = _
    omega
  · exact (List.count_cons_of_ne other.symm).symm
  · exact setInode_inum (by rfl) j

theorem iunlockput (here : Walking k (ip :: extra) (ip :: held) m) (once : ip ∉ held)
    (kept : k.fs.Kept (m.fs.icache ip).inum) :
    ∃ m', Kernel.iunlockput ip m = some ((), m') ∧ Walking k extra held m' ∧
      ∀ j, (m'.fs.icache j).inum = (m.fs.icache j).inum := by
  obtain ⟨m₁, unlocked, here₁, same⟩ := here.iunlock List.mem_cons_self once
  rw [← same] at kept ⊢
  obtain ⟨m₂, dropped, here₂, numbers⟩ := here₁.iput once kept
  exact ⟨m₂, (bind_run unlocked).trans dropped, here₂, numbers⟩

variable (name) in
/-- `dirlookup` panics when it needs a slot of the cache and there is none. -/
theorem dirlookup (here : Walking k extra held m) (disk : k.fs.DiskOk) (tree : k.fs.Tree)
    (used : (m.fs.icache ip).inUse) (dir : (k.fs.dinode (m.fs.icache ip).inum).type = tDir) :
    (Kernel.dirlookup ip name m = none ∧ ∀ j, (m.fs.icache j).ref ≠ 0) ∨
    (k.fs.child (m.fs.icache ip).inum (fieldText (name.take dirsiz)) = none ∧
      Kernel.dirlookup ip name m = some (none, m)) ∨
    ∃ next off m', Kernel.dirlookup ip name m = some (some (next, off), m') ∧
      Walking k (next :: extra) held m' ∧
      k.fs.child (m.fs.icache ip).inum (fieldText (name.take dirsiz)) =
      some (m'.fs.icache next).inum ∧ Stays m.fs m'.fs := by
  obtain ⟨type, found, loop, child⟩ := findEntry_child name here disk tree used dir
  have start : Kernel.inode ip m = some (m.fs.icache ip, m) := rfl
  have allocated : m.fs.Allocated (m.fs.icache ip).inum := here.cache.allocated (y := .core ip) used
  have known : k.fs.Allocated (m.fs.icache ip).inum :=
    ⟨here.sb ▸ allocated.1, here.dinode ▸ allocated.2⟩
  rw [Kernel.dirlookup, bind_run start, if_neg (not_not.mpr type), bind_run loop]
  cases found with
  | none => exact .inr (.inl ⟨child.symm, rfl⟩)
  | some entry =>
    obtain ⟨inum, off⟩ := entry
    have kept := tree.child known dir child.symm
    obtain ⟨panics, full⟩ | ⟨next, m', got, here', number, stays⟩ := here.iget disk kept.allocated.1
    · exact .inl ⟨bind_none panics, full⟩
    · exact .inr (.inr
        ⟨next, off, m', bind_run got, here', child.symm.trans (congrArg some number.symm), stays⟩)

theorem swap {a b : Slot} (here : Walking k [a, b] held m) : Walking k [b, a] held m := by
  refine ⟨here.disk, here.cache, fun j => ?_, here.numbers, here.locks⟩
  rw [here.refs, (List.Perm.swap b a []).count_eq]

/-- With two unused slots in the beginning there is one for the next directory. -/
theorem not_full (here : Walking k [ip] held m) (room : Room k) : ∃ j, (m.fs.icache j).ref = 0 := by
  have unused (j : Slot) (other : j ≠ ip) (free : (k.fs.icache j).ref = 0) :
      (m.fs.icache j).ref = 0 := by
    rw [here.refs, free, List.count_singleton, if_neg (by simpa using other.symm)]
  obtain ⟨a, b, apart, first, second⟩ := room
  obtain rfl | other := eq_or_ne a ip
  · exact ⟨b, unused b apart.symm second⟩
  · exact ⟨a, unused a other first⟩

end Walking

/-- The loop of `namex` from an inode on that the walk has a reference to. -/
theorem rounds_walks (disk : k.fs.DiskOk) (tree : k.fs.Tree) (parent : Bool) {left : Nat}
    {path : Path} {name : NameBuf} (long : path.length < left) (string : 0 ∉ path)
    (here : Walking k [ip] [] m) (kept : k.fs.Kept (m.fs.icache ip).inum) :
    (rounds parent left path name ip m = none ∧ ¬ Room k) ∨
    ∃ r name' m', rounds parent left path name ip m = some ((r, name'), m') ∧
      Walking k r.toList [] m' ∧
      r.map (fun j => (m'.fs.icache j).inum) =
      k.fs.sought parent (m.fs.icache ip).inum (components path) ∧
      ∀ j, parent = true → r = some j → (components path).getLast? = some name'.text := by
  induction left generalizing path name ip m with
  | zero => exact absurd long (Nat.not_lt_zero _)
  | succ left ih =>
    cases taken : skipelem path name with
    | none =>
      rw [skipelem_none_iff.mp taken, sought_nil, rounds, taken]
      refine .inr ?_
      cases parent with
      | true =>
        obtain ⟨m', dropped, here', -⟩ := here.iput (List.not_mem_nil) kept
        exact ⟨none, name, m', bind_run dropped, here', rfl, nofun⟩
      | false => exact ⟨some ip, name, m, rfl, here, rfl, nofun⟩
    | some next =>
      obtain ⟨rest, name₁⟩ := next
      obtain ⟨split, shorter, string₁, last⟩ := skipelem_some string taken
      obtain ⟨m₁, locked, here₁, used, number⟩ :=
        here.ilock disk List.mem_cons_self List.not_mem_nil kept.allocated
      rw [← number] at kept ⊢
      have start : Kernel.inode ip m₁ = some (m₁.fs.icache ip, m₁) := rfl
      have through := here₁.cache.through ip used
      rw [here₁.dinode] at through
      have type : (m₁.fs.icache ip).type = (k.fs.dinode (m₁.fs.icache ip).inum).type :=
        congrArg Dinode.type through
      rw [split, sought_cons, rounds, taken]
      dsimp only
      rw [bind_run locked, bind_run start, type]
      obtain ⟨m₂, dropped, here₂, -⟩ := here₁.iunlockput List.not_mem_nil kept
      by_cases dir : (k.fs.dinode (m₁.fs.icache ip).inum).type = tDir
      swap
      · rw [if_pos dir, if_neg dir]
        exact .inr ⟨none, name₁, m₂, bind_run dropped, here₂, rfl, nofun⟩
      rw [if_neg (not_not.mpr dir), if_pos dir]
      have both : parent = true ∧ rest = [] ↔ parent = true ∧ components rest = [] :=
        and_congr_right fun _ => last
      by_cases final : parent = true ∧ rest = []
      · obtain ⟨m₃, unlocked, here₃, same⟩ := here₁.iunlock List.mem_cons_self List.not_mem_nil
        rw [if_pos final, if_pos (both.mp final)]
        refine .inr ⟨some ip, name₁, m₃, bind_run unlocked, here₃, ?_, fun j _ _ => ?_⟩
        · rw [Option.map_some, same]
        · rw [last.mp final.2]
          rfl
      · rw [if_neg final, if_neg (mt both.mpr final)]
        have lookup := here₁.dirlookup (name₁.read 0 dirsiz) disk tree used dir
        rw [List.take_of_length_le (Bytes.length_read ..).le] at lookup
        obtain ⟨panics, full⟩ | ⟨absent, call⟩ | ⟨next, off, m₃, call, here₃, child, stays⟩ :=
          lookup
        · refine .inl ⟨bind_none panics, fun room => ?_⟩
          obtain ⟨j, unused⟩ := here₁.not_full room
          exact full j unused
        · rw [bind_run call, NameBuf.text, absent]
          exact .inr ⟨none, name₁, m₂, bind_run dropped, here₂, rfl, nofun⟩
        · rw [bind_run call, NameBuf.text, child]
          obtain ⟨ref, -, same⟩ := stays ip used.1
          have kept₃ : k.fs.Kept (m₃.fs.icache ip).inum := by
            rw [same]
            exact kept
          obtain ⟨m₄, dropped₄, here₄, numbers⟩ := here₃.swap.iunlockput List.not_mem_nil kept₃
          have known : k.fs.Kept (m₄.fs.icache next).inum := by
            rw [numbers]
            exact tree.child kept.allocated dir child
          dsimp only
          rw [bind_run dropped₄, ← numbers next]
          obtain panics | ⟨r, name', m', walked, here', result, named⟩ :=
            @ih m₄ next rest name₁ (by omega) string₁ here₄ known
          · exact .inl panics
          refine .inr ⟨r, name', m', walked, here', result, fun j asked found => ?_⟩
          have some := named j asked found
          have rest : components rest ≠ [] := fun none => final ⟨asked, last.mpr none⟩
          rw [List.getLast?_cons_of_ne_nil rest]
          exact some

/-- Where a walk begins. -/
def startInum (k : Kernel) (path : Path) (cwd : Slot) : Nat :=
  if path.head? = some 47 then rootino else (k.fs.icache cwd).inum

/-- Between two calls: the directories form a tree and nobody has locked an inode. -/
structure Settled (k : Kernel) : Prop where
  disk : k.fs.DiskOk
  cache : k.fs.CacheOk
  tree : k.fs.Tree
  unlocked : ∀ ip, k.locked ip = false

/-- The process has a reference to its current directory. -/
structure Home (k : Kernel) (cwd : Slot) : Prop where
  used : 0 < (k.fs.icache cwd).ref
  allocated : k.fs.Allocated (k.fs.icache cwd).inum

theorem Settled.walking (settled : Settled k) : Walking k [] [] k := by
  refine ⟨rfl, settled.cache, fun _ => rfl, fun _ _ => rfl, fun j => ?_⟩
  rw [settled.unlocked]
  exact iff_of_false nofun List.not_mem_nil

theorem startOf_walks (path : Path) {cwd : Slot} (settled : Settled k) (home : Home k cwd) :
    (startOf path cwd k = none ∧ ¬ Room k) ∨
    ∃ ip m, startOf path cwd k = some (ip, m) ∧ Walking k [ip] [] m ∧
      (m.fs.icache ip).inum = startInum k path cwd := by
  unfold startOf startInum
  split
  · obtain ⟨panics, full⟩ | ⟨ip, m, got, here, number, -⟩ :=
      settled.walking.iget settled.disk settled.tree.root.allocated.1
    · refine .inl ⟨panics, ?_⟩
      rintro ⟨a, -, -, unused, -⟩
      exact full a unused
    · exact .inr ⟨ip, m, got, here, number⟩
  · obtain ⟨m, got, here, number⟩ := settled.walking.idup home.used
    exact .inr ⟨cwd, m, bind_run got, here, number⟩

/-- Every call of `namex` that does not find the cache full. -/
theorem namex_walks {path : Path} {cwd : Slot} (settled : Settled k) (home : Home k cwd)
    (string : 0 ∉ path) (parent : Bool) (name : NameBuf) :
    (namex path parent name cwd k = none ∧ ¬ Room k) ∨
    ∃ r name' m, namex path parent name cwd k = some ((r, name'), m) ∧ Walking k r.toList [] m ∧
      r.map (fun j => (m.fs.icache j).inum) = k.fs.sought parent (startInum k path cwd)
      (components path) ∧
      ∀ j, parent = true → r = some j → (components path).getLast? = some name'.text := by
  obtain ⟨panics, full⟩ | ⟨ip, m, got, here, number⟩ := startOf_walks path settled home
  · exact .inl ⟨bind_none panics, full⟩
  have kept : k.fs.Kept (m.fs.icache ip).inum := by
    rw [number, startInum]
    split
    · exact settled.tree.root
    · exact ⟨home.allocated, .inr ⟨cwd, home.used, rfl⟩⟩
  rw [namex, bind_run got, ← number]
  exact rounds_walks settled.disk settled.tree parent (Nat.lt_succ_self _) string here kept

/-- `namei` and `nameiparent` find the inode that the elements of the path lead to. Of the
references that they take, the one to this inode is left, and of the locks none. -/
theorem namei_resolves {path : Path} {cwd : Slot} (settled : Settled k) (home : Home k cwd)
    (room : Room k) (string : 0 ∉ path) (name : NameBuf) :
    (∃ r m, namei path name cwd k = some (r, m) ∧ Walking k r.toList [] m ∧
      r.map (fun ip => (m.fs.icache ip).inum) = k.fs.walk (startInum k path cwd) (components path) ∧
      (r = none ↔ k.fs.Blocked (startInum k path cwd) (components path))) ∧
    ∃ r name' m, nameiparent path name cwd k = some ((r, name'), m) ∧ Walking k r.toList [] m ∧
      r.map (fun ip => (m.fs.icache ip).inum) = k.fs.parentOf (startInum k path cwd)
      (components path) ∧
      (components path = [] → r = none) ∧
      ∀ ip, r = some ip → (components path).getLast? = some name'.text := by
  constructor
  · obtain ⟨-, full⟩ | ⟨r, name', m, walked, here, found, -⟩ :=
      namex_walks settled home string false name
    · exact absurd room full
    refine ⟨r, m, bind_run walked, here, found, ?_⟩
    rw [← walk_eq_none_iff, ← Option.map_eq_none_iff, found]
    rfl
  · obtain ⟨-, full⟩ | ⟨r, name', m, walked, here, found, last⟩ :=
      namex_walks settled home string true name
    · exact absurd room full
    refine ⟨r, name', m, walked, here, found, fun none => ?_, fun ip => last ip rfl⟩
    rw [none] at found
    exact Option.map_eq_none_iff.mp found

/-- A root directory with its two dots, and nothing else; the process is in it. -/
def rootFs : State where
  sb := ⟨16, 11, 8, 0, 2, 2, 4⟩
  block b :=
    if b = 2 then Bytes.write .zero dinodeSize
      (Dinode.encode ⟨tDir, 0, 0, 1, 32, fun i => if i.val = 0 then 5 else 0⟩)
    else if b = 4 then Bytes.write .zero 0 [0x3f]
    else if b = 5 then Bytes.write .zero 0 (dirent [46] 1 ++ dirent [46, 46] 1)
    else .zero
  icache ip := ⟨⟨0, 0, 0, 0, 0, fun _ => 0⟩, 1, if ip.val = 0 then 1 else 0, false⟩
  devsw _ := ⟨none, none⟩
  logged := []

theorem rootFs_allocated {i : Nat} (allocated : rootFs.Allocated i) : i = 1 := by
  have all : ∀ i < 8, (rootFs.dinode i).type ≠ 0 → i = 1 := by decide
  exact all i allocated.1 allocated.2

theorem rootFs_addr (n : Node) : rootFs.addr (.disk 1) n = if n = .root 0 then 5 else 0 := by
  have roots : ∀ j, (rootFs.dinode 1).addrs j = if j = 0 then 5 else 0 := by decide
  have single : (rootFs.dinode 1).addrs indirect = 0 := roots _
  have double : (rootFs.dinode 1).addrs double = 0 := roots _
  cases n with
  | root j => simp [addr, State.inode, roots]
  | _ => simp [addr, State.inode, single, double, follow_zero]

theorem rootFs_settled : Settled ⟨rootFs, fun _ => false⟩ ∧ Home ⟨rootFs, fun _ => false⟩ 0 := by
  have size : (rootFs.dinode 1).size = 32 := by decide
  have type : (rootFs.dinode 1).type = tDir := by decide
  have linked : (rootFs.dinode 1).nlink ≠ 0 := by decide
  have entries : ∀ i < 2, entryInum (rootFs.byteAt (.disk 1)) i = 1 := by decide
  have root : rootFs.Kept rootino :=
    ⟨⟨by decide, by rw [show rootFs.dinode rootino = rootFs.dinode 1 from rfl, type]; decide⟩,
    .inl linked⟩
  have disk : rootFs.DiskOk := by
    refine ⟨⟨by decide, by decide⟩, by decide, by unfold Reserved; decide,
      fun i n allocated there => ?_, fun i n allocated there => ?_,
      fun i j m n first second there same => ?_, fun i allocated _ bn inside => ?_,
      fun i allocated _ e inside => ?_⟩
    · obtain rfl := rootFs_allocated allocated
      rw [rootFs_addr] at there ⊢
      split
      · exact ⟨by decide, by decide⟩
      · next absent => exact absurd (if_neg absent) there
    · obtain rfl := rootFs_allocated allocated
      rw [rootFs_addr] at there ⊢
      split
      · decide
      · next absent => exact absurd (if_neg absent) there
    · obtain rfl := rootFs_allocated first
      obtain rfl := rootFs_allocated second
      rw [rootFs_addr] at there same
      rw [rootFs_addr] at same
      split at same <;> split at same <;> simp_all
    · obtain rfl := rootFs_allocated allocated
      obtain rfl : bn = 0 := by
        rw [show (rootFs.inode (.disk 1)).size = 32 from size] at inside
        simp only [bsize] at inside
        omega
      refine ⟨by decide, ?_⟩
      rw [lookup, rootFs_addr]
      decide
    · obtain rfl := rootFs_allocated allocated
      rw [show (rootFs.inode (.disk 1)).size = 32 from size] at inside
      simp only [direntSize] at inside
      rw [entries e (by omega)]
      decide
  have cache : rootFs.CacheOk := by
    refine ⟨fun _ => (by decide : 1 < 8), fun a b used used' _ => ?_,
      fun _ used => absurd used.2 Bool.false_ne_true,
      fun _ used => absurd used.2 Bool.false_ne_true⟩
    have first (ip : Slot) (used : 0 < (rootFs.icache ip).ref) : ip = 0 := by
      revert ip
      decide
    rw [first a used, first b used']
  refine ⟨⟨disk, cache, ⟨root, fun d allocated _ => ?_, fun d allocated _ i inside _ => ?_⟩,
    fun _ => rfl⟩, by decide, root.allocated⟩
  · obtain rfl := rootFs_allocated allocated
    exact ⟨2, size⟩
  · obtain rfl := rootFs_allocated allocated
    rw [show (⟨rootFs, fun _ => false⟩ : Kernel).fs = rootFs from rfl, size] at inside
    rw [show (⟨rootFs, fun _ => false⟩ : Kernel).fs = rootFs from rfl, entries i inside]
    exact root

/-- The path `../.` from the root, with a buffer that has held a longer name. -/
theorem dots_resolve :
    (∃ r m, namei [46, 46, 47, 46] (fun _ => 97) 0 ⟨rootFs, fun _ => false⟩ = some (r, m) ∧
      Walking ⟨rootFs, fun _ => false⟩ r.toList [] m ∧
      r.map (fun ip => (m.fs.icache ip).inum) = rootFs.walk 1 [[46, 46], [46]] ∧
      rootFs.walk 1 [[46, 46], [46]] = some 1) ∧
    ∃ r name' m, nameiparent [46, 46, 47, 46] (fun _ => 97) 0 ⟨rootFs, fun _ => false⟩ =
      some ((r, name'), m) ∧
      Walking ⟨rootFs, fun _ => false⟩ r.toList [] m ∧ r ≠ none ∧ name'.text = [46] := by
  have names : components [46, 46, 47, 46] = [[46, 46], [46]] := by decide
  have start : startInum ⟨rootFs, fun _ => false⟩ [46, 46, 47, 46] 0 = 1 := by decide
  have walked : rootFs.walk 1 [[46, 46], [46]] = some 1 := by decide
  have above : rootFs.parentOf 1 [[46, 46], [46]] = some 1 := by decide
  have string : (0 : UInt8) ∉ ([46, 46, 47, 46] : Path) := by decide
  obtain ⟨⟨r, m, call, here, found, -⟩, r', name', m', call', here', found', -, last⟩ :=
    namei_resolves rootFs_settled.1 rootFs_settled.2 ⟨1, 2, by decide, rfl, rfl⟩ string fun _ => 97
  rw [start, names] at found found'
  rw [names] at last
  refine ⟨⟨r, m, call, here, found, walked⟩, r', name', m', call', here', ?_⟩
  cases r' with
  | none => exact absurd (found'.trans above) nofun
  | some ip => exact ⟨nofun, (Option.some.inj (last ip rfl)).symm⟩

end Walk
end Aso.Xv6.Fs
