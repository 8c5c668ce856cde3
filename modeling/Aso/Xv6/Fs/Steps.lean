import Aso.Xv6.Fs.Through
import Aso.Xv6.Fs.Truncate

/-! `iget` and `ilock` on a consistent file system: each leaves it consistent, with the locked
inodes still in memory. -/
namespace Aso.Xv6.Fs
namespace State
variable {s t : State} {ip k : Slot} {inum : Nat}

theorem setInode_other {new : Inode} (other : k ≠ ip) : (s.setInode ip new).icache k = s.icache k :=
  Function.update_of_ne other ..

/-- An entry of the cache changes; the disk does not. -/
theorem CacheOk.setInode {new : Inode} (cache : CacheOk s) (known : new.inum < s.sb.ninodes)
    (apart : 0 < new.ref → ∀ k, k ≠ ip → 0 < (s.icache k).ref → (s.icache k).inum ≠ new.inum)
    (current : new.inUse → new.type ≠ 0 ∧ new.toDinode = s.dinode new.inum) :
    CacheOk (s.setInode ip new) := by
  have here := s.setInode_icache ip new
  have there (k : Slot) (other : k ≠ ip) : (s.setInode ip new).icache k = s.icache k :=
    setInode_other other
  have same (j : Nat) : (s.setInode ip new).dinode j = s.dinode j := rfl
  refine ⟨fun k => ?_, fun a b => ?_, fun k => ?_, fun k => ?_⟩
  · by_cases self : k = ip
    · rw [self, here]
      exact known
    · rw [there k self]
      exact cache.known k
  · by_cases first : a = ip <;> by_cases second : b = ip
    · exact fun _ _ _ => first.trans second.symm
    · rw [first, here, there b second]
      exact fun used used' equal => absurd equal.symm (apart used b second used')
    · rw [second, here, there a first]
      exact fun used used' equal => absurd equal (apart used' a first used)
    · rw [there a first, there b second]
      exact cache.unique a b
  · by_cases self : k = ip
    · rw [self, here]
      exact fun used => (current used).1
    · rw [there k self]
      exact cache.typed k
  · by_cases self : k = ip
    · rw [self, here, same]
      exact fun used => (current used).2
    · rw [there k self, same]
      exact cache.through k

/-- Inodes in memory stay there, with the same fields on disk and in memory. -/
def Stays (s t : State) : Prop :=
  ∀ k, 0 < (s.icache k).ref → ∃ ref > 0, t.icache k = { s.icache k with ref := ref }

theorem setInode_stays {new : Inode}
    (same : 0 < (s.icache ip).ref → ∃ ref > 0, new = { s.icache ip with ref := ref }) :
    Stays s (s.setInode ip new) := by
  intro k used
  by_cases self : k = ip
  · subst self
    rw [setInode_icache]
    exact same used
  · exact ⟨_, used, Function.update_of_ne self ..⟩

theorem iget_ok (disk : DiskOk s) (cache : CacheOk s) (known : inum < s.sb.ninodes)
    (got : s.iget inum = some (ip, t)) : DiskOk t ∧ CacheOk t ∧ Stays s t := by
  unfold iget at got
  split at got
  · next found =>
    cases got
    have here := List.find?_some found
    simp only [decide_eq_true_eq] at here
    refine ⟨disk.congr rfl rfl, cache.setInode (cache.known _) (fun _ k other used same => ?_)
      (fun used => ?_), setInode_stays fun _ => ⟨_, Nat.succ_pos _, rfl⟩⟩
    · exact other (cache.unique k _ used here.1 same)
    · exact ⟨cache.typed _ ⟨here.1, used.2⟩, cache.through _ ⟨here.1, used.2⟩⟩
  · next absent =>
    split at got
    · next found =>
      cases got
      have unused := List.find?_some found
      simp only [decide_eq_true_eq] at unused
      refine ⟨disk.congr rfl rfl, cache.setInode known (fun _ k _ used same => ?_)
        (fun used => nomatch used.2), setInode_stays fun used => absurd unused used.ne'⟩
      have no := List.find?_eq_none.mp absent k (List.mem_finRange k)
      exact no (decide_eq_true ⟨used, same⟩)
    · cases got

theorem ilock_ok (disk : DiskOk s) (cache : CacheOk s) (done : s.ilock ip = some t) :
    DiskOk t ∧ CacheOk t ∧ (t.icache ip).inUse ∧ ∀ k, (s.icache k).inUse → (t.icache k).inUse := by
  unfold ilock at done
  split at done
  · cases done
  next held =>
  have held : 0 < (s.icache ip).ref := Nat.pos_of_ne_zero fun zero => held (zero ▸ Nat.one_pos)
  split at done
  · next valid =>
    cases done
    exact ⟨disk, cache, ⟨held, valid⟩, fun _ => id⟩
  · dsimp only at done
    split at done
    · cases done
    next typed =>
    cases done
    rw [setInode_icache] at typed
    refine ⟨disk.congr rfl rfl, cache.setInode (cache.known ip) (fun _ k other used same => ?_)
      (fun _ => ⟨typed, rfl⟩), ?_, fun k used => ?_⟩
    · exact other (cache.unique k ip used held same)
    · rw [setInode_icache]
      exact ⟨held, rfl⟩
    · by_cases self : k = ip
      · rw [self, setInode_icache]
        exact ⟨held, rfl⟩
      · rw [setInode_other self]
        exact used

end State
end Aso.Xv6.Fs
