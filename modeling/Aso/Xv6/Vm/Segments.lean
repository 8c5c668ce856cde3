import Aso.Xv6.Vm.Loading

/-! What `exec` makes of the program headers of a file. Whether the segments can be
loaded, and up to where they reach, is in the file; the rest is a matter of memory. -/
namespace Aso.Xv6.Vm
open Checked

theorem field_lt (bytes : List UInt8) (off len : Nat) : field bytes off len < 256 ^ len := by
  refine (leNat_lt _).trans_le (Nat.pow_le_pow_right (by decide) ?_)
  rw [List.length_take]
  exact Nat.min_le_left _ _

/-- The whole segment is in the file. -/
def Readable (file : File) (offset size : Nat) : Prop :=
  ∀ j < (size + (pgsize - 1)) / pgsize, Chunk file offset size (j * pgsize)

instance (file : File) (offset size : Nat) : Decidable (Readable file offset size) :=
  Nat.decidableBallLT _ _

/-- Nothing is wrong with the program header of a segment. -/
def Proghdr.Sound (file : File) (ph : Proghdr) : Prop :=
  ph.filesz ≤ ph.memsz ∧ ph.vaddr ≤ (ph.vaddr + ph.memsz) % 2 ^ 32 ∧
    (ph.vaddr + ph.memsz) % 2 ^ 32 < kernbase ∧
    ph.vaddr % pgsize = 0 ∧ Readable file ph.off ph.filesz

instance (file : File) (ph : Proghdr) : Decidable (ph.Sound file) :=
  inferInstanceAs (Decidable (_ ∧ _))

/-- Where the segments end, if `exec` can load them. -/
def segmentsEnd (file : File) : Nat → Nat → Nat → Option Nat
  | 0, sz, _ => some sz
  | n + 1, sz, off =>
    let bytes := file off proghdrSize
    let ph := Proghdr.decode bytes
    let next := (off + proghdrSize) % 2 ^ 32
    if bytes.length ≠ proghdrSize then none
    else if ph.type ≠ elfProgLoad ∨ ph.memsz = 0 then segmentsEnd file n sz next
    else if ph.Sound file then segmentsEnd file n (max sz ((ph.vaddr + ph.memsz) % 2 ^ 32)) next
    else none

section Segments
variable {k : Kernel} {m m' : Mem} {d d' : Pgdir} {file : File} {sz e : Nat}

/-- The end of a segment that passes the test does not wrap around. -/
theorem Proghdr.decode_end {bytes : List UInt8} (straight : (Proghdr.decode bytes).vaddr ≤
      ((Proghdr.decode bytes).vaddr + (Proghdr.decode bytes).memsz) % 2 ^ 32) :
    ((Proghdr.decode bytes).vaddr + (Proghdr.decode bytes).memsz) % 2 ^ 32 =
      (Proghdr.decode bytes).vaddr + (Proghdr.decode bytes).memsz := by
  have vaddr : (Proghdr.decode bytes).vaddr < 256 ^ 4 := field_lt bytes 8 4
  have memsz : (Proghdr.decode bytes).memsz < 256 ^ 4 := field_lt bytes 20 4
  omega

/-- `loaduvm` into pages that are there returns whether the file has the bytes. -/
theorem loadLoop_reads {addr size n i : Nat} (file : File) (offset : Nat) (space : Space d sz)
    (user : sz ≤ kernbase) (aligned : (addr + i) % pgsize = 0) (fits : addr + size ≤ sz)
    (inside : n = 0 ∨ i + (n - 1) * pgsize < size) :
    ∃ m', loadLoop d addr file offset size n m i =
      .ok (decide (∀ j < n, Chunk file offset size (i + j * pgsize)), m') := by
  induction n generalizing m i with
  | zero => exact ⟨m, by simp [loadLoop]⟩
  | succ n ih =>
    have last := inside.resolve_left n.succ_ne_zero
    rw [Nat.add_sub_cancel] at last
    obtain ⟨f, bytes, -, step⟩ :=
      loadLoop_step (m := m) file offset space user aligned fits (by omega) n
    have split : (∀ j < n + 1, Chunk file offset size (i + j * pgsize)) ↔
        Chunk file offset size i ∧ ∀ j < n, Chunk file offset size (i + pgsize + j * pgsize) := by
      rw [Nat.forall_lt_succ_left]
      simp only [Nat.zero_mul, Nat.add_zero, Nat.succ_mul, Nat.add_assoc, Nat.add_comm pgsize]
    rw [step]
    by_cases here : Chunk file offset size i
    · obtain ⟨m', rest⟩ := ih (m := m.write f 0 bytes) (i := i + pgsize)
        (by simp only [pgsize] at *; omega)
        (by simp only [pgsize] at *; omega)
      refine ⟨m', ?_⟩
      rw [if_pos here, rest]
      simp only [split, here, true_and]
    · refine ⟨m.write f 0 bytes, ?_⟩
      rw [if_neg here]
      simp only [split, here, false_and, decide_false]

theorem loaduvm_reads {addr size : Nat} (file : File) (offset : Nat) (space : Space d sz)
    (user : sz ≤ kernbase) (aligned : addr % pgsize = 0) (fits : addr + size ≤ sz) :
    ∃ m', loaduvm m d addr file offset size = .ok (decide (Readable file offset size), m') := by
  obtain ⟨m', loaded⟩ := loadLoop_reads (m := m) (n := (size + (pgsize - 1)) / pgsize)
    (i := 0) file offset space user
    aligned fits (by simp only [pgsize]; omega)
  refine ⟨m', ?_⟩
  rw [loaduvm, if_neg (not_not.mpr aligned), loaded]
  simp only [Nat.zero_add, Readable]

/-- A segment that is not refused lies below the size that `allocuvm` returns for it. -/
theorem Proghdr.fits {bytes : List UInt8} {size : Nat}
    (smaller : (Proghdr.decode bytes).filesz ≤ (Proghdr.decode bytes).memsz)
    (straight : (Proghdr.decode bytes).vaddr ≤
      ((Proghdr.decode bytes).vaddr + (Proghdr.decode bytes).memsz) % 2 ^ 32)
    (alloc : allocuvm k m d sz (((Proghdr.decode bytes).vaddr + (Proghdr.decode bytes).memsz) %
      2 ^ 32) = .ok (size, d', m'))
    (nonzero : size ≠ 0) : (Proghdr.decode bytes).vaddr + (Proghdr.decode bytes).filesz ≤ size := by
  have whole := Proghdr.decode_end straight
  have grown := (allocuvm_sz alloc nonzero).2
  omega

/-- The loop over the program headers writes to pages of the new image only, and when it
gets to its end, it has loaded the segments up to where the file says they end. -/
theorem loadSegments_space {n off : Nat} {result : Option Nat} (space : Space d sz)
    (below : sz < kernbase) (loaded : loadSegments k file n m d sz off = .ok (result, d', m')) :
    Untouched m d m' ∧
      ∀ e, result = some e → segmentsEnd file n sz off = some e ∧ Space d' e ∧ e < kernbase := by
  induction n generalizing m d sz off with
  | zero =>
    cases loaded
    refine ⟨.of_page rfl, ?_⟩
    rintro e ⟨⟩
    exact ⟨rfl, space, below⟩
  | succ n ih =>
    unfold segmentsEnd
    dsimp only
    cases loadSegments_round loaded with
    | refused => exact ⟨.of_page rfl, nofun⟩
    | skipped whole other rest =>
      rw [if_neg (not_not.mpr whole), if_pos other]
      exact ih space below rest
    | unplaced alloc => exact ⟨allocuvm_untouched alloc, nofun⟩
    | unread smaller straight alloc nonzero load =>
      obtain ⟨user, size⟩ := allocuvm_sz alloc nonzero
      have second := loaduvm_untouched (allocuvm_space space nonzero alloc)
        (size ▸ max_lt below user).le
        (Proghdr.fits smaller straight alloc nonzero) load
      exact ⟨(allocuvm_untouched alloc).trans (allocuvm_balance alloc) second, nofun⟩
    | loaded whole segment smaller straight alloc nonzero aligned load rest =>
      obtain ⟨user, size⟩ := allocuvm_sz alloc nonzero
      have space₁ := allocuvm_space space nonzero alloc
      have below₁ := size ▸ max_lt below user
      have fits := Proghdr.fits smaller straight alloc nonzero
      have second := (allocuvm_untouched alloc).trans (allocuvm_balance alloc)
        (loaduvm_untouched space₁ below₁.le fits load)
      obtain ⟨_, reads⟩ := loaduvm_reads file _ space₁ below₁.le aligned fits
      have readable := congrArg Prod.fst (Except.ok.inj (reads.symm.trans load))
      have sound : (Proghdr.decode (file off proghdrSize)).Sound file :=
        ⟨smaller, straight, user, aligned, of_decide_eq_true readable⟩
      obtain ⟨later, all⟩ := ih space₁ below₁ rest
      rw [if_neg (not_not.mpr whole), if_neg segment, if_pos sound, ← size]
      exact ⟨second.trans
        (by rw [← allocuvm_balance alloc, balance, balance, loaduvm_freelist load]) later, all⟩

end Segments
end Aso.Xv6.Vm
