import Aso.Xv6.Vm.Layout

/-! `exec` on a file of any bytes. Addresses, sizes and offsets of the segments come from the
file; whatever they are, the pages of a segment are there when it is read, and an image that
is built holds the segments and zeros. -/
namespace Aso.Xv6.Vm
open Checked

section Segments
variable {data : List UInt8} {file : File} {n sz off e size : Nat} {ph : Proghdr}

end Segments

/-- The segments that the header of a file names. -/
def loadable (data : List UInt8) : List Proghdr :=
  let elf := Elfhdr.decode (contents data 0 elfhdrSize)
  segments (contents data) elf.phnum elf.phoff

/-- The bytes of the file that a segment puts in memory are at address `va`. -/
def Proghdr.Covers (ph : Proghdr) (va : Nat) : Prop := ph.vaddr ≤ va ∧ va < ph.vaddr + ph.filesz

section Image
variable {k : Kernel} {m m' : Mem} {p q : Image} {path : List UInt8} {data : List UInt8}
  {argv : List (List UInt8)} {va : Nat}

/-- What an address of the code and data of the new image holds. -/
theorem Staged.holds (staged : Staged k m p (contents data) argv q m') (keeps : Keeps k m p.pgdir)
    (size : data.length < 2 ^ 32) (short : ∀ arg ∈ argv, arg.length + 1 < 2 ^ 32)
    (low : va < q.inicioPaginaGuarda) :
    Holds m' q.pgdir va [layered (fun _ => 0) ((loadable data).map (Proghdr.layer data)) va] := by
  have sound := keeps.sound
  have prepared := staged.prepared sound
  obtain ⟨user, -, above⟩ := prepared.user
  have first : Apart staged.m₀ staged.d₀ := sound.count_le (setupkvm_taken staged.setup)
  have nothing : Shows staged.m₀ staged.d₀ fun _ => 0 := by
    intro x small e present
    rw [setupkvm_low staged.setup small] at present
    cases present
  obtain ⟨shows, blank⟩ := loadSegments_shows nothing first (setupkvm_space staged.setup)
    (by decide) (fun _ _ _ => rfl) size
    staged.load
  have loaded := (Loaded.of_segments staged.setup staged.load).1
  have second : Apart staged.m₁ staged.d₁ := sound.count_le loaded.taken
  have rounded := pgroundup_le loaded.below
  have full := allocuvm_shows shows second (fun x small beyond => blank x small (by omega))
    staged.nonzero staged.alloc
  obtain ⟨⟨frame, offset⟩, found⟩ := Option.isSome_iff_exists.mp
    ((prepared.accessible va (by simp only [kernbase] at user; omega)).mpr ⟨by omega, by omega⟩)
  obtain ⟨e, present, visible, same⟩ := place_eq_some.mp found
  cases same
  have kept := staged.kept keeps (count_owned present (prepared.space.hidden va e present visible))
  have unpushed := staged.unpushed sound short (by omega) present
  -- hiding the guard page has not moved this one
  have before : ∃ x, staged.full.pte va = some x ∧ x.frame = e.frame := by
    rw [clearpteu_pte staged.clear] at present
    split at present
    · obtain ⟨x, there, rfl⟩ := Option.map_eq_some_iff.mp present
      exact ⟨x, there, rfl⟩
    · exact ⟨e, present, rfl⟩
  obtain ⟨x, there, frame⟩ := before
  intro i one
  obtain rfl := Nat.lt_one_iff.mp one
  refine ⟨_, found, ?_⟩
  rw [Mem.byte, kept]
  refine unpushed.trans ?_
  rw [← frame]
  exact full va (by omega) x there

end Image
end Aso.Xv6.Vm
