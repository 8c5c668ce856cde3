import Aso.Xv6.Mkfs.Layout

/-! `iappend` extends the content of one inode and leaves the others alone. It
stops when the image has no sector for the next block, and leaves the bounds of
its array `indirect` when the file outgrows its index block. -/
namespace Aso.Xv6.Mkfs
open Fs

section Sectors
variable {img : Img} {sec : Nat}

theorem sectorAt_eq (near : sec < fsSize + 2) : sectorAt sec = sec :=
  Nat.mod_eq_of_lt (near.trans (by decide))

theorem rsect_eq (inside : sec < fsSize) : img.rsect sec = .ok (img.disk sec) := by
  rw [Img.rsect, sectorAt_eq (Nat.lt_add_right 2 inside), if_pos inside]

/-- The blocks that one round hands out end two sectors after the image. -/
theorem rsect_past (past : ¬ sec < fsSize) (near : sec < fsSize + 2) :
    img.rsect sec = .error .exit := by
  rw [Img.rsect, sectorAt_eq near, if_neg past]

theorem wsect_eq (buf : Block) (inside : sec < fsSize) :
    img.wsect sec buf = { img with disk := Function.update img.disk sec buf } := by
  rw [Img.wsect, sectorAt_eq (Nat.lt_add_right 2 inside)]

end Sectors

section Mapping
variable {img : Img} {count x fbn : Nat} {inode : Nat → Dinode}

theorem mapAddr_grows {i : Fin (ndirect + 2)} (trees : Trees img.disk img.freeblock count inode)
    (live : x < count) (kind : i.val < ndirect ∨ i = indirect) :
    ∃ din top, img.mapAddr i (inode x) = (din, { img with freeblock := top }) ∧
      din.type = (inode x).type ∧
      Grows count x img.disk img.freeblock inode img.disk top (Function.update inode x din)
        (if (inode x).addrs i = 0 then [.root i] else []) ∧
      ((inode x).addrs i = 0 → din.addrs i + 1 = top) := by
  rw [Img.mapAddr]
  by_cases empty : (inode x).addrs i = 0
  · rw [if_pos empty, if_pos empty]
    refine ⟨_, _, rfl, rfl, ?_, ?_⟩
    · rcases kind with direct | rfl
      · exact .step (attach_direct trees live direct empty) (.refl _ _ _)
      · exact .step (attach_index trees live empty) (.refl _ _ _)
    · intro _
      exact congrArg (· + 1) (Function.update_self i img.freeblock (inode x).addrs)
  · rw [if_neg empty, if_neg empty]
    refine ⟨inode x, img.freeblock, rfl, rfl, ?_, fun absent => absurd absent empty⟩
    rw [Function.update_eq_self]
    exact .refl _ _ _

theorem mapIndirect_grows {j : Fin nindirect} {din : Dinode}
    (trees : Trees img.disk img.freeblock count inode) (live : x < count) (here : inode x = din)
    (present : din.addrs indirect ≠ 0) (fits : img.freeblock < 2 ^ 32)
    (sector : din.addrs indirect < fsSize) : ∃ disk top, img.mapIndirect (din.addrs indirect) j =
        .ok (place disk din (.single j), { img with disk := disk, freeblock := top }) ∧
      Grows count x img.disk img.freeblock inode disk top inode
        (if place img.disk din (.single j) = 0 then [.single j] else []) ∧
      (place img.disk din (.single j) = 0 → place disk din (.single j) + 1 = top) := by
  subst here
  have entry : place img.disk (inode x) (.single j) =
      (img.disk ((inode x).addrs indirect)).word j := if_neg present
  rw [Img.mapIndirect, rsect_eq sector, Checked.ok_bind, if_neg (Nat.not_le.mpr j.isLt), entry,
    wsect_eq _ sector]
  by_cases empty : (img.disk ((inode x).addrs indirect)).word j = 0
  · rw [if_pos empty, if_pos empty]
    have attach := attach_entry trees live present empty fits
    have here := attach.addr x (.single j) live
    rw [if_pos ⟨rfl, rfl⟩] at here
    refine ⟨_, img.freeblock + 1, ?_, .step attach (.refl _ _ _), fun _ => by rw [here]⟩
    rw [here]
  · rw [if_neg empty, if_neg empty]
    refine ⟨img.disk, img.freeblock, ?_, .refl _ _ _, fun absent => absurd absent empty⟩
    rw [entry]

/-- The results of `mapBlock`: the missing places are
filled, or there is no sector for one of them. -/
inductive Mapped (count x fbn : Nat) (inode : Nat → Dinode) (img : Img) :
    Except Stop (Nat × Dinode × Img) → Prop where
  | ok {din : Dinode} {disk : Nat → Block} {top : Nat} (type : din.type = (inode x).type)
      (grows : Grows count x img.disk img.freeblock inode disk top (Function.update inode x din)
        (wanted img.disk (inode x) fbn))
      (last : wanted img.disk (inode x) fbn ≠ [] → place disk din (.ofBn fbn) + 1 = top) :
      Mapped count x fbn inode img
        (.ok (place disk din (.ofBn fbn), din, { img with disk := disk, freeblock := top }))
  | full (exceeds : fsSize < img.freeblock + (wanted img.disk (inode x) fbn).length) :
      Mapped count x fbn inode img (.error .exit)

theorem mapBlock_direct (trees : Trees img.disk img.freeblock count inode) (live : x < count)
    (direct : fbn < ndirect) : Mapped count x fbn inode img (img.mapBlock fbn (inode x)) := by
  obtain ⟨din, top, mapped, type, grows, last⟩ :=
    mapAddr_grows (i := ⟨fbn, by omega⟩) trees live (.inl direct)
  have node := ofBn_direct direct
  have list : wanted img.disk (inode x) fbn =
      if (inode x).addrs ⟨fbn, by omega⟩ = 0 then [.root ⟨fbn, by omega⟩] else [] := by
    rw [wanted, if_neg (by omega), List.nil_append, node]
    rfl
  rw [Img.mapBlock, dif_pos direct, mapped]
  have result : Mapped count x fbn inode img _ := .ok type (list ▸ grows) ?_
  · rw [node] at result
    exact result
  · rw [list, node]
    intro some
    apply last
    by_contra present
    exact some (if_neg present)

theorem mapBlock_indirect (trees : Trees img.disk img.freeblock count inode) (live : x < count)
    (fits : img.freeblock ≤ fsSize) (direct : ¬ fbn < ndirect) (inside : fbn < maxAppend) :
    Mapped count x fbn inode img (img.mapBlock fbn (inode x)) := by
  have bound : fbn - ndirect < nindirect := by
    rw [maxAppend] at inside
    omega
  have node := ofBn_single direct bound
  obtain ⟨din, mid, mapped, type, first, grown⟩ := mapAddr_grows trees live (.inr rfl)
  let next : Img := { img with freeblock := mid }
  have trees' : Trees next.disk next.freeblock count (Function.update inode x din) :=
    first.trees trees
  have sum := first.top_eq
  have here : Function.update inode x din x = din := Function.update_self _ _ _
  have same : place img.disk din (.single ⟨fbn - ndirect, bound⟩) =
      place img.disk (inode x) (.single ⟨fbn - ndirect, bound⟩) := by
    have other := first.addr_other (m := .single ⟨fbn - ndirect, bound⟩) live
    rw [here] at other
    apply other
    rintro ⟨-, member⟩
    split at member
    · cases List.mem_singleton.mp member
    · cases member
  have list : wanted img.disk (inode x) fbn =
      (if (inode x).addrs indirect = 0 then [.root indirect] else []) ++
      if place img.disk (inode x) (.single ⟨fbn - ndirect, bound⟩) = 0 then
        [.single ⟨fbn - ndirect, bound⟩] else [] := by
    simp only [wanted, Nat.le_of_not_lt direct, true_and, node]
  have empty_index (empty : (inode x).addrs indirect = 0) :
      place img.disk (inode x) (.single ⟨fbn - ndirect, bound⟩) = 0 := if_pos empty
  have index : din.addrs indirect ≠ 0 := by
    by_cases empty : (inode x).addrs indirect = 0
    · have positive := trees.addr_ne_zero
      have := grown empty
      rw [if_pos empty] at sum
      simp only [List.length_singleton] at sum
      omega
    · have kept := first.addr_kept (m := .root indirect) live empty
      rw [here] at kept
      exact kept.trans_ne empty
  rw [Img.mapBlock, dif_neg direct, mapped]
  by_cases sector : din.addrs indirect < fsSize
  · have small : mid < 2 ^ 32 := by
      have size : fsSize + 1 < 2 ^ 32 := by decide
      have length :
          (if (inode x).addrs indirect = 0 then [Node.root indirect] else []).length ≤ 1 := by
        split <;> simp
      omega
    obtain ⟨disk, top, entry, second, last⟩ :=
      mapIndirect_grows (j := ⟨fbn - ndirect, bound⟩) trees' live here index small sector
    rw [same] at second last
    dsimp only
    rw [entry]
    have grows := first.trans second
    rw [← list] at grows
    have result : Mapped count x fbn inode img _ := .ok type grows ?_
    · rw [node] at result
      exact result
    · rw [node]
      intro some
      apply last
      by_contra present
      rw [list, if_neg present, if_neg (present ∘ empty_index), List.append_nil] at some
      exact some rfl
  · have empty : (inode x).addrs indirect = 0 := by
      by_contra present
      have kept := first.addr_kept (m := .root indirect) live present
      have bound := (trees.data x (.root indirect) live present).2
      rw [here] at kept
      rw [← kept] at bound
      exact sector (Nat.lt_of_lt_of_le bound fits)
    have start := grown empty
    rw [if_pos empty, List.length_singleton] at sum
    dsimp only
    rw [Img.mapIndirect, rsect_past sector (by omega)]
    refine .full ?_
    rw [list, if_pos empty, if_pos (empty_index empty)]
    simp only [List.length_append, List.length_singleton]
    omega

theorem mapBlock_mapped (trees : Trees img.disk img.freeblock count inode) (live : x < count)
    (fits : img.freeblock ≤ fsSize) (inside : fbn < maxAppend) :
    Mapped count x fbn inode img (img.mapBlock fbn (inode x)) := by
  by_cases direct : fbn < ndirect
  · exact mapBlock_direct trees live direct
  · exact mapBlock_indirect trees live fits direct inside

end Mapping

theorem blocksFor_mono {a b : Nat} (le : a ≤ b) : blocksFor a ≤ blocksFor b := by
  change (a + 511) / 512 + (if 11 * 512 < a then 1 else 0) ≤
    (b + 511) / 512 + (if 11 * 512 < b then 1 else 0)
  split_ifs <;> omega

/-- The results of the loop of `iappend` on the content of `x`. -/
inductive Appended (count x : Nat) (inode : Nat → Dinode) (content : Nat → List UInt8)
    (p : List UInt8) (img : Img) : Except Stop (Dinode × Nat × Img) → Prop where
  | ok {din : Dinode} {disk : Nat → Block} {top : Nat} (type : din.type = (inode x).type)
      (laid : Laid disk top count (Function.update inode x din)
      (Function.update content x (content x ++ p)))
      (low : ∀ b < nmeta, disk b = img.disk b)
      (cost : top + blocksFor (content x).length =
        img.freeblock + blocksFor ((content x).length + p.length)) :
      Appended count x inode content p img
        (.ok (din, (content x).length + p.length, { img with disk := disk, freeblock := top }))
  | full (exceeds : fsSize + blocksFor (content x).length <
        img.freeblock + blocksFor (min ((content x).length + p.length) (maxAppend * bsize))) :
      Appended count x inode content p img (.error .exit)
  | overrun (exceeds : maxAppend * bsize < (content x).length + p.length) :
      Appended count x inode content p img (.error .outOfBounds)

section Loop
variable {img : Img} {count x : Nat} {inode : Nat → Dinode} {content : Nat → List UInt8}
  {p : List UInt8}

theorem appended_nil (laid : Laid img.disk img.freeblock count inode content) :
    Appended count x inode content [] img (.ok (inode x, (content x).length, img)) := by
  have same : Laid img.disk img.freeblock count (Function.update inode x (inode x))
      (Function.update content x (content x ++ [])) := by
    rw [List.append_nil, Function.update_eq_self, Function.update_eq_self]
    exact laid
  exact .ok rfl same (fun _ _ => rfl) rfl

/-- A round followed by the loop on the rest. -/
theorem Appended.cons {q : List UInt8} {disk : Nat → Block} {top : Nat} {din : Dinode}
    {result : Except Stop (Dinode × Nat × Img)} (type : din.type = (inode x).type)
    (low : ∀ b < nmeta, disk b = img.disk b)
    (cost : top + blocksFor (content x).length =
      img.freeblock + blocksFor ((content x).length + p.length))
    (rest : Appended count x (Function.update inode x din)
      (Function.update content x (content x ++ p)) q { img with disk := disk, freeblock := top }
      result) : Appended count x inode content (p ++ q) img result := by
  have length :
      (Function.update content x (content x ++ p) x).length = (content x).length + p.length := by
    rw [Function.update_self, List.length_append]
  have whole : (content x).length + (p ++ q).length = (content x).length + p.length + q.length := by
    rw [List.length_append, Nat.add_assoc]
  cases rest with
  | ok type' laid low' cost' =>
    rw [Function.update_self] at type'
    rw [length] at cost' ⊢
    rw [Function.update_idem, Function.update_idem, Function.update_self, List.append_assoc] at laid
    rw [← whole]
    refine .ok (type'.trans type) laid (fun b before => (low' b before).trans (low b before)) ?_
    rw [whole]
    dsimp only at cost'
    omega
  | full exceeds =>
    rw [length] at exceeds
    refine .full ?_
    rw [whole]
    dsimp only at exceeds
    omega
  | overrun exceeds =>
    rw [length] at exceeds
    refine .overrun ?_
    rw [whole]
    exact exceeds

/-- A full file has an index block, and the next entry lies past its end. -/
theorem mapBlock_overrun (laid : Laid img.disk img.freeblock count inode content) (live : x < count)
    (full : (content x).length = maxAppend * bsize) :
    img.mapBlock maxAppend (inode x) = .error .outOfBounds := by
  have present : (inode x).addrs indirect ≠ 0 := by
    rw [laid.index x live, full]
    decide
  have sector : (inode x).addrs indirect < fsSize :=
    (laid.data x (.root indirect) live present).2.trans_le laid.fits
  rw [Img.mapBlock, dif_neg (by decide), Img.mapAddr, if_neg present]
  dsimp only
  rw [Img.mapIndirect, rsect_eq sector, Checked.ok_bind, if_pos (by decide)]
  rfl

/-- One round of the loop: the block is found and `p` is
written at its end, then `next` does the rest. -/
theorem round_appended {q : List UInt8} (next : Dinode → Img → Except Stop (Dinode × Nat × Img))
    (laid : Laid img.disk img.freeblock count inode content) (live : x < count) (some : p ≠ [])
    (inside : (content x).length / bsize < maxAppend)
    (room : (content x).length % bsize + p.length ≤ bsize) (rest : ∀ din disk top, Laid disk top
      count (Function.update inode x din) (Function.update content x (content x ++ p)) →
      Appended count x (Function.update inode x din) (Function.update content x (content x ++ p)) q
        { img with disk := disk, freeblock := top }
        (next din { img with disk := disk, freeblock := top })) :
    Appended count x inode content (p ++ q) img (do
      let (a, din, img) ← img.mapBlock ((content x).length / bsize) (inode x)
      let buf ← img.rsect a
      next din (img.wsect a (buf.write ((content x).length % bsize) p))) := by
  have cost := length_wanted laid live some room inside
  have short : (content x).length + p.length ≤
      min ((content x).length + (p ++ q).length) (maxAppend * bsize) := by
    rw [List.length_append]
    simp only [bsize] at inside room ⊢
    omega
  have more := blocksFor_mono short
  have mapped := mapBlock_mapped laid.toTrees live laid.fits inside
  generalize img.mapBlock ((content x).length / bsize) (inode x) = result at mapped
  cases mapped with
  | full exceeds => exact .full (by omega)
  | @ok din disk top type grows last =>
    have sum := grows.top_eq
    have trees := grows.trees laid.toTrees
    have here : Function.update inode x din x = din := Function.update_self _ _ _
    have bounds := trees.data x _ live (grows.wanted_present laid.toTrees live)
    rw [here] at bounds
    rw [Checked.ok_bind]
    dsimp only
    by_cases sector : place disk din (.ofBn ((content x).length / bsize)) < fsSize
    · rw [rsect_eq sector, Checked.ok_bind, wsect_eq _ sector]
      have fits : top ≤ fsSize := by
        by_cases none : wanted img.disk (inode x) ((content x).length / bsize) = []
        · rw [none] at sum
          exact sum.trans_le laid.fits
        · have := last none
          omega
      have laid' := laid.append grows live inside rfl some room fits
      rw [here] at laid'
      refine .cons type ?_ (by omega) (rest din _ top laid')
      intro b before
      rw [Function.update_of_ne (by omega)]
      exact grows.low laid.toTrees before
    · have two := length_wanted_le img.disk (inode x) ((content x).length / bsize)
      have fits := laid.fits
      rw [rsect_past sector (by omega)]
      exact .full (by omega)

theorem appendLoop_appended (left : Nat) (din : Dinode) (p : List UInt8) (img : Img)
    (inode : Nat → Dinode) (content : Nat → List UInt8)
    (laid : Laid img.disk img.freeblock count inode content) (live : x < count)
    (here : inode x = din) (enough : p.length ≤ left) :
    Appended count x inode content p img (Img.appendLoop left din (content x).length p img) := by
  induction left generalizing din p img inode content with
  | zero =>
    obtain rfl := List.length_eq_zero_iff.mp (Nat.le_zero.mp enough)
    subst here
    exact appended_nil laid
  | succ left ih =>
    subst here
    by_cases done : p = []
    · subst done
      exact appended_nil laid
    have short := laid.short x live
    have positive := List.length_pos_iff.mpr done
    have whole : maxAppend < maxfile := by decide
    have low : (content x).length / bsize ≤ maxAppend :=
      Nat.div_le_of_le_mul (Nat.mul_comm _ _ ▸ short)
    rw [Img.appendLoop, if_neg done]
    dsimp only
    rw [if_neg (by omega)]
    by_cases inside : (content x).length / bsize < maxAppend
    · -- The bytes of this round end with the block.
      have offset :
          (content x).length - (content x).length / bsize * bsize = (content x).length % bsize := by
        simp only [bsize]
        omega
      have size : min p.length (((content x).length / bsize + 1) * bsize - (content x).length) =
          min p.length (bsize - (content x).length % bsize) := by
        simp only [bsize]
        omega
      have rest := Nat.mod_lt (content x).length (by decide : 0 < bsize)
      rw [offset, size]
      generalize chunk : min p.length (bsize - (content x).length % bsize) = n1
      have length : (p.take n1).length = n1 := by
        rw [List.length_take]
        omega
      have round := round_appended (p := p.take n1) (q := p.drop n1)
        (fun din img => Img.appendLoop left din ((content x).length + n1) (p.drop n1) img)
        laid live (List.ne_nil_of_length_pos (by omega)) inside (by omega) ?_
      · rw [List.take_append_drop] at round
        exact round
      · intro din disk top laid'
        have more := ih din (p.drop n1) { img with disk := disk, freeblock := top }
          (Function.update inode x din)
          (Function.update content x (content x ++ p.take n1)) laid' (Function.update_self _ _ _)
          (by rw [List.length_drop]; omega)
        rw [Function.update_self, List.length_append, length] at more
        exact more
    · have full : (content x).length / bsize = maxAppend := by omega
      have exactly : (content x).length = maxAppend * bsize := by
        have := Nat.div_mul_le_self (content x).length bsize
        rw [full] at this
        omega
      rw [full, mapBlock_overrun laid live exactly]
      exact .overrun (by omega)

end Loop
end Aso.Xv6.Mkfs
