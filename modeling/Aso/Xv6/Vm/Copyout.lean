import Aso.Xv6.Vm.Pages

/-! `copyout` byte by byte. It stops at the first page that users may not access, with -1 if
the page has a page table and through a null pointer if it has none. -/
namespace Aso.Xv6.Vm
open Checked

/-- A byte of physical memory, by page and offset. -/
def Mem.byte (m : Mem) (q : Nat × Nat) : UInt8 := (m.page q.1).get q.2

/-- Where the byte at a user address lies, if the page is present and accessible to users. -/
def Pgdir.place (d : Pgdir) (a : Nat) : Option (Nat × Nat) :=
  (d.pte a).bind fun e => if e.u then some (e.frame, a % pgsize) else none

section Copyout
variable {m m' m₁ m₂ : Mem} {d : Pgdir} {va a f : Nat} {buf : List UInt8} {q : Nat × Nat}

theorem place_eq_some :
    d.place a = some q ↔ ∃ e, d.pte a = some e ∧ e.u = true ∧ (e.frame, a % pgsize) = q := by
  simp only [Pgdir.place, Option.bind_eq_some_iff, Option.ite_none_right_eq_some, Option.some.injEq]

theorem place_congr {b : Nat} (same : SamePage a b) (rest : a % pgsize = b % pgsize) :
    d.place a = d.place b := by
  simp only [Pgdir.place, d.pte_congr same, rest]

theorem place_mod (d : Pgdir) (a : Nat) : d.place (a % 2 ^ 32) = d.place a := by
  apply place_congr
  · exact samePage_mod.mpr ⟨rfl, rfl⟩
  · simp only [pgsize]
    omega

theorem byte_write {off : Nat} {data : List UInt8} (inside : q.2 < pgsize) :
    (m.write f off data).byte q =
      if q.1 = f ∧ off ≤ q.2 ∧ q.2 < off + data.length then data.getD (q.2 - off) 0
      else m.byte q := by
  unfold Mem.byte Mem.write Mem.fill
  by_cases page : q.1 = f
  · rw [page]
    simp only [Function.update_self, true_and]
    split
    · next range =>
      have there : q.2 - off < data.length := by omega
      rw [Bytes.get_write _ inside, if_pos range.1, List.getD_eq_getElem?_getD,
        List.getElem?_eq_getElem there]
      rfl
    · next outside => exact Bytes.get_write_outside _ (by omega)
  · simp [page]

/-- `buf` was stored at the user addresses from `va` on, and nothing else in memory changed.
Where several of them share a place in memory, one of them left its byte. -/
structure Stores (m : Mem) (d : Pgdir) (va : Nat) (buf : List UInt8) (m' : Mem) : Prop where
  freelist : m'.freelist = m.freelist
  hit : ∀ i < buf.length, ∀ q, d.place (va + i) = some q →
    ∃ j < buf.length, d.place (va + j) = some q ∧ m'.byte q = buf.getD j 0
  other : ∀ q, (∀ i < buf.length, d.place (va + i) ≠ some q) → m'.byte q = m.byte q

theorem Stores.nil (m : Mem) (d : Pgdir) (va : Nat) : Stores m d va [] m where
  freelist := rfl
  hit := by simp
  other _ _ := rfl

/-- Two stores in a row, with the second range behind the first. -/
theorem Stores.append {more : List UInt8} {next : Nat} (first : Stores m d va buf m₁)
    (second : Stores m₁ d next more m₂)
    (behind : ∀ i < more.length, d.place (next + i) = d.place (va + (buf.length + i))) :
    Stores m d va (buf ++ more) m₂ := by
  have late {i : Nat} : (buf ++ more).getD (buf.length + i) 0 = more.getD i 0 := by
    rw [List.getD_eq_getElem?_getD, List.getElem?_append_right (Nat.le_add_right _ _),
      Nat.add_sub_cancel_left, List.getD_eq_getElem?_getD]
  constructor
  · exact second.freelist.trans first.freelist
  · intro i inside q found
    rw [List.length_append] at inside ⊢
    by_cases again : ∃ j < more.length, d.place (next + j) = some q
    · obtain ⟨j, bound, there⟩ := again
      obtain ⟨k, small, place, byte⟩ := second.hit j bound q there
      exact ⟨buf.length + k, by omega, behind k small ▸ place, by rw [byte, late]⟩
    · simp only [not_exists, not_and] at again
      have early : i < buf.length := by
        by_contra later
        apply again (i - buf.length) (by omega)
        rw [behind _ (by omega), Nat.add_sub_cancel' (Nat.not_lt.mp later)]
        exact found
      obtain ⟨k, small, place, byte⟩ := first.hit i early q found
      refine ⟨k, by omega, place, ?_⟩
      rw [second.other q again, byte]
      simp [List.getD_eq_getElem?_getD, List.getElem?_append_left small]
  · intro q outside
    rw [List.length_append] at outside
    rw [second.other q, first.other q]
    · exact fun i bound => outside i (by omega)
    · intro i bound
      rw [behind i bound]
      exact outside _ (by omega)

theorem place_add {i : Nat} (found : d.place va = some q) (inside : va % pgsize + i < pgsize) :
    d.place (va + i) = some (q.1, va % pgsize + i) := by
  obtain ⟨e, present, user, rfl⟩ := place_eq_some.mp found
  have same : SamePage (va + i) va := by
    simp only [SamePage, pdx, ptx, pgsize] at *
    omega
  have rest : (va + i) % pgsize = va % pgsize + i := by
    simp only [pgsize] at *
    omega
  refine place_eq_some.mpr ⟨e, ?_, user, by rw [rest]⟩
  rw [d.pte_congr same, present]

/-- The bytes of one page. -/
theorem stores_page (found : d.place va = some q) (fits : va % pgsize + buf.length ≤ pgsize) :
    Stores m d va buf (m.write q.1 (va % pgsize) buf) := by
  have here (i : Nat) (inside : i < buf.length) := place_add found (i := i) (by omega)
  constructor
  · rfl
  · intro i inside p there
    cases (here i inside).symm.trans there
    refine ⟨i, inside, here i inside, ?_⟩
    rw [byte_write (by dsimp only; omega), if_pos ⟨rfl, by omega, by dsimp only; omega⟩]
    dsimp only
    rw [Nat.add_sub_cancel_left]
  · intro p outside
    by_cases small : p.2 < pgsize
    · rw [byte_write small, if_neg]
      rintro ⟨page, low, high⟩
      apply outside (p.2 - va % pgsize) (by omega)
      rw [here _ (by omega), Nat.add_sub_cancel' low, ← page]
    · simp only [Mem.byte, Bytes.get, small, dite_false]

theorem uva2ka_cases (d : Pgdir) (va : Nat) :
    (∃ q, d.place va = some q ∧ uva2ka d (pgrounddown va) = .ok (some q.1)) ∨
    (d.place va = none ∧ (d.table (pdx va)).isSome ∧ uva2ka d (pgrounddown va) = .ok none) ∨
    (d.table (pdx va) = none ∧ uva2ka d (pgrounddown va) = .error .nullPte) := by
  obtain ⟨top, entry⟩ := samePage_pgrounddown va
  unfold uva2ka Pgdir.place Pgdir.pte
  rw [top, entry]
  cases table : d.table (pdx va) with
  | none => exact .inr (.inr ⟨rfl, rfl⟩)
  | some t =>
    cases page : t.pte (ptx va) with
    | none => exact .inr (.inl ⟨by simp [page], rfl, by simp [page]⟩)
    | some e =>
      cases user : e.u with
      | false => exact .inr (.inl ⟨by simp [page, user], rfl, by simp [page, user]⟩)
      | true => exact .inl ⟨(e.frame, va % pgsize), by simp [page, user], by simp [page, user]⟩

/-- How `copyout` ends: with all of `buf` stored, in front of a page that users may not
access, or in front of one that has no page table. -/
inductive Copied (m : Mem) (d : Pgdir) (va : Nat) (buf : List UInt8) :
    Except Panic (Bool × Mem) → Prop where
  | all {m' : Mem} (open_ : ∀ i < buf.length, (d.place (va + i)).isSome)
      (stores : Stores m d va buf m') :
      Copied m d va buf (.ok (true, m'))
  | blocked {m' : Mem} {i : Nat} (inside : i < buf.length)
      (before : ∀ j < i, (d.place (va + j)).isSome)
      (closed : d.place (va + i) = none) (table : (d.table (pdx (va + i))).isSome) :
        Copied m d va buf (.ok (false, m'))
  | null {i : Nat} (inside : i < buf.length) (before : ∀ j < i, (d.place (va + j)).isSome)
      (table : d.table (pdx (va + i)) = none) : Copied m d va buf (.error .nullPte)

theorem copyoutLoop_copied (left : Nat) (m : Mem) (va : Nat) (buf : List UInt8)
    (rounds : buf.length ≤ left) (word : va < 2 ^ 32) :
    Copied m d va buf (copyoutLoop d left m va buf) := by
  induction left generalizing m va buf with
  | zero =>
    cases List.eq_nil_of_length_eq_zero (Nat.le_zero.mp rounds)
    exact .all nofun (.nil m d va)
  | succ left ih =>
    unfold copyoutLoop
    split
    · next empty =>
      subst empty
      exact .all nofun (.nil m d va)
    next more =>
    have some : 0 < buf.length := List.length_pos_iff.mpr more
    obtain ⟨q, found, page⟩ | ⟨closed, table, page⟩ | ⟨table, page⟩ := uva2ka_cases d va
    · have off : va - pgrounddown va = va % pgsize := by
        simp only [pgrounddown, pgsize]
        omega
      obtain ⟨n, cut⟩ : ∃ n, min (pgsize - va % pgsize) buf.length = n := ⟨_, rfl⟩
      have rest : va % pgsize < pgsize := Nat.mod_lt _ (by decide)
      have length : (buf.take n).length = n := by
        rw [List.length_take]
        omega
      have first : Stores m d va (buf.take n) (m.write q.1 (va % pgsize) (buf.take n)) :=
        stores_page found (by omega)
      have behind {i : Nat} (inside : i < buf.length - n) :
          SamePage ((pgrounddown va + pgsize) % 2 ^ 32 + i) (va + (n + i)) ∧
          ((pgrounddown va + pgsize) % 2 ^ 32 + i) % pgsize = (va + (n + i)) % pgsize := by
        simp only [SamePage, pdx, ptx, pgrounddown, pgsize] at *
        omega
      have place {i : Nat} (inside : i < buf.length - n) :
          d.place ((pgrounddown va + pgsize) % 2 ^ 32 + i) = d.place (va + (n + i)) :=
        place_congr (behind inside).1 (behind inside).2
      have early {j : Nat} (inside : j < n) : (d.place (va + j)).isSome := by
        rw [place_add found (by omega)]
        rfl
      have later := ih (m.write q.1 (va % pgsize) (buf.take n)) ((pgrounddown va + pgsize) % 2 ^ 32)
        (buf.drop n)
        (by rw [List.length_drop]; omega) (Nat.mod_lt _ (by decide))
      simp only [page, off, cut]
      generalize result : copyoutLoop d left _ _ (buf.drop n) = r at later
      show Copied m d va buf (copyoutLoop d left _ _ (buf.drop n))
      rw [result]
      have reach {i j : Nat}
          (before : ∀ j < i, (d.place ((pgrounddown va + pgsize) % 2 ^ 32 + j)).isSome)
          (inside : i < buf.length - n) (less : j < n + i) : (d.place (va + j)).isSome := by
        obtain low | high := Nat.lt_or_ge j n
        · exact early low
        · have := before (j - n) (by omega)
          rwa [place (by omega), Nat.add_sub_cancel' high] at this
      cases later with
      | all open_ stores =>
        rw [List.length_drop] at open_
        constructor
        · intro i inside
          obtain low | high := Nat.lt_or_ge i n
          · exact early low
          · have := open_ (i - n) (by omega)
            rwa [place (by omega), Nat.add_sub_cancel' high] at this
        · have both := first.append stores fun i inside => by
            rw [List.length_drop] at inside
            rw [length, place inside]
          rwa [List.take_append_drop] at both
      | blocked inside before closed table =>
        rw [List.length_drop] at inside
        rw [place inside] at closed
        rw [(behind inside).1.1] at table
        exact .blocked (by omega) (fun j => reach before inside) closed table
      | null inside before table =>
        rw [List.length_drop] at inside
        rw [(behind inside).1.1] at table
        exact .null (by omega) (fun j => reach before inside) table
    · simp only [page]
      exact .blocked some (by rintro _ ⟨⟩) closed table
    · simp only [page]
      exact .null some (by rintro _ ⟨⟩) table

theorem copyout_copied (m : Mem) (d : Pgdir) (buf : List UInt8) (word : va < 2 ^ 32) :
    Copied m d va buf (copyout m d va buf) :=
  copyoutLoop_copied buf.length m va buf le_rfl word

/-- The byte that address `a` should hold once `buf` has been stored from `va` on. -/
def expected (m : Mem) (va : Nat) (buf : List UInt8) (a : Nat) (q : Nat × Nat) : UInt8 :=
  if (a + 2 ^ 32 - va) % 2 ^ 32 < buf.length then buf.getD ((a + 2 ^ 32 - va) % 2 ^ 32) 0
  else m.byte q

/-- `copyout` returns 0 exactly when users may access every page of the range; user memory then
holds the bytes of `buf` there and nothing else has changed. -/
def CopyoutLaw (m : Mem) (d : Pgdir) (va : Nat) (buf : List UInt8) : Prop :=
  ∃ done m', copyout m d va buf = .ok (done, m') ∧
    (done = true ↔ ∀ i < buf.length, (d.place ((va + i) % 2 ^ 32)).isSome) ∧
    (done = true → m'.freelist = m.freelist ∧
      (∀ a < 2 ^ 32, ∀ q, d.place a = some q → m'.byte q = expected m va buf a q) ∧
      ∀ q, (∀ i < buf.length, d.place ((va + i) % 2 ^ 32) ≠ some q) → m'.byte q = m.byte q)

/-- Every address that the copy gets to has a page table. -/
def Tabled (d : Pgdir) (va len : Nat) : Prop :=
  ∀ i < len, (∀ j < i, (d.place ((va + j) % 2 ^ 32)).isSome) →
    (d.table (pdx ((va + i) % 2 ^ 32))).isSome

/-- Addresses that share a place with one of the range should hold its byte. -/
def Coherent (m : Mem) (d : Pgdir) (va : Nat) (buf : List UInt8) : Prop :=
  ∀ i < buf.length, ∀ a < 2 ^ 32, ∀ q, d.place ((va + i) % 2 ^ 32) = some q → d.place a = some q →
    expected m va buf a q = buf.getD i 0

theorem index_of_add {i : Nat} (word : va < 2 ^ 32) (small : i < 2 ^ 32) :
    ((va + i) % 2 ^ 32 + 2 ^ 32 - va) % 2 ^ 32 = i := by
  omega

theorem add_of_index (word : va < 2 ^ 32) (small : a < 2 ^ 32) :
    (va + (a + 2 ^ 32 - va) % 2 ^ 32) % 2 ^ 32 = a := by
  omega

/-- The law of `copyout` for a range of less than 2³² bytes holds exactly when the copy meets
no address without a page table and, if it gets to the end, no two addresses that share memory
and should hold different bytes. -/
theorem copyout_law_iff (word : va < 2 ^ 32) (length : buf.length < 2 ^ 32) :
    CopyoutLaw m d va buf ↔ Tabled d va buf.length ∧
      ((∀ i < buf.length, (d.place ((va + i) % 2 ^ 32)).isSome) → Coherent m d va buf) := by
  unfold CopyoutLaw Tabled Coherent
  simp only [place_mod]
  have copied := copyout_copied m d buf word
  generalize copyout m d va buf = r at copied ⊢
  cases copied with
  | @all m' open_ stores =>
    have tabled (i : Nat) (inside : i < buf.length) :
        (d.table (pdx ((va + i) % 2 ^ 32))).isSome := by
      obtain ⟨q, found⟩ := Option.isSome_iff_exists.mp (open_ i inside)
      obtain ⟨e, present, -⟩ := place_eq_some.mp ((place_mod d (va + i)).trans found)
      exact Pgdir.table_of_pte present
    constructor
    · rintro ⟨done, m₂, same, -, law⟩
      cases same
      obtain ⟨-, bytes, -⟩ := law rfl
      refine ⟨fun i inside _ => tabled i inside, fun _ i inside a small q here there => ?_⟩
      rw [← bytes a small q there, bytes ((va + i) % 2 ^ 32) (Nat.mod_lt _ (by decide)) q
        ((place_mod d _).trans here), expected, index_of_add word (by omega), if_pos inside]
    · rintro ⟨-, coherent⟩
      refine ⟨true, m', rfl, iff_of_true rfl open_,
        fun _ => ⟨stores.freelist, fun a small q found => ?_, stores.other⟩⟩
      by_cases hit : ∃ i < buf.length, d.place (va + i) = some q
      · obtain ⟨i, inside, here⟩ := hit
        obtain ⟨j, bound, there, byte⟩ := stores.hit i inside q here
        rw [byte, coherent open_ j bound a small q there found]
      · simp only [not_exists, not_and] at hit
        rw [stores.other q hit, expected, if_neg]
        intro inside
        apply hit _ inside
        rw [← place_mod, add_of_index word small, found]
  | @blocked m' i inside before closed table =>
    have shut : ¬ ∀ i < buf.length, (d.place (va + i)).isSome := by
      intro all
      have := all i inside
      rw [closed] at this
      cases this
    apply iff_of_true
    · exact ⟨false, m', rfl, iff_of_false nofun shut, nofun⟩
    · refine ⟨fun k bound open_ => ?_, fun all => absurd all shut⟩
      rw [(samePage_mod.mpr ⟨rfl, rfl⟩ : SamePage ((va + k) % 2 ^ 32) (va + k)).1]
      obtain less | rfl | more := Nat.lt_trichotomy k i
      · obtain ⟨q, found⟩ := Option.isSome_iff_exists.mp (before k less)
        obtain ⟨e, present, -⟩ := place_eq_some.mp found
        exact Pgdir.table_of_pte present
      · exact table
      · have := open_ i more
        rw [closed] at this
        cases this
  | @null i inside before table =>
    apply iff_of_false
    · rintro ⟨_, _, none, -⟩
      cases none
    · rintro ⟨tabled, -⟩
      have := tabled i inside before
      rw [(samePage_mod.mpr ⟨rfl, rfl⟩ : SamePage ((va + i) % 2 ^ 32) (va + i)).1, table] at this
      cases this

end Copyout

/-- A directory with one page table, and in it two pages for
users, the second on the frame below the first. -/
def pagePair : Pgdir :=
  ⟨1, fun i => if i = 0 then some ⟨2, fun j =>
    if j = 0 then some ⟨4, true, true⟩ else if j = 1 then some ⟨3, true, true⟩ else none⟩ else none⟩

theorem pagePair_place {a : Nat} {q : Nat × Nat} (found : pagePair.place a = some q)
    (word : a < 2 ^ 32) : a < 2 * pgsize ∧ q = (4 - a / pgsize, a % pgsize) := by
  obtain ⟨e, present, -, rfl⟩ := place_eq_some.mp found
  simp only [Pgdir.pte, pagePair, Option.bind_eq_some_iff, Option.ite_none_right_eq_some,
    Option.some.injEq] at present
  obtain ⟨t, ⟨top, rfl⟩, found⟩ := present
  have entry : ptx a = 0 ∧ e.frame = 4 ∨ ptx a = 1 ∧ e.frame = 3 := by
    dsimp only at found
    split at found
    · next first =>
      cases found
      exact .inl ⟨first, rfl⟩
    · obtain ⟨second, same⟩ := Option.ite_none_right_eq_some.mp found
      cases same
      exact .inr ⟨second, rfl⟩
  simp only [Prod.mk.injEq, and_true]
  simp only [pdx, ptx, pgsize] at *
  omega

/-- A copy over the end of a page. -/
theorem pagePair_copies : CopyoutLaw ⟨[], fun _ => .zero⟩ pagePair 4094 [7, 9, 11] ∧
    ∀ i < 3, (pagePair.place (4094 + i)).isSome := by
  refine ⟨(copyout_law_iff (by decide) (by decide)).mpr ⟨by unfold Tabled; decide, ?_⟩, by decide⟩
  intro _ i inside a small q here there
  obtain ⟨low, first⟩ := pagePair_place here (Nat.mod_lt _ (by decide))
  obtain ⟨low', second⟩ := pagePair_place there small
  have same : a = (4094 + i) % 2 ^ 32 := by
    rw [first, Prod.mk.injEq] at second
    simp only [pgsize] at *
    omega
  rw [expected, same, index_of_add (by decide) (Nat.lt_trans inside (by decide)), if_pos inside]

/-- Without a page table the copy reads an entry through a null pointer instead of failing. -/
theorem copyout_reads_null : (Pgdir.place ⟨1, fun _ => none⟩ 0).isSome = false ∧
    copyout ⟨[], fun _ => .zero⟩ ⟨1, fun _ => none⟩ 0 [7] = .error .nullPte ∧
    ¬ CopyoutLaw ⟨[], fun _ => .zero⟩ ⟨1, fun _ => none⟩ 0 [7] := by
  refine ⟨rfl, rfl, ?_⟩
  rintro ⟨done, m', copied, -⟩
  cases copied

end Aso.Xv6.Vm
