import Mathlib.Data.List.Basic
import Mathlib.Tactic.Ring

/-! Fixed-size byte buffers with little-endian fields. Offsets are natural
numbers, as in pointer arithmetic; a read outside the buffer yields zero and a
write outside it is lost, so only in-range accesses carry information. -/
namespace Aso

/-- The value of a little-endian byte string. -/
def leNat : List UInt8 → Nat
  | [] => 0
  | byte :: rest => byte.toNat + 256 * leNat rest

/-- The low `width` bytes of a value, least significant first. -/
def toLe : Nat → Nat → List UInt8
  | 0, _ => []
  | width + 1, value => value.toUInt8 :: toLe width (value / 256)

@[simp] theorem length_toLe (width value : Nat) : (toLe width value).length = width := by
  induction width generalizing value with
  | zero => rfl
  | succ width ih => simp [toLe, ih]

theorem leNat_toLe {width value : Nat} (fits : value < 256 ^ width) :
    leNat (toLe width value) = value := by
  induction width generalizing value with
  | zero =>
    have : value = 0 := by simpa using fits
    simp [toLe, leNat, this]
  | succ width ih =>
    have tail : value / 256 < 256 ^ width := by
      apply (Nat.div_lt_iff_lt_mul (by decide : 0 < 256)).mpr
      simpa only [Nat.pow_succ] using fits
    simp only [toLe, leNat, ih tail, Nat.toUInt8, UInt8.toNat_ofNat']
    omega

theorem leNat_lt (bytes : List UInt8) : leNat bytes < 256 ^ bytes.length := by
  induction bytes with
  | nil => exact Nat.one_pos
  | cons byte rest ih =>
    have := byte.toNat_lt
    rw [leNat, List.length_cons, Nat.pow_succ]
    omega

/-- A byte sequence overwritten from `off` on. -/
def overwrite (f : Nat → UInt8) (off : Nat) (data : List UInt8) (i : Nat) : UInt8 :=
  if off ≤ i then (data[i - off]?).getD (f i) else f i

@[simp] theorem overwrite_nil (f : Nat → UInt8) (off : Nat) : overwrite f off [] = f := by
  funext i
  simp [overwrite]

theorem overwrite_congr {f g : Nat → UInt8} {i : Nat} (same : f i = g i) (off : Nat)
    (data : List UInt8) : overwrite f off data i = overwrite g off data i := by
  rw [overwrite, overwrite, same]

theorem overwrite_outside (f : Nat → UInt8) {off i : Nat} {data : List UInt8}
    (outside : i < off ∨ off + data.length ≤ i) : overwrite f off data i = f i := by
  unfold overwrite
  split
  · rw [List.getElem?_eq_none (by omega)]
    rfl
  · rfl

/-- Overwriting in two pieces. -/
theorem overwrite_take_drop (f : Nat → UInt8) (off m : Nat) (data : List UInt8)
    (enough : m ≤ data.length) :
    overwrite (overwrite f off (data.take m)) (off + m) (data.drop m) = overwrite f off data := by
  funext i
  have shift (later : off + m ≤ i) : m + (i - (off + m)) = i - off := by omega
  obtain later | earlier := Nat.lt_or_ge i (off + m)
  · rw [overwrite_outside _ (.inl later)]
    simp only [overwrite]
    split
    · rw [List.getElem?_take_of_lt (by omega)]
    · rfl
  · rw [overwrite, if_pos earlier, overwrite_outside _ (.inr (by rw [List.length_take]; omega)),
      overwrite, if_pos (by omega), List.getElem?_drop, shift earlier]

abbrev Bytes (size : Nat) := Fin size → UInt8

/-- Entry `i` of a table whose entries have the same width. -/
theorem take_drop_flatMap {α : Type} (f : α → List UInt8) {width : Nat}
    (fixed : ∀ a, (f a).length = width) (l : List α) {i : Nat} (inside : i < l.length) :
    ((l.flatMap f).drop (width * i)).take width = f (l.get ⟨i, inside⟩) := by
  induction l generalizing i with
  | nil => cases inside
  | cons a rest ih =>
    cases i with
    | zero =>
      rw [Nat.mul_zero, List.drop_zero, List.flatMap_cons, ← fixed a, List.take_left]
      rfl
    | succ i =>
      have skip : (f a ++ rest.flatMap f).drop width = rest.flatMap f := by
        rw [← fixed a, List.drop_left]
      rw [Nat.mul_succ, Nat.add_comm, ← List.drop_drop, List.flatMap_cons, skip,
        ih (Nat.lt_of_succ_lt_succ inside)]
      rfl

namespace Bytes
variable {size : Nat}

def zero : Bytes size := fun _ => 0

def get (b : Bytes size) (off : Nat) : UInt8 := if h : off < size then b ⟨off, h⟩ else 0

/-- `memmove` of `data` to offset `off`. -/
def write (b : Bytes size) (off : Nat) (data : List UInt8) : Bytes size := fun i =>
  if off ≤ i.val then (data[i.val - off]?).getD (b i) else b i

/-- The `len` bytes from offset `off` on. -/
def read (b : Bytes size) (off len : Nat) : List UInt8 :=
  (List.range len).map fun i => b.get (off + i)

@[ext] theorem ext {a b : Bytes size} (same : ∀ i < size, a.get i = b.get i) : a = b := by
  funext i
  simpa [get] using same i.val i.isLt

@[simp] theorem get_zero (i : Nat) : (zero : Bytes size).get i = 0 := by
  simp [get, zero]

@[simp] theorem length_read (b : Bytes size) (off len : Nat) : (b.read off len).length = len := by
  simp [read]

theorem get_write (b : Bytes size) {off i : Nat} {data : List UInt8} (bound : i < size) :
    (b.write off data).get i =
      if off ≤ i then (data[i - off]?).getD (b.get i) else b.get i := by
  simp [get, write, bound]

theorem get_write_eq_overwrite (b : Bytes size) {off i : Nat} {data : List UInt8}
    (bound : i < size) : (b.write off data).get i = overwrite b.get off data i :=
  get_write b bound

theorem get_write_inside (b : Bytes size) {off i : Nat} {data : List UInt8}
    (bound : off + data.length ≤ size) (inside : i < data.length) :
    (b.write off data).get (off + i) = data.get ⟨i, inside⟩ := by
  rw [get_write b (by omega)]
  simp [inside]

theorem get_write_outside (b : Bytes size) {off i : Nat} {data : List UInt8}
    (outside : i < off ∨ off + data.length ≤ i) : (b.write off data).get i = b.get i := by
  by_cases bound : i < size
  · rw [get_write b bound]
    split
    · rw [List.getElem?_eq_none (by omega)]
      rfl
    · rfl
  · simp [get, bound]

theorem read_congr {a b : Bytes size} {off len : Nat}
    (same : ∀ i, off ≤ i → i < off + len → a.get i = b.get i) :
    a.read off len = b.read off len := by
  apply List.map_congr_left
  intro i member
  have := List.mem_range.mp member
  exact same _ (by omega) (by omega)

theorem read_write_same (b : Bytes size) (off : Nat) (data : List UInt8)
    (bound : off + data.length ≤ size) : (b.write off data).read off data.length = data := by
  apply List.ext_getElem
  · simp
  · intro i h₁ h₂
    simp only [read, List.getElem_map, List.getElem_range]
    rw [get_write_inside b bound h₂]
    rfl

theorem read_write_part (b : Bytes size) (off : Nat) (data : List UInt8) {k len : Nat}
    (bound : off + data.length ≤ size) (part : k + len ≤ data.length) :
    (b.write off data).read (off + k) len = (data.drop k).take len := by
  apply List.ext_getElem
  · simp only [length_read, List.length_take, List.length_drop]
    omega
  · intro i h₁ h₂
    have inside : k + i < data.length := by
      rw [length_read] at h₁
      omega
    simp only [read, List.getElem_map, List.getElem_range, List.getElem_take, List.getElem_drop,
      Nat.add_assoc]
    rw [get_write_inside b bound inside]
    rfl

theorem read_write_other (b : Bytes size) {off off' len : Nat} {data : List UInt8}
    (apart : off' + len ≤ off ∨ off + data.length ≤ off') :
    (b.write off data).read off' len = b.read off' len :=
  read_congr fun _ _ _ => get_write_outside b (by omega)

theorem read_succ (b : Bytes size) (off len : Nat) :
    b.read off (len + 1) = b.get off :: b.read (off + 1) len := by
  simp only [read, List.range_succ_eq_map, List.map_cons, List.map_map, Nat.add_zero]
  congr 2
  funext i
  simp only [Function.comp, Nat.succ_eq_add_one, Nat.add_assoc, Nat.add_comm 1]

@[simp] theorem read_zero (off len : Nat) :
    (zero : Bytes size).read off len = List.replicate len 0 := by
  apply List.ext_getElem
  · simp
  · intro i h₁ h₂
    simp [read]

/-- The `i`th element of the buffer seen as an array of 32-bit words. -/
def word (b : Bytes size) (i : Nat) : Nat := leNat (b.read (4 * i) 4)

def setWord (b : Bytes size) (i value : Nat) : Bytes size := b.write (4 * i) (toLe 4 value)

@[simp] theorem word_zero (i : Nat) : (zero : Bytes size).word i = 0 := by
  simp [word, leNat]

theorem word_setWord_same (b : Bytes size) {i value : Nat} (bound : 4 * i + 4 ≤ size)
    (fits : value < 2 ^ 32) : (b.setWord i value).word i = value := by
  have same := read_write_same b (4 * i) (toLe 4 value) (by simpa using bound)
  rw [length_toLe] at same
  rw [word, setWord, same]
  exact leNat_toLe fits

theorem word_setWord_other (b : Bytes size) {i j value : Nat} (other : i ≠ j) :
    (b.setWord i value).word j = b.word j := by
  rw [word, setWord, read_write_other b (by simp only [length_toLe]; omega)]
  rfl

end Bytes
end Aso
