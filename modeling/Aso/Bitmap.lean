import Aso.Bytes
import Mathlib.Data.Nat.Bitwise
import Mathlib.Tactic.NormNum

/-! Byte buffers as bitmaps: bit `i` is bit `i % 8` of byte `i / 8`. -/
namespace Aso.Bytes
variable {size : Nat}

def bit (b : Bytes size) (i : Nat) : Bool := (b.get (i / 8)).toNat &&& (1 <<< (i % 8)) ≠ 0

def setBit (b : Bytes size) (i : Nat) : Bytes size :=
  b.write (i / 8) [UInt8.ofNat ((b.get (i / 8)).toNat ||| (1 <<< (i % 8)))]

theorem bit_eq_testBit (b : Bytes size) (i : Nat) :
    b.bit i = (b.get (i / 8)).toNat.testBit (i % 8) := by
  rw [bit, Nat.one_shiftLeft, Nat.and_two_pow]
  cases (b.get (i / 8)).toNat.testBit (i % 8) <;> simp

theorem bit_setBit (b : Bytes size) {i j : Nat} (bound : i < 8 * size) :
    (b.setBit i).bit j = (b.bit j || decide (i = j)) := by
  simp only [bit_eq_testBit]
  obtain same | other := eq_or_ne (j / 8) (i / 8)
  · have stored : ((b.setBit i).get (j / 8)).toNat = (b.get (i / 8)).toNat ||| 2 ^ (i % 8) := by
      have small : (b.get (i / 8)).toNat ||| 2 ^ (i % 8) < 2 ^ 8 :=
        Nat.or_lt_two_pow (b.get (i / 8)).toNat_lt (Nat.pow_lt_pow_right (by norm_num) (by omega))
      rw [same, setBit, get_write b (by omega), if_pos le_rfl, Nat.one_shiftLeft]
      simp only [Nat.sub_self, List.getElem?_cons_zero, Option.getD_some]
      exact UInt8.toNat_ofNat_of_lt' small
    have index : i % 8 = j % 8 ↔ i = j := by omega
    rw [stored, same, Nat.testBit_or, Nat.testBit_two_pow]
    simp only [index]
  · have apart : i ≠ j := fun eq => other (by rw [eq])
    have kept : (b.setBit i).get (j / 8) = b.get (j / 8) :=
      get_write_outside b (by simp only [List.length_singleton]; omega)
    simp [kept, apart]

def clearBit (b : Bytes size) (i : Nat) : Bytes size :=
  b.write (i / 8) [UInt8.ofNat ((b.get (i / 8)).toNat &&& (255 ^^^ (1 <<< (i % 8))))]

theorem get_clearBit (b : Bytes size) {i j : Nat} (bound : j < size) :
    ((b.clearBit i).get j).toNat =
    if j = i / 8 then (b.get j).toNat &&& (255 ^^^ 2 ^ (i % 8)) else (b.get j).toNat := by
  split
  · next same =>
    subst same
    have small : (b.get (i / 8)).toNat &&& (255 ^^^ 2 ^ (i % 8)) < 2 ^ 8 :=
      lt_of_le_of_lt Nat.and_le_left (b.get (i / 8)).toNat_lt
    rw [clearBit, get_write b bound, if_pos le_rfl, Nat.one_shiftLeft]
    simp only [Nat.sub_self, List.getElem?_cons_zero, Option.getD_some]
    exact UInt8.toNat_ofNat_of_lt' small
  · rw [clearBit, get_write_outside b (by simp only [List.length_singleton]; omega)]

theorem bit_clearBit (b : Bytes size) (i j : Nat) :
    (b.clearBit i).bit j = (b.bit j && decide (i ≠ j)) := by
  simp only [bit_eq_testBit]
  by_cases inside : j / 8 < size
  · rw [get_clearBit b inside]
    split
    · next same =>
      have ones : (255 : Nat).testBit (j % 8) = true := by
        have low : j % 8 < 8 := Nat.mod_lt _ (by norm_num)
        rw [show (255 : Nat) =
          2 ^ 8 - 1 by norm_num, Nat.testBit_two_pow_sub_one, decide_eq_true low]
      have index : i % 8 = j % 8 ↔ i = j := by omega
      rw [Nat.testBit_and, Nat.testBit_xor, ones, Nat.testBit_two_pow, Bool.true_xor, decide_not]
      simp only [index]
    · next other =>
      have apart : i ≠ j := fun eq => other (by rw [eq])
      simp [apart]
  · have outside (c : Bytes size) : c.get (j / 8) = 0 := by simp [get, inside]
    simp [outside]

/-- A buffer as an array of words, byte by byte. -/
theorem word_eq (b : Bytes size) (k : Nat) :
    b.word k = (b.get (4 * k)).toNat + 256 * ((b.get (4 * k + 1)).toNat + 256 *
      ((b.get (4 * k + 2)).toNat + 256 * (b.get (4 * k + 3)).toNat)) := by
  simp [word, read, leNat, List.range_succ]

theorem get_clearBit_le (b : Bytes size) (i j : Nat) :
    ((b.clearBit i).get j).toNat ≤ (b.get j).toNat := by
  by_cases inside : j < size
  · rw [get_clearBit b inside]
    split
    · exact Nat.and_le_left
    · exact le_rfl
  · simp [get, inside]

theorem word_clearBit_le (b : Bytes size) (i k : Nat) : (b.clearBit i).word k ≤ b.word k := by
  have bytes := get_clearBit_le b i
  have h0 := bytes (4 * k)
  have h1 := bytes (4 * k + 1)
  have h2 := bytes (4 * k + 2)
  have h3 := bytes (4 * k + 3)
  rw [word_eq, word_eq]
  omega

/-- Clearing a bit that is set makes its word smaller. -/
theorem word_clearBit_lt (b : Bytes size) {i : Nat} (set : b.bit i = true) :
    (b.clearBit i).word (i / 32) < b.word (i / 32) := by
  have less : ((b.clearBit i).get (i / 8)).toNat < (b.get (i / 8)).toNat := by
    refine lt_of_le_of_ne (get_clearBit_le b i _) fun same => ?_
    have cleared := bit_clearBit b i i
    rw [set, decide_eq_false (not_not.mpr rfl), Bool.and_false, bit_eq_testBit,
      same, ← bit_eq_testBit, set] at cleared
    cases cleared
  have bytes := get_clearBit_le b i
  have h0 := bytes (4 * (i / 32))
  have h1 := bytes (4 * (i / 32) + 1)
  have h2 := bytes (4 * (i / 32) + 2)
  have h3 := bytes (4 * (i / 32) + 3)
  have place : i / 8 = 4 * (i / 32) ∨ i / 8 = 4 * (i / 32) + 1 ∨ i / 8 = 4 * (i / 32) + 2 ∨
      i / 8 = 4 * (i / 32) + 3 := by
    omega
  rw [word_eq, word_eq]
  rcases place with here | here | here | here <;> rw [here] at less <;> omega

end Aso.Bytes
