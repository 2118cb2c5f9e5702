import Mathlib.Data.Nat.Bitwise

namespace Bitmap

/-- Bit `i` of a bitmap kept in bytes, lowest bit first. -/
def test (bytes : List UInt8) (i : Nat) : Bool := (bytes.getD (i / 8) 0).toNat.testBit (i % 8)

/-- The byte with only bit `k` set. -/
def mask (k : Nat) : UInt8 := 1 <<< UInt8.ofNat k

def mark (bytes : List UInt8) (i : Nat) : List UInt8 :=
  bytes.modify (i / 8) fun byte => byte ||| mask (i % 8)

def clear (bytes : List UInt8) (i : Nat) : List UInt8 :=
  bytes.modify (i / 8) fun byte => byte &&& ~~~mask (i % 8)

theorem mask_toNat {k : Nat} (bound : k < 8) : (mask k).toNat = 2 ^ k := by
  have small : 2 ^ k < 2 ^ 8 := Nat.pow_lt_pow_right (by decide) bound
  rw [mask, UInt8.toNat_shiftLeft, UInt8.toNat_ofNat', Nat.mod_eq_of_lt (by omega : k < 2 ^ 8),
    Nat.mod_eq_of_lt bound, Nat.shiftLeft_eq, UInt8.toNat_one, Nat.one_mul]
  exact Nat.mod_eq_of_lt small

theorem testBit_or_mask {byte : UInt8} {k j : Nat} (bound : k < 8) :
    (byte ||| mask k).toNat.testBit j = (byte.toNat.testBit j || decide (k = j)) := by
  rw [UInt8.toNat_or, Nat.testBit_or, mask_toNat bound, Nat.testBit_two_pow]

theorem testBit_and_not_mask {byte : UInt8} {k j : Nat} (bound : k < 8) (inByte : j < 8) :
    (byte &&& ~~~mask k).toNat.testBit j = (byte.toNat.testBit j && decide (k ≠ j)) := by
  have size : UInt8.size - 1 - 2 ^ k = 2 ^ 8 - (2 ^ k + 1) := by
    change 256 - 1 - 2 ^ k = 256 - (2 ^ k + 1)
    omega
  rw [UInt8.toNat_and, Nat.testBit_and, UInt8.toNat_not, mask_toNat bound, size,
    Nat.testBit_two_pow_sub_succ (Nat.pow_lt_pow_right (by decide) bound), Nat.testBit_two_pow]
  simp [inByte]

/-- Reading a bit by a shift to the lowest place. -/
theorem shiftRight_and_one {byte : UInt8} {k : Nat} (bound : k < 8) :
    (byte >>> UInt8.ofNat k) &&& 1 = if byte.toNat.testBit k then 1 else 0 := by
  have bit : ((byte >>> UInt8.ofNat k) &&& 1).toNat = (byte.toNat.testBit k).toNat := by
    rw [UInt8.toNat_and, UInt8.toNat_shiftRight, UInt8.toNat_ofNat', Nat.mod_eq_of_lt (by omega : k < 2 ^ 8),
      Nat.mod_eq_of_lt bound, Nat.testBit_eq_decide_div_mod_eq, UInt8.toNat_one, Nat.and_one_is_mod,
      Nat.shiftRight_eq_div_pow]
    rcases Nat.mod_two_eq_zero_or_one (byte.toNat / 2 ^ k) with even | odd
    · simp [even]
    · simp [odd]
  rw [← UInt8.toNat_inj, bit]
  split
  · rename_i set
    rw [set]
    rfl
  · rename_i free
    rw [Bool.not_eq_true] at free
    rw [free]
    rfl

@[simp] theorem length_mark (bytes : List UInt8) (i : Nat) : (mark bytes i).length = bytes.length :=
  List.length_modify ..

@[simp] theorem length_clear (bytes : List UInt8) (i : Nat) : (clear bytes i).length = bytes.length :=
  List.length_modify ..

theorem test_beyond {bytes : List UInt8} {i : Nat} (outside : bytes.length ≤ i / 8) : test bytes i = false := by
  simp [test, List.getD_eq_getElem?_getD, List.getElem?_eq_none outside]

theorem getD_modify (bytes : List UInt8) (f : UInt8 → UInt8) (i j : Nat) :
    (bytes.modify i f).getD j 0 = if i = j ∧ i < bytes.length then f (bytes.getD j 0) else bytes.getD j 0 := by
  simp only [List.getD_eq_getElem?_getD, List.getElem?_modify]
  by_cases inside : j < bytes.length
  · rw [List.getElem?_eq_getElem inside]
    by_cases same : i = j
    · simp [same, inside]
    · simp [same]
  · rw [List.getElem?_eq_none (by omega)]
    have apart : ¬(i = j ∧ i < bytes.length) := by omega
    simp [apart]

theorem test_mark (bytes : List UInt8) (i j : Nat) :
    test (mark bytes i) j = (test bytes j || decide (i = j ∧ i / 8 < bytes.length)) := by
  simp only [test, mark, getD_modify]
  split
  · rename_i hit
    rw [testBit_or_mask (Nat.mod_lt i (by decide))]
    congr 1
    exact decide_eq_decide.mpr ⟨fun same => ⟨by omega, hit.2⟩, fun same => by rw [same.1]⟩
  · rename_i miss
    have apart : ¬(i = j ∧ i / 8 < bytes.length) := fun both => miss ⟨by rw [both.1], both.2⟩
    simp [apart]

theorem test_clear (bytes : List UInt8) (i j : Nat) :
    test (clear bytes i) j = (test bytes j && decide (i ≠ j)) := by
  by_cases outside : bytes.length ≤ j / 8
  · rw [test_beyond outside, test_beyond (by rw [length_clear]; exact outside)]
    rfl
  simp only [test, clear, getD_modify]
  split
  · rename_i hit
    rw [testBit_and_not_mask (Nat.mod_lt i (by decide)) (Nat.mod_lt j (by decide))]
    congr 1
    exact decide_eq_decide.mpr ⟨fun apart same => apart (by rw [same]), fun apart same => apart (by omega)⟩
  · rename_i miss
    have apart : i ≠ j := fun same => miss ⟨by rw [same], by rw [same]; omega⟩
    simp [apart]

theorem test_zero (n i : Nat) : test (List.replicate n 0) i = false := by
  rw [test, List.getD_eq_getElem?_getD, List.getElem?_replicate]
  split <;> simp

/-- A bitmap is determined by its length and its bits. -/
theorem ext {a b : List UInt8} (length : a.length = b.length) (bits : ∀ i, test a i = test b i) : a = b := by
  refine List.ext_getElem length fun k inA inB => ?_
  rw [← UInt8.toNat_inj]
  refine Nat.eq_of_testBit_eq fun j => ?_
  by_cases inByte : j < 8
  · have same := bits (8 * k + j)
    have byte : (8 * k + j) / 8 = k := by omega
    have bit : (8 * k + j) % 8 = j := by omega
    simpa [test, byte, bit, List.getD_eq_getElem?_getD, inA, inB] using same
  · have large (byte : UInt8) : byte.toNat.testBit j = false :=
      Nat.testBit_lt_two_pow (Nat.lt_of_lt_of_le byte.toNat_lt (Nat.pow_le_pow_right (by decide) (by omega)))
    rw [large, large]

end Bitmap
