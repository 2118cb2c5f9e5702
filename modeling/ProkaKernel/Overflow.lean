import Mathlib.Algebra.Ring.Nat

namespace ProkaKernel

/-- What arithmetic that overflows does in a build: it panics, or it wraps. -/
inductive Overflow
  | panics
  | wraps

/-- A result that is stored in `bits` bits. -/
def Overflow.fit (overflow : Overflow) (bits value : Nat) : Option Nat :=
  if value < 2 ^ bits then some value
  else match overflow with
    | .panics => none
    | .wraps => some (value % 2 ^ bits)

def Overflow.sub (overflow : Overflow) (bits a b : Nat) : Option Nat :=
  if b ≤ a then some (a - b)
  else match overflow with
    | .panics => none
    | .wraps => some (a + 2 ^ bits - b)

namespace Overflow
variable {bits value a b : Nat}

theorem fit_of_lt (overflow : Overflow) (small : value < 2 ^ bits) : overflow.fit bits value = some value := if_pos small

theorem sub_of_le (overflow : Overflow) (bits : Nat) (le : b ≤ a) : overflow.sub bits a b = some (a - b) := if_pos le

theorem fit_panics (large : 2 ^ bits ≤ value) : panics.fit bits value = none := if_neg (Nat.not_lt.mpr large)

theorem fit_wraps (bits value : Nat) : wraps.fit bits value = some (value % 2 ^ bits) := by
  by_cases small : value < 2 ^ bits
  · rw [fit_of_lt _ small, Nat.mod_eq_of_lt small]
  · exact if_neg small

theorem fit_panics_some {result : Nat} (fits : panics.fit bits value = some result) : value < 2 ^ bits ∧ result = value := by
  by_cases small : value < 2 ^ bits
  · rw [fit_of_lt _ small] at fits
    exact ⟨small, (Option.some.inj fits).symm⟩
  · rw [fit_panics (Nat.le_of_not_lt small)] at fits
    cases fits

theorem sub_panics_some {result : Nat} (fits : panics.sub bits a b = some result) : b ≤ a ∧ result = a - b := by
  by_cases le : b ≤ a
  · rw [sub_of_le _ _ le] at fits
    exact ⟨le, (Option.some.inj fits).symm⟩
  · rw [sub, if_neg le] at fits
    cases fits

/-- Only the sum of what is added matters, also when it is checked at every
step. -/
theorem fit_bind_add (overflow : Overflow) (bits a b : Nat) :
    ((overflow.fit bits a).bind fun sum => overflow.fit bits (sum + b)) = overflow.fit bits (a + b) := by
  cases overflow with
  | panics =>
    by_cases small : a < 2 ^ bits
    · rw [fit_of_lt _ small, Option.bind_some]
    · have large := Nat.le_of_not_lt small
      rw [fit_panics large, fit_panics (Nat.le_add_right_of_le large), Option.bind_none]
  | wraps => rw [fit_wraps, Option.bind_some, fit_wraps, fit_wraps, Nat.mod_add_mod]

theorem fit_cases {overflow : Overflow} {result : Nat} (fits : overflow.fit bits value = some result) :
    (result = value ∧ value < 2 ^ bits) ∨ (overflow = .wraps ∧ 2 ^ bits ≤ value ∧ result = value % 2 ^ bits) := by
  by_cases small : value < 2 ^ bits
  · rw [fit_of_lt _ small] at fits
    exact Or.inl ⟨(Option.some.inj fits).symm, small⟩
  · have large := Nat.le_of_not_lt small
    cases overflow with
    | panics =>
      rw [fit_panics large] at fits
      cases fits
    | wraps =>
      rw [fit_wraps] at fits
      exact Or.inr ⟨rfl, large, (Option.some.inj fits).symm⟩

theorem fit_none {overflow : Overflow} (panics : overflow.fit bits value = none) : overflow = .panics ∧ 2 ^ bits ≤ value := by
  by_cases small : value < 2 ^ bits
  · rw [fit_of_lt _ small] at panics
    cases panics
  · cases overflow with
    | panics => exact ⟨rfl, Nat.le_of_not_lt small⟩
    | wraps =>
      rw [fit_wraps] at panics
      cases panics

/-- What fits is the number itself, or its remainder. -/
theorem fit_some {overflow : Overflow} {result : Nat} (fits : overflow.fit bits value = some result) :
    result = value % 2 ^ bits := by
  rcases fit_cases fits with ⟨rfl, small⟩ | ⟨_, _, same⟩
  · exact (Nat.mod_eq_of_lt small).symm
  · exact same

end Overflow

namespace Kernel

/-- `align_up`, which panics when the result does not fit. -/
def alignUp (size align : Nat) : Option Nat :=
  if size % align = 0 then some size
  else if (size / align + 1) * align < 2 ^ 64 then some ((size / align + 1) * align)
  else none

end Kernel

end ProkaKernel
