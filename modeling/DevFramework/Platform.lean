import Mathlib.Algebra.Order.Ring.Int

/-! # The two builds of the framework

The sources are built for Win32 and for x64 (`_M_IX86` and `_M_X64`). What differs between the two
and is visible in the modelled code is the width of `size_t` and of a pointer.
-/
namespace DevFramework
set_option autoImplicit false
set_option maxHeartbeats 250000

inductive Target where
  | x86
  | x64
  deriving DecidableEq, Repr

/-- Width of `size_t` in bits. -/
def Target.sizeBits : Target → ℕ
  | .x86 => 32
  | .x64 => 64

/-- `INT_MAX` of a 32-bit `int`. -/
def intMax : ℤ := 2147483647

/-- A signed integer converted to `size_t`. -/
def toSize (t : Target) (z : ℤ) : ℕ := (z % 2 ^ t.sizeBits).toNat

/-- A number that is not negative and has 32 bits keeps its value. -/
theorem toSize_of_nonneg (t : Target) {z : ℤ} (h0 : 0 ≤ z) (h : z < 4294967296) :
    toSize t z = z.toNat := by
  have hmod : z % 2 ^ t.sizeBits = z := by
    refine Int.emod_eq_of_lt h0 ?_
    cases t <;> simp only [Target.sizeBits] <;> omega
  rw [toSize, hmod]

end DevFramework
