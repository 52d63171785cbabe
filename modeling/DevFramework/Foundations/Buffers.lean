import Mathlib.Data.List.Basic
import Mathlib.Tactic.Common

/-! # Writing into a block of cells

A block is the list of what its cells hold. A write that runs past the last cell has no result.
-/
namespace DevFramework.Buffers
set_option autoImplicit false
set_option maxHeartbeats 250000

variable {α : Type*}

/-- `vs` written over the cells from `off` on. -/
def write (m : List α) (off : ℕ) (vs : List α) : Option (List α) :=
  if off + vs.length ≤ m.length then some (m.take off ++ vs ++ m.drop (off + vs.length)) else none

/-- The `n` cells from `off` on. -/
def read (m : List α) (off n : ℕ) : List α := (m.drop off).take n

theorem read_length {m : List α} {off n : ℕ} (h : off + n ≤ m.length) :
    (read m off n).length = n := by
  rw [read, List.length_take, List.length_drop]
  omega

/-- What lies between two other parts is replaced. -/
theorem write_between (a b c vs : List α) (h : b.length = vs.length) :
    write (a ++ b ++ c) a.length vs = some (a ++ vs ++ c) := by
  have hlen : a.length + vs.length = (a ++ b).length := by rw [List.length_append, h]
  have hfits : a.length + vs.length ≤ (a ++ b ++ c).length := by
    have hall : (a ++ b ++ c).length = (a ++ b).length + c.length := List.length_append
    omega
  rw [write, if_pos hfits, hlen, List.drop_left, List.append_assoc a b c, List.take_left]

/-- A write behind `a` leaves `a` and goes on into what follows. -/
theorem write_behind (a rest vs : List α) (h : vs.length ≤ rest.length) :
    write (a ++ rest) a.length vs = some (a ++ vs ++ rest.drop vs.length) := by
  have hsplit : a ++ rest = a ++ rest.take vs.length ++ rest.drop vs.length := by
    rw [List.append_assoc, List.take_append_drop]
  rw [hsplit]
  apply write_between
  rw [List.length_take]
  omega

theorem write_start (m vs : List α) (h : vs.length ≤ m.length) :
    write m 0 vs = some (vs ++ m.drop vs.length) := write_behind [] m vs h

theorem write_eq_none (m : List α) (off : ℕ) (vs : List α) (h : m.length < off + vs.length) :
    write m off vs = none := if_neg (by omega)

section Written
variable {m m' vs : List α} {off : ℕ}

theorem write_length (h : write m off vs = some m') : m'.length = m.length := by
  unfold write at h
  split at h
  · obtain rfl := Option.some.inj h
    simp only [List.length_append, List.length_take, List.length_drop]
    omega
  · cases h

/-- Cells before the write keep what they hold. -/
theorem read_before (h : write m off vs = some m') {i n : ℕ} (hi : i + n ≤ off) :
    read m' i n = read m i n := by
  unfold write at h
  split at h
  · obtain rfl := Option.some.inj h
    have htake : n ≤ ((m.take off).drop i).length := by
      rw [List.length_drop, List.length_take]
      omega
    have hi' : i ≤ (m.take off).length := by
      rw [List.length_take]
      omega
    rw [read, read, List.append_assoc, List.drop_append_of_le_length hi',
      List.take_append_of_le_length htake, List.drop_take, List.take_take]
    congr 1
    omega
  · cases h

/-- Cells behind the write keep what they hold. -/
theorem read_after (h : write m off vs = some m') {i n : ℕ} (hi : off + vs.length ≤ i) :
    read m' i n = read m i n := by
  unfold write at h
  split at h
  · obtain rfl := Option.some.inj h
    have hlen : (m.take off ++ vs).length = off + vs.length := by
      rw [List.length_append, List.length_take]
      omega
    rw [read, read, List.drop_append, hlen, List.drop_eq_nil_of_le (by omega), List.nil_append,
      List.drop_drop]
    congr 2
    omega
  · cases h

/-- From a written cell on stand what was written there and, behind it, what was there before. -/
theorem read_written (h : write m off vs = some m') {k : ℕ} (hk : k ≤ vs.length) (n : ℕ) :
    read m' (off + k) n = (vs.drop k ++ m.drop (off + vs.length)).take n := by
  unfold write at h
  split at h
  · obtain rfl := Option.some.inj h
    have hlen : (m.take off).length = off := by
      rw [List.length_take]
      omega
    rw [read, List.append_assoc]
    congr 1
    rw [List.drop_append, hlen, List.drop_eq_nil_of_le (by omega), Nat.add_sub_cancel_left,
      List.nil_append, List.drop_append_of_le_length hk]
  · cases h

/-- Cells that were all written. -/
theorem read_same (h : write m off vs = some m') : read m' off vs.length = vs := by
  have hread := read_written h (Nat.zero_le vs.length) vs.length
  rwa [Nat.add_zero, List.drop_zero, List.take_left] at hread

end Written

end DevFramework.Buffers
