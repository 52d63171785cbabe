import Mathlib.Data.List.TakeWhile
import Mathlib.Tactic.Common

/-! # Strings that end with a NUL

A string in memory is what stands before the first NUL, or before the end of the bytes that may be
read.
-/
namespace DevFramework.CString
set_option autoImplicit false
set_option maxHeartbeats 250000

/-- The argument of a call that takes a string. -/
structure Str where
  chars : List UInt8
  noNul : 0 ∉ chars
  deriving DecidableEq, Repr

/-- The string in some bytes. -/
def cstr (bs : List UInt8) : List UInt8 := bs.takeWhile (· ≠ 0)

/-- What `strncpy` leaves in `n` bytes: no NUL unless there is room. -/
def padTo (n : ℕ) (s : List UInt8) : List UInt8 := s.take n ++ List.replicate (n - s.length) 0

theorem noNul_cstr (bs : List UInt8) : 0 ∉ cstr bs := by
  intro h
  have hne := List.mem_takeWhile_imp h
  simp at hne

theorem cstr_length_le (bs : List UInt8) : (cstr bs).length ≤ bs.length :=
  (List.takeWhile_prefix _).length_le

theorem cstr_cons {b : UInt8} (h : b ≠ 0) (bs : List UInt8) : cstr (b :: bs) = b :: cstr bs := by
  rw [cstr, List.takeWhile_cons, if_pos (by simpa using h)]
  rfl

theorem cstr_nul (bs : List UInt8) : cstr (0 :: bs) = [] := rfl

/-- One is empty and the other is not. -/
theorem cstr_ne {b c : UInt8} (h : c = 0 ↔ b ≠ 0) (bs cs : List UInt8) :
    cstr (c :: cs) ≠ cstr (b :: bs) := by
  by_cases hc : c = 0
  · rw [hc, cstr_nul, cstr_cons (h.mp hc)]
    exact nofun
  · have hb : b = 0 := not_not.mp fun hb => hc (h.mpr hb)
    rw [hb, cstr_nul, cstr_cons hc]
    exact nofun

/-- The NUL behind a string ends it. -/
theorem cstr_terminated {s : List UInt8} (h : 0 ∉ s) (rest : List UInt8) :
    cstr (s ++ 0 :: rest) = s := by
  induction s with
  | nil => rfl
  | cons c s ih =>
    rw [List.mem_cons, not_or] at h
    rw [List.cons_append, cstr_cons (Ne.symm h.1), ih h.2]

theorem cstr_eq_self {s : List UInt8} (h : 0 ∉ s) : cstr s = s := by
  rw [cstr, List.takeWhile_eq_self_iff]
  intro c hc
  have hne : c ≠ 0 := fun heq => h (heq ▸ hc)
  simpa using hne

theorem padTo_length (n : ℕ) (s : List UInt8) : (padTo n s).length = n := by
  rw [padTo, List.length_append, List.length_take, List.length_replicate]
  omega

theorem cstr_padTo {n : ℕ} {s : List UInt8} (h : 0 ∉ s) (hn : s.length ≤ n) :
    cstr (padTo n s) = s := by
  rw [padTo, List.take_of_length_le hn]
  cases hk : n - s.length with
  | zero =>
    rw [List.replicate_zero, List.append_nil]
    exact cstr_eq_self h
  | succ k =>
    rw [List.replicate_succ]
    exact cstr_terminated h _

/-- A string that was copied into as many bytes as it was read from. -/
theorem cstr_padTo_cstr {n : ℕ} {bs : List UInt8} (h : bs.length ≤ n) :
    cstr (padTo n (cstr bs)) = cstr bs :=
  cstr_padTo (noNul_cstr bs) (Nat.le_trans (cstr_length_le bs) h)

end DevFramework.CString
