import Mathlib.Algebra.Order.Ring.Nat
import Mathlib.Tactic.Ring

/-! # Little-endian integers in byte strings -/
namespace DevFramework.Bytes
set_option autoImplicit false
set_option maxHeartbeats 250000

/-- The number that a byte string spells, least significant byte first. -/
def leNat : List UInt8 → ℕ
  | [] => 0
  | b :: bs => b.toNat + 256 * leNat bs

/-- The lowest `k` bytes of `n`, least significant first. -/
def leBytes : ℕ → ℕ → List UInt8
  | 0, _ => []
  | k + 1, n => UInt8.ofNat n :: leBytes k (n / 256)

@[simp] theorem leBytes_length (k n : ℕ) : (leBytes k n).length = k := by
  induction k generalizing n with
  | zero => rfl
  | succ k ih => simp [leBytes, ih]

theorem leNat_lt (bs : List UInt8) : leNat bs < 256 ^ bs.length := by
  induction bs with
  | nil => simp [leNat]
  | cons b bs ih =>
    have hb : b.toNat < 256 := b.toNat_lt
    simp only [leNat, List.length_cons, pow_succ]
    omega

theorem leNat_leBytes (k n : ℕ) (h : n < 256 ^ k) : leNat (leBytes k n) = n := by
  induction k generalizing n with
  | zero =>
    simp only [pow_zero] at h
    simp only [leBytes, leNat]
    omega
  | succ k ih =>
    have hn : n / 256 < 256 ^ k := by
      rw [pow_succ] at h
      omega
    simp only [leBytes, leNat, ih _ hn, UInt8.toNat_ofNat']
    omega

/-- Reading a 32-bit word as an `int`. -/
def signed32 (n : ℕ) : ℤ := if n < 2147483648 then n else (n : ℤ) - 4294967296

theorem signed32_of_lt {n : ℕ} (h : n < 2147483648) : signed32 n = n := if_pos h

/-- The `int` stored in four bytes. -/
def int32 (bs : List UInt8) : ℤ := signed32 (leNat bs)

theorem int32_leBytes {n : ℕ} (h : n < 2147483648) : int32 (leBytes 4 n) = n := by
  rw [int32, leNat_leBytes 4 n (by omega), signed32_of_lt h]

theorem int32_bounds {bs : List UInt8} (h : bs.length = 4) :
    -2147483648 ≤ int32 bs ∧ int32 bs < 2147483648 := by
  have hlt := leNat_lt bs
  rw [h] at hlt
  unfold int32 signed32
  split <;> omega

theorem leBytes_leNat (bs : List UInt8) : leBytes bs.length (leNat bs) = bs := by
  induction bs with
  | nil => rfl
  | cons b bs ih =>
    have hb : b.toNat < 256 := b.toNat_lt
    have hdiv : (b.toNat + 256 * leNat bs) / 256 = leNat bs := by omega
    have hhead : UInt8.ofNat (b.toNat + 256 * leNat bs) = b := by
      rw [← UInt8.toNat_inj, UInt8.toNat_ofNat']
      omega
    simp only [List.length_cons, leNat, leBytes, hdiv, ih, hhead]

theorem leBytes_int32 {bs : List UInt8} (h : bs.length = 4) (h0 : 0 ≤ int32 bs) :
    leBytes 4 (int32 bs).toNat = bs := by
  have hlt := leNat_lt bs
  rw [h] at hlt
  have hval : (int32 bs).toNat = leNat bs := by
    unfold int32 signed32 at h0 ⊢
    split at h0 <;> split <;> omega
  rw [hval, ← h, leBytes_leNat]

end DevFramework.Bytes
