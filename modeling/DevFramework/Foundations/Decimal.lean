import Mathlib.Data.List.TakeWhile
import Mathlib.Algebra.Order.Ring.Int

/-! # Integers as decimal text -/
namespace DevFramework.Decimal
set_option autoImplicit false
set_option maxHeartbeats 250000

/-- The digits of an integer, behind a minus sign where it is negative. -/
def decimal (v : ℤ) : List Char :=
  if v < 0 then '-' :: Nat.toDigits 10 v.natAbs else Nat.toDigits 10 v.natAbs

/-- `isspace` in the C locale. -/
def isSpace (c : Char) : Bool := c = ' ' || (9 ≤ c.toNat && c.toNat ≤ 13)

/-- The number that the leading digits spell. -/
def digits (s : List Char) : ℕ := Nat.ofDigitChars 10 (s.takeWhile Char.isDigit) 0

/-- The integer at the start of a text: blanks, a sign, digits, and anything behind them. -/
def number (s : List Char) : ℤ :=
  match s.dropWhile isSpace with
  | '-' :: rest => -(digits rest)
  | '+' :: rest => digits rest
  | rest => digits rest

theorem isDigit_toDigits (n : ℕ) {c : Char} (h : c ∈ Nat.toDigits 10 n) : c.isDigit = true :=
  Nat.isDigit_of_mem_toDigits (by omega) (by omega) h

theorem digits_toDigits (n : ℕ) : digits (Nat.toDigits 10 n) = n := by
  rw [digits, List.takeWhile_eq_self_iff.mpr fun c hc => isDigit_toDigits n hc]
  exact Nat.ofDigitChars_ten_toDigits

/-- A digit is no blank and no sign. -/
theorem isDigit_ne {c : Char} (h : c.isDigit = true) : isSpace c = false ∧ c ≠ '-' ∧ c ≠ '+' := by
  refine ⟨?_, fun hc => ?_, fun hc => ?_⟩
  · have hne : c ≠ ' ' := fun hc => by
      rw [hc] at h
      cases h
    have hbounds : 48 ≤ c.toNat := by
      simp only [Char.isDigit, Bool.and_eq_true, decide_eq_true_eq] at h
      exact h.1
    rw [isSpace, decide_eq_false hne, Bool.false_or, Bool.and_eq_false_iff]
    exact .inr (decide_eq_false (by omega))
  · rw [hc] at h
    cases h
  · rw [hc] at h
    cases h

theorem number_toDigits (n : ℕ) : number (Nat.toDigits 10 n) = n := by
  have hdigits := digits_toDigits n
  have hpos : Nat.toDigits 10 n ≠ [] := List.ne_nil_of_length_pos Nat.length_toDigits_pos
  obtain ⟨c, rest, hcons⟩ := List.exists_cons_of_ne_nil hpos
  obtain ⟨hspace, hminus, hplus⟩ :=
    isDigit_ne (isDigit_toDigits n (hcons ▸ List.mem_cons_self : c ∈ Nat.toDigits 10 n))
  rw [hcons] at hdigits ⊢
  rw [number, List.dropWhile_cons_of_neg (by simp [hspace])]
  split
  · rename_i heq
    exact absurd (List.cons.inj heq).1 hminus
  · rename_i heq
    exact absurd (List.cons.inj heq).1 hplus
  · rw [hdigits]

/-- An integer is read back from its text. -/
theorem number_decimal (v : ℤ) : number (decimal v) = v := by
  unfold decimal
  split
  · have hminus : number ('-' :: Nat.toDigits 10 v.natAbs) =
        -(digits (Nat.toDigits 10 v.natAbs) : ℤ) := rfl
    rw [hminus, digits_toDigits]
    omega
  · rw [number_toDigits]
    omega

theorem decimal_pos (v : ℤ) : 0 < (decimal v).length := by
  unfold decimal
  split
  · exact Nat.succ_pos _
  · exact Nat.length_toDigits_pos

/-- The sign takes one place. -/
theorem decimal_length_le_iff (v : ℤ) {k : ℕ} (hk : 0 < k) :
    (decimal v).length ≤ k + 1 ↔ -10 ^ k < v ∧ v < 10 ^ (k + 1) := by
  have hmono : (10 : ℤ) ^ k ≤ 10 ^ (k + 1) := by
    rw [Int.pow_succ]
    have hpos : (0 : ℤ) < 10 ^ k := Int.pow_pos (by omega)
    omega
  have hcast : ∀ j : ℕ, ((10 ^ j : ℕ) : ℤ) = 10 ^ j := fun j => by
    rw [Int.natCast_pow]
    rfl
  have hk1 := hcast k
  have hk2 := hcast (k + 1)
  unfold decimal
  split
  · rw [List.length_cons, Nat.add_le_add_iff_right, Nat.length_toDigits_le_iff (by omega) hk]
    omega
  · rw [Nat.length_toDigits_le_iff (by omega) (Nat.succ_pos k)]
    omega

theorem decimal_chars (v : ℤ) {c : Char} (h : c ∈ decimal v) : c = '-' ∨ c.isDigit = true := by
  unfold decimal at h
  split at h
  · obtain hminus | h := List.mem_cons.mp h
    · exact .inl hminus
    · exact .inr (isDigit_toDigits _ h)
  · exact .inr (isDigit_toDigits _ h)

end DevFramework.Decimal
