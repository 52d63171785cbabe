import Mathlib.Algebra.Order.Ring.Nat
import Mathlib.Tactic.Ring

/-! # Characters as bytes (UTF-8)

Bytes and characters are numbers here. A character below `2 ^ 31` takes one byte to six; the first
byte tells how many follow, and each of those holds six bits.
-/
namespace DevFramework.Utf8
set_option autoImplicit false
set_option maxHeartbeats 250000

/-- A byte behind the first: its number modulo 64 are the bits it holds. -/
def continuation (n : ℕ) : ℕ := 128 + n % 64

/-- The lowest `6 * k` bits of a character in `k` bytes, the highest bits first. -/
def tail : ℕ → ℕ → List ℕ
  | 0, _ => []
  | k + 1, n => tail k (n / 64) ++ [continuation n]

/-- How many bytes follow the first byte of a character. -/
def extra (n : ℕ) : ℕ :=
  if n < 128 then 0
  else if n < 2048 then 1
  else if n < 65536 then 2
  else if n < 2097152 then 3
  else if n < 67108864 then 4
  else 5

/-- What a first byte has besides the highest bits of its character. -/
def mark : ℕ → ℕ
  | 0 => 0
  | 1 => 192
  | 2 => 224
  | 3 => 240
  | 4 => 248
  | _ => 252

/-- The bytes of a character. -/
def encode (n : ℕ) : List ℕ := (mark (extra n) + n / 64 ^ extra n) :: tail (extra n) n

/-- How many bytes follow a first byte. -/
def follow (b : ℕ) : Option ℕ :=
  if b < 128 then some 0
  else if b < 192 then none
  else if b < 224 then some 1
  else if b < 240 then some 2
  else if b < 248 then some 3
  else if b < 252 then some 4
  else if b < 254 then some 5
  else none

/-- Six more bits. -/
def shift (n b : ℕ) : ℕ := n * 64 + b % 64

/-- The first character of some bytes, and the bytes behind it. -/
def decode : List ℕ → Option (ℕ × List ℕ)
  | [] => none
  | b :: bs =>
    match follow b with
    | none => none
    | some k =>
      if k ≤ bs.length ∧ ∀ c ∈ bs.take k, c / 64 = 2 then
        some ((bs.take k).foldl shift (b - mark k), bs.drop k)
      else none

theorem continuation_div (n : ℕ) : continuation n / 64 = 2 := by
  unfold continuation
  omega

theorem continuation_mod (n : ℕ) : continuation n % 64 = n % 64 := by
  unfold continuation
  omega

@[simp] theorem tail_length (k n : ℕ) : (tail k n).length = k := by
  induction k generalizing n with
  | zero => rfl
  | succ k ih => simp [tail, ih]

theorem tail_div (k n : ℕ) : ∀ c ∈ tail k n, c / 64 = 2 := by
  induction k generalizing n with
  | zero => exact List.forall_mem_nil _
  | succ k ih =>
    intro c hc
    rw [tail, List.mem_append, List.mem_singleton] at hc
    obtain hc | rfl := hc
    · exact ih _ c hc
    · exact continuation_div n

theorem foldl_tail (k n acc : ℕ) : (tail k n).foldl shift acc = acc * 64 ^ k + n % 64 ^ k := by
  induction k generalizing n with
  | zero => simp [tail, Nat.mod_one]
  | succ k ih =>
    have hsplit : n % 64 ^ (k + 1) = n / 64 % 64 ^ k * 64 + n % 64 := by
      rw [pow_succ, Nat.mul_comm, Nat.mod_mul, Nat.add_comm, Nat.mul_comm]
    rw [tail, List.foldl_append, ih, List.foldl_cons, List.foldl_nil, shift, continuation_mod,
      hsplit, pow_succ]
    ring

theorem extra_le (n : ℕ) : extra n ≤ 5 := by
  unfold extra
  split_ifs <;> decide

/-- What is left of a character for its first byte. -/
theorem first_lt {n : ℕ} (hn : n < 2147483648) :
    n / 64 ^ extra n < if extra n = 0 then 128 else 2 ^ (6 - extra n) := by
  unfold extra
  split_ifs <;> omega

/-- A first byte tells how many follow. -/
theorem follow_mark {k q : ℕ} (hk : k ≤ 5) (hq : q < if k = 0 then 128 else 2 ^ (6 - k)) :
    follow (mark k + q) = some k := by
  obtain rfl | rfl | rfl | rfl | rfl | rfl : k = 0 ∨ k = 1 ∨ k = 2 ∨ k = 3 ∨ k = 4 ∨ k = 5 := by
    omega
  all_goals
    simp only [mark, follow]
    simp only [if_true, OfNat.ofNat_ne_zero, one_ne_zero, if_false, Nat.reduceSub,
      Nat.reducePow] at hq
    grind

theorem follow_first {n : ℕ} (hn : n < 2147483648) :
    follow (mark (extra n) + n / 64 ^ extra n) = some (extra n) :=
  follow_mark (extra_le n) (first_lt hn)

/-- A character is read back from its bytes, whatever stands behind them. -/
theorem decode_encode {n : ℕ} (hn : n < 2147483648) (rest : List ℕ) :
    decode (encode n ++ rest) = some (n, rest) := by
  have hlen : extra n ≤ (tail (extra n) n ++ rest).length := by simp
  have htake : (tail (extra n) n ++ rest).take (extra n) = tail (extra n) n :=
    List.take_left' (tail_length _ _)
  have hdrop : (tail (extra n) n ++ rest).drop (extra n) = rest := List.drop_left' (tail_length _ _)
  rw [encode, List.cons_append, decode, follow_first hn]
  simp only [htake, hdrop]
  rw [if_pos ⟨hlen, tail_div _ _⟩, foldl_tail, Nat.add_sub_cancel_left, Nat.div_add_mod']

theorem encode_injective {m n : ℕ} (hm : m < 2147483648) (hn : n < 2147483648)
    (h : encode m = encode n) : m = n := by
  have hread := decode_encode hm []
  rw [h, decode_encode hn []] at hread
  exact (congrArg Prod.fst (Option.some.inj hread)).symm

theorem encode_bytes {n : ℕ} (hn : n < 2147483648) : ∀ b ∈ encode n, b < 256 := by
  intro b hb
  rw [encode, List.mem_cons] at hb
  obtain rfl | hb := hb
  · unfold extra
    split_ifs <;> simp only [mark] <;> omega
  · have hdiv := tail_div _ _ b hb
    omega

/-- For the characters of Unicode it is their UTF-8. -/
theorem encode_char (c : Char) : (encode c.toNat).map UInt8.ofNat = String.utf8EncodeChar c := by
  have hlt : c.toNat < 1114112 := by
    have hvalid := c.valid
    simp only [UInt32.isValidChar, Nat.isValidChar] at hvalid
    change c.val.toNat < 1114112
    omega
  have hfold : String.utf8EncodeChar c =
      if c.toNat ≤ 127 then [UInt8.ofNat c.toNat]
      else if c.toNat ≤ 2047 then
        [UInt8.ofNat (c.toNat / 64 % 32 + 192), UInt8.ofNat (c.toNat % 64 + 128)]
      else if c.toNat ≤ 65535 then
        [UInt8.ofNat (c.toNat / 4096 % 16 + 224), UInt8.ofNat (c.toNat / 64 % 64 + 128),
          UInt8.ofNat (c.toNat % 64 + 128)]
      else
        [UInt8.ofNat (c.toNat / 262144 % 8 + 240), UInt8.ofNat (c.toNat / 4096 % 64 + 128),
          UInt8.ofNat (c.toNat / 64 % 64 + 128), UInt8.ofNat (c.toNat % 64 + 128)] := rfl
  rw [hfold]
  generalize c.toNat = n at hlt
  have h2 : n < 2048 → n / 64 % 32 = n / 64 := by omega
  have h3 : n < 65536 → n / 4096 % 16 = n / 4096 := by omega
  have h4 : n / 262144 % 8 = n / 262144 := by omega
  unfold encode extra
  split_ifs <;> try omega
  all_goals
    simp only [mark, tail, continuation, List.map_cons, List.map_nil, List.nil_append,
      List.cons_append, Nat.div_div_eq_div_mul, Nat.reducePow, Nat.reduceMul, Nat.div_one,
      Nat.zero_add, pow_one, Nat.add_comm 128, Nat.add_comm 192, Nat.add_comm 224,
      Nat.add_comm 240]
  · rw [h2 ‹_›]
  · rw [h3 ‹_›]
  · rw [h4]

end DevFramework.Utf8
