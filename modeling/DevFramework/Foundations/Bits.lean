import Mathlib.Data.List.Induction
import Mathlib.Tactic.Ring

/-! # Numbers cut into bits and put together in groups of another width

A number of `w` bits is written out with its highest bit first; a list of bits is read off in
groups of `w`. Writing numbers of one width and reading groups of another is how a text encoding
of bytes works, whatever the two widths are.
-/
namespace DevFramework.Bits
set_option autoImplicit false
set_option maxHeartbeats 250000

/-- The lowest `w` bits of a number, the highest of them first. -/
def bits : ℕ → ℕ → List Bool
  | 0, _ => []
  | w + 1, n => n.testBit w :: bits w n

/-- The number that some bits spell. -/
def spell (bs : List Bool) : ℕ := bs.foldl (fun n b => 2 * n + b.toNat) 0

/-- The numbers that the first `k` groups of `w` bits spell. -/
def groups (w : ℕ) : ℕ → List Bool → List ℕ
  | 0, _ => []
  | k + 1, bs => spell (bs.take w) :: groups w k (bs.drop w)

/-! ## One number -/

@[simp] theorem bits_length (w n : ℕ) : (bits w n).length = w := by
  induction w with
  | zero => rfl
  | succ w ih => rw [bits, List.length_cons, ih]

theorem bits_mod (w n : ℕ) {v : ℕ} (h : w ≤ v) : bits w (n % 2 ^ v) = bits w n := by
  induction w with
  | zero => rfl
  | succ w ih =>
    rw [bits, bits, ih (by omega), Nat.testBit_mod_two_pow, decide_eq_true (by omega),
      Bool.true_and]

/-- The upper and the lower bits. -/
theorem bits_add (u v n : ℕ) : bits (u + v) n = bits u (n / 2 ^ v) ++ bits v n := by
  induction u with
  | zero => rw [Nat.zero_add, bits, List.nil_append]
  | succ u ih =>
    have hsucc : u + 1 + v = u + v + 1 := by omega
    rw [hsucc, bits, bits, ih, Nat.testBit_div_two_pow, List.cons_append]

theorem bits_append (u v a b : ℕ) :
    bits u a ++ bits v b = bits (u + v) (a % 2 ^ u * 2 ^ v + b % 2 ^ v) := by
  have hpos : 0 < 2 ^ v := Nat.two_pow_pos v
  have hlow : (a % 2 ^ u * 2 ^ v + b % 2 ^ v) % 2 ^ v = b % 2 ^ v := by
    rw [Nat.mul_add_mod_self_right, Nat.mod_mod]
  have hhigh : (a % 2 ^ u * 2 ^ v + b % 2 ^ v) / 2 ^ v = a % 2 ^ u := by
    rw [Nat.add_comm, Nat.add_mul_div_right _ _ hpos, Nat.div_eq_of_lt (Nat.mod_lt _ hpos),
      Nat.zero_add]
  rw [bits_add, hhigh, bits_mod u a (Nat.le_refl u), ← bits_mod v (_ + _) (Nat.le_refl v), hlow,
    bits_mod v b (Nat.le_refl v)]

/-- The upper bits of `b` go to `a`. -/
theorem bits_shift (u v w a b : ℕ) (bs : List Bool) :
    bits u a ++ (bits (v + w) b ++ bs) =
      bits (u + v) (a % 2 ^ u * 2 ^ v + b / 2 ^ w % 2 ^ v) ++ (bits w b ++ bs) := by
  rw [bits_add v w b, ← bits_append, List.append_assoc, List.append_assoc]

theorem spell_concat (bs : List Bool) (b : Bool) : spell (bs ++ [b]) = 2 * spell bs + b.toNat := by
  rw [spell, List.foldl_append]
  rfl

theorem foldl_bits (w n acc : ℕ) :
    (bits w n).foldl (fun n b => 2 * n + b.toNat) acc = acc * 2 ^ w + n % 2 ^ w := by
  induction w generalizing acc with
  | zero => simp [bits, Nat.mod_one]
  | succ w ih =>
    rw [bits, List.foldl_cons, ih, Nat.mod_pow_succ, ← Nat.toNat_testBit, pow_succ]
    ring

theorem spell_bits {w n : ℕ} (h : n < 2 ^ w) : spell (bits w n) = n := by
  rw [spell, foldl_bits, Nat.zero_mul, Nat.zero_add, Nat.mod_eq_of_lt h]

theorem bits_spell (bs : List Bool) : bits bs.length (spell bs) = bs := by
  induction bs using List.reverseRecOn with
  | nil => rfl
  | append_singleton bs b ih =>
    have hhalf : (2 * spell bs + b.toNat) / 2 ^ 1 = spell bs := by
      have hb := b.toNat_lt
      omega
    have hlast : bits 1 (2 * spell bs + b.toNat) = [b] := by
      cases b <;> simp [bits, Nat.testBit_zero]
    rw [List.length_append, List.length_singleton, bits_add, spell_concat, hhalf, ih, hlast]

theorem spell_lt (bs : List Bool) : spell bs < 2 ^ bs.length := by
  induction bs using List.reverseRecOn with
  | nil => simp [spell]
  | append_singleton bs b ih =>
    have hb := b.toNat_lt
    rw [spell_concat, List.length_append, List.length_singleton, pow_succ]
    omega

/-! ## Many numbers -/

theorem groups_cons {w n : ℕ} (h : n < 2 ^ w) (k : ℕ) (bs : List Bool) :
    groups w (k + 1) (bits w n ++ bs) = n :: groups w k bs := by
  have htake : (bits w n ++ bs).take w = bits w n := List.take_left' (bits_length w n)
  have hdrop : (bits w n ++ bs).drop w = bs := List.drop_left' (bits_length w n)
  rw [groups, htake, hdrop, spell_bits h]

theorem groups_length (w k : ℕ) (bs : List Bool) : (groups w k bs).length = k := by
  induction k generalizing bs with
  | zero => rfl
  | succ k ih => rw [groups, List.length_cons, ih]

theorem groups_take (w k j : ℕ) (bs : List Bool) :
    (groups w (k + j) bs).take k = groups w k bs := by
  induction k generalizing bs with
  | zero => rfl
  | succ k ih =>
    have hsucc : k + 1 + j = k + j + 1 := by omega
    rw [hsucc, groups, groups, List.take_succ_cons, ih]

theorem groups_lt (w k : ℕ) (bs : List Bool) : ∀ n ∈ groups w k bs, n < 2 ^ w := by
  induction k generalizing bs with
  | zero => exact fun n hn => absurd hn List.not_mem_nil
  | succ k ih =>
    intro n hn
    rw [groups, List.mem_cons] at hn
    obtain rfl | hn := hn
    · refine Nat.lt_of_lt_of_le (spell_lt _) (Nat.pow_le_pow_right (by omega) ?_)
      rw [List.length_take]
      omega
    · exact ih _ n hn

theorem flatMap_bits_length (w : ℕ) (ns : List ℕ) :
    (ns.flatMap (bits w)).length = ns.length * w := by
  induction ns with
  | nil => simp
  | cons n ns ih =>
    rw [List.flatMap_cons, List.length_append, bits_length, ih, List.length_cons, Nat.succ_mul,
      Nat.add_comm]

/-- Numbers written out one behind the other are read back in groups of their width. -/
theorem groups_flatMap {w : ℕ} {ns : List ℕ} (h : ∀ n ∈ ns, n < 2 ^ w) (rest : List Bool) :
    groups w ns.length (ns.flatMap (bits w) ++ rest) = ns := by
  induction ns with
  | nil => rfl
  | cons n ns ih =>
    rw [List.length_cons, List.flatMap_cons, List.append_assoc,
      groups_cons (h n List.mem_cons_self), ih fun m hm => h m (List.mem_cons_of_mem n hm)]

/-- Groups that were read off are written out as the bits they were read from. -/
theorem flatMap_groups {w k : ℕ} {bs : List Bool} (h : k * w ≤ bs.length) :
    (groups w k bs).flatMap (bits w) = bs.take (k * w) := by
  induction k generalizing bs with
  | zero => simp [groups]
  | succ k ih =>
    rw [Nat.succ_mul] at h
    have hlen : (bs.take w).length = w := by
      rw [List.length_take]
      omega
    have hfirst : bits w (spell (bs.take w)) = bs.take w := by
      have hspell := bits_spell (bs.take w)
      rwa [hlen] at hspell
    have hrest : k * w ≤ (bs.drop w).length := by
      rw [List.length_drop]
      omega
    rw [groups, List.flatMap_cons, hfirst, ih hrest, Nat.succ_mul, Nat.add_comm (k * w) w,
      List.take_add]

/-- Out of one width into another and back: nothing is lost if the groups take all the bits. -/
theorem groups_groups {w v k : ℕ} {ns : List ℕ} (h : ∀ n ∈ ns, n < 2 ^ w) (rest : List Bool)
    (hall : ns.length * w ≤ k * v) (hrest : k * v ≤ ns.length * w + rest.length) :
    groups w ns.length ((groups v k (ns.flatMap (bits w) ++ rest)).flatMap (bits v)) = ns := by
  have hlen := flatMap_bits_length w ns
  rw [flatMap_groups (by rw [List.length_append, hlen]; exact hrest), List.take_append, hlen,
    List.take_of_length_le (by rw [hlen]; exact hall)]
  exact groups_flatMap h _

end DevFramework.Bits
