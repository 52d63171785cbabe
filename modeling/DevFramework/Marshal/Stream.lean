import DevFramework.Marshal.Record
import DevFramework.Foundations.Framing

/-! # Streams of records

`marshal` writes one block for every record; `unmarshal<U>` turns every block it reads into an
object of its own type, cut or filled with zeros. A stream that is not a concatenation of blocks is
to give the empty vector. It does, except where the walk along the blocks comes to a length field
that the bound check lets through (`Misread`): the check compares the length with the bytes that
remain including the four of the field itself, and a negative length is never too large.
-/
namespace DevFramework.Marshal
open Bytes Framing
set_option autoImplicit false
set_option maxHeartbeats 250000

/-- One block of a stream. -/
def block (b : List UInt8) : List UInt8 := leBytes 4 b.length ++ b

@[simp] theorem block_length (b : List UInt8) : (block b).length = 4 + b.length := by
  simp [block]

/-- The object of type `T` that a block is read into. -/
def decode (T : RecordType) (b : List UInt8) : Obj T :=
  ⟨b.take T.size ++ List.replicate (T.size - b.length) 0, by simp; omega⟩

/-- `src` is a concatenation of blocks. -/
def Blocks (src : List UInt8) (bodies : List (List UInt8)) : Prop :=
  src = bodies.flatMap block ∧ ∀ b ∈ bodies, b.length < 2147483648

/-! ## Conversions and checked reads -/

/-- A negative `int` becomes a `size_t` that no string can have, unless it is almost zero. -/
theorem maxSize_lt_toSize (t : Target) {z : ℤ} (h : -2147483648 ≤ z) (h0 : z < 0) :
    maxSize t < toSize t z := by
  have hmod : z % 2 ^ t.sizeBits = z + 2 ^ t.sizeBits := by
    rw [← Int.add_emod_right]
    refine Int.emod_eq_of_lt ?_ ?_ <;> cases t <;> simp only [Target.sizeBits] <;> omega
  rw [toSize, hmod]
  cases t <;> simp only [Target.sizeBits, maxSize] <;> omega

theorem maxSize_lt (t : Target) : 2147483647 ≤ maxSize t := by
  cases t <;> simp [maxSize, Target.sizeBits]

theorem peek_ok {data : List UInt8} {i n : ℕ} (h : i + n ≤ data.length) :
    peek data i n = .ok ((data.drop i).take n) := by
  rw [peek, if_pos (by omega), List.drop_append_of_le_length (by omega),
    List.take_append_of_le_length (by rw [List.length_drop]; omega)]

theorem peek_prefix {as bs : List UInt8} {n : ℕ} (h : as.length = n) :
    peek (as ++ bs) 0 n = .ok as := by
  rw [peek_ok (by simp [h]), List.drop_zero, ← h, List.take_left]

theorem overwrite_zero {T : RecordType} (bs : List UInt8) (h : bs.length ≤ T.size) :
    (Obj.zero T).overwrite bs = .ok (decode T bs) := by
  simp only [Obj.overwrite, Obj.zero, dif_pos h]
  congr 1
  apply Obj.ext
  simp [decode, List.take_of_length_le h]

/-! ## One block -/

theorem front_int32 {b : List UInt8} (h : b.length < 2147483648) (rest : List UInt8) :
    int32 ((block b ++ rest).take 4) = b.length := by
  rw [block, List.append_assoc, List.take_left' (leBytes_length 4 _), int32_leBytes h]

theorem Obj.unmarshal_block (t : Target) (T : RecordType) {b : List UInt8}
    (h : b.length < 2147483648) : (Obj.zero T).unmarshal t (block b) = .ok (true, decode T b) := by
  have hlen := T.size_int
  have hpeek : peek (block b) 0 4 = .ok (leBytes 4 b.length) := peek_prefix (leBytes_length 4 _)
  have htmp : (if (b.length : ℤ) ≠ T.size then
      (if (b.length : ℤ) < T.size then (b.length : ℤ) else T.size) else b.length) =
      (min b.length T.size : ℕ) := by
    split <;> [split; skip] <;> omega
  have hsize : toSize t ((min b.length T.size : ℕ) : ℤ) = min b.length T.size := by
    rw [toSize_of_nonneg t (by omega) (by omega), Int.toNat_natCast]
  have hbody : peek (block b) 4 (min b.length T.size) = .ok (b.take T.size) := by
    have htake : b.take (min b.length T.size) = b.take T.size := by
      rw [List.take_eq_take_iff]
      omega
    rw [peek_ok (by rw [block_length]; omega), block, List.drop_left' (leBytes_length 4 _), htake]
  have hdecode : decode T (b.take T.size) = decode T b := by
    apply Obj.ext
    simp only [decode, List.take_take, min_self, List.length_take]
    congr 2
    omega
  have hover : (Obj.zero T).overwrite (b.take T.size) = .ok (decode T b) := by
    rw [overwrite_zero _ (by simp), hdecode]
  have hne : (block b).isEmpty = false := by
    rw [List.isEmpty_eq_false_iff, ne_eq, ← List.length_eq_zero_iff, block_length]
    omega
  simp only [Obj.unmarshal, hne, Bool.false_eq_true, if_false, hpeek, bind, Except.bind,
    int32_leBytes h, htmp, hsize, hbody, hover]
  rfl

theorem unmarshalLoop_block (t : Target) (T : RecordType) {b rest : List UInt8}
    (h : b.length < 2147483648) (hfits : (block b ++ rest).length ≤ maxSize t) (fuel : ℕ)
    (objs : List (Obj T)) :
    unmarshalLoop t T (fuel + 1) (block b ++ rest) objs =
      unmarshalLoop t T fuel rest (objs ++ [decode T b]) := by
  have hlen : (block b ++ rest).length = 4 + b.length + rest.length := by simp
  have hpeek : peek (block b ++ rest) 0 4 = .ok ((block b ++ rest).take 4) := by
    rw [peek_ok (by omega), List.drop_zero]
  have hsize : toSize t ((b.length : ℤ) + 4) = (block b).length := by
    rw [toSize_of_nonneg t (by omega) (by omega), block_length]
    omega
  have hnew : newString t (block b ++ rest) (block b).length = .ok (block b) := by
    rw [newString, if_neg (by rw [block_length]; omega), peek_prefix rfl]
  have hdrop : (block b ++ rest).drop (block b).length = rest := List.drop_left
  have hfront := front_int32 h rest
  cases hcs : block b ++ rest with
  | nil =>
    rw [hcs, List.length_nil] at hlen
    omega
  | cons c cs =>
    rw [hcs] at hlen hpeek hnew hdrop hfront
    simp only [unmarshalLoop]
    rw [if_neg (by omega)]
    simp only [hpeek, bind, Except.bind, hfront]
    rw [if_neg (by omega)]
    simp only [hsize, hnew, Obj.unmarshal_block t T h, Bool.not_true, Bool.false_eq_true, if_false,
      pure, Except.pure, hdrop]

theorem unmarshalLoop_blocks (t : Target) (T : RecordType) (bodies : List (List UInt8))
    (rest : List UInt8) (h : ∀ b ∈ bodies, b.length < 2147483648)
    (hfits : (bodies.flatMap block ++ rest).length ≤ maxSize t) (fuel : ℕ) (objs : List (Obj T)) :
    unmarshalLoop t T (bodies.length + fuel) (bodies.flatMap block ++ rest) objs =
      unmarshalLoop t T fuel rest (objs ++ bodies.map (decode T)) := by
  induction bodies generalizing objs with
  | nil => simp
  | cons b bodies ih =>
    rw [List.flatMap_cons, List.append_assoc] at hfits ⊢
    have hrest : (bodies.flatMap block ++ rest).length ≤ maxSize t := by
      rw [List.length_append] at hfits
      omega
    rw [List.length_cons, Nat.add_right_comm,
      unmarshalLoop_block t T (h b (by simp)) hfits,
      ih (fun c hc => h c (by simp [hc])) hrest]
    simp

theorem length_le_flatMap_block (bodies : List (List UInt8)) :
    bodies.length ≤ (bodies.flatMap block).length := by
  induction bodies with
  | nil => simp
  | cons b bodies ih =>
    simp only [List.flatMap_cons, List.length_append, List.length_cons, block_length]
    omega

/-- `unmarshal<T>` of blocks and a rest: the blocks are read, and the loop goes on at the rest with
fuel for every byte of it. -/
theorem unmarshal_blocks (t : Target) (T : RecordType) (bodies : List (List UInt8))
    (rest : List UInt8) (h : ∀ b ∈ bodies, b.length < 2147483648)
    (hfits : (bodies.flatMap block ++ rest).length ≤ maxSize t) :
    ∃ fuel, rest.length ≤ fuel ∧ unmarshal t T (bodies.flatMap block ++ rest) =
      unmarshalLoop t T fuel rest (bodies.map (decode T)) := by
  have hlen := length_le_flatMap_block bodies
  cases hsrc : (bodies.flatMap block ++ rest).isEmpty with
  | true =>
    obtain ⟨hb, rfl⟩ := List.append_eq_nil_iff.mp (List.isEmpty_iff.mp hsrc)
    rw [hb] at hlen
    obtain rfl : bodies = [] := List.length_eq_zero_iff.mp (by simpa using hlen)
    exact ⟨0, le_rfl, rfl⟩
  | false =>
    refine ⟨(bodies.flatMap block ++ rest).length - bodies.length, ?_, ?_⟩
    · rw [List.length_append]
      omega
    · rw [List.length_append] at *
      have hfuel := unmarshalLoop_blocks t T bodies rest h (by simpa using hfits)
        ((bodies.flatMap block).length + rest.length - bodies.length) []
      rw [Nat.add_sub_cancel' (by omega)] at hfuel
      simpa [unmarshal, hsrc] using hfuel

end DevFramework.Marshal
