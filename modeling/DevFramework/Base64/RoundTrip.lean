import DevFramework.Base64.Base64
import DevFramework.Foundations.Bits
import Mathlib.Data.List.TakeWhile

/-! # What base64 computes

Both functions read the bits of their input in groups of another width: the encoder six at a time,
with zeros behind the last byte, and the decoder eight at a time, without the bits that make no
byte. A round of the encoder takes three bytes and one of the decoder four characters, so the
inductions go by threes and by fours, and the tails are their last cases.
-/
namespace DevFramework.Base64
open Bits
set_option autoImplicit false
set_option maxHeartbeats 250000

/-! ## The alphabet -/

/-- The test of the decoder accepts the alphabet. -/
theorem isBase64_iff (c : UInt8) : isBase64 c = true ↔ c ∈ base64Chars := by
  constructor
  · intro h
    simp only [isBase64, isalnum, Bool.or_eq_true, Bool.and_eq_true, decide_eq_true_eq,
      beq_iff_eq, UInt8.le_iff_toNat_le, ← UInt8.toNat_inj, UInt8.reduceToNat] at h
    refine List.mem_map.mpr ⟨c.toNat, ?_, UInt8.ofNat_toNat⟩
    simp only [List.mem_append, List.mem_range'_1, List.mem_cons, List.not_mem_nil, or_false]
    omega
  · have hall : base64Chars.all isBase64 = true := by decide +kernel
    exact fun hc => List.all_eq_true.mp hall c hc

theorem pad_not_mem : pad ∉ base64Chars := by decide

/-- The six bits that a character of the alphabet stands for. -/
def value (c : UInt8) : ℕ := base64Chars.idxOf c

/-- The character that stands for six bits. -/
def chr (n : ℕ) : UInt8 := base64Chars.getD n 0

theorem value_lt {c : UInt8} (h : c ∈ base64Chars) : value c < 64 :=
  List.idxOf_lt_length_of_mem h

theorem find_toNat {c : UInt8} (h : c ∈ base64Chars) : (find c).toNat = value c := by
  have hlt := value_lt h
  rw [find, if_pos h, UInt8.toNat_ofNat', value]
  exact Nat.mod_eq_of_lt (by unfold value at hlt; omega)

theorem chr_mem {n : ℕ} (h : n < 64) : chr n ∈ base64Chars := by
  have hall : ∀ m < 64, chr m ∈ base64Chars := by decide +kernel
  exact hall n h

theorem value_chr {n : ℕ} (h : n < 64) : value (chr n) = n := by
  have hall : ∀ m < 64, value (chr m) = m := by decide +kernel
  exact hall n h

/-! ## The bit arithmetic -/

/-- Bits taken out from above `s` others. -/
theorem toNat_and_shiftRight (c : UInt8) {m s : UInt8} {k : ℕ} (hs : s.toNat < 8)
    (hm : m.toNat >>> s.toNat = 2 ^ k - 1) :
    ((c &&& m) >>> s).toNat = c.toNat / 2 ^ s.toNat % 2 ^ k := by
  rw [UInt8.toNat_shiftRight, UInt8.toNat_and, Nat.mod_eq_of_lt hs, Nat.shiftRight_and_distrib, hm,
    Nat.and_two_pow_sub_one_eq_mod, Nat.shiftRight_eq_div_pow]

/-- The lowest bits, with room made below them. -/
theorem toNat_and_shiftLeft (c : UInt8) {m s : UInt8} {k : ℕ} (hs : s.toNat < 8)
    (hm : m.toNat = 2 ^ k - 1) (hk : k + s.toNat ≤ 8) :
    ((c &&& m) <<< s).toNat = c.toNat % 2 ^ k * 2 ^ s.toNat := by
  have hlt : c.toNat % 2 ^ k * 2 ^ s.toNat < 2 ^ 8 := by
    calc c.toNat % 2 ^ k * 2 ^ s.toNat
        < 2 ^ k * 2 ^ s.toNat :=
          Nat.mul_lt_mul_of_pos_right (Nat.mod_lt _ (Nat.two_pow_pos k)) (Nat.two_pow_pos _)
      _ = 2 ^ (k + s.toNat) := (pow_add 2 k s.toNat).symm
      _ ≤ 2 ^ 8 := Nat.pow_le_pow_right (by omega) hk
  rw [UInt8.toNat_shiftLeft, UInt8.toNat_and, Nat.mod_eq_of_lt hs, hm,
    Nat.and_two_pow_sub_one_eq_mod, Nat.shiftLeft_eq, Nat.mod_eq_of_lt hlt]

/-- The low bits of one byte above some bits of another. -/
theorem toNat_fields (c d : UInt8) {m s n r : UInt8} {j k : ℕ} (hs : s.toNat < 8)
    (hm : m.toNat = 2 ^ k - 1) (hk : k + s.toNat ≤ 8) (hr : r.toNat < 8)
    (hn : n.toNat >>> r.toNat = 2 ^ j - 1) (hj : j ≤ s.toNat) :
    (((c &&& m) <<< s) + ((d &&& n) >>> r)).toNat =
      c.toNat % 2 ^ k * 2 ^ s.toNat + d.toNat / 2 ^ r.toNat % 2 ^ j := by
  have hlow : d.toNat / 2 ^ r.toNat % 2 ^ j < 2 ^ s.toNat :=
    Nat.lt_of_lt_of_le (Nat.mod_lt _ (Nat.two_pow_pos j)) (Nat.pow_le_pow_right (by omega) hj)
  have hlt : c.toNat % 2 ^ k * 2 ^ s.toNat + d.toNat / 2 ^ r.toNat % 2 ^ j < 2 ^ 8 := by
    calc c.toNat % 2 ^ k * 2 ^ s.toNat + d.toNat / 2 ^ r.toNat % 2 ^ j
        < c.toNat % 2 ^ k * 2 ^ s.toNat + 2 ^ s.toNat := Nat.add_lt_add_left hlow _
      _ = (c.toNat % 2 ^ k + 1) * 2 ^ s.toNat := (Nat.succ_mul _ _).symm
      _ ≤ 2 ^ k * 2 ^ s.toNat :=
          Nat.mul_le_mul_right _ (Nat.mod_lt _ (Nat.two_pow_pos k))
      _ = 2 ^ (k + s.toNat) := (pow_add 2 k s.toNat).symm
      _ ≤ 2 ^ 8 := Nat.pow_le_pow_right (by omega) hk
  rw [UInt8.toNat_add, toNat_and_shiftLeft c hs hm hk, toNat_and_shiftRight d hr hn,
    Nat.mod_eq_of_lt hlt]

/-- Four groups of six bits from three bytes. -/
def quad (x y z : ℕ) : List ℕ := [x / 4, x % 4 * 16 + y / 16, y % 16 * 4 + z / 64, z % 64]

/-- The characters of a group of the encoder. -/
theorem split3_chars (a : Fin 3 → UInt8) :
    (List.ofFn (split3 a)).map charAt =
      (quad (a 0).toNat (a 1).toNat (a 2).toNat).map chr := by
  have hc0 := (a 0).toNat_lt
  have hc1 := (a 1).toNat_lt
  have hc2 := (a 2).toNat_lt
  have h0 : (split3 a 0).toNat = (a 0).toNat / 4 := by
    have hval : (split3 a 0).toNat = (a 0).toNat / 2 ^ 2 % 2 ^ 6 :=
      toNat_and_shiftRight (a 0) (m := 0xfc) (s := 2) (by decide) rfl
    omega
  have h1 : (split3 a 1).toNat = (a 0).toNat % 4 * 16 + (a 1).toNat / 16 := by
    have hval : (split3 a 1).toNat = (a 0).toNat % 2 ^ 2 * 2 ^ 4 + (a 1).toNat / 2 ^ 4 % 2 ^ 4 :=
      toNat_fields (a 0) (a 1) (m := 0x03) (s := 4) (n := 0xf0) (r := 4)
        (by decide) rfl (by decide) (by decide) rfl (by decide)
    omega
  have h2 : (split3 a 2).toNat = (a 1).toNat % 16 * 4 + (a 2).toNat / 64 := by
    have hval : (split3 a 2).toNat = (a 1).toNat % 2 ^ 4 * 2 ^ 2 + (a 2).toNat / 2 ^ 6 % 2 ^ 2 :=
      toNat_fields (a 1) (a 2) (m := 0x0f) (s := 2) (n := 0xc0) (r := 6)
        (by decide) rfl (by decide) (by decide) rfl (by decide)
    omega
  have h3 : (split3 a 3).toNat = (a 2).toNat % 64 :=
    (UInt8.toNat_and _ _).trans (Nat.and_two_pow_sub_one_eq_mod _ 6)
  have hfour : List.ofFn (split3 a) = [split3 a 0, split3 a 1, split3 a 2, split3 a 3] := rfl
  rw [hfour, quad, ← h0, ← h1, ← h2, ← h3]
  rfl

/-- The bytes of a group of the decoder; the third is one if the fourth value has six bits. -/
theorem join4_bytes (a : Fin 4 → UInt8) :
    join4 a 0 = UInt8.ofNat ((a 0).toNat % 64 * 4 + (a 1).toNat / 16 % 4) ∧
      join4 a 1 = UInt8.ofNat ((a 1).toNat % 16 * 16 + (a 2).toNat / 4 % 16) ∧
      ((a 3).toNat < 64 → join4 a 2 = UInt8.ofNat ((a 2).toNat % 4 * 64 + (a 3).toNat % 64)) := by
  have hbyte : ∀ {c : UInt8} {n : ℕ}, c.toNat = n → c = UInt8.ofNat n := fun h => by
    rw [← h, UInt8.ofNat_toNat]
  refine ⟨hbyte ?_, hbyte ?_, fun ha => hbyte ?_⟩
  · have hlow : (a 0 <<< 2).toNat = (a 0).toNat * 4 % 2 ^ 8 := by
      rw [UInt8.toNat_shiftLeft, Nat.shiftLeft_eq]
      rfl
    have hhigh := toNat_and_shiftRight (a 1) (m := 0x30) (s := 4) (k := 2) (by decide) rfl
    have hval : (join4 a 0).toNat =
        ((a 0 <<< 2).toNat + ((a 1 &&& 0x30) >>> 4).toNat) % 2 ^ 8 := UInt8.toNat_add _ _
    rw [hval, hlow, hhigh]
    simp only [UInt8.reduceToNat]
    omega
  · have hval : (join4 a 1).toNat = (a 1).toNat % 2 ^ 4 * 2 ^ 4 + (a 2).toNat / 2 ^ 2 % 2 ^ 4 :=
      toNat_fields (a 1) (a 2) (m := 0xf) (s := 4) (n := 0x3c) (r := 2)
        (by decide) rfl (by decide) (by decide) rfl (by decide)
    omega
  · have hlow := toNat_and_shiftLeft (a 2) (m := 0x3) (s := 6) (k := 2) (by decide) rfl (by decide)
    have hval : (join4 a 2).toNat = (((a 2 &&& 0x3) <<< 6).toNat + (a 3).toNat) % 2 ^ 8 :=
      UInt8.toNat_add _ _
    rw [hval, hlow]
    simp only [UInt8.reduceToNat]
    omega

/-! ## The encoder -/

/-- The groups of six that some bytes make, the last filled up with zeros. -/
def sextets (x : List UInt8) : List ℕ :=
  groups 6 ((4 * x.length + 2) / 3) ((x.map UInt8.toNat).flatMap (bits 8) ++ bits 16 0)

/-- Three bytes make four groups. -/
theorem groups_three {x y z : ℕ} (hx : x < 256) (hy : y < 256) (hz : z < 256) (k : ℕ)
    (bs : List Bool) :
    groups 6 (4 + k) (bits 8 x ++ (bits 8 y ++ (bits 8 z ++ bs))) =
      quad x y z ++ groups 6 k bs := by
  have hfirst := bits_shift 0 6 2 0 x (bits 8 y ++ (bits 8 z ++ bs))
  have hsecond := bits_shift 2 4 4 x y (bits 8 z ++ bs)
  have hthird := bits_shift 4 2 6 y z bs
  have hx' : 0 % 2 ^ 0 * 2 ^ 6 + x / 2 ^ 2 % 2 ^ 6 = x / 4 := by omega
  have hy' : x % 2 ^ 2 * 2 ^ 4 + y / 2 ^ 4 % 2 ^ 4 = x % 4 * 16 + y / 16 := by omega
  have hz' : y % 2 ^ 4 * 2 ^ 2 + z / 2 ^ 6 % 2 ^ 2 = y % 16 * 4 + z / 64 := by omega
  rw [hx', bits, List.nil_append] at hfirst
  rw [hy'] at hsecond
  rw [hz', ← bits_mod 6 z (Nat.le_refl 6)] at hthird
  rw [hfirst, hsecond, hthird, Nat.add_comm, groups_cons (by omega), groups_cons (by omega),
    groups_cons (by omega), groups_cons (by omega)]
  rfl

theorem sextets_one (x : UInt8) : sextets [x] = (quad x.toNat 0 0).take 2 := by
  have hbits : ([x].map UInt8.toNat).flatMap (bits 8) ++ bits 16 0 =
      bits 8 x.toNat ++ (bits 8 0 ++ (bits 8 0 ++ [])) := by
    rw [bits_add 8 8 0]
    simp
  have htake := groups_take 6 2 2 (bits 8 x.toNat ++ (bits 8 0 ++ (bits 8 0 ++ [])))
  rw [groups_three x.toNat_lt (by omega) (by omega) 0 [], ← hbits, groups, List.append_nil] at htake
  have hcount : (4 * [x].length + 2) / 3 = 2 := by simp
  rw [sextets, hcount, htake]

theorem sextets_two (x y : UInt8) : sextets [x, y] = (quad x.toNat y.toNat 0).take 3 := by
  have hbits : ([x, y].map UInt8.toNat).flatMap (bits 8) ++ bits 16 0 =
      bits 8 x.toNat ++ (bits 8 y.toNat ++ (bits 8 0 ++ bits 8 0)) := by
    rw [bits_add 8 8 0]
    simp
  have htake := groups_take 6 3 1 (bits 8 x.toNat ++ (bits 8 y.toNat ++ (bits 8 0 ++ bits 8 0)))
  rw [groups_three x.toNat_lt y.toNat_lt (by omega) 0 (bits 8 0), ← hbits, groups,
    List.append_nil] at htake
  have hcount : (4 * [x, y].length + 2) / 3 = 3 := by simp
  rw [sextets, hcount, htake]

theorem sextets_three (x y z : UInt8) (rest : List UInt8) :
    sextets (x :: y :: z :: rest) = quad x.toNat y.toNat z.toNat ++ sextets rest := by
  have hcount : (4 * (x :: y :: z :: rest).length + 2) / 3 = 4 + (4 * rest.length + 2) / 3 := by
    simp only [List.length_cons]
    omega
  rw [sextets, hcount]
  simp only [List.map_cons, List.flatMap_cons, List.append_assoc]
  exact groups_three x.toNat_lt y.toNat_lt z.toNat_lt _ _

/-- What the encoder returns. -/
def encoded (x : List UInt8) : List UInt8 :=
  (sextets x).map chr ++ List.replicate ((3 - x.length % 3) % 3) pad

namespace Encoder

/-- Three turns make a round. -/
theorem turn_three (a : Fin 3 → UInt8) (ret : List UInt8) (x y z : UInt8) :
    ∃ a', (((Encoder.mk 0 a ret).turn x).turn y).turn z =
      ⟨0, a', ret ++ (quad x.toNat y.toNat z.toNat).map chr⟩ := by
  refine ⟨Function.update (Function.update (Function.update a 0 x) 1 y) 2 z, ?_⟩
  have hchars := split3_chars (Function.update (Function.update (Function.update a 0 x) 1 y) 2 z)
  exact congrArg (fun cs => Encoder.mk 0 _ (ret ++ cs)) hchars

theorem finish_one (a : Fin 3 → UInt8) (ret : List UInt8) (x : UInt8) :
    ((Encoder.mk 0 a ret).turn x).finish = ret ++ encoded [x] := by
  have hchars := split3_chars (clearFrom 1 (Function.update a 0 x))
  have hrun : ((Encoder.mk 0 a ret).turn x).finish = ret ++
      ((List.ofFn (split3 (clearFrom 1 (Function.update a 0 x)))).take 2).map charAt ++
        List.replicate 2 pad := rfl
  rw [hrun, List.map_take, hchars, encoded, sextets_one, List.map_take, List.append_assoc]
  rfl

theorem finish_two (a : Fin 3 → UInt8) (ret : List UInt8) (x y : UInt8) :
    (((Encoder.mk 0 a ret).turn x).turn y).finish = ret ++ encoded [x, y] := by
  have hchars := split3_chars (clearFrom 2 (Function.update (Function.update a 0 x) 1 y))
  have hrun : (((Encoder.mk 0 a ret).turn x).turn y).finish = ret ++
      ((List.ofFn (split3 (clearFrom 2 (Function.update (Function.update a 0 x) 1 y)))).take
        3).map charAt ++ List.replicate 1 pad := rfl
  rw [hrun, List.map_take, hchars, encoded, sextets_two, List.map_take, List.append_assoc]
  rfl

theorem run_encoded : ∀ (x : List UInt8) (a : Fin 3 → UInt8) (ret : List UInt8),
    (x.foldl turn ⟨0, a, ret⟩).finish = ret ++ encoded x
  | [], _, ret => (List.append_nil ret).symm
  | [x], a, ret => finish_one a ret x
  | [x, y], a, ret => finish_two a ret x y
  | x :: y :: z :: rest, a, ret => by
    obtain ⟨a', hround⟩ := turn_three a ret x y z
    have hpad : (3 - (x :: y :: z :: rest).length % 3) % 3 = (3 - rest.length % 3) % 3 := by
      simp only [List.length_cons]
      omega
    rw [List.foldl_cons, List.foldl_cons, List.foldl_cons, hround, run_encoded rest, encoded,
      encoded, sextets_three, hpad, List.map_append, List.append_assoc, List.append_assoc]

end Encoder

/-! ## The decoder -/

/-- The bytes that some characters make, without the bits that are left over. -/
def decoded (p : List UInt8) : List UInt8 :=
  (groups 8 (6 * p.length / 8) ((p.map value).flatMap (bits 6))).map UInt8.ofNat

section Groups
variable (a b k : ℕ) (bs : List Bool)

theorem groups_first : groups 8 (k + 1) (bits 6 a ++ (bits 6 b ++ bs)) =
    (a % 64 * 4 + b / 16 % 4) :: groups 8 k (bits 4 b ++ bs) := by
  have hshift := bits_shift 6 2 4 a b bs
  rw [hshift]
  exact groups_cons (by omega) k _

theorem groups_second : groups 8 (k + 1) (bits 4 a ++ (bits 6 b ++ bs)) =
    (a % 16 * 16 + b / 4 % 16) :: groups 8 k (bits 2 b ++ bs) := by
  have hshift := bits_shift 4 4 2 a b bs
  rw [hshift]
  exact groups_cons (by omega) k _

theorem groups_third : groups 8 (k + 1) (bits 2 a ++ (bits 6 b ++ bs)) =
    (a % 4 * 64 + b % 64) :: groups 8 k bs := by
  have hshift := bits_append 2 6 a b
  rw [← List.append_assoc, hshift]
  exact groups_cons (by omega) k _

end Groups

theorem decoded_two (c d : UInt8) : decoded [c, d] =
    [UInt8.ofNat (value c % 64 * 4 + value d / 16 % 4)] := by
  have hcount : 6 * [c, d].length / 8 = 0 + 1 := by simp
  rw [decoded, hcount]
  simp only [List.map_cons, List.flatMap_cons, groups_first]
  rfl

theorem decoded_three (c d e : UInt8) : decoded [c, d, e] =
    [UInt8.ofNat (value c % 64 * 4 + value d / 16 % 4),
      UInt8.ofNat (value d % 16 * 16 + value e / 4 % 16)] := by
  have hcount : 6 * [c, d, e].length / 8 = 0 + 1 + 1 := by simp
  rw [decoded, hcount]
  simp only [List.map_cons, List.flatMap_cons, groups_first, groups_second]
  rfl

theorem decoded_four (c d e f : UInt8) (rest : List UInt8) : decoded (c :: d :: e :: f :: rest) =
    [UInt8.ofNat (value c % 64 * 4 + value d / 16 % 4),
      UInt8.ofNat (value d % 16 * 16 + value e / 4 % 16),
      UInt8.ofNat (value e % 4 * 64 + value f % 64)] ++ decoded rest := by
  have hcount : 6 * (c :: d :: e :: f :: rest).length / 8 = 6 * rest.length / 8 + 1 + 1 + 1 := by
    simp only [List.length_cons]
    omega
  rw [decoded, hcount]
  simp only [List.map_cons, List.flatMap_cons, groups_first, groups_second, groups_third]
  rfl

namespace Decoder

/-- Four turns make a round. -/
theorem turn_four (a : Fin 4 → UInt8) (ret : List UInt8) {c d e f : UInt8}
    (hc : c ∈ base64Chars) (hd : d ∈ base64Chars) (he : e ∈ base64Chars) (hf : f ∈ base64Chars) :
    ∃ a', ((((Decoder.mk 0 a ret).turn c).turn d).turn e).turn f =
      ⟨0, a', ret ++ decoded [c, d, e, f]⟩ := by
  let a' : Fin 4 → UInt8 := fun j => find (Function.update (Function.update (Function.update
    (Function.update a 0 c) 1 d) 2 e) 3 f j)
  have hrun : ((((Decoder.mk 0 a ret).turn c).turn d).turn e).turn f =
      ⟨0, a', ret ++ [join4 a' 0, join4 a' 1, join4 a' 2]⟩ := rfl
  obtain ⟨h0, h1, h2⟩ := join4_bytes a'
  have ha0 : (a' 0).toNat = value c := find_toNat hc
  have ha1 : (a' 1).toNat = value d := find_toNat hd
  have ha2 : (a' 2).toNat = value e := find_toNat he
  have ha3 : (a' 3).toNat = value f := find_toNat hf
  have hlt := value_lt hf
  refine ⟨a', ?_⟩
  rw [hrun, h0, h1, h2 (by omega), ha0, ha1, ha2, ha3, decoded_four]
  rfl

theorem finish_one (a : Fin 4 → UInt8) (ret : List UInt8) (c : UInt8) :
    ((Decoder.mk 0 a ret).turn c).finish = ret ++ decoded [c] := by
  have hcount : 6 * [c].length / 8 = 0 := by simp
  rw [decoded, hcount]
  rfl

/-- What the arrays hold in the places without a character reaches no byte that is returned. -/
theorem finish_two (a : Fin 4 → UInt8) (ret : List UInt8) {c d : UInt8}
    (hc : c ∈ base64Chars) (hd : d ∈ base64Chars) :
    (((Decoder.mk 0 a ret).turn c).turn d).finish = ret ++ decoded [c, d] := by
  let a' : Fin 4 → UInt8 := fun j => find (clearFrom 2 (Function.update
    (Function.update a 0 c) 1 d) j)
  have hrun : (((Decoder.mk 0 a ret).turn c).turn d).finish = ret ++ [join4 a' 0] := rfl
  obtain ⟨h0, -, -⟩ := join4_bytes a'
  have ha0 : (a' 0).toNat = value c := find_toNat hc
  have ha1 : (a' 1).toNat = value d := find_toNat hd
  rw [hrun, h0, ha0, ha1, decoded_two]

theorem finish_three (a : Fin 4 → UInt8) (ret : List UInt8) {c d e : UInt8}
    (hc : c ∈ base64Chars) (hd : d ∈ base64Chars) (he : e ∈ base64Chars) :
    ((((Decoder.mk 0 a ret).turn c).turn d).turn e).finish = ret ++ decoded [c, d, e] := by
  let a' : Fin 4 → UInt8 := fun j => find (clearFrom 3 (Function.update (Function.update
    (Function.update a 0 c) 1 d) 2 e) j)
  have hrun : ((((Decoder.mk 0 a ret).turn c).turn d).turn e).finish =
      ret ++ [join4 a' 0, join4 a' 1] := rfl
  obtain ⟨h0, h1, -⟩ := join4_bytes a'
  have ha0 : (a' 0).toNat = value c := find_toNat hc
  have ha1 : (a' 1).toNat = value d := find_toNat hd
  have ha2 : (a' 2).toNat = value e := find_toNat he
  rw [hrun, h0, h1, ha0, ha1, ha2, decoded_three]

theorem run_decoded : ∀ (p : List UInt8) (a : Fin 4 → UInt8) (ret : List UInt8),
    (∀ c ∈ p, c ∈ base64Chars) → (p.foldl turn ⟨0, a, ret⟩).finish = ret ++ decoded p
  | [], _, ret, _ => (List.append_nil ret).symm
  | [c], a, ret, _ => finish_one a ret c
  | [c, d], a, ret, h => finish_two a ret (h c (by simp)) (h d (by simp))
  | [c, d, e], a, ret, h => finish_three a ret (h c (by simp)) (h d (by simp)) (h e (by simp))
  | c :: d :: e :: f :: rest, a, ret, h => by
    obtain ⟨a', hround⟩ := turn_four a ret (h c (by simp)) (h d (by simp)) (h e (by simp))
      (h f (by simp))
    have hrest : ∀ b ∈ rest, b ∈ base64Chars := fun b hb => h b (by simp [hb])
    rw [List.foldl_cons, List.foldl_cons, List.foldl_cons, List.foldl_cons, hround,
      run_decoded rest a' _ hrest, decoded_four c d e f rest, decoded_four c d e f [],
      List.append_assoc, List.append_assoc]
    rfl

/-- The loop stops at the first character outside of the alphabet, and with the string. -/
theorem loop_eq (s : Decoder) (str : List UInt8) :
    s.loop str.length str = (str.takeWhile (· ∈ base64Chars)).foldl turn s := by
  induction str generalizing s with
  | nil => rfl
  | cons c str ih =>
    have hlen : ((c :: str).length : ℤ) - 1 = str.length := by simp
    have hpos : ((c :: str).length : ℤ) ≠ 0 := by
      rw [List.length_cons]
      omega
    by_cases hc : c ∈ base64Chars
    · have hpad : c ≠ pad := fun h => pad_not_mem (h ▸ hc)
      rw [loop, if_pos ⟨hpos, hpad, (isBase64_iff c).mpr hc⟩, hlen, ih,
        List.takeWhile_cons_of_pos (by simpa using hc), List.foldl_cons]
    · rw [loop, if_neg fun h => hc ((isBase64_iff c).mp h.2.2),
        List.takeWhile_cons_of_neg (by simpa using hc), List.foldl_nil]

end Decoder

/-! ## Both -/

theorem encoded_length (x : List UInt8) : (encoded x).length = 4 * ((x.length + 2) / 3) := by
  rw [encoded, List.length_append, List.length_map, sextets, groups_length, List.length_replicate]
  omega

theorem takeWhile_encoded (x : List UInt8) :
    (encoded x).takeWhile (· ∈ base64Chars) = (sextets x).map chr := by
  have hmem : ∀ c ∈ (sextets x).map chr, decide (c ∈ base64Chars) = true := by
    intro c hc
    obtain ⟨n, hn, rfl⟩ := List.mem_map.mp hc
    exact decide_eq_true (chr_mem (groups_lt _ _ _ n hn))
  rw [encoded, List.takeWhile_append_of_pos hmem]
  cases (3 - x.length % 3) % 3 with
  | zero => exact List.append_nil _
  | succ k =>
    rw [List.replicate_succ, List.takeWhile_cons_of_neg (by simpa using pad_not_mem),
      List.append_nil]

/-- Six bits at a time and eight at a time again. -/
theorem decoded_sextets (x : List UInt8) : decoded ((sextets x).map chr) = x := by
  have hvalues : ((sextets x).map chr).map value = sextets x := by
    rw [List.map_map, List.map_congr_left fun n hn => ?_, List.map_id]
    exact value_chr (groups_lt _ _ _ n hn)
  have hcount : 6 * ((sextets x).map chr).length / 8 = (x.map UInt8.toNat).length := by
    rw [List.length_map, sextets, groups_length, List.length_map]
    omega
  have hbytes : ∀ n ∈ x.map UInt8.toNat, n < 2 ^ 8 := by
    intro n hn
    obtain ⟨b, -, rfl⟩ := List.mem_map.mp hn
    exact b.toNat_lt
  have hback := groups_groups (v := 6) (k := (4 * x.length + 2) / 3) hbytes (bits 16 0)
    (by rw [List.length_map]; omega) (by rw [List.length_map, bits_length]; omega)
  rw [decoded, hvalues, hcount, sextets, hback, List.map_map]
  exact (List.map_congr_left fun b _ => UInt8.ofNat_toNat).trans (List.map_id x)

theorem base64Encode_eq (junk : Fin 3 → UInt8) (x : List UInt8) :
    base64Encode junk x x.length = encoded x := by
  unfold base64Encode
  split
  · rename_i hempty
    rw [List.length_eq_zero_iff.mp hempty]
    rfl
  · rw [List.take_length, Encoder.run_encoded, List.nil_append]

theorem base64EncodeData_eq (junk : Fin 3 → UInt8) {x : List UInt8} (hlen : x.length < 2 ^ 32) :
    base64EncodeData junk (some x) x.length = encoded x := by
  rw [← base64Encode_eq junk x]
  show (if x.length = 0 then [] else base64Encode junk x (x.length % 2 ^ 32)) = _
  rw [Nat.mod_eq_of_lt hlen]
  split
  · rename_i hempty
    rw [base64Encode, if_pos hempty]
  · rfl

theorem base64Decode_eq (junk : Fin 4 → UInt8) {s : List UInt8} (hlen : (s.length : ℤ) ≤ intMax) :
    base64Decode junk s = decoded (s.takeWhile (· ∈ base64Chars)) := by
  unfold base64Decode
  split
  · rename_i hempty
    rw [hempty]
    rfl
  · have hlen' : s.length < 2147483648 := by
      unfold intMax at hlen
      omega
    have hin_len : Bytes.signed32 (s.length % 2 ^ 32) = s.length := by
      rw [Nat.mod_eq_of_lt (by omega)]
      exact Bytes.signed32_of_lt hlen'
    have hmem : ∀ c ∈ s.takeWhile (· ∈ base64Chars), c ∈ base64Chars := fun c hc =>
      of_decide_eq_true (List.mem_takeWhile_imp (p := fun c => decide (c ∈ base64Chars)) hc)
    simp only [hin_len]
    rw [Decoder.loop_eq, Decoder.run_decoded _ _ _ hmem, List.nil_append]

/-- Whatever the arrays hold at first. Bytes whose encoding has a length that fits an `int` are
decoded as they were, from either encoder; and of a string the decoder reads the characters before
the first that is not in the alphabet, and returns the whole bytes among the bits they stand for. -/
theorem base64_round_trip (junk3 : Fin 3 → UInt8) (junk4 : Fin 4 → UInt8) :
    (∀ x : List UInt8, (4 * ((x.length + 2) / 3) : ℤ) ≤ intMax →
      base64Decode junk4 (base64Encode junk3 x x.length) = x ∧
        base64Decode junk4 (base64EncodeData junk3 (some x) x.length) = x) ∧
    ∀ s : List UInt8, (s.length : ℤ) ≤ intMax →
      let p := s.takeWhile (· ∈ base64Chars)
      base64Decode junk4 s =
        (groups 8 (6 * p.length / 8) ((p.map value).flatMap (bits 6))).map UInt8.ofNat := by
  refine ⟨fun x hlen => ?_, fun s hlen => base64Decode_eq junk4 hlen⟩
  have hfits : ((encoded x).length : ℤ) ≤ intMax := by
    rw [encoded_length]
    omega
  have hshort : x.length < 2 ^ 32 := by
    unfold intMax at hlen
    omega
  have hback : base64Decode junk4 (encoded x) = x := by
    rw [base64Decode_eq junk4 hfits, takeWhile_encoded, decoded_sextets]
  rw [base64Encode_eq, base64EncodeData_eq junk3 hshort]
  exact ⟨hback, hback⟩

/-- Two bytes through both functions, and five characters before one that is not in the alphabet. -/
theorem base64_round_trip_two :
    base64Decode (fun _ => 7) (base64Encode (fun _ => 9) [77, 97] 2) = [77, 97] ∧
      base64Decode (fun _ => 7) [84, 87, 70, 117, 84, 61, 84] = [77, 97, 110] :=
  ⟨((base64_round_trip _ _).1 [77, 97] (by decide)).1,
    ((base64_round_trip (fun _ => 9) _).2 [84, 87, 70, 117, 84, 61, 84] (by decide)).trans
      (by decide +kernel)⟩

end DevFramework.Base64
