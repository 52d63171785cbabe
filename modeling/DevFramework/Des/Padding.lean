import DevFramework.Foundations.Buffers
import Mathlib.Algebra.Order.Ring.Int

/-! # Padding (`CDES::RunPad`, bas/des.cpp)

`padding` is what des.h says of the three modes: a last block that is not full is filled, and a
block more is added to data that ends with a full one. `runPad` is the code; its two lengths are
32-bit `unsigned`, and it has no result where it writes past `Out`.
-/
namespace DevFramework.Des
open Buffers
set_option autoImplicit false
set_option maxHeartbeats 250000

def PAD_ISO_1 : ℤ := 0
def PAD_ISO_2 : ℤ := 1
def PAD_PKCS_7 : ℤ := 2

/-- What `RunPad` returns and leaves in `Out` and `padlen`. -/
structure Padded where
  ret : Bool
  out : List UInt8
  padlen : ℕ
  deriving DecidableEq, Repr

/-- The second half of `RunPad`: it returns and leaves in `Out`. -/
def fillPad (nType : ℤ) (out : List UInt8) (datalen res : ℕ) : Option (Bool × List UInt8) :=
  if nType = PAD_ISO_1 then
    (write out datalen (List.replicate (8 - res) 0)).map fun out => (true, out)
  else if nType = PAD_ISO_2 then
    -- the zeros start where the 0x80 has just been put
    (write out datalen [0x80]).bind fun out =>
      (write out datalen (List.replicate (7 - res) 0)).map fun out => (true, out)
  else if nType = PAD_PKCS_7 then
    (write out datalen (List.replicate (8 - res) (UInt8.ofNat (8 - res)))).map fun out =>
      (true, out)
  else some (false, out)

def runPad (nType : ℤ) (inp : List UInt8) (datalen : ℕ) (out : List UInt8) (padlen : ℕ) :
    Option Padded :=
  let res := datalen &&& 7
  let total := (datalen + 8 - res) % 2 ^ 32
  if padlen < total then some ⟨false, out, padlen⟩
  else
    (write out 0 (inp.take datalen)).bind fun out =>
      (fillPad nType out datalen res).map fun (ret, out) => ⟨ret, out, total⟩

/-! ## What des.h says -/

/-- The bytes that a mode adds to `n` bytes of data. -/
def padding (nType : ℤ) (n : ℕ) : List UInt8 :=
  if nType = PAD_ISO_2 then 0x80 :: List.replicate (7 - n % 8) 0
  else if nType = PAD_PKCS_7 then List.replicate (8 - n % 8) (UInt8.ofNat (8 - n % 8))
  else List.replicate (8 - n % 8) 0

/-- Takes the padding off again, in the two modes that say where it begins. -/
def unpad (nType : ℤ) (padded : List UInt8) : List UInt8 :=
  if nType = PAD_ISO_2 then (padded.reverse.dropWhile (· = 0)).tail.reverse
  else padded.take (padded.length - (padded.getLastD 0).toNat)

theorem padding_length (nType : ℤ) (n : ℕ) : (padding nType n).length = 8 - n % 8 := by
  unfold padding
  split
  · rw [List.length_cons, List.length_replicate]
    omega
  · split <;> exact List.length_replicate

theorem unpad_iso2 (data : List UInt8) (n : ℕ) :
    unpad PAD_ISO_2 (data ++ padding PAD_ISO_2 n) = data := by
  have hzeros : ∀ k (rest : List UInt8), (List.replicate k 0 ++ rest).dropWhile (· = 0) =
      rest.dropWhile (· = 0) := by
    intro k rest
    induction k with
    | zero => rfl
    | succ k ih => simp [List.replicate_succ]
  rw [unpad, if_pos rfl, padding, if_pos rfl, List.reverse_append, List.reverse_cons,
    List.reverse_replicate, List.append_assoc, hzeros]
  simp

theorem unpad_pkcs7 (data : List UInt8) (n : ℕ) :
    unpad PAD_PKCS_7 (data ++ padding PAD_PKCS_7 n) = data := by
  have hlast : 8 - n % 8 ≠ 0 := by omega
  have hbyte : (UInt8.ofNat (8 - n % 8)).toNat = 8 - n % 8 := by
    rw [UInt8.toNat_ofNat']
    omega
  rw [unpad, if_neg (by decide), padding, if_neg (by decide), if_pos rfl,
    List.getLastD_eq_getLast?, List.getLast?_append, List.getLast?_replicate, if_neg hlast,
    Option.some_or, Option.getD_some, hbyte, List.length_append, List.length_replicate,
    Nat.add_sub_cancel, List.take_left]

/-- Two modes are unambiguous. -/
theorem unpad_padding {nType : ℤ} (h : nType = PAD_ISO_2 ∨ nType = PAD_PKCS_7)
    (data : List UInt8) : unpad nType (data ++ padding nType data.length) = data := by
  obtain rfl | rfl := h
  · exact unpad_iso2 data data.length
  · exact unpad_pkcs7 data data.length

/-! ## What the code does -/

/-- The length of `n` bytes of data with their padding. -/
def paddedLen (n : ℕ) : ℕ := n + (8 - n % 8)

theorem land_seven (n : ℕ) : n &&& 7 = n % 8 := Nat.and_two_pow_sub_one_eq_mod n 3

theorem dvd_paddedLen (n : ℕ) : 8 ∣ paddedLen n := by
  unfold paddedLen
  omega

/-- The modes of des.h. -/
def IsMode (nType : ℤ) : Prop := nType = PAD_ISO_1 ∨ nType = PAD_ISO_2 ∨ nType = PAD_PKCS_7

instance (nType : ℤ) : Decidable (IsMode nType) := by unfold IsMode; infer_instance

section Fill
variable {nType : ℤ} {data rest : List UInt8}

theorem fillPad_other (h : ¬ IsMode nType) (out : List UInt8) (datalen res : ℕ) :
    fillPad nType out datalen res = some (false, out) := by
  unfold IsMode at h
  rw [not_or, not_or] at h
  rw [fillPad, if_neg h.1, if_neg h.2.1, if_neg h.2.2]

theorem fillPad_mode (h : IsMode nType) {out filled : List UInt8} {datalen res : ℕ} {ret : Bool}
    (hfill : fillPad nType out datalen res = some (ret, filled)) : ret = true := by
  have hmap : ∀ {o : Option (List UInt8)}, o.map (fun out => (true, out)) = some (ret, filled) →
      ret = true := fun heq => by
    obtain ⟨_, -, heq⟩ := Option.map_eq_some_iff.mp heq
    exact (congrArg Prod.fst heq).symm
  unfold fillPad at hfill
  obtain rfl | rfl | rfl := h
  · rw [if_pos rfl] at hfill
    exact hmap hfill
  · rw [if_neg (by decide), if_pos rfl] at hfill
    obtain ⟨_, -, hfill⟩ := Option.bind_eq_some_iff.mp hfill
    exact hmap hfill
  · rw [if_neg (by decide), if_neg (by decide), if_pos rfl] at hfill
    exact hmap hfill

/-- Two of the modes fill as documented. -/
theorem fillPad_one (h : nType = PAD_ISO_1 ∨ nType = PAD_PKCS_7)
    (hrest : 8 - data.length % 8 ≤ rest.length) :
    fillPad nType (data ++ rest) data.length (data.length % 8) =
      some (true, data ++ padding nType data.length ++ rest.drop (8 - data.length % 8)) := by
  have hlen := padding_length nType data.length
  have hwrite := write_behind data rest (padding nType data.length) (by rw [hlen]; exact hrest)
  rw [hlen] at hwrite
  obtain rfl | rfl := h
  · rw [fillPad, if_pos rfl]
    exact congrArg (Option.map _) hwrite
  · rw [fillPad, if_neg (by decide), if_neg (by decide), if_pos rfl]
    exact congrArg (Option.map _) hwrite

/-- The mode with two fillings: the zeros come over the 0x80, and the last byte is not filled. -/
theorem fillPad_two (hrest : 8 - data.length % 8 ≤ rest.length) :
    fillPad PAD_ISO_2 (data ++ rest) data.length (data.length % 8) =
      some (true, data ++ List.replicate (7 - data.length % 8) 0 ++
        (0x80 :: rest.tail).drop (7 - data.length % 8)) := by
  have hmark : write (data ++ rest) data.length [0x80] = some (data ++ 0x80 :: rest.tail) := by
    have hwrite := write_behind data rest [0x80] (by rw [List.length_singleton]; omega)
    rwa [List.append_assoc, List.singleton_append, List.length_singleton, List.drop_one] at hwrite
  have hzeros := write_behind data (0x80 :: rest.tail)
    (List.replicate (7 - data.length % 8) (0 : UInt8)) (by
      rw [List.length_replicate, List.length_cons, List.length_tail]
      omega)
  rw [List.length_replicate] at hzeros
  rw [fillPad, if_neg (by decide), if_pos rfl, hmark, Option.bind_some, hzeros, Option.map_some]

end Fill

section Run
variable {nType : ℤ} {data out : List UInt8}

theorem runPad_eq (nType : ℤ) (data out : List UInt8) :
    runPad nType data data.length out out.length =
      if out.length < paddedLen data.length % 2 ^ 32 then some ⟨false, out, out.length⟩
      else (write out 0 data).bind fun out =>
        (fillPad nType out data.length (data.length % 8)).map fun (ret, out) =>
          ⟨ret, out, paddedLen data.length % 2 ^ 32⟩ := by
  have htotal : data.length + 8 - data.length % 8 = paddedLen data.length := by
    unfold paddedLen
    omega
  simp only [runPad, land_seven, htotal, List.take_length]

theorem runPad_small (h : out.length < paddedLen data.length % 2 ^ 32) :
    runPad nType data data.length out out.length = some ⟨false, out, out.length⟩ := by
  rw [runPad_eq, if_pos h]

/-- With a buffer that is large enough the sum does not wrap and the data is copied. -/
theorem runPad_large (h : paddedLen data.length ≤ out.length) (hout : out.length < 2 ^ 32) :
    runPad nType data data.length out out.length =
      (fillPad nType (data ++ out.drop data.length) data.length (data.length % 8)).map
        fun (ret, out) => ⟨ret, out, paddedLen data.length⟩ := by
  have hmod : paddedLen data.length % 2 ^ 32 = paddedLen data.length := Nat.mod_eq_of_lt (by omega)
  have hlen : data.length ≤ out.length := by
    unfold paddedLen at h
    omega
  rw [runPad_eq, hmod, if_neg (by omega), write_start out data hlen, Option.bind_some]

theorem rest_length (h : paddedLen data.length ≤ out.length) :
    8 - data.length % 8 ≤ (out.drop data.length).length := by
  rw [List.length_drop]
  unfold paddedLen at h
  omega

/-- In a mode only the check of the length fails. -/
theorem runPad_mode_false (h : IsMode nType) {r : Padded}
    (hr : runPad nType data data.length out out.length = some r) (hret : r.ret = false) :
    r.out = out ∧ r.padlen = out.length := by
  rw [runPad_eq] at hr
  split at hr
  · obtain rfl := Option.some.inj hr
    exact ⟨rfl, rfl⟩
  · obtain ⟨copied, -, hmap⟩ := Option.bind_eq_some_iff.mp hr
    obtain ⟨⟨ret, filled⟩, hfill, rfl⟩ := Option.map_eq_some_iff.mp hmap
    have htrue : ret = true := fillPad_mode h hfill
    rw [htrue] at hret
    cases hret

end Run

/-! ## Where it does what des.h says -/

/-- `RunPad` on `data`, with `Out` a buffer whose length is given in `padlen`: in a mode, and where
the buffer is large enough, it writes the data and the padding; and where it returns false it has
changed nothing. -/
structure PadsRight (nType : ℤ) (data out : List UInt8) : Prop where
  pads : IsMode nType → paddedLen data.length ≤ out.length →
    ∃ r, runPad nType data data.length out out.length = some r ∧ r.ret = true ∧
      8 ∣ r.padlen ∧ r.out.take r.padlen = data ++ padding nType data.length ∧
      (nType = PAD_ISO_2 ∨ nType = PAD_PKCS_7 → unpad nType (r.out.take r.padlen) = data)
  fails : ∀ r, runPad nType data data.length out out.length = some r → r.ret = false →
    r.out = out ∧ r.padlen = out.length

section Right
variable {nType : ℤ} {data out : List UInt8}

theorem take_paddedLen (data rest : List UInt8) {pad : List UInt8}
    (h : pad.length = 8 - data.length % 8) :
    (data ++ pad ++ rest).take (paddedLen data.length) = data ++ pad := by
  have hlen : paddedLen data.length = (data ++ pad).length := by
    rw [List.length_append, h, paddedLen]
  rw [hlen, List.take_left]

theorem PadsRight.of_filled (hmode : IsMode nType) (rest : List UInt8)
    (h : paddedLen data.length ≤ out.length →
      runPad nType data data.length out out.length =
        some ⟨true, data ++ padding nType data.length ++ rest, paddedLen data.length⟩) :
    PadsRight nType data out where
  pads := by
    intro _ hlarge
    have htake := take_paddedLen data rest (padding_length nType data.length)
    refine ⟨_, h hlarge, rfl, dvd_paddedLen _, htake, fun htype => ?_⟩
    exact (congrArg (unpad nType) htake).trans (unpad_padding htype data)
  fails _ hr hret := runPad_mode_false hmode hr hret

theorem padsRight_one (h : nType = PAD_ISO_1 ∨ nType = PAD_PKCS_7) (hout : out.length < 2 ^ 32) :
    PadsRight nType data out := by
  refine .of_filled (h.imp_right .inr) ((out.drop data.length).drop (8 - data.length % 8))
    fun hlarge => ?_
  rw [runPad_large hlarge hout, fillPad_one h (rest_length hlarge), Option.map_some]

/-- The zeros hide the 0x80 unless there are none. -/
theorem padsRight_two_iff (hout : out.length < 2 ^ 32) :
    PadsRight PAD_ISO_2 data out ↔ out.length < paddedLen data.length ∨ data.length % 8 = 7 := by
  have hmode : IsMode PAD_ISO_2 := .inr (.inl rfl)
  constructor
  · intro h
    by_contra hcon
    rw [not_or, Nat.not_lt] at hcon
    obtain ⟨hlarge, hres⟩ := hcon
    obtain ⟨r, hr, -, -, htake, -⟩ := h.pads hmode hlarge
    rw [runPad_large hlarge hout, fillPad_two (rest_length hlarge), Option.map_some] at hr
    obtain rfl := Option.some.inj hr
    have hzeros : List.replicate (7 - data.length % 8) (0 : UInt8) =
        0 :: List.replicate (6 - data.length % 8) 0 := by
      rw [← List.replicate_succ]
      congr 1
      omega
    have hpad : 8 - data.length % 8 = 7 - data.length % 8 + 1 := by omega
    simp only [paddedLen, padding, if_true, List.append_assoc, List.take_append,
      List.take_of_length_le (Nat.le_add_right data.length _), Nat.add_sub_cancel_left,
      List.append_cancel_left_eq, hzeros, hpad, List.cons_append, List.take_succ_cons,
      List.cons.injEq] at htake
    exact absurd htake.1 (by decide)
  · intro h
    refine .of_filled hmode (out.drop data.length).tail fun hlarge => ?_
    have hres : data.length % 8 = 7 := h.resolve_left (by omega)
    have hpad : padding PAD_ISO_2 data.length = [0x80] := by
      rw [padding, if_pos rfl, hres]
      rfl
    rw [runPad_large hlarge hout, fillPad_two (rest_length hlarge), Option.map_some, hres, hpad]
    simp

/-- Without a mode the copy is made before the type is looked at. -/
theorem padsRight_other_iff (h : ¬ IsMode nType) :
    PadsRight nType data out ↔ out.length < paddedLen data.length % 2 ^ 32 ∨
      out.length < data.length ∨
      (out.length = paddedLen data.length % 2 ^ 32 ∧ data <+: out) := by
  constructor
  · intro hright
    by_contra hcon
    rw [not_or, not_or, Nat.not_lt, Nat.not_lt] at hcon
    obtain ⟨hcheck, hcopy, hsame⟩ := hcon
    have hrun : runPad nType data data.length out out.length =
        some ⟨false, data ++ out.drop data.length, paddedLen data.length % 2 ^ 32⟩ := by
      rw [runPad_eq, if_neg (by omega), write_start out data hcopy, Option.bind_some,
        fillPad_other h, Option.map_some]
    obtain ⟨hsame', hlen⟩ := hright.fails _ hrun rfl
    exact hsame ⟨hlen.symm, _, hsame'⟩
  · intro hcond
    refine ⟨fun hmode => absurd hmode h, fun r hr _ => ?_⟩
    obtain hsmall | hshort | ⟨hlen, rest, rfl⟩ := hcond
    · rw [runPad_small hsmall] at hr
      obtain rfl := Option.some.inj hr
      exact ⟨rfl, rfl⟩
    · rw [runPad_eq, write_eq_none out 0 data (by omega)] at hr
      split at hr
      · obtain rfl := Option.some.inj hr
        exact ⟨rfl, rfl⟩
      · cases hr
    · have hcopy : write (data ++ rest) 0 data = some (data ++ rest) := by
        rw [write_start _ _ (by simp), List.drop_left]
      rw [runPad_eq, if_neg (by omega), hcopy, Option.bind_some, fillPad_other h,
        Option.map_some] at hr
      obtain rfl := Option.some.inj hr
      exact ⟨rfl, hlen.symm⟩

/-- For every data, type and buffer: `RunPad` is right in the modes with one filling; in the mode
with two where the buffer is too small or the 0x80 fills the block; and without a mode where the
copy is not made or changes nothing. -/
theorem runPad_right_iff (nType : ℤ) (data : List UInt8) {out : List UInt8}
    (hout : out.length < 2 ^ 32) :
    PadsRight nType data out ↔
      (nType = PAD_ISO_1 ∨ nType = PAD_PKCS_7) ∨
      (nType = PAD_ISO_2 ∧ (out.length < paddedLen data.length ∨ data.length % 8 = 7)) ∨
      (¬ IsMode nType ∧ (out.length < paddedLen data.length % 2 ^ 32 ∨
        out.length < data.length ∨
        (out.length = paddedLen data.length % 2 ^ 32 ∧ data <+: out))) := by
  by_cases hone : nType = PAD_ISO_1 ∨ nType = PAD_PKCS_7
  · exact iff_of_true (padsRight_one hone hout) (.inl hone)
  by_cases htwo : nType = PAD_ISO_2
  · subst htwo
    have hmode : IsMode PAD_ISO_2 := .inr (.inl rfl)
    rw [padsRight_two_iff hout]
    simp [hone, hmode]
  · have hother : ¬ IsMode nType := by
      unfold IsMode
      tauto
    rw [padsRight_other_iff hother]
    simp [hone, htwo, hother]

/-- Seven bytes, and room for the one byte of padding. -/
theorem runPad_right_seven : PadsRight PAD_ISO_2 [1, 2, 3, 4, 5, 6, 7] (List.replicate 8 0xff) :=
  (runPad_right_iff PAD_ISO_2 [1, 2, 3, 4, 5, 6, 7] (by decide)).mpr
    (.inr (.inl ⟨rfl, .inr rfl⟩))

/-- Three bytes in the second mode get four zeros and keep what the buffer had last; three bytes
without a mode are copied all the same. -/
theorem runPad_wrong :
    runPad PAD_ISO_2 [1, 2, 3] 3 (List.replicate 8 0xff) 8 =
        some ⟨true, [1, 2, 3, 0, 0, 0, 0, 0xff], 8⟩ ∧
      ¬ PadsRight PAD_ISO_2 [1, 2, 3] (List.replicate 8 0xff) ∧
      runPad 3 [1, 2, 3] 3 (List.replicate 9 0xff) 9 =
        some ⟨false, [1, 2, 3, 0xff, 0xff, 0xff, 0xff, 0xff, 0xff], 8⟩ ∧
      ¬ PadsRight 3 [1, 2, 3] (List.replicate 9 0xff) := by
  refine ⟨by decide, fun h => ?_, by decide, fun h => ?_⟩
  · obtain hlen | hres := (padsRight_two_iff (by decide)).mp h
    · exact absurd hlen (by decide)
    · exact absurd hres (by decide)
  · obtain hlen | hlen | ⟨hlen, -⟩ := (padsRight_other_iff (by decide)).mp h
    · exact absurd hlen (by decide)
    · exact absurd hlen (by decide)
    · exact absurd hlen (by decide)

end Right

end DevFramework.Des
