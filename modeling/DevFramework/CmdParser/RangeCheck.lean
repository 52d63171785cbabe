import DevFramework.CmdParser.Ids

/-! # The range check

A command is put on a line unless its id is past the last id of its range, in a comparison of two
`int`s. The first id is `1 << (l - 1)` with the count taken modulo 32, so it is negative for a lower
bound that is a multiple of 32, zero among them, and small again above 32; the last one is `-1` from
bit 32 on.
-/
namespace DevFramework.CmdParser
set_option autoImplicit false
set_option maxHeartbeats 250000

/-! ## The two ends of a range -/

/-- The bit of the first id. -/
def startBit (l : ℕ) : ℕ := (min l intMax + 31) % 32

theorem startBit_lt (l : ℕ) : startBit l < 32 := Nat.mod_lt _ (by decide)

theorem startBit_eq {l : ℕ} (h1 : 1 ≤ l) (h32 : l ≤ 32) : startBit l = l - 1 := by
  simp only [startBit, intMax]
  omega

theorem shiftOne_start (l : ℕ) :
    shiftOne ((min l intMax : ℕ) - 1) = BitVec.ofNat 32 (2 ^ startBit l) := by
  rw [← shiftOne_eq (startBit_lt l)]
  simp only [shiftOne, startBit]
  congr 2
  omega

/-- From bit 32 on every bit is set. -/
theorem endCmd_all {n : ℕ} (h : 32 ≤ n) : endCmd n 0 = BitVec.allOnes 32 := by
  induction n, h using Nat.le_induction with
  | base =>
    apply BitVec.eq_of_toNat_eq
    rw [endCmd_toNat le_rfl]
    rfl
  | succ n _ ih =>
    rw [endCmd, endCmd_or, ih]
    exact BitVec.or_allOnes

theorem responseId_bit (id : BitVec 32) : (responseId id).getLsbD 31 = true := by
  rw [responseId, BitVec.getLsbD_or]
  simp

/-! ## One command -/

/-- The range is one of ids below bit 31, and the command of this index is in it. -/
structure Fits (l r i : ℕ) : Prop where
  pos : 1 ≤ l
  order : l ≤ r
  sign : r ≤ 31
  index : 2 ^ (l - 1) + i ≤ 2 ^ r - 1

/-- What the check is for: what is put on a line has an id of the range with bit 31 clear, and a
range or an index that does not fit ends the run. -/
def ChecksRange (tgt : TargetOutput) (left right : Digits) (i : ℕ) : Prop :=
  ∀ (name finLine : Text) (w : Writer),
    (∀ line w', cmdText tgt (rangeText left right) name (BitVec.ofNat 32 i) finLine w =
        .ok (line, w') →
      ∃ c, line = finLine ++ constantText tgt c ∧ c.name = tgt.rename name ∧
        2 ^ (left.value - 1) ≤ c.request.toNat ∧ c.request.toNat ≤ 2 ^ right.value - 1 ∧
        c.request.getLsbD 31 = false ∧ ∀ id, c.request ≠ responseId id) ∧
    (¬ Fits left.value right.value i →
      cmdText tgt (rangeText left right) name (BitVec.ofNat 32 i) finLine w =
        .error ⟨.outOfRange, w⟩)

section Check
variable {l r i : ℕ}

theorem id_toNat (hi : i ≤ intMax) :
    (BitVec.ofNat 32 (2 ^ startBit l) + BitVec.ofNat 32 i).toNat = 2 ^ startBit l + i := by
  have hpow : 2 ^ startBit l ≤ 2 ^ 31 :=
    Nat.pow_le_pow_right (by decide) (Nat.le_of_lt_succ (startBit_lt l))
  simp only [intMax] at hi
  rw [BitVec.toNat_add, BitVec.toNat_ofNat, BitVec.toNat_ofNat]
  generalize 2 ^ startBit l = s at hpow ⊢
  omega

theorem endCmd_toInt (r : ℕ) :
    (endCmd (min r intMax) 0).toInt = if r ≤ 31 then (2 : ℤ) ^ r - 1 else -1 := by
  split
  next h =>
    have hpow : 2 ^ r ≤ 2 ^ 31 := Nat.pow_le_pow_right (by decide) h
    have hpos := Nat.two_pow_pos r
    have hnat : (endCmd (min r intMax) 0).toNat = 2 ^ r - 1 := by
      rw [min_eq_left (by simp only [intMax]; omega)]
      exact endCmd_toNat (by omega)
    have hcast : ((2 ^ r : ℕ) : ℤ) = (2 : ℤ) ^ r := by push_cast; rfl
    rw [BitVec.toInt_eq_toNat_of_lt (by omega), hnat, ← hcast]
    omega
  next h =>
    rw [endCmd_all (by simp only [intMax]; omega)]
    rfl

/-- A command is let through if its id has bit 31 set, or is not past the end of a range that ends
below bit 32. -/
theorem passes_iff (l r : ℕ) (hi : i ≤ intMax) :
    (endCmd (min r intMax) 0).slt (BitVec.ofNat 32 (2 ^ startBit l) + BitVec.ofNat 32 i) = false ↔
      2 ^ 31 ≤ 2 ^ startBit l + i ∨ r ≤ 31 ∧ 2 ^ startBit l + i ≤ 2 ^ r - 1 := by
  have hid := id_toNat (l := l) hi
  have hpow : 2 ^ startBit l ≤ 2 ^ 31 :=
    Nat.pow_le_pow_right (by decide) (Nat.le_of_lt_succ (startBit_lt l))
  have hpos := Nat.two_pow_pos r
  have hcast : ((2 ^ r : ℕ) : ℤ) = (2 : ℤ) ^ r := by push_cast; rfl
  simp only [intMax] at hi
  rw [BitVec.slt, decide_eq_false_iff_not, endCmd_toInt, BitVec.toInt_eq_toNat_cond, hid]
  generalize 2 ^ startBit l = s at hpow ⊢
  rw [← hcast]
  generalize 2 ^ r = e at hpos ⊢
  split <;> split <;> omega

def rangeConstant (tgt : TargetOutput) (left right : Digits) (i : ℕ) (name : Text) : Constant where
  range := rangeText left right
  name := tgt.rename name
  request := BitVec.ofNat 32 (2 ^ startBit left.value) + BitVec.ofNat 32 i
  response := responseId (BitVec.ofNat 32 (2 ^ startBit left.value) + BitVec.ofNat 32 i)

/-- What becomes of a command, in numbers. -/
theorem cmdText_range (tgt : TargetOutput) (left right : Digits) (hi : i ≤ intMax)
    (name finLine : Text) (w : Writer) :
    cmdText tgt (rangeText left right) name (BitVec.ofNat 32 i) finLine w =
      if 2 ^ 31 ≤ 2 ^ startBit left.value + i ∨
          right.value ≤ 31 ∧ 2 ^ startBit left.value + i ≤ 2 ^ right.value - 1 then
        .ok (finLine ++ constantText tgt (rangeConstant tgt left right i name),
          { w with emitted := w.emitted ++ [rangeConstant tgt left right i name] })
      else .error ⟨.outOfRange, w⟩ := by
  have hpasses := passes_iff left.value right.value hi
  simp only [cmdText, cmdBounds_rangeText, shiftOne_start, cmdConstant]
  by_cases hslt : (endCmd (min right.value intMax) 0).slt
      (BitVec.ofNat 32 (2 ^ startBit left.value) + BitVec.ofNat 32 i) = true
  · rw [if_pos hslt, if_neg fun h => Bool.eq_false_iff.mp (hpasses.mpr h) hslt]
  · rw [if_neg hslt, if_pos (hpasses.mp (by simpa using hslt))]
    rfl

/-- What is let through fits, if the two failings of the check are ruled out. -/
theorem fits_of_passes (hsign : 2 ^ startBit l + i < 2 ^ 31)
    (hround : 32 < l → 31 < r ∨ 2 ^ r ≤ 2 ^ startBit l + i)
    (hpass : 2 ^ 31 ≤ 2 ^ startBit l + i ∨ r ≤ 31 ∧ 2 ^ startBit l + i ≤ 2 ^ r - 1) :
    Fits l r i := by
  have hpos := Nat.two_pow_pos r
  obtain ⟨h31, hend⟩ := hpass.resolve_left (by omega)
  have hsmall : l ≤ 32 := by
    by_contra hbig
    have := hround (by omega)
    omega
  have hbit : startBit l ≠ 31 := by
    intro h
    rw [h] at hsign
    omega
  have hstart : 1 ≤ l := by
    simp only [startBit, intMax] at hbit
    omega
  rw [startBit_eq hstart hsmall] at hend
  refine ⟨hstart, ?_, h31, hend⟩
  by_contra hlt
  have hpow : 2 ^ r ≤ 2 ^ (l - 1) := Nat.pow_le_pow_right (by decide) (by omega)
  omega

/-- The other way round, neither failing is there where all that is let through fits. -/
theorem checked_of_fits (hfits : 2 ^ 31 ≤ 2 ^ startBit l + i ∨
      r ≤ 31 ∧ 2 ^ startBit l + i ≤ 2 ^ r - 1 → Fits l r i) :
    2 ^ startBit l + i < 2 ^ 31 ∧ (32 < l → 31 < r ∨ 2 ^ r ≤ 2 ^ startBit l + i) := by
  have hpos := Nat.two_pow_pos r
  constructor
  · by_contra hneg
    have hfit := hfits (.inl (by omega))
    have hend : 2 ^ r ≤ 2 ^ 31 := Nat.pow_le_pow_right (by decide) hfit.sign
    have hindex := hfit.index
    rw [← startBit_eq hfit.pos (hfit.order.trans (hfit.sign.trans (by decide)))] at hindex
    omega
  · intro hbig
    by_contra hneg
    push Not at hneg
    have hfit := hfits (.inr ⟨by omega, by omega⟩)
    have horder := hfit.order
    have hsign := hfit.sign
    omega

/-- The constant of a command that fits has an id of its range. -/
theorem rangeConstant_request (tgt : TargetOutput) {left right : Digits} (hi : i ≤ intMax)
    (name : Text) (hfit : Fits left.value right.value i) :
    (rangeConstant tgt left right i name).request.toNat = 2 ^ (left.value - 1) + i ∧
      (rangeConstant tgt left right i name).request.getLsbD 31 = false := by
  have hbit := startBit_eq hfit.pos (hfit.order.trans (hfit.sign.trans (by decide)))
  have hid := id_toNat (l := left.value) hi
  have hpow : 2 ^ right.value ≤ 2 ^ 31 := Nat.pow_le_pow_right (by decide) hfit.sign
  have hindex := hfit.index
  have hpos := Nat.two_pow_pos right.value
  rw [hbit] at hid
  have hrequest : (rangeConstant tgt left right i name).request.toNat =
      2 ^ (left.value - 1) + i := by rw [rangeConstant, hbit, hid]
  refine ⟨hrequest, ?_⟩
  rw [← BitVec.testBit_toNat, hrequest]
  exact Nat.testBit_lt_two_pow (by omega)

end Check

/-- The check keeps its promise for a range and an index exactly if the id stays below bit 31 and,
where the count of the shift has come round, it is past the end of the range. -/
theorem range_checked_iff (tgt : TargetOutput) (left right : Digits) (i : ℕ) (hi : i ≤ intMax) :
    ChecksRange tgt left right i ↔ 2 ^ startBit left.value + i < 2 ^ 31 ∧
      (32 < left.value → 31 < right.value ∨ 2 ^ right.value ≤ 2 ^ startBit left.value + i) := by
  have htext := cmdText_range tgt left right hi
  constructor
  · intro h
    refine checked_of_fits fun hpass => ?_
    by_contra hnot
    have hrun := (h [] [] .init).2 hnot
    rw [htext, if_pos hpass] at hrun
    cases hrun
  · rintro ⟨hsign, hround⟩ name finLine w
    rw [htext]
    split
    next hpass =>
      have hfit := fits_of_passes hsign hround hpass
      obtain ⟨hrequest, hlow⟩ := rangeConstant_request tgt hi name hfit
      refine ⟨?_, fun hnot => absurd hfit hnot⟩
      rintro line w' heq
      obtain ⟨rfl, -⟩ := Prod.mk.inj (Except.ok.inj heq)
      refine ⟨rangeConstant tgt left right i name, rfl, rfl, ?_, ?_, hlow, fun id heq => ?_⟩
      · omega
      · exact hrequest ▸ hfit.index
      · have hset := responseId_bit id
        rw [← heq] at hset
        exact absurd (hlow.symm.trans hset) (by decide)
    next => exact ⟨nofun, fun _ => rfl⟩

theorem range_checked_one_to_three :
    ChecksRange goOutput ⟨[1], List.cons_ne_nil _ _⟩ ⟨[3], List.cons_ne_nil _ _⟩ 0 :=
  (range_checked_iff goOutput _ _ 0 (by decide)).mpr (by decide)

/-- `[0-3]`: the first command is put on a line with the id `0x80000000`, which is the response id
of 0. -/
theorem zero_range_passes :
    ¬ ChecksRange (cppOutput id) ⟨[0], List.cons_ne_nil _ _⟩ ⟨[3], List.cons_ne_nil _ _⟩ 0 ∧
    (cmdText (cppOutput id) "0-3".toList ['x'] 0 [] .init).map Prod.fst =
      .ok (constantText (cppOutput id) ⟨"0-3".toList, ['x'], responseId 0, responseId 0⟩) := by
  refine ⟨fun h => ?_, by decide +kernel⟩
  have hrun := (h ['x'] [] .init).2 fun hfit => absurd hfit.pos (by decide)
  have hok : (cmdText (cppOutput id) (rangeText ⟨[0], List.cons_ne_nil _ _⟩
      ⟨[3], List.cons_ne_nil _ _⟩) ['x'] (BitVec.ofNat 32 0) [] .init).isOk = true := by
    decide +kernel
  rw [hrun] at hok
  cases hok

end DevFramework.CmdParser
