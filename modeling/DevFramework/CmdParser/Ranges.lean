import DevFramework.CmdParser.Sections

/-! # The bit range of a section

The text of a range is read back with `find` and `atoi`: `cmdBounds_rangeText` says which two numbers
come out. For a range from bit 1 to bit 30 at most, the shifts stay below the sign bit, and the
first and the last id of the range are powers of two and what is below one.
-/
namespace DevFramework.CmdParser
set_option autoImplicit false
set_option maxHeartbeats 250000

/-- The largest `int`. -/
def intMax : ℕ := 2147483647

/-! ## Reading a range -/

theorem digitChar_isDigit (i : Fin 10) : (Nat.digitChar i).isDigit = true := by
  revert i
  decide

theorem digitChar_toNat (i : Fin 10) : (Nat.digitChar i).toNat - 48 = i := by
  revert i
  decide

theorem digitChar_ne_minus (i : Fin 10) : Nat.digitChar i ≠ '-' := by
  revert i
  decide

theorem atoi_text (d : Digits) : atoi d.text = min d.value intMax := by
  have hall : ∀ c ∈ d.text, c.isDigit = true := by
    intro c hc
    obtain ⟨i, -, rfl⟩ := List.mem_map.mp hc
    exact digitChar_isDigit i
  have htake := List.takeWhile_eq_self_iff.mpr hall
  rw [atoi, htake, Digits.text, List.foldl_map]
  simp only [digitChar_toNat]
  rfl

theorem findIdx_minus (d : Digits) (rest : Text) :
    (d.text ++ '-' :: rest).findIdx? (· = '-') = some d.text.length := by
  have hnone : d.text.findIdx? (· = '-') = none := by
    rw [List.findIdx?_eq_none_iff]
    intro c hc
    obtain ⟨i, -, rfl⟩ := List.mem_map.mp hc
    simp [digitChar_ne_minus i]
  rw [List.findIdx?_append, hnone, List.findIdx?_cons]
  simp

/-- The two numbers that are read from a range are the two that it was written with. -/
theorem cmdBounds_rangeText (left right : Digits) :
    cmdBounds (rangeText left right) =
      some (shiftOne ((min left.value intMax : ℕ) - 1), endCmd (min right.value intMax) 0) := by
  have htake : (left.text ++ '-' :: right.text).take left.text.length = left.text := by simp
  have hdrop : (left.text ++ '-' :: right.text).drop (left.text.length + 1) = right.text := by
    simp [List.drop_append]
  simp only [cmdBounds, rangeText, findIdx_minus, htake, hdrop, atoi_text]

/-! ## The ids of a section -/

/-- The id of the section's first command. -/
def Section.startCmd (s : Section) : BitVec 32 :=
  (s.range.map fun b => shiftOne ((min b.1.value intMax : ℕ) - 1)).getD 0

/-- The last id that the section's range allows. -/
def Section.endCmd (s : Section) : BitVec 32 :=
  (s.range.map fun b => CmdParser.endCmd (min b.2.value intMax) 0).getD 0

/-- The constants of the section's `i`-th command. -/
def Section.constant (tgt : TargetOutput) (s : Section) (i : ℕ) (c : Command) : Constant where
  range := s.rangeText
  name := tgt.rename c.name
  request := s.startCmd + BitVec.ofNat 32 i
  response := responseId (s.startCmd + BitVec.ofNat 32 i)

theorem cmdBounds_section {s : Section} {b : Digits × Digits} (hb : s.range = some b) :
    cmdBounds s.rangeText = some (s.startCmd, s.endCmd) := by
  simp only [Section.rangeText, Section.startCmd, Section.endCmd, hb, Option.map_some,
    Option.getD_some]
  exact cmdBounds_rangeText b.1 b.2

theorem cmdConstant_section (tgt : TargetOutput) (s : Section) (i : ℕ) (c : Command) :
    cmdConstant tgt s.rangeText c.name (BitVec.ofNat 32 i) (s.startCmd, s.endCmd) =
      if s.endCmd.slt (s.constant tgt i c).request then .error .outOfRange
      else .ok (s.constant tgt i c) := rfl

/-- A command of the section goes on the line with its constants, unless it is out of range. -/
theorem cmdText_eq (tgt : TargetOutput) {s : Section} {b : Digits × Digits} (hb : s.range = some b)
    (i : ℕ) (c : Command) (finLine : Text) (w : Writer) :
    cmdText tgt s.rangeText c.name (BitVec.ofNat 32 i) finLine w =
      if s.endCmd.slt (s.constant tgt i c).request then .error ⟨.outOfRange, w⟩
      else .ok (finLine ++ constantText tgt (s.constant tgt i c),
        { w with emitted := w.emitted ++ [s.constant tgt i c] }) := by
  simp only [cmdText, cmdBounds_section hb, cmdConstant_section]
  by_cases hslt : s.endCmd.slt (s.constant tgt i c).request = true
  · rw [if_pos hslt, if_pos hslt]
  · rw [if_neg hslt, if_neg hslt]

/-- How many of the section's commands come before the first that is out of range. -/
def Section.reach (s : Section) : ℕ :=
  (List.range s.commands.length).findIdx fun i =>
    s.endCmd.slt (s.startCmd + BitVec.ofNat 32 i)

namespace Section
variable {s : Section} {i : ℕ}

theorem reach_le : s.reach ≤ s.commands.length := by
  have hle : s.reach ≤ (List.range s.commands.length).length := List.findIdx_le_length
  rwa [List.length_range] at hle

theorem in_of_lt_reach (h : i < s.reach) :
    s.endCmd.slt (s.startCmd + BitVec.ofNat 32 i) = false := by
  have := List.not_of_lt_findIdx h
  simpa using this

theorem out_at_reach (h : s.reach < s.commands.length) :
    s.endCmd.slt (s.startCmd + BitVec.ofNat 32 s.reach) = true := by
  unfold reach at h ⊢
  generalize hp : (fun i => s.endCmd.slt (s.startCmd + BitVec.ofNat 32 i)) = p at h ⊢
  have hlt : (List.range s.commands.length).findIdx p < (List.range s.commands.length).length := by
    rwa [List.length_range]
  have hout := List.findIdx_getElem (w := hlt)
  rw [List.getElem_range] at hout
  subst hp
  exact hout

end Section

/-! ## Ranges below the sign bit -/

theorem shiftOne_eq {n : ℕ} (h : n < 32) : shiftOne n = BitVec.ofNat 32 (2 ^ n) := by
  have hmod : ((n : ℤ) % 32).toNat = n := by omega
  rw [shiftOne, hmod]
  apply BitVec.eq_of_toNat_eq
  simp [BitVec.toNat_shiftLeft, Nat.shiftLeft_eq]

theorem endCmd_or (n : ℕ) (acc : BitVec 32) : endCmd n acc = acc ||| endCmd n 0 := by
  induction n generalizing acc with
  | zero => simp [endCmd]
  | succ n ih =>
    rw [endCmd, ih, endCmd, ih (0 ||| shiftOne n), ← BitVec.or_assoc]
    simp

theorem endCmd_toNat {n : ℕ} (h : n ≤ 32) : (endCmd n 0).toNat = 2 ^ n - 1 := by
  induction n with
  | zero => rfl
  | succ n ih =>
    have hn := ih (by omega)
    have hlt : 2 ^ n < 2 ^ 32 := Nat.pow_lt_pow_right (by decide) (by omega)
    have hpos := Nat.two_pow_pos n
    have hor := Nat.two_pow_add_eq_or_of_lt (Nat.sub_lt hpos Nat.one_pos) 1
    rw [Nat.mul_one] at hor
    have hacc : (0 : BitVec 32) ||| shiftOne n = BitVec.ofNat 32 (2 ^ n) := by
      rw [shiftOne_eq (by omega)]
      exact BitVec.zero_or
    rw [endCmd, endCmd_or, hacc, BitVec.toNat_or, BitVec.toNat_ofNat, Nat.mod_eq_of_lt hlt, hn,
      ← hor, Nat.pow_succ]
    omega

end DevFramework.CmdParser
