import DevFramework.Json.Parsing

/-! # Numbers in a text

A number is written with digits, a fraction and an exponent. `parse_number` takes all of it, and
computes one value from it.
-/
namespace DevFramework.Json
set_option autoImplicit false
set_option maxHeartbeats 250000

variable {ν : Type}

/-! ## Digits -/

def digitText (ds : List (Fin 10)) : Text := ds.map fun d => Nat.digitChar d.val

theorem isDigit_digitChar (d : Fin 10) : (Nat.digitChar d.val).isDigit = true := by
  revert d
  decide

theorem digitChar_value (d : Fin 10) : (Nat.digitChar d.val).toNat - 48 = d.val := by
  revert d
  decide

theorem digitChar_eq_zero (d : Fin 10) : Nat.digitChar d.val = '0' ↔ d = 0 := by
  revert d
  decide

/-- No digit stands at the start. -/
def NoDigit (t : Text) : Prop := ∀ c, t.head? = some c → c.isDigit = false

theorem overDigits_digits {α : Type} (step : α → ℕ → α) (a : α) (ds : List (Fin 10)) {rest : Text}
    (hrest : NoDigit rest) :
    overDigits step a (digitText ds ++ rest) = (ds.foldl (fun a d => step a d.val) a, rest) := by
  have hall : ∀ c ∈ digitText ds, c.isDigit = true := by
    intro c hc
    obtain ⟨d, -, rfl⟩ := List.mem_map.mp hc
    exact isDigit_digitChar d
  have hnone : rest.takeWhile Char.isDigit = [] ∧ rest.dropWhile Char.isDigit = rest := by
    cases rest with
    | nil => exact ⟨rfl, rfl⟩
    | cons c rest =>
      have hc : c.isDigit = false := hrest c rfl
      simp [hc]
  have hfold : ∀ (ds : List (Fin 10)) (a : α),
      (digitText ds).foldl (fun a c => step a (c.toNat - 48)) a =
        ds.foldl (fun a d => step a d.val) a := by
    intro ds
    induction ds with
    | nil => exact fun a => rfl
    | cons d ds ih =>
      intro a
      simp only [digitText, List.map_cons, List.foldl_cons, digitChar_value]
      exact ih _
  rw [overDigits, List.takeWhile_append_of_pos hall, List.dropWhile_append_of_pos hall, hnone.1,
    hnone.2, List.append_nil, hfold]

/-- The number that some digits spell, behind a number. -/
def digitsFrom (n : ℤ) (ds : List (Fin 10)) : ℤ := ds.foldl (fun n d => n * 10 + d.val) n

theorem digitsFrom_le (ds : List (Fin 10)) {n : ℤ} (hn : 0 ≤ n) : n ≤ digitsFrom n ds := by
  induction ds generalizing n with
  | nil => exact Int.le_refl n
  | cons d ds ih =>
    have hd : (0 : ℤ) ≤ d.val := Int.natCast_nonneg _
    have h := ih (n := n * 10 + d.val) (by omega)
    rw [digitsFrom, List.foldl_cons]
    change _ ≤ digitsFrom _ ds
    omega

theorem foldl_subscale (ds : List (Fin 10)) {n : ℤ} (hn : 0 ≤ n)
    (hfits : digitsFrom n ds ≤ intMax) :
    ds.foldl (fun s d => subscaleStep s d.val) (some n) = some (digitsFrom n ds) := by
  induction ds generalizing n with
  | nil => rfl
  | cons d ds ih =>
    have hd : (0 : ℤ) ≤ d.val := Int.natCast_nonneg _
    have hnext : digitsFrom n (d :: ds) = digitsFrom (n * 10 + d.val) ds := rfl
    rw [hnext] at hfits ⊢
    have hle := digitsFrom_le ds (n := n * 10 + d.val) (by omega)
    have hstep : subscaleStep (some n) d.val = some (n * 10 + d.val) :=
      if_pos (Int.le_trans hle hfits)
    rw [List.foldl_cons, hstep]
    exact ih (by omega) hfits

/-! ## Numerals -/

/-- The sign of an exponent, if it is written. -/
inductive ExponentSign where
  | none
  | plus
  | minus
  deriving DecidableEq, Repr

structure Exponent where
  upper : Bool
  sign : ExponentSign
  digits : List (Fin 10)
  ok : digits ≠ []

structure Numeral where
  negative : Bool
  int : List (Fin 10)
  frac : List (Fin 10) := []
  exponent : Option Exponent := Option.none
  /-- No zero stands before other digits. -/
  ok : int = [0] ∨ ∃ d ds, int = d :: ds ∧ d ≠ 0

def ExponentSign.text : ExponentSign → Text
  | .none => []
  | .plus => ['+']
  | .minus => ['-']

def ExponentSign.factor : ExponentSign → ℤ
  | .minus => -1
  | _ => 1

def Exponent.text (e : Exponent) : Text :=
  (if e.upper then 'E' else 'e') :: (e.sign.text ++ digitText e.digits)

def Exponent.value (e : Exponent) : ℤ := digitsFrom 0 e.digits * e.sign.factor

namespace Numeral

def fracText (x : Numeral) : Text := if x.frac = [] then [] else '.' :: digitText x.frac

def exponentText (x : Numeral) : Text := x.exponent.elim [] Exponent.text

def text (x : Numeral) : Text :=
  (if x.negative then ['-'] else []) ++ digitText x.int ++ x.fracText ++ x.exponentText

/-- The exponent can be counted in an `int`. -/
def Fits (x : Numeral) : Prop := ∀ e, x.exponent = some e → digitsFrom 0 e.digits ≤ intMax

/-- The number that the source computes. -/
def value (D : Doubles ν) (x : Numeral) : ν :=
  D.mul (D.mul (D.ofInt (if x.negative then -1 else 1))
      (x.frac.foldl (fun n d => D.push n d.val)
        ((if x.int.map Fin.val = [0] then [] else x.int).foldl (fun n d => D.push n d.val) (D.ofInt 0))))
    (D.pow10 (D.add (x.frac.foldl (fun s _ => D.sub s (D.ofInt 1)) (D.ofInt 0))
      (D.ofInt (x.exponent.elim 0 Exponent.value))))

end Numeral

/-- What may stand behind a number, so that it ends there. -/
def NumberEnds (t : Text) : Prop :=
  ∀ c, t.head? = some c → c.isDigit = false ∧ c ≠ '.' ∧ c ≠ 'e' ∧ c ≠ 'E'

theorem NumberEnds.noDigit {t : Text} (h : NumberEnds t) : NoDigit t := fun c hc => (h c hc).1

namespace Numeral
variable {rest : Text}

theorem parseExponent_text (x : Numeral) (hfits : x.Fits) (hrest : NumberEnds rest) :
    parseExponent (x.exponentText ++ rest) = (some (x.exponent.elim 0 Exponent.value), rest) := by
  cases hexp : x.exponent with
  | none =>
    have htext : x.exponentText = [] := by rw [exponentText, hexp]; rfl
    have hhead : ¬(rest.head? = some 'e' ∨ rest.head? = some 'E') := by
      rintro (h | h)
      · exact (hrest _ h).2.2.1 rfl
      · exact (hrest _ h).2.2.2 rfl
    rw [htext, List.nil_append, parseExponent, if_neg hhead]
    rfl
  | some e =>
    have htext : x.exponentText = e.text := by rw [exponentText, hexp]; rfl
    have hhead : ∀ t : Text, (e.text ++ t).head? = some 'e' ∨ (e.text ++ t).head? = some 'E' := by
      intro t
      cases hu : e.upper <;> simp [Exponent.text, hu]
    have htail : (e.text ++ rest).tail = e.sign.text ++ (digitText e.digits ++ rest) := by
      simp [Exponent.text]
    have hsign : exponentSign (e.sign.text ++ (digitText e.digits ++ rest)) =
        (e.sign.factor, digitText e.digits ++ rest) := by
      cases hs : e.sign with
      | plus => rfl
      | minus => rfl
      | none =>
        cases hds : e.digits with
        | nil => exact absurd hds e.ok
        | cons d ds =>
          have hdigit := isDigit_digitChar d
          have hplus : Nat.digitChar d.val ≠ '+' := fun h => by
            rw [h] at hdigit
            cases hdigit
          have hminus : Nat.digitChar d.val ≠ '-' := fun h => by
            rw [h] at hdigit
            cases hdigit
          simp [ExponentSign.text, ExponentSign.factor, exponentSign, digitText, hplus, hminus]
    have hdigits := overDigits_digits subscaleStep (some 0) e.digits hrest.noDigit
    rw [htext, parseExponent, if_pos (hhead rest), htail]
    simp only [hsign, hdigits, foldl_subscale e.digits (Int.le_refl 0) (hfits e hexp)]
    rfl

/-- Behind the fraction there is no digit and no point. -/
theorem exponentText_stops (x : Numeral) (hrest : NumberEnds rest) {c : Char}
    (hc : (x.exponentText ++ rest).head? = some c) : c.isDigit = false ∧ c ≠ '.' := by
  cases hexp : x.exponent with
  | none =>
    have htext : x.exponentText = [] := by rw [exponentText, hexp]; rfl
    rw [htext, List.nil_append] at hc
    exact ⟨(hrest c hc).1, (hrest c hc).2.1⟩
  | some e =>
    have htext : x.exponentText = e.text := by rw [exponentText, hexp]; rfl
    rw [htext] at hc
    cases hu : e.upper <;> simp only [Exponent.text, hu, Bool.false_eq_true, if_true, if_false,
      List.cons_append, List.head?_cons, Option.some.injEq] at hc <;> subst hc <;>
      exact ⟨rfl, by decide⟩

theorem foldl_pair {α β γ : Type} (f : α → γ → α) (g : β → β) (ds : List γ) (a : α) (b : β) :
    ds.foldl (fun p d => (f p.1 d, g p.2)) (a, b) =
      (ds.foldl f a, ds.foldl (fun b _ => g b) b) := by
  induction ds generalizing a b with
  | nil => rfl
  | cons d ds ih => rw [List.foldl_cons, List.foldl_cons, List.foldl_cons, ih]

theorem fractionDigits_text (D : Doubles ν) (x : Numeral) (n : ν) (hrest : NumberEnds rest) :
    fractionDigits D n (x.fracText ++ (x.exponentText ++ rest)) =
      ((x.frac.foldl (fun n d => D.push n d.val) n,
        x.frac.foldl (fun s _ => D.sub s (D.ofInt 1)) (D.ofInt 0)), x.exponentText ++ rest) := by
  have hstops : NoDigit (x.exponentText ++ rest) := fun c hc =>
    (x.exponentText_stops hrest hc).1
  cases hfrac : x.frac with
  | nil =>
    have htext : x.fracText = [] := by rw [fracText, hfrac]; rfl
    rw [htext, List.nil_append, fractionDigits, if_neg]
    · rfl
    · exact fun h => (x.exponentText_stops hrest h.1).2 rfl
  | cons d ds =>
    have htext : x.fracText ++ (x.exponentText ++ rest) =
        '.' :: (digitText (d :: ds) ++ (x.exponentText ++ rest)) := by
      rw [fracText, hfrac]
      rfl
    rw [htext, fractionDigits, if_pos ⟨rfl, by simp [digitText]⟩, List.tail_cons,
      overDigits_digits _ _ _ hstops]
    congr 1
    exact foldl_pair (fun n (d : Fin 10) => D.push n d.val) (fun s => D.sub s (D.ofInt 1)) _ _ _

/-- The digits before the point. -/
theorem integerDigits_text (D : Doubles ν) (x : Numeral) {t : Text} (ht : NoDigit t) :
    integerDigits D (skipZero (digitText x.int ++ t)) =
      ((if x.int.map Fin.val = [0] then [] else x.int).foldl (fun n d => D.push n d.val) (D.ofInt 0), t) := by
  obtain hzero | ⟨d, ds, hint, hd⟩ := x.ok
  · have hskip : skipZero (digitText x.int ++ t) = t := by
      rw [hzero]
      rfl
    have hnone : ¬(t.head?.any fun c => c.isDigit && c ≠ '0') = true := by
      cases hhead : t.head? with
      | none => exact fun h => (by cases h)
      | some c => simp [ht c hhead]
    rw [hskip, integerDigits, if_neg hnone, hzero]
    rfl
  · have hne : Nat.digitChar d.val ≠ '0' := fun h => hd ((digitChar_eq_zero d).mp h)
    have hnot : x.int.map Fin.val ≠ [0] := by
      rw [hint, List.map_cons]
      exact fun h => hd (Fin.ext (List.cons.inj h).1)
    have hskip : skipZero (digitText x.int ++ t) = digitText x.int ++ t := by
      rw [skipZero, if_neg (by rw [hint]; exact fun h => hne (Option.some.inj h))]
    have hhead : ((digitText x.int ++ t).head?.any fun c => c.isDigit && c ≠ '0') = true := by
      rw [hint]
      simp [digitText, hne]
    rw [hskip, integerDigits, if_pos hhead, if_neg hnot, overDigits_digits _ _ _ ht]

/-- A numeral is read to its end. -/
theorem parseNumber_text (D : Doubles ν) (x : Numeral) (hfits : x.Fits) (hrest : NumberEnds rest) :
    parseNumber D (x.text ++ rest) = .ok (x.value D, rest) := by
  have hstop : NoDigit (x.fracText ++ (x.exponentText ++ rest)) := by
    intro c hc
    cases hfrac : x.frac with
    | nil =>
      rw [fracText, hfrac] at hc
      exact (x.exponentText_stops hrest hc).1
    | cons d ds =>
      have htext : x.fracText = '.' :: digitText (d :: ds) := by rw [fracText, hfrac]; rfl
      rw [htext] at hc
      obtain rfl : '.' = c := Option.some.inj hc
      rfl
  have hsign : mantissaSign (x.text ++ rest) =
      (if x.negative then -1 else 1,
        digitText x.int ++ (x.fracText ++ (x.exponentText ++ rest))) := by
    cases hneg : x.negative with
    | true => simp [text, hneg, mantissaSign]
    | false =>
      have hhead : (digitText x.int ++ (x.fracText ++ (x.exponentText ++ rest))).head? ≠
          some '-' := by
        intro h
        obtain ⟨d, ds, hint⟩ : ∃ d ds, x.int = d :: ds := by
          obtain hzero | ⟨d, ds, hint, -⟩ := x.ok
          · exact ⟨0, [], hzero⟩
          · exact ⟨d, ds, hint⟩
        rw [hint] at h
        have hchar : Nat.digitChar d.val = '-' := Option.some.inj h
        have hdigit := isDigit_digitChar d
        rw [hchar] at hdigit
        cases hdigit
      have hsplit : x.text ++ rest =
          digitText x.int ++ (x.fracText ++ (x.exponentText ++ rest)) := by
        simp [text, hneg]
      rw [hsplit, mantissaSign, if_neg hhead]
      rfl
  simp only [parseNumber, hsign, integerDigits_text D x hstop, fractionDigits_text D x _ hrest,
    x.parseExponent_text hfits hrest]
  rfl

end Numeral

end DevFramework.Json
