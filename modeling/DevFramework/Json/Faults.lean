import DevFramework.Json.Progress
import DevFramework.Json.Pieces
import Mathlib.Algebra.Order.Ring.Int

/-! # Texts on which nothing goes wrong

Only a backslash leads the loops over a string beyond its end or to a variable that was not written,
and only many digits or a text that no `int` counts let one overflow.
-/
namespace DevFramework.Json
set_option autoImplicit false
set_option maxHeartbeats 250000

variable {ν : Type}

/-- No backslash, no ten digits in a row, and an `int` counts the text. -/
structure Harmless (t : Text) : Prop where
  plain : '\\' ∉ t
  digits : ∀ ds rest, ds ++ rest <:+ t → (∀ c ∈ ds, c.isDigit = true) → ds.length < 10
  short : (t.length : ℤ) < intMax

section Harmless
variable {t s : Text}

theorem Harmless.suffix (h : Harmless t) (hs : s <:+ t) : Harmless s where
  plain := fun hin => h.plain (hs.subset hin)
  digits := fun ds rest hds => h.digits ds rest (hds.trans hs)
  short := by
    have hlen := hs.length_le
    have hshort := h.short
    omega

theorem map_ne_fault {α β : Type} {r : Except Fail α} (h : r ≠ .error .fault) {f : α → β} :
    r.map f ≠ .error .fault := by
  cases r with
  | ok a => exact fun he => by cases he
  | error e => exact fun he => h (congrArg Except.error (Except.error.inj he))

/-! ## Strings -/

/-- Without a backslash both loops stop at the same quote, and what is written is what was counted. -/
theorem scanLength_plain (ht : '\\' ∉ t) : ∃ len, scanLength t = some len ∧ len ≤ t.length ∧
    ∀ (u : Units) (n : ℕ), t.length < n → ∃ out rest, unescape n u t = .ok (out, rest) ∧
      out.length = len := by
  induction t with
  | nil =>
    refine ⟨0, rfl, Nat.le_refl 0, fun u n hn => ?_⟩
    obtain ⟨n, rfl⟩ : ∃ k, n = k + 1 := ⟨n - 1, by omega⟩
    exact ⟨[], [], rfl, rfl⟩
  | cons c t ih =>
    rw [List.mem_cons, not_or] at ht
    have hslash : c ≠ '\\' := Ne.symm ht.1
    by_cases hquote : c = '"'
    · refine ⟨0, ?_, Nat.zero_le _, fun u n hn => ?_⟩
      · rw [scanLength.eq_def]
        exact if_pos hquote
      · obtain ⟨n, rfl⟩ : ∃ k, n = k + 1 := ⟨n - 1, by omega⟩
        exact ⟨[], c :: t, if_pos hquote, rfl⟩
    · obtain ⟨len, hlen, hle, hread⟩ := ih ht.2
      refine ⟨len + 1, ?_, Nat.succ_le_succ hle, fun u n hn => ?_⟩
      · rw [scanLength.eq_def]
        simp only [hquote, hslash, if_false, hlen, Option.map_some]
      · obtain ⟨n, rfl⟩ : ∃ k, n = k + 1 := ⟨n - 1, by omega⟩
        obtain ⟨out, rest, hout, hcount⟩ := hread u n (by rw [List.length_cons] at hn; omega)
        have hstep : unescapeStep u c t = some ([c], u, t) := if_pos hslash
        refine ⟨c :: out, rest, ?_, congrArg Nat.succ hcount⟩
        rw [unescape, if_neg hquote, hstep]
        simp only [hout]
        rfl

theorem parseString_harmless (h : Harmless t) : parseString t ≠ .error .fault := by
  cases t with
  | nil => exact fun he => by cases he
  | cons c t =>
    have ht : '\\' ∉ t := fun hin => h.plain (List.mem_cons_of_mem c hin)
    obtain ⟨len, hlen, hle, hread⟩ := scanLength_plain ht
    obtain ⟨out, rest, hout, hcount⟩ := hread {} (t.length + 1) (Nat.lt_succ_self _)
    have hint : ¬intMax < (len : ℤ) + 1 := by
      have hshort := h.short
      rw [List.length_cons] at hshort
      omega
    simp only [parseString, hlen, hout, if_neg hint, if_pos (Nat.le_of_eq hcount)]
    split_ifs <;> exact fun he => by cases he

/-! ## Numbers -/

theorem foldl_subscale_lt (ds : Text) (hds : ∀ c ∈ ds, c.isDigit = true) {k : ℕ} {n : ℤ}
    (hn : 0 ≤ n ∧ n < 10 ^ k) (hk : k + ds.length < 10) :
    ∃ m, ds.foldl (fun a c => subscaleStep a (c.toNat - 48)) (some n) = some m := by
  induction ds generalizing k n with
  | nil => exact ⟨n, rfl⟩
  | cons c ds ih =>
    have hdigit : c.toNat - 48 < 10 := by
      have hc := hds c List.mem_cons_self
      simp only [Char.isDigit, Bool.and_eq_true, decide_eq_true_eq] at hc
      have hle : c.toNat ≤ 57 := hc.2
      omega
    rw [List.length_cons] at hk
    have hpow : (10 : ℤ) ^ (k + 1) ≤ 10 ^ 9 := pow_le_pow_right₀ (by decide) (by omega)
    have hsucc : (10 : ℤ) ^ (k + 1) = 10 ^ k * 10 := pow_succ 10 k
    have hnext : n * 10 + ((c.toNat - 48 : ℕ) : ℤ) < 10 ^ (k + 1) := by omega
    have hstep : subscaleStep (some n) (c.toNat - 48) =
        some (n * 10 + ((c.toNat - 48 : ℕ) : ℤ)) := by
      refine if_pos ?_
      unfold intMax
      omega
    rw [List.foldl_cons, hstep]
    exact ih (fun d hd => hds d (List.mem_cons_of_mem c hd)) (k := k + 1) ⟨by omega, hnext⟩
      (by omega)

theorem parseExponent_harmless (h : Harmless t) : ∃ m, (parseExponent t).1 = some m := by
  unfold parseExponent
  split_ifs
  · have hsuffix : (exponentSign t.tail).2 <:+ t :=
      (exponentSign_suffix _).trans (List.tail_suffix t)
    have hdigits : ∀ c ∈ (exponentSign t.tail).2.takeWhile Char.isDigit, c.isDigit = true :=
      fun c hc => List.mem_takeWhile_imp hc
    have hfew := h.digits _ ((exponentSign t.tail).2.dropWhile Char.isDigit)
      (by rw [List.takeWhile_append_dropWhile]; exact hsuffix) hdigits
    obtain ⟨m, hm⟩ := foldl_subscale_lt _ hdigits (k := 0) (n := 0) (by decide) (by omega)
    refine ⟨m * (exponentSign t.tail).1, ?_⟩
    simp only [overDigits, hm, Option.map_some]
  · exact ⟨0, rfl⟩

section Parse
variable (D : Doubles ν)

theorem parseNumber_harmless (h : Harmless t) : parseNumber D t ≠ .error .fault := by
  have hsuffix : (fractionDigits D (integerDigits D (skipZero (mantissaSign t).2)).1
      (integerDigits D (skipZero (mantissaSign t).2)).2).2 <:+ t :=
    (fractionDigits_suffix D _ _).trans ((integerDigits_suffix D _).trans
      ((skipZero_suffix _).trans (mantissaSign_suffix t)))
  obtain ⟨m, hm⟩ := parseExponent_harmless (h.suffix hsuffix)
  simp only [parseNumber, hm]
  exact fun he => by cases he

/-! ## Values -/

/-- A part of the parser that moves, and does no harm to texts of some length. -/
def Careful (parse : Text → Parsed ν) (m : ℕ) : Prop :=
  ∀ t, t.length ≤ m → Harmless t → Moves (fun r => r.2.2) t (parse t) ∧ parse t ≠ .error .fault

theorem parseElements_harmless {parse : Text → Parsed ν} {m k : ℕ} (hparse : Careful parse m)
    (ht : t.length ≤ m) (h : Harmless t) : parseElements parse k t ≠ .error .fault := by
  induction k generalizing t with
  | zero => exact fun he => by cases he
  | succ k ih =>
    have hskip := skip_suffix t
    obtain ⟨hmoves, hsafe⟩ :=
      hparse (skip t) (Nat.le_trans hskip.length_le ht) (h.suffix hskip)
    rw [parseElements]
    cases hvalue : parse (skip t) with
    | error e =>
      rw [hvalue] at hsafe
      exact fun he => hsafe (congrArg Except.error (Except.error.inj he))
    | ok r =>
      obtain ⟨v, child, rest⟩ := r
      rw [hvalue] at hmoves
      have hrest : rest <:+ t := List.IsSuffix.trans hmoves.1 hskip
      have htail : (skip rest).tail <:+ t :=
        (List.tail_suffix _).trans ((skip_suffix rest).trans hrest)
      simp only
      split_ifs
      · exact map_ne_fault (ih (Nat.le_trans htail.length_le ht) (h.suffix htail))
      · exact fun he => by cases he

theorem parseMembers_harmless {parse : Text → Parsed ν} {m k : ℕ} (hparse : Careful parse m)
    (ht : t.length ≤ m) (h : Harmless t) : parseMembers parse k t ≠ .error .fault := by
  induction k generalizing t with
  | zero => exact fun he => by cases he
  | succ k ih =>
    have hskip := skip_suffix t
    have hname := parseString_moves (skip t)
    have hnameSafe := parseString_harmless (h.suffix hskip)
    rw [parseMembers]
    cases hstring : parseString (skip t) with
    | error e =>
      rw [hstring] at hnameSafe
      exact fun he => hnameSafe (congrArg Except.error (Except.error.inj he))
    | ok r =>
      obtain ⟨string, rest⟩ := r
      rw [hstring] at hname
      have hcolon : skip rest <:+ t := (skip_suffix rest).trans (hname.1.trans hskip)
      simp only
      split_ifs with hhead
      · exact fun he => by cases he
      · have hafter : skip (skip rest).tail <:+ t :=
          (skip_suffix _).trans ((List.tail_suffix _).trans hcolon)
        obtain ⟨hmoves, hsafe⟩ :=
          hparse _ (Nat.le_trans hafter.length_le ht) (h.suffix hafter)
        cases hvalue : parse (skip (skip rest).tail) with
        | error e =>
          rw [hvalue] at hsafe
          exact fun he => hsafe (congrArg Except.error (Except.error.inj he))
        | ok r =>
          obtain ⟨v, child, rest'⟩ := r
          rw [hvalue] at hmoves
          have hrest : rest' <:+ t := List.IsSuffix.trans hmoves.1 hafter
          have htail : (skip rest').tail <:+ t :=
            (List.tail_suffix _).trans ((skip_suffix rest').trans hrest)
          simp only
          split_ifs
          · exact map_ne_fault (ih (Nat.le_trans htail.length_le ht) (h.suffix htail))
          · exact fun he => by cases he

/-- What `parse_array` and `parse_object` do with their entries. -/
theorem container_harmless {close : Char} {v : Value ν} (entries : Except Fail (Chain ν × Text)) :
    entries ≠ .error .fault →
    (match entries with
      | .error e => .error e
      | .ok (child, value) =>
        if value.head? = some close then .ok (v, child, value.tail)
        else .error (.error value) : Parsed ν) ≠ .error .fault := by
  intro h
  cases entries with
  | error e => exact fun he => h (congrArg Except.error (Except.error.inj he))
  | ok r =>
    simp only
    split_ifs <;> exact fun he => by cases he

theorem parseValue_harmless {fuel : ℕ} (hfuel : t.length < fuel) (h : Harmless t) :
    parseValue D fuel t ≠ .error .fault := by
  induction fuel generalizing t with
  | zero => omega
  | succ fuel ih =>
    have hinner : ∀ m < fuel, Careful (parseValue D fuel) m := fun m hm s hs hsafe =>
      ⟨parseValue_moves D (Nat.lt_of_le_of_lt hs hm), ih (Nat.lt_of_le_of_lt hs hm) hsafe⟩
    rw [parseValue]
    split_ifs
    · exact fun he => by cases he
    · exact fun he => by cases he
    · exact fun he => by cases he
    · split
      · exact fun he => by cases he
      · rename_i c hhead
        have htail := tail_shorter hhead
        have hskip : skip t.tail <:+ t := (skip_suffix t.tail).trans htail.1
        have hshort : (skip t.tail).length < t.length :=
          Nat.lt_of_le_of_lt (skip_suffix t.tail).length_le htail.2
        split_ifs
        · exact map_ne_fault (parseString_harmless h)
        · exact map_ne_fault (parseNumber_harmless D h)
        · rw [parseArray]
          split_ifs
          · exact fun he => by cases he
          · exact container_harmless _ (parseElements_harmless (hinner _ (by omega)) (Nat.le_refl _)
              (h.suffix hskip))
        · rw [parseObject]
          split_ifs
          · exact fun he => by cases he
          · exact container_harmless _ (parseMembers_harmless (hinner _ (by omega)) (Nat.le_refl _)
              (h.suffix hskip))
        · exact fun he => by cases he

/-- `cJSON_Parse` ends on every text, or does something undefined first, which it never does on a
harmless text. Where it returns null, `ep` points into the text. -/
theorem parse_ends (value : Text) :
    parse D value ≠ .error .fuel ∧ (∀ ep, parse D value = .error (.error ep) → ep <:+ value) ∧
      (Harmless value → parse D value ≠ .error .fault) := by
  obtain ⟨hfuel, hep⟩ := parse_moves D value
  refine ⟨hfuel, hep, fun h => ?_⟩
  have hskip := skip_suffix value
  exact map_ne_fault
    (parseValue_harmless D (Nat.lt_succ_of_le hskip.length_le) (h.suffix hskip))

end Parse

end Harmless

end DevFramework.Json
