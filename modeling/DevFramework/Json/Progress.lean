import DevFramework.Json.Parsing

/-! # Every text is parsed to an end

Each part of the parser takes at least a character of the text that it accepts, so no loop is passed
more often than the text is long, and values are nested no deeper. Where the parser returns null,
`ep` points into the text.
-/
namespace DevFramework.Json
set_option autoImplicit false
set_option maxHeartbeats 250000

variable {ν : Type}

/-- The part leaves a shorter rest of the text, or `ep` pointing into it, or goes wrong. -/
def Moves {α : Type} (rest : α → Text) (t : Text) : Except Fail α → Prop
  | .ok a => rest a <:+ t ∧ (rest a).length < t.length
  | .error (.error ep) => ep <:+ t
  | .error .fault => True
  | .error .fuel => False

section Moves
variable {α β : Type} {rest : α → Text} {rest' : β → Text} {t t' : Text} {r : Except Fail α}

theorem Moves.mono (h : Moves rest t r) (ht : t <:+ t') : Moves rest t' r := by
  cases r with
  | ok a => exact ⟨h.1.trans ht, Nat.lt_of_lt_of_le h.2 ht.length_le⟩
  | error e =>
    cases e with
    | error ep => exact h.trans ht
    | fault => exact trivial
    | fuel => exact h

theorem Moves.map (h : Moves rest t r) {f : α → β} (hf : ∀ a, rest' (f a) = rest a) :
    Moves rest' t (r.map f) := by
  cases r with
  | ok a =>
    change rest' (f a) <:+ t ∧ (rest' (f a)).length < t.length
    rw [hf]
    exact h
  | error e =>
    cases e with
    | error ep => exact h
    | fault => exact trivial
    | fuel => exact h

theorem Moves.error {e : Fail} (h : Moves rest t (.error e)) :
    Moves rest' t (.error e : Except Fail β) := by
  cases e with
  | error ep => exact h
  | fault => exact trivial
  | fuel => exact h

end Moves

theorem tail_shorter {t : Text} {c : Char} (h : t.head? = some c) :
    t.tail <:+ t ∧ t.tail.length < t.length := by
  cases t with
  | nil => cases h
  | cons d t => exact ⟨List.suffix_cons d t, Nat.lt_succ_self _⟩

/-! ## Strings -/

theorem lowSurrogate_suffix {uc : ℕ} {uc2 : Option ℕ} {t t' : Text} {w : Text} {u' : Units}
    (h : lowSurrogate uc uc2 t = some (w, u', t')) : t' <:+ t := by
  unfold lowSurrogate at h
  split_ifs at h
  split at h
  · cases h
  · split_ifs at h <;> cases h <;> exact List.drop_suffix _ _

theorem transcode_suffix {u u' : Units} {t t' w : Text}
    (h : transcode u t = some (w, u', t')) : t' <:+ t := by
  unfold transcode at h
  split at h
  · cases h
  split at h
  · cases h
  split at h
  · cases h
    exact List.drop_suffix _ _
  split at h
  · split at h
    · cases h
      exact List.drop_suffix _ _
    · exact lowSurrogate_suffix h
  · cases h
    exact List.drop_suffix _ _

theorem unescapeStep_suffix {u u' : Units} {c : Char} {t t' w : Text}
    (h : unescapeStep u c t = some (w, u', t')) : t' <:+ t := by
  unfold unescapeStep at h
  split at h
  · cases h
    exact List.suffix_refl _
  · cases t with
    | nil => cases h
    | cons d t =>
      simp only at h
      split at h
      · exact (transcode_suffix h).trans (List.suffix_cons d t)
      · cases h
        exact List.suffix_cons _ _

/-- The loop over a string ends inside of the text. -/
theorem unescape_suffix (u : Units) {t : Text} {n : ℕ} (hn : t.length < n) :
    unescape n u t = .error .fault ∨ ∃ out rest, unescape n u t = .ok (out, rest) ∧ rest <:+ t := by
  induction n generalizing u t with
  | zero => omega
  | succ n ih =>
    cases t with
    | nil => exact .inr ⟨[], [], rfl, List.suffix_refl []⟩
    | cons c t =>
      rw [unescape]
      split_ifs
      · exact .inr ⟨[], c :: t, rfl, List.suffix_refl _⟩
      · cases hstep : unescapeStep u c t with
        | none => exact .inl rfl
        | some p =>
          obtain ⟨w, u', t'⟩ := p
          have hsuffix := unescapeStep_suffix hstep
          have hlen := hsuffix.length_le
          rw [List.length_cons] at hn
          obtain hfault | ⟨out, rest, hok, hrest⟩ := ih u' (t := t') (by omega)
          · exact .inl (by simp only [hfault]; rfl)
          · exact .inr ⟨w ++ out, rest, by simp only [hok]; rfl,
              (hrest.trans hsuffix).trans (List.suffix_cons c t)⟩

theorem parseString_moves (str : Text) : Moves Prod.snd str (parseString str) := by
  cases str with
  | nil => exact List.suffix_refl []
  | cons c t =>
    simp only [parseString]
    split_ifs
    · exact List.suffix_refl _
    · cases scanLength t with
      | none => exact trivial
      | some len =>
        obtain hfault | ⟨out, rest, hok, hrest⟩ := unescape_suffix {} (Nat.lt_succ_self t.length)
        · simp only [hfault]
          split_ifs <;> exact trivial
        · simp only [hok]
          split_ifs
          · exact trivial
          · have hsuffix : rest.tail <:+ t := (List.tail_suffix rest).trans hrest
            exact ⟨hsuffix.trans (List.suffix_cons c t), Nat.lt_succ_of_le hsuffix.length_le⟩
          · exact trivial

/-! ## Numbers -/

theorem overDigits_suffix {α : Type} (step : α → ℕ → α) (a : α) (num : Text) :
    (overDigits step a num).2 <:+ num := List.dropWhile_suffix _

theorem exponentSign_suffix (num : Text) : (exponentSign num).2 <:+ num := by
  unfold exponentSign
  split_ifs
  · exact List.tail_suffix num
  · exact List.tail_suffix num
  · exact List.suffix_refl num

theorem parseExponent_suffix (num : Text) : (parseExponent num).2 <:+ num := by
  unfold parseExponent
  split
  · exact (overDigits_suffix subscaleStep (some 0) _).trans
      ((exponentSign_suffix _).trans (List.tail_suffix num))
  · exact List.suffix_refl num

theorem mantissaSign_suffix (num : Text) : (mantissaSign num).2 <:+ num := by
  unfold mantissaSign
  split_ifs
  · exact List.tail_suffix num
  · exact List.suffix_refl num

theorem skipZero_suffix (num : Text) : skipZero num <:+ num := by
  unfold skipZero
  split_ifs
  · exact List.tail_suffix num
  · exact List.suffix_refl num

section Parse
variable (D : Doubles ν)

theorem integerDigits_suffix (num : Text) : (integerDigits D num).2 <:+ num := by
  unfold integerDigits
  split_ifs
  · exact overDigits_suffix _ _ _
  · exact List.suffix_refl num

theorem fractionDigits_suffix (n : ν) (num : Text) : (fractionDigits D n num).2 <:+ num := by
  unfold fractionDigits
  split_ifs
  · exact (overDigits_suffix _ _ _).trans (List.tail_suffix num)
  · exact List.suffix_refl num

/-- At least the sign or the first digit is taken. -/
theorem parseNumber_moves {num : Text} {c : Char} (hhead : num.head? = some c)
    (hc : c = '-' ∨ c.isDigit = true) : Moves Prod.snd num (parseNumber D num) := by
  have hfirst : (integerDigits D (skipZero (mantissaSign num).2)).2 <:+ num.tail := by
    by_cases hminus : c = '-'
    · have hsign : (mantissaSign num).2 = num.tail := by
        rw [mantissaSign, if_pos (by rw [hhead, hminus])]
      rw [hsign]
      exact (integerDigits_suffix D _).trans (skipZero_suffix _)
    have hsign : (mantissaSign num).2 = num := by
      rw [mantissaSign, if_neg (by rw [hhead]; exact fun h => hminus (Option.some.inj h))]
    rw [hsign]
    by_cases hzero : c = '0'
    · rw [skipZero, if_pos (by rw [hhead, hzero])]
      exact integerDigits_suffix D _
    · have hdigit := hc.resolve_left hminus
      rw [skipZero, if_neg (by rw [hhead]; exact fun h => hzero (Option.some.inj h)),
        integerDigits, if_pos (by simp [hhead, hdigit, hzero])]
      cases num with
      | nil => cases hhead
      | cons d num =>
        obtain rfl : d = c := Option.some.inj hhead
        simp only [overDigits, List.dropWhile_cons, hdigit, if_true]
        exact List.dropWhile_suffix _
  have hrest : (parseExponent (fractionDigits D
      (integerDigits D (skipZero (mantissaSign num).2)).1
      (integerDigits D (skipZero (mantissaSign num).2)).2).2).2 <:+ num.tail :=
    (parseExponent_suffix _).trans ((fractionDigits_suffix D _ _).trans hfirst)
  have htail := tail_shorter hhead
  simp only [parseNumber]
  split
  · exact trivial
  · exact ⟨hrest.trans htail.1, Nat.lt_of_le_of_lt hrest.length_le htail.2⟩

/-! ## Values -/

theorem parseElements_moves {parse : Text → Parsed ν} {m : ℕ}
    (hparse : ∀ t, t.length ≤ m → Moves (fun r => r.2.2) t (parse t)) {k : ℕ} {t : Text}
    (ht : t.length ≤ m) (hk : t.length < k) : Moves Prod.snd t (parseElements parse k t) := by
  induction k generalizing t with
  | zero => omega
  | succ k ih =>
    have hskip := skip_suffix t
    have hmoves := hparse (skip t) (Nat.le_trans hskip.length_le ht)
    rw [parseElements]
    cases hvalue : parse (skip t) with
    | error e =>
      rw [hvalue] at hmoves
      exact (hmoves.mono hskip).error
    | ok r =>
      obtain ⟨v, child, rest⟩ := r
      rw [hvalue] at hmoves
      obtain ⟨hsuffix, hshort⟩ := (hmoves.mono hskip : rest <:+ t ∧ rest.length < t.length)
      have hsuffix' : skip rest <:+ t := (skip_suffix rest).trans hsuffix
      have hshort' : (skip rest).length < t.length :=
        Nat.lt_of_le_of_lt (skip_suffix rest).length_le hshort
      simp only
      split_ifs with hcomma
      · have htail := tail_shorter hcomma
        have hmore := ih (t := (skip rest).tail) (by omega) (by omega)
        exact (hmore.mono (htail.1.trans hsuffix')).map fun r => rfl
      · exact ⟨hsuffix', hshort'⟩

theorem parseMembers_moves {parse : Text → Parsed ν} {m : ℕ}
    (hparse : ∀ t, t.length ≤ m → Moves (fun r => r.2.2) t (parse t)) {k : ℕ} {t : Text}
    (ht : t.length ≤ m) (hk : t.length < k) : Moves Prod.snd t (parseMembers parse k t) := by
  induction k generalizing t with
  | zero => omega
  | succ k ih =>
    have hskip := skip_suffix t
    have hname := (parseString_moves (skip t)).mono hskip
    rw [parseMembers]
    cases hstring : parseString (skip t) with
    | error e =>
      rw [hstring] at hname
      exact hname.error
    | ok r =>
      obtain ⟨string, rest⟩ := r
      rw [hstring] at hname
      obtain ⟨hsuffix, hshort⟩ := (hname : rest <:+ t ∧ rest.length < t.length)
      have hcolon : skip rest <:+ t := (skip_suffix rest).trans hsuffix
      simp only
      split_ifs with hhead
      · exact hcolon
      · have hafter : skip (skip rest).tail <:+ t :=
          (skip_suffix _).trans ((List.tail_suffix _).trans hcolon)
        have hmoves := hparse _ (Nat.le_trans hafter.length_le ht)
        cases hvalue : parse (skip (skip rest).tail) with
        | error e =>
          rw [hvalue] at hmoves
          exact (hmoves.mono hafter).error
        | ok r =>
          obtain ⟨v, child, rest'⟩ := r
          rw [hvalue] at hmoves
          obtain ⟨hsuffix, hshort⟩ := (hmoves.mono hafter : rest' <:+ t ∧ rest'.length < t.length)
          have hsuffix' : skip rest' <:+ t := (skip_suffix rest').trans hsuffix
          have hshort' : (skip rest').length < t.length :=
            Nat.lt_of_le_of_lt (skip_suffix rest').length_le hshort
          simp only
          split_ifs with hcomma
          · have htail := tail_shorter hcomma
            have hmore := ih (t := (skip rest').tail) (by omega) (by omega)
            exact (hmore.mono (htail.1.trans hsuffix')).map fun r => rfl
          · exact ⟨hsuffix', hshort'⟩

/-- What `parse_array` and `parse_object` do behind their first character. -/
theorem moves_container {t : Text} {c : Char} (hhead : t.head? = some c) {close : Char}
    {v : Value ν} (entries : Text → Except Fail (Chain ν × Text))
    (hentries : ∀ s, s.length < t.length → Moves Prod.snd s (entries s)) :
    Moves (fun r => r.2.2) t
      (if (skip t.tail).head? = some close then .ok (v, .nil, (skip t.tail).tail)
      else
        match entries (skip t.tail) with
        | .error e => .error e
        | .ok (child, value) =>
          if value.head? = some close then .ok (v, child, value.tail)
          else .error (.error value) : Parsed ν) := by
  have htail := tail_shorter hhead
  have hinner : skip t.tail <:+ t := (skip_suffix t.tail).trans htail.1
  have hshort : (skip t.tail).length < t.length :=
    Nat.lt_of_le_of_lt (skip_suffix t.tail).length_le htail.2
  split_ifs with hempty
  · exact ⟨(List.tail_suffix _).trans hinner,
      Nat.lt_of_le_of_lt (List.tail_suffix _).length_le hshort⟩
  · have hmoves := hentries _ hshort
    cases hresult : entries (skip t.tail) with
    | error e =>
      rw [hresult] at hmoves
      exact (hmoves.mono hinner).error
    | ok r =>
      obtain ⟨child, value⟩ := r
      rw [hresult] at hmoves
      obtain ⟨hsuffix, hlen⟩ := (hmoves.mono hinner : value <:+ t ∧ value.length < t.length)
      simp only
      split_ifs
      · exact ⟨(List.tail_suffix value).trans hsuffix,
          Nat.lt_of_le_of_lt (List.tail_suffix value).length_le hlen⟩
      · exact hsuffix

theorem drop_moves {t word : Text} (h : word <+: t) {n : ℕ} (hn : 0 < n) (hw : n ≤ word.length) :
    t.drop n <:+ t ∧ (t.drop n).length < t.length := by
  have hlen := h.length_le
  refine ⟨List.drop_suffix n t, ?_⟩
  rw [List.length_drop]
  omega

theorem parseValue_moves {fuel : ℕ} {t : Text} (ht : t.length < fuel) :
    Moves (fun r => r.2.2) t (parseValue D fuel t) := by
  induction fuel generalizing t with
  | zero => omega
  | succ fuel ih =>
    have hinner : ∀ s : Text, s.length ≤ t.length - 1 → t ≠ [] →
        Moves (fun r => r.2.2) s (parseValue D fuel s) := fun s hs hne =>
      ih (by have hpos := List.length_pos_iff.mpr hne; omega)
    rw [parseValue]
    split_ifs with hnull hfalse htrue
    · exact drop_moves hnull (by decide) (by decide)
    · exact drop_moves hfalse (by decide) (by decide)
    · exact drop_moves htrue (by decide) (by decide)
    · split
      · exact List.suffix_refl t
      · rename_i c hhead
        have hne : t ≠ [] := fun h => by
          rw [h] at hhead
          cases hhead
        split_ifs with hquote hnumber harray hobject
        · exact (parseString_moves t).map fun r => rfl
        · exact (parseNumber_moves D hhead hnumber).map fun r => rfl
        · refine moves_container hhead
            (fun s => parseElements (parseValue D fuel) (s.length + 1) s) fun s hs => ?_
          exact parseElements_moves (fun s hs => hinner s hs hne) (Nat.le_sub_one_of_lt hs)
            (Nat.lt_succ_self _)
        · refine moves_container hhead
            (fun s => parseMembers (parseValue D fuel) (s.length + 1) s) fun s hs => ?_
          exact parseMembers_moves (fun s hs => hinner s hs hne) (Nat.le_sub_one_of_lt hs)
            (Nat.lt_succ_self _)
        · exact List.suffix_refl t

/-- The fuel of `parse` suffices. Where it returns null, `ep` points into the text. -/
theorem parse_moves (value : Text) :
    parse D value ≠ .error .fuel ∧ ∀ ep, parse D value = .error (.error ep) → ep <:+ value := by
  have hmoves := parseValue_moves D
    (Nat.lt_succ_of_le (skip_suffix value).length_le : (skip value).length < value.length + 1)
  unfold parse
  cases hresult : parseValue D (value.length + 1) (skip value) with
  | ok r => exact ⟨fun h => (by cases h), fun ep h => (by cases h)⟩
  | error e =>
    rw [hresult] at hmoves
    cases e with
    | error ep =>
      refine ⟨fun h => (by cases h), fun ep' h => ?_⟩
      obtain rfl : ep = ep' := Fail.error.inj (Except.error.inj h)
      exact List.IsSuffix.trans hmoves (skip_suffix value)
    | fault => exact ⟨fun h => (by cases h), fun ep h => (by cases h)⟩
    | fuel => exact absurd hmoves id

end Parse

end DevFramework.Json
