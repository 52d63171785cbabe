import DevFramework.Json.Progress
import DevFramework.Json.RoundTrip

/-! # What the parser makes

Whatever the text, entries of arrays have no names and entries of objects have one, only arrays and
objects have children, and no string holds a NUL.
-/
namespace DevFramework.Json
set_option autoImplicit false
set_option maxHeartbeats 250000

variable {ν : Type}

/-- Entries as the parser makes them. -/
def Chain.Proper : Bool → Chain ν → Prop
  | _, .nil => True
  | named, .cons string value child next =>
    (if named then ∃ s, string = some s ∧ '\x00' ∉ s else string = none) ∧
      (∀ s, value = .string s → '\x00' ∉ s) ∧
      (match value with
        | .array => child.Proper false
        | .object => child.Proper true
        | _ => child = .nil) ∧
      next.Proper named

/-- All numbers are integers that `double` holds exactly. -/
def Chain.Whole (D : Doubles ν) : Chain ν → Prop
  | .nil => True
  | .cons _ value child next =>
    (∀ n, value = .number n → ∃ z, Small z ∧ n = D.ofInt z) ∧ child.Whole D ∧ next.Whole D

theorem Chain.Proper.clean {D : Doubles ν} {named : Bool} {c : Chain ν} (h : c.Proper named)
    (hw : c.Whole D) : c.Clean D named := by
  induction c generalizing named with
  | nil => trivial
  | cons string value child next ihc ihn =>
    obtain ⟨hstring, htext, hchild, hnext⟩ := h
    obtain ⟨hnumber, hwc, hwn⟩ := hw
    refine ⟨fun hn => ?_, ?_, ?_, ihn hnext hwn⟩
    · rw [hn] at hstring
      exact hstring
    · cases value with
      | number n => exact hnumber n rfl
      | string s => exact htext s rfl
      | _ => trivial
    · cases value with
      | array => exact ihc hchild hwc
      | object => exact ihc hchild hwc
      | _ => trivial

theorem Chain.Proper.canon {named : Bool} {c : Chain ν} (h : c.Proper named) :
    c.canon named = c := by
  induction c generalizing named with
  | nil => rfl
  | cons string value child next ihc ihn =>
    obtain ⟨hstring, -, hchild, hnext⟩ := h
    have hname : (if named then string else none) = string := by
      cases named with
      | true => rfl
      | false => exact hstring.symm
    cases value with
    | array => simp only [Chain.canon, hname, ihc hchild, ihn hnext]
    | object => simp only [Chain.canon, hname, ihc hchild, ihn hnext]
    | _ =>
      obtain rfl : child = .nil := hchild
      simp only [Chain.canon, hname, ihn hnext]

/-! ## No string holds a NUL -/

theorem byte_ne_nul {n : ℕ} (hn : n % 256 ≠ 0) : byte n ≠ '\x00' := by
  intro h
  have hvalue := Piece.toNat_ofNat_byte (Nat.mod_lt n (by decide : 0 < 256))
  rw [show Char.ofNat (n % 256) = byte n from rfl, h] at hvalue
  exact hn hvalue.symm

theorem putUtf8_noNul {uc : ℕ} (h : uc ≠ 0) : '\x00' ∉ putUtf8 uc := by
  rw [putUtf8, putBytes_eq, List.append_nil]
  intro hin
  obtain hlead | htail := List.mem_cons.mp hin
  · have hmark : firstByteMark (utf8Len uc) % 256 = 0 → utf8Len uc - 1 = 0 ∧ uc < 128 := by
      unfold utf8Len
      split_ifs <;> simp [firstByteMark]
      assumption
    refine byte_ne_nul (fun hzero => ?_) hlead.symm
    have hor : (uc >>> (6 * (utf8Len uc - 1)) ||| firstByteMark (utf8Len uc)) % 2 ^ 8 =
        uc >>> (6 * (utf8Len uc - 1)) % 2 ^ 8 ||| firstByteMark (utf8Len uc) % 2 ^ 8 :=
      Nat.or_mod_two_pow
    have hle := Nat.right_le_or (n := uc >>> (6 * (utf8Len uc - 1)) % 2 ^ 8)
      (m := firstByteMark (utf8Len uc) % 2 ^ 8)
    have hle' := Nat.left_le_or (n := uc >>> (6 * (utf8Len uc - 1)) % 2 ^ 8)
      (m := firstByteMark (utf8Len uc) % 2 ^ 8)
    rw [← hor] at hle hle'
    simp only [Nat.reducePow] at hle hle'
    obtain ⟨hlen, hsmall⟩ := hmark (by omega)
    rw [hlen, Nat.mul_zero, Nat.shiftRight_zero] at hle' hzero
    omega
  · obtain ⟨n, hn, hzero⟩ := List.mem_map.mp htail
    have hdiv := Utf8.tail_div _ _ n hn
    have hvalue := Piece.toNat_ofNat_byte (show n < 256 by omega)
    rw [hzero] at hvalue
    have hn0 : 0 = n := hvalue
    omega

theorem lowSurrogate_noNul {uc : ℕ} {uc2 : Option ℕ} {t t' w : Text} {u' : Units}
    (h : lowSurrogate uc uc2 t = some (w, u', t')) : '\x00' ∉ w := by
  have hcode : ∀ x y : ℕ, 0x10000 ||| x ||| y ≠ 0 := by
    intro x y hzero
    have hle := Nat.left_le_or (n := 0x10000 ||| x) (m := y)
    have hle' := Nat.left_le_or (n := 0x10000) (m := x)
    omega
  unfold lowSurrogate at h
  split at h
  · cases h
  split at h
  · cases h
  split at h
  · cases h
    exact List.not_mem_nil
  · cases h
    exact putUtf8_noNul (hcode _ _)

theorem transcode_noNul {u u' : Units} {t t' w : Text} (h : transcode u t = some (w, u', t')) :
    '\x00' ∉ w := by
  unfold transcode at h
  split at h
  · cases h
  split at h
  · cases h
  split at h
  · cases h
    exact List.not_mem_nil
  split at h
  · split at h
    · cases h
      exact List.not_mem_nil
    · exact lowSurrogate_noNul h
  · rename_i hzero _
    cases h
    exact putUtf8_noNul (not_or.mp hzero).2

theorem unescapeStep_noNul {u u' : Units} {c : Char} {t t' w : Text} (hc : c ≠ '\x00')
    (ht : '\x00' ∉ t) (h : unescapeStep u c t = some (w, u', t')) : '\x00' ∉ w := by
  have hchar : ∀ d : Char, d ≠ '\x00' → unescapeChar d ≠ '\x00' := by
    intro d hd
    unfold unescapeChar
    split_ifs <;> first | exact hd | decide
  unfold unescapeStep at h
  split at h
  · cases h
    exact fun hin => hc (List.mem_singleton.mp hin).symm
  · cases t with
    | nil => cases h
    | cons d t =>
      simp only at h
      split at h
      · exact transcode_noNul h
      · cases h
        exact fun hin => hchar d (fun hd => ht (hd ▸ List.mem_cons_self))
          (List.mem_singleton.mp hin).symm

theorem unescape_noNul {n : ℕ} {u : Units} {t : Text} (ht : '\x00' ∉ t) {out rest : Text}
    (h : unescape n u t = .ok (out, rest)) : '\x00' ∉ out := by
  induction n generalizing u t out with
  | zero => cases h
  | succ n ih =>
    cases t with
    | nil =>
      cases h
      exact List.not_mem_nil
    | cons c t =>
      rw [List.mem_cons, not_or] at ht
      rw [unescape] at h
      split at h
      · cases h
        exact List.not_mem_nil
      · split at h
        · cases h
        · rename_i w u' t' hstep
          have hsuffix := unescapeStep_suffix hstep
          cases hrec : unescape n u' t' with
          | error e =>
            rw [hrec] at h
            cases h
          | ok r =>
            rw [hrec] at h
            cases h
            rw [List.mem_append, not_or]
            exact ⟨unescapeStep_noNul (Ne.symm ht.1) ht.2 hstep,
              ih (fun hin => ht.2 (hsuffix.subset hin)) hrec⟩

theorem parseString_noNul {str : Text} (hstr : '\x00' ∉ str) {s rest : Text}
    (h : parseString str = .ok (s, rest)) : '\x00' ∉ s := by
  cases str with
  | nil => cases h
  | cons c t =>
    rw [List.mem_cons, not_or] at hstr
    simp only [parseString] at h
    split at h
    · cases h
    split at h
    · cases h
    split at h
    · cases h
    split at h
    · cases h
    · rename_i hread
      split at h
      · cases h
        exact unescape_noNul hstr.2 hread
      · cases h

/-! ## Names and children -/

/-- What a value and its children are like. -/
def Made (r : Value ν × Chain ν) : Prop := (Chain.cons none r.1 r.2 .nil).Proper false

/-- What a part of the parser accepts has a property. -/
def Accepts {α : Type} (P : α → Prop) : Except Fail α → Prop
  | .ok a => P a
  | .error _ => True

theorem Accepts.map {α β : Type} {P : α → Prop} {Q : β → Prop} {r : Except Fail α} (h : Accepts P r)
    {f : α → β} (hf : ∀ a, P a → Q (f a)) : Accepts Q (r.map f) := by
  cases r with
  | ok a => exact hf a h
  | error e => trivial

section Parse
variable {parse : Text → Parsed ν} {t : Text} {m : ℕ}

/-- What `parse_value` makes of a text of some length. -/
def ParsesProper (parse : Text → Parsed ν) (m : ℕ) : Prop :=
  ∀ s : Text, s.length ≤ m → '\x00' ∉ s →
    Accepts (fun r => Made (r.1, r.2.1) ∧ r.2.2 <:+ s) (parse s)

theorem proper_cons {named : Bool} {string : Option Text}
    (hstring : if named then ∃ s, string = some s ∧ '\x00' ∉ s else string = none)
    {value : Value ν} {child next : Chain ν} (hvalue : Made (value, child))
    (hnext : next.Proper named) : (Chain.cons string value child next).Proper named :=
  ⟨hstring, hvalue.2.1, hvalue.2.2.1, hnext⟩

theorem proper_element {value : Value ν} {child next : Chain ν} (hvalue : Made (value, child))
    (hnext : next.Proper false) : (Chain.cons none value child next).Proper false :=
  proper_cons (by simp) hvalue hnext

theorem proper_member {s : Text} (hs : '\x00' ∉ s) {value : Value ν} {child next : Chain ν}
    (hvalue : Made (value, child)) (hnext : next.Proper true) :
    (Chain.cons (some s) value child next).Proper true :=
  proper_cons (by simpa using hs) hvalue hnext

theorem parseElements_proper (hparse : ParsesProper parse m) {k : ℕ} (hm : t.length ≤ m)
    (ht : '\x00' ∉ t) : Accepts (fun r => r.1.Proper false) (parseElements parse k t) := by
  induction k generalizing t with
  | zero => trivial
  | succ k ih =>
    have hskip := skip_suffix t
    have hvalue := hparse (skip t) (Nat.le_trans hskip.length_le hm) fun h => ht (hskip.subset h)
    rw [parseElements]
    cases hresult : parse (skip t) with
    | error e => trivial
    | ok r =>
      obtain ⟨v, child, rest⟩ := r
      rw [hresult] at hvalue
      obtain ⟨hmade, hrest⟩ : Made (v, child) ∧ rest <:+ skip t := hvalue
      simp only
      split
      · have htail : (skip rest).tail <:+ t :=
          (List.tail_suffix _).trans ((skip_suffix rest).trans (hrest.trans hskip))
        exact (ih (Nat.le_trans htail.length_le hm) fun h => ht (htail.subset h)).map fun r hr =>
          proper_element hmade hr
      · exact proper_element hmade trivial

theorem parseMembers_proper (hparse : ParsesProper parse m) {k : ℕ} (hm : t.length ≤ m)
    (ht : '\x00' ∉ t) : Accepts (fun r => r.1.Proper true) (parseMembers parse k t) := by
  induction k generalizing t with
  | zero => trivial
  | succ k ih =>
    have hskip := skip_suffix t
    have hname := parseString_moves (skip t)
    rw [parseMembers]
    cases hstring : parseString (skip t) with
    | error e => trivial
    | ok r =>
      obtain ⟨string, rest⟩ := r
      rw [hstring] at hname
      have hnul := parseString_noNul (fun h => ht (hskip.subset h)) hstring
      have hcolon : skip rest <:+ t := (skip_suffix rest).trans (hname.1.trans hskip)
      simp only
      split
      · trivial
      · have hafter : skip (skip rest).tail <:+ t :=
          (skip_suffix _).trans ((List.tail_suffix _).trans hcolon)
        have hvalue := hparse _ (Nat.le_trans hafter.length_le hm) fun h => ht (hafter.subset h)
        cases hresult : parse (skip (skip rest).tail) with
        | error e => trivial
        | ok r =>
          obtain ⟨v, child, rest'⟩ := r
          rw [hresult] at hvalue
          obtain ⟨hmade, hrest⟩ : Made (v, child) ∧ rest' <:+ skip (skip rest).tail := hvalue
          simp only
          split
          · have htail : (skip rest').tail <:+ t :=
              (List.tail_suffix _).trans ((skip_suffix rest').trans (hrest.trans hafter))
            exact (ih (Nat.le_trans htail.length_le hm) fun h => ht (htail.subset h)).map
              fun r hr => proper_member hnul hmade hr
          · exact proper_member hnul hmade trivial

/-- What stands between the brackets. -/
theorem made_container {named : Bool} {close : Char} (entries : Except Fail (Chain ν × Text)) :
    Accepts (fun r => r.1.Proper named) entries →
    Accepts (fun r => Made (r.1, r.2.1))
      (match entries with
        | .error e => .error e
        | .ok (child, value) =>
          if value.head? = some close then .ok (containing named, child, value.tail)
          else .error (.error value) : Parsed ν) := by
  intro hentries
  cases entries with
  | error e => trivial
  | ok r =>
    have hproper : r.1.Proper named := hentries
    simp only
    split
    · cases named
      · exact ⟨by simp, fun s hs => (by cases hs), hproper, trivial⟩
      · exact ⟨by simp, fun s hs => (by cases hs), hproper, trivial⟩
    · trivial

theorem made_plain {value : Value ν} (hstring : ∀ s, value = .string s → '\x00' ∉ s) :
    Made (value, .nil) := by
  cases value <;> exact ⟨by simp, hstring, by first | rfl | trivial, trivial⟩

theorem parseValue_proper (D : Doubles ν) {fuel : ℕ} (hfuel : t.length < fuel) (ht : '\x00' ∉ t) :
    Accepts (fun r => Made (r.1, r.2.1)) (parseValue D fuel t) := by
  induction fuel generalizing t with
  | zero => omega
  | succ fuel ih =>
    have hinner : ∀ m < fuel, ParsesProper (parseValue D fuel) m := by
      intro m hm s hs hnul
      have hmade := ih (Nat.lt_of_le_of_lt hs hm) hnul
      have hmoves := parseValue_moves D (Nat.lt_of_le_of_lt hs hm)
      cases hresult : parseValue D fuel s with
      | error e => trivial
      | ok r =>
        rw [hresult] at hmade hmoves
        exact ⟨hmade, hmoves.1⟩
    rw [parseValue]
    split_ifs
    · exact made_plain fun s hs => (by cases hs)
    · exact made_plain fun s hs => (by cases hs)
    · exact made_plain fun s hs => (by cases hs)
    · split
      · trivial
      · rename_i c hhead
        have htail := tail_shorter hhead
        have hskip : skip t.tail <:+ t := (skip_suffix t.tail).trans htail.1
        have hshort : (skip t.tail).length < t.length :=
          Nat.lt_of_le_of_lt (skip_suffix t.tail).length_le htail.2
        have hnul : '\x00' ∉ skip t.tail := fun h => ht (hskip.subset h)
        split_ifs
        · cases hstring : parseString t with
          | error e => trivial
          | ok r =>
            exact made_plain fun s hs => Value.string.inj hs ▸ parseString_noNul ht hstring
        · cases parseNumber D t with
          | error e => trivial
          | ok r => exact made_plain fun s hs => (by cases hs)
        · rw [parseArray]
          split_ifs
          · exact made_plain fun s hs => (by cases hs)
          · exact made_container _
              (parseElements_proper (hinner _ (by omega)) (Nat.le_refl _) hnul)
        · rw [parseObject]
          split_ifs
          · exact made_plain fun s hs => (by cases hs)
          · exact made_container _
              (parseMembers_proper (hinner _ (by omega)) (Nat.le_refl _) hnul)
        · trivial

end Parse

/-- Every document that is made of a text is as the printer wants it. -/
theorem parse_proper (D : Doubles ν) {t : Text} (ht : '\x00' ∉ t) {value : Value ν} {child : Chain ν}
    (h : parse D t = .ok (value, child)) : (Chain.cons none value child .nil).Proper false := by
  have hskip := skip_suffix t
  have hmade := parseValue_proper D (Nat.lt_succ_of_le hskip.length_le) fun hin =>
    ht (hskip.subset hin)
  unfold parse at h
  cases hresult : parseValue D (t.length + 1) (skip t) with
  | error e =>
    rw [hresult] at h
    cases h
  | ok r =>
    rw [hresult] at h hmade
    cases h
    exact hmade

/-- A document that was read, printed in either format and read again is the same document. -/
theorem parse_print_parse {D : Doubles ν} (hD : D.Exact) {t : Text} (ht : '\x00' ∉ t)
    {value : Value ν} {child : Chain ν} (hread : parse D t = .ok (value, child))
    (hwhole : (Chain.cons none value child .nil).Whole D) (fmt : Bool)
    (hsized : (Chain.cons none value child .nil).Sized D fmt 0) :
    ∃ out, print D fmt value child = some out ∧ parse D out = .ok (value, child) := by
  have hproper := parse_proper D ht hread
  obtain ⟨out, e, hprint, hplain, hchain, rfl⟩ :=
    print_spelled hD fmt (hproper.clean hwhole) hsized
  rw [hproper.canon] at hchain
  have hagain := parse_written D hplain hchain (show NumberEnds [] from fun c hc => (by cases hc))
  rw [List.append_nil] at hagain
  exact ⟨_, hprint, hagain⟩

theorem parse_print_parse_array :
    ∃ out, print integers false .array (.cons none (.number 7) .nil (.cons none .null .nil .nil)) =
        some out ∧
      parse integers out =
        .ok (.array, .cons none (.number 7) .nil (.cons none .null .nil .nil)) := by
  have hread : parse integers [' ', '[', '7', ' ', ',', 'n', 'u', 'l', 'l', ']'] =
      .ok (.array, .cons none (.number 7) .nil (.cons none .null .nil .nil)) := rfl
  have hseven : Small 7 := ⟨by decide, by decide⟩
  have hsized : (Chain.cons none .array (.cons none (.number 7) .nil (.cons none .null .nil .nil))
      .nil).Sized integers false 0 := by
    refine ⟨?_, ⟨trivial, trivial, trivial, trivial, trivial⟩, trivial⟩
    change (arrayLength false _ : ℤ) ≤ intMax
    decide
  exact parse_print_parse integers_exact (by decide) hread
    ⟨fun n hn => (by cases hn),
      ⟨fun n hn => ⟨7, hseven, (Value.number.inj hn).symm⟩, trivial,
        ⟨fun n hn => (by cases hn), trivial, trivial⟩⟩, trivial⟩ false hsized

end DevFramework.Json
