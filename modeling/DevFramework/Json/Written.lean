import DevFramework.Json.Numerals
import DevFramework.Json.Pieces

/-! # The grammar of a text

How a value may be written: with blanks around it, with its strings in pieces and its numbers as
numerals. The parser accepts each of these texts and makes the items that it spells.
-/
namespace DevFramework.Json
set_option autoImplicit false
set_option maxHeartbeats 250000

variable {ν : Type}

structure Blank where
  text : Text
  ok : ∀ c ∈ text, c ≠ '\x00' ∧ c.toNat ≤ 32

def Blank.none : Blank := ⟨[], List.forall_mem_nil _⟩

/-- A value that is no array and no object. -/
inductive Scalar where
  | null
  | bool (b : Bool)
  | number (x : Numeral)
  | string (ps : List Piece)

/-- What stands before the value of an entry. -/
inductive Label : Bool → Type where
  | element : Label false
  | member (before : Blank) (name : List Piece) (after : Blank) : Label true

/-- The entries of an array, or of an object, where they have names. -/
inductive Entries : Bool → Type where
  | nil {named : Bool} : Entries named
  | scalar {named : Bool} (label : Label named) (before : Blank) (s : Scalar) (after : Blank)
      (next : Entries named) : Entries named
  | node {named : Bool} (label : Label named) (before : Blank) (inner : Bool) (pad : Blank)
      (child : Entries inner) (after : Blank) (next : Entries named) : Entries named

def opening (named : Bool) : Char := if named then '{' else '['

def closing (named : Bool) : Char := if named then '}' else ']'

/-- The value that has such children. -/
def containing (named : Bool) : Value ν := if named then .object else .array

namespace Scalar

def text : Scalar → Text
  | null => "null".toList
  | bool b => if b then "true".toList else "false".toList
  | number x => x.text
  | string ps => '"' :: (spelled ps ++ ['"'])

def value (D : Doubles ν) : Scalar → Value ν
  | null => .null
  | bool b => .bool b
  | number x => .number (x.value D)
  | string ps => .string (ps.flatMap Piece.bytes)

/-- The source can read it: its exponent, or its length and its pairs. -/
def Plain : Scalar → Prop
  | number x => x.Fits
  | string ps => Readable ps
  | _ => True

end Scalar

namespace Label
variable {named : Bool}

def text : Label named → Text
  | element => []
  | member before name after => before.text ++ '"' :: (spelled name ++ '"' :: (after.text ++ [':']))

def string : Label named → Option Text
  | element => none
  | member _ name _ => some (name.flatMap Piece.bytes)

def Plain : Label named → Prop
  | element => True
  | member _ name _ => Readable name

end Label

namespace Entries

/-- The text, behind a comma unless they are the first. -/
def textFrom (first : Bool) {named : Bool} : Entries named → Text
  | nil => []
  | scalar label before s after next =>
    (if first then [] else [',']) ++
      (label.text ++ (before.text ++ (s.text ++ (after.text ++ next.textFrom false))))
  | node label before inner pad child after next =>
    (if first then [] else [',']) ++
      (label.text ++ (before.text ++ (opening inner :: (pad.text ++ (child.textFrom true ++
        closing inner :: (after.text ++ next.textFrom false))))))

def text {named : Bool} (e : Entries named) : Text := e.textFrom true

/-- The items that are spelled. -/
def chain (D : Doubles ν) {named : Bool} : Entries named → Chain ν
  | nil => .nil
  | scalar label _ s _ next => .cons label.string (s.value D) .nil (next.chain D)
  | node label _ inner _ child _ next =>
    .cons label.string (containing inner) (child.chain D) (next.chain D)

/-- The source can read all of it. -/
def Plain {named : Bool} : Entries named → Prop
  | nil => True
  | scalar label _ s _ next => label.Plain ∧ s.Plain ∧ next.Plain
  | node label _ _ _ child _ next => label.Plain ∧ child.Plain ∧ next.Plain

end Entries

/-! ## Blanks -/

/-- A text that does not start with a blank. -/
def Solid (t : Text) : Prop := ∀ c, t.head? = some c → 32 < c.toNat

theorem skip_solid {t : Text} (ht : Solid t) : skip t = t := by
  cases t with
  | nil => rfl
  | cons c t =>
    have hc : ¬c.toNat ≤ 32 := Nat.not_le_of_lt (ht c rfl)
    simp [skip, hc]

theorem skip_blank (b : Blank) (t : Text) : skip (b.text ++ t) = skip t :=
  List.dropWhile_append_of_pos fun c hc => decide_eq_true (b.ok c hc).2

theorem skip_blank_solid (b : Blank) {t : Text} (ht : Solid t) : skip (b.text ++ t) = t := by
  rw [skip_blank, skip_solid ht]

theorem solid_skip (t : Text) : Solid (skip t) := by
  intro c hc
  have h := List.head?_dropWhile_not (fun c : Char => decide (c.toNat ≤ 32)) t
  rw [skip] at hc
  rw [hc] at h
  simpa using h

theorem skip_skip (t : Text) : skip (skip t) = skip t := skip_solid (solid_skip t)

theorem numberEnds_blank (b : Blank) {t : Text} (ht : NumberEnds t) : NumberEnds (b.text ++ t) := by
  intro c hc
  cases hb : b.text with
  | nil =>
    rw [hb, List.nil_append] at hc
    exact ht c hc
  | cons d s =>
    rw [hb] at hc
    obtain rfl : d = c := Option.some.inj hc
    have hd : d.toNat ≤ 32 := (b.ok d (hb ▸ List.mem_cons_self)).2
    refine ⟨?_, fun h => ?_, fun h => ?_, fun h => ?_⟩
    · cases hdigit : d.isDigit with
      | false => rfl
      | true =>
        simp only [Char.isDigit, Bool.and_eq_true, decide_eq_true_eq] at hdigit
        have hle : 48 ≤ d.toNat := hdigit.1
        omega
    · exact absurd (h ▸ hd) (by decide)
    · exact absurd (h ▸ hd) (by decide)
    · exact absurd (h ▸ hd) (by decide)

/-! ## One value -/

section Values
variable (D : Doubles ν) (fuel : ℕ)

theorem parseValue_string (t : Text) :
    parseValue D (fuel + 1) ('"' :: t) =
      (parseString ('"' :: t)).map fun r => (.string r.1, .nil, r.2) := rfl

theorem parseValue_array (t : Text) :
    parseValue D (fuel + 1) ('[' :: t) = parseArray (parseValue D fuel) ('[' :: t) := rfl

theorem parseValue_object (t : Text) :
    parseValue D (fuel + 1) ('{' :: t) = parseObject (parseValue D fuel) ('{' :: t) := rfl

theorem parseValue_number {t : Text} {c : Char} (hhead : t.head? = some c)
    (hc : c = '-' ∨ c.isDigit = true) :
    parseValue D (fuel + 1) t = (parseNumber D t).map fun r => (.number r.1, .nil, r.2) := by
  cases t with
  | nil => cases hhead
  | cons d t =>
    obtain rfl : d = c := Option.some.inj hhead
    have hne : ∀ x : Char, x ≠ '-' → x.isDigit = false → x ≠ d := by
      intro x hx hx' heq
      obtain h | h := hc
      · exact hx (heq.trans h)
      · rw [← heq, hx'] at h
        cases h
    have hword : ∀ (x : Char) (w : Text), x ≠ d → ¬x :: w <+: d :: t := fun x w hx h =>
      hx (List.cons_prefix_cons.mp h).1
    have hnull : ¬"null".toList <+: d :: t :=
      hword 'n' ['u', 'l', 'l'] (hne 'n' (by decide) rfl)
    have hfalse : ¬"false".toList <+: d :: t :=
      hword 'f' ['a', 'l', 's', 'e'] (hne 'f' (by decide) rfl)
    have htrue : ¬"true".toList <+: d :: t :=
      hword 't' ['r', 'u', 'e'] (hne 't' (by decide) rfl)
    rw [parseValue, if_neg hnull, if_neg hfalse, if_neg htrue]
    simp only [List.head?_cons]
    rw [if_neg (Ne.symm (hne '"' (by decide) rfl)), if_pos hc]

/-- The first character of a numeral. -/
theorem Numeral.head (x : Numeral) (rest : Text) :
    ∃ c, (x.text ++ rest).head? = some c ∧ (c = '-' ∨ c.isDigit = true) := by
  cases hneg : x.negative with
  | true => exact ⟨'-', by simp [Numeral.text, hneg], .inl rfl⟩
  | false =>
    obtain ⟨d, ds, hint⟩ : ∃ d ds, x.int = d :: ds := by
      obtain hzero | ⟨d, ds, hint, -⟩ := x.ok
      · exact ⟨0, [], hzero⟩
      · exact ⟨d, ds, hint⟩
    exact ⟨Nat.digitChar d.val, by simp [Numeral.text, hneg, hint, digitText],
      .inr (isDigit_digitChar d)⟩

theorem parseValue_scalar {s : Scalar} (hs : s.Plain) {rest : Text} (hrest : NumberEnds rest) :
    parseValue D (fuel + 1) (s.text ++ rest) = .ok (s.value D, .nil, rest) := by
  cases s with
  | null => rfl
  | bool b => cases b <;> rfl
  | number x =>
    obtain ⟨c, hhead, hc⟩ := x.head rest
    change parseValue D (fuel + 1) (x.text ++ rest) = _
    rw [parseValue_number D fuel hhead hc, x.parseNumber_text D hs hrest]
    rfl
  | string ps =>
    have hsplit : (Scalar.string ps).text ++ rest = '"' :: (spelled ps ++ '"' :: rest) := by
      simp [Scalar.text]
    rw [hsplit, parseValue_string, parseString_readable hs]
    rfl

end Values

/-! ## Entries -/

/-- A text that starts as values do. -/
def Starts (v : Text) : Prop := ∃ c s, v = c :: s ∧ 32 < c.toNat ∧ c ≠ ']'

theorem Starts.solid {v : Text} (hv : Starts v) (t : Text) : Solid (v ++ t) := by
  obtain ⟨c, s, rfl, hc, -⟩ := hv
  intro d hd
  obtain rfl : c = d := Option.some.inj hd
  exact hc

theorem Scalar.starts (s : Scalar) : Starts s.text := by
  cases s with
  | null => exact ⟨'n', _, rfl, by decide, by decide⟩
  | bool b =>
    cases b
    · exact ⟨'f', _, rfl, by decide, by decide⟩
    · exact ⟨'t', _, rfl, by decide, by decide⟩
  | string ps => exact ⟨'"', _, rfl, by decide, by decide⟩
  | number x =>
    obtain ⟨c, hhead, hc⟩ := x.head []
    rw [List.append_nil] at hhead
    change Starts x.text
    cases htext : x.text with
    | nil =>
      rw [htext] at hhead
      cases hhead
    | cons d t =>
      rw [htext] at hhead
      obtain rfl : d = c := Option.some.inj hhead
      obtain rfl | hdigit := hc
      · exact ⟨'-', t, rfl, by decide, by decide⟩
      · have hlow : 48 ≤ d.toNat := by
          simp only [Char.isDigit, Bool.and_eq_true, decide_eq_true_eq] at hdigit
          exact hdigit.1
        refine ⟨d, t, rfl, by omega, fun h => ?_⟩
        rw [h] at hdigit
        cases hdigit

theorem opening_starts (inner : Bool) (t : Text) : Starts (opening inner :: t) := by
  cases inner
  · exact ⟨'[', t, rfl, by decide, by decide⟩
  · exact ⟨'{', t, rfl, by decide, by decide⟩

def parseEntries (named : Bool) (parse : Text → Parsed ν) (k : ℕ) (t : Text) :
    Except Fail (Chain ν × Text) :=
  if named then parseMembers parse k t else parseElements parse k t

theorem parseEntries_skip (named : Bool) (parse : Text → Parsed ν) (k : ℕ) (t : Text) :
    parseEntries named parse (k + 1) (skip t) = parseEntries named parse (k + 1) t := by
  cases named
  · simp only [parseEntries, Bool.false_eq_true, if_false, parseElements, skip_skip]
  · simp only [parseEntries, if_true, parseMembers, skip_skip]

theorem solid_cons {c : Char} (hc : 32 < c.toNat) (t : Text) : Solid (c :: t) := by
  intro d hd
  obtain rfl : c = d := Option.some.inj hd
  exact hc

section Step
variable {named : Bool} (label : Label named) (before : Blank) {v t : Text}

/-- Before the value of an entry there are blanks, or a name. -/
theorem skip_entry (hv : Starts v) :
    v ++ t <:+ skip (label.text ++ (before.text ++ (v ++ t))) ∧
      (skip (label.text ++ (before.text ++ (v ++ t)))).head? ≠ some (closing named) := by
  cases label with
  | element =>
    have hskip : skip (Label.element.text ++ (before.text ++ (v ++ t))) = v ++ t :=
      skip_blank_solid before (hv.solid t)
    rw [hskip]
    obtain ⟨c, s, rfl, -, hc⟩ := hv
    exact ⟨List.suffix_refl _, fun h => hc (Option.some.inj h)⟩
  | member lead name trail =>
    have hskip : skip ((Label.member lead name trail).text ++ (before.text ++ (v ++ t))) =
        '"' :: (spelled name ++ '"' :: (trail.text ++ ':' :: (before.text ++ (v ++ t)))) := by
      simp only [Label.text, List.append_assoc, List.cons_append, List.nil_append]
      exact skip_blank_solid lead (solid_cons (by decide) _)
    rw [hskip]
    refine ⟨?_, fun h => absurd (Option.some.inj h) (by decide)⟩
    exact ⟨'"' :: (spelled name ++ '"' :: (trail.text ++ ':' :: before.text)), by simp⟩

/-- One pass of the loop over entries. -/
theorem parseEntries_step (hlabel : label.Plain) (hv : Starts v) {parse : Text → Parsed ν}
    {value : Value ν} {child : Chain ν} (hparse : parse (v ++ t) = .ok (value, child, t)) (k : ℕ) :
    parseEntries named parse (k + 1) (label.text ++ (before.text ++ (v ++ t))) =
      if (skip t).head? = some ',' then
        (parseEntries named parse k (skip t).tail).map fun r =>
          (.cons label.string value child r.1, r.2)
      else .ok (.cons label.string value child .nil, skip t) := by
  cases label with
  | element =>
    have hskip : skip (Label.element.text ++ (before.text ++ (v ++ t))) = v ++ t :=
      skip_blank_solid before (hv.solid t)
    simp only [parseEntries, Bool.false_eq_true, if_false, parseElements, hskip, hparse]
    rfl
  | member lead name trail =>
    have hskip : skip ((Label.member lead name trail).text ++ (before.text ++ (v ++ t))) =
        '"' :: (spelled name ++ '"' :: (trail.text ++ ':' :: (before.text ++ (v ++ t)))) := by
      simp only [Label.text, List.append_assoc, List.cons_append, List.nil_append]
      exact skip_blank_solid lead (solid_cons (by decide) _)
    have hname := parseString_readable hlabel (trail.text ++ ':' :: (before.text ++ (v ++ t)))
    have hcolon : skip (trail.text ++ ':' :: (before.text ++ (v ++ t))) =
        ':' :: (before.text ++ (v ++ t)) := skip_blank_solid trail (solid_cons (by decide) _)
    have hvalue : skip (before.text ++ (v ++ t)) = v ++ t := skip_blank_solid before (hv.solid t)
    simp only [parseEntries, if_true, parseMembers, hskip, hname, hcolon, List.head?_cons, ne_eq,
      not_true_eq_false, if_false, List.tail_cons, hvalue, hparse]
    rfl

end Step

/-! ## All entries -/

theorem closing_solid (named : Bool) (rest : Text) : Solid (closing named :: rest) :=
  solid_cons (by cases named <;> decide) rest

/-- What stands behind the blanks after a value ends a number, and is found by `skip`. -/
structure Follows (t : Text) : Prop where
  solid : Solid t
  number : NumberEnds t

theorem follows_cons {c : Char} (hc : c = ',' ∨ c = ']' ∨ c = '}') (t : Text) :
    Follows (c :: t) where
  solid := by
    refine solid_cons ?_ t
    obtain rfl | rfl | rfl := hc <;> decide
  number := by
    intro d hd
    obtain rfl : c = d := Option.some.inj hd
    obtain rfl | rfl | rfl := hc <;> exact ⟨rfl, by decide, by decide, by decide⟩

theorem follows_closing (named : Bool) (t : Text) : Follows (closing named :: t) :=
  follows_cons (by cases named <;> decide) t

namespace Entries
variable {named : Bool}

theorem textFrom_false {e : Entries named} (he : e ≠ nil) : e.textFrom false = ',' :: e.text := by
  cases e with
  | nil => exact absurd rfl he
  | scalar => rfl
  | node => rfl

theorem follows_textFrom (e : Entries named) (rest : Text) :
    Follows (e.textFrom false ++ closing named :: rest) := by
  by_cases he : e = nil
  · rw [he]
    exact follows_closing named rest
  · rw [textFrom_false he]
    exact follows_cons (.inl rfl) _

/-- The loop goes through the entries, which stand before `rest`. -/
def Read (D : Doubles ν) (e : Entries named) (fuel : ℕ) (rest : Text) : Prop :=
  (skip (e.text ++ closing named :: rest)).head? ≠ some (closing named) ∧
    ∀ k, (skip (e.text ++ closing named :: rest)).length < k →
      parseEntries named (parseValue D fuel) k (e.text ++ closing named :: rest) =
        .ok (e.chain D, closing named :: rest)

/-- An entry, and the others behind it. -/
theorem read_step {D : Doubles ν} {fuel : ℕ} {rest : Text} {label : Label named}
    (before after : Blank) (v : Text) {next e : Entries named} {value : Value ν} {child : Chain ν}
    (htext : e.text = label.text ++ (before.text ++ (v ++ (after.text ++ next.textFrom false))))
    (hchain : e.chain D = .cons label.string value child (next.chain D)) (hlabel : label.Plain)
    (hv : Starts v)
    (hparse : ∀ t, NumberEnds t → t.length + v.length ≤ fuel →
      parseValue D fuel (v ++ t) = .ok (value, child, t))
    (hfuel : (e.text ++ closing named :: rest).length ≤ fuel)
    (hnext : next ≠ nil → (next.text ++ closing named :: rest).length ≤ fuel →
      next.Read D fuel rest) : e.Read D fuel rest := by
  have hfollows := next.follows_textFrom rest
  have hsplit : e.text ++ closing named :: rest = label.text ++ (before.text ++ (v ++
      (after.text ++ (next.textFrom false ++ closing named :: rest)))) := by
    simp only [htext, List.append_assoc]
  have hpos : 0 < v.length := by
    obtain ⟨c, s, rfl, -⟩ := hv
    exact Nat.succ_pos _
  obtain ⟨hsuffix, hhead⟩ := skip_entry label before
    (t := after.text ++ (next.textFrom false ++ closing named :: rest)) hv
  rw [hsplit] at hfuel
  unfold Read
  rw [hsplit]
  refine ⟨hhead, fun k hk => ?_⟩
  have hlen := hsuffix.length_le
  simp only [List.length_append] at hlen hfuel
  obtain ⟨k, rfl⟩ : ∃ j, k = j + 1 := ⟨k - 1, by omega⟩
  have hvalue := hparse (after.text ++ (next.textFrom false ++ closing named :: rest))
    (numberEnds_blank after hfollows.number) (by simp only [List.length_append]; omega)
  rw [parseEntries_step label before hlabel hv hvalue, skip_blank_solid after hfollows.solid]
  by_cases he : next = nil
  · have hcomma : ¬(next.textFrom false ++ closing named :: rest).head? = some ',' := by
      rw [he]
      cases named <;> exact fun h => absurd (Option.some.inj h) (by decide)
    rw [if_neg hcomma, hchain, he]
    rfl
  · rw [textFrom_false he] at hk hlen hfuel ⊢
    simp only [List.length_cons] at hlen hfuel
    have hrest := hnext he (by simp only [List.length_append, List.length_cons]; omega)
    have hshort := (skip_suffix (next.text ++ closing named :: rest)).length_le
    simp only [List.length_append, List.length_cons] at hshort
    have hmore := hrest.2 k (by omega)
    rw [List.cons_append, if_pos List.head?_cons, List.tail_cons, hmore, hchain]
    rfl

theorem parseValue_empty (D : Doubles ν) (fuel : ℕ) {inner : Bool} {body : Text}
    (hhead : (skip body).head? = some (closing inner)) :
    parseValue D (fuel + 1) (opening inner :: body) =
      .ok (containing inner, .nil, (skip body).tail) := by
  cases inner with
  | false =>
    have harray : parseValue D (fuel + 1) ('[' :: body) =
        parseArray (parseValue D fuel) ('[' :: body) := rfl
    exact harray.trans (if_pos hhead)
  | true =>
    have hobject : parseValue D (fuel + 1) ('{' :: body) =
        parseObject (parseValue D fuel) ('{' :: body) := rfl
    exact hobject.trans (if_pos hhead)

theorem parseValue_entries {D : Doubles ν} {fuel : ℕ} {inner : Bool} {body value : Text}
    {child : Chain ν} (hhead : (skip body).head? ≠ some (closing inner))
    (hread : parseEntries inner (parseValue D fuel) ((skip body).length + 1) (skip body) =
      .ok (child, value)) (hend : value.head? = some (closing inner)) :
    parseValue D (fuel + 1) (opening inner :: body) =
      .ok (containing inner, child, value.tail) := by
  cases inner with
  | false =>
    have harray : parseValue D (fuel + 1) ('[' :: body) =
        parseArray (parseValue D fuel) ('[' :: body) := rfl
    have helements : parseElements (parseValue D fuel) ((skip body).length + 1) (skip body) =
        .ok (child, value) := hread
    refine harray.trans ((if_neg hhead).trans ?_)
    rw [List.tail_cons, helements]
    exact if_pos hend
  | true =>
    have hobject : parseValue D (fuel + 1) ('{' :: body) =
        parseObject (parseValue D fuel) ('{' :: body) := rfl
    have hmembers : parseMembers (parseValue D fuel) ((skip body).length + 1) (skip body) =
        .ok (child, value) := hread
    refine hobject.trans ((if_neg hhead).trans ?_)
    rw [List.tail_cons, hmembers]
    exact if_pos hend

/-- A value with its entries between its brackets. -/
theorem parseValue_node {D : Doubles ν} {fuel : ℕ} {inner : Bool} (pad : Blank)
    {child : Entries inner} {t : Text} (hchild : child ≠ nil → child.Read D fuel t) :
    parseValue D (fuel + 1)
        (opening inner :: (pad.text ++ (child.text ++ closing inner :: t))) =
      .ok (containing inner, child.chain D, t) := by
  have hpad : skip (pad.text ++ (child.text ++ closing inner :: t)) =
      skip (child.text ++ closing inner :: t) := skip_blank _ _
  by_cases he : child = nil
  · have hskip : skip (child.text ++ closing inner :: t) = closing inner :: t := by
      rw [he]
      exact skip_solid (closing_solid inner t)
    rw [parseValue_empty D fuel (by rw [hpad, hskip]; rfl), hpad, hskip, he]
    rfl
  · obtain ⟨hhead, hread⟩ := hchild he
    have hentries := hread _ (Nat.lt_succ_self _)
    rw [Nat.succ_eq_add_one, ← parseEntries_skip, ← hpad] at hentries
    rw [← hpad] at hhead
    exact parseValue_entries hhead hentries List.head?_cons

/-- Every text of the grammar is read as it is spelled. -/
theorem read_all (D : Doubles ν) {e : Entries named} (he : e ≠ nil) (hplain : e.Plain) {fuel : ℕ}
    {rest : Text} (hfuel : (e.text ++ closing named :: rest).length ≤ fuel) :
    e.Read D fuel rest := by
  induction e generalizing fuel rest with
  | nil => exact absurd rfl he
  | scalar label before s after next ih =>
    obtain ⟨hlabel, hs, hnext⟩ := hplain
    refine read_step before after s.text rfl rfl hlabel s.starts (fun t ht hlen => ?_) hfuel
      fun hne hlen => ih hne hnext hlen
    obtain ⟨c, v, hv, -⟩ := s.starts
    obtain ⟨fuel, rfl⟩ : ∃ f, fuel = f + 1 := ⟨fuel - 1, by rw [hv, List.length_cons] at hlen; omega⟩
    exact parseValue_scalar D fuel hs ht
  | node label before inner pad child after next ihc ihn =>
    obtain ⟨hlabel, hchild, hnext⟩ := hplain
    refine read_step before after
      (opening inner :: (pad.text ++ (child.textFrom true ++ [closing inner])))
      (by simp [text, textFrom]) rfl hlabel (opening_starts inner _) (fun t ht hlen => ?_) hfuel
      fun hne hlen => ihn hne hnext hlen
    obtain ⟨fuel, rfl⟩ : ∃ f, fuel = f + 1 := ⟨fuel - 1, by rw [List.length_cons] at hlen; omega⟩
    have hsplit : opening inner :: (pad.text ++ (child.textFrom true ++ [closing inner])) ++ t =
        opening inner :: (pad.text ++ (child.text ++ closing inner :: t)) := by
      simp [text]
    rw [hsplit]
    refine parseValue_node pad fun hne => ihc hne hchild ?_
    simp only [List.length_cons, List.length_append, List.length_nil, text] at hlen ⊢
    omega

theorem eq_nil_of_chain {D : Doubles ν} {e : Entries named} (h : e.chain D = .nil) : e = nil := by
  cases e with
  | nil => rfl
  | scalar => cases h
  | node => cases h

end Entries

/-- `cJSON_Parse` accepts every text of the grammar, with anything behind it that does not go on
with a number, and makes the items that the text spells. -/
theorem parse_written (D : Doubles ν) {e : Entries false} (hplain : e.Plain) {value : Value ν}
    {child : Chain ν} (hone : e.chain D = .cons none value child .nil) {behind : Text}
    (hbehind : NumberEnds behind) : parse D (e.text ++ behind) = .ok (value, child) := by
  cases e with
  | nil => cases hone
  | scalar label before s after next =>
    cases label
    obtain ⟨-, hs, -⟩ := hplain
    have hnext : next = .nil :=
      Entries.eq_nil_of_chain (Chain.cons.inj hone).2.2.2
    have hvalue := parseValue_scalar D (((Entries.scalar .element before s after next).text ++
      behind).length) hs (numberEnds_blank after hbehind)
    have hskip : skip ((Entries.scalar .element before s after next).text ++ behind) =
        s.text ++ (after.text ++ behind) := by
      rw [hnext]
      simp only [Entries.text, Entries.textFrom, Label.text, if_true, List.nil_append,
        List.append_nil, List.append_assoc]
      exact skip_blank_solid before (s.starts.solid _)
    obtain ⟨-, rfl, rfl, -⟩ := Chain.cons.inj hone
    rw [parse, hskip, hvalue]
    rfl
  | node label before inner pad inside after next =>
    cases label
    obtain ⟨-, hinside, -⟩ := hplain
    have hnext : next = .nil :=
      Entries.eq_nil_of_chain (Chain.cons.inj hone).2.2.2
    have hskip : skip ((Entries.node .element before inner pad inside after next).text ++ behind) =
        opening inner :: (pad.text ++ (inside.text ++ closing inner :: (after.text ++ behind))) := by
      rw [hnext]
      simp only [Entries.text, Entries.textFrom, Label.text, if_true, List.nil_append,
        List.append_nil, List.append_assoc, List.cons_append]
      exact skip_blank_solid before ((opening_starts inner []).solid _)
    have hlen := (skip_suffix
      ((Entries.node .element before inner pad inside after next).text ++ behind)).length_le
    rw [hskip, List.length_cons, List.length_append] at hlen
    have hvalue := Entries.parseValue_node (D := D) pad fun hne =>
      Entries.read_all D hne hinside (Nat.le_trans (Nat.le_add_left _ _) (Nat.le_of_succ_le hlen))
    obtain ⟨-, rfl, rfl, -⟩ := Chain.cons.inj hone
    rw [parse, hskip, hvalue]
    rfl

/-- A text spells a document. -/
def Spells (D : Doubles ν) (text : Text) (value : Value ν) (child : Chain ν) : Prop :=
  ∃ e : Entries false, e.Plain ∧ e.chain D = .cons none value child .nil ∧ e.text = text

/-- Every text of the grammar is accepted where its strings are kept and its lengths and exponents
are counted by an `int`, and what it spells is unique: the document that `cJSON_Parse` makes of it. -/
theorem parse_of_spells (D : Doubles ν) {text : Text} {value : Value ν} {child : Chain ν}
    (hspells : Spells D text value child) {behind : Text} (hbehind : NumberEnds behind) :
    parse D (text ++ behind) = .ok (value, child) ∧
      ∀ value' child', Spells D text value' child' → value' = value ∧ child' = child := by
  obtain ⟨e, hplain, hone, rfl⟩ := hspells
  have hread := parse_written D hplain hone hbehind
  refine ⟨hread, fun value' child' hspells' => ?_⟩
  obtain ⟨e', hplain', hone', htext⟩ := hspells'
  have hread' := parse_written D hplain' hone' hbehind
  rw [htext, hread] at hread'
  obtain ⟨hvalue, hchild⟩ := Prod.mk.inj (Except.ok.inj hread')
  exact ⟨hvalue.symm, hchild.symm⟩

theorem parse_of_spells_array :
    parse integers ([' ', '[', 't', 'r', 'u', 'e', ' ', ',', ' ', '1', '0', 'e', '2', ']'] ++ ['x']) =
        .ok (.array, .cons none (.bool true) .nil (.cons none (.number 1000) .nil .nil)) ∧
      ∀ value' child', Spells integers
          [' ', '[', 't', 'r', 'u', 'e', ' ', ',', ' ', '1', '0', 'e', '2', ']'] value' child' →
        value' = .array ∧
          child' = .cons none (.bool true) .nil (.cons none (.number 1000) .nil .nil) := by
  have hfits : ∀ e : Exponent, some (Exponent.mk false .none [2] (List.cons_ne_nil _ _)) =
      some e → digitsFrom 0 e.digits ≤ intMax := fun e he => Option.some.inj he ▸ (by decide)
  have hone : (1 : Fin 10) ≠ 0 := by decide
  have hblank : ∀ c ∈ [' '], c ≠ '\x00' ∧ c.toNat ≤ 32 := List.forall_mem_singleton.mpr (by decide)
  have hspells : Spells integers
      [' ', '[', 't', 'r', 'u', 'e', ' ', ',', ' ', '1', '0', 'e', '2', ']'] .array
      (.cons none (.bool true) .nil (.cons none (.number 1000) .nil .nil)) :=
    ⟨.node .element ⟨[' '], hblank⟩ false Blank.none
        (.scalar .element Blank.none (.bool true) ⟨[' '], hblank⟩
          (.scalar .element ⟨[' '], hblank⟩
            (.number ⟨false, [1, 0], [], some ⟨false, .none, [2], List.cons_ne_nil _ _⟩,
              .inr ⟨1, [0], rfl, hone⟩⟩)
            Blank.none .nil))
        Blank.none .nil,
      ⟨trivial, ⟨trivial, trivial, ⟨trivial, hfits, trivial⟩⟩, trivial⟩, rfl, rfl⟩
  exact parse_of_spells integers hspells fun c hc => Option.some.inj hc ▸ (by decide)

end DevFramework.Json
