import DevFramework.Json.Layout

/-! # Printing and reading a document

Names of array entries and children of values that have none are not printed. All else of a document
with whole numbers and strings without NUL is read back, in both formats.
-/
namespace DevFramework.Json
set_option autoImplicit false
set_option maxHeartbeats 250000

variable {ν : Type}

/-- A value that is read back. -/
def Value.Clean (D : Doubles ν) : Value ν → Prop
  | .number n => ∃ z, Small z ∧ n = D.ofInt z
  | .string s => '\x00' ∉ s
  | _ => True

/-- Entries that are read back; those of an object have names. -/
def Chain.Clean (D : Doubles ν) : Bool → Chain ν → Prop
  | _, .nil => True
  | named, .cons string value child next =>
    (named = true → ∃ s, string = some s ∧ '\x00' ∉ s) ∧ value.Clean D ∧
      (match value with
        | .array => child.Clean D false
        | .object => child.Clean D true
        | _ => True) ∧
      next.Clean D named

/-- What is printed of some entries. -/
def Chain.canon : Bool → Chain ν → Chain ν
  | _, .nil => .nil
  | named, .cons string value child next =>
    .cons (if named then string else none) value
      (match value with
        | .array => child.canon false
        | .object => child.canon true
        | _ => .nil)
      (next.canon named)

/-! ## Blanks -/

def Blank.append (a b : Blank) : Blank where
  text := a.text ++ b.text
  ok := List.forall_mem_append.mpr ⟨a.ok, b.ok⟩

/-- Blanks of one kind, in the one format. -/
def blanks (fmt : Bool) (c : Char) (hc : c ≠ '\x00' ∧ c.toNat ≤ 32) (n : ℕ) : Blank where
  text := if fmt then List.replicate n c else []
  ok := by
    intro d hd
    split_ifs at hd
    · rw [List.eq_of_mem_replicate hd]
      exact hc
    · cases hd

def newline (fmt : Bool) : Blank := blanks fmt '\n' (by decide) 1

def tabs (fmt : Bool) (n : ℕ) : Blank := blanks fmt '\t' (by decide) n

def space (fmt : Bool) : Blank := blanks fmt ' ' (by decide) 1

/-- Before the first entry and after the last one. -/
def lead (fmt inner : Bool) : Blank := newline (fmt && inner)

def trail (fmt inner : Bool) (depth : ℕ) : Blank := tabs (fmt && inner) depth

/-! ## Entries -/

def printedBody (named fmt : Bool) (depth : ℕ) (items : List (Option Text × Text)) : Text :=
  if named then objectBody fmt depth (items.map fun e => (nameText e.1, e.2))
  else arrayBody fmt (items.map Prod.snd)

theorem valueText_containing (D : Doubles ν) (fmt inner : Bool) (depth : ℕ)
    (items : List (Option Text × Text)) :
    valueText D fmt depth (containing inner) items =
      opening inner :: ((lead fmt inner).text ++
        (printedBody inner fmt (depth + 1) items ++ ((trail fmt inner depth).text ++
          [closing inner]))) := by
  cases inner
  · have hlead : (lead fmt false).text = [] ∧ (trail fmt false depth).text = [] := by
      cases fmt <;> exact ⟨rfl, rfl⟩
    rw [hlead.1, hlead.2]
    rfl
  · have hvalue : valueText D fmt depth (containing true) items =
        objectText fmt (depth + 1) (items.map fun e => (nameText e.1, e.2)) := rfl
    rw [hvalue]
    cases fmt <;> simp [objectText, opening, closing, lead, trail, newline, tabs, blanks, printedBody]

/-- Entries stand in the grammar, with blanks before the first and after the last of them. -/
def Laid (D : Doubles ν) (named : Bool) (c : Chain ν) (body : Text) : Prop :=
  ∀ lead trail : Blank, ∃ e : Entries named, e ≠ .nil ∧ e.Plain ∧ e.chain D = c.canon named ∧
    e.text = lead.text ++ (body ++ trail.text)

/-- A value stands in the grammar, as an entry before others. -/
def LaidValue (D : Doubles ν) (value : Value ν) (child : Chain ν) (ret : Text) : Prop :=
  ∀ (named : Bool) (label : Label named) (before after : Blank) (next : Entries named),
    label.Plain → next.Plain → ∃ e : Entries named, e ≠ .nil ∧ e.Plain ∧
      e.chain D = .cons label.string value child (next.chain D) ∧
      e.text = label.text ++ (before.text ++ (ret ++ (after.text ++ next.textFrom false)))

theorem laidValue_scalar {D : Doubles ν} {s : Scalar} (hs : s.Plain) :
    LaidValue D (s.value D) .nil s.text := fun _ label before after next hlabel hnext =>
  ⟨.scalar label before s after next, fun h => (by cases h), ⟨hlabel, hs, hnext⟩, rfl, rfl⟩

theorem laidValue_node {D : Doubles ν} {inner : Bool} {child : Chain ν} {body : Text}
    (before after : Blank) (hempty : child = .nil → body = [])
    (hchild : child ≠ .nil → Laid D inner child body) :
    LaidValue D (containing inner) (child.canon inner)
      (opening inner :: (before.text ++ (body ++ (after.text ++ [closing inner])))) := by
  intro named label lead trail next hlabel hnext
  by_cases hc : child = .nil
  · refine ⟨.node label lead inner (before.append after) .nil trail next, fun h => (by cases h),
      ⟨hlabel, trivial, hnext⟩, by rw [hc]; rfl, ?_⟩
    rw [hempty hc]
    simp [Entries.text, Entries.textFrom, Blank.append]
  · obtain ⟨e, -, hplain, hchain, htext⟩ := hchild hc before after
    refine ⟨.node label lead inner .none e trail next, fun h => (by cases h),
      ⟨hlabel, hplain, hnext⟩, by rw [← hchain]; rfl, ?_⟩
    change e.textFrom true = _ at htext
    simp only [Entries.text, Entries.textFrom, htext, Blank.none]
    simp

/-- The text of a value stands in the grammar. -/
theorem valueText_laid {D : Doubles ν} (hD : D.Exact) (fmt : Bool) (depth : ℕ) {value : Value ν}
    (hvalue : value.Clean D) {child : Chain ν} {items : List (Option Text × Text)}
    (hsized : ValueSized fmt depth value items)
    (hchild : ∀ inner, value = containing inner → (items = [] ↔ child = .nil) ∧
      (child ≠ .nil → Laid D inner child (printedBody inner fmt (depth + 1) items))) :
    LaidValue D value
      (match value with
        | .array => child.canon false
        | .object => child.canon true
        | _ => .nil) (valueText D fmt depth value items) := by
  have hnode : ∀ inner, value = containing inner →
      LaidValue D (containing inner) (child.canon inner)
        (valueText D fmt depth (containing inner) items) := by
    intro inner hinner
    obtain ⟨hempty, hlaid⟩ := hchild inner hinner
    rw [valueText_containing]
    refine laidValue_node _ _ (fun hc => ?_) hlaid
    rw [hempty.mpr hc]
    cases inner <;> rfl
  cases value with
  | null => exact laidValue_scalar (s := .null) trivial
  | bool b => exact laidValue_scalar (s := .bool b) trivial
  | number n =>
    obtain ⟨z, hz, rfl⟩ := hvalue
    obtain ⟨x, hfits, htext, hx⟩ := numeral_int hD hz
    have hprinted : valueText D fmt depth (.number (D.ofInt z)) items = Decimal.decimal z := by
      change (printNumber D (D.ofInt z)).getD [] = _
      rw [printNumber_int hD hz]
      rfl
    rw [hprinted, ← htext, ← hx]
    exact laidValue_scalar (s := .number x) hfits
  | string s =>
    have hcount : Countable s := hsized
    obtain ⟨ps, hspelled, hreadable, hbytes⟩ := hcount.exists_pieces hvalue
    have hlaid : LaidValue D (.string (ps.flatMap Piece.bytes)) .nil
        ('"' :: (spelled ps ++ ['"'])) := laidValue_scalar (s := .string ps) hreadable
    rw [hbytes, hspelled] at hlaid
    exact hlaid
  | array => exact hnode false rfl
  | object => exact hnode true rfl

/-- An entry in front of those behind it. -/
theorem laid_cons {D : Doubles ν} (fmt : Bool) (depth : ℕ) {named : Bool} {string : Option Text}
    (hstring : named = true → ∃ s, string = some s ∧ '\x00' ∉ s ∧ Countable s) {value : Value ν}
    {below next : Chain ν} {ret : Text} {rest : List (Option Text × Text)}
    (hvalue : LaidValue D value below ret) (hempty : rest = [] ↔ next = .nil)
    (hnext : next ≠ .nil → Laid D named next (printedBody named fmt depth rest)) :
    ∀ lead trail : Blank, ∃ e : Entries named, e ≠ .nil ∧ e.Plain ∧
      e.chain D = .cons (if named then string else none) value below (next.canon named) ∧
      e.text = lead.text ++ (printedBody named fmt depth ((string, ret) :: rest) ++ trail.text) := by
  intro lead trail
  cases named with
  | false =>
    by_cases hlast : next = .nil
    · obtain ⟨e, hne, hplain, hchain, htext⟩ :=
        hvalue false .element lead trail .nil trivial trivial
      refine ⟨e, hne, hplain, by rw [hchain, hlast]; rfl, ?_⟩
      rw [htext, hempty.mpr hlast]
      simp [Label.text, Entries.textFrom, printedBody, arrayBody]
    · obtain ⟨more, hmore, hmorePlain, hmoreChain, hmoreText⟩ := hnext hlast (space fmt) trail
      obtain ⟨e, hne, hplain, hchain, htext⟩ :=
        hvalue false .element lead .none more trivial hmorePlain
      refine ⟨e, hne, hplain, by rw [hchain, hmoreChain]; rfl, ?_⟩
      obtain ⟨r, rest, rfl⟩ := List.exists_cons_of_ne_nil (mt hempty.mp hlast)
      rw [htext, Entries.textFrom_false hmore, hmoreText]
      cases fmt <;> simp [Label.text, printedBody, arrayBody, Blank.none, space, blanks]
  | true =>
    obtain ⟨s, rfl, hs, hcount⟩ := hstring rfl
    obtain ⟨ps, hspelled, hkept, hbytes⟩ := hcount.exists_pieces hs
    have hname : ∀ before : Blank, (Label.member before ps .none).string = some s := fun _ =>
      congrArg some hbytes
    by_cases hlast : next = .nil
    · obtain ⟨e, hne, hplain, hchain, htext⟩ :=
        hvalue true (.member (lead.append (tabs fmt depth)) ps .none) (tabs fmt 1)
          ((newline fmt).append trail) .nil hkept trivial
      refine ⟨e, hne, hplain, by rw [hchain, hname, hlast]; rfl, ?_⟩
      rw [htext, hempty.mpr hlast]
      cases fmt <;> simp [Label.text, Entries.textFrom, printedBody, objectBody, Blank.none,
        Blank.append, tabs, newline, blanks, nameText, hspelled]
    · obtain ⟨more, hmore, hmorePlain, hmoreChain, hmoreText⟩ := hnext hlast (newline fmt) trail
      obtain ⟨e, hne, hplain, hchain, htext⟩ :=
        hvalue true (.member (lead.append (tabs fmt depth)) ps .none) (tabs fmt 1) .none more hkept
          hmorePlain
      refine ⟨e, hne, hplain, by rw [hchain, hname, hmoreChain]; rfl, ?_⟩
      obtain ⟨r, rest, rfl⟩ := List.exists_cons_of_ne_nil (mt hempty.mp hlast)
      rw [htext, Entries.textFrom_false hmore, hmoreText]
      cases fmt <;> simp [Label.text, printedBody, objectBody, Blank.none,
        Blank.append, tabs, newline, blanks, nameText, hspelled]

/-- The texts of clean entries stand in the grammar. -/
theorem itemTexts_laid {D : Doubles ν} (hD : D.Exact) (fmt : Bool) {named : Bool} (depth : ℕ)
    {c : Chain ν} (hc : c.Clean D named) (hsized : c.Sized D fmt depth)
    (hnames : named = true → ∀ e ∈ itemTexts D fmt depth c, ∀ s, e.1 = some s → Countable s) :
    (itemTexts D fmt depth c = [] ↔ c = .nil) ∧
      (c ≠ .nil → Laid D named c (printedBody named fmt depth (itemTexts D fmt depth c))) := by
  induction c generalizing named depth with
  | nil => exact ⟨iff_of_true rfl rfl, fun h => absurd rfl h⟩
  | cons string value child next ihc ihn =>
    obtain ⟨hstring, hvalue, hbelow, hnext⟩ := hc
    obtain ⟨hvalueSized, hbelowSized, hnextSized⟩ := hsized
    obtain ⟨hempty, hlaid⟩ := ihn depth hnext hnextSized fun hnamed e he =>
      hnames hnamed e (List.mem_cons_of_mem _ he)
    have hlaidValue := valueText_laid hD fmt depth hvalue hvalueSized fun inner hinner => by
      rw [hinner] at hbelow hbelowSized hvalueSized
      cases inner with
      | false => exact ihc (depth + 1) hbelow hbelowSized fun h => (by cases h)
      | true => exact ihc (depth + 1) hbelow hbelowSized fun _ => hvalueSized.1
    refine ⟨iff_of_false (by simp [itemTexts]) (fun h => (by cases h)), fun _ => ?_⟩
    refine laid_cons fmt depth (fun hnamed => ?_) hlaidValue hempty hlaid
    obtain ⟨s, rfl, hs⟩ := hstring hnamed
    exact ⟨s, rfl, hs, hnames hnamed _ List.mem_cons_self s rfl⟩

/-- Whole numbers fit their buffers. -/
theorem Chain.Clean.fits {D : Doubles ν} (hD : D.Exact) {named : Bool} {c : Chain ν}
    (hc : c.Clean D named) : c.Fits D := by
  induction c generalizing named with
  | nil => trivial
  | cons string value child next ihc ihn =>
    obtain ⟨-, hvalue, hbelow, hnext⟩ := hc
    refine ⟨?_, ihn hnext⟩
    cases value with
    | number n =>
      obtain ⟨z, hz, rfl⟩ := hvalue
      change (printNumber D (D.ofInt z)).isSome = true
      rw [printNumber_int hD hz]
      rfl
    | array => exact ihc hbelow
    | object => exact ihc hbelow
    | _ => trivial

/-- What is printed is a text of the grammar, and spells what is printed of the document. -/
theorem print_spelled {D : Doubles ν} (hD : D.Exact) (fmt : Bool) {value : Value ν}
    {child : Chain ν} (hclean : (Chain.cons none value child .nil).Clean D false)
    (hsized : (Chain.cons none value child .nil).Sized D fmt 0) :
    ∃ (out : Text) (e : Entries false), print D fmt value child = some out ∧ e.Plain ∧
      e.chain D = (Chain.cons none value child .nil).canon false ∧ e.text = out := by
  obtain ⟨-, hlaid⟩ := itemTexts_laid hD fmt 0 hclean hsized fun h => (by cases h)
  obtain ⟨e, -, hplain, hchain, htext⟩ := hlaid (fun h => (by cases h)) .none .none
  refine ⟨_, e, (print_iff D fmt value child _).mpr ⟨⟨hclean.fits hD, hsized⟩, rfl⟩, hplain, hchain,
    ?_⟩
  simpa [Blank.none, printedBody, itemTexts, arrayBody] using htext

/-- A document is read back from what is printed of it, in either format and with anything behind
it: all of it but the names in its arrays and what hangs below values that have no entries. -/
theorem parse_print {D : Doubles ν} (hD : D.Exact) (fmt : Bool) {value : Value ν}
    {child : Chain ν} (hclean : (Chain.cons none value child .nil).Clean D false)
    (hsized : (Chain.cons none value child .nil).Sized D fmt 0) {behind : Text}
    (hbehind : NumberEnds behind) :
    ∃ out canonical, print D fmt value child = some out ∧
      (Chain.cons none value child .nil).canon false = .cons none value canonical .nil ∧
      parse D (out ++ behind) = .ok (value, canonical) := by
  obtain ⟨out, e, hprint, hplain, hchain, rfl⟩ := print_spelled hD fmt hclean hsized
  exact ⟨_, _, hprint, rfl, parse_written D hplain hchain hbehind⟩

theorem parse_print_object :
    ∃ out canonical,
      print integers true .object
          (.cons (some ['a']) .array (.cons none (.number 1) .nil .nil) .nil) = some out ∧
        (Chain.cons none .object
            (.cons (some ['a']) .array (.cons none (.number 1) .nil .nil) .nil) .nil).canon false =
          .cons none .object canonical .nil ∧
        parse integers (out ++ ['\n']) = .ok (.object, canonical) := by
  have hentry : (Chain.cons none (.number 1) .nil .nil).Clean integers false :=
    ⟨fun h => (by cases h), ⟨1, ⟨by decide, by decide⟩, rfl⟩, trivial, trivial⟩
  have hclean : (Chain.cons none .object
      (.cons (some ['a']) .array (.cons none (.number 1) .nil .nil) .nil) .nil).Clean
        integers false :=
    ⟨fun h => (by cases h), trivial,
      ⟨fun _ => ⟨['a'], rfl, by decide⟩, trivial, hentry, trivial⟩, trivial⟩
  have hsized : (Chain.cons none .object
      (.cons (some ['a']) .array (.cons none (.number 1) .nil .nil) .nil) .nil).Sized
        integers true 0 := by
    have hname : Countable ['a'] := by decide
    refine ⟨⟨fun e he s hs => ?_, by decide⟩, ⟨?_, ⟨trivial, trivial, trivial⟩, trivial⟩, trivial⟩
    · obtain rfl := List.mem_singleton.mp he
      obtain rfl := Option.some.inj hs
      exact hname
    · change (arrayLength true _ : ℤ) ≤ intMax
      decide
  exact parse_print integers_exact true hclean hsized fun c hc => Option.some.inj hc ▸ (by decide)

end DevFramework.Json
